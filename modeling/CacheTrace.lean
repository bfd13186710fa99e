import CacheTrace.Label.Growth
import CacheTrace.Label.Settings
import CacheTrace.Synthetic.RandomReuse
import CacheTrace.Synthetic.Sequential
import CacheTrace.Interpose.Clear
import CacheTrace.Interpose.Describes
import CacheTrace.Interpose.Shared
import CacheTrace.Interpose.Wrappers
import CacheTrace.LogLock.Interrupt
import CacheTrace.LogLock.Recovery
import CacheTrace.Training.Loader
import CacheTrace.Training.Mask
import CacheTrace.Training.Evaluation
import CacheTrace.Machine.Arith
import CacheTrace.Madbench.Overflow
import CacheTrace.Madbench.Runs
