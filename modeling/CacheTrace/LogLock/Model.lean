import CacheTrace.Log.Record
import CacheTrace.Ownership.Ledger
import CacheTrace.Transition.Run

/-!
# The lock around the log

`data_gen/lib/handler.cpp` writes every record of `ACCESS_LOG` between `get_sem` and
`post_sem`. The semaphore has the name `mysem`: the constructor of the library opens it, and
creates it with value 1 when the name is unbound; the destructor unlinks the name, whoever
still uses the semaphore.

The model interleaves any set of agents. An agent is a process; in runs from `shared`, where
nobody starts or exits, it may as well be a thread of one. Every agent has a program counter
in `handle_read` and `handle_write`. The result of `sem_wait` is ignored there, so an
interrupted wait goes on to write and to post as well; the counter remembers whether the
semaphore was really taken (`held`), which the code does not.

`Step` lists what an agent can do, `step` is the same as a function on events
(`step_eq_some`).
-/

namespace CacheTrace.LogLock

open Log

abbrev SemId := Nat

/-- The arguments of `handle_read` and `handle_write`. -/
structure Call where
  type : AccessType
  fd : Int
  pos : Int
  bytes : Nat
  deriving DecidableEq

/-- The record of the call, `none` when the sanitization check fails. -/
def Call.record (c : Call) (pid : Int) : Option Record :=
  match c.type with
  | .read => handleRead pid c.fd c.pos c.bytes
  | .write => handleWrite pid c.fd c.pos c.bytes

/-- Where an agent is in a handler. -/
inductive Pc where
  | idle
  /-- In `get_sem`. -/
  | waiting (r : Record)
  /-- `get_sem` has returned, the log is not open yet. -/
  | opening (r : Record) (held : Bool)
  /-- The log is open, and `rest` of the line has not reached it. -/
  | writing (r : Record) (rest : Text) (held : Bool)
  /-- `write_log` has returned. -/
  | posting (r : Record) (held : Bool)
  deriving DecidableEq

/-- Between a successful `get_sem` and its `post_sem`. -/
def Pc.held : Pc → Bool
  | .idle | .waiting _ => false
  | .opening _ h | .writing _ _ h | .posting _ h => h

/-- Between `get_sem` and `post_sem`, whatever `get_sem` returned. -/
def Pc.critical : Pc → Bool
  | .idle | .waiting _ => false
  | .opening _ _ | .writing _ _ _ | .posting _ _ => true

def Pc.inWriteLog : Pc → Bool
  | .opening _ _ | .writing _ _ _ => true
  | _ => false

inductive Status where
  | absent
  | live (mysemp : SemId) (pc : Pc)
  | exited
  /-- Killed with the semaphore `mysemp` open; `held` if it was between a successful `get_sem`
  and its `post_sem`. -/
  | killed (mysemp : SemId) (held : Bool)
  deriving DecidableEq

/-- The semaphore that an agent took and did not post. -/
def Status.holds : Status → Option SemId
  | .live s pc => if pc.held then some s else none
  | .killed s held => if held then some s else none
  | _ => none

/-- The semaphore that an agent has open, or had when it was killed. -/
def Status.attached : Status → Option SemId
  | .live s _ => some s
  | .killed s _ => some s
  | _ => none

structure State (A : Type) where
  value : SemId → Nat
  /-- The semaphores created so far have numbers below `next`. -/
  next : SemId
  /-- The semaphore with the name `mysem`. -/
  bound : Option SemId
  proc : A → Status
  log : Text

/-- What happens, with the agent and the record it is about. -/
inductive Event (A : Type) where
  | start (a : A)
  | call (a : A) (c : Call)
  | acquire (a : A) (r : Record)
  | interrupt (a : A) (r : Record)
  | fopen (a : A) (r : Record)
  | openFail (a : A) (r : Record)
  | append (a : A) (r : Record) (n : Nat)
  | fclose (a : A) (r : Record)
  | post (a : A) (r : Record)
  | exit (a : A)
  | kill (a : A)

variable {A : Type}

/-- A step of a handler in which nothing fails. -/
def Event.Logs : Event A → Prop
  | .call _ _ | .acquire _ _ | .fopen _ _ | .append _ _ _ | .fclose _ _ | .post _ _ => True
  | _ => False

/-- A step of a handler: nobody starts, exits or is killed. -/
def Event.Handles : Event A → Prop
  | .start _ | .exit _ | .kill _ => False
  | _ => True

/-- A `sem_wait` that returns `-1` with `EINTR`. -/
def Event.Interrupts : Event A → Prop
  | .interrupt _ _ => True
  | _ => False

/-- No agent has started, and the name is unbound. -/
def init (log : Text) : State A := ⟨fun _ => 1, 0, none, fun _ => .absent, log⟩

/-- All agents have opened one semaphore and are outside the handlers. -/
def shared (log : Text) : State A := ⟨fun _ => 1, 1, some 0, fun _ => .live 0 .idle, log⟩

/-- The counter after the check at the beginning of a handler. -/
def enter (pid : Int) (c : Call) : Pc :=
  match c.record pid with
  | none => .idle
  | some r => .waiting r

def State.setValue (st : State A) (s : SemId) (v : Nat) : State A :=
  { st with value := Function.update st.value s v }

/-- `get_sem` when `sem_wait` succeeds, which it does as soon as the value is positive. -/
def getSem (st : State A) (s : SemId) : State A := st.setValue s (st.value s - 1)

def postSem (st : State A) (s : SemId) : State A := st.setValue s (st.value s + 1)

/-- `dest_sem`: `sem_unlink(semname)`, also when the name is not bound. -/
def destSem (st : State A) : State A := { st with bound := none }

/-- A chunk reaches the log, which is open for appending. -/
def State.appendLog (st : State A) (chunk : Text) : State A := { st with log := st.log ++ chunk }

variable [DecidableEq A]

def State.setProc (st : State A) (a : A) (x : Status) : State A :=
  { st with proc := Function.update st.proc a x }

@[simp] theorem State.setProc_self (st : State A) (a : A) (x : Status) :
    (st.setProc a x).proc a = x := Function.update_self ..

theorem State.setProc_of_ne (st : State A) {a b : A} (h : b ≠ a) (x : Status) :
    (st.setProc a x).proc b = st.proc b := Function.update_of_ne h ..

/-- A property of all agents after one of them moved. -/
theorem State.forall_setProc {P : A → Status → Prop} {st : State A} {a : A} {x : Status}
    (ha : P a x) (h : ∀ b, P b (st.proc b)) (b : A) : P b ((st.setProc a x).proc b) := by
  by_cases hb : b = a
  · rw [hb, State.setProc_self]
    exact ha
  · rw [State.setProc_of_ne st hb]
    exact h b

/-- `open_sem`: `sem_open(semname, O_CREAT, 0666, 1)`. -/
def openSem (st : State A) (a : A) : State A :=
  match st.bound with
  | some s => st.setProc a (.live s .idle)
  | none =>
    State.setProc ⟨Function.update st.value st.next 1, st.next + 1, some st.next, st.proc, st.log⟩
      a (.live st.next .idle)

variable (getpid : A → Int)

def step (st : State A) : Event A → Option (State A)
  | .start a => match st.proc a with
    | .absent => some (openSem st a)
    | _ => none
  | .call a c => match st.proc a with
    | .live s .idle => some (st.setProc a (.live s (enter (getpid a) c)))
    | _ => none
  | .acquire a r => match st.proc a with
    | .live s (.waiting r') =>
      if r' = r ∧ 0 < st.value s then
        some ((getSem st s).setProc a (.live s (.opening r true)))
      else none
    | _ => none
  | .interrupt a r => match st.proc a with
    | .live s (.waiting r') =>
      if r' = r then some (st.setProc a (.live s (.opening r false))) else none
    | _ => none
  | .fopen a r => match st.proc a with
    | .live s (.opening r' held) =>
      if r' = r then some (st.setProc a (.live s (.writing r (logLine r) held))) else none
    | _ => none
  | .openFail a r => match st.proc a with
    | .live s (.opening r' held) =>
      if r' = r then some (st.setProc a (.live s (.posting r held))) else none
    | _ => none
  | .append a r n => match st.proc a with
    | .live s (.writing r' rest held) =>
      if r' = r then
        some ((st.appendLog (rest.take n)).setProc a (.live s (.writing r (rest.drop n) held)))
      else none
    | _ => none
  | .fclose a r => match st.proc a with
    | .live s (.writing r' [] held) =>
      if r' = r then some (st.setProc a (.live s (.posting r held))) else none
    | _ => none
  | .post a r => match st.proc a with
    | .live s (.posting r' _) =>
      if r' = r then some ((postSem st s).setProc a (.live s .idle)) else none
    | _ => none
  | .exit a => match st.proc a with
    -- the destructor, whoever still uses the semaphore
    | .live _ .idle => some ((destSem st).setProc a .exited)
    | _ => none
  | .kill a => match st.proc a with
    | .live s pc => some (st.setProc a (.killed s pc.held))
    | _ => none

/-! ## What a step does -/

inductive Step (st : State A) : Event A → State A → Prop
  | start {a} (h : st.proc a = .absent) : Step st (.start a) (openSem st a)
  | call {a c s} (h : st.proc a = .live s .idle) :
    Step st (.call a c) (st.setProc a (.live s (enter (getpid a) c)))
  | acquire {a r s} (h : st.proc a = .live s (.waiting r)) (hv : 0 < st.value s) :
    Step st (.acquire a r) ((getSem st s).setProc a (.live s (.opening r true)))
  | interrupt {a r s} (h : st.proc a = .live s (.waiting r)) :
    Step st (.interrupt a r) (st.setProc a (.live s (.opening r false)))
  | fopen {a r s held} (h : st.proc a = .live s (.opening r held)) :
    Step st (.fopen a r) (st.setProc a (.live s (.writing r (logLine r) held)))
  | openFail {a r s held} (h : st.proc a = .live s (.opening r held)) :
    Step st (.openFail a r) (st.setProc a (.live s (.posting r held)))
  | append {a r n s rest held} (h : st.proc a = .live s (.writing r rest held)) :
    Step st (.append a r n)
      ((st.appendLog (rest.take n)).setProc a (.live s (.writing r (rest.drop n) held)))
  | fclose {a r s held} (h : st.proc a = .live s (.writing r [] held)) :
    Step st (.fclose a r) (st.setProc a (.live s (.posting r held)))
  | post {a r s held} (h : st.proc a = .live s (.posting r held)) :
    Step st (.post a r) ((postSem st s).setProc a (.live s .idle))
  | exit {a s} (h : st.proc a = .live s .idle) :
    Step st (.exit a) ((destSem st).setProc a .exited)
  | kill {a s pc} (h : st.proc a = .live s pc) :
    Step st (.kill a) (st.setProc a (.killed s pc.held))

variable {getpid}

theorem step_eq_some {st st' : State A} {e : Event A} :
    step getpid st e = some st' ↔ Step getpid st e st' := by
  constructor
  · intro h
    cases e with
    | start a | call a c | exit a | kill a =>
      simp only [step] at h
      split at h
      · rename_i hp
        cases h
        constructor
        exact hp
      · cases h
    | acquire a r =>
      simp only [step] at h
      split at h
      · rename_i hp
        split_ifs at h with hr
        obtain ⟨rfl, hv⟩ := hr
        cases h
        exact .acquire hp hv
      · cases h
    | interrupt a r | fopen a r | openFail a r | append a r n | fclose a r | post a r =>
      simp only [step] at h
      split at h
      · rename_i hp
        split_ifs at h with hr
        subst hr
        cases h
        constructor
        exact hp
      · cases h
  · intro h
    cases h <;> simp_all [step]

/-- A step starts an agent or moves a live one, which keeps its semaphore while it lives. -/
theorem Step.moves {st st' : State A} {e : Event A} (h : Step getpid st e st') :
    (∃ a, e = .start a ∧ st.proc a = .absent ∧ st' = openSem st a) ∨
    ∃ a s pc x, st.proc a = .live s pc ∧ st'.proc = (st.setProc a x).proc ∧
      st'.next = st.next ∧ (∀ s', st'.bound = some s' → st.bound = some s') ∧
      ((∃ pc', x = .live s pc') ∨ (e = .exit a ∧ x = .exited) ∨
        (e = .kill a ∧ x = .killed s pc.held)) := by
  cases h with
  | start hp => exact Or.inl ⟨_, rfl, hp, rfl⟩
  | call hp | interrupt hp | fopen hp | openFail hp | append hp | fclose hp | post hp =>
    exact Or.inr ⟨_, _, _, _, hp, rfl, rfl, fun _ => id, Or.inl ⟨_, rfl⟩⟩
  | acquire hp hv => exact Or.inr ⟨_, _, _, _, hp, rfl, rfl, fun _ => id, Or.inl ⟨_, rfl⟩⟩
  | exit hp =>
    refine Or.inr ⟨_, _, _, _, hp, rfl, rfl, ?_, Or.inr (Or.inl ⟨rfl, rfl⟩)⟩
    rintro s' ⟨⟩
  | kill hp => exact Or.inr ⟨_, _, _, _, hp, rfl, rfl, fun _ => id, Or.inr (Or.inr ⟨rfl, rfl⟩)⟩

/-- A property of agents that holds of all of them after they opened the semaphore. -/
theorem forall_openSem {P : A → Status → Prop} {st : State A} {a : A}
    (ha : ∀ s, P a (.live s .idle)) (h : ∀ b, P b (st.proc b)) (b : A) :
    P b ((openSem st a).proc b) := by
  unfold openSem
  split
  · exact State.forall_setProc (ha _) h b
  · exact State.forall_setProc (ha _) h b

end CacheTrace.LogLock
