import CacheTrace.Interpose.Kernel
import Mathlib.Algebra.BigOperators.Group.List.Basic

/-!
# Threads that share a file position

The wrapper `read` transfers, then asks for the position with `lseek(fd, 0, SEEK_CUR)`, and then
writes its record under the lock. Descriptors that were duplicated or inherited have one file
position together, and between the transfer and the question another thread may have moved it.

In every run, the offset of a record is the position after the transfer of its own call and, on
top of it, all the bytes that were transferred until the call asked (`Traced`). So the records
are right exactly when no call that is logged was overtaken in this way
(`logged_position_iff`).

How much a call transfers is open: any number of bytes up to the size it asks for, and none when
it fails or the file ends. The file is a regular one.
-/

namespace CacheTrace.Interpose.Shared

open Log Transition

/-! ## The program -/

/-- The arguments of `read`. -/
structure Call where
  fd : Nat
  size : Nat
  deriving DecidableEq

/-- Where a thread is in the wrapper. The number `after` is no variable of the program; it keeps
the position as the transfer left it. -/
inductive Pc where
  | outside
  | transferred (c : Call) (after : Nat)
  | asked (c : Call) (after pos : Nat)
  deriving DecidableEq

/-- A record, with the position after the transfer it is about. -/
structure Logged where
  record : Record
  after : Nat
  deriving DecidableEq

structure State where
  pos : Nat
  pc : Nat → Pc
  log : List Logged

inductive Event where
  | realRead (i : Nat) (c : Call) (k : Nat)
  | lseek (i : Nat)
  | writeLog (i : Nat)
  deriving DecidableEq

def Event.thread : Event → Nat
  | realRead i _ _ => i
  | lseek i => i
  | writeLog i => i

/-- The bytes by which an event moves the position. -/
def Event.moved : Event → Nat
  | realRead _ _ k => k
  | lseek _ => 0
  | writeLog _ => 0

def State.setPc (st : State) (i : Nat) (pc : Pc) : State :=
  { st with pc := Function.update st.pc i pc }

/-- After the transfer, `reg_fd` decides whether the wrapper goes on. -/
def afterRead (c : Call) (pos : Nat) : Pc :=
  if regFd c.fd (.file ()) then .transferred c pos else .outside

/-- The record that `handle_read` writes, if any. -/
def entries (pid : Int) (c : Call) (after pos : Nat) : List Logged :=
  ((handleRead pid c.fd pos c.size).map fun r => ⟨r, after⟩).toList

variable (pid : Nat → Int)

/-- A thread goes on. A position is an `off_t`. -/
def step (st : State) : Event → Option State
  | .realRead i c k =>
    match st.pc i with
    | .outside =>
      if k ≤ c.size ∧ st.pos + k < 2 ^ 63 then
        some { st.setPc i (afterRead c (st.pos + k)) with pos := st.pos + k }
      else none
    | _ => none
  | .lseek i =>
    match st.pc i with
    | .transferred c after => some (st.setPc i (.asked c after st.pos))
    | _ => none
  | .writeLog i =>
    match st.pc i with
    | .asked c after pos =>
      some { st.setPc i .outside with log := st.log ++ entries (pid i) c after pos }
    | _ => none

/-- No thread is in the wrapper. -/
def start (pos : Nat) : State := ⟨pos, fun _ => .outside, []⟩

/-! ## What is claimed and what it takes -/

/-- Every record has the position after the transfer of its call. -/
def Faithful (st : State) : Prop := ∀ x ∈ st.log, x.record.offset = x.after

/-- Thread `i` transfers for the call `c`, asks for the position after the events `between` of
other threads, and writes its record. -/
def Completes (es : List Event) (i : Nat) (c : Call) (between : List Event) : Prop :=
  ∃ before k rest, es = before ++ .realRead i c k :: (between ++ .lseek i :: rest) ∧
    (∀ e ∈ between, e.thread ≠ i) ∧ .writeLog i ∈ rest

/-- No call that is logged is overtaken: until it asks, no other thread transfers a byte. -/
def Undisturbed (es : List Event) : Prop :=
  ∀ i c between, Completes es i c between → 0 < c.size → ∀ e ∈ between, e.moved = 0

/-! ## Single steps -/

variable {pid} {st st' : State} {i : Nat} {c : Call} {after pos : Nat}

@[simp] theorem State.setPc_self (st : State) (i : Nat) (pc : Pc) : (st.setPc i pc).pc i = pc :=
  Function.update_self _ _ _

theorem State.setPc_of_ne (st : State) {i j : Nat} (h : j ≠ i) (pc : Pc) :
    (st.setPc i pc).pc j = st.pc j := Function.update_of_ne h _ _

theorem step_realRead {k : Nat} (h : step pid st (.realRead i c k) = some st') :
    st.pc i = .outside ∧
      st' = { st.setPc i (afterRead c (st.pos + k)) with pos := st.pos + k } := by
  simp only [step] at h
  split at h
  · split_ifs at h
    cases h
    exact ⟨‹_›, rfl⟩
  · cases h

theorem step_lseek (h : step pid st (.lseek i) = some st') :
    ∃ c after, st.pc i = .transferred c after ∧ st' = st.setPc i (.asked c after st.pos) := by
  simp only [step] at h
  split at h
  · cases h
    exact ⟨_, _, ‹_›, rfl⟩
  · cases h

theorem step_writeLog (h : step pid st (.writeLog i) = some st') :
    ∃ c after pos, st.pc i = .asked c after pos ∧
      st' = { st.setPc i .outside with log := st.log ++ entries (pid i) c after pos } := by
  simp only [step] at h
  split at h
  · cases h
    exact ⟨_, _, _, ‹_›, rfl⟩
  · cases h

theorem step_pos {e : Event} (h : step pid st e = some st') : st'.pos = st.pos + e.moved := by
  cases e with
  | realRead i c k =>
    obtain ⟨-, rfl⟩ := step_realRead h
    rfl
  | lseek i =>
    obtain ⟨c, after, -, rfl⟩ := step_lseek h
    rfl
  | writeLog i =>
    obtain ⟨c, after, pos, -, rfl⟩ := step_writeLog h
    rfl

theorem step_pc_of_ne {e : Event} (h : step pid st e = some st') (hi : e.thread ≠ i) :
    st'.pc i = st.pc i := by
  cases e with
  | realRead j c k =>
    obtain ⟨-, rfl⟩ := step_realRead h
    exact st.setPc_of_ne (Ne.symm hi) _
  | lseek j =>
    obtain ⟨c, after, -, rfl⟩ := step_lseek h
    exact st.setPc_of_ne (Ne.symm hi) _
  | writeLog j =>
    obtain ⟨c, after, pos, -, rfl⟩ := step_writeLog h
    exact st.setPc_of_ne (Ne.symm hi) _

theorem step_log_subset {e : Event} (h : step pid st e = some st') : st.log ⊆ st'.log := by
  cases e with
  | realRead i c k =>
    obtain ⟨-, rfl⟩ := step_realRead h
    exact List.Subset.refl _
  | lseek i =>
    obtain ⟨c, after, -, rfl⟩ := step_lseek h
    exact List.Subset.refl _
  | writeLog i =>
    obtain ⟨c, after, pos, -, rfl⟩ := step_writeLog h
    exact List.subset_append_left _ _

/-- A thread that has asked can only write its record. -/
theorem eq_writeLog_of_asked {e : Event} (h : step pid st e = some st')
    (hpc : st.pc i = .asked c after pos) (hi : e.thread = i) : e = .writeLog i := by
  subst hi
  cases e with
  | realRead i c k =>
    have hout := (step_realRead h).1
    cases hpc.symm.trans hout
  | lseek i =>
    obtain ⟨c', after', htransferred, -⟩ := step_lseek h
    cases hpc.symm.trans htransferred
  | writeLog i => rfl

theorem mem_entries {p : Int} {x : Logged} :
    x ∈ entries p c after pos ↔ 0 < c.size ∧ 2 < c.fd ∧
      x = ⟨⟨.read, p, c.fd, pos, c.size⟩, after⟩ := by
  simp only [entries, Option.mem_toList, Option.map_eq_some_iff, handleRead, handleAccess_eq_some]
  constructor
  · rintro ⟨r, ⟨-, hsize, hfd, rfl⟩, rfl⟩
    exact ⟨hsize, by omega, rfl⟩
  · rintro ⟨hsize, hfd, rfl⟩
    exact ⟨_, ⟨Int.natCast_nonneg _, hsize, by omega, rfl⟩, rfl⟩

/-! ## Runs -/

/-- The bytes by which a list of events moves the position. -/
def moved (es : List Event) : Nat := (es.map Event.moved).sum

theorem moved_eq_zero_iff {es : List Event} : moved es = 0 ↔ ∀ e ∈ es, e.moved = 0 := by
  simp [moved, List.sum_eq_zero_iff_forall_eq_nat]

theorem moved_concat (es : List Event) (e : Event) : moved (es ++ [e]) = moved es + e.moved := by
  simp [moved]

theorem run_pos {es : List Event} (h : run (step pid) st es = some st') :
    st'.pos = st.pos + moved es := by
  induction es generalizing st with
  | nil =>
    cases h
    rfl
  | cons e es ih =>
    obtain ⟨m, hm, hrest⟩ := Option.bind_eq_some_iff.mp h
    rw [ih hrest, step_pos hm, moved, moved, List.map_cons, List.sum_cons, Nat.add_assoc]

theorem run_pc {es : List Event} (h : run (step pid) st es = some st')
    (hi : ∀ e ∈ es, e.thread ≠ i) : st'.pc i = st.pc i :=
  run_invariant (I := fun m => m.pc i = st.pc i) (G := fun _ e => e.thread ≠ i)
    (fun _ _ _ hne hm hlast => (step_pc_of_ne hlast hne).trans hm) rfl h
    (guarded_of_forall (fun e he _ => hi e he) st)

theorem run_log_subset {es : List Event} (h : run (step pid) st es = some st') :
    st.log ⊆ st'.log :=
  run_invariant (I := fun m => st.log ⊆ m.log)
    (fun _ _ _ _ hm hlast => List.Subset.trans hm (step_log_subset hlast)) (List.Subset.refl _) h
    (guarded_true _ _)

/-- A thread that has asked writes the position it got. -/
theorem entries_subset_log {es : List Event} (h : run (step pid) st es = some st')
    (hpc : st.pc i = .asked c after pos) (hlog : .writeLog i ∈ es) :
    entries (pid i) c after pos ⊆ st'.log := by
  induction es generalizing st with
  | nil => cases hlog
  | cons e es ih =>
    obtain ⟨m, hm, hrest⟩ := Option.bind_eq_some_iff.mp h
    by_cases hi : e.thread = i
    · -- the first event of the thread is the one that writes
      obtain rfl := eq_writeLog_of_asked hm hpc hi
      obtain ⟨c', after', pos', hasked, rfl⟩ := step_writeLog hm
      cases hpc.symm.trans hasked
      exact List.Subset.trans (List.subset_append_right _ _) (run_log_subset hrest)
    · have hrestlog : .writeLog i ∈ es := by
        rcases List.mem_cons.mp hlog with rfl | hmem
        · exact absurd rfl hi
        · exact hmem
      exact ih hrest ((step_pc_of_ne hm hi).trans hpc) hrestlog

/-- The record of a call that completes. -/
theorem exists_logged {p : Nat} {es between : List Event}
    (h : run (step pid) (start p) es = some st) (hc : Completes es i c between)
    (hsize : 0 < c.size) :
    ∃ x ∈ st.log, x.record.offset = (x.after + moved between : Nat) := by
  obtain ⟨before, k, rest, rfl, hbetween, hlog⟩ := hc
  obtain ⟨m₁, -, hrun⟩ := run_append.mp h
  obtain ⟨m₂, hread, hrun⟩ := Option.bind_eq_some_iff.mp hrun
  obtain ⟨m₃, hmid, hrun⟩ := run_append.mp hrun
  obtain ⟨m₄, hseek, hrun⟩ := Option.bind_eq_some_iff.mp hrun
  obtain ⟨-, hm₂⟩ := step_realRead hread
  obtain ⟨c', after, hpc, rfl⟩ := step_lseek hseek
  have hpc₂ : afterRead c (m₁.pos + k) = .transferred c' after := by
    rw [← hpc, run_pc hmid hbetween, hm₂]
    simp
  have hpos : m₃.pos = m₁.pos + k + moved between := by
    rw [run_pos hmid, hm₂]
  unfold afterRead at hpc₂
  split_ifs at hpc₂ with hreg
  cases hpc₂
  have hfd : 2 < c.fd := by simpa [regFd] using hreg
  exact ⟨_, entries_subset_log hrun (by simp) hlog (mem_entries.mpr ⟨hsize, hfd, rfl⟩),
    congrArg Nat.cast hpos⟩

/-! ## Where the records come from -/

/-- Thread `i` has transferred for the call `c`, and then `between` happened. -/
def Transfers (es : List Event) (i : Nat) (c : Call) (between : List Event) : Prop :=
  ∃ before k, es = before ++ .realRead i c k :: between ∧ ∀ e ∈ between, e.thread ≠ i

/-- Thread `i` has transferred for the call `c`, then `between` happened, and then it asked. -/
def Asks (es : List Event) (i : Nat) (c : Call) (between : List Event) : Prop :=
  ∃ before k rest, es = before ++ .realRead i c k :: (between ++ .lseek i :: rest) ∧
    ∀ e ∈ between, e.thread ≠ i

section Concat

variable {es between : List Event}

theorem Transfers.concat (h : Transfers es i c between) {e : Event} (hi : e.thread ≠ i) :
    Transfers (es ++ [e]) i c (between ++ [e]) := by
  obtain ⟨before, k, rfl, hbetween⟩ := h
  refine ⟨before, k, by simp, ?_⟩
  intro e' he'
  rcases List.mem_append.mp he' with he' | he'
  · exact hbetween e' he'
  · rw [List.mem_singleton.mp he']
    exact hi

theorem Transfers.asks (h : Transfers es i c between) : Asks (es ++ [.lseek i]) i c between := by
  obtain ⟨before, k, rfl, hbetween⟩ := h
  exact ⟨before, k, [], by simp, hbetween⟩

theorem Asks.concat (h : Asks es i c between) (e : Event) : Asks (es ++ [e]) i c between := by
  obtain ⟨before, k, rest, rfl, hbetween⟩ := h
  exact ⟨before, k, rest ++ [e], by simp, hbetween⟩

theorem Asks.completes (h : Asks es i c between) :
    Completes (es ++ [.writeLog i]) i c between := by
  obtain ⟨before, k, rest, rfl, hbetween⟩ := h
  exact ⟨before, k, rest ++ [.writeLog i], by simp, hbetween, by simp⟩

theorem Completes.concat (h : Completes es i c between) (e : Event) :
    Completes (es ++ [e]) i c between := by
  obtain ⟨before, k, rest, rfl, hbetween, hlog⟩ := h
  exact ⟨before, k, rest ++ [e], by simp, hbetween, List.mem_append_left _ hlog⟩

end Concat

/-- What the threads and the log owe to the events so far: a position that was asked for, or is
still to be asked for, is the one after the transfer and all that was moved since. -/
structure Traced (es : List Event) (st : State) : Prop where
  transferred : ∀ i c after, st.pc i = .transferred c after →
    ∃ between, Transfers es i c between ∧ st.pos = after + moved between
  asked : ∀ i c after pos, st.pc i = .asked c after pos →
    ∃ between, Asks es i c between ∧ pos = after + moved between
  logged : ∀ x ∈ st.log, ∃ i c between, Completes es i c between ∧ 0 < c.size ∧
    x.record.offset = (x.after + moved between : Nat)

theorem traced_start (p : Nat) : Traced [] (start p) where
  transferred _ _ _ h := by cases h
  asked _ _ _ _ h := by cases h
  logged _ h := by cases h

section Step

variable {es : List Event} {e : Event} (h : Traced es st) (hstep : step pid st e = some st')

include h hstep

/-- Only the thread that made the step and the records it wrote are to be traced anew. -/
theorem Traced.of_thread
    (htransferred : ∀ c after, st'.pc e.thread = .transferred c after →
      ∃ between, Transfers (es ++ [e]) e.thread c between ∧ st'.pos = after + moved between)
    (hasked : ∀ c after pos, st'.pc e.thread = .asked c after pos →
      ∃ between, Asks (es ++ [e]) e.thread c between ∧ pos = after + moved between)
    (hlogged : ∀ x ∈ st'.log, x ∈ st.log ∨ ∃ i c between, Completes (es ++ [e]) i c between ∧
      0 < c.size ∧ x.record.offset = (x.after + moved between : Nat)) :
    Traced (es ++ [e]) st' := by
  refine ⟨fun i c after hpc => ?_, fun i c after pos hpc => ?_, fun x hx => ?_⟩
  · by_cases hi : e.thread = i
    · subst hi
      exact htransferred c after hpc
    · rw [step_pc_of_ne hstep hi] at hpc
      obtain ⟨between, hes, hpos⟩ := h.transferred i c after hpc
      refine ⟨between ++ [e], hes.concat hi, ?_⟩
      rw [step_pos hstep, hpos, moved_concat, Nat.add_assoc]
  · by_cases hi : e.thread = i
    · subst hi
      exact hasked c after pos hpc
    · rw [step_pc_of_ne hstep hi] at hpc
      obtain ⟨between, hes, hpos⟩ := h.asked i c after pos hpc
      exact ⟨between, hes.concat e, hpos⟩
  · rcases hlogged x hx with hold | hnew
    · obtain ⟨i, c, between, hc, hrest⟩ := h.logged x hold
      exact ⟨i, c, between, hc.concat e, hrest⟩
    · exact hnew

theorem Traced.step : Traced (es ++ [e]) st' := by
  cases e with
  | realRead i c k =>
    obtain ⟨-, rfl⟩ := step_realRead hstep
    refine h.of_thread hstep (fun c' after hpc => ?_) (fun c' after pos hpc => ?_)
      fun x hx => .inl hx
    · have hpc : afterRead c (st.pos + k) = .transferred c' after := by
        simpa [Event.thread] using hpc
      unfold afterRead at hpc
      split_ifs at hpc
      cases hpc
      exact ⟨[], ⟨es, k, rfl, by simp⟩, rfl⟩
    · have hpc : afterRead c (st.pos + k) = .asked c' after pos := by
        simpa [Event.thread] using hpc
      unfold afterRead at hpc
      split_ifs at hpc
  | lseek i =>
    obtain ⟨c, after, hbefore, rfl⟩ := step_lseek hstep
    refine h.of_thread hstep (fun c' after' hpc => ?_) (fun c' after' pos hpc => ?_)
      fun x hx => .inl hx
    · simp [Event.thread] at hpc
    · have hpc : Pc.asked c after st.pos = .asked c' after' pos := by
        simpa [Event.thread] using hpc
      cases hpc
      obtain ⟨between, hes, hpos⟩ := h.transferred i c after hbefore
      exact ⟨between, hes.asks, hpos⟩
  | writeLog i =>
    obtain ⟨c, after, pos, hbefore, rfl⟩ := step_writeLog hstep
    refine h.of_thread hstep (fun c' after' hpc => ?_) (fun c' after' pos' hpc => ?_) fun x hx => ?_
    · simp [Event.thread] at hpc
    · simp [Event.thread] at hpc
    · rcases List.mem_append.mp hx with hold | hnew
      · exact .inl hold
      · obtain ⟨hsize, -, rfl⟩ := mem_entries.mp hnew
        obtain ⟨between, hes, hpos⟩ := h.asked i c after pos hbefore
        exact .inr ⟨i, c, between, hes.completes, hsize, congrArg Nat.cast hpos⟩

end Step

theorem traced_run {p : Nat} {es : List Event} (h : run (step pid) (start p) es = some st) :
    Traced es st :=
  run_history (P := Traced) (traced_start p)
    (fun _ _ _ _ _ _ _ hm hlast => hm.step hlast) h (guarded_true _ _)

/-- **When the logged positions are right.** In every run, the offset of each record is the
position after the transfer of its own call if and only if no call that is logged is overtaken
between its transfer and its question for the position. -/
theorem logged_position_iff {p : Nat} {es : List Event} {st : State}
    (h : run (step pid) (start p) es = some st) : Faithful st ↔ Undisturbed es := by
  constructor
  · intro hfaithful i c between hc hsize
    obtain ⟨x, hx, hoffset⟩ := exists_logged h hc hsize
    have hright := hfaithful x hx
    rw [← moved_eq_zero_iff]
    omega
  · intro hundisturbed x hx
    obtain ⟨i, c, between, hc, hsize, hoffset⟩ := (traced_run h).logged x hx
    have hzero := moved_eq_zero_iff.mpr (hundisturbed i c between hc hsize)
    rw [hoffset, hzero, Nat.add_zero]

/-- Two reads of ten bytes. The second transfer comes before the first thread asks. -/
theorem overtaken_read :
    ∃ st, run (step fun _ => 1) (start 0)
        [.realRead 0 ⟨3, 10⟩ 10, .realRead 1 ⟨4, 10⟩ 10, .lseek 0, .writeLog 0] = some st ∧
      st.log = [⟨⟨.read, 1, 3, 20, 10⟩, 10⟩] ∧ ¬ Faithful st := by
  refine ⟨_, rfl, rfl, fun h => ?_⟩
  have hoffset : (20 : Int) = (10 : Nat) := h ⟨⟨.read, 1, 3, 20, 10⟩, 10⟩ List.mem_cons_self
  exact absurd hoffset (by decide)

/-- The second transfer comes after the first thread asked. -/
theorem logged_position_two_reads :
    ∃ st, run (step fun _ => 1) (start 0)
        [.realRead 0 ⟨3, 10⟩ 10, .lseek 0, .realRead 1 ⟨4, 10⟩ 10, .lseek 1, .writeLog 1,
          .writeLog 0] = some st ∧
      Faithful st ∧ Undisturbed [.realRead 0 ⟨3, 10⟩ 10, .lseek 0, .realRead 1 ⟨4, 10⟩ 10,
        .lseek 1, .writeLog 1, .writeLog 0] := by
  obtain ⟨st, hrun, hlog⟩ : ∃ st, run (step fun _ => 1) (start 0)
      [.realRead 0 ⟨3, 10⟩ 10, .lseek 0, .realRead 1 ⟨4, 10⟩ 10, .lseek 1, .writeLog 1,
        .writeLog 0] = some st ∧
      st.log = [⟨⟨.read, 1, 4, 20, 10⟩, 20⟩, ⟨⟨.read, 1, 3, 10, 10⟩, 10⟩] := ⟨_, rfl, rfl⟩
  have hright : Faithful st := by
    rw [Faithful, hlog]
    decide
  exact ⟨st, hrun, hright, (logged_position_iff hrun).mp hright⟩

end CacheTrace.Interpose.Shared
