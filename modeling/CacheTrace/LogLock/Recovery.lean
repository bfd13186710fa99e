import CacheTrace.LogLock.Records

/-!
# Killed processes

A process that is killed runs no destructor and posts nothing. If it has the semaphore, the
permit is gone; nothing in the library brings it back, and the name may stay bound to that
semaphore.

`recovery_iff` describes the semaphore that a process started next would get, when no live
process has it: it can be taken if and only if no process was killed with it. In the first
case the next process can log, in the second one no wait for the semaphore ever succeeds.
-/

namespace CacheTrace.LogLock

open Log Transition

variable {A : Type}

/-- A semaphore with which a process was killed has no permit. -/
theorem Sound.value_of_killed {st : State A} (h : Sound st) {a : A} {s : SemId}
    (ha : st.proc a = .killed s true) : st.value s = 0 := by
  refine (h.balanced.value_eq_zero s).mpr ⟨a, ?_⟩
  change (st.proc a).holds = some s
  rw [ha]
  rfl

/-- With a semaphore that a process was killed with, nobody is between `get_sem` and
`post_sem`. -/
theorem Sound.not_critical_of_killed {st : State A} (h : Sound st) {a b : A} {s : SemId} {pc : Pc}
    (ha : st.proc a = .killed s true) (hb : st.proc b = .live s pc) : pc.critical = false := by
  by_contra hpc
  have hholds : (ledger st).holder a = some s := by
    change (st.proc a).holds = some s
    rw [ha]
    rfl
  have hab := h.balanced.unique a b s hholds (h.holds hb (eq_true_of_ne_false hpc))
  rw [hab, hb] at ha
  cases ha

variable [DecidableEq A] {getpid : A → Int}

/-- Killed once, killed for good. -/
theorem Step.killed {st st' : State A} {e : Event A} {a : A} {s : SemId} {held : Bool}
    (hstep : Step getpid st e st') (h : st.proc a = .killed s held) :
    st'.proc a = .killed s held := by
  rcases hstep.moves with ⟨b, -, hb, rfl⟩ | ⟨b, s', pc, x, hb, hproc, -, -, -⟩
  · have hab : a ≠ b := by
      rintro rfl
      rw [h] at hb
      cases hb
    unfold openSem
    split
    · rw [State.setProc_of_ne _ hab, h]
    · rw [State.setProc_of_ne _ hab, h]
  · have hab : a ≠ b := by
      rintro rfl
      rw [h] at hb
      cases hb
    rw [hproc, State.setProc_of_ne _ hab, h]

/-- No wait for a semaphore without a permit succeeds. -/
theorem acquire_eq_none {st : State A} {b : A} {s : SemId} {pc : Pc} (hv : st.value s = 0)
    (hb : st.proc b = .live s pc) (r : Record) : step getpid st (.acquire b r) = none := by
  rw [Option.eq_none_iff_forall_ne_some]
  intro st' hst'
  cases step_eq_some.mp hst' with
  | acquire hp hpos =>
    rw [hb] at hp
    cases hp
    omega

/-- After a process was killed with the semaphore, whoever has it open stays out of `write_log`. -/
theorem locked_out {st st' : State A} {es : List (Event A)} {a : A} {s : SemId}
    (h : Sound st) (ha : st.proc a = .killed s true)
    (hrun : run (step getpid) st es = some st') (hes : ∀ e ∈ es, ¬ e.Interrupts) :
    st'.value s = 0 ∧ ∀ b pc, st'.proc b = .live s pc →
      pc.critical = false ∧ ∀ r, step getpid st' (.acquire b r) = none := by
  have hkilled : st'.proc a = .killed s true :=
    run_invariant (I := fun m => m.proc a = .killed s true)
      (fun _ _ _ _ hm hlast => (step_eq_some.mp hlast).killed hm) ha hrun (guarded_true _ _)
  have hsound := h.run hrun hes
  have hv := hsound.value_of_killed hkilled
  exact ⟨hv, fun b pc hb => ⟨hsound.not_critical_of_killed hkilled hb, acquire_eq_none hv hb⟩⟩

/-- A process that starts and gets a free semaphore can log its first call. -/
theorem run_start_log {st : State A} {a : A} {s : SemId} {c : Call} {r : Record}
    (hs : st.bound = some s) (hv : 1 ≤ st.value s) (ha : st.proc a = .absent)
    (hc : c.record (getpid a) = some r) :
    ∃ es st', run (step getpid) st (.start a :: .call a c :: .acquire a r :: es) = some st' ∧
      (∀ e ∈ es, e.Logs) ∧ st'.proc a = .live s .idle ∧
      st'.log = (writeLog true st.log r).log := by
  have hopen : openSem st a = st.setProc a (.live s .idle) := by
    unfold openSem
    rw [hs]
  let m₁ := st.setProc a (.live s .idle)
  let m₂ := m₁.setProc a (.live s (.waiting r))
  let m₃ := (getSem m₂ s).setProc a (.live s (.opening r true))
  have h₁ : step getpid st (.start a) = some m₁ :=
    (step_eq_some.mpr (.start ha)).trans (congrArg some hopen)
  have h₂ : step getpid m₁ (.call a c) = some m₂ := by
    have henter : enter (getpid a) c = .waiting r := by
      unfold enter
      rw [hc]
    have hcall : Step getpid m₁ (.call a c) (m₁.setProc a (.live s (enter (getpid a) c))) :=
      .call (State.setProc_self ..)
    rw [henter] at hcall
    exact step_eq_some.mpr hcall
  have h₃ : step getpid m₂ (.acquire a r) = some m₃ :=
    step_eq_some.mpr (.acquire (State.setProc_self ..) hv)
  obtain ⟨es, st', hrun, hes, hproc, -, hlog⟩ :=
    finishes getpid (State.setProc_self (getSem m₂ s) a
      (.live s (.opening r true))) rfl
  refine ⟨es, st', ?_, hes, by rw [hproc, State.setProc_self], hlog⟩
  rw [run_cons, h₁, Option.bind_some, run_cons, h₂, Option.bind_some, run_cons, h₃,
    Option.bind_some, hrun]

/-- **When the semaphore is not lost.** -/
theorem recovery_iff (getpid : A → Int) (log₀ : Text) {es : List (Event A)} {st : State A}
    {s : SemId} (hrun : run (step getpid) (init log₀) es = some st)
    (hes : ∀ e ∈ es, ¬ e.Interrupts) (hs : st.bound = some s)
    (hlive : ∀ a pc, st.proc a = .live s pc → pc.held = false) :
    (1 ≤ st.value s ↔ ∀ a, st.proc a ≠ .killed s true) ∧
    (1 ≤ st.value s → ∀ a c r, st.proc a = .absent → c.record (getpid a) = some r →
      ∃ es' st', run (step getpid) st (.start a :: .call a c :: .acquire a r :: es') = some st' ∧
        (∀ e ∈ es', e.Logs) ∧ st'.proc a = .live s .idle ∧
        st'.log = (writeLog true st.log r).log) ∧
    (∀ a, st.proc a = .killed s true → ∀ es' st', run (step getpid) st es' = some st' →
      (∀ e ∈ es', ¬ e.Interrupts) → st'.value s = 0 ∧
        ∀ b pc, st'.proc b = .live s pc →
          pc.critical = false ∧ ∀ r, step getpid st' (.acquire b r) = none) := by
  have hsound : Sound st := (sound_init log₀).run hrun hes
  refine ⟨⟨fun hv a ha => ?_, fun hnone => ?_⟩, fun hv a c r ha hc => run_start_log hs hv ha hc,
    fun a ha es' st' hrun' hes' => locked_out hsound ha hrun' hes'⟩
  · have := hsound.value_of_killed ha
    omega
  · -- a holder would be alive or killed with the semaphore
    refine Nat.le_of_eq (hsound.balanced.value_eq_one fun a ha => ?_).symm
    change (st.proc a).holds = some s at ha
    cases hx : st.proc a with
    | absent | exited =>
      rw [hx] at ha
      cases ha
    | live s' pc =>
      simp only [hx, Status.holds, Option.ite_none_right_eq_some, Option.some.injEq] at ha
      obtain ⟨hheld, rfl⟩ := ha
      rw [hlive a pc hx] at hheld
      cases hheld
    | killed s' held =>
      simp only [hx, Status.holds, Option.ite_none_right_eq_some, Option.some.injEq] at ha
      obtain ⟨rfl, rfl⟩ := ha
      exact hnone a hx

/-- A process gets the semaphore and is killed before it posts. -/
def killedRun : List (Event Bool) :=
  [.start false, .call false ⟨.read, 3, 4096, 4096⟩, .acquire false ⟨.read, 7, 3, 4096, 4096⟩,
    .kill false]

theorem run_killedRun : ∃ st, run (step samplePid) (init []) killedRun = some st ∧
    st.bound = some 0 ∧ st.value 0 = 0 ∧ st.proc true = .absent ∧
    st.proc false = .killed 0 true := ⟨_, rfl, rfl, rfl, rfl, rfl⟩

theorem recovery_iff_killedRun :
    ∃ st, run (step samplePid) (init []) killedRun = some st ∧
      st.bound = some 0 ∧ (1 ≤ st.value 0 ↔ ∀ a, st.proc a ≠ .killed 0 true) := by
  obtain ⟨st, hrun, hbound, -, htrue, hfalse⟩ := run_killedRun
  refine ⟨st, hrun, hbound, (recovery_iff _ [] hrun ?_ hbound ?_).1⟩
  · simp [killedRun, Event.Interrupts]
  · rintro (_ | _) pc hp
    · rw [hfalse] at hp
      cases hp
    · rw [htrue] at hp
      cases hp

/-- After `killedRun` no process is alive, the name is bound and the semaphore has value 0. -/
theorem recovery_not_after_kill :
    ¬ ∀ es (st : State Bool), run (step samplePid) (init []) es = some st →
      (∀ e ∈ es, ¬ e.Interrupts) → (∀ a s pc, st.proc a = .live s pc → pc.held = false) →
      ∀ s, st.bound = some s → 1 ≤ st.value s := by
  intro h
  obtain ⟨st, hrun, hbound, hvalue, htrue, hfalse⟩ := run_killedRun
  have hone := h killedRun st hrun (by simp [killedRun, Event.Interrupts]) ?_ 0 hbound
  · omega
  · rintro (_ | _) s pc hp
    · rw [hfalse] at hp
      cases hp
    · rw [htrue] at hp
      cases hp

end CacheTrace.LogLock
