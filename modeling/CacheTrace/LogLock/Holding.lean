import CacheTrace.LogLock.Model

/-!
# The ledger of the log lock

As long as no wait is interrupted, an agent between `get_sem` and `post_sem` holds its
semaphore, and the steps of the system only take and give back permits (`ledger_step`). So
every semaphore that ever existed has one permit: it is free, or one agent holds it, alive or
killed (`Sound.step`).
-/

namespace CacheTrace.LogLock

open Log Transition Ownership

variable {A : Type}

/-- The permits of a state and who holds them. -/
def ledger (st : State A) : Ledger SemId A := ⟨st.value, fun a => (st.proc a).holds⟩

theorem Status.attached_of_holds {x : Status} {s : SemId} (h : x.holds = some s) :
    x.attached = some s := by
  cases x with
  | absent | exited => cases h
  | live s' pc =>
    simp only [Status.holds, Option.ite_none_right_eq_some] at h
    exact h.2
  | killed s' held =>
    simp only [Status.holds, Option.ite_none_right_eq_some] at h
    exact h.2

theorem Pc.critical_of_held {pc : Pc} (h : pc.held = true) : pc.critical = true := by
  cases pc with
  | idle | waiting => cases h
  | opening | writing | posting => rfl

theorem Status.live_of_holds {x : Status} {s : SemId} (h : x.holds = some s)
    (hx : ∀ s held, x ≠ .killed s held) : ∃ pc, x = .live s pc ∧ pc.held = true := by
  cases x with
  | absent | exited => cases h
  | live s' pc =>
    simp only [Status.holds, Option.ite_none_right_eq_some, Option.some.injEq] at h
    obtain ⟨hheld, rfl⟩ := h
    exact ⟨pc, rfl, hheld⟩
  | killed s' held => exact absurd rfl (hx s' held)

theorem enter_cases (pid : Int) (c : Call) :
    (c.record pid = none ∧ enter pid c = .idle) ∨
      ∃ r, c.record pid = some r ∧ enter pid c = .waiting r := by
  unfold enter
  cases h : c.record pid with
  | none => exact Or.inl ⟨rfl, rfl⟩
  | some r => exact Or.inr ⟨r, rfl, rfl⟩

theorem held_enter (pid : Int) (c : Call) : (enter pid c).held = false := by
  rcases enter_cases pid c with ⟨-, h⟩ | ⟨r, -, h⟩ <;> rw [h] <;> rfl

theorem critical_enter (pid : Int) (c : Call) : (enter pid c).critical = false := by
  rcases enter_cases pid c with ⟨-, h⟩ | ⟨r, -, h⟩ <;> rw [h] <;> rfl

/-- Between `get_sem` and `post_sem` only with the semaphore. -/
def Status.Proper (x : Status) : Prop :=
  ∀ s pc, x = .live s pc → pc.critical = true → pc.held = true

theorem proper_idle (s : SemId) : (Status.live s .idle).Proper := by
  rintro s' pc ⟨⟩ hc
  cases hc

/-- The invariant of runs without interrupted waits. -/
structure Sound (st : State A) : Prop where
  held : ∀ a, (st.proc a).Proper
  attached : ∀ a s, (st.proc a).attached = some s → s < st.next
  bound : ∀ s, st.bound = some s → s < st.next
  balanced : (ledger st).Balanced

theorem sound_init (log : Text) : Sound (init log : State A) where
  held a s pc h := by cases h
  attached a s h := by cases h
  bound s h := by cases h
  balanced := Ledger.balanced_free fun _ => rfl

theorem sound_shared (log : Text) : Sound (shared log : State A) where
  held _ := proper_idle 0
  attached a s h := by
    cases h
    exact Nat.zero_lt_one
  bound s h := by
    cases h
    exact Nat.zero_lt_one
  balanced := Ledger.balanced_free fun _ => rfl

theorem Sound.value_next {st : State A} (h : Sound st) : st.value st.next = 1 := by
  refine h.balanced.value_eq_one fun a ha => ?_
  exact absurd (h.attached a st.next (Status.attached_of_holds ha)) (Nat.lt_irrefl _)

theorem Sound.holds {st : State A} (h : Sound st) {a : A} {s : SemId} {pc : Pc}
    (ha : st.proc a = .live s pc) (hpc : pc.critical = true) : (ledger st).holder a = some s := by
  change (st.proc a).holds = some s
  rw [ha, Status.holds, if_pos (h.held a s pc ha hpc)]

/-- Two agents between `get_sem` and `post_sem` of one semaphore are the same. -/
theorem Sound.critical_unique {st : State A} (h : Sound st) {a b : A} {s : SemId} {pc pc' : Pc}
    (ha : st.proc a = .live s pc) (hb : st.proc b = .live s pc') (hpc : pc.critical = true)
    (hpc' : pc'.critical = true) : a = b :=
  h.balanced.unique a b s (h.holds ha hpc) (h.holds hb hpc')

theorem Sound.value_eq_zero {st : State A} (h : Sound st) {a : A} {s : SemId} {pc : Pc}
    (ha : st.proc a = .live s pc) (hpc : pc.critical = true) : st.value s = 0 :=
  (h.balanced.value_eq_zero s).mpr ⟨a, h.holds ha hpc⟩

variable [DecidableEq A]

theorem ledger_setProc (st : State A) (a : A) (x : Status) :
    ledger (st.setProc a x) = ⟨st.value, Function.update (ledger st).holder a x.holds⟩ := by
  unfold ledger
  congr 1
  funext b
  by_cases hb : b = a
  · subst hb
    simp
  · rw [State.setProc_of_ne st hb, Function.update_of_ne hb]

/-- An agent that moves on without taking or giving. -/
theorem ledger_move {st st' : State A} {a : A} {x : Status}
    (hproc : st'.proc = (st.setProc a x).proc) (hvalue : st'.value = st.value)
    (h : x.holds = (st.proc a).holds) : ledger st' = ledger st := by
  have hset : ledger st' = ledger (st.setProc a x) := by
    simp only [ledger, hproc, hvalue]
    rfl
  rw [hset, ledger_setProc, h]
  exact congrArg (Ledger.mk st.value) (Function.update_eq_self a (ledger st).holder)

variable {getpid : A → Int}

/-- **The lock moves its ledger only by taking and giving.** -/
theorem ledger_step {st st' : State A} {e : Event A} (h : Sound st) (he : ¬ e.Interrupts)
    (hstep : Step getpid st e st') : (ledger st).Step (ledger st') := by
  have stay : ∀ {l : Ledger SemId A}, l = ledger st → (ledger st).Step l := by
    rintro l rfl
    exact .stay
  cases hstep with
  | @start a hp =>
    apply stay
    unfold openSem
    split
    · exact ledger_move rfl rfl (by rw [hp]; rfl)
    · -- the new semaphore has the permit that nobody can hold
      exact ledger_move rfl (Function.update_eq_self_iff.mpr h.value_next.symm) (by rw [hp]; rfl)
  | @call a c s hp =>
    refine stay (ledger_move rfl rfl ?_)
    rw [hp, Status.holds, held_enter]
    rfl
  | @acquire a r s hp hv =>
    have htake : ledger ((getSem st s).setProc a (.live s (.opening r true))) =
        (ledger st).take a s := ledger_setProc _ _ _
    rw [htake]
    refine .take ?_ hv
    change (st.proc a).holds = none
    rw [hp]
    rfl
  | interrupt => exact absurd trivial he
  | fopen hp | openFail hp | append hp | fclose hp | exit hp | kill hp =>
    refine stay (ledger_move rfl rfl ?_)
    rw [hp]
    rfl
  | @post a r s held hp =>
    have hgive : ledger ((postSem st s).setProc a (.live s .idle)) =
        (ledger st).give a s := ledger_setProc _ _ _
    rw [hgive]
    exact .give (h.holds hp rfl)

/-- An agent that stays with its semaphore and is between `get_sem` and `post_sem` only when it
holds it. -/
theorem Sound.move {st st' : State A} {a : A} {x : Status} (h : Sound st)
    (hproc : st'.proc = (st.setProc a x).proc) (hnext : st'.next = st.next)
    (hbound : ∀ s, st'.bound = some s → st.bound = some s)
    (hattached : ∀ s, x.attached = some s → (st.proc a).attached = some s)
    (hheld : x.Proper)
    (hbalanced : (ledger st').Balanced) : Sound st' where
  held b := by
    rw [hproc]
    exact State.forall_setProc (P := fun _ y => y.Proper) hheld h.held b
  attached b := by
    rw [hproc, hnext]
    exact State.forall_setProc (P := fun _ y => ∀ s, y.attached = some s → s < st.next)
      (fun s hs => h.attached a s (hattached s hs)) h.attached b
  bound s hs := hnext ▸ h.bound s (hbound s hs)
  balanced := hbalanced

theorem Sound.openSem {st : State A} {a : A} (h : Sound st)
    (hbalanced : (ledger (openSem st a)).Balanced) : Sound (openSem st a) := by
  unfold LogLock.openSem at hbalanced ⊢
  have hheld : ∀ s, ∀ b, ((st.setProc a (.live s .idle)).proc b).Proper := fun s =>
    State.forall_setProc (P := fun _ y => y.Proper) (proper_idle s) h.held
  split
  · rename_i s hs
    refine ⟨hheld s, ?_, h.bound, ?_⟩
    · refine State.forall_setProc (P := fun _ y => ∀ s, y.attached = some s → s < st.next) ?_
        h.attached
      rintro s' ⟨⟩
      exact h.bound s hs
    · simpa only [hs] using hbalanced
  · rename_i hs
    refine ⟨hheld st.next, ?_, ?_, ?_⟩
    · refine State.forall_setProc (P := fun _ y => ∀ s, y.attached = some s → s < st.next + 1) ?_
        fun b s hb => Nat.lt_succ_of_lt (h.attached b s hb)
      rintro s' ⟨⟩
      exact Nat.lt_succ_self _
    · rintro s ⟨⟩
      exact Nat.lt_succ_self _
    · simpa only [hs] using hbalanced

theorem Sound.step {st st' : State A} {e : Event A} (h : Sound st) (he : ¬ e.Interrupts)
    (hstep : Step getpid st e st') : Sound st' := by
  have hbalanced := h.balanced.step (ledger_step h he hstep)
  cases hstep with
  | start hp => exact h.openSem hbalanced
  | @call a c s hp =>
    refine h.move rfl rfl (fun _ => id) (by rw [hp]; exact fun _ => id) ?_ hbalanced
    rintro s' pc ⟨⟩ hc
    rw [critical_enter] at hc
    cases hc
  | acquire hp hv =>
    refine h.move rfl rfl (fun _ => id) (by rw [hp]; exact fun _ => id) ?_ hbalanced
    rintro s' pc ⟨⟩ -
    rfl
  | interrupt => exact absurd trivial he
  | fopen hp | openFail hp | append hp | fclose hp =>
    refine h.move rfl rfl (fun _ => id) (by rw [hp]; exact fun _ => id) ?_ hbalanced
    have hheld := h.held _ _ _ hp rfl
    rintro s' pc ⟨⟩ -
    exact hheld
  | post hp =>
    exact h.move rfl rfl (fun _ => id) (by rw [hp]; exact fun _ => id) (proper_idle _) hbalanced
  | exit hp =>
    refine h.move rfl rfl ?_ ?_ ?_ hbalanced
    · rintro s ⟨⟩
    · rintro s ⟨⟩
    · rintro s pc ⟨⟩
  | kill hp =>
    refine h.move rfl rfl (fun _ => id) (by rw [hp]; exact fun _ => id) ?_ hbalanced
    rintro s pc ⟨⟩

/-- In every run without interrupted waits. -/
theorem Sound.run {st st' : State A} {es : List (Event A)} (h : Sound st)
    (hrun : run (LogLock.step getpid) st es = some st') (hes : ∀ e ∈ es, ¬ e.Interrupts) :
    Sound st' :=
  run_invariant (G := fun _ e => ¬ e.Interrupts)
    (fun _ _ _ he hm hlast => hm.step he (step_eq_some.mp hlast)) h hrun
    (guarded_of_forall (fun e he _ => hes e he) st)

end CacheTrace.LogLock
