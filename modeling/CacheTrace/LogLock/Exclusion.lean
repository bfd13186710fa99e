import CacheTrace.LogLock.Holding

/-!
# Mutual exclusion when processes come and go

Every process that exits unlinks the name of the semaphore. The processes that have it open
go on with it, but the next process to start creates another one, and the two semaphores do
not exclude each other.

`exclusion_iff` takes any condition `G` on when a process may start. In all runs that start
processes only under `G` at most one process is between `get_sem` and `post_sem`, if and only
if `G` allows a start only while the name is bound or no process is alive.
-/

namespace CacheTrace.LogLock

open Log Transition

variable {A : Type}

def Status.Live (x : Status) : Prop := ∃ s pc, x = .live s pc

/-- Agent `a` is between `get_sem` and `post_sem`. -/
def InCritical (st : State A) (a : A) : Prop :=
  ∃ s pc, st.proc a = .live s pc ∧ pc.critical = true

def Exclusive (st : State A) : Prop := ∀ a b, InCritical st a → InCritical st b → a = b

/-- Processes start under the condition `G`, log and exit; no call fails or is interrupted, and
no process is killed. -/
def Normal (G : State A → A → Prop) (st : State A) : Event A → Prop
  | .start a => G st a
  | .interrupt _ _ | .openFail _ _ | .kill _ => False
  | _ => True

/-- A process that starts now gets the semaphore of all the others. -/
def Attaches (st : State A) : Prop := st.bound ≠ none ∨ ∀ b, ¬ (st.proc b).Live

theorem Event.Logs.normal {e : Event A} (h : e.Logs) (G : State A → A → Prop) (st : State A) :
    Normal G st e := by
  cases e <;> first | exact h.elim | exact trivial

theorem Event.Logs.handles {e : Event A} (h : e.Logs) : e.Handles := by
  cases e with
  | start | interrupt | openFail | exit | kill => exact h.elim
  | _ => trivial

theorem Event.Logs.not_interrupts {e : Event A} (h : e.Logs) : ¬ e.Interrupts := by
  intro hint
  cases e with
  | interrupt => exact h
  | _ => exact hint

theorem Normal.not_interrupts {G : State A → A → Prop} {st : State A} {e : Event A}
    (h : Normal G st e) : ¬ e.Interrupts := by
  intro hint
  cases e with
  | interrupt => exact h
  | _ => exact hint

/-! ## Runs of normal processes -/

/-- What holds in every run of normal processes, wherever they start. -/
structure Orderly (st : State A) : Prop where
  sound : Sound st
  unharmed : ∀ a s held, st.proc a ≠ .killed s held

/-! ## One semaphore for all -/

/-- All live processes have opened the same semaphore, and no other one has the name. -/
def Together (st : State A) : Prop :=
  ∃ s, (∀ a s' pc, st.proc a = .live s' pc → s' = s) ∧ ∀ s', st.bound = some s' → s' = s

theorem together_init (log : Text) : Together (init log : State A) :=
  ⟨0, fun _ _ _ h => (by cases h), fun _ h => (by cases h)⟩

theorem together_shared (log : Text) : Together (shared log : State A) := by
  refine ⟨0, ?_, ?_⟩
  · rintro a s' pc ⟨⟩
    rfl
  · rintro s' ⟨⟩
    rfl

theorem Together.exclusive {st : State A} (h : Together st) (hs : Sound st) : Exclusive st := by
  rintro a b ⟨s₁, pc₁, ha, hpc₁⟩ ⟨s₂, pc₂, hb, hpc₂⟩
  obtain ⟨s, hlive, -⟩ := h
  obtain rfl := hlive a s₁ pc₁ ha
  obtain rfl := hlive b s₂ pc₂ hb
  exact hs.critical_unique ha hb hpc₁ hpc₂

variable [DecidableEq A] {getpid : A → Int}

theorem Orderly.step {G : State A → A → Prop} {st st' : State A} {e : Event A} (h : Orderly st)
    (he : Normal G st e) (hstep : Step getpid st e st') : Orderly st' := by
  refine ⟨h.sound.step he.not_interrupts hstep, ?_⟩
  rcases hstep.moves with ⟨a, -, -, rfl⟩ | ⟨a, s, pc, x, -, hproc, -, -, hx⟩
  · exact forall_openSem (P := fun _ y => ∀ s held, y ≠ .killed s held)
      (fun s s' held hk => by cases hk) h.unharmed
  · rw [hproc]
    refine State.forall_setProc (P := fun _ y => ∀ s held, y ≠ .killed s held) ?_ h.unharmed
    rintro s' held rfl
    rcases hx with ⟨pc', ⟨⟩⟩ | ⟨-, ⟨⟩⟩ | ⟨rfl, -⟩
    exact he

theorem orderly_run {G : State A → A → Prop} {log : Text} {es : List (Event A)} {st : State A}
    (hrun : run (step getpid) (init log) es = some st)
    (hG : Guarded (step getpid) (Normal G) (init log) es) : Orderly st :=
  run_invariant (fun _ _ _ he hm hlast => hm.step he (step_eq_some.mp hlast))
    ⟨sound_init log, fun a s held h => by cases h⟩ hrun hG

theorem Together.openSem {st : State A} (h : Together st) {a : A} (hG : Attaches st) :
    Together (openSem st a) := by
  obtain ⟨s, hlive, hbound⟩ := h
  unfold LogLock.openSem
  split
  · rename_i s₀ hs₀
    refine ⟨s, ?_, hbound⟩
    refine State.forall_setProc (P := fun _ y => ∀ s' pc, y = .live s' pc → s' = s) ?_ hlive
    rintro s' pc ⟨⟩
    exact hbound s₀ hs₀
  · rename_i hnone
    -- nobody is alive, so the new semaphore is the only one in use
    have hdead : ∀ b, ¬ (st.proc b).Live := hG.resolve_left fun hne => hne hnone
    refine ⟨st.next, ?_, ?_⟩
    · refine State.forall_setProc (P := fun _ y => ∀ s' pc, y = .live s' pc → s' = st.next) ?_ ?_
      · rintro s' pc ⟨⟩
        rfl
      · intro b s' pc hb
        exact absurd ⟨s', pc, hb⟩ (hdead b)
    · rintro s' ⟨⟩
      rfl

theorem Together.step {st st' : State A} {e : Event A} (h : Together st)
    (he : ∀ a, e = .start a → Attaches st) (hstep : Step getpid st e st') : Together st' := by
  rcases hstep.moves with ⟨a, rfl, -, rfl⟩ | ⟨a, s₁, pc, x, hp, hproc, -, hbound', hx⟩
  · exact h.openSem (he a rfl)
  · obtain ⟨s, hlive, hbound⟩ := h
    refine ⟨s, ?_, fun s' hs' => hbound s' (hbound' s' hs')⟩
    rw [hproc]
    refine State.forall_setProc (P := fun _ y => ∀ s' pc, y = .live s' pc → s' = s) ?_ hlive
    rintro s' pc' rfl
    rcases hx with ⟨pc'', ⟨⟩⟩ | ⟨-, ⟨⟩⟩ | ⟨-, ⟨⟩⟩
    exact hlive a _ pc hp

/-- Without new processes nothing can come apart. -/
theorem Together.run {st st' : State A} {es : List (Event A)} (h : Together st)
    (hrun : run (LogLock.step getpid) st es = some st') (hes : ∀ a, .start a ∉ es) :
    Together st' := by
  have hG : Guarded (LogLock.step getpid) (fun _ e => ∀ a, e ≠ .start a) st es := by
    refine guarded_of_forall (fun e he _ a hea => ?_) st
    rw [hea] at he
    exact hes a he
  refine run_invariant ?_ h hrun hG
  intro m e m' he hm hlast
  exact hm.step (fun a hea => absurd hea (he a)) (step_eq_some.mp hlast)

/-! ## Two semaphores -/

/-- An agent outside the critical section enters it when its semaphore is free. -/
theorem run_enter (getpid : A → Int) {st : State A} {a : A} {s : SemId} {pc : Pc}
    (ha : st.proc a = .live s pc)
    (hpc : pc.critical = false) (hv : 0 < st.value s) :
    ∃ es st', run (step getpid) st es = some st' ∧ (∀ e ∈ es, e.Logs) ∧ InCritical st' a ∧
      (∀ b, b ≠ a → st'.proc b = st.proc b) ∧ ∀ s', s' ≠ s → st'.value s' = st.value s' := by
  have hacquire : ∀ (m : State A) (r : Record), m.proc a = .live s (.waiting r) →
      m.value = st.value → ∃ st', step getpid m (.acquire a r) = some st' ∧ InCritical st' a ∧
        (∀ b, b ≠ a → st'.proc b = m.proc b) ∧ ∀ s', s' ≠ s → st'.value s' = st.value s' := by
    intro m r hm hval
    refine ⟨_, step_eq_some.mpr (.acquire hm (hval ▸ hv)), ⟨s, _, State.setProc_self .., rfl⟩,
      fun b hb => State.setProc_of_ne _ hb _, fun s' hs' => ?_⟩
    rw [← hval]
    exact Function.update_of_ne hs' ..
  cases pc with
  | idle =>
    -- a call that passes the check
    let c : Call := ⟨.read, 3, 0, 1⟩
    let r : Record := ⟨.read, getpid a, 3, 0, 1⟩
    let m := st.setProc a (.live s (.waiting r))
    have hcall : step getpid st (.call a c) = some m := step_eq_some.mpr (.call ha)
    obtain ⟨st', hst', hcrit, hproc, hvalue⟩ := hacquire m r (State.setProc_self ..) rfl
    refine ⟨[.call a c, .acquire a r], st', ?_, by simp [Event.Logs], hcrit, ?_, hvalue⟩
    · rw [run_cons, hcall, Option.bind_some, run_singleton, hst']
    · intro b hb
      rw [hproc b hb, State.setProc_of_ne st hb]
  | waiting r =>
    obtain ⟨st', hst', hcrit, hproc, hvalue⟩ := hacquire st r ha rfl
    exact ⟨[.acquire a r], st', (run_singleton _ _).trans hst', by simp [Event.Logs], hcrit, hproc,
      hvalue⟩
  | opening | writing | posting => cases hpc

/-- The semaphore of a live process is taken, or that process can take it. -/
theorem exists_critical (getpid : A → Int) {st : State A} (h : Orderly st) {b : A} {s : SemId}
    {pc : Pc} (hb : st.proc b = .live s pc) :
    ∃ es st' c pc', run (step getpid) st es = some st' ∧ (∀ e ∈ es, e.Logs) ∧ InCritical st' c ∧
      st.proc c = .live s pc' ∧ (∀ d, d ≠ c → st'.proc d = st.proc d) ∧
      ∀ s', s' ≠ s → st'.value s' = st.value s' := by
  by_cases hv : st.value s = 0
  · obtain ⟨c, hc⟩ := (h.sound.balanced.value_eq_zero s).mp hv
    obtain ⟨pc', hpc', hheld⟩ := Status.live_of_holds hc (h.unharmed c)
    exact ⟨[], st, c, pc', rfl, by simp, ⟨s, pc', hpc', Pc.critical_of_held hheld⟩, hpc',
      fun _ _ => rfl, fun _ _ => rfl⟩
  · by_cases hpc : pc.critical = true
    · exact ⟨[], st, b, pc, rfl, by simp, ⟨s, pc, hb, hpc⟩, hb, fun _ _ => rfl, fun _ _ => rfl⟩
    · obtain ⟨es, st', hrun, hes, hcrit, hproc, hvalue⟩ := run_enter getpid hb (by simpa using hpc)
        (Nat.pos_of_ne_zero hv)
      exact ⟨es, st', b, pc, hrun, hes, hcrit, hb, hproc, hvalue⟩

/-- A process that starts while the name is unbound and another process is alive enters the
critical section next to it. -/
theorem exists_not_exclusive (getpid : A → Int) {st : State A} {a b : A} {s : SemId} {pc : Pc}
    (h : Orderly st)
    (ha : st.proc a = .absent) (hb : st.proc b = .live s pc) (hbound : st.bound = none) :
    ∃ es st', run (step getpid) (openSem st a) es = some st' ∧ (∀ e ∈ es, e.Logs) ∧
      ¬ Exclusive st' := by
  have hopen : (openSem st a).proc = (st.setProc a (.live st.next .idle)).proc ∧
      (openSem st a).value st.next = 1 := by
    unfold openSem
    rw [hbound]
    exact ⟨rfl, Function.update_self ..⟩
  have hba : b ≠ a := by
    rintro rfl
    rw [ha] at hb
    cases hb
  have hstart : Step getpid st (.start a) (openSem st a) := .start ha
  have horderly : Orderly (openSem st a) :=
    h.step (G := fun _ _ => True) (e := .start a) trivial hstart
  have hs : st.next ≠ s :=
    (Nat.ne_of_lt (h.sound.attached b s (by rw [hb]; rfl))).symm
  obtain ⟨es₁, m, c, pc₁, hrun₁, hes₁, hcrit, hc, hproc₁, hvalue₁⟩ :=
    exists_critical getpid horderly
      (by rw [hopen.1, State.setProc_of_ne st hba]; exact hb)
  have hca : a ≠ c := by
    rintro rfl
    rw [hopen.1, State.setProc_self] at hc
    cases hc
    exact hs rfl
  have ha' : m.proc a = .live st.next .idle := by
    rw [hproc₁ a hca, hopen.1, State.setProc_self]
  obtain ⟨es₂, st', hrun₂, hes₂, hcrit₂, hproc₂, -⟩ := run_enter getpid ha' rfl
    (by rw [hvalue₁ _ hs, hopen.2]; exact Nat.one_pos)
  refine ⟨es₁ ++ es₂, st', run_append.mpr ⟨m, hrun₁, hrun₂⟩,
    List.forall_mem_append.mpr ⟨hes₁, hes₂⟩, fun hex => hca (hex a c hcrit₂ ?_)⟩
  obtain ⟨s', pc', hpc', hcr⟩ := hcrit
  exact ⟨s', pc', by rw [hproc₂ c hca.symm, hpc'], hcr⟩

/-! ## Mutual exclusion -/

/-- **When the lock excludes.** -/
theorem exclusion_iff (getpid : A → Int) (log : Text) (G : State A → A → Prop) :
    (∀ es st, run (step getpid) (init log) es = some st →
      Guarded (step getpid) (Normal G) (init log) es → Exclusive st) ↔
    ∀ es st a, run (step getpid) (init log) es = some st →
      Guarded (step getpid) (Normal G) (init log) es → st.proc a = .absent → G st a →
      Attaches st := by
  constructor
  · intro h es st a hrun hG ha hGa
    by_contra hattach
    simp only [Attaches, not_or, not_forall, not_not] at hattach
    obtain ⟨hbound, b, s, pc, hb⟩ := hattach
    obtain ⟨es', st', hrun', hes', hnot⟩ :=
      exists_not_exclusive getpid (orderly_run hrun hG) ha hb hbound
    have hstart : step getpid st (.start a) = some (openSem st a) := step_eq_some.mpr (.start ha)
    have hrun₁ := run_concat.mpr ⟨st, hrun, hstart⟩
    refine hnot (h _ st' (run_append.mpr ⟨_, hrun₁, hrun'⟩) ?_)
    refine (guarded_append hrun₁).mpr ⟨(guarded_concat hrun).mpr ⟨hG, hGa⟩, ?_⟩
    exact guarded_of_forall (fun e he st => (hes' e he).normal G st) _
  · intro h es st hrun hG
    have htogether : Together st := by
      refine run_history (P := fun _ m => Together m) (together_init log) ?_ hrun hG
      intro es' m e m' hm hGm he htog hlast
      refine htog.step (fun a hea => ?_) (step_eq_some.mp hlast)
      subst hea
      cases step_eq_some.mp hlast with
      | start ha => exact h es' m a hm hGm ha he
    exact htogether.exclusive (orderly_run hrun hG).sound

/-- Process 0 starts, process 1 starts, process 0 exits and unlinks the name, process 2 starts
with a semaphore of its own: processes 1 and 2 are both between `get_sem` and `post_sem`. -/
theorem exclusion_after_exit :
    ¬ ∀ es (st : State Nat), run (step Int.ofNat) (init []) es = some st →
      Guarded (step Int.ofNat) (Normal fun _ _ => True) (init []) es → Exclusive st := by
  intro h
  let r : Nat → Record := fun a => ⟨.read, Int.ofNat a, 3, 4096, 4096⟩
  let es : List (Event Nat) := [.start 0, .start 1, .exit 0, .start 2,
    .call 1 ⟨.read, 3, 4096, 4096⟩, .acquire 1 (r 1),
    .call 2 ⟨.read, 3, 4096, 4096⟩, .acquire 2 (r 2)]
  obtain ⟨st, hrun, h1, h2⟩ : ∃ st, run (step Int.ofNat) (init []) es = some st ∧
      st.proc 1 = .live 0 (.opening (r 1) true) ∧ st.proc 2 = .live 1 (.opening (r 2) true) :=
    ⟨_, rfl, rfl, rfl⟩
  have hG : Guarded (step Int.ofNat) (Normal fun _ _ => True) (init []) es := by
    apply guarded_of_forall
    intro e he st
    simp only [es, List.mem_cons, List.not_mem_nil, or_false] at he
    rcases he with rfl | rfl | rfl | rfl | rfl | rfl | rfl | rfl <;> trivial
  exact absurd (h es st hrun hG 1 2 ⟨_, _, h1, rfl⟩ ⟨_, _, h2, rfl⟩) (by decide)

end CacheTrace.LogLock
