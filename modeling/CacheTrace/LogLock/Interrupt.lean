import CacheTrace.LogLock.Records
import Mathlib.Algebra.BigOperators.Group.Finset.Basic
import Mathlib.Data.Fintype.BigOperators

/-!
# Interrupted waits

`get_sem` reports that `sem_wait` failed, but the handlers go on to write and to post. So an
agent whose wait was interrupted by a signal posts a permit that it never took, and from then
on the semaphore lets one more agent in.

The value of the semaphore and the number of agents between `get_sem` and `post_sem` add up to
one more than the number of interrupted waits (`conservation`). By `interrupt_iff`, a run can
be continued to a state in which the lock is broken exactly when some wait was interrupted; that
the log cannot be opened does not matter for this.
-/

namespace CacheTrace.LogLock

open Log Transition

variable {A : Type}

/-- The interrupted waits of a run. -/
def interrupted (es : List (Event A)) : List (A × Record) :=
  es.filterMap fun
    | .interrupt a r => some (a, r)
    | _ => none

/-- All agents live with the semaphore `0`. -/
def AllShare (st : State A) : Prop := ∀ a, ∃ pc, st.proc a = .live 0 pc

/-- One for an agent between `get_sem` and `post_sem`. -/
def Status.weight : Status → Nat
  | .live _ pc => pc.critical.toNat
  | _ => 0

theorem interrupted_ne_nil {es : List (Event A)} {e : Event A} (he : e ∈ es) (hint : e.Interrupts) :
    interrupted es ≠ [] := by
  cases e with
  | interrupt a r =>
    have hmem : (a, r) ∈ interrupted es := List.mem_filterMap.mpr ⟨_, he, rfl⟩
    exact List.ne_nil_of_mem hmem
  | _ => exact hint.elim

variable [DecidableEq A] {getpid : A → Int}

theorem AllShare.step {st st' : State A} {e : Event A} (h : AllShare st)
    (he : e.Handles) (hstep : Step getpid st e st') : AllShare st' := by
  rcases hstep.moves with ⟨a, rfl, -, -⟩ | ⟨a, s, pc, x, hp, hproc, -, -, hx⟩
  · exact he.elim
  · unfold AllShare
    rw [hproc]
    refine State.forall_setProc (P := fun _ y => ∃ pc, y = .live 0 pc) ?_ h
    obtain ⟨pc₀, hp₀⟩ := h a
    rw [hp] at hp₀
    cases hp₀
    rcases hx with hx | ⟨rfl, -⟩ | ⟨rfl, -⟩
    · exact hx
    · exact he.elim
    · exact he.elim

/-! ## Permits are conserved -/

section Conservation

variable [Fintype A]

/-- The number of agents between `get_sem` and `post_sem`. -/
def inside (st : State A) : Nat := ∑ a, (st.proc a).weight

theorem inside_move {st st' : State A} {a : A} {x : Status}
    (hproc : st'.proc = (st.setProc a x).proc) :
    inside st' + (st.proc a).weight = inside st + x.weight := by
  have hupdate : (fun b => (st'.proc b).weight) =
      Function.update (fun b => (st.proc b).weight) a x.weight := by
    funext b
    rw [hproc]
    by_cases hb : b = a
    · rw [hb, State.setProc_self, Function.update_self]
    · rw [State.setProc_of_ne st hb, Function.update_of_ne hb]
  unfold inside
  rw [hupdate, Finset.sum_update_of_mem (Finset.mem_univ a),
    Finset.sum_eq_add_sum_sdiff_singleton_of_mem (Finset.mem_univ a) fun b => (st.proc b).weight]
  omega

theorem conservation_step {st st' : State A} {es : List (Event A)} {e : Event A}
    (hall : AllShare st) (h : st.value 0 + inside st = 1 + (interrupted es).length)
    (he : e.Handles) (hstep : Step getpid st e st') :
    st'.value 0 + inside st' = 1 + (interrupted (es ++ [e])).length := by
  -- the semaphore and the counter of an agent that moves from `pc` to `pc'`
  have move : ∀ {a s pc pc'}, st.proc a = .live s pc →
      st'.proc = (st.setProc a (.live s pc')).proc →
      s = 0 ∧ inside st' + pc.critical.toNat = inside st + pc'.critical.toNat := by
    intro a s pc pc' hp hproc
    obtain ⟨pc₀, hp₀⟩ := hall a
    have hsum := inside_move hproc
    rw [hp] at hp₀ hsum
    cases hp₀
    exact ⟨rfl, hsum⟩
  have hconcat : (interrupted (es ++ [e])).length =
      (interrupted es).length + (interrupted [e]).length := by
    rw [interrupted, List.filterMap_append, List.length_append]
    rfl
  rw [hconcat]
  cases hstep with
  | start | exit | kill => exact he.elim
  | @call a c s hp =>
    obtain ⟨-, hsum⟩ := move hp rfl
    rw [critical_enter] at hsum
    change st.value 0 + inside _ = 1 + ((interrupted es).length + 0)
    simp only [Pc.critical, Bool.toNat_false] at hsum
    omega
  | fopen hp | openFail hp | append hp | fclose hp =>
    obtain ⟨-, hsum⟩ := move hp rfl
    change st.value 0 + inside _ = 1 + ((interrupted es).length + 0)
    simp only [Pc.critical, Bool.toNat_true] at hsum
    omega
  | interrupt hp =>
    obtain ⟨-, hsum⟩ := move hp rfl
    change st.value 0 + inside _ = 1 + ((interrupted es).length + 1)
    simp only [Pc.critical, Bool.toNat_false, Bool.toNat_true] at hsum
    omega
  | acquire hp hv =>
    obtain ⟨rfl, hsum⟩ := move hp rfl
    change Function.update st.value 0 (st.value 0 - 1) 0 + inside _ =
      1 + ((interrupted es).length + 0)
    simp only [Pc.critical, Bool.toNat_false, Bool.toNat_true] at hsum
    rw [Function.update_self]
    omega
  | post hp =>
    obtain ⟨rfl, hsum⟩ := move hp rfl
    change Function.update st.value 0 (st.value 0 + 1) 0 + inside _ =
      1 + ((interrupted es).length + 0)
    simp only [Pc.critical, Bool.toNat_false, Bool.toNat_true] at hsum
    rw [Function.update_self]
    omega

/-- **Permits are conserved.** -/
theorem conservation {log₀ : Text} {es : List (Event A)} {st : State A}
    (hrun : run (step getpid) (shared log₀) es = some st)
    (hes : ∀ e ∈ es, e.Handles) :
    AllShare st ∧ st.value 0 + inside st = 1 + (interrupted es).length := by
  refine run_history (G := fun _ e => e.Handles)
    (P := fun es st => AllShare st ∧ st.value 0 + inside st = 1 + (interrupted es).length)
    ⟨fun _ => ⟨.idle, rfl⟩, ?_⟩ ?_ hrun (guarded_of_forall (fun e he _ => hes e he) _)
  · have hzero : inside (shared log₀ : State A) = 0 := Finset.sum_eq_zero fun _ _ => rfl
    rw [hzero]
    rfl
  · rintro es' m e m' - - he ⟨hall, hcons⟩ hlast
    have hstep := step_eq_some.mp hlast
    exact ⟨hall.step he hstep, conservation_step hall hcons he hstep⟩

end Conservation

/-! ## The lock after an interrupted wait -/

variable [Fintype A]

/-- A permit too many: when the agents finish their calls, the semaphore has value 2. -/
theorem exists_value_two (getpid : A → Int) {st : State A} (hall : AllShare st)
    (h : 2 ≤ st.value 0 + inside st) :
    ∃ es st', run (step getpid) st es = some st' ∧ (∀ e ∈ es, e.Logs) ∧ 2 ≤ st'.value 0 := by
  induction hn : inside st generalizing st with
  | zero => exact ⟨[], st, rfl, by simp, by omega⟩
  | succ n ih =>
    obtain ⟨a, ha⟩ : ∃ a, (st.proc a).weight ≠ 0 := by
      by_contra hzero
      simp only [not_exists, not_not] at hzero
      have : inside st = 0 := Finset.sum_eq_zero fun a _ => hzero a
      omega
    obtain ⟨pc, hp⟩ := hall a
    have hpc : pc.critical = true := by
      rw [hp, Status.weight] at ha
      cases hcr : pc.critical with
      | false => simp [hcr] at ha
      | true => rfl
    obtain ⟨es, m, hrun, hes, hproc, hvalue, -⟩ := finishes getpid hp hpc
    have hsum := inside_move hproc
    rw [hp, Status.weight, Status.weight, hpc] at hsum
    simp only [Pc.critical, Bool.toNat_false, Bool.toNat_true] at hsum
    have hall' : AllShare m := by
      unfold AllShare
      rw [hproc]
      exact State.forall_setProc (P := fun _ y => ∃ pc, y = .live 0 pc) ⟨.idle, rfl⟩ hall
    obtain ⟨es', st', hrun', hes', htwo⟩ := ih hall' (by omega) (by omega)
    exact ⟨es ++ es', st', run_append.mpr ⟨m, hrun, hrun'⟩,
      List.forall_mem_append.mpr ⟨hes, hes'⟩, htwo⟩

/-- The lock is intact: at most one permit, at most one agent inside `write_log`. -/
def Intact (st : State A) : Prop :=
  st.value 0 ≤ 1 ∧ ∀ a b, InWriteLog st a → InWriteLog st b → a = b

/-- **When interrupts leave the lock intact.** -/
theorem interrupt_iff (getpid : A → Int) (log₀ : Text) {es : List (Event A)} {st : State A}
    (hrun : run (step getpid) (shared log₀) es = some st)
    (hes : ∀ e ∈ es, e.Handles) :
    ((∀ es' st', run (step getpid) st es' = some st' → (∀ e ∈ es', e.Logs) → Intact st') ↔
      ∀ e ∈ es, ¬ e.Interrupts) ∧
    ((∀ e ∈ es, ¬ e.Interrupts) → ∀ es' st', run (step getpid) st es' = some st' →
      (∀ e ∈ es', e.Handles ∧ ¬ e.Interrupts) → Intact st') := by
  have hintact : (∀ e ∈ es, ¬ e.Interrupts) → ∀ es' st', run (step getpid) st es' = some st' →
      (∀ e ∈ es', e.Handles ∧ ¬ e.Interrupts) → Intact st' := by
    intro hnone es' st' hrun' hes'
    have hwhole := run_append.mpr ⟨st, hrun, hrun'⟩
    have hs := (sound_shared log₀).run hwhole
      (List.forall_mem_append.mpr ⟨hnone, fun e he => (hes' e he).2⟩)
    have hhandles : ∀ e ∈ es ++ es', e.Handles :=
      List.forall_mem_append.mpr ⟨hes, fun e he => (hes' e he).1⟩
    have ht := (together_shared log₀).run hwhole fun a ha => hhandles _ ha
    exact ⟨hs.balanced.value_le 0, fun a b ha hb => ht.exclusive hs a b ha.critical hb.critical⟩
  refine ⟨⟨?_, fun hnone es' st' hrun' hes' => ?_⟩, hintact⟩
  · intro h e he hint
    obtain ⟨hall, hcons⟩ := conservation hrun hes
    have hne := List.length_pos_of_ne_nil (interrupted_ne_nil he hint)
    obtain ⟨es', st', hrun', hes', htwo⟩ :=
      exists_value_two getpid hall (by omega)
    have := (h es' st' hrun' hes').1
    omega
  · exact hintact hnone es' st' hrun' fun e he => ⟨(hes' e he).handles, (hes' e he).not_interrupts⟩

theorem interrupt_iff_two_processes :
    ∃ st, run (step samplePid) (shared []) sampleRun = some st ∧
      ∀ es' st', run (step samplePid) st es' = some st' →
        (∀ e ∈ es', e.Handles ∧ ¬ e.Interrupts) → Intact st' := by
  obtain ⟨st, hrun⟩ : ∃ st, run (step samplePid) (shared []) sampleRun = some st :=
    ⟨_, rfl⟩
  refine ⟨st, hrun, (interrupt_iff _ [] hrun ?_).2 ?_⟩
  · simp [sampleRun, Event.Handles]
  · simp [sampleRun, Event.Interrupts]

/-- A wait that is interrupted while another process has the semaphore: both are inside
`write_log`. -/
theorem intact_not_interrupted :
    ¬ ∀ es (st : State Bool), run (step samplePid) (shared []) es = some st →
      (∀ e ∈ es, e.Handles) → Intact st := by
  intro h
  let c : Call := ⟨.read, 3, 4096, 4096⟩
  let r : Bool → Record := fun a => ⟨.read, samplePid a, 3, 4096, 4096⟩
  let es : List (Event Bool) :=
    [.call false c, .acquire false (r false), .call true c, .interrupt true (r true)]
  obtain ⟨st, hrun, hfalse, htrue⟩ :
      ∃ st, run (step samplePid) (shared []) es = some st ∧
        st.proc false = .live 0 (.opening (r false) true) ∧
        st.proc true = .live 0 (.opening (r true) false) := ⟨_, rfl, rfl, rfl⟩
  have hintact := h es st hrun (by simp [es, Event.Handles])
  exact absurd (hintact.2 false true ⟨_, _, hfalse, rfl⟩ ⟨_, _, htrue, rfl⟩) (by decide)

end CacheTrace.LogLock
