import Mathlib.Data.List.Basic
import Mathlib.Data.List.Induction

/-!
# Runs of a guarded step function

A system is a step function `step : S → E → Option S`; `none` means that the event is not
possible in the state. A run is a list of events, all of them possible one after the other.

`Guarded step G s es` restricts a run further: every event meets the condition `G` in the
state it happens in. The two rules for safety properties are `run_invariant`, for a property
of the states, and `run_history`, for a property that also speaks about the events so far.
-/

namespace CacheTrace.Transition

variable {S E : Type}

def run (step : S → E → Option S) (s : S) (es : List E) : Option S := es.foldlM step s

def Guarded (step : S → E → Option S) (G : S → E → Prop) : S → List E → Prop
  | _, [] => True
  | s, e :: es => G s e ∧ ∀ s', step s e = some s' → Guarded step G s' es

variable {step : S → E → Option S} {G : S → E → Prop}

@[simp] theorem run_nil (s : S) : run step s [] = some s := rfl

theorem run_cons (s : S) (e : E) (es : List E) :
    run step s (e :: es) = (step s e).bind fun s' => run step s' es := rfl

theorem run_append {s s' : S} {es es' : List E} :
    run step s (es ++ es') = some s' ↔
      ∃ m, run step s es = some m ∧ run step m es' = some s' := by
  rw [run, List.foldlM_append]
  exact Option.bind_eq_some_iff

theorem run_singleton (s : S) (e : E) : run step s [e] = step s e := by
  simp [run]

theorem run_concat {s s' : S} {es : List E} {e : E} :
    run step s (es ++ [e]) = some s' ↔ ∃ m, run step s es = some m ∧ step m e = some s' := by
  rw [run_append]
  simp only [run_singleton]

theorem guarded_append {s m : S} {es es' : List E} (hrun : run step s es = some m) :
    Guarded step G s (es ++ es') ↔ Guarded step G s es ∧ Guarded step G m es' := by
  induction es generalizing s with
  | nil =>
    cases hrun
    simp [Guarded]
  | cons e es ih =>
    rw [run_cons] at hrun
    obtain ⟨s', hs', hrest⟩ := Option.bind_eq_some_iff.mp hrun
    simp only [List.cons_append, Guarded, hs', Option.some.injEq, forall_eq', ih hrest, and_assoc]

theorem guarded_concat {s m : S} {es : List E} {e : E} (hrun : run step s es = some m) :
    Guarded step G s (es ++ [e]) ↔ Guarded step G s es ∧ G m e := by
  rw [guarded_append hrun]
  simp [Guarded]

/-- A condition on the events alone. -/
theorem guarded_of_forall {es : List E} (h : ∀ e ∈ es, ∀ s, G s e) (s : S) :
    Guarded step G s es := by
  induction es generalizing s with
  | nil => trivial
  | cons e es ih =>
    obtain ⟨hfirst, hrest⟩ := List.forall_mem_cons.mp h
    exact ⟨hfirst s, fun s' _ => ih hrest s'⟩

theorem guarded_true (s : S) (es : List E) : Guarded step (fun _ _ => True) s es :=
  guarded_of_forall (fun _ _ _ => trivial) s

/-- **The history rule.** A property of the events so far and the state they led to holds
of every guarded run when it holds at the start and every step keeps it. -/
theorem run_history {P : List E → S → Prop} {s : S} (h0 : P [] s)
    (hstep : ∀ es m e m', run step s es = some m → Guarded step G s es → G m e → P es m →
      step m e = some m' → P (es ++ [e]) m')
    {es : List E} {s' : S} (hrun : run step s es = some s') (hG : Guarded step G s es) :
    P es s' := by
  induction es using List.reverseRecOn generalizing s' with
  | nil =>
    cases hrun
    exact h0
  | append_singleton es e ih =>
    obtain ⟨m, hm, hlast⟩ := run_concat.mp hrun
    obtain ⟨hG', hGe⟩ := (guarded_concat hm).mp hG
    exact hstep es m e s' hm hG' hGe (ih hm hG') hlast

/-- **The invariant rule.** -/
theorem run_invariant {I : S → Prop}
    (hstep : ∀ m e m', G m e → I m → step m e = some m' → I m') {s s' : S} {es : List E}
    (h0 : I s) (hrun : run step s es = some s') (hG : Guarded step G s es) : I s' :=
  run_history (P := fun _ m => I m) h0 (fun _ m e m' _ _ hGe hm hlast => hstep m e m' hGe hm hlast)
    hrun hG

end CacheTrace.Transition
