import CacheTrace.Transition.Run
import Mathlib.Data.List.Perm.Basic

/-!
# Systems whose events commute

In a system of processes that only exchange messages, what one process can do next is not taken
away by what another one does, and the order of the two does not matter (`Commutes`).

Such a system has only one outcome. An event that is possible stays possible until it happens,
and it may then as well have happened at once (`Commutes.front`). So when one run leads to a
state where nothing is possible any more, every run can be continued to this state, and all that
end there consist of the same events (`Commutes.run_perm`).
-/

namespace CacheTrace.Transition

variable {S E : Type} {step : S → E → Option S}

/-- Two different events that are possible can happen in both orders, with the same result. -/
def Commutes (step : S → E → Option S) : Prop :=
  ∀ ⦃s a b s₁ s₂⦄, a ≠ b → step s a = some s₁ → step s b = some s₂ →
    ∃ t, step s₁ b = some t ∧ step s₂ a = some t

/-- Nothing is possible any more. -/
def Final (step : S → E → Option S) (s : S) : Prop := ∀ e, step s e = none

namespace Commutes

variable [DecidableEq E] (hc : Commutes step)

include hc

/-- **The front rule.** A possible event is still possible at the end of a run, or it happens in
the run, and then it may happen first. -/
theorem front {s t c : S} {a : E} {es : List E} (ha : step s a = some t)
    (hrun : run step s es = some c) :
    (a ∉ es ∧ ∃ c', step c a = some c') ∨
      ∃ before after, es = before ++ a :: after ∧ run step t (before ++ after) = some c := by
  induction es generalizing s t with
  | nil =>
    cases hrun
    exact .inl ⟨List.not_mem_nil, t, ha⟩
  | cons b es ih =>
    obtain ⟨s₁, hb, hrest⟩ := Option.bind_eq_some_iff.mp hrun
    by_cases hab : a = b
    · subst hab
      cases ha.symm.trans hb
      exact .inr ⟨[], es, rfl, hrest⟩
    · obtain ⟨t₁, ht₁, ha₁⟩ := hc hab ha hb
      rcases ih ha₁ hrest with ⟨hnot, hlast⟩ | ⟨before, after, rfl, hmoved⟩
      · refine .inl ⟨?_, hlast⟩
        rw [List.mem_cons, not_or]
        exact ⟨hab, hnot⟩
      · refine .inr ⟨b :: before, after, rfl, ?_⟩
        rw [List.cons_append, run_cons, ht₁]
        exact hmoved

/-- **One outcome.** Every run can be continued to the end of a complete one, and consists then
of the same events. -/
theorem run_perm {s f c : S} {es es' : List E} (hes : run step s es = some f)
    (hfinal : Final step f) (hrun : run step s es' = some c) :
    ∃ rest, run step c rest = some f ∧ List.Perm (es' ++ rest) es := by
  induction es' generalizing s es with
  | nil =>
    cases hrun
    exact ⟨es, hes, List.Perm.refl _⟩
  | cons e es' ih =>
    obtain ⟨t, he, hrest⟩ := Option.bind_eq_some_iff.mp hrun
    rcases hc.front he hes with ⟨-, c', hc'⟩ | ⟨before, after, rfl, hmoved⟩
    · rw [hfinal e] at hc'
      cases hc'
    · obtain ⟨rest, hlast, hperm⟩ := ih hmoved hrest
      exact ⟨rest, hlast, (hperm.cons e).trans List.perm_middle.symm⟩

end Commutes

end CacheTrace.Transition
