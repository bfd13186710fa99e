import CacheTrace.Message.Triple
import Mathlib.Data.List.Sort

/-!
# Schedules from ranks

The processes of a program take part in a number of events, such as handing over a message. Every
process has its own order of the events that concern it. When the events have ranks and every
process goes through its events in the order of their ranks, the events can take place one after
the other in this order, and the program has a triple (`Triple.ranked`).
-/

namespace CacheTrace.Message

variable {ε : Type} {rank : ε → Nat}

/-- A list of elements with different ranks is determined by the elements. -/
theorem eq_of_ranked {l l' : List ε} (h : l.Pairwise (rank · < rank ·))
    (h' : l'.Pairwise (rank · < rank ·)) (hmem : ∀ e, e ∈ l ↔ e ∈ l') : l = l' := by
  have : Std.Antisymm fun a b : ε => rank a < rank b :=
    ⟨fun a b hab hba => absurd hab (Nat.lt_asymm hba)⟩
  have : Std.Irrefl fun a b : ε => rank a < rank b := ⟨fun a => Nat.lt_irrefl _⟩
  exact h.eq_of_mem_iff h' hmem

theorem exists_ranked {l : List ε} (hnodup : l.Nodup)
    (hinj : ∀ a ∈ l, ∀ b ∈ l, rank a = rank b → a = b) :
    ∃ l' : List ε, l'.Perm l ∧ l'.Pairwise (rank · < rank ·) := by
  let le : ε → ε → Bool := fun a b => decide (rank a ≤ rank b)
  have htrans : ∀ a b c, le a b = true → le b c = true → le a c = true := by
    simp only [le, decide_eq_true_eq]
    omega
  have htotal : ∀ a b, (le a b || le b a) = true := by
    simp only [le, Bool.or_eq_true, decide_eq_true_eq]
    omega
  have hperm := l.mergeSort_perm le
  refine ⟨_, hperm, ?_⟩
  have hle := List.pairwise_mergeSort htrans htotal l
  have hne := hperm.nodup_iff.mpr hnodup
  refine (hle.and hne).imp_of_mem ?_
  rintro a b ha hb ⟨hab, hne⟩
  rw [hperm.mem_iff] at ha hb
  simp only [le, decide_eq_true_eq] at hab
  exact Nat.lt_of_le_of_ne hab fun heq => hne (hinj a ha b hb heq)

/-- Elements that give nothing can be left out. -/
theorem flatMap_eq_filter {β : Type} {l : List ε} {f g : ε → List β} {p : ε → Bool}
    (hin : ∀ e ∈ l, p e = true → f e = g e) (hout : ∀ e ∈ l, p e = false → f e = []) :
    l.flatMap f = (l.filter p).flatMap g := by
  induction l with
  | nil => rfl
  | cons e l ih =>
    have hrest := ih (fun e he => hin e (List.mem_cons_of_mem _ he))
      fun e he => hout e (List.mem_cons_of_mem _ he)
    rw [List.flatMap_cons, hrest]
    cases hp : p e with
    | false => rw [List.filter_cons_of_neg (by simp [hp]), hout e List.mem_cons_self hp,
        List.nil_append]
    | true => rw [List.filter_cons_of_pos hp, List.flatMap_cons, hin e List.mem_cons_self hp]

variable {ι τ μ σ Ω γ κ : Type} [DecidableEq ι] [DecidableEq τ] [DecidableEq γ]
  {W : Platform ι σ Ω γ κ}

/-- **Events in the order of their ranks.** `own i` are the events of process `i`, in its own
order. -/
theorem Triple.ranked {R : ε → Part ι τ μ σ γ κ} {l : List ε} {own : ι → List ε} (rank : ε → Nat)
    (I : List ε → (ι → Ω) → Prop) {J : (ι → Ω) → Prop} (hnodup : l.Nodup)
    (hinj : ∀ a ∈ l, ∀ b ∈ l, rank a = rank b → a = b)
    (hsorted : ∀ i, (own i).Pairwise (rank · < rank ·))
    (hown : ∀ i e, e ∈ own i ↔ e ∈ l ∧ R e i ≠ [])
    (hstep : ∀ done, ∀ e ∈ l, e ∉ done → Triple W (I done) (R e) (I (done ++ [e])))
    (hall : ∀ done L, (∀ e, e ∈ done ↔ e ∈ l) → I done L → J L) :
    Triple W (I []) (fun i => (own i).flatMap fun e => R e i) J := by
  obtain ⟨l', hperm, hl'⟩ := exists_ranked hnodup hinj
  have heach : Triple W (I []) (fun i => l'.flatMap fun e => R e i) (I l') := by
    refine Triple.each I fun done e rest hsplit => hstep done e (hperm.mem_iff.mp ?_) ?_
    · rw [hsplit]
      exact List.mem_append_right _ List.mem_cons_self
    · have hne := hperm.nodup_iff.mpr hnodup
      rw [hsplit] at hne
      exact fun hmem => (List.nodup_append.mp hne).2.2 e hmem e List.mem_cons_self rfl
  refine (heach.conseq (fun L hL => hL) fun L => hall l' L fun e => hperm.mem_iff).of_eq ?_
  intro i
  -- the events of process `i`, in both orders, are the same list
  have heq : own i = l'.filter fun e => !(R e i).isEmpty := by
    refine eq_of_ranked (hsorted i) (hl'.filter _) fun e => ?_
    rw [hown, List.mem_filter, hperm.mem_iff, Bool.not_eq_true', List.isEmpty_eq_false_iff]
  rw [heq]
  exact (flatMap_eq_filter (fun _ _ _ => rfl) (by simp)).symm

end CacheTrace.Message
