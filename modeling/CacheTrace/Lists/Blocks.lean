import Mathlib.Data.List.TakeDrop
import Mathlib.Data.List.Infix

/-!
# Loops over ranges and lists made of blocks of one width

A loop over `range m` whose steps lead from one state of a given sequence to the next ends
in state `m` of the sequence (`foldlM_range`). The concatenation of blocks of `w` elements
each is indexed by quotient and remainder (`flatMap_range'_getElem?`).
-/

namespace CacheTrace.Lists

variable {α : Type}

/-- A loop that follows a sequence of states. -/
theorem foldlM_range {σ : Type} {f : σ → Nat → Option σ} {s : Nat → σ} {m : Nat}
    (h : ∀ j < m, f (s j) j = some (s (j + 1))) : (List.range m).foldlM f (s 0) = some (s m) := by
  induction m with
  | zero => rfl
  | succ m ih =>
    rw [List.range_succ, List.foldlM_append, ih fun j hj => h j (by omega)]
    simp [h m (by omega)]

/-- A slice holds the elements with the numbers from `a` on. -/
theorem mem_take_drop {xs : List α} {a n : Nat} {x : α} :
    x ∈ (xs.drop a).take n ↔ ∃ q, a ≤ q ∧ q < a + n ∧ xs[q]? = some x := by
  rw [List.mem_iff_getElem?]
  constructor
  · rintro ⟨k, hk⟩
    rw [List.getElem?_take] at hk
    split_ifs at hk with hlt
    rw [List.getElem?_drop] at hk
    exact ⟨a + k, Nat.le_add_right _ _, Nat.add_lt_add_left hlt a, hk⟩
  · rintro ⟨q, hle, hlt, hq⟩
    refine ⟨q - a, ?_⟩
    rw [List.getElem?_take_of_lt (by omega), List.getElem?_drop, Nat.add_sub_cancel' hle]
    exact hq

/-- The numbers of a range that lie in an interval are the interval. -/
theorem filter_range_interval {a b n : Nat} (hab : a ≤ b) (hbn : b ≤ n) :
    (List.range n).filter (fun i => a ≤ i ∧ i < b) = List.range' a (b - a) := by
  have hsplit : List.range n =
      List.range' 0 a ++ List.range' a (b - a) ++ List.range' b (n - b) := by
    rw [List.range_eq_range', List.append_assoc, show List.range' b (n - b) =
      List.range' (a + 1 * (b - a)) (n - b) by congr 1; omega, List.range'_append,
      show List.range' a (b - a + (n - b)) = List.range' (0 + 1 * a) (b - a + (n - b)) by simp,
      List.range'_append]
    congr 1
    omega
  have hout : ∀ s m, s + m ≤ a ∨ b ≤ s →
      (List.range' s m).filter (fun i => a ≤ i ∧ i < b) = [] := by
    intro s m hsm
    apply List.filter_eq_nil_iff.mpr
    intro i hi
    rw [List.mem_range'_1] at hi
    simp only [decide_eq_true_eq]
    omega
  have hmid : (List.range' a (b - a)).filter (fun i => a ≤ i ∧ i < b) = List.range' a (b - a) := by
    apply List.filter_eq_self.mpr
    intro i hi
    rw [List.mem_range'_1] at hi
    simp only [decide_eq_true_eq]
    omega
  rw [hsplit, List.filter_append, List.filter_append, hout 0 a (by omega), hmid,
    hout b (n - b) (by omega)]
  simp

theorem flatMap_range'_length {f : Nat → List α} {w a m : Nat}
    (hf : ∀ i, a ≤ i → i < a + m → (f i).length = w) :
    ((List.range' a m).flatMap f).length = m * w := by
  induction m generalizing a with
  | zero => simp
  | succ m ih =>
    rw [List.range'_succ, List.flatMap_cons, List.length_append, hf a le_rfl (by omega),
      ih fun i h₁ h₂ => hf i (by omega) (by omega), Nat.succ_mul, Nat.add_comm]

/-- Element `k` of the concatenated blocks is element `k % w` of block `k / w`. -/
theorem flatMap_range'_getElem? {f : Nat → List α} {w a m : Nat} (hw : 0 < w)
    (hf : ∀ i, a ≤ i → i < a + m → (f i).length = w) {k : Nat} (hk : k < m * w) :
    ((List.range' a m).flatMap f)[k]? = (f (a + k / w))[k % w]? := by
  induction m generalizing a k with
  | zero => omega
  | succ m ih =>
    have ha : (f a).length = w := hf a le_rfl (by omega)
    rw [List.range'_succ, List.flatMap_cons, List.getElem?_append, ha]
    by_cases hkw : k < w
    · rw [if_pos hkw, Nat.div_eq_of_lt hkw, Nat.mod_eq_of_lt hkw, Nat.add_zero]
    · have hk' : k - w < m * w := by
        rw [Nat.succ_mul] at hk
        omega
      have hdiv : k / w = (k - w) / w + 1 := Nat.div_eq_sub_div hw (by omega)
      have hmod : k % w = (k - w) % w := Nat.mod_eq_sub_mod (by omega)
      rw [if_neg hkw, ih (fun i h₁ h₂ => hf i (by omega) (by omega)) hk', hdiv, hmod]
      congr 2
      omega

/-- A loop over blocks is a loop in a loop. -/
theorem flatMap_range_mul (f : Nat → List α) (m w : Nat) : (List.range (m * w)).flatMap f =
    (List.range m).flatMap fun c => (List.range w).flatMap fun r => f (c * w + r) := by
  induction m with
  | zero => simp
  | succ m ih =>
    rw [Nat.succ_mul, List.range_add, List.flatMap_append, ih, List.flatMap_map, List.range_succ,
      List.flatMap_append, List.flatMap_singleton]

end CacheTrace.Lists
