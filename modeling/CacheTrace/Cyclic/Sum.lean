import CacheTrace.Cyclic.Distribution
import Mathlib.Algebra.BigOperators.Intervals

/-!
# Sums over what is dealt out

When every process adds up its own elements, and then the sums of the processes are added up, it
is the sum of all elements, in one direction (`sum_dealt`) and in two (`sum_dealt_square`).
-/

namespace CacheTrace.Cyclic

open Finset

variable {M : Type} [AddCommMonoid M]

/-- A sum over the elements of a table, row by row. -/
theorem sum_range_mul (a b : Nat) (f : Nat → Nat → M) :
    ∑ n ∈ range (a * b), f (n % a) (n / a) = ∑ c ∈ range b, ∑ r ∈ range a, f r c := by
  induction b with
  | zero => simp
  | succ b ih =>
    rw [Nat.mul_succ, sum_range_add, ih, sum_range_succ]
    congr 1
    refine sum_congr rfl fun r hr => ?_
    have hr : r < a := mem_range.mp hr
    rw [Nat.mul_comm, mul_add_mod hr, mul_add_div (Nat.zero_lt_of_lt hr) hr]

variable {a b e : Nat} (hb : 0 < b) (he : 0 < e) {n : Nat → Nat}
  (hn : ∀ c < e, ∀ r, r < n c ↔ globalIndex b e c r < a)

include hb he hn

theorem sum_dealt (f : Nat → M) :
    ∑ c ∈ range e, ∑ r ∈ range (n c), f (globalIndex b e c r) = ∑ i ∈ range a, f i := by
  rw [sum_sigma']
  refine sum_bij' (fun x _ => globalIndex b e x.1 x.2) (fun i _ => ⟨owner b e i, localIndex b e i⟩)
    ?_ ?_ ?_ ?_ ?_
  · rintro ⟨c, r⟩ hx
    simp only [mem_sigma, mem_range] at hx ⊢
    exact (hn c hx.1 r).mp hx.2
  · intro i hi
    have howner := owner_lt he b i
    simp only [mem_sigma, mem_range] at hi ⊢
    refine ⟨howner, (hn _ howner _).mpr ?_⟩
    rwa [globalIndex_localIndex hb]
  · rintro ⟨c, r⟩ hx
    simp only [mem_sigma, mem_range] at hx
    rw [owner_globalIndex hb hx.1, localIndex_globalIndex hb hx.1]
  · intro i _
    exact globalIndex_localIndex hb e i
  · intro x _
    rfl

/-- The processes are the square of side `e`, numbered column by column, and each has its elements
column by column. -/
theorem sum_dealt_square (f : Nat → Nat → M) :
    ∑ q ∈ range (e * e), ∑ i ∈ range (n (q % e) * n (q / e)),
        f (globalIndex b e (q % e) (i % n (q % e))) (globalIndex b e (q / e) (i / n (q % e))) =
      ∑ r ∈ range a, ∑ c ∈ range a, f r c := by
  calc ∑ q ∈ range (e * e), ∑ i ∈ range (n (q % e) * n (q / e)),
        f (globalIndex b e (q % e) (i % n (q % e))) (globalIndex b e (q / e) (i / n (q % e)))
      = ∑ q ∈ range (e * e), ∑ c ∈ range (n (q / e)), ∑ r ∈ range (n (q % e)),
          f (globalIndex b e (q % e) r) (globalIndex b e (q / e) c) :=
        sum_congr rfl fun q _ => sum_range_mul _ _
          fun r c => f (globalIndex b e (q % e) r) (globalIndex b e (q / e) c)
    _ = ∑ y ∈ range e, ∑ x ∈ range e, ∑ c ∈ range (n y), ∑ r ∈ range (n x),
          f (globalIndex b e x r) (globalIndex b e y c) :=
        sum_range_mul e e fun x y => ∑ c ∈ range (n y), ∑ r ∈ range (n x),
          f (globalIndex b e x r) (globalIndex b e y c)
    _ = ∑ y ∈ range e, ∑ c ∈ range (n y), ∑ x ∈ range e, ∑ r ∈ range (n x),
          f (globalIndex b e x r) (globalIndex b e y c) :=
        sum_congr rfl fun y _ => sum_comm
    _ = ∑ y ∈ range e, ∑ c ∈ range (n y), ∑ r ∈ range a, f r (globalIndex b e y c) :=
        sum_congr rfl fun y _ => sum_congr rfl fun c _ =>
          sum_dealt hb he hn fun r => f r (globalIndex b e y c)
    _ = ∑ c ∈ range a, ∑ r ∈ range a, f r c :=
        sum_dealt hb he hn fun c => ∑ r ∈ range a, f r c
    _ = ∑ r ∈ range a, ∑ c ∈ range a, f r c := sum_comm

end CacheTrace.Cyclic
