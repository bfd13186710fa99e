import Mathlib.Algebra.BigOperators.Intervals
import Mathlib.Algebra.CharZero.Defs
import Mathlib.Data.Nat.Cast.Field
import Mathlib.Tactic.FieldSimp
import Mathlib.Tactic.Ring

/-!
# Legendre polynomials by their recurrence

The values of the Legendre polynomials at a point satisfy
`n P n = (2 n - 1) x P (n - 1) - (n - 1) P (n - 2)`. A program that sums them up keeps the last two
values and can stop after any number of terms and go on later: the sums over two ranges that follow
each other are computed with the two values that the first one leaves (`sumFrom_eq`).
-/

namespace CacheTrace.Legendre

open Finset

variable {α : Type} [Field α]

/-- The value of the Legendre polynomial of degree `n` at `x`. -/
def legendre (x : α) : Nat → α
  | 0 => 1
  | 1 => x
  | n + 2 => ((2 * n + 3) * x * legendre x (n + 1) - (n + 1) * legendre x n) / (n + 2)

/-- The value before the one of degree `n`. -/
def before (x : α) (n : Nat) : α := if n = 0 then 0 else legendre x (n - 1)

/-- The term of degree `l` of the sum. -/
def term (x : α) (l : Nat) : α := (2 * l + 1) * legendre x l

/-- What a sum keeps: the sum so far and the last two values. -/
structure Running (α : Type) where
  sum : α
  p0 : α
  p1 : α

/-- The term of degree `l`, with one division. -/
def Running.next (x : α) (s : Running α) (l : Nat) : Running α :=
  let p2 := 2 * x * s.p1 - s.p0 - (x * s.p1 - s.p0) * (1 / l)
  ⟨s.sum + (2 * l + 1) * p2, s.p1, p2⟩

@[simp]
theorem before_zero (x : α) : before x 0 = 0 := rfl

@[simp]
theorem before_succ (x : α) (n : Nat) : before x (n + 1) = legendre x n := rfl

variable [CharZero α]

theorem next_value (x : α) (n : Nat) :
    2 * x * legendre x n - before x n -
      (x * legendre x n - before x n) * (1 / ((n + 1 : Nat) : α)) = legendre x (n + 1) := by
  cases n with
  | zero =>
    simp only [legendre, before_zero]
    push_cast
    ring
  | succ n =>
    have hne : ((n : α) + 2) ≠ 0 := by exact_mod_cast (Nat.succ_ne_zero (n + 1))
    have hne' : ((n : α) + 1 + 1) ≠ 0 := by exact_mod_cast (Nat.succ_ne_zero (n + 1))
    simp only [before_succ, legendre]
    push_cast
    field_simp
    ring

/-- **The terms from degree `n + 1` on**, when the last two values are known. -/
theorem sumFrom_eq (x acc : α) (n m : Nat) :
    (List.range' (n + 1) m).foldl (Running.next x) ⟨acc, before x n, legendre x n⟩ =
      ⟨acc + ∑ l ∈ Ico (n + 1) (n + 1 + m), term x l, before x (n + m), legendre x (n + m)⟩ := by
  induction m with
  | zero => simp
  | succ m ih =>
    have hlast : n + 1 + m = n + m + 1 := by omega
    have hsum : ∑ l ∈ Ico (n + 1) (n + 1 + (m + 1)), term x l =
        ∑ l ∈ Ico (n + 1) (n + 1 + m), term x l + term x (n + m + 1) := by
      rw [← Nat.add_assoc, sum_Ico_succ_top (by omega), hlast]
    rw [List.range'_1_concat, List.foldl_append, ih, List.foldl_cons, List.foldl_nil, Running.next,
      hsum, hlast, next_value, add_assoc]
    rfl

end CacheTrace.Legendre
