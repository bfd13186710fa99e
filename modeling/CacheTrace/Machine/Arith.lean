import Mathlib.Algebra.Ring.Int.Defs
import Mathlib.Algebra.Ring.Nat

/-!
# Integer conversions of a C program

Every integer result of a C expression is converted to the type of the expression. An `Arith`
says what the conversions to `int`, `long` and `unsigned long` do. `Arith.c` is a machine with
32-bit `int` and 64-bit `long`, where a conversion is a reduction modulo a power of two;
`Arith.exact` leaves every number as it is. A program that takes an `Arith` is thus the program
of the machine and its exact counterpart at once, and the two agree as long as the numbers are
in range (`c_upTo`).
-/

namespace CacheTrace.Machine

structure Arith where
  int : Int → Int
  long : Int → Int
  ulong : Int → Int

namespace Arith

def c : Arith where
  int x := x.bmod (2 ^ 32)
  long x := x.bmod (2 ^ 64)
  ulong x := x % 2 ^ 64

def exact : Arith := ⟨id, id, id⟩

@[simp] theorem exact_int (x : Int) : exact.int x = x := rfl

@[simp] theorem exact_long (x : Int) : exact.long x = x := rfl

@[simp] theorem exact_ulong (x : Int) : exact.ulong x = x := rfl

theorem c_int {x : Int} (h : -2 ^ 31 ≤ x) (h' : x < 2 ^ 31) : c.int x = x := by
  change x.bmod (2 ^ 32) = x
  rw [Int.bmod_def]
  omega

theorem c_long {x : Int} (h : -2 ^ 63 ≤ x) (h' : x < 2 ^ 63) : c.long x = x := by
  change x.bmod (2 ^ 64) = x
  rw [Int.bmod_def]
  omega

theorem c_ulong {x : Int} (h : 0 ≤ x) (h' : x < 2 ^ 64) : c.ulong x = x := by
  change x % 2 ^ 64 = x
  omega

/-- The conversions keep the numbers below `n` and `m`. -/
structure UpTo (A : Arith) (n m : Nat) : Prop where
  le : n ≤ m
  int : ∀ x : Nat, x < n → A.int x = x
  long : ∀ x : Nat, x < m → A.long x = x
  ulong : ∀ x : Nat, x < m → A.ulong x = x

theorem exact_upTo {n m : Nat} (h : n ≤ m) : exact.UpTo n m :=
  ⟨h, fun _ _ => rfl, fun _ _ => rfl, fun _ _ => rfl⟩

theorem c_upTo : c.UpTo (2 ^ 31) (2 ^ 63) where
  le := Nat.pow_le_pow_right (by decide) (by decide)
  int x hx := c_int (by omega) (by omega)
  long x hx := c_long (by omega) (by omega)
  ulong x hx := c_ulong (by omega) (by omega)

end Arith

end CacheTrace.Machine
