import Mathlib.Algebra.Order.Ring.Nat
import Mathlib.Tactic.Ring

/-!
# Block-cyclic distribution

The numbers below some bound are cut into blocks of `b`, and the blocks are dealt out in turn to
`e` processes. The index `r` of process `c` stands for the number `globalIndex b e c r`; every
number has one process and one index there (`globalIndex_localIndex`,
`localIndex_globalIndex`). Dealing out twice, first to `p` processes and then what each of them
has to `k`, is dealing out to `k * p` (`globalIndex_globalIndex`).
-/

namespace CacheTrace.Cyclic

/-- The number that stands at index `r` of process `c`. -/
def globalIndex (b e c r : Nat) : Nat := (r / b * e + c) * b + r % b

/-- The process that has number `i`. -/
def owner (b e i : Nat) : Nat := i / b % e

/-- The index of number `i` at its process. -/
def localIndex (b e i : Nat) : Nat := i / b / e * b + i % b

theorem owner_lt {e : Nat} (he : 0 < e) (b i : Nat) : owner b e i < e := Nat.mod_lt _ he

/-- Numbers of two digits, the last one below `b`, are compared digit by digit. -/
theorem mul_add_lt_iff {b x y u v : Nat} (hu : u < b) (hv : v < b) :
    x * b + u < y * b + v ↔ x < y ∨ x = y ∧ u < v := by
  constructor
  · intro h
    rcases Nat.lt_trichotomy x y with hlt | heq | hgt
    · exact .inl hlt
    · subst heq
      exact .inr ⟨rfl, by omega⟩
    · have hmul : (y + 1) * b ≤ x * b := Nat.mul_le_mul_right b hgt
      rw [Nat.succ_mul] at hmul
      omega
  · rintro (hlt | ⟨rfl, hlt⟩)
    · have hmul : (x + 1) * b ≤ y * b := Nat.mul_le_mul_right b hlt
      rw [Nat.succ_mul] at hmul
      omega
    · omega

section

variable {b : Nat} (hb : 0 < b)

include hb

theorem mul_add_div {x u : Nat} (hu : u < b) : (x * b + u) / b = x := by
  rw [Nat.mul_comm, Nat.mul_add_div hb, Nat.div_eq_of_lt hu, Nat.add_zero]

omit hb in
theorem mul_add_mod {x u : Nat} (hu : u < b) : (x * b + u) % b = u := by
  rw [Nat.mul_comm, Nat.mul_add_mod, Nat.mod_eq_of_lt hu]

omit hb in
theorem mul_add_lt_mul_iff {x y u : Nat} (hu : u < b) : x * b + u < y * b ↔ x < y := by
  have h := mul_add_lt_iff (x := x) (y := y) hu (Nat.zero_lt_of_lt hu)
  rw [Nat.add_zero] at h
  rw [h]
  omega

theorem globalIndex_div (e c r : Nat) : globalIndex b e c r / b = r / b * e + c :=
  mul_add_div hb (Nat.mod_lt r hb)

theorem globalIndex_mod (e c r : Nat) : globalIndex b e c r % b = r % b :=
  mul_add_mod (Nat.mod_lt r hb)

/-- Inside a block the numbers go on like the indices. -/
theorem globalIndex_mul_add {e c x u : Nat} (hu : u < b) :
    globalIndex b e c (x * b + u) = (x * e + c) * b + u := by
  rw [globalIndex, mul_add_div hb hu, mul_add_mod hu]

theorem owner_globalIndex {e c : Nat} (hc : c < e) (r : Nat) :
    owner b e (globalIndex b e c r) = c := by
  rw [owner, globalIndex_div hb, mul_add_mod hc]

theorem localIndex_globalIndex {e c : Nat} (hc : c < e) (r : Nat) :
    localIndex b e (globalIndex b e c r) = r := by
  rw [localIndex, globalIndex_div hb, globalIndex_mod hb,
    mul_add_div (Nat.zero_lt_of_lt hc) hc, Nat.mul_comm, Nat.div_add_mod]

theorem globalIndex_localIndex (e i : Nat) :
    globalIndex b e (owner b e i) (localIndex b e i) = i := by
  rw [localIndex, globalIndex_mul_add hb (Nat.mod_lt i hb), owner, Nat.mul_comm (i / b / e),
    Nat.div_add_mod, Nat.mul_comm, Nat.div_add_mod]

/-- **Dealing out twice.** -/
theorem globalIndex_globalIndex (p k c c' r : Nat) :
    globalIndex b p c (globalIndex b k c' r) = globalIndex b (k * p) (c' * p + c) r := by
  rw [globalIndex, globalIndex_div hb, globalIndex_mod hb, globalIndex]
  ring

end

end CacheTrace.Cyclic
