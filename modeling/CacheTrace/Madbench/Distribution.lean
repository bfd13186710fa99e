import CacheTrace.Cyclic.Distribution
import CacheTrace.Buffer.Copy
import CacheTrace.Madbench.Layout

/-!
# Distributed matrices

The processes of a gang are a square, numbered column by column. A matrix of `no_pix` rows and
columns is dealt out to them block-cyclically in both directions, and every process keeps its
elements in a buffer, column by column. `globalRow` and `globalCol` are the expressions `pr` and
`pc` of `build_dSdC` and `invert_D`, for the row and column of the matrix that an element of the
buffer belongs to; `part` is what a process has of a matrix.

The counts of `numroc` are the right ones: the local rows below `my_no_row` are exactly those
that stand for rows of the matrix (`lt_numroc_iff`).
-/

namespace CacheTrace.Madbench

open Cyclic Buffer

/-- **What `numroc` counts.** -/
theorem lt_numroc_iff {a b c e r : Nat} (hb : 0 < b) (hc : c < e) :
    r < numroc a b c e ↔ globalIndex b e c r < a := by
  have hmod : r % b < b := Nat.mod_lt r hb
  have hrest : a % b < b := Nat.mod_lt a hb
  have hlast : a / b % e < e := Nat.mod_lt _ (Nat.zero_lt_of_lt hc)
  have hr : r / b * b + r % b = r := by rw [Nat.mul_comm, Nat.div_add_mod]
  have ha : a / b * b + a % b = a := by rw [Nat.mul_comm, Nat.div_add_mod]
  have hq : a / b / e * e + a / b % e = a / b := by rw [Nat.mul_comm, Nat.div_add_mod]
  -- compare the blocks, and inside the same block the rows
  have hglobal : globalIndex b e c r < a ↔
      (r / b < a / b / e ∨ r / b = a / b / e ∧ c < a / b % e) ∨
        (r / b = a / b / e ∧ c = a / b % e) ∧ r % b < a % b := by
    conv_lhs => rw [globalIndex, ← ha, mul_add_lt_iff hmod hrest, ← hq, mul_add_lt_iff hc hlast]
    have heq : r / b * e + c = a / b / e * e + a / b % e ↔ r / b = a / b / e ∧ c = a / b % e := by
      constructor
      · intro h
        have hdiv := congrArg (· / e) h
        have hrem := congrArg (· % e) h
        simp only [mul_add_div (Nat.zero_lt_of_lt hc) hc, mul_add_div (Nat.zero_lt_of_lt hc) hlast,
          mul_add_mod hc, mul_add_mod hlast] at hdiv hrem
        exact ⟨hdiv, hrem⟩
      · rintro ⟨h, h'⟩
        rw [h, h']
    rw [heq]
  rw [hglobal]
  unfold numroc
  conv_lhs => rw [← hr]
  split_ifs with hlt heq heq
  · omega
  · rw [mul_add_lt_iff hmod hb]
    omega
  · rw [Nat.add_zero, mul_add_lt_iff hmod hrest]
    omega
  · rw [mul_add_lt_iff hmod hb]
    omega

namespace Job

variable (j : Job)

/-- `my_pe_row` -/
def peRow (k : Kind) (pe : Nat) : Nat := j.gangMyPe pe k % j.side k

/-- `my_pe_col` -/
def peCol (k : Kind) (pe : Nat) : Nat := j.gangMyPe pe k / j.side k

def myNoRow (k : Kind) (pe : Nat) : Nat := numroc j.noPix j.sblocksize (j.peRow k pe) (j.side k)

def myNoCol (k : Kind) (pe : Nat) : Nat := numroc j.noPix j.sblocksize (j.peCol k pe) (j.side k)

/-- `pr`, the row of the matrix for a local row. -/
def globalRow (k : Kind) (pe r : Nat) : Nat := globalIndex j.sblocksize (j.side k) (j.peRow k pe) r

/-- `pc`, the column of the matrix for a local column. -/
def globalCol (k : Kind) (pe c : Nat) : Nat := globalIndex j.sblocksize (j.side k) (j.peCol k pe) c

/-- What process `pe` has of the matrix `M`, column by column. -/
def part {α : Type} (k : Kind) (pe : Nat) (M : Nat → Nat → α) : Nat → α := fun n =>
  M (j.globalRow k pe (n % j.myNoRow k pe)) (j.globalCol k pe (n / j.myNoRow k pe))

/-- The buffer `d` of process `pe` holds its part of the matrix `M`. -/
def IsPart {α : Type} (k : Kind) (pe : Nat) (M : Nat → Nat → α) (d : Nat → α) : Prop :=
  ∀ n < j.share k pe, d n = j.part k pe M n

theorem share_eq (k : Kind) (pe : Nat) : j.share k pe = j.myNoRow k pe * j.myNoCol k pe := rfl

variable {j} {k : Kind} {pe : Nat}

section

variable (h : j.Valid)

include h

theorem Valid.peRow_lt (k : Kind) (pe : Nat) : j.peRow k pe < j.side k :=
  Nat.mod_lt _ (h.side_pos k)

theorem Valid.peCol_lt (hpe : pe < j.noPe) (k : Kind) : j.peCol k pe < j.side k :=
  h.gangMyPe_div_lt hpe k

theorem Valid.lt_myNoRow_iff {r : Nat} : r < j.myNoRow k pe ↔ j.globalRow k pe r < j.noPix :=
  lt_numroc_iff h.sblocksize (h.peRow_lt k pe)

theorem Valid.lt_myNoCol_iff (hpe : pe < j.noPe) {c : Nat} :
    c < j.myNoCol k pe ↔ j.globalCol k pe c < j.noPix :=
  lt_numroc_iff h.sblocksize (h.peCol_lt hpe k)

end

/-- The element of a part at a local row and column. -/
theorem part_mul_add {α : Type} (M : Nat → Nat → α) {r c : Nat} (hr : r < j.myNoRow k pe) :
    j.part k pe M (c * j.myNoRow k pe + r) = M (j.globalRow k pe r) (j.globalCol k pe c) := by
  rw [part, mul_add_mod hr, mul_add_div (Nat.zero_lt_of_lt hr) hr]

theorem mul_add_lt_share {r c : Nat} (hr : r < j.myNoRow k pe) (hc : c < j.myNoCol k pe) :
    c * j.myNoRow k pe + r < j.share k pe := by
  have hmul : (c + 1) * j.myNoRow k pe ≤ j.myNoCol k pe * j.myNoRow k pe :=
    Nat.mul_le_mul_right _ hc
  rw [Nat.succ_mul] at hmul
  rw [share_eq, Nat.mul_comm (j.myNoRow k pe)]
  omega

/-- An index of a part is a local row and column. -/
theorem exists_of_lt_share {n : Nat} (hn : n < j.share k pe) :
    ∃ r < j.myNoRow k pe, ∃ c < j.myNoCol k pe, n = c * j.myNoRow k pe + r := by
  rw [share_eq] at hn
  have hpos : 0 < j.myNoRow k pe := Nat.pos_of_mul_pos_right (Nat.zero_lt_of_lt hn)
  refine ⟨n % j.myNoRow k pe, Nat.mod_lt _ hpos, n / j.myNoRow k pe, ?_, ?_⟩
  · exact Nat.div_lt_of_lt_mul hn
  · rw [Nat.mul_comm, Nat.div_add_mod]

theorem IsPart.contents_eq {α : Type} {M : Nat → Nat → α} {d : Nat → α}
    (hd : j.IsPart k pe M d) :
    contents d (j.share k pe) = contents (j.part k pe M) (j.share k pe) :=
  List.map_congr_left fun n hn => hd n (List.mem_range.mp hn)

theorem IsPart.copied {α : Type} {M : Nat → Nat → α} {d : Nat → α} (hd : j.IsPart k pe M d)
    (d' : Nat → α) : j.IsPart k pe M (memcpy d' 0 d 0 (j.share k pe)) := by
  intro n hn
  have hcopy := memcpy_add d' d 0 0 hn
  rw [Nat.zero_add] at hcopy
  rw [hcopy, hd n hn]

end Job

end CacheTrace.Madbench
