import CacheTrace.Madbench.Distribution
import CacheTrace.Madbench.Io

/-!
# Copying the part of one process

`fill` of `MADbench2.c` copies what a process of `gang1` has of a matrix into the buffer of the
process of `gang2` that gets it. It goes through the blocks of the source, column by column, with
two running numbers: `n` in the source, which only moves on, and `offset` in the destination,
which jumps from block to block.

The rows of the source are dealt out of the rows of the destination: they are the share of number
`roff` among `r12`. So an element at row `r` and column `c` goes to the row
`globalIndex sblocksize r12 roff r` and the column that is found in the same way (`fill_writes`).

The running numbers are `int`s. `Job.NoOverflow` is the range of a job where they, and the other
`int`s of the program, are the exact numbers.
-/

namespace CacheTrace.Madbench

open Cyclic Buffer Machine

/-- The first three numbers of a `MATRIX`, which are sent ahead of the data. -/
structure Extent where
  myNoRow : Nat
  myNoCol : Nat
  myNoElm : Int
  deriving DecidableEq

/-- The destination, and the running numbers `n` and `offset`. -/
structure Filling (α : Type) where
  d2 : Nat → α
  n : Int
  offset : Int

namespace Job

variable {α : Type} (j : Job)

/-- `r12` and `c12`: how many rows of processes of `gang1` come to one of `gang2`. -/
def ratio : Nat := j.side .matrix1 / j.side .matrix2

/-- The numbers of the job are `int`s, and so is every number that the program computes from
them: the shares and offsets of the matrices, `no_bin*no_bin`, and `offset` of `fill`, which goes
two blocks beyond the last one. -/
@[mk_iff]
structure NoOverflow : Prop extends j.NoWrap, j.Ints where
  bins : j.noBin * j.noBin < 2 ^ 31
  fills : j.share .matrix2 0 + 2 * (j.ratio * j.sblocksize) < 2 ^ 31

instance : Decidable j.NoOverflow := decidable_of_iff _ j.noOverflow_iff.symm

/-- The body of the loop over the row blocks of a column. -/
def fillRows (d1 : Nat → α) (spm1 : Extent) (s : Filling α) (rb : Nat) : Filling α :=
  let nr := if rb = spm1.myNoRow / j.sblocksize then spm1.myNoRow % j.sblocksize else j.sblocksize
  ⟨memcpy s.d2 s.offset.toNat d1 s.n.toNat nr, Arith.c.int (s.n + nr),
    Arith.c.int (s.offset + (j.ratio * j.sblocksize : Nat))⟩

/-- The body of the loop over the columns of a block. A product of `int`s that is reduced once has
the same value as one that is reduced at every step. -/
def fillColumn (d1 : Nat → α) (np : Nat) (spm1 : Extent) (myNoRow2 cb : Nat) (s : Filling α)
    (c : Nat) : Filling α :=
  let offset := ((cb * j.ratio + np / j.ratio) * j.sblocksize + c) * myNoRow2
  (List.range (spm1.myNoRow / j.sblocksize + 1)).foldl (j.fillRows d1 spm1)
    { s with offset := Arith.c.int (offset + np % j.ratio * j.sblocksize : Nat) }

/-- The body of the loop over the column blocks. -/
def fillBlock (d1 : Nat → α) (np : Nat) (spm1 : Extent) (myNoRow2 : Nat) (s : Filling α)
    (cb : Nat) : Filling α :=
  let nc := if cb = spm1.myNoCol / j.sblocksize then spm1.myNoCol % j.sblocksize else j.sblocksize
  (List.range nc).foldl (j.fillColumn d1 np spm1 myNoRow2 cb) s

/-- `fill`. The places `roff` and `coff` are `np % r12` and `np / r12`; `myNoRow2` is
`pp_matrix2.my_no_row` of the process. -/
def fill (d1 : Nat → α) (np : Nat) (spm1 : Extent) (myNoRow2 : Nat) (d2 : Nat → α) : Nat → α :=
  ((List.range (spm1.myNoCol / j.sblocksize + 1)).foldl (j.fillBlock d1 np spm1 myNoRow2)
    ⟨d2, 0, 0⟩).d2

/-! ## What is written -/

/-- The row or column of the destination for one of the source, at the place `off`. -/
def embed (off r : Nat) : Nat := globalIndex j.sblocksize j.ratio off r

variable {j} {d1 target : Nat → α} {np myNoRow2 : Nat} {spm1 : Extent}

/-- The elements that are copied until the end of block `k`, the last block being cut off. -/
theorem block_end {b x k : Nat} (hb : 0 < b) (hk : k < x / b + 1) :
    k * b + (if k = x / b then x % b else b) = min ((k + 1) * b) x := by
  have hx : x / b * b + x % b = x := by rw [Nat.mul_comm, Nat.div_add_mod]
  split_ifs with heq
  · have := Nat.mod_lt x hb
    rw [heq, Nat.succ_mul]
    omega
  · have hmul : (k + 1) * b ≤ x / b * b := Nat.mul_le_mul_right b (by omega)
    rw [Nat.min_eq_left (by omega), Nat.succ_mul]

/-- All blocks before block `k` are whole. -/
theorem block_start {b x k : Nat} (hk : k < x / b + 1) : min (k * b) x = k * b := by
  have hmul : k * b ≤ x / b * b := Nat.mul_le_mul_right b (by omega)
  exact Nat.min_eq_left (hmul.trans (Nat.div_mul_le_self x b))

theorem lt_blocks_mul {b x : Nat} (hb : 0 < b) : x < (x / b + 1) * b := by
  rw [Nat.mul_comm]
  exact Nat.lt_mul_div_succ x hb

/-- The `offset` of column `c` before row block `k`. -/
def fillOffset (j : Job) (np myNoRow2 c k : Nat) : Nat :=
  j.embed (np / j.ratio) c * myNoRow2 + (k * j.ratio + np % j.ratio) * j.sblocksize

theorem fillOffset_succ (j : Job) (np myNoRow2 c k : Nat) : j.fillOffset np myNoRow2 c (k + 1) =
    j.fillOffset np myNoRow2 c k + j.ratio * j.sblocksize := by
  simp only [fillOffset]
  ring

section

variable (hb : 0 < j.sblocksize)
  (htarget : ∀ r < spm1.myNoRow, ∀ c < spm1.myNoCol,
    target (j.embed (np / j.ratio) c * myNoRow2 + j.embed (np % j.ratio) r) =
      d1 (c * spm1.myNoRow + r))

include hb htarget

theorem fillRows_writes {c k : Nat} (hc : c < spm1.myNoCol)
    (hk : k < spm1.myNoRow / j.sblocksize + 1) {s : Filling α}
    (hn : s.n.toNat = c * spm1.myNoRow + min (k * j.sblocksize) spm1.myNoRow)
    (hoffset : s.offset.toNat = j.fillOffset np myNoRow2 c k) :
    Writes target (fun x => ∃ r < spm1.myNoRow, r / j.sblocksize = k ∧
        x = j.embed (np / j.ratio) c * myNoRow2 + j.embed (np % j.ratio) r)
      s.d2 (j.fillRows d1 spm1 s k).d2 := by
  have hend := block_end hb hk
  have hstart := block_start hk
  set nr := if k = spm1.myNoRow / j.sblocksize then spm1.myNoRow % j.sblocksize
    else j.sblocksize with hnr
  have hnrb : nr ≤ j.sblocksize := by
    rw [hnr]
    split_ifs
    · exact (Nat.mod_lt _ hb).le
    · exact le_rfl
  have hrow : ∀ y < nr, k * j.sblocksize + y < spm1.myNoRow ∧
      j.embed (np % j.ratio) (k * j.sblocksize + y) =
        (k * j.ratio + np % j.ratio) * j.sblocksize + y := by
    intro y hy
    exact ⟨by omega, globalIndex_mul_add hb (hy.trans_le hnrb)⟩
  refine (Writes.memcpy fun y hy => ?_).congr fun x => ?_
  · obtain ⟨hlt, hembed⟩ := hrow y hy
    rw [hoffset, fillOffset, hn, hstart, Nat.add_assoc, ← hembed, htarget _ hlt c hc,
      Nat.add_assoc]
  · rw [hoffset, fillOffset]
    constructor
    · rintro ⟨r, hr, rfl, rfl⟩
      have hdiv : r / j.sblocksize * j.sblocksize + r % j.sblocksize = r := by
        rw [Nat.mul_comm, Nat.div_add_mod]
      have hy : r % j.sblocksize < nr := by
        have := Nat.mod_lt r hb
        rw [Nat.succ_mul] at hend
        omega
      have hembed := (hrow _ hy).2
      rw [hdiv] at hembed
      rw [hembed]
      omega
    · rintro ⟨hle, hlt⟩
      obtain ⟨y, rfl⟩ := Nat.exists_eq_add_of_le hle
      have hy : y < nr := by omega
      obtain ⟨hr, hembed⟩ := hrow y hy
      refine ⟨k * j.sblocksize + y, hr, mul_add_div hb (hy.trans_le hnrb), ?_⟩
      rw [hembed, Nat.add_assoc]

variable (hcount : spm1.myNoCol * spm1.myNoRow < 2 ^ 31)
  (hint : ∀ c < spm1.myNoCol, ∀ k ≤ spm1.myNoRow / j.sblocksize + 1,
    j.fillOffset np myNoRow2 c k < 2 ^ 31)

include hcount hint

theorem fillColumn_writes {cb c : Nat} (hlt : c < j.sblocksize)
    (hc : cb * j.sblocksize + c < spm1.myNoCol) {s : Filling α}
    (hn : s.n = ((cb * j.sblocksize + c) * spm1.myNoRow : Nat)) :
    (j.fillColumn d1 np spm1 myNoRow2 cb s c).n =
        ((cb * j.sblocksize + c + 1) * spm1.myNoRow : Nat) ∧
      Writes target (fun x => ∃ r < spm1.myNoRow,
        x = j.embed (np / j.ratio) (cb * j.sblocksize + c) * myNoRow2 + j.embed (np % j.ratio) r)
        s.d2 (j.fillColumn d1 np spm1 myNoRow2 cb s c).d2 := by
  set col := cb * j.sblocksize + c with hcol
  have hstart : ((cb * j.ratio + np / j.ratio) * j.sblocksize + c) * myNoRow2 +
      np % j.ratio * j.sblocksize = j.fillOffset np myNoRow2 col 0 := by
    rw [fillOffset, hcol, embed, globalIndex_mul_add hb hlt, Nat.zero_mul, Nat.zero_add]
  have hend : (col + 1) * spm1.myNoRow < 2 ^ 31 :=
    (Nat.mul_le_mul_right _ hc).trans_lt hcount
  rw [Nat.succ_mul] at hend
  -- the state before row block `k`: how much was copied, and where the block goes
  let I : Nat → Filling α → Prop := fun k t =>
    t.n = (col * spm1.myNoRow + min (k * j.sblocksize) spm1.myNoRow : Nat) ∧
    t.offset = j.fillOffset np myNoRow2 col k
  have hstep : ∀ k < spm1.myNoRow / j.sblocksize + 1, ∀ t, I k t →
      I (k + 1) (j.fillRows d1 spm1 t k) := by
    intro k hk t ht
    refine ⟨?_, ?_⟩
    · simp only [fillRows]
      rw [ht.1, block_start hk, ← Int.natCast_add, Nat.add_assoc, block_end hb hk]
      exact Arith.c_upTo.int _ (by omega)
    · simp only [fillRows]
      rw [ht.2, ← Int.natCast_add, ← fillOffset_succ]
      exact Arith.c_upTo.int _ (hint col hc (k + 1) (Nat.succ_le_of_lt hk))
  obtain ⟨⟨hn', -⟩, hwrites⟩ := writes_foldl_range Filling.d2 I _
    (fun k hk t ht => ⟨hstep k hk t ht, fillRows_writes hb htarget hc hk
      (by rw [ht.1, Int.toNat_natCast]) (by rw [ht.2, Int.toNat_natCast])⟩)
    (s := { s with offset := j.fillOffset np myNoRow2 col 0 }) ⟨by simp [hn], rfl⟩
  have hcolumn : j.fillColumn d1 np spm1 myNoRow2 cb s c =
      (List.range (spm1.myNoRow / j.sblocksize + 1)).foldl (j.fillRows d1 spm1)
        { s with offset := j.fillOffset np myNoRow2 col 0 } := by
    rw [fillColumn, hstart, Arith.c_upTo.int _ (hint col hc 0 (Nat.zero_le _))]
  rw [hcolumn]
  refine ⟨hn'.trans ?_, hwrites.congr fun x => ?_⟩
  · rw [Nat.min_eq_right (lt_blocks_mul hb).le, Nat.succ_mul]
  · constructor
    · rintro ⟨r, hr, hx⟩
      exact ⟨r / j.sblocksize, Nat.lt_succ_of_le (Nat.div_le_div_right hr.le), r, hr, rfl, hx⟩
    · rintro ⟨k, -, r, hr, -, hx⟩
      exact ⟨r, hr, hx⟩

theorem fillBlock_writes {cb : Nat} (hcb : cb < spm1.myNoCol / j.sblocksize + 1) {s : Filling α}
    (hn : s.n = (min (cb * j.sblocksize) spm1.myNoCol * spm1.myNoRow : Nat)) :
    (j.fillBlock d1 np spm1 myNoRow2 s cb).n =
        (min ((cb + 1) * j.sblocksize) spm1.myNoCol * spm1.myNoRow : Nat) ∧
      Writes target (fun x => ∃ c < spm1.myNoCol, c / j.sblocksize = cb ∧ ∃ r < spm1.myNoRow,
        x = j.embed (np / j.ratio) c * myNoRow2 + j.embed (np % j.ratio) r)
        s.d2 (j.fillBlock d1 np spm1 myNoRow2 s cb).d2 := by
  have hend := block_end hb hcb
  rw [block_start hcb] at hn
  set nc := if cb = spm1.myNoCol / j.sblocksize then spm1.myNoCol % j.sblocksize
    else j.sblocksize with hnc
  have hncb : nc ≤ j.sblocksize := by
    rw [hnc]
    split_ifs
    · exact (Nat.mod_lt _ hb).le
    · exact le_rfl
  obtain ⟨hn', hwrites⟩ := writes_foldl_range Filling.d2
    (fun k t => t.n = ((cb * j.sblocksize + k) * spm1.myNoRow : Nat)) _
    (fun k (hk : k < nc) t ht =>
      fillColumn_writes hb htarget hcount hint (hk.trans_le hncb) (by omega) ht)
    (s := s) (by simpa using hn)
  refine ⟨hn'.trans (by rw [hend]), hwrites.congr fun x => ?_⟩
  constructor
  · rintro ⟨c, hc, rfl, hx⟩
    have hdiv : c / j.sblocksize * j.sblocksize + c % j.sblocksize = c := by
      rw [Nat.mul_comm, Nat.div_add_mod]
    have := Nat.mod_lt c hb
    refine ⟨c % j.sblocksize, ?_, ?_⟩
    · rw [Nat.succ_mul] at hend
      omega
    · rwa [hdiv]
  · rintro ⟨k, hk, hx⟩
    exact ⟨cb * j.sblocksize + k, by omega, mul_add_div hb (hk.trans_le hncb), hx⟩

/-- **What `fill` writes**: every element of the source, at its place in the destination, and
nothing else. -/
theorem fill_writes (d2 : Nat → α) :
    Writes target (fun x => ∃ r < spm1.myNoRow, ∃ c < spm1.myNoCol,
        x = j.embed (np / j.ratio) c * myNoRow2 + j.embed (np % j.ratio) r)
      d2 (j.fill d1 np spm1 myNoRow2 d2) := by
  obtain ⟨-, hwrites⟩ := writes_foldl_range Filling.d2
    (fun k t => t.n = (min (k * j.sblocksize) spm1.myNoCol * spm1.myNoRow : Nat)) _
    (fun k hk t ht => fillBlock_writes hb htarget hcount hint hk ht) (s := ⟨d2, 0, 0⟩) (by simp)
  refine hwrites.congr fun x => ?_
  constructor
  · rintro ⟨r, hr, c, hc, hx⟩
    exact ⟨c / j.sblocksize, Nat.lt_succ_of_le (Nat.div_le_div_right hc.le), c, hc, rfl, r, hr, hx⟩
  · rintro ⟨k, -, c, hc, -, r, hr, hx⟩
    exact ⟨r, hr, c, hc, hx⟩

end

end Job

end CacheTrace.Madbench
