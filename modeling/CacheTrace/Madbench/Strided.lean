import CacheTrace.Lists.Blocks
import CacheTrace.Machine.Arith
import CacheTrace.Stdio.Program
import Mathlib.Tactic.Ring

/-!
# The strided read of MADbench

`io_distmatrix` of `strided_MADbench/MADbench2.c` writes a share of a matrix in one piece and,
in the mode `POSIX` and `SYNC`, reads it back in records of `record_size` bytes: for every
`i ≤ stride` it reads the records `i`, `i + (1 + stride)`, `i + 2 * (1 + stride)`, … of the
share, and puts each of them into its place. A block is a row of `1 + stride` records. When the
share has not even one block, the read falls back to one record of the size of the share, and
leaves that in the globals `record_size` and `stride`.

The code mixes `int`, `off_t` and `size_t`. The model takes the conversions as a parameter;
what the read does in exact arithmetic is `eval_stridedRead`: it fills as many elements as the
blocks have that fit into the share, and it succeeds when these are all.
-/

namespace CacheTrace.Madbench

open Machine Stdio

/-- The operations that `error_check` names in `io_distmatrix`. -/
inductive Op where
  | fseek
  | fread
  | fwrite
  | stridedReads
  deriving DecidableEq

/-- The globals `record_size`, an `off_t`, and `stride`. -/
structure Globals where
  recordSize : Int
  stride : Int
  deriving DecidableEq

section Code

variable (A : Arith)

/-- `my_no_elm*sizeof(double)`. -/
def shareBytes (elm : Int) : Int := A.ulong (elm * 8)

/-- `(1+stride)*record_size`. -/
def Globals.block (g : Globals) : Int := A.long (A.int (1 + g.stride) * g.recordSize)

def nrOfStridedRec (elm : Int) (g : Globals) : Int :=
  A.int (shareBytes A elm / A.ulong (g.block A))

/-- The globals and the number of records of a stride, after the test for a record size that is
larger than what is needed. -/
def adjust (elm : Int) (g : Globals) : Globals × Int :=
  if nrOfStridedRec A elm g < 1 then (⟨A.long (shareBytes A elm), 0⟩, 1)
  else (g, nrOfStridedRec A elm g)

def nrDoubles (g : Globals) : Int := A.int (A.ulong g.recordSize / 8)

def blockSize (g : Globals) : Int := A.int (g.block A)

/-- The index in `data` of record `iter` of stride `i`: first in bytes, then in doubles. The
division converts the `int` to a `size_t`. -/
def dataOfft (g : Globals) (i iter : Nat) : Int :=
  let bytes := A.int (A.long (A.long (g.recordSize * i) + A.long (iter * blockSize A g)))
  A.int (A.ulong bytes / 8)

/-- The body of the inner loop. -/
def readRecord (g : Globals) (i : Nat) (totElems : Int) (iter : Nat) : Prog Op Int := do
  let a ← fread (dataOfft A g i iter) (A.ulong (nrDoubles A g)).toNat
  check .fread (A.int a = nrDoubles A g)
  let ok ← fseek .cur (A.long (blockSize A g - g.recordSize))
  check .fseek ok
  return A.int (totElems + nrDoubles A g)

/-- The body of the outer loop. -/
def readStride (g : Globals) (offset nr totElems : Int) (i : Nat) : Prog Op Int := do
  let ok ← fseek .set (A.long (offset + A.long (i * g.recordSize)))
  check .fseek ok
  (List.range nr.toNat).foldlM (readRecord A g i) totElems

/-- The read of a share of `elm` elements at `offset`. It returns the globals as it leaves
them. -/
def stridedRead (offset elm : Int) (g : Globals) : Prog Op Globals := do
  let g' := (adjust A elm g).1
  let nr := (adjust A elm g).2
  let totElems ← (List.range (g'.stride + 1).toNat).foldlM (readStride A g' offset nr) 0
  check .stridedReads (totElems = elm)
  return g'

end Code

/-! ## Places -/

/-- The globals for records of `r` doubles. -/
def records (r s : Nat) : Globals := ⟨8 * r, s⟩

/-- The place of record `iter` of stride `i`. -/
def place (r s i iter : Nat) : Nat := r * i + iter * ((s + 1) * r)

theorem place_succ (r s i iter : Nat) :
    place r s i (iter + 1) = place r s i iter + r + s * r := by
  simp only [place]
  ring

/-- Every record of a stride lies in the blocks. -/
theorem place_le {r s i iter nr : Nat} (hi : i ≤ s) (hiter : iter < nr) :
    place r s i iter + r ≤ nr * ((s + 1) * r) := by
  calc place r s i iter + r = (i + 1) * r + iter * ((s + 1) * r) := by
        simp only [place]
        ring
    _ ≤ (s + 1) * r + iter * ((s + 1) * r) := by
        gcongr
    _ = (iter + 1) * ((s + 1) * r) := by ring
    _ ≤ nr * ((s + 1) * r) := Nat.mul_le_mul_right _ hiter

/-! ## The stores -/

/-- The stores of record `iter` of stride `i`. -/
def recordStores (xs : List Double) (r s i iter : Nat) : List (Int × Double) :=
  storesAt (place r s i iter) ((xs.drop (place r s i iter)).take r)

/-- The stores of stride `i` up to record `nr`. -/
def strideStores (xs : List Double) (r s nr i : Nat) : List (Int × Double) :=
  (List.range nr).flatMap (recordStores xs r s i)

/-- The stores of the first `m` strides. -/
def blockStores (xs : List Double) (r s nr m : Nat) : List (Int × Double) :=
  (List.range m).flatMap (strideStores xs r s nr)

section Stores

variable {xs : List Double} {r s nr : Nat}

theorem recordStores_value {i iter : Nat} {st : Int × Double}
    (hst : st ∈ recordStores xs r s i iter) :
    ∃ j < r, st.1 = (place r s i iter + j : Nat) ∧ xs[place r s i iter + j]? = some st.2 := by
  obtain ⟨j, x, hx, rfl⟩ := mem_storesAt.mp hst
  rw [List.getElem?_take] at hx
  split_ifs at hx with hj
  rw [List.getElem?_drop] at hx
  exact ⟨j, hj, by push_cast; rfl, hx⟩

theorem mem_recordStores {i iter j : Nat} (hj : j < r) {x : Double}
    (hx : xs[place r s i iter + j]? = some x) :
    (((place r s i iter + j : Nat) : Int), x) ∈ recordStores xs r s i iter := by
  refine mem_storesAt.mpr ⟨j, x, ?_, by push_cast; rfl⟩
  rw [List.getElem?_take_of_lt hj, List.getElem?_drop]
  exact hx

theorem length_blockStores (hfit : nr * ((s + 1) * r) ≤ xs.length) :
    (blockStores xs r s nr (s + 1)).length = nr * ((s + 1) * r) := by
  have hstride : ∀ i, 0 ≤ i → i < 0 + (s + 1) → (strideStores xs r s nr i).length = nr * r := by
    intro i _ hi
    rw [strideStores, List.range_eq_range']
    apply Lists.flatMap_range'_length
    intro iter _ hiter
    have hplace := (place_le (r := r) (show i ≤ s by omega) (show iter < nr by omega)).trans hfit
    rw [recordStores, length_storesAt, List.length_take, List.length_drop]
    omega
  rw [blockStores, List.range_eq_range', Lists.flatMap_range'_length hstride]
  ring

/-- Every element of the blocks belongs to a record. -/
theorem exists_place {k : Nat} (hk : k < nr * ((s + 1) * r)) :
    ∃ i iter j, i ≤ s ∧ iter < nr ∧ j < r ∧ k = place r s i iter + j := by
  have hr : 0 < r := by
    rcases Nat.eq_zero_or_pos r with rfl | hr
    · simp at hk
    · exact hr
  refine ⟨k / r % (s + 1), k / r / (s + 1), k % r, ?_, ?_, Nat.mod_lt _ hr, ?_⟩
  · exact Nat.lt_succ_iff.mp (Nat.mod_lt _ (Nat.succ_pos s))
  · rw [Nat.div_div_eq_div_mul, Nat.mul_comm r]
    exact Nat.div_lt_of_lt_mul (by rwa [Nat.mul_comm] at hk)
  · calc k = r * (k / r) + k % r := (Nat.div_add_mod k r).symm
      _ = r * ((s + 1) * (k / r / (s + 1)) + k / r % (s + 1)) + k % r := by
          rw [Nat.div_add_mod (k / r)]
      _ = place r s (k / r % (s + 1)) (k / r / (s + 1)) + k % r := by
          simp only [place]
          ring

/-- **The records cover the blocks**, each element once. -/
theorem fills_blockStores (hfit : nr * ((s + 1) * r) ≤ xs.length) :
    Fills (blockStores xs r s nr (s + 1)) xs (nr * ((s + 1) * r)) := by
  refine Fills.of_length ?_ ?_ (length_blockStores hfit).le
  · intro st hst
    obtain ⟨i, hi, hst⟩ := List.mem_flatMap.mp hst
    obtain ⟨iter, hiter, hst⟩ := List.mem_flatMap.mp hst
    rw [List.mem_range] at hi hiter
    obtain ⟨j, hj, hindex, hvalue⟩ := recordStores_value hst
    have hplace := place_le (r := r) (show i ≤ s by omega) hiter
    exact ⟨_, by omega, hindex, hvalue⟩
  · intro k hk
    obtain ⟨i, iter, j, hi, hiter, hj, rfl⟩ := exists_place hk
    have hrecord := mem_recordStores hj (List.getElem?_eq_getElem (hk.trans_le hfit))
    have hblock : (((place r s i iter + j : Nat) : Int), _) ∈ blockStores xs r s nr (s + 1) :=
      List.mem_flatMap.mpr ⟨i, List.mem_range.mpr (Nat.lt_succ_of_le hi),
        List.mem_flatMap.mpr ⟨iter, List.mem_range.mpr hiter, hrecord⟩⟩
    exact List.mem_map.mpr ⟨_, hblock, rfl⟩

end Stores

/-! ## The loops

The loops run over `nr` blocks of `s + 1` records of `r` doubles, at position `lo`. All their
numbers are below `n` or `m`, and the conversions keep these. -/

section Values

variable {A : Arith} {n m : Nat} (hA : A.UpTo n m) {r s : Nat}

include hA

theorem block_of_lt (hs : s + 1 < n) (hb : 8 * ((s + 1) * r) < m) :
    (records r s).block A = ((8 * ((s + 1) * r) : Nat) : Int) := by
  have hstride : A.int (1 + (records r s).stride) = ((s + 1 : Nat) : Int) := by
    rw [show 1 + (records r s).stride = ((s + 1 : Nat) : Int) by simp only [records]; omega]
    exact hA.int _ hs
  rw [Globals.block, hstride, records,
    show ((s + 1 : Nat) : Int) * (8 * r) = ((8 * ((s + 1) * r) : Nat) : Int) by push_cast; ring]
  exact hA.long _ hb

variable (hr : 0 < r) (hb : 8 * ((s + 1) * r) < n)

include hr hb

theorem blockSize_of_lt : blockSize A (records r s) = ((8 * ((s + 1) * r) : Nat) : Int) := by
  have hle := hA.le
  have hs : s + 1 ≤ (s + 1) * r := Nat.le_mul_of_pos_right _ hr
  rw [blockSize, block_of_lt hA (by omega) (by omega)]
  exact hA.int _ hb

theorem dataOfft_of_lt {i iter : Nat} (hplace : 8 * place r s i iter < n) :
    dataOfft A (records r s) i iter = place r s i iter := by
  have hle := hA.le
  have hstride : A.long ((records r s).recordSize * i) = ((8 * (r * i) : Nat) : Int) := by
    rw [show (records r s).recordSize * i = ((8 * (r * i) : Nat) : Int) by
      simp only [records]; push_cast; ring]
    refine hA.long _ ?_
    have : r * i ≤ place r s i iter := Nat.le_add_right _ _
    omega
  have hblocks : A.long (iter * blockSize A (records r s)) =
      ((8 * (iter * ((s + 1) * r)) : Nat) : Int) := by
    rw [blockSize_of_lt hA hr hb, show (iter : Int) * ((8 * ((s + 1) * r) : Nat) : Int) =
      ((8 * (iter * ((s + 1) * r)) : Nat) : Int) by push_cast; ring]
    refine hA.long _ ?_
    have : iter * ((s + 1) * r) ≤ place r s i iter := Nat.le_add_left _ _
    omega
  have hsum : ((8 * (r * i) : Nat) : Int) + ((8 * (iter * ((s + 1) * r)) : Nat) : Int) =
      ((8 * place r s i iter : Nat) : Int) := by
    simp only [place]
    push_cast
    ring
  simp only [dataOfft]
  rw [hstride, hblocks, hsum, hA.long _ (by omega), hA.int _ (by omega), hA.ulong _ (by omega),
    show ((8 * place r s i iter : Nat) : Int) / 8 = (place r s i iter : Nat) by omega]
  exact hA.int _ (by omega)

end Values

/-- The blocks of a read are in range. -/
structure InRange (A : Arith) (n m lo r s nr : Nat) : Prop where
  upTo : A.UpTo n m
  record_pos : 0 < r
  nr_pos : 0 < nr
  bytes_lt : 8 * (nr * ((s + 1) * r)) < n
  end_lt : lo + 8 * (nr * ((s + 1) * r)) < m

namespace InRange

variable {A : Arith} {n m lo r s nr : Nat} (h : InRange A n m lo r s nr)

include h

theorem block_lt : 8 * ((s + 1) * r) < n := by
  have hle : (s + 1) * r ≤ nr * ((s + 1) * r) := Nat.le_mul_of_pos_left _ h.nr_pos
  have hlt := h.bytes_lt
  omega

theorem record_lt : 8 * r < n := by
  have hle : r ≤ (s + 1) * r := Nat.le_mul_of_pos_left _ (Nat.succ_pos s)
  have hlt := h.block_lt
  omega

theorem nrDoubles_eq : nrDoubles A (records r s) = r := by
  have hlt := h.record_lt
  have hle := h.upTo.le
  have hbytes : A.ulong (records r s).recordSize = ((8 * r : Nat) : Int) :=
    h.upTo.ulong (8 * r) (by omega)
  rw [nrDoubles, hbytes, show ((8 * r : Nat) : Int) / 8 = r by omega]
  exact h.upTo.int r (by omega)

theorem blockSize_eq : blockSize A (records r s) = ((8 * ((s + 1) * r) : Nat) : Int) :=
  blockSize_of_lt h.upTo h.record_pos h.block_lt

theorem dataOfft_eq {i iter : Nat} (hi : i ≤ s) (hiter : iter < nr) :
    dataOfft A (records r s) i iter = place r s i iter := by
  have hlt := h.bytes_lt
  have hplace := place_le (r := r) hi hiter
  exact dataOfft_of_lt h.upTo h.record_pos h.block_lt (by omega)

theorem gap_eq : A.long (blockSize A (records r s) - (records r s).recordSize) =
    ((8 * (s * r) : Nat) : Int) := by
  have hlt := h.block_lt
  have hle := h.upTo.le
  have hsplit : (s + 1) * r = s * r + r := Nat.succ_mul s r
  rw [h.blockSize_eq, show ((8 * ((s + 1) * r) : Nat) : Int) - (records r s).recordSize =
    ((8 * (s * r) : Nat) : Int) by rw [hsplit]; simp only [records]; push_cast; ring]
  exact h.upTo.long _ (by omega)

/-- The position of stride `i`. -/
theorem start_eq {i : Nat} (hi : i ≤ s) :
    A.long (lo + A.long (i * (records r s).recordSize)) =
      ((lo + 8 * place r s i 0 : Nat) : Int) := by
  have hplace := place_le (r := r) hi h.nr_pos
  have hend := h.end_lt
  have hstart : (i : Int) * (records r s).recordSize = ((8 * place r s i 0 : Nat) : Int) := by
    simp only [records, place]
    push_cast
    ring
  rw [hstart, h.upTo.long _ (by omega), ← Int.natCast_add]
  exact h.upTo.long _ (by omega)

theorem eval_readRecord {xs : List Double} {i iter : Nat} (hi : i ≤ s) (hiter : iter < nr)
    (hfit : place r s i iter + r ≤ xs.length) {tot : Nat} (htot : tot + r < n)
    (stores : List (Int × Double)) :
    (readRecord A (records r s) i tot iter).eval (region lo xs)
        ⟨lo + 8 * place r s i iter, stores⟩ =
      some (.ok ((tot + r : Nat) : Int),
        ⟨lo + 8 * place r s i (iter + 1), stores ++ recordStores xs r s i iter⟩) := by
  have hread := region_read lo hfit
  have hlength : ((xs.drop (place r s i iter)).take r).length = r := View.length_read hread
  have hlt := h.record_lt
  have hle := h.upTo.le
  have hseek : Whence.cur.seek (lo + 8 * place r s i iter + 8 * r) ((8 * (s * r) : Nat) : Int) =
      some (lo + 8 * place r s i (iter + 1)) := by
    rw [place_succ, Whence.seek, if_pos (by omega)]
    congr 1
    omega
  unfold readRecord
  rw [h.nrDoubles_eq, h.dataOfft_eq hi hiter, h.gap_eq, h.upTo.ulong r (by omega),
    Int.toNat_natCast, ← Int.natCast_add, h.upTo.int _ htot]
  rw [Prog.eval_bind_ok (Prog.eval_fread hread), h.upTo.int r (by omega), decide_eq_true rfl,
    Prog.eval_bind_ok (Prog.eval_check_true _ _ _),
    Prog.eval_bind_ok (Prog.eval_fseek (by rw [Cursor.load, hlength]; exact hseek)),
    Prog.eval_bind_ok (Prog.eval_check_true _ _ _)]
  rfl

/-- One stride reads its records. -/
theorem eval_readStride {xs : List Double} {i : Nat} (hi : i ≤ s)
    (hfit : nr * ((s + 1) * r) ≤ xs.length) {tot : Nat} (htot : tot + nr * r < n) (pos : Nat)
    (stores : List (Int × Double)) :
    (readStride A (records r s) lo nr tot i).eval (region lo xs) ⟨pos, stores⟩ =
      some (.ok ((tot + nr * r : Nat) : Int),
        ⟨lo + 8 * place r s i nr, stores ++ strideStores xs r s nr i⟩) := by
  have hseek : Whence.set.seek pos ((lo + 8 * place r s i 0 : Nat) : Int) =
      some (lo + 8 * place r s i 0) := by
    rw [Whence.seek, if_pos (Int.natCast_nonneg _), Int.toNat_natCast]
  have hround : ∀ j < nr, (readRecord A (records r s) i ((tot + j * r : Nat) : Int) j).eval
      (region lo xs) ⟨lo + 8 * place r s i j, stores ++ strideStores xs r s j i⟩ =
      some (.ok ((tot + (j + 1) * r : Nat) : Int),
        ⟨lo + 8 * place r s i (j + 1), stores ++ strideStores xs r s (j + 1) i⟩) := by
    intro j hj
    have hsum : tot + j * r + r = tot + (j + 1) * r := by ring
    have hmono : (j + 1) * r ≤ nr * r := Nat.mul_le_mul_right _ hj
    rw [h.eval_readRecord hi hj ((place_le hi hj).trans hfit) (by omega), hsum, strideStores,
      strideStores, List.range_succ, List.flatMap_append, List.flatMap_singleton, List.append_assoc]
  have hloop := Prog.eval_foldlM_range (fun j => ((tot + j * r : Nat) : Int))
    (fun j => ⟨lo + 8 * place r s i j, stores ++ strideStores xs r s j i⟩) hround
  unfold readStride
  rw [h.start_eq hi, Int.toNat_natCast, Prog.eval_bind_ok (Prog.eval_fseek hseek),
    Prog.eval_bind_ok (Prog.eval_check_true _ _ _)]
  simpa [strideStores] using hloop

/-- The two loops read the blocks, stride by stride. -/
theorem eval_strides {xs : List Double} (hfit : nr * ((s + 1) * r) ≤ xs.length) (pos : Nat) :
    ∃ pos', ((List.range (s + 1)).foldlM (readStride A (records r s) lo nr) 0).eval
        (region lo xs) ⟨pos, []⟩ =
      some (.ok ((nr * ((s + 1) * r) : Nat) : Int), ⟨pos', blockStores xs r s nr (s + 1)⟩) := by
  -- the position after `i` strides; before the first one it is the given one
  let after : Nat → Nat
    | 0 => pos
    | i + 1 => lo + 8 * place r s i nr
  have htotal : (s + 1) * (nr * r) = nr * ((s + 1) * r) := by ring
  have hround : ∀ i < s + 1, (readStride A (records r s) lo nr ((i * (nr * r) : Nat) : Int) i).eval
      (region lo xs) ⟨after i, blockStores xs r s nr i⟩ =
      some (.ok (((i + 1) * (nr * r) : Nat) : Int),
        ⟨after (i + 1), blockStores xs r s nr (i + 1)⟩) := by
    intro i hi
    have hmono : (i + 1) * (nr * r) ≤ (s + 1) * (nr * r) := Nat.mul_le_mul_right _ hi
    have hsum : i * (nr * r) + nr * r = (i + 1) * (nr * r) := (Nat.succ_mul _ _).symm
    have hlt := h.bytes_lt
    rw [h.eval_readStride (by omega) hfit (by omega), hsum, blockStores, blockStores,
      List.range_succ, List.flatMap_append, List.flatMap_singleton]
  have hloop := Prog.eval_foldlM_range (fun i => ((i * (nr * r) : Nat) : Int))
    (fun i => ⟨after i, blockStores xs r s nr i⟩) hround
  refine ⟨after (s + 1), ?_⟩
  rw [← htotal]
  simpa [blockStores, after] using hloop

end InRange

/-! ## The whole read -/

/-- The number of elements that a read of `elm` elements fills with blocks of `b` elements. -/
def filled (elm b : Nat) : Nat := if elm < b then elm else elm / b * b

theorem filled_le (elm b : Nat) : filled elm b ≤ elm := by
  rw [filled]
  split_ifs
  · exact le_rfl
  · exact Nat.div_mul_le_self _ _

/-- The globals that a read leaves. -/
def left (elm r s : Nat) : Globals := if elm < (s + 1) * r then records elm 0 else records r s

/-- The test chooses between the blocks and the fallback as it does without conversions. -/
def Adjusts (A : Arith) (elm r s : Nat) : Prop :=
  adjust A elm (records r s) =
    if elm < (s + 1) * r then (records elm 0, ((1 : Nat) : Int))
    else (records r s, ((elm / ((s + 1) * r) : Nat) : Int))

theorem Adjusts.left {A : Arith} {elm r s : Nat} (h : Adjusts A elm r s) :
    (adjust A elm (records r s)).1 = left elm r s := by
  rw [h, Madbench.left]
  split_ifs
  · rfl
  · rfl

theorem adjusts_of_nr {A : Arith} {elm r s : Nat} (hr : 0 < r)
    (hbytes : A.long (shareBytes A elm) = 8 * elm)
    (hnr : nrOfStridedRec A elm (records r s) = ((elm / ((s + 1) * r) : Nat) : Int)) :
    Adjusts A elm r s := by
  have hb : 0 < (s + 1) * r := Nat.mul_pos (Nat.succ_pos s) hr
  have hone : elm / ((s + 1) * r) < 1 ↔ elm < (s + 1) * r := by
    rw [Nat.div_lt_iff_lt_mul hb, Nat.one_mul]
  rw [Adjusts, adjust, hnr, hbytes]
  split_ifs with h h' h'
  · rfl
  · omega
  · omega
  · rfl

theorem block_exact (r s : Nat) :
    (records r s).block .exact = ((8 * ((s + 1) * r) : Nat) : Int) := by
  simp only [Globals.block, records, Arith.exact_int, Arith.exact_long]
  push_cast
  ring

theorem adjusts_exact {r : Nat} (hr : 0 < r) (s elm : Nat) : Adjusts .exact elm r s := by
  have hbytes : (elm : Int) * 8 = ((8 * elm : Nat) : Int) := by
    push_cast
    ring
  apply adjusts_of_nr hr
  · simpa [shareBytes] using hbytes
  · simp only [nrOfStridedRec, shareBytes, Arith.exact_int, Arith.exact_ulong, block_exact]
    rw [hbytes, ← Int.natCast_ediv, Nat.mul_div_mul_left _ _ (by decide)]

theorem shareBytes_c {elm : Nat} (helm : elm < 2 ^ 31) :
    shareBytes .c elm = ((8 * elm : Nat) : Int) := by
  rw [shareBytes, show (elm : Int) * 8 = ((8 * elm : Nat) : Int) by push_cast; ring]
  exact Arith.c_upTo.ulong _ (by omega)

/-- On the machine the test is right when the block is a `long`. -/
theorem adjusts_of_block {elm r s : Nat} (hr : 0 < r) (helm : elm < 2 ^ 31)
    (hs : s + 1 < 2 ^ 31) (hb : 8 * ((s + 1) * r) < 2 ^ 63) : Adjusts .c elm r s := by
  have hbytes := shareBytes_c helm
  apply adjusts_of_nr hr
  · rw [hbytes]
    exact Arith.c_upTo.long _ (by omega)
  · have hdiv : elm / ((s + 1) * r) ≤ elm := Nat.div_le_self _ _
    rw [nrOfStridedRec, hbytes, block_of_lt Arith.c_upTo hs hb, Arith.c_upTo.ulong _ hb,
      ← Int.natCast_ediv, Nat.mul_div_mul_left _ _ (by decide)]
    exact Arith.c_upTo.int _ (by omega)

/-- On the machine the test is right for every `int`, also when `1 + stride` overflows. -/
theorem adjusts_c {elm r s : Nat} (hr : 0 < r) (helm : elm < 2 ^ 31) (hr' : 8 * r < 2 ^ 31)
    (hs : s < 2 ^ 31) : Adjusts .c elm r s := by
  by_cases hs' : s + 1 < 2 ^ 31
  · have hlt : (s + 1) * (8 * r) < 2 ^ 31 * 2 ^ 31 := Nat.mul_lt_mul'' hs' hr'
    rw [Nat.mul_left_comm] at hlt
    exact adjusts_of_block hr helm hs' (by omega)
  · -- the product is negative, and a huge number as a `size_t`
    obtain rfl : s = 2 ^ 31 - 1 := by omega
    have hbytes := shareBytes_c helm
    have hlong : Arith.c.long (-2 ^ 31 * (8 * (r : Int))) = -2 ^ 31 * (8 * (r : Int)) :=
      Arith.c_long (by omega) (by omega)
    have hblock : (records r (2 ^ 31 - 1)).block .c = -2 ^ 31 * (8 * (r : Int)) := hlong
    have hulong : Arith.c.ulong (-2 ^ 31 * (8 * (r : Int))) = 2 ^ 64 - 2 ^ 34 * r := by
      change (-2 ^ 31 * (8 * (r : Int))) % 2 ^ 64 = _
      omega
    have hzero : elm / ((2 ^ 31 - 1 + 1) * r) = 0 := Nat.div_eq_of_lt (by omega)
    apply adjusts_of_nr hr
    · rw [hbytes]
      exact Arith.c_upTo.long _ (by omega)
    · rw [nrOfStridedRec, hbytes, hblock, hulong, hzero,
        Int.ediv_eq_zero_of_lt (by omega) (by omega)]
      rfl

/-- **What a read does** on a share that is in the file: it fills as many elements as its blocks
have, and it succeeds when these are all. -/
theorem eval_stridedRead {A : Arith} {n m lo elm r s : Nat} {xs : List Double} (hA : A.UpTo n m)
    (hadjust : Adjusts A elm r s) (hxs : xs.length = elm) (helm : 0 < elm)
    (hr : 0 < r) (hn : 8 * elm < n) (hm : lo + 8 * elm < m) (pos : Nat) :
    ∃ s', (stridedRead A lo elm (records r s)).eval (region lo xs) ⟨pos, []⟩ =
        some (if filled elm ((s + 1) * r) = elm then .ok (left elm r s)
          else .error .stridedReads, s') ∧
      Fills s'.stores xs (filled elm ((s + 1) * r)) := by
  have hb : 0 < (s + 1) * r := Nat.mul_pos (Nat.succ_pos s) hr
  -- both branches of the test are loops over `nr` blocks of `(s' + 1) * r'` elements
  obtain ⟨r', s', nr, hadj, hleft, hfilled, hr', hnr⟩ : ∃ r' s' nr : Nat,
      adjust A elm (records r s) = (records r' s', (nr : Int)) ∧ left elm r s = records r' s' ∧
      filled elm ((s + 1) * r) = nr * ((s' + 1) * r') ∧ 0 < r' ∧ 0 < nr := by
    rw [hadjust, left, filled]
    split_ifs with h
    · exact ⟨elm, 0, 1, rfl, rfl, by ring, helm, Nat.one_pos⟩
    · exact ⟨r, s, elm / ((s + 1) * r), rfl, rfl, rfl, hr, Nat.div_pos (by omega) hb⟩
  have hfit : nr * ((s' + 1) * r') ≤ elm := by
    rw [← hfilled]
    exact filled_le _ _
  have hrange : InRange A n m lo r' s' nr := ⟨hA, hr', hnr, by omega, by omega⟩
  obtain ⟨pos', hloops⟩ := hrange.eval_strides (hfit.trans_eq hxs.symm) pos
  refine ⟨⟨pos', blockStores xs r' s' nr (s' + 1)⟩, ?_,
    hfilled ▸ fills_blockStores (hfit.trans_eq hxs.symm)⟩
  unfold stridedRead
  rw [hadj]
  dsimp only
  rw [show ((records r' s').stride + 1).toNat = s' + 1 by simp only [records]; omega,
    Prog.eval_bind_ok hloops, hfilled, hleft]
  by_cases hall : nr * ((s' + 1) * r') = elm
  · rw [if_pos hall, hall, decide_eq_true rfl, Prog.eval_bind_ok (Prog.eval_check_true _ _ _)]
    rfl
  · rw [if_neg hall, decide_eq_false (by exact_mod_cast hall),
      Prog.eval_bind_error (Prog.eval_check_false _ _ _)]

/-! ## Against the plain read -/

/-- The read in one piece that the strided read replaces. -/
def plainRead (offset : Int) (elm : Nat) : Prog Op Unit := do
  let ok ← fseek .set offset
  check .fseek ok
  let a ← fread 0 elm
  check .fread (a = elm)

theorem fills_storesAt (xs : List Double) : Fills (storesAt 0 xs) xs xs.length := by
  refine Fills.of_length ?_ ?_ (length_storesAt 0 xs).le
  · intro st hst
    obtain ⟨j, x, hx, rfl⟩ := mem_storesAt.mp hst
    exact ⟨j, (List.getElem?_eq_some_iff.mp hx).1, Int.zero_add _, hx⟩
  · intro k hk
    refine List.mem_map.mpr ⟨(0 + (k : Int), xs[k]), ?_, Int.zero_add _⟩
    exact mem_storesAt.mpr ⟨k, xs[k], List.getElem?_eq_getElem hk, rfl⟩

theorem exec_plainRead {f : File} {lo elm : Nat} (hsize : lo + 8 * elm ≤ f.size) (s : Cursor) :
    ∃ pos, (plainRead lo elm).exec f s =
      (.ok (), f, ⟨pos, s.stores ++ storesAt 0 (f.doubles lo elm)⟩) := by
  have hread : (region lo (f.doubles lo elm)).read (lo + 8 * 0) elm =
      some (((f.doubles lo elm).drop 0).take elm) := region_read lo (by simp)
  rw [List.drop_zero, List.take_of_length_le (f.length_doubles lo elm).le, Nat.mul_zero,
    Nat.add_zero] at hread
  have hseek : Whence.set.seek s.pos lo = some lo := by simp [Whence.seek]
  have heval : (plainRead lo elm).eval (region lo (f.doubles lo elm)) s =
      some (.ok (), (⟨lo, s.stores⟩ : Cursor).load 0 (f.doubles lo elm)) := by
    unfold plainRead
    rw [Prog.eval_bind_ok (Prog.eval_fseek hseek),
      Prog.eval_bind_ok (Prog.eval_check_true _ _ _), Prog.eval_bind_ok (Prog.eval_fread hread),
      decide_eq_true rfl]
    rfl
  exact ⟨_, Prog.exec_of_eval (File.region_doubles hsize) heval⟩

/-- **The strided read is the plain read.** -/
theorem strided_read_plain {f : File} {lo elm : Nat} {R S : Int} (helm : 1 ≤ elm) (hR : 0 < R)
    (hdvd : 8 ∣ R) (hS : 0 ≤ S) (hbytes : 8 * elm < 2 ^ 31) (hblock : (1 + S) * R < 2 ^ 31)
    (hlong : lo + 8 * elm ≤ f.size) (hsize : f.size < 2 ^ 63) (s : Cursor)
    (hs : s.stores = []) :
    ∃ result s', (stridedRead .c lo elm ⟨R, S⟩).exec f s = (result, f, s') ∧
      (∀ st ∈ s'.stores, 0 ≤ st.1 ∧ st.1 < elm) ∧
      ∀ g, result = .ok g →
        (∀ k < elm, (s'.stores.map Prod.fst).count (k : Int) = 1) ∧
        (∀ buffer, ∀ k < elm, (f.doubles lo elm)[k]? = some (afterStores buffer s'.stores k)) ∧
        ∀ buffer, afterStores buffer s'.stores =
          afterStores buffer ((plainRead lo elm).exec f s).2.2.stores := by
  obtain ⟨pos, _⟩ := s
  obtain rfl : _ = [] := hs
  obtain ⟨r, rfl⟩ : ∃ r : Nat, R = 8 * r := ⟨(R / 8).toNat, by omega⟩
  obtain ⟨s, rfl⟩ := Int.eq_ofNat_of_zero_le hS
  have hr : 0 < r := by omega
  have hb : (s + 1) * (8 * r) < 2 ^ 31 := by
    rw [Int.add_comm 1] at hblock
    exact_mod_cast hblock
  have hr' : 8 * r ≤ (s + 1) * (8 * r) := Nat.le_mul_of_pos_left _ (Nat.succ_pos s)
  have hs' : s + 1 ≤ (s + 1) * (8 * r) := Nat.le_mul_of_pos_right _ (by omega)
  have hend : lo + 8 * elm < 2 ^ 63 := by omega
  have hadjust : Adjusts .c elm r s := adjusts_c hr (by omega) (by omega) (by omega)
  obtain ⟨s', heval, hfills⟩ := eval_stridedRead Arith.c_upTo hadjust (f.length_doubles lo elm)
    helm hr hbytes hend pos
  refine ⟨_, s', Prog.exec_of_eval (File.region_doubles hlong) heval, ?_, ?_⟩
  · intro st hst
    obtain ⟨k, hk, hindex, -⟩ := hfills.value st hst
    have hle : filled elm ((s + 1) * r) ≤ elm := filled_le _ _
    omega
  · intro g hg
    split_ifs at hg with hall
    rw [hall] at hfills
    refine ⟨fun k hk => List.count_eq_one_of_mem hfills.nodup (hfills.all k hk),
      fun buffer k hk => hfills.afterStores_eq buffer hk, fun buffer => ?_⟩
    obtain ⟨pos', hplain⟩ := exec_plainRead hlong ⟨pos, []⟩
    rw [hplain]
    have hpieces := fills_storesAt (f.doubles lo elm)
    rw [File.length_doubles] at hpieces
    exact hfills.afterStores_congr hpieces buffer

/-- Six doubles in records of two, three strides: the read succeeds. -/
theorem strided_read_plain_six :
    ∃ result s', (stridedRead .c 0 6 ⟨16, 2⟩).exec ⟨48, UInt8.ofNat⟩ ⟨0, []⟩ =
        (result, ⟨48, UInt8.ofNat⟩, s') ∧ result = .ok ⟨16, 2⟩ ∧
      (∀ st ∈ s'.stores, 0 ≤ st.1 ∧ st.1 < 6) ∧
      ∀ k : Nat, k < 6 → (s'.stores.map Prod.fst).count (k : Int) = 1 := by
  obtain ⟨result, s', hexec, hinside, hok⟩ := strided_read_plain (f := ⟨48, UInt8.ofNat⟩)
    (by decide : 1 ≤ 6) (by decide : (0 : Int) < 16) (by decide) (by decide : (0 : Int) ≤ 2)
    (by decide) (by decide) (by decide : 0 + 8 * 6 ≤ 48) (by decide : 48 < 2 ^ 63) ⟨0, []⟩ rfl
  have hresult : result = .ok ⟨16, 2⟩ := (congrArg Prod.fst hexec).symm
  exact ⟨result, s', hexec, hresult, hinside, (hok _ hresult).1⟩

end CacheTrace.Madbench
