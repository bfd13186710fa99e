import CacheTrace.Machine.Arith
import Mathlib.Data.Nat.Sqrt
import Mathlib.Tactic.Ring

/-!
# The layout of the MADbench files

`initialize` of `strided_MADbench/MADbench2.c` checks the command line, arranges the processes
in square gangs and computes from that how large the share of a process in a matrix is and how
far apart the matrices stand in a file. All processes together are the gang of `matrix1`; the
processes of each of the `no_gang` gangs share a `matrix2`. A matrix is cut into blocks of
side `sblocksize` that are dealt out cyclically in both directions.

The distances `offcount` are computed by process 0 alone, from its own shares. This is enough,
since no process has a larger share (`share_le_distance`).

With `-D IO`, `numroc` is the macro of `MADbench2.h`; in the other builds it is the ScaLAPACK
function of that name, for which the macro stands. Parameters are natural numbers: a negative one
does not occur here. The checks with `sqrt`, `floor` and `ceil` on doubles are exact for numbers
of 31 bits and are stated on natural numbers.
-/

namespace CacheTrace.Madbench

open Machine

inductive FileType where
  | unique
  | shared
  deriving DecidableEq

/-- The command line, the number of processes and the variable `FILETYPE`. -/
structure Job where
  noPix : Nat
  noBin : Nat
  noGang : Nat
  sblocksize : Nat
  fblocksize : Nat
  rMod : Nat
  wMod : Nat
  recordSize : Nat
  stride : Nat
  noPe : Nat
  filetype : FileType

/-- The two kinds of distributed matrices: `pp_matrix1` in `gang1` and `pp_matrix2` in
`gang2`. -/
inductive Kind where
  | matrix1
  | matrix2
  deriving DecidableEq

theorem Kind.forall_iff {p : Kind → Prop} : (∀ k, p k) ↔ p .matrix1 ∧ p .matrix2 := by
  refine ⟨fun h => ⟨h _, h _⟩, fun h k => ?_⟩
  cases k with
  | matrix1 => exact h.1
  | matrix2 => exact h.2

instance {p : Kind → Prop} [DecidablePred p] : Decidable (∀ k, p k) :=
  decidable_of_iff _ Kind.forall_iff.symm

/-- The macro `numroc`: how many of `a` rows, in blocks of `b`, go to process `c` of `e`. -/
def numroc (a b c e : Nat) : Nat :=
  (a / b / e + if c < a / b % e then 1 else 0) * b + if c = a / b % e then a % b else 0

namespace Job

variable (A : Arith) (j : Job)

/-- The calls of `error_check` that validate the run parameters, with their messages. -/
def checks : List (String × Bool) := [
  ("non-square no_pe", j.noPe.sqrt * j.noPe.sqrt = j.noPe),
  ("no_pe indivisible by no_gang", j.noPe % j.noGang = 0),
  ("no_bin indivisible by no_gang", j.noBin % j.noGang = 0),
  ("non-square no_gang", j.noGang.sqrt * j.noGang.sqrt = j.noGang),
  ("sblocksize too large for no_pix & no_pe",
    j.noPe.sqrt ≤ (j.noPix + j.sblocksize - 1) / j.sblocksize),
  ("fblocksize not an integer number of doubles", j.fblocksize % 8 = 0),
  ("no_pe/no_gang indivisible by r_mod", j.noPe / j.noGang % j.rMod = 0),
  ("no_pe/no_gang indivisible by w_mod", j.noPe / j.noGang % j.wMod = 0),
  ("record_size%sizeof(double)!=0", j.recordSize % 8 = 0),
  ("(no_pix*no_pix*sizeof(double))%((1+stride)*record_size)!=0  ",
    A.ulong (A.int (j.noPix * j.noPix) * 8) %
      A.ulong (A.long (A.int (1 + j.stride) * j.recordSize)) = 0)]

/-- No check fails. -/
def Accepted : Prop := ∀ c ∈ j.checks A, c.2 = true

instance : Decidable (j.Accepted A) := inferInstanceAs (Decidable (∀ c ∈ _, _))

/-- All parameters but the stride are positive. -/
@[mk_iff]
structure Positive : Prop where
  noPix : 0 < j.noPix
  noBin : 0 < j.noBin
  noGang : 0 < j.noGang
  sblocksize : 0 < j.sblocksize
  fblocksize : 0 < j.fblocksize
  rMod : 0 < j.rMod
  wMod : 0 < j.wMod
  recordSize : 0 < j.recordSize
  noPe : 0 < j.noPe

instance : Decidable j.Positive := decidable_of_iff _ j.positive_iff.symm

/-- All parameters are `int`s. -/
@[mk_iff]
structure Ints : Prop where
  noPix : j.noPix < 2 ^ 31
  noBin : j.noBin < 2 ^ 31
  noGang : j.noGang < 2 ^ 31
  sblocksize : j.sblocksize < 2 ^ 31
  fblocksize : j.fblocksize < 2 ^ 31
  rMod : j.rMod < 2 ^ 31
  wMod : j.wMod < 2 ^ 31
  recordSize : j.recordSize < 2 ^ 31
  stride : j.stride < 2 ^ 31
  noPe : j.noPe < 2 ^ 31

instance : Decidable j.Ints := decidable_of_iff _ j.ints_iff.symm

/-- The number of processes in the gang of a matrix. -/
def gangPe : Kind → Nat
  | .matrix1 => j.noPe
  | .matrix2 => j.noPe / j.noGang

/-- The number of a process in its gang. -/
def gangMyPe (pe : Nat) : Kind → Nat
  | .matrix1 => pe
  | .matrix2 => pe % j.gangPe .matrix2

/-- The side of the square of processes that a gang is. -/
def side (k : Kind) : Nat := (j.gangPe k).sqrt

/-- The rows and columns of process `pe`, multiplied out. -/
def share (k : Kind) (pe : Nat) : Nat :=
  numroc j.noPix j.sblocksize (j.gangMyPe pe k % j.side k) (j.side k) *
    numroc j.noPix j.sblocksize (j.gangMyPe pe k / j.side k) (j.side k)

/-- `my_no_elm`, an `int`. -/
def myNoElm (k : Kind) (pe : Nat) : Int := A.int (j.share k pe)

/-- The peak `mpeak` of process 0. -/
def mpeak : Int :=
  if A.int (j.noGang * j.myNoElm A .matrix1 0) > j.myNoElm A .matrix2 0 then
    A.int (j.noGang * j.myNoElm A .matrix1 0)
  else j.myNoElm A .matrix2 0

/-- The number `gfb` of file blocks of all gangs together. -/
def gfb : Int :=
  let unit := A.int (j.noGang * (j.fblocksize / 8 : Nat))
  if (j.mpeak A).tmod unit > 0 then A.int ((j.mpeak A).tdiv unit + 1) else (j.mpeak A).tdiv unit

/-- `offcount`: the distance of two matrices in a file, in doubles. -/
def offcount : Kind → Int
  | .matrix1 => A.int (j.gfb A * (j.fblocksize / 8 : Nat))
  | .matrix2 => A.int (A.int (j.gfb A * j.noGang) * (j.fblocksize / 8 : Nat))

/-- The file offset that `io_distmatrix` computes for a rank. -/
def fileOffset (k : Kind) (pe rank : Nat) : Int :=
  let offset := A.long (A.ulong (A.int (rank * j.offcount A k) * 8))
  match j.filetype with
  | .unique => offset
  | .shared =>
    A.long (A.ulong (offset +
      A.ulong (A.long (A.long (pe * j.noBin) * j.offcount A .matrix1) * 8)))

/-- The number of matrices of a kind that a process writes. -/
def ranks : Kind → Nat
  | .matrix1 => j.noBin
  | .matrix2 => j.noBin / j.noGang

end Job

/-! ## Shares -/

theorem numroc_le_zero (a b c e : Nat) : numroc a b c e ≤ numroc a b 0 e := by
  unfold numroc
  rcases Nat.eq_zero_or_pos b with rfl | hb
  · rcases Nat.eq_zero_or_pos c with rfl | hc
    · exact le_rfl
    · simp only [Nat.div_zero, Nat.zero_mod, Nat.mod_zero, Nat.mul_zero, Nat.zero_add]
      split_ifs <;> omega
  have hmod : a % b < b := Nat.mod_lt _ hb
  have hsucc : (a / b / e + 1) * b = a / b / e * b + b := Nat.succ_mul _ _
  have hzero : (a / b / e + 0) * b = a / b / e * b := rfl
  split_ifs <;> omega

theorem numroc_le {a b c e : Nat} (hc : c < e) : numroc a b c e ≤ a := by
  have hblocks : e * (a / b / e) + a / b % e = a / b := Nat.div_add_mod _ _
  have hrows : b * (a / b) + a % b = a := Nat.div_add_mod _ _
  have hfull : a / b / e ≤ e * (a / b / e) := Nat.le_mul_of_pos_left _ (by omega)
  have hmul : ∀ x, x ≤ a / b → x * b ≤ b * (a / b) := by
    intro x hx
    rw [Nat.mul_comm b]
    exact Nat.mul_le_mul_right _ hx
  unfold numroc
  split_ifs with hlt heq heq
  · omega
  · have := hmul (a / b / e + 1) (by omega)
    omega
  · have := hmul (a / b / e) (by omega)
    simp only [Nat.add_zero]
    omega
  · have := hmul (a / b / e) (by omega)
    simp only [Nat.add_zero]
    omega

/-- Every process of a row of `e` has a part of the rows when there are at least `e` blocks,
the last one perhaps cut off. -/
theorem numroc_pos {a b c e : Nat} (hb : 0 < b) (hc : c < e) (he : e ≤ (a + b - 1) / b) :
    0 < numroc a b c e := by
  have hrows : b * (a / b) + a % b = a := Nat.div_add_mod _ _
  have hceil : (a + b - 1) / b ≤ a / b + if a % b = 0 then 0 else 1 := by
    apply Nat.le_of_lt_succ
    rw [Nat.div_lt_iff_lt_mul hb]
    split_ifs with h
    · rw [Nat.add_zero, Nat.succ_mul, Nat.mul_comm (a / b)]
      omega
    · have : a % b < b := Nat.mod_lt _ hb
      rw [Nat.succ_mul, Nat.succ_mul, Nat.mul_comm (a / b)]
      omega
  unfold numroc
  by_cases hq : e ≤ a / b
  · have : 0 < a / b / e := Nat.div_pos hq (by omega)
    have : 0 < a / b / e * b := Nat.mul_pos this hb
    rw [Nat.add_mul]
    omega
  · -- one block less than processes, and the last process has the cut block
    have hmod : a / b % e = a / b := Nat.mod_eq_of_lt (by omega)
    split_ifs at hceil with h
    · omega
    · rw [hmod]
      split_ifs with hlt heq heq
      · omega
      · rw [Nat.add_mul]
        omega
      · omega
      · omega

namespace Job

variable {A : Arith} {j : Job} {n m : Nat}

/-- What the checks say, in whatever arithmetic they are evaluated. The last one, on the size of
the matrix, is not among it. -/
structure Valid (j : Job) : Prop extends j.Positive where
  noPe_sq : j.noPe.sqrt * j.noPe.sqrt = j.noPe
  gang_dvd_pe : j.noGang ∣ j.noPe
  gang_dvd_bin : j.noGang ∣ j.noBin
  noGang_sq : j.noGang.sqrt * j.noGang.sqrt = j.noGang
  side_le : j.noPe.sqrt ≤ (j.noPix + j.sblocksize - 1) / j.sblocksize
  fblock_dvd : 8 ∣ j.fblocksize
  record_dvd : 8 ∣ j.recordSize

theorem Accepted.valid (h : j.Accepted A) (hpos : j.Positive) : j.Valid := by
  have hchecks := h
  simp only [Accepted, checks, List.forall_mem_cons, decide_eq_true_eq] at hchecks
  obtain ⟨hpe, hdvd, hbin, hgang, hside, hfblock, -, -, hrecord, -⟩ := hchecks
  exact ⟨hpos, hpe, Nat.dvd_of_mod_eq_zero hdvd, Nat.dvd_of_mod_eq_zero hbin, hgang, hside,
    Nat.dvd_of_mod_eq_zero hfblock, Nat.dvd_of_mod_eq_zero hrecord⟩

namespace Valid

variable (h : j.Valid)

include h

/-- A gang is a square of processes: a quotient of squares is a square. -/
theorem side_sq (k : Kind) : j.side k * j.side k = j.gangPe k := by
  cases k with
  | matrix1 => exact h.noPe_sq
  | matrix2 =>
    obtain ⟨q, hq⟩ : j.noGang.sqrt ∣ j.noPe.sqrt := by
      rw [← Nat.pow_dvd_pow_iff (n := 2) (by decide), Nat.pow_two, Nat.pow_two, h.noPe_sq,
        h.noGang_sq]
      exact h.gang_dvd_pe
    have hpe : j.noPe = j.noGang * (q * q) := by
      calc j.noPe = j.noGang.sqrt * q * (j.noGang.sqrt * q) := by rw [← hq, h.noPe_sq]
        _ = j.noGang.sqrt * j.noGang.sqrt * (q * q) := by ring
        _ = j.noGang * (q * q) := by rw [h.noGang_sq]
    have hgang : j.gangPe .matrix2 = q * q := by
      rw [gangPe, hpe, Nat.mul_div_cancel_left _ h.noGang]
    rw [side, hgang, Nat.sqrt_eq]

theorem gangPe_pos (k : Kind) : 0 < j.gangPe k := by
  cases k with
  | matrix1 => exact h.noPe
  | matrix2 => exact Nat.div_pos (Nat.le_of_dvd h.noPe h.gang_dvd_pe) h.noGang

theorem side_pos (k : Kind) : 0 < j.side k := Nat.sqrt_pos.mpr (h.gangPe_pos k)

theorem gangMyPe_lt {pe : Nat} (hpe : pe < j.noPe) (k : Kind) : j.gangMyPe pe k < j.gangPe k := by
  cases k with
  | matrix1 => exact hpe
  | matrix2 => exact Nat.mod_lt _ (h.gangPe_pos .matrix2)

theorem side_le_blocks (k : Kind) : j.side k ≤ (j.noPix + j.sblocksize - 1) / j.sblocksize := by
  refine (Nat.sqrt_le_sqrt ?_).trans h.side_le
  cases k with
  | matrix1 => exact le_rfl
  | matrix2 => exact Nat.div_le_self _ _

/-- A process stands in a column of the square. -/
theorem gangMyPe_div_lt {pe : Nat} (hpe : pe < j.noPe) (k : Kind) :
    j.gangMyPe pe k / j.side k < j.side k := by
  rw [Nat.div_lt_iff_lt_mul (h.side_pos k), h.side_sq]
  exact h.gangMyPe_lt hpe k

/-- Every process has a part of every matrix. -/
theorem share_pos {pe : Nat} (hpe : pe < j.noPe) (k : Kind) : 0 < j.share k pe := by
  have hrow : j.gangMyPe pe k % j.side k < j.side k := Nat.mod_lt _ (h.side_pos k)
  exact Nat.mul_pos (numroc_pos h.sblocksize hrow (h.side_le_blocks k))
    (numroc_pos h.sblocksize (h.gangMyPe_div_lt hpe k) (h.side_le_blocks k))

theorem share_le_sq {pe : Nat} (hpe : pe < j.noPe) (k : Kind) :
    j.share k pe ≤ j.noPix * j.noPix :=
  Nat.mul_le_mul (numroc_le (Nat.mod_lt _ (h.side_pos k))) (numroc_le (h.gangMyPe_div_lt hpe k))

end Valid

/-- No process has more than process 0. -/
theorem share_le_zero (j : Job) (k : Kind) (pe : Nat) : j.share k pe ≤ j.share k 0 := by
  have hzero : j.gangMyPe 0 k = 0 := by
    cases k with
    | matrix1 => rfl
    | matrix2 => exact Nat.zero_mod _
  unfold share
  rw [hzero, Nat.zero_mod, Nat.zero_div]
  exact Nat.mul_le_mul (numroc_le_zero _ _ _ _) (numroc_le_zero _ _ _ _)

/-! ## Distances -/

/-- The exact value of `mpeak`. -/
def peak (j : Job) : Nat := max (j.noGang * j.share .matrix1 0) (j.share .matrix2 0)

/-- One file block for every gang. -/
def unit (j : Job) : Nat := j.noGang * (j.fblocksize / 8)

/-- The exact value of `gfb`. -/
def blocks (j : Job) : Nat :=
  if j.peak % j.unit > 0 then j.peak / j.unit + 1 else j.peak / j.unit

/-- The exact value of `offcount`. -/
def distance (j : Job) : Kind → Nat
  | .matrix1 => j.blocks * (j.fblocksize / 8)
  | .matrix2 => j.blocks * j.noGang * (j.fblocksize / 8)

theorem distance_matrix2 (j : Job) : j.distance .matrix2 = j.noGang * j.distance .matrix1 := by
  simp only [distance]
  ring

theorem distance_matrix2_eq (j : Job) : j.distance .matrix2 = j.blocks * j.unit := by
  simp only [distance, unit]
  ring

namespace Valid

variable (h : j.Valid)

include h

theorem unit_pos : 0 < j.unit :=
  Nat.mul_pos h.noGang (Nat.div_pos (Nat.le_of_dvd h.fblocksize h.fblock_dvd) (by decide))

theorem peak_le : j.peak ≤ j.distance .matrix2 := by
  have hdiv : j.unit * (j.peak / j.unit) + j.peak % j.unit = j.peak := Nat.div_add_mod _ _
  have hmod : j.peak % j.unit < j.unit := Nat.mod_lt _ h.unit_pos
  rw [distance_matrix2_eq, blocks]
  split_ifs with hrest
  · rw [Nat.succ_mul, Nat.mul_comm (j.peak / j.unit)]
    omega
  · rw [Nat.mul_comm (j.peak / j.unit)]
    omega

theorem peak_pos : 0 < j.peak :=
  (h.share_pos h.noPe .matrix2).trans_le (le_max_right _ _)

theorem blocks_pos : 0 < j.blocks := by
  rcases Nat.eq_zero_or_pos j.blocks with hzero | hpos
  · have hle := h.peak_le
    have hpos := h.peak_pos
    rw [distance_matrix2_eq, hzero, Nat.zero_mul] at hle
    omega
  · exact hpos

theorem unit_le : j.unit ≤ j.distance .matrix2 := by
  rw [distance_matrix2_eq]
  exact Nat.le_mul_of_pos_left _ h.blocks_pos

/-- **The shares fit**: matrices of one kind do not overlap in a file. -/
theorem share_le_distance (k : Kind) (pe : Nat) : j.share k pe ≤ j.distance k := by
  refine (j.share_le_zero k pe).trans ?_
  cases k with
  | matrix1 =>
    have hle : j.noGang * j.share .matrix1 0 ≤ j.noGang * j.distance .matrix1 := by
      rw [← distance_matrix2]
      exact (le_max_left _ _).trans h.peak_le
    exact Nat.le_of_mul_le_mul_left hle h.noGang
  | matrix2 => exact (le_max_right _ _).trans h.peak_le

theorem distance_pos (k : Kind) : 0 < j.distance k :=
  (h.share_pos h.noPe k).trans_le (h.share_le_distance k 0)

theorem distance_le_matrix2 (k : Kind) : j.distance k ≤ j.distance .matrix2 := by
  cases k with
  | matrix1 =>
    rw [distance_matrix2]
    exact Nat.le_mul_of_pos_left _ h.noGang
  | matrix2 => exact le_rfl

end Valid

/-- The exact file position of a rank. -/
def position (j : Job) (k : Kind) (pe rank : Nat) : Nat :=
  match j.filetype with
  | .unique => 8 * (rank * j.distance k)
  | .shared => 8 * (rank * j.distance k) + 8 * (pe * j.noBin * j.distance .matrix1)

/-! ## Conversions -/

theorem myNoElm_eq (hA : A.UpTo n m) {k : Kind} {pe : Nat} (hlt : j.share k pe < n) :
    j.myNoElm A k pe = j.share k pe :=
  hA.int _ hlt

section InRange

variable (hA : A.UpTo n m) (h : j.Valid) (hn : j.distance .matrix2 < n)

include hA h hn

theorem mpeak_eq : j.mpeak A = j.peak := by
  have hpeak := h.peak_le
  have h1 : j.noGang * j.share .matrix1 0 ≤ j.peak := le_max_left _ _
  have h2 : j.share .matrix2 0 ≤ j.peak := le_max_right _ _
  have hself : j.share .matrix1 0 ≤ j.noGang * j.share .matrix1 0 :=
    Nat.le_mul_of_pos_left _ h.noGang
  have hmul : A.int (j.noGang * j.myNoElm A .matrix1 0) =
      ((j.noGang * j.share .matrix1 0 : Nat) : Int) := by
    rw [myNoElm_eq hA (by omega), ← Int.natCast_mul]
    exact hA.int _ (by omega)
  rw [mpeak, hmul, myNoElm_eq hA (by omega), peak]
  split_ifs <;> omega

theorem gfb_eq : j.gfb A = j.blocks := by
  have hunit : A.int (j.noGang * (j.fblocksize / 8 : Nat)) = (j.unit : Int) := by
    rw [← Int.natCast_mul]
    exact hA.int _ (h.unit_le.trans_lt hn)
  have hle : j.blocks ≤ j.distance .matrix2 := by
    rw [distance_matrix2_eq]
    exact Nat.le_mul_of_pos_right _ h.unit_pos
  rw [gfb, hunit, mpeak_eq hA h hn]
  simp only [← Int.ofNat_tdiv, ← Int.ofNat_tmod]
  rw [blocks] at hle ⊢
  split_ifs at hle ⊢ with h1 h2 h2
  · exact hA.int (j.peak / j.unit + 1) (by omega)
  · omega
  · omega
  · rfl

theorem offcount_eq (k : Kind) : j.offcount A k = j.distance k := by
  have hgang : j.blocks * j.noGang ≤ j.distance .matrix2 :=
    Nat.le_mul_of_pos_right _ (Nat.div_pos (Nat.le_of_dvd h.fblocksize h.fblock_dvd) (by decide))
  cases k with
  | matrix1 =>
    rw [offcount, gfb_eq hA h hn, ← Int.natCast_mul]
    exact hA.int _ ((h.distance_le_matrix2 .matrix1).trans_lt hn)
  | matrix2 =>
    rw [offcount, gfb_eq hA h hn, ← Int.natCast_mul, hA.int _ (by omega), ← Int.natCast_mul]
    exact hA.int _ hn

theorem fileOffset_eq {k : Kind} {pe rank : Nat} (hrank : rank * j.distance k < n)
    (hm : j.position k pe rank < m) : j.fileOffset A k pe rank = j.position k pe rank := by
  have hoff : ∀ hlt : 8 * (rank * j.distance k) < m,
      A.long (A.ulong (A.int (rank * j.offcount A k) * 8)) =
        ((8 * (rank * j.distance k) : Nat) : Int) := by
    intro hlt
    rw [offcount_eq hA h hn, ← Int.natCast_mul, hA.int _ hrank, Int.mul_comm]
    change A.long (A.ulong ((8 * (rank * j.distance k) : Nat) : Int)) = _
    rw [hA.ulong _ hlt, hA.long _ hlt]
  unfold fileOffset
  unfold position at hm ⊢
  cases hf : j.filetype with
  | unique =>
    simp only [hf] at hm ⊢
    exact hoff hm
  | shared =>
    simp only [hf] at hm ⊢
    have hpos := h.distance_pos .matrix1
    have hbase : pe * j.noBin ≤ pe * j.noBin * j.distance .matrix1 :=
      Nat.le_mul_of_pos_right _ hpos
    rw [hoff (by omega), offcount_eq hA h hn, ← Int.natCast_mul, hA.long _ (by omega),
      ← Int.natCast_mul, hA.long _ (by omega), Int.mul_comm _ 8]
    change A.long (A.ulong (_ +
      A.ulong ((8 * (pe * j.noBin * j.distance .matrix1) : Nat) : Int))) = _
    rw [hA.ulong _ (by omega), ← Int.natCast_add, hA.ulong _ hm, hA.long _ hm]

end InRange

/-! ## Regions -/

theorem mul_apart {r r' : Nat} (hne : r ≠ r') (d : Nat) :
    r * d + d ≤ r' * d ∨ r' * d + d ≤ r * d := by
  rcases Nat.lt_or_gt_of_ne hne with hlt | hlt
  · exact Or.inl ((Nat.succ_mul r d).symm.trans_le (Nat.mul_le_mul_right d hlt))
  · exact Or.inr ((Nat.succ_mul r' d).symm.trans_le (Nat.mul_le_mul_right d hlt))

namespace Valid

variable (h : j.Valid)

include h

theorem ranks_pos (k : Kind) : 0 < j.ranks k := by
  cases k with
  | matrix1 => exact h.noBin
  | matrix2 => exact Nat.div_pos (Nat.le_of_dvd h.noBin h.gang_dvd_bin) h.noGang

/-- All matrices of a kind lie in the first `no_bin` distances. -/
theorem rank_end_le {k : Kind} {rank : Nat} (hrank : rank < j.ranks k) :
    (rank + 1) * j.distance k ≤ j.noBin * j.distance .matrix1 := by
  cases k with
  | matrix1 => exact Nat.mul_le_mul_right _ hrank
  | matrix2 =>
    calc (rank + 1) * j.distance .matrix2 ≤ j.noBin / j.noGang * j.distance .matrix2 :=
          Nat.mul_le_mul_right _ hrank
      _ = j.noBin / j.noGang * j.noGang * j.distance .matrix1 := by
          rw [distance_matrix2, Nat.mul_assoc]
      _ = j.noBin * j.distance .matrix1 := by rw [Nat.div_mul_cancel h.gang_dvd_bin]

/-- The region of a process and a rank ends before the next one begins. -/
theorem region_disjoint {k : Kind} {pe pe' rank rank' : Nat} (hrank : rank < j.ranks k)
    (hrank' : rank' < j.ranks k) (hne : (pe, rank) ≠ (pe', rank'))
    (hfile : j.filetype = .unique → pe = pe') :
    j.position k pe rank + 8 * j.distance k ≤ j.position k pe' rank' ∨
      j.position k pe' rank' + 8 * j.distance k ≤ j.position k pe rank := by
  by_cases hpe : pe = pe'
  · -- two ranks of one process, at the same base
    subst hpe
    have hr : rank ≠ rank' := by
      rintro rfl
      exact hne rfl
    have hranks := mul_apart hr (j.distance k)
    unfold position
    cases j.filetype with
    | unique =>
      simp only
      omega
    | shared =>
      simp only
      omega
  · -- two processes in a shared file, each inside its own `no_bin` distances
    have hf : j.filetype = .shared := by
      cases hf : j.filetype with
      | unique => exact absurd (hfile hf) hpe
      | shared => rfl
    have hend := h.rank_end_le hrank
    have hend' := h.rank_end_le hrank'
    have hbases := mul_apart hpe (j.noBin * j.distance .matrix1)
    rw [Nat.succ_mul] at hend hend'
    simp only [position, hf, Nat.mul_assoc]
    omega

end Valid

end Job

end CacheTrace.Madbench
