import CacheTrace.Madbench.Layout
import CacheTrace.Madbench.Strided

/-!
# Reads and writes of distributed matrices

`io_distmatrix` in the mode `POSIX` and `SYNC`: it seeks to the place of a rank and reads or
writes the share of the process there. The seek to the end of the file in front of it only
measures a size that is not used, and is left out. The messages between the processes only keep
them waiting; they are in `Madbench.Turns`, and the processes that exchange them and make this call
in `Madbench.Machine`.

`Fits` says that the numbers of a job are in the range of an arithmetic. Then the shares and
positions are the exact ones, and a read of a share that is in the file does what
`eval_stridedRead` says (`Fits.eval_read`).

The checks of `initialize` test that the blocks divide the whole matrix. What a read needs is
that they divide the share of the process, or that the share has no whole block
(`first_read_iff`).
-/

namespace CacheTrace.Madbench

open Machine Stdio

/-- The argument `rw` of `io_distmatrix`, with the data of a write. -/
inductive Mode where
  | read
  | write (data : List Double)

/-- One call of `io_distmatrix` by process `pe`. It returns the globals as it leaves them. -/
def ioDistmatrix (A : Arith) (j : Job) (k : Kind) (pe rank : Nat) (rw : Mode) (g : Globals) :
    Prog Op Globals := do
  let offset := j.fileOffset A k pe rank
  let elm := j.myNoElm A k pe
  let ok ← fseek .set offset
  check .fseek ok
  match rw with
  | .read => stridedRead A offset elm g
  | .write data =>
    let a ← fwrite (data.take (A.ulong elm).toNat)
    check .fwrite (a = A.ulong elm)
    return g

namespace Job

/-- The globals that the command line sets. -/
def globals (j : Job) : Globals := ⟨j.recordSize, j.stride⟩

/-- The doubles of a record on the command line. -/
def recordDoubles (j : Job) : Nat := j.recordSize / 8

/-- The doubles of a block on the command line. -/
def blockDoubles (j : Job) : Nat := (j.stride + 1) * j.recordDoubles

/-- The numbers of the job are in the range of the arithmetic. -/
structure Fits (A : Arith) (j : Job) (n m : Nat) : Prop where
  upTo : A.UpTo n m
  offsets : j.noBin * j.distance .matrix1 < n
  shares : ∀ k, 8 * j.share k 0 < n
  files : 8 * (j.noPe * (j.noBin * j.distance .matrix1)) < m

variable {A : Arith} {j : Job} {n m : Nat}

theorem Valid.record_pos (h : j.Valid) : 0 < j.recordDoubles :=
  Nat.div_pos (Nat.le_of_dvd h.recordSize h.record_dvd) (by decide)

theorem Valid.globals_eq (h : j.Valid) : j.globals = records j.recordDoubles j.stride := by
  have hdvd := h.record_dvd
  have hsize : (j.recordSize : Int) = 8 * (j.recordDoubles : Nat) := by
    rw [recordDoubles]
    omega
  rw [globals, records, hsize]

theorem Valid.blockBytes_eq (h : j.Valid) : (1 + j.stride) * j.recordSize = 8 * j.blockDoubles := by
  have hsize : j.recordSize = 8 * j.recordDoubles := (Nat.mul_div_cancel' h.record_dvd).symm
  rw [blockDoubles, hsize]
  ring

/-- Every region of a process ends inside the bound on the files. -/
theorem Valid.position_end_le (h : j.Valid) {k : Kind} {pe rank : Nat} (hpe : pe < j.noPe)
    (hrank : rank < j.ranks k) :
    j.position k pe rank + 8 * j.share k pe ≤ 8 * (j.noPe * (j.noBin * j.distance .matrix1)) := by
  have hend := h.rank_end_le hrank
  have hshare := h.share_le_distance k pe
  rw [Nat.succ_mul] at hend
  have hproc : (pe + 1) * (j.noBin * j.distance .matrix1) ≤
      j.noPe * (j.noBin * j.distance .matrix1) := Nat.mul_le_mul_right _ hpe
  rw [Nat.succ_mul] at hproc
  have hassoc : pe * j.noBin * j.distance .matrix1 = pe * (j.noBin * j.distance .matrix1) :=
    Nat.mul_assoc _ _ _
  unfold position
  cases j.filetype with
  | unique =>
    simp only
    omega
  | shared =>
    simp only
    omega

namespace Fits

variable (hfit : Fits A j n m) (h : j.Valid)

include hfit h

theorem distance_lt : j.distance .matrix2 < n := by
  have hle : j.noGang * j.distance .matrix1 ≤ j.noBin * j.distance .matrix1 :=
    Nat.mul_le_mul_right _ (Nat.le_of_dvd h.noBin h.gang_dvd_bin)
  rw [distance_matrix2]
  exact hle.trans_lt hfit.offsets

omit h in
theorem share_lt (k : Kind) (pe : Nat) : 8 * j.share k pe < n :=
  (Nat.mul_le_mul_left 8 (j.share_le_zero k pe)).trans_lt (hfit.shares k)

omit h in
theorem myNoElm_eq (k : Kind) (pe : Nat) : j.myNoElm A k pe = j.share k pe := by
  have hlt := hfit.share_lt k pe
  exact Job.myNoElm_eq hfit.upTo (by omega)

theorem end_lt {k : Kind} {pe rank : Nat} (hpe : pe < j.noPe) (hrank : rank < j.ranks k) :
    j.position k pe rank + 8 * j.share k pe < m :=
  (h.position_end_le hpe hrank).trans_lt hfit.files

theorem fileOffset_eq {k : Kind} {pe rank : Nat} (hpe : pe < j.noPe) (hrank : rank < j.ranks k) :
    j.fileOffset A k pe rank = j.position k pe rank := by
  have hend := h.rank_end_le hrank
  have hpos := hfit.end_lt h hpe hrank
  have hoffsets := hfit.offsets
  rw [Nat.succ_mul] at hend
  exact Job.fileOffset_eq hfit.upTo h (hfit.distance_lt h) (by omega) (by omega)

/-- A read of a share that is in the file. -/
theorem eval_read {k : Kind} {pe rank r s : Nat} (hpe : pe < j.noPe) (hrank : rank < j.ranks k)
    (hr : 0 < r) (hadjust : Adjusts A (j.share k pe) r s) {xs : List Double}
    (hxs : xs.length = j.share k pe) (pos : Nat) :
    ∃ s', (ioDistmatrix A j k pe rank .read (records r s)).eval
        (region (j.position k pe rank) xs) ⟨pos, []⟩ =
        some (if filled (j.share k pe) ((s + 1) * r) = j.share k pe then
            .ok (left (j.share k pe) r s)
          else .error .stridedReads, s') ∧
      Fills s'.stores xs (filled (j.share k pe) ((s + 1) * r)) := by
  obtain ⟨s', heval, hfills⟩ := eval_stridedRead hfit.upTo hadjust hxs (h.share_pos hpe k) hr
    (hfit.share_lt k pe) (hfit.end_lt h hpe hrank) (j.position k pe rank)
  refine ⟨s', ?_, hfills⟩
  have hseek : Whence.set.seek pos (j.position k pe rank : Int) = some (j.position k pe rank) := by
    simp [Whence.seek]
  unfold ioDistmatrix
  dsimp only
  rw [hfit.fileOffset_eq h hpe hrank, hfit.myNoElm_eq,
    Prog.eval_bind_ok (Prog.eval_fseek hseek), Prog.eval_bind_ok (Prog.eval_check_true _ _ _)]
  exact heval

/-- The same on a file. -/
theorem exec_read {k : Kind} {pe rank r s : Nat} (hpe : pe < j.noPe) (hrank : rank < j.ranks k)
    (hr : 0 < r) (hadjust : Adjusts A (j.share k pe) r s) {f : File}
    (hlong : j.position k pe rank + 8 * j.share k pe ≤ f.size) (pos : Nat) :
    ∃ s', (ioDistmatrix A j k pe rank .read (records r s)).exec f ⟨pos, []⟩ =
        (if filled (j.share k pe) ((s + 1) * r) = j.share k pe then .ok (left (j.share k pe) r s)
          else .error .stridedReads, f, s') ∧
      Fills s'.stores (f.doubles (j.position k pe rank) (j.share k pe))
        (filled (j.share k pe) ((s + 1) * r)) := by
  obtain ⟨s', heval, hfills⟩ := hfit.eval_read h hpe hrank hr hadjust
    (f.length_doubles (j.position k pe rank) (j.share k pe)) pos
  exact ⟨s', Prog.exec_of_eval (File.region_doubles hlong) heval, hfills⟩

end Fits

/-- Exact arithmetic has room for every job. -/
theorem fits_exact (j : Job) : ∃ n m, Fits .exact j n m := by
  refine ⟨j.noBin * j.distance .matrix1 + 8 * j.share .matrix1 0 + 8 * j.share .matrix2 0 + 1,
    j.noBin * j.distance .matrix1 + 8 * j.share .matrix1 0 + 8 * j.share .matrix2 0 + 1 +
      8 * (j.noPe * (j.noBin * j.distance .matrix1)), ?_⟩
  refine ⟨Arith.exact_upTo (by omega), by omega, ?_, by omega⟩
  intro k
  cases k with
  | matrix1 => omega
  | matrix2 => omega

end Job

theorem filled_eq_self (elm b : Nat) : filled elm b = elm ↔ elm < b ∨ b ∣ elm := by
  unfold filled
  split_ifs with hlt
  · simp [hlt]
  · simp only [hlt, false_or]
    exact ⟨fun h => ⟨elm / b, (Nat.mul_comm _ _).trans h |>.symm⟩, Nat.div_mul_cancel⟩

/-! ## The first read -/

/-- No product of the job leaves the range of its type. -/
@[mk_iff]
structure Job.NoWrap (j : Job) : Prop where
  block : (1 + j.stride) * j.recordSize < 2 ^ 31
  shares : ∀ k, 8 * j.share k 0 < 2 ^ 31
  offsets : j.noBin * j.distance .matrix1 < 2 ^ 31
  files : 8 * (j.noPe * (j.noBin * j.distance .matrix1)) < 2 ^ 63

instance (j : Job) : Decidable j.NoWrap := decidable_of_iff _ j.noWrap_iff.symm

theorem Job.NoWrap.fits {j : Job} (hj : j.NoWrap) : Fits .c j (2 ^ 31) (2 ^ 63) :=
  ⟨Arith.c_upTo, hj.offsets, hj.shares, hj.files⟩

theorem Job.NoWrap.adjusts {j : Job} (hj : j.NoWrap) (h : j.Valid) (k : Kind) (pe : Nat) :
    Adjusts .c (j.share k pe) j.recordDoubles j.stride := by
  have hblock := hj.block
  have hshare := hj.fits.share_lt k pe
  rw [h.blockBytes_eq, Job.blockDoubles] at hblock
  have hr : j.recordDoubles ≤ (j.stride + 1) * j.recordDoubles :=
    Nat.le_mul_of_pos_left _ (Nat.succ_pos _)
  have hs : j.stride + 1 ≤ (j.stride + 1) * j.recordDoubles :=
    Nat.le_mul_of_pos_right _ h.record_pos
  exact adjusts_c h.record_pos (by omega) (by omega) (by omega)

/-- The first read of a matrix that is in the file succeeds when the blocks divide the share, or
when the share has no block. -/
theorem first_read_exec {j : Job} (h : j.Valid) (hj : j.NoWrap) {k : Kind} {pe rank : Nat}
    (hpe : pe < j.noPe) (hrank : rank < j.ranks k) {f : File}
    (hlong : j.position k pe rank + 8 * j.share k pe ≤ f.size) (pos : Nat) :
    (∃ g, ((ioDistmatrix .c j k pe rank .read j.globals).exec f ⟨pos, []⟩).1 = .ok g) ↔
      8 * j.share k pe < (1 + j.stride) * j.recordSize ∨
        (1 + j.stride) * j.recordSize ∣ 8 * j.share k pe := by
  obtain ⟨s', hexec, -⟩ := hj.fits.exec_read h hpe hrank h.record_pos (hj.adjusts h k pe) hlong pos
  have hsmall : 8 * j.share k pe < 8 * j.blockDoubles ↔ j.share k pe < j.blockDoubles := by omega
  rw [h.globals_eq, hexec, h.blockBytes_eq, hsmall, Nat.mul_dvd_mul_iff_left (by decide),
    ← filled_eq_self, Job.blockDoubles]
  split_ifs with hall
  · simp [hall]
  · simp [hall]

/-- **When accepted parameters do not abort.** -/
theorem first_read_iff {j : Job} (hpos : j.Positive) (hacc : j.Accepted .c) (hj : j.NoWrap)
    {k : Kind} {pe rank : Nat} (hpe : pe < j.noPe) (hrank : rank < j.ranks k) {f : File}
    (hlong : j.position k pe rank + 8 * j.share k pe ≤ f.size) (pos : Nat) :
    (∃ g, ((ioDistmatrix .c j k pe rank .read j.globals).exec f ⟨pos, []⟩).1 = .ok g) ↔
      8 * j.share k pe < (1 + j.stride) * j.recordSize ∨
        (1 + j.stride) * j.recordSize ∣ 8 * j.share k pe :=
  first_read_exec (hacc.valid hpos) hj hpe hrank hlong pos

/-- Three pixels on four processes: the shares of `matrix1` have 4, 2, 2 and 1 elements. -/
def nineJob (noBin noGang recordSize : Nat) : Job where
  noPix := 3
  noBin := noBin
  noGang := noGang
  sblocksize := 1
  fblocksize := 8
  rMod := 1
  wMod := 1
  recordSize := recordSize
  stride := 0
  noPe := 4
  filetype := .unique

/-- Its nine elements are three records of 24 bytes. The share of process 0 is one record and a
third. -/
theorem first_read_aborts :
    (nineJob 1 1 24).Positive ∧ (nineJob 1 1 24).Accepted .c ∧ (nineJob 1 1 24).NoWrap ∧
      (nineJob 1 1 24).position .matrix1 0 0 + 8 * (nineJob 1 1 24).share .matrix1 0 = 32 ∧
      ((ioDistmatrix .c (nineJob 1 1 24) .matrix1 0 0 .read (nineJob 1 1 24).globals).exec
        ⟨32, fun _ => 0⟩ ⟨0, []⟩).1 = .error .stridedReads :=
  ⟨by decide, by decide +kernel, by decide +kernel, by decide +kernel, by decide +kernel⟩

/-- One record of 72 bytes holds the whole matrix, and no share has as much. -/
theorem first_read_iff_nine :
    ∃ g, ((ioDistmatrix .c (nineJob 1 1 72) .matrix1 0 0 .read (nineJob 1 1 72).globals).exec
      ⟨32, fun _ => 0⟩ ⟨0, []⟩).1 = .ok g :=
  (first_read_iff (by decide) (by decide +kernel) (by decide +kernel) (by decide)
    (by decide +kernel) (by decide +kernel) 0).mpr (.inl (by decide +kernel))

end CacheTrace.Madbench
