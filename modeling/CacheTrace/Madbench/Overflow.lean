import CacheTrace.Madbench.Repeat

/-!
# The `int`s of the calls

`io_distmatrix` computes the product of a rank and `offcount`, the size of a block and the index
of a record in `int`, and nothing in `initialize` keeps them in range: with 16384 pixels, one
process and 30 bins, rank 8 gets a negative offset and rank 16 the offset of rank 0
(`offset_overflows`).

`RangesFit` is the condition on the parameters under which all of these numbers are the exact
ones, in every call of every run (`calls_exact`). It looks at the shares of one process, since
the fallback makes the record of one read out of the share of another.
-/

namespace CacheTrace.Madbench

open Machine Stdio Transition

/-- A call by one process, with the file and the position of its stream as they are then. -/
structure IoCall where
  kind : Kind
  rank : Nat
  rw : Mode
  file : File
  pos : Nat

/-- The numbers of a read of `elm` elements with the given globals are `int`s. -/
def ReadFits (elm recordSize stride : Nat) : Prop :=
  (8 * elm < (1 + stride) * recordSize → 8 * elm < 2 ^ 31) ∧
    ((1 + stride) * recordSize ≤ 8 * elm → (1 + stride) * recordSize < 2 ^ 31 ∧
      8 * elm / ((1 + stride) * recordSize) * ((1 + stride) * recordSize) < 2 ^ 31 + recordSize)

instance (elm recordSize stride : Nat) : Decidable (ReadFits elm recordSize stride) :=
  inferInstanceAs (Decidable (_ ∧ _))

namespace Job

variable (j : Job) (pe : Nat)

/-- A call that fails ends the process. -/
def callStep (g : Globals) (c : IoCall) : Option Globals :=
  match (ioDistmatrix .c j c.kind pe c.rank c.rw g).exec c.file ⟨c.pos, []⟩ with
  | (.ok g', _) => some g'
  | (.error _, _) => none

/-- The numbers of process `pe` are in range. -/
@[mk_iff]
structure RangesFit : Prop where
  pixels : j.noPix * j.noPix < 2 ^ 31
  offsets : ∀ k, 1 < j.ranks k →
    0 < j.offcount .c k ∧ ((j.ranks k - 1 : Nat) : Int) * j.offcount .c k < 2 ^ 31
  /-- The matrices of the other processes in a shared file. -/
  base : j.filetype = .shared → ∀ k, 0 ≤ pe * j.noBin * j.offcount .c .matrix1 ∧
    8 * (((j.ranks k - 1 : Nat) : Int) * j.offcount .c k + pe * j.noBin * j.offcount .c .matrix1) <
      2 ^ 63
  first : ∀ k, ReadFits (j.share k pe) j.recordSize j.stride
  later : ∀ k k', 8 * j.share k pe < (1 + j.stride) * j.recordSize →
    ReadFits (j.share k' pe) (8 * j.share k pe) 0

instance : Decidable (j.RangesFit pe) := decidable_of_iff _ (j.rangesFit_iff pe).symm

/-- The numbers of the calls on a kind of matrices, when `g` are the globals: `adjust` gives the
globals and the number of records with which a read goes on. -/
structure ExactCall (g : Globals) (k : Kind) : Prop where
  product : ∀ rank < j.ranks k,
    Arith.c.int (rank * j.offcount .c k) = rank * j.offcount .c k
  offset_nonneg : ∀ rank < j.ranks k, 0 ≤ j.fileOffset .c k pe rank
  offset_inj : ∀ rank < j.ranks k, ∀ rank' < j.ranks k,
    j.fileOffset .c k pe rank = j.fileOffset .c k pe rank' → rank = rank'
  block : blockSize .c (adjust .c (j.myNoElm .c k pe) g).1 =
    blockSize .exact (adjust .c (j.myNoElm .c k pe) g).1
  data : ∀ i iter : Nat, i ≤ (adjust .c (j.myNoElm .c k pe) g).1.stride →
    iter < (adjust .c (j.myNoElm .c k pe) g).2 →
    dataOfft .c (adjust .c (j.myNoElm .c k pe) g).1 i iter =
      dataOfft .exact (adjust .c (j.myNoElm .c k pe) g).1 i iter ∧
    0 ≤ dataOfft .c (adjust .c (j.myNoElm .c k pe) g).1 i iter ∧
    dataOfft .c (adjust .c (j.myNoElm .c k pe) g).1 i iter < j.myNoElm .c k pe

end Job

/-! ## The offsets -/

/-- The sum of two offsets, computed in `size_t`. -/
theorem add_base {x y : Int} (hx : 0 ≤ x) (hy : 0 ≤ y) (hxy : 8 * (x + y) < 2 ^ 63) :
    Arith.c.long (Arith.c.ulong (8 * x + Arith.c.ulong (Arith.c.long y * 8))) = 8 * x + 8 * y := by
  rw [Arith.c_long (x := y) (by omega) (by omega), Arith.c_ulong (x := y * 8) (by omega) (by omega),
    Arith.c_ulong (by omega) (by omega), Arith.c_long (by omega) (by omega)]
  omega

section Offsets

variable {j : Job} {pe : Nat} (hfit : j.RangesFit pe) {k : Kind} {rank : Nat}
  (hrank : rank < j.ranks k)

include hfit hrank

theorem product_range : 0 ≤ rank * j.offcount .c k ∧ rank * j.offcount .c k < 2 ^ 31 ∧
    rank * j.offcount .c k ≤ ((j.ranks k - 1 : Nat) : Int) * j.offcount .c k := by
  by_cases hone : 1 < j.ranks k
  · obtain ⟨hpos, hlt⟩ := hfit.offsets k hone
    have hle : (rank : Int) * j.offcount .c k ≤
        ((j.ranks k - 1 : Nat) : Int) * j.offcount .c k :=
      Int.mul_le_mul_of_nonneg_right (by omega) hpos.le
    exact ⟨Int.mul_nonneg (Int.natCast_nonneg _) hpos.le, by omega, hle⟩
  · obtain rfl : rank = 0 := by omega
    rw [show j.ranks k - 1 = 0 by omega]
    simp

theorem product_exact : Arith.c.int (rank * j.offcount .c k) = rank * j.offcount .c k := by
  obtain ⟨hnonneg, hlt, -⟩ := product_range hfit hrank
  exact Arith.c_int (by omega) hlt

/-- The offset of a rank, and what stands before it in a shared file. -/
theorem fileOffset_exact (hpe : pe < 2 ^ 31) (hbin : j.noBin < 2 ^ 31) :
    j.fileOffset .c k pe rank = 8 * (rank * j.offcount .c k) +
      match j.filetype with
      | .unique => 0
      | .shared => 8 * (pe * j.noBin * j.offcount .c .matrix1) := by
  obtain ⟨hnonneg, hlt, hle⟩ := product_range hfit hrank
  have hmul : rank * j.offcount .c k * 8 = 8 * (rank * j.offcount .c k) := Int.mul_comm _ _
  have hoffset : Arith.c.long (Arith.c.ulong (Arith.c.int (rank * j.offcount .c k) * 8)) =
      8 * (rank * j.offcount .c k) := by
    rw [product_exact hfit hrank, hmul, Arith.c_ulong (by omega) (by omega),
      Arith.c_long (by omega) (by omega)]
  unfold Job.fileOffset
  dsimp only
  rw [hoffset]
  cases hf : j.filetype with
  | unique => simp
  | shared =>
    obtain ⟨hbase, hsum⟩ := hfit.base hf k
    have hprod : pe * j.noBin < 2 ^ 31 * 2 ^ 31 := Nat.mul_lt_mul'' hpe hbin
    have hlong := Arith.c_upTo.long (pe * j.noBin) (hprod.trans (by decide))
    rw [Nat.cast_mul] at hlong
    simp only
    rw [hlong]
    exact add_base hnonneg hbase (by omega)

end Offsets

/-! ## The reads -/

/-- The numbers of the loops: `nr` blocks of `s + 1` records of `r` doubles in a share. -/
structure LoopFits (elm r s nr : Nat) : Prop where
  record_pos : 0 < r
  block_lt : 8 * ((s + 1) * r) < 2 ^ 31
  last_lt : 8 * (nr * ((s + 1) * r)) < 2 ^ 31 + 8 * r
  le : nr * ((s + 1) * r) ≤ elm

section Loops

variable {elm r s nr : Nat} (h : LoopFits elm r s nr)

include h

theorem LoopFits.block_exact : blockSize .c (records r s) = blockSize .exact (records r s) := by
  have hexact : Arith.exact.UpTo (2 ^ 31) (2 ^ 31) := Arith.exact_upTo le_rfl
  rw [blockSize_of_lt Arith.c_upTo h.record_pos h.block_lt,
    blockSize_of_lt hexact h.record_pos h.block_lt]

theorem LoopFits.data_exact {i iter : Nat} (hi : i ≤ s) (hiter : iter < nr) :
    dataOfft .c (records r s) i iter = dataOfft .exact (records r s) i iter ∧
      0 ≤ dataOfft .c (records r s) i iter ∧ dataOfft .c (records r s) i iter < elm := by
  have hexact : Arith.exact.UpTo (2 ^ 31) (2 ^ 31) := Arith.exact_upTo le_rfl
  have hplace := place_le (r := r) hi hiter
  have hlast := h.last_lt
  have hle := h.le
  have hpos := h.record_pos
  rw [dataOfft_of_lt Arith.c_upTo h.record_pos h.block_lt (by omega),
    dataOfft_of_lt hexact h.record_pos h.block_lt (by omega)]
  exact ⟨rfl, by omega, by omega⟩

end Loops

/-- Both branches of the test lead into loops that fit. -/
theorem ReadFits.loop {elm r s : Nat} (h : ReadFits elm (8 * r) s) (helm : 0 < elm) (hr : 0 < r)
    (hadjust : Adjusts .c elm r s) :
    ∃ r' s' nr : Nat, adjust .c elm (records r s) = (records r' s', (nr : Int)) ∧
      LoopFits elm r' s' nr := by
  have hblock : (1 + s) * (8 * r) = 8 * ((s + 1) * r) := by ring
  rw [ReadFits, hblock, Nat.mul_div_mul_left _ _ (by decide)] at h
  rw [hadjust]
  split_ifs with hsmall
  · have hbytes := h.1 (by omega)
    exact ⟨elm, 0, 1, rfl, helm, by omega, by omega, by omega⟩
  · obtain ⟨hlt, hlast⟩ := h.2 (by omega)
    have hmul : elm / ((s + 1) * r) * (8 * ((s + 1) * r)) =
        8 * (elm / ((s + 1) * r) * ((s + 1) * r)) := Nat.mul_left_comm _ _ _
    exact ⟨r, s, elm / ((s + 1) * r), rfl, hr, hlt, by omega, Nat.div_mul_le_self _ _⟩

/-! ## The runs -/

theorem callStep_eq_some {j : Job} {pe : Nat} {g g' : Globals} {c : IoCall}
    (h : j.callStep pe g c = some g') :
    g' = g ∨ g' = (adjust .c (j.myNoElm .c c.kind pe) g).1 := by
  obtain ⟨kind, rank, rw, file, pos⟩ := c
  unfold Job.callStep at h
  split at h
  case h_2 => cases h
  rename_i g'' o hexec
  cases h
  obtain ⟨ok, f₁, s₁, -, hexec⟩ := Prog.exec_bind_ok hexec
  obtain ⟨_, f₂, s₂, -, hexec⟩ := Prog.exec_bind_ok hexec
  cases rw with
  | read =>
    obtain ⟨tot, f₃, s₃, -, hexec⟩ := Prog.exec_bind_ok hexec
    obtain ⟨_, f₄, s₄, -, hexec⟩ := Prog.exec_bind_ok hexec
    exact Or.inr (Except.ok.inj (congrArg Prod.fst hexec)).symm
  | write data =>
    obtain ⟨a, f₃, s₃, -, hexec⟩ := Prog.exec_bind_ok hexec
    obtain ⟨_, f₄, s₄, -, hexec⟩ := Prog.exec_bind_ok hexec
    exact Or.inl (Except.ok.inj (congrArg Prod.fst hexec)).symm

section Runs

variable {j : Job} {pe : Nat} (h : j.Valid) (hpe : pe < j.noPe) (hfit : j.RangesFit pe)

include h hfit

theorem readFits_reached {r s : Nat} (hreach : j.Reached pe r s) (k : Kind) :
    ReadFits (j.share k pe) (8 * r) s := by
  cases hreach with
  | start =>
    rw [Job.recordDoubles, Nat.mul_div_cancel' h.record_dvd]
    exact hfit.first k
  | @fallback k' hlt =>
    refine hfit.later k' k ?_
    rw [h.blockBytes_eq]
    omega

include hpe

theorem share_lt (k : Kind) : j.share k pe < 2 ^ 31 :=
  (h.share_le_sq hpe k).trans_lt hfit.pixels

theorem myNoElm_exact (k : Kind) : j.myNoElm .c k pe = j.share k pe :=
  Arith.c_upTo.int _ (share_lt h hpe hfit k)

variable (hint : j.Ints)

include hint

theorem adjusts_reached {r s : Nat} (hreach : j.Reached pe r s) (k : Kind) :
    Adjusts .c (j.share k pe) r s := by
  have hshare := share_lt h hpe hfit k
  cases hreach with
  | start =>
    have hrecord := hint.recordSize
    have hdvd := h.record_dvd
    refine adjusts_c h.record_pos hshare ?_ hint.stride
    rw [Job.recordDoubles]
    omega
  | @fallback k' _ =>
    have hshare' := share_lt h hpe hfit k'
    exact adjusts_of_block (h.share_pos hpe k') hshare (by omega) (by omega)

theorem reached_calls {calls : List IoCall} {g : Globals}
    (hrun : run (j.callStep pe) j.globals calls = some g) :
    ∃ r s, j.Reached pe r s ∧ g = records r s := by
  refine run_invariant (I := fun g => ∃ r s, j.Reached pe r s ∧ g = records r s)
    (G := fun _ _ => True) ?_ ⟨_, _, .start, h.globals_eq⟩ hrun (guarded_true _ _)
  rintro g c g' - ⟨r, s, hreach, rfl⟩ hstep
  rcases callStep_eq_some hstep with hg | hg
  · exact ⟨r, s, hreach, hg⟩
  · rw [hg, myNoElm_exact h hpe hfit, (adjusts_reached h hpe hfit hint hreach c.kind).left]
    exact hreach.left c.kind

/-- Every call of a run computes the exact numbers. -/
theorem exactCall_reached {r s : Nat} (hreach : j.Reached pe r s) (k : Kind) :
    j.ExactCall pe (records r s) k := by
  obtain ⟨r', s', nr, hadjust, hloop⟩ := (readFits_reached h hfit hreach k).loop
    (h.share_pos hpe k) (reached_pos h hpe hreach) (adjusts_reached h hpe hfit hint hreach k)
  have hoffset : ∀ {rank}, rank < j.ranks k → _ := fun hrank =>
    fileOffset_exact hfit hrank (hpe.trans hint.noPe) hint.noBin
  have helm := myNoElm_exact h hpe hfit k
  refine ⟨fun rank hrank => product_exact hfit hrank, fun rank hrank => ?_,
    fun rank hrank rank' hrank' heq => ?_, ?_, fun i iter hi hiter => ?_⟩
  · obtain ⟨hnonneg, -, -⟩ := product_range hfit hrank
    rw [hoffset hrank]
    cases hf : j.filetype with
    | unique =>
      simp only
      omega
    | shared =>
      have hbase := (hfit.base hf k).1
      simp only
      omega
  · rw [hoffset hrank, hoffset hrank'] at heq
    by_cases hone : 1 < j.ranks k
    · have hmul : (rank : Int) * j.offcount .c k = rank' * j.offcount .c k := by omega
      exact_mod_cast Int.eq_of_mul_eq_mul_right (hfit.offsets k hone).1.ne' hmul
    · omega
  · rw [helm, hadjust]
    exact hloop.block_exact
  · rw [helm, hadjust] at hi hiter ⊢
    exact hloop.data_exact (by simpa [records] using hi) (by simpa using hiter)

end Runs

/-- **No `int` overflows** when the ranges fit. -/
theorem calls_exact {j : Job} (hpos : j.Positive) (hint : j.Ints) (hacc : j.Accepted .c) {pe : Nat}
    (hpe : pe < j.noPe) (hfit : j.RangesFit pe) :
    Arith.c.int (j.noPix * j.noPix) = j.noPix * j.noPix ∧
      ∀ calls g, run (j.callStep pe) j.globals calls = some g → ∀ k, j.ExactCall pe g k := by
  have h := hacc.valid hpos
  constructor
  · exact_mod_cast Arith.c_upTo.int _ hfit.pixels
  · intro calls g hrun k
    obtain ⟨r, s, hreach, rfl⟩ := reached_calls h hpe hfit hint hrun
    exact exactCall_reached h hpe hfit hint hreach k

/-- The largest matrix of `runexp_variation.sh`. -/
def sweepJob : Job where
  noPix := 16384
  noBin := 30
  noGang := 1
  sblocksize := 8
  fblocksize := 64
  rMod := 1
  wMod := 1
  recordSize := 4096
  stride := 7
  noPe := 1
  filetype := .unique

/-- The ranks are products of `2 ^ 28`. -/
theorem offset_overflows :
    sweepJob.Positive ∧ sweepJob.Ints ∧ sweepJob.Accepted .c ∧
      8 * sweepJob.offcount .c .matrix1 = 2 ^ 31 ∧
      Arith.c.int (8 * sweepJob.offcount .c .matrix1) = -2 ^ 31 ∧
      sweepJob.fileOffset .c .matrix1 0 8 < 0 ∧
      sweepJob.fileOffset .c .matrix1 0 16 = sweepJob.fileOffset .c .matrix1 0 0 := by
  decide +kernel

/-- A read of a share in one record, and the numbers of the next call. -/
theorem calls_exact_nine :
    run ((nineJob 1 1 72).callStep 0) (nineJob 1 1 72).globals
        [⟨.matrix1, 0, .read, ⟨32, fun _ => 0⟩, 0⟩] = some ⟨32, 0⟩ ∧
      (nineJob 1 1 72).ExactCall 0 ⟨32, 0⟩ .matrix2 := by
  have hrun : run ((nineJob 1 1 72).callStep 0) (nineJob 1 1 72).globals
      [⟨.matrix1, 0, .read, ⟨32, fun _ => 0⟩, 0⟩] = some ⟨32, 0⟩ := by
    decide +kernel
  exact ⟨hrun, (calls_exact (by decide) (by decide) (by decide +kernel) (by decide)
    (by decide +kernel)).2 _ _ hrun _⟩

end CacheTrace.Madbench
