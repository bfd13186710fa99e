import CacheTrace.Madbench.Main

/-!
# The build with `-D IO`

The Makefile compiles the program with `-D IO`. Then the matrices are not computed: `busy_work`
stands in the place of the computations, `dposv` does nothing, and what is left are the accesses
to the files and the barriers. This program ends as well, in every order of the steps. Every rank
has been written by the process that reads it, so when the records fit the shares no read aborts
(`main_io`). What it prints is a sum of zeros.
-/

namespace CacheTrace.Madbench

open Cyclic Buffer Message

variable {α : Type}

namespace Job

variable {j : Job} {pe : Nat} {s s' : Memory α} {bins ranks : Nat}

/-! ## What is in the files -/

theorem Present.write {k k' : Kind} {rank rank' : Nat} (hfile : j.Present k' pe rank' s.file)
    (data : Var) : j.Present k' pe rank' (j.written pe k data rank s).file := by
  intro n hn
  simp only [written]
  split_ifs
  · rfl
  · exact hfile n hn

theorem present_written (k : Kind) (data : Var) (rank pe : Nat) (s : Memory α) :
    j.Present k pe rank (j.written pe k data rank s).file := by
  intro n hn
  simp only [written]
  rw [if_pos ⟨Nat.le_add_right _ _, by omega⟩]
  rfl

/-- Process `pe` has written the first `bins` ranks of `matrix1` and the first `ranks` ones of
`matrix2`. -/
structure Stocked (j : Job) (pe bins ranks : Nat) (s : Memory α) : Prop where
  records : j.HasRecords pe s
  matrix1 : ∀ b < bins, j.Present .matrix1 pe b s.file
  matrix2 : ∀ c < ranks, j.Present .matrix2 pe c s.file

theorem Stocked.of_retains (hs : j.Stocked pe bins ranks s) {vs : List Var}
    (hretains : j.Retains pe vs s s') : j.Stocked pe bins ranks s' := by
  refine ⟨hretains.records hs.records, ?_, ?_⟩
  · rw [hretains.file]
    exact hs.matrix1
  · rw [hretains.file]
    exact hs.matrix2

theorem Stocked.put (hs : j.Stocked pe bins ranks s) (x : Arrays α) :
    j.Stocked pe bins ranks (s.put x) := ⟨hs.records, hs.matrix1, hs.matrix2⟩

theorem Stocked.write_matrix1 (hs : j.Stocked pe bins ranks s) (data : Var) :
    j.Stocked pe (bins + 1) ranks (j.written pe .matrix1 data bins s) := by
  refine ⟨hs.records, fun b hb => ?_, fun c hc => (hs.matrix2 c hc).write data⟩
  rcases Nat.lt_succ_iff_lt_or_eq.mp hb with hlt | rfl
  · exact (hs.matrix1 b hlt).write data
  · exact present_written _ _ _ _ _

theorem Stocked.write_matrix2 (hs : j.Stocked pe bins ranks s) (data : Var) :
    j.Stocked pe bins (ranks + 1) (j.written pe .matrix2 data ranks s) := by
  refine ⟨hs.records, fun b hb => (hs.matrix1 b hb).write data, fun c hc => ?_⟩
  rcases Nat.lt_succ_iff_lt_or_eq.mp hc with hlt | rfl
  · exact (hs.matrix2 c hlt).write data
  · exact present_written _ _ _ _ _

/-- All processes have written so much. -/
def AllStocked (j : Job) (bins ranks : Nat) (L : Nat → Memory α) : Prop :=
  ∀ pe < j.noPe, j.Stocked pe bins ranks (L pe)

/-- Process `pe` has written all ranks, and its derivatives are zero. -/
structure Blank (R : Library j α) (pe : Nat) (s : Memory α) : Prop where
  stocked : j.Stocked pe j.noBin (j.noBin / j.noGang) s
  dLdC : ∀ n < j.noBin, s.buffer .dLdC n = R.zero

theorem Blank.of_retains {R : Library j α} (hs : Blank R pe s) {vs : List Var}
    (hretains : j.Retains pe vs s s') (hdLdC : .dLdC ∉ vs) : Blank R pe s' := by
  refine ⟨hs.stocked.of_retains hretains, ?_⟩
  rw [hretains.buffer _ hdLdC]
  exact hs.dLdC

/-- Processes that compute. -/
theorem AllStocked.computeIf {p : Nat → Prop} [DecidablePred p]
    {f : Nat → Arrays α → Arrays α} : j.Does (j.AllStocked bins ranks)
      (fun pe => if p pe then [.compute (f pe)] else []) (j.AllStocked bins ranks) := by
  refine Does.computeIf fun L hL pe hpe => ?_
  simp only [hpe, true_and]
  split_ifs
  · exact (hL pe hpe).put _
  · exact hL pe hpe

theorem AllStocked.compute {f : Nat → Arrays α → Arrays α} :
    j.Does (j.AllStocked bins ranks) (fun pe => [.compute (f pe)]) (j.AllStocked bins ranks) :=
  (AllStocked.computeIf (p := fun _ => True)).of_eq fun _ _ => (if_pos trivial).symm

section Passes

variable (h : j.Valid) (hr : ∀ k, j.ioMod .r ∣ j.gangPe k) (hw : ∀ k, j.ioMod .w ∣ j.gangPe k)
  (hwhole : j.Whole) {R : Library j α} {build : Build} (hio : build.io = true)

section Calls

include h

theorem AllStocked.read (hr : ∀ k, j.ioMod .r ∣ j.gangPe k) (hwhole : j.Whole) {k : Kind}
    (data : Var) {rank : Nat} (hpresent : ∀ L : Nat → Memory α, j.AllStocked bins ranks L →
      ∀ pe < j.noPe, j.Present k pe rank (L pe).file) :
    j.Does (j.AllStocked bins ranks) (j.ioDistmatrixNet k .r data rank)
      (j.AllStocked (α := α) bins ranks) := by
  refine Does.of_start fun L hL => (read_present_does h (hr k) hwhole data rank
    (fun pe hpe => (hL pe hpe).records) (hpresent L hL)).conseq (fun L hL => hL) fun L' hL' => ?_
  exact fun pe hpe => (hL pe hpe).of_retains (hL' pe hpe).1

/-- The rank that is written is one more of its kind. -/
theorem AllStocked.write {k : Kind} (hw : ∀ k, j.ioMod .w ∣ j.gangPe k) (data : Var)
    {rank bins' ranks' : Nat} (hnext : ∀ pe (s : Memory α), j.Stocked pe bins ranks s →
      j.Stocked pe bins' ranks' (j.written pe k data rank s)) :
    j.Does (j.AllStocked bins ranks) (j.ioDistmatrixNet k .w data rank)
      (j.AllStocked (α := α) bins' ranks') := by
  refine Does.of_start fun L hL => (write_does h (hw k) data rank).conseq (fun L hL => hL)
    fun L' hL' pe hpe => ?_
  rw [hL' pe hpe]
  exact hnext pe (L pe) (hL pe hpe)

end Calls

/-! ## The functions -/

include h hw hio

theorem buildPass_io {b : Nat} (hb : b < j.noBin) :
    j.Does (j.AllStocked b 0) (j.buildPass R build b) (j.AllStocked (b + 1) 0) := by
  exact ((Does.busyWork .matrix1).seq (AllStocked.compute.seq (AllStocked.write h hw .wbuffer
    fun pe s hs => hs.write_matrix1 _))).of_eq fun pe _ => by rw [buildPass, if_pos hb, if_pos hio]

theorem buildS_io : j.Does (j.AllStocked 0 0) (j.buildS R build) (j.AllStocked j.noBin 0) := by
  refine AllStocked.compute.seq (Does.seq ((Does.rounds (fun b => j.AllStocked (min b j.noBin) 0)
    fun b hb => ?_).conseq (fun L hL => by rwa [Nat.zero_min]) fun L hL => by
      rwa [Nat.min_eq_right (Nat.le_succ _)] at hL) Does.reportTime)
  rcases Nat.lt_or_eq_of_le (Nat.le_of_lt_succ hb) with hlt | rfl
  · rw [Nat.min_eq_left hlt.le, Nat.min_eq_left hlt]
    exact buildPass_io h hw hio hlt
  · rw [Nat.min_self, Nat.min_eq_right (Nat.le_succ _)]
    exact Does.skip.of_eq fun pe _ => if_neg (Nat.lt_irrefl _)

include hr hwhole

omit hw in
theorem readBins_io {b : Nat} (hb : b + j.noGang ≤ bins) :
    j.Does (j.AllStocked bins ranks) (j.readBins R build b) (j.AllStocked bins ranks) := by
  have hread : ∀ data, ∀ g < j.noGang, j.Does (j.AllStocked bins ranks)
      (j.ioDistmatrixNet .matrix1 .r data (b + g)) (j.AllStocked (α := α) bins ranks) :=
    fun data g hg => AllStocked.read h hr hwhole data fun L hL pe hpe =>
      (hL pe hpe).matrix1 _ (by omega)
  by_cases hone : j.noGang = 1
  · exact (hread .rbuffer 0 h.noGang).of_eq fun pe _ => if_pos hone
  · refine (Does.rounds (fun _ => j.AllStocked bins ranks) fun g _ => ?_).of_eq
      fun pe _ => if_neg hone
    refine AllStocked.computeIf.seq (Does.seq (J := j.AllStocked bins ranks) ?_ ?_)
    · by_cases hg : g < j.noGang
      · exact (hread .grbuffer g hg).of_eq fun pe _ => if_pos hg
      · exact Does.skip.of_eq fun pe _ => if_neg hg
    · by_cases hpos : 0 < g
      · exact (Does.busyWork .matrix1).of_eq fun pe _ => by rw [remapBin, if_pos hpos, if_pos hio]
      · exact Does.skip.of_eq fun pe _ => if_neg hpos

omit h hr hw hwhole in
theorem solve_io {I : (Nat → Memory α) → Prop} (b : Nat) : j.Does I (j.solve R build b) I := by
  by_cases hp : build.compute = true ∧ 0 < b ∧ b ≤ j.noBin
  · exact (Does.busyWork .matrix2).of_eq fun pe _ => by rw [solve, if_pos hp, if_pos hio]
  · exact Does.skip.of_eq fun pe _ => if_neg hp

theorem calcWPass_io (i : Nat) :
    j.Does (j.AllStocked j.noBin (min (i - 1) (j.noBin / j.noGang)))
      (j.calcWPass R build (i * j.noGang)) (j.AllStocked j.noBin (min i (j.noBin / j.noGang))) := by
  have hpass := h.pass_iff (i := i)
  refine AllStocked.computeIf.seq (Does.seq
    (J := j.AllStocked j.noBin (min (i - 1) (j.noBin / j.noGang))) ?_
    ((solve_io hio _).seq ?_))
  · by_cases hlt : i * j.noGang < j.noBin
    · refine (readBins_io h hr hwhole hio ?_).of_eq fun pe _ => if_pos hlt
      have hbins := (Nat.le_div_iff_mul_le h.noGang).mp (h.pass_lt_iff.mp hlt)
      rwa [Nat.succ_mul] at hbins
    · exact Does.skip.of_eq fun pe _ => if_neg hlt
  · by_cases hp : 0 < i * j.noGang ∧ i * j.noGang ≤ j.noBin
    · have hi := hpass.mp hp
      have hrank : (i * j.noGang - j.noGang) / j.noGang = i - 1 := by
        rw [← Nat.sub_one_mul, Nat.mul_div_cancel _ h.noGang]
      refine (AllStocked.compute.seq (AllStocked.write h hw .wbuffer fun pe s hs => ?_)).of_eq
        fun pe _ => if_pos hp
      rw [Nat.min_eq_left (by omega)] at hs
      have hwrite := hs.write_matrix2 .wbuffer
      rw [Nat.sub_add_cancel hi.1] at hwrite
      rw [hrank, Nat.min_eq_left hi.2]
      exact hwrite
    · have hsame : min (i - 1) (j.noBin / j.noGang) = min i (j.noBin / j.noGang) := by
        have hi := hpass.not.mp hp
        omega
      rw [hsame]
      exact Does.skip.of_eq fun pe _ => if_neg hp

theorem calcW_io : j.Does (j.AllStocked j.noBin 0) (j.calcW R build)
    (j.AllStocked j.noBin (j.noBin / j.noGang)) := by
  have hrounds : (j.noBin + j.noGang) / j.noGang + 1 = j.noBin / j.noGang + 2 := by
    rw [Nat.add_div_right _ h.noGang]
  refine Does.seq (Does.skip.of_eq fun pe _ => if_pos hio) (Does.seq ?_ Does.reportTime)
  rw [hrounds]
  refine (Does.rounds (fun i => j.AllStocked j.noBin (min (i - 1) (j.noBin / j.noGang)))
    fun i _ => calcWPass_io h hr hw hwhole hio i).conseq (fun L hL => ?_) fun L hL => ?_
  · rwa [Nat.zero_sub, Nat.zero_min]
  · rwa [Nat.min_eq_right (by omega)] at hL

omit hr hw hwhole hio in
/-- The ranks that are read are those of the diagonal. -/
theorem Valid.diagonal_rank {b : Nat} (hb : b < j.pairs)
    (hdiagonal : b % j.noBin = j.noGang * (b / j.noBin)) :
    b % j.noBin % j.noGang = 0 ∧ b % j.noBin / j.noGang = b / j.noBin ∧
      b / j.noBin < j.noBin / j.noGang := by
  refine ⟨?_, ?_, ?_⟩
  · rw [hdiagonal, Nat.mul_mod_right]
  · rw [hdiagonal, Nat.mul_div_cancel_left _ h.noGang]
  · rw [h.pairs_eq, Nat.mul_comm] at hb
    exact (Nat.div_lt_iff_lt_mul h.noBin).mpr hb

/-- All processes have written all ranks, and their derivatives are zero. -/
def AllBlank (R : Library j α) (L : Nat → Memory α) : Prop := ∀ pe < j.noPe, Blank R pe (L pe)

section Derivatives

variable (hrange : j.NoOverflow)

include hrange

omit hw hio in
theorem fetchW_io {b : Nat}
    (hdiagonal : b < j.pairs → b % j.noBin = j.noGang * (b / j.noBin)) :
    j.Does (AllBlank R) (j.fetchW b) (AllBlank R) := by
  by_cases hb : b < j.pairs
  · obtain ⟨hmod, hrank, hlt⟩ := h.diagonal_rank hb (hdiagonal hb)
    refine Does.of_start fun L hL => ((read_present_does h (hr .matrix2) hwhole .rbuffer
      (b % j.noBin / j.noGang) (fun pe hpe => (hL pe hpe).stocked.records) fun pe hpe =>
        hrank ▸ (hL pe hpe).stocked.matrix2 _ hlt).conseq (fun L hL => hL)
        fun L' hL' pe hpe => ?_).of_eq fun pe _ => ?_
    · exact (hL pe hpe).of_retains (hL' pe hpe).1 (by decide)
    · rw [fetchW, if_pos ((hrange.lt_bmax b).mpr hb), getW, if_pos hmod]
  · refine Does.skip.of_eq fun pe _ => ?_
    rw [fetchW, if_neg ((hrange.lt_bmax b).not.mpr hb)]

omit hw in
theorem derivativeLoop_io (n : Nat) : ∀ b xbr xbc, j.Does (AllBlank R)
    (fun pe => j.derivativeLoop R build pe n b xbr xbc) (AllBlank R) := by
  induction n with
  | zero =>
    intro b xbr xbc
    exact Does.skip
  | succ n ih =>
    intro b xbr xbc
    by_cases hskip : (b : Int) < j.bmax ∧ b % j.noBin ≠ j.noGang * (b / j.noBin)
    · refine (ih (b + 1) xbr xbc).of_eq fun pe _ => ?_
      simp only [derivativeLoop, if_pos hio, if_pos hskip]
    · have hdiagonal : b < j.pairs → b % j.noBin = j.noGang * (b / j.noBin) := by
        intro hb
        by_contra hne
        exact hskip ⟨(hrange.lt_bmax b).mpr hb, hne⟩
      refine (Does.seq (J := AllBlank R) (Does.computeIf fun L hL pe hpe => ?_)
        ((fetchW_io h hr hwhole hrange hdiagonal).seq (Does.seq (J := AllBlank R) ?_
        (ih (b + 1) (if 0 < b then b % j.noBin else xbr)
          (if 0 < b then j.noGang * (b / j.noBin) else xbc))))).of_eq fun pe _ => by
        simp only [derivativeLoop, if_pos hio, if_neg hskip]
        rfl
      · simp only [hpe, true_and]
        split_ifs
        · exact (hL pe hpe).of_retains (.of_keeps (Memory.keeps_set _ _ _)) (by decide)
        · exact hL pe hpe
      · by_cases hpos : 0 < b
        · exact (Does.busyWork .matrix1).of_eq fun pe _ => by
            rw [derive, if_pos hpos, if_pos hio]
        · exact Does.skip.of_eq fun pe _ => if_neg hpos

omit hw in
/-- What is printed is the sum of the zeros of the gangs. -/
theorem calcDC_io : j.Does (j.AllStocked j.noBin (j.noBin / j.noGang)) (j.calcDC R build)
    (fun L => j.AllStocked j.noBin (j.noBin / j.noGang) L ∧
      (L 0).buffer .x 0 = R.collect 0 R.zero) := by
  refine Does.seq (J := AllBlank R) (Does.compute fun L hL pe hpe => ?_) (Does.seq
    (derivativeLoop_io h hr hwhole hio hrange (j.bmax + 1).toNat 0 0 0)
    (Does.of_start fun L₁ hL₁ => Does.seq (gatherGangs_does h (v := .dLdC) (by decide) j.noBin L₁)
    (Does.of_start fun L₂ hL₂ => Does.seq ((gatherGangs_does h (v := .d2LdC2) (by decide)
      (j.noBin * j.noBin) L₂).of_eq fun pe _ => by rw [hrange.noBin2_eq])
    (Does.of_start fun L₃ hL₃ => Does.seq (Does.computeIf ?_) Does.reportTime))))
  · simp only [if_pos hpe]
    refine ⟨(hL pe hpe).put _, fun n hn => ?_⟩
    simp [hn]
  · rintro L rfl
    have hsum : (L 0).buffer .dLdC 0 = R.collect 0 R.zero := by
      rw [(hL₃.1 0 h.noPe).buffer .dLdC (by decide), hL₂.2 0 h.noBin]
      refine gangSum_eq h h.noGang fun id hid => ?_
      rw [(hL₁ _ (h.first_of_gang hid).1).dLdC 0 h.noBin, ite_self]
    refine ⟨fun pe hpe => ?_, ?_⟩
    · have hstocked := ((hL₁ pe hpe).stocked.of_retains (.of_keeps (hL₂.1 pe hpe))).of_retains
        (.of_keeps (hL₃.1 pe hpe))
      dsimp only
      split_ifs
      · exact hstocked.put _
      · exact hstocked
    · simp only [h.noPe, and_self, if_true, hio, Memory.put_toArrays, Arrays.set_buffer_self,
        Function.update_self]
      exact hsum

/-- **The functions of `main` in this build.** -/
theorem main_io : j.Does (j.AllStocked 0 0) (j.main R build) (fun L =>
    j.AllStocked j.noBin (j.noBin / j.noGang) L ∧ (L 0).buffer .x 0 = R.collect 0 R.zero) :=
  (Does.barrier .matrix1).seq ((buildS_io h hw hio).seq (.seq (.barrier .matrix1)
    (.seq (Does.skip.of_eq fun _ _ => if_pos hio) (.seq (calcW_io h hr hw hwhole hio)
    (.seq (.barrier .matrix1) (.seq (calcDC_io h hr hwhole hio hrange) (.barrier .matrix1)))))))

end Derivatives

end Passes

/-- Nothing has been written before the program. -/
theorem AllStocked.start (h : j.Valid) {L : Nat → Memory α}
    (hL : ∀ pe < j.noPe, (L pe).globals = j.globals) : j.AllStocked 0 0 L :=
  fun pe hpe => ⟨⟨_, _, .start, (hL pe hpe).trans h.globals_eq⟩,
    fun b hb => absurd hb (Nat.not_lt_zero b), fun c hc => absurd hc (Nat.not_lt_zero c)⟩

end Job

end CacheTrace.Madbench
