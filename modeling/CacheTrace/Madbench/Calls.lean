import CacheTrace.Lists.Blocks
import CacheTrace.Madbench.Main
import CacheTrace.Message.Files

/-!
# The accesses of a process

The calls of `io_distmatrix` that a process makes stand in the text of its program. They do not
depend on what is in the matrices, on the messages, or on the process. `mainCalls` lists them
(`callsOf_main`).

The build with `-D IO` makes the same accesses as the other one, up to the last function: it reads
every rank of `matrix2` once, where the other one reads the ranks on and below the diagonal for
every block of columns (`mainCalls_sublist`, `length_mainCalls`).
-/

namespace CacheTrace.Madbench

open Cyclic Buffer Message

variable {α : Type}

namespace Job

/-! ## The functions -/

section Functions

variable (j : Job) (R : Library j α) (build : Build) (pe : Nat)

@[simp]
theorem callsOf_barrier (k : Kind) : callsOf (j.barrier k pe : List (Act α)) = [] := rfl

@[simp]
theorem callsOf_busyWork (k : Kind) : callsOf (j.busyWork k pe : List (Act α)) = [] := rfl

@[simp]
theorem callsOf_reportTime : callsOf (j.reportTime pe : List (Act α)) = [] := rfl

@[simp]
theorem callsOf_ioDistmatrixNet (k : Kind) (rw : Rw) (data : Var) (rank : Nat) :
    callsOf (j.ioDistmatrixNet k rw data rank pe : List (Act α)) = [⟨k, rw, data, rank⟩] := by
  simp [ioDistmatrixNet, receiveTurn, sendTurn]

@[simp]
theorem callsOf_routine (k : Kind) (p : Nat → Prop) [DecidablePred p]
    (f : Nat → (Var → Nat → Nat → α) → Arrays α → Arrays α) :
    callsOf (j.routine k R p f pe) = [] := by
  simp [routine]

@[simp]
theorem callsOf_mpiReduce (p : Nat → Prop) [DecidablePred p] (c : Nat → Comm) (root : Nat → Prop)
    [DecidablePred root] (source target : Var) (count : Nat) :
    callsOf (j.mpiReduce R p c root source target count pe) = [] := by
  simp [mpiReduce]

theorem callsOf_exchangeParts (data1 data2 : Var) (tg : Nat) :
    callsOf (j.exchangeParts data1 data2 tg pe : List (Act α)) = [] := by
  simp [exchangeParts, gather_eq, sendData, receiveData]

@[simp]
theorem callsOf_remap (data1 data2 : Var) (tg : Nat) (mode : RemapMode) :
    callsOf (j.remap data1 data2 tg R mode pe) = [] := by
  cases mode with
  | scalapack => simp [remap]
  | custom => simp [remap, callsOf_exchangeParts]

@[simp]
theorem callsOf_dbydC (br bc : Nat → Nat) : callsOf (j.dbydC R br bc pe) = [] := by
  simp [dbydC, dbydCFirst, dbydCSecond, storeFirst, localDot, storeSecond]

@[simp]
theorem callsOf_invertD : callsOf (j.invertD R pe) = [] := by
  simp [invertD]

@[simp]
theorem callsOf_mpiBcast (v : Var) (count : Nat → Nat) :
    callsOf (j.mpiBcast v count pe : List (Act α)) = [] := rfl

@[simp]
theorem callsOf_solveData : callsOf (j.solveData R build pe) = [] := by
  simp [solveData]

theorem callsOf_getW (br : Nat) (data : Var) : callsOf (j.getW br data pe : List (Act α)) =
    if br % j.noGang = 0 then [⟨.matrix2, .r, data, br / j.noGang⟩] else [] := by
  rw [getW]
  split_ifs
  · exact j.callsOf_ioDistmatrixNet pe _ _ _ _
  · rfl
  · rfl

@[simp]
theorem callsOf_clearDC : callsOf (j.clearDC R pe) = [] := rfl

@[simp]
theorem callsOf_gatherGangs (v : Var) (count : Int) :
    callsOf (j.gatherGangs R v count pe) = [] := by
  simp [gatherGangs]

@[simp]
theorem callsOf_solveDC : callsOf (j.solveDC R build pe) = [] := by
  simp only [solveDC, callsOf_ite, callsOf_compute, callsOf_nil, ite_self]

end Functions

/-! ## The calls of the program -/

section Lists

variable (j : Job) (build : Build)

/-- The calls of `build_S`. -/
def buildCalls : List Access := (List.range j.noBin).map fun b => ⟨.matrix1, .w, .wbuffer, b⟩

/-- The array that `calc_W` reads a bin into. -/
def binVar : Var := if j.noGang = 1 then .rbuffer else .grbuffer

/-- The calls of a pass of `calc_W`: the bins of the pass are read, and what comes of those of the
pass before is written. -/
def passCalls (i : Nat) : List Access :=
  (if i < j.noBin / j.noGang then
    (List.range j.noGang).map fun g => ⟨.matrix1, .r, j.binVar, i * j.noGang + g⟩ else []) ++
  (if 0 < i then [⟨.matrix2, .w, .wbuffer, i - 1⟩] else [])

/-- The calls of `calc_W`. -/
def solveCalls : List Access := (List.range (j.noBin / j.noGang + 1)).flatMap j.passCalls

/-- The calls of `calc_dC`: for every block of columns the ranks of the diagonal, or those on and
below it. -/
def derivativeCalls : List Access :=
  (List.range (j.noBin / j.noGang)).flatMap fun c => (List.range (j.noBin / j.noGang)).flatMap
    fun m => if (if build.io then m = c else c ≤ m) then [⟨.matrix2, .r, .rbuffer, m⟩] else []

/-- The calls of the program. -/
def mainCalls : List Access := j.buildCalls ++ (j.solveCalls ++ j.derivativeCalls build)

end Lists

/-- A loop whose last pass makes no call. -/
theorem flatMap_range_lt {ε : Type} (f : Nat → ε) (n : Nat) :
    ((List.range (n + 1)).flatMap fun i => if i < n then [f i] else []) = (List.range n).map f := by
  rw [List.range_succ, List.flatMap_append, List.flatMap_singleton, if_neg (Nat.lt_irrefl n),
    List.append_nil, List.map_eq_flatMap]
  exact List.flatMap_congr fun i hi => if_pos (List.mem_range.mp hi)

variable {j : Job} {R : Library j α} {build : Build} {pe : Nat}

theorem callsOf_buildS : callsOf (j.buildS R build pe) = j.buildCalls := by
  have hpass : ∀ b, callsOf (j.buildPass R build b pe) =
      if b < j.noBin then [⟨.matrix1, .w, .wbuffer, b⟩] else [] := by
    intro b
    simp [buildPass]
  rw [buildCalls, ← flatMap_range_lt]
  simp [buildS, hpass]

theorem callsOf_readBins (b : Nat) : callsOf (j.readBins R build b pe) =
    (List.range j.noGang).map fun g => ⟨.matrix1, .r, j.binVar, b + g⟩ := by
  have hpass : ∀ g, callsOf (j.remapPass R build b g pe) =
      if g < j.noGang then [⟨.matrix1, .r, .grbuffer, b + g⟩] else [] := by
    intro g
    simp [remapPass, copyRead, readBin, remapBin]
  rw [readBins, binVar]
  split_ifs with hone
  · rw [hone]
    exact j.callsOf_ioDistmatrixNet pe _ _ _ _
  · rw [← flatMap_range_lt]
    simp [hpass]

section Passes

variable (h : j.Valid)

include h

theorem callsOf_calcWPass (i : Nat) : callsOf (j.calcWPass R build (i * j.noGang) pe) =
    if i < j.noBin / j.noGang + 1 then j.passCalls i else [] := by
  have hrank : (i * j.noGang - j.noGang) / j.noGang = i - 1 := by
    rw [← Nat.sub_one_mul, Nat.mul_div_cancel _ h.noGang]
  have hcopy : callsOf (j.copyBin (i * j.noGang) pe : List (Act α)) = [] := by simp [copyBin]
  have hsolve : callsOf (j.solve R build (i * j.noGang) pe) = [] := by simp [solve]
  have hwrite : callsOf (j.writeW (i * j.noGang) pe : List (Act α)) =
      if 0 < i ∧ i ≤ j.noBin / j.noGang then [⟨.matrix2, .w, .wbuffer, i - 1⟩] else [] := by
    simp only [writeW, h.pass_iff, hrank]
    simp
  rw [calcWPass, callsOf_append, callsOf_append, callsOf_append, hcopy, hsolve, hwrite,
    callsOf_ite, callsOf_readBins, callsOf_nil, List.nil_append, List.nil_append]
  simp only [passCalls, h.pass_lt_iff, Nat.lt_succ_iff]
  split_ifs <;> first | rfl | omega

theorem callsOf_calcW : callsOf (j.calcW R build pe) = j.solveCalls := by
  have hcalls : j.solveCalls = (List.range ((j.noBin + j.noGang) / j.noGang + 1)).flatMap fun i =>
      if i < j.noBin / j.noGang + 1 then j.passCalls i else [] := by
    rw [solveCalls, Nat.add_div_right _ h.noGang, List.range_succ (n := _ + 1),
      List.flatMap_append, List.flatMap_singleton, if_neg (Nat.lt_irrefl _), List.append_nil]
    exact List.flatMap_congr fun i hi => (if_pos (List.mem_range.mp hi)).symm
  rw [hcalls]
  simp [calcW, callsOf_calcWPass h]

end Passes

/-! ## The passes of `calc_dC` -/

/-- The call of a pass of `calc_dC`. -/
def getCalls (j : Job) (build : Build) (b : Nat) : List Access :=
  if (b : Int) < j.bmax ∧ ¬ (if build.io then b % j.noBin ≠ j.noGang * (b / j.noBin)
      else b % j.noBin < j.noGang * (b / j.noBin)) then
    if b % j.noBin % j.noGang = 0 then [⟨.matrix2, .r, .rbuffer, b % j.noBin / j.noGang⟩] else []
  else []

theorem callsOf_derivativeLoop (n : Nat) : ∀ b xbr xbc,
    callsOf (j.derivativeLoop R build pe n b xbr xbc) =
      (List.range' b n).flatMap (j.getCalls build) := by
  induction n with
  | zero =>
    intro b xbr xbc
    rfl
  | succ n ih =>
    intro b xbr xbc
    rw [List.range'_succ, List.flatMap_cons, derivativeLoop]
    by_cases hskip : (b : Int) < j.bmax ∧ (if build.io then b % j.noBin ≠ j.noGang * (b / j.noBin)
        else b % j.noBin < j.noGang * (b / j.noBin))
    · rw [if_pos hskip, getCalls, if_neg fun hnot => hnot.2 hskip.2, List.nil_append]
      exact ih _ _ _
    · have hcalls : j.getCalls build b = callsOf (j.fetchW b pe : List (Act α)) := by
        rw [fetchW, callsOf_ite, callsOf_getW, getCalls]
        by_cases hb : (b : Int) < j.bmax
        · rw [if_pos ⟨hb, fun hp => hskip ⟨hb, hp⟩⟩, if_pos hb]
        · rw [if_neg fun hnot => hb hnot.1, if_neg hb]
          rfl
      have htake : callsOf (j.takeW b pe : List (Act α)) = [] := by
        rw [takeW, callsOf_ite]
        exact ite_self _
      have hderive : callsOf (j.derive R build b xbr xbc pe) = [] := by simp [derive]
      rw [if_neg hskip, callsOf_append, callsOf_append, callsOf_append, htake, hderive, ← hcalls,
        ih, List.nil_append, List.nil_append]

section Valid

variable (h : j.Valid) (hrange : j.NoOverflow)

include h hrange

/-- The first pass for a rank reads it, in the others it comes from the neighbours. -/
theorem Valid.getCalls_eq {c m g : Nat} (hc : c < j.noBin / j.noGang) (hm : m < j.noBin / j.noGang)
    (hg : g < j.noGang) : j.getCalls build (c * j.noBin + (m * j.noGang + g)) =
      if g = 0 ∧ (if build.io then m = c else c ≤ m) then [⟨.matrix2, .r, .rbuffer, m⟩]
      else [] := by
  have hrow : m * j.noGang + g < j.noBin := by
    conv_rhs => rw [← Nat.div_mul_cancel h.gang_dvd_bin]
    exact (mul_add_lt_mul_iff hg).mpr hm
  have hb : c * j.noBin + (m * j.noGang + g) < j.pairs := by
    rw [h.pairs_eq, Nat.mul_comm j.noBin]
    exact (mul_add_lt_mul_iff hrow).mpr hc
  rw [getCalls, if_congr (and_iff_right ((hrange.lt_bmax _).mpr hb)) rfl rfl, mul_add_mod hrow,
    mul_add_div h.noBin hrow, mul_add_mod hg, mul_add_div h.noGang hg]
  by_cases hg0 : g = 0
  · subst hg0
    have heq : m * j.noGang = j.noGang * c ↔ m = c := by
      rw [Nat.mul_comm, Nat.mul_left_cancel_iff h.noGang]
    have hlt : m * j.noGang < j.noGang * c ↔ m < c := by
      rw [Nat.mul_comm, Nat.mul_lt_mul_left h.noGang]
    cases build.io <;> simp [heq, hlt]
  · simp [hg0]

/-- The calls of the passes. -/
theorem flatMap_getCalls :
    (List.range (j.pairs + 1)).flatMap (j.getCalls build) = j.derivativeCalls build := by
  have hlast : j.getCalls build j.pairs = [] :=
    if_neg fun hb => Nat.lt_irrefl _ ((hrange.lt_bmax _).mp hb.1)
  rw [List.range_succ, List.flatMap_append, List.flatMap_singleton, hlast, List.append_nil,
    h.pairs_eq, Nat.mul_comm, Lists.flatMap_range_mul, derivativeCalls]
  refine List.flatMap_congr fun c hc => ?_
  conv_lhs => rw [← Nat.div_mul_cancel h.gang_dvd_bin, Lists.flatMap_range_mul]
  refine List.flatMap_congr fun m hm => ?_
  obtain ⟨k, hk⟩ := Nat.exists_eq_add_of_lt h.noGang
  rw [Nat.zero_add] at hk
  have hcalls : ∀ g ∈ List.range j.noGang, j.getCalls build (c * j.noBin + (m * j.noGang + g)) =
      if g = 0 ∧ (if build.io then m = c else c ≤ m) then [⟨.matrix2, .r, .rbuffer, m⟩] else [] :=
    fun g hg => h.getCalls_eq hrange (List.mem_range.mp hc) (List.mem_range.mp hm)
      (List.mem_range.mp hg)
  rw [Nat.div_mul_cancel h.gang_dvd_bin, List.flatMap_congr hcalls, hk, List.range_succ_eq_map]
  simp [List.flatMap_map]

theorem callsOf_calcDC : callsOf (j.calcDC R build pe) = j.derivativeCalls build := by
  have hloop : callsOf (j.derivativeLoop R build pe (j.bmax + 1).toNat 0 0 0) =
      j.derivativeCalls build := by
    rw [callsOf_derivativeLoop, ← flatMap_getCalls h hrange, List.range_eq_range', hrange.bmax_eq]
    rfl
  rw [calcDC, callsOf_append, callsOf_append, callsOf_append, callsOf_append, callsOf_append, hloop,
    callsOf_clearDC, callsOf_gatherGangs, callsOf_gatherGangs, callsOf_solveDC, callsOf_reportTime]
  exact List.append_nil _

/-- **The calls in the text of the program.** -/
theorem callsOf_main : callsOf (j.main R build pe) = j.mainCalls build := by
  simp [main, mainCalls, callsOf_buildS, callsOf_calcW h, callsOf_calcDC h hrange]

end Valid

/-! ## The two builds -/

section Builds

variable (j) {build' : Build} (hio : build.io = true) (hio' : build'.io = false)

include hio hio'

theorem derivativeCalls_sublist :
    (j.derivativeCalls build).Sublist (j.derivativeCalls build') := by
  refine List.Sublist.flatMap_right _ fun c _ => List.Sublist.flatMap_right _ fun m _ => ?_
  simp only [hio, hio', if_true, Bool.false_eq_true, if_false]
  by_cases hm : m = c
  · rw [if_pos hm, if_pos hm.ge]
  · rw [if_neg hm]
    exact List.nil_sublist _

/-- The build with `-D IO` makes some of the accesses of the other one, in the same order. -/
theorem mainCalls_sublist : (j.mainCalls build).Sublist (j.mainCalls build') :=
  (List.Sublist.refl _).append ((List.Sublist.refl _).append (j.derivativeCalls_sublist hio hio'))

omit hio hio' in
theorem mem_derivativeCalls {x : Access} (hx : x ∈ j.derivativeCalls build) :
    ∃ m < j.noBin / j.noGang, x = ⟨.matrix2, .r, .rbuffer, m⟩ := by
  simp only [derivativeCalls, List.mem_flatMap, List.mem_range] at hx
  obtain ⟨c, -, m, hm, hx⟩ := hx
  by_cases hcond : if build.io then m = c else c ≤ m
  · rw [if_pos hcond] at hx
    exact ⟨m, hm, List.mem_singleton.mp hx⟩
  · rw [if_neg hcond] at hx
    cases hx

omit hio hio' in
theorem derivativeCalls_filter : (j.derivativeCalls build).filter
    (fun x => ¬ (x.kind = .matrix2 ∧ x.rw = .r)) = [] := by
  refine List.filter_eq_nil_iff.mpr fun x hx => ?_
  obtain ⟨m, -, rfl⟩ := j.mem_derivativeCalls hx
  simp

omit hio hio' in
/-- Apart from the reading of `matrix2`, the accesses of the builds are the same. -/
theorem mainCalls_filter (build build' : Build) :
    (j.mainCalls build).filter (fun x => ¬ (x.kind = .matrix2 ∧ x.rw = .r)) =
      (j.mainCalls build').filter (fun x => ¬ (x.kind = .matrix2 ∧ x.rw = .r)) := by
  simp only [mainCalls, List.filter_append, j.derivativeCalls_filter]

end Builds

/-- A block of columns reads the rank `c` alone, or the ranks from `c` on. -/
theorem length_blockCalls (io : Bool) (c n : Nat) :
    ((List.range n).flatMap fun m => if (if io then m = c else c ≤ m) then
      [(⟨.matrix2, .r, .rbuffer, m⟩ : Access)] else []).length =
      if io then if c < n then 1 else 0 else n - c := by
  induction n with
  | zero => simp
  | succ n ih =>
    rw [List.range_succ, List.flatMap_append, List.length_append, ih, List.flatMap_singleton]
    cases io with
    | false =>
      by_cases hc : c ≤ n
      · simp [hc, Nat.succ_sub hc]
      · simp only [Bool.false_eq_true, if_false, if_neg hc, List.length_nil]
        omega
    | true =>
      rcases Nat.lt_trichotomy n c with hlt | rfl | hgt
      · simp [hlt.ne, hlt.not_gt, Nat.not_lt.mpr (Nat.succ_le_of_lt hlt)]
      · simp
      · simp [hgt, hgt.ne', Nat.lt_succ_of_lt hgt]

theorem length_derivativeCalls (j : Job) (build : Build) : (j.derivativeCalls build).length =
    ∑ c ∈ Finset.range (j.noBin / j.noGang), if build.io then 1 else j.noBin / j.noGang - c := by
  rw [derivativeCalls, List.length_flatMap]
  change ∑ c ∈ Finset.range (j.noBin / j.noGang), List.length _ = _
  refine Finset.sum_congr rfl fun c hc => ?_
  rw [length_blockCalls, if_pos (Finset.mem_range.mp hc)]

theorem two_mul_sum_sub (n : Nat) :
    2 * ∑ c ∈ Finset.range n, (n - c) = 2 * n + n * (n - 1) := by
  have hsum : ∑ c ∈ Finset.range n, (n - c) + ∑ c ∈ Finset.range n, c = n * n := by
    rw [← Finset.sum_add_distrib, Finset.sum_congr rfl fun c hc =>
      Nat.sub_add_cancel (Finset.mem_range.mp hc).le, Finset.sum_const, Finset.card_range,
      smul_eq_mul]
  have hgauss := Finset.sum_range_id_mul_two n
  cases n with
  | zero => rfl
  | succ n =>
    rw [Nat.add_sub_cancel] at hgauss ⊢
    linarith

/-- How many more accesses the build without `-D IO` makes. -/
theorem length_mainCalls (j : Job) {build build' : Build} (hio : build.io = true)
    (hio' : build'.io = false) : 2 * (j.mainCalls build').length =
      2 * (j.mainCalls build).length + j.noBin / j.noGang * (j.noBin / j.noGang - 1) := by
  have hsum := two_mul_sum_sub (j.noBin / j.noGang)
  simp only [mainCalls, List.length_append, j.length_derivativeCalls, hio, hio', if_true,
    Bool.false_eq_true, if_false, Finset.sum_const, Finset.card_range, smul_eq_mul, Nat.mul_one]
  omega

/-! ## The ranks -/

theorem ranked_solveCalls (h : j.Valid) {x : Access} (hx : x ∈ j.solveCalls) : j.Ranked x := by
  simp only [solveCalls, passCalls, List.mem_flatMap, List.mem_range, List.mem_append] at hx
  obtain ⟨i, hi, hx | hx⟩ := hx
  · split_ifs at hx with hlt
    · obtain ⟨g, hg, rfl⟩ := List.mem_map.mp hx
      have hbins := (Nat.le_div_iff_mul_le h.noGang).mp hlt
      rw [Nat.succ_mul] at hbins
      have hg := List.mem_range.mp hg
      change i * j.noGang + g < j.noBin
      omega
    · cases hx
  · split_ifs at hx with hpos
    · rw [List.mem_singleton.mp hx]
      change i - 1 < j.noBin / j.noGang
      omega
    · cases hx

theorem ranked_derivativeCalls {x : Access} (hx : x ∈ j.derivativeCalls build) : j.Ranked x := by
  obtain ⟨m, hm, rfl⟩ := j.mem_derivativeCalls hx
  exact hm

/-- The program accesses only the matrices of the job. -/
theorem ranked_mainCalls (h : j.Valid) {x : Access} (hx : x ∈ j.mainCalls build) : j.Ranked x := by
  rw [mainCalls, List.mem_append, List.mem_append] at hx
  rcases hx with hx | hx | hx
  · obtain ⟨b, hb, rfl⟩ := List.mem_map.mp hx
    exact List.mem_range.mp hb
  · exact ranked_solveCalls h hx
  · exact ranked_derivativeCalls hx

end Job

end CacheTrace.Madbench
