import CacheTrace.Madbench.Calls
import CacheTrace.Madbench.IoBuild
import CacheTrace.Madbench.Machine

/-!
# The runs of the program

The results about the functions of the program, for the machine: all operations of all processes on
their files are interleaved, in whatever order, and a failed test aborts.

When the numbers of the job are in range, a run of the machine goes along with one of the network
(`machine_refines`). The processes of a group use the file one at a time (`turns`). A process makes
the calls of a fixed list, which the build decides (`main_calls`, `io_calls`). When the records fit
the shares as well, the functions end with what they are for in the files and the arrays
(`calcW_completes`, `calcDC_completes`, `main_completes`, `io_completes`).
-/

namespace CacheTrace.Madbench

open Message Transition
open Stdio (File Double)

variable {j : Job}

/-! ## What the files show -/

namespace Job

section Shows

variable {s s' : Memory Double} (hshows : j.Shows s s')

include hshows

theorem Shows.buffer_eq (v : Var) : s'.buffer v = s.buffer v := by
  rw [hshows.toArrays]

theorem Shows.hasRecords {pe : Nat} (hs : j.HasRecords pe s) : j.HasRecords pe s' :=
  hs.of_eq hshows.globals

variable (h : j.Valid) {k : Kind} {pe rank : Nat} (hrank : rank < j.ranks k)

include h hrank

theorem Shows.stored {M : Nat → Nat → Double} (hs : j.Stored k pe rank M s.file) :
    j.Stored k pe rank M s'.file := by
  intro n hn
  have hend := h.slot_end_le (c := ⟨k, .r, .rbuffer, rank⟩) hrank pe
  exact hshows.file _ (by simp only at hend; omega) _ (hs n hn)

theorem Shows.present (hs : j.Present k pe rank s.file) : j.Present k pe rank s'.file := by
  intro n hn
  have hend := h.slot_end_le (c := ⟨k, .r, .rbuffer, rank⟩) hrank pe
  obtain ⟨x, hx⟩ := Option.isSome_iff_exists.mp (hs n hn)
  rw [hshows.file _ (by simp only at hend; omega) x hx]
  rfl

end Shows

section Results

variable {R : Library j Double} {L L' : Nat → Memory Double} {s₀ s s' : Memory Double} {pe : Nat}

theorem Solved.of_shows (h : j.Valid) {E : j.Square Double} {dS : Nat → j.Square Double}
    (hs : Solved R E dS pe s₀ s) (hshows : j.Shows s s') : Solved R E dS pe s₀ s' where
  buffer v hv := (hshows.buffer_eq v).trans (hs.buffer v hv)
  records := hshows.hasRecords hs.records
  d := hshows.buffer_eq .d ▸ hs.d
  z := hshows.buffer_eq .z ▸ hs.z
  file c hc := hshows.stored h hc (hs.file c hc)

theorem Corrected.of_shows {dv zv : j.Vec Double} {W : Nat → j.Square Double}
    (hs : Corrected R dv zv W s) (hshows : j.Shows s s') : Corrected R dv zv W s' where
  d2LdC2 := hshows.buffer_eq .d2LdC2 ▸ hs.d2LdC2
  dC := hshows.buffer_eq .dLdC ▸ hs.dC
  x := hshows.buffer_eq .x ▸ hs.x

theorem Finished.of_shows (h : j.Valid) (hs : Finished R L)
    (hshows : ∀ pe, j.Shows (L pe) (L' pe)) : Finished R L' where
  corrected := hs.corrected.of_shows (hshows 0)
  file pe hpe c hc := (hshows pe).stored h hc (hs.file pe hpe c hc)

theorem AllStocked.of_shows (h : j.Valid) (hs : j.AllStocked j.noBin (j.noBin / j.noGang) L)
    (hshows : ∀ pe, j.Shows (L pe) (L' pe)) : j.AllStocked j.noBin (j.noBin / j.noGang) L' :=
  fun pe hpe => ⟨(hshows pe).hasRecords (hs pe hpe).records,
    fun b hb => (hshows pe).present h hb ((hs pe hpe).matrix1 b hb),
    fun c hc => (hshows pe).present h hc ((hs pe hpe).matrix2 c hc)⟩

end Results

/-- A program that makes its calls to the matrices of the job, on the machine. -/
theorem Does.completes {I J : (Nat → Memory Double) → Prop} {prog : Nat → List (Act Double)}
    (hdoes : j.Does I prog J) (h : j.Valid) (hrange : j.NoOverflow)
    (hranked : ∀ pe < j.noPe, ∀ c ∈ callsOf (prog pe), j.Ranked c) {procs : Nat → Resting}
    {disk : Nat → File} (hI : I (j.memory (j.machine prog procs disk)))
    (hrecords : ∀ pe < j.noPe, j.HasRecords pe (j.memory (j.machine prog procs disk) pe))
    {F : Processes → Prop} (hF : ∀ M L, J L → (∀ pe, j.Shows (L pe) (j.memory M pe)) → F M) :
    (j.machine prog procs disk).Completes j.service fun M => M.net.Done ∧ F M := by
  refine ((hdoes.ends hI).completes h hrange hrecords hranked).mono ?_
  rintro M ⟨hdone, L, hL, hshows⟩
  exact ⟨hdone, hF M L hL hshows⟩

/-- The double 0.0. -/
def zeroBytes : Double := fun _ => 0

/-- Processes after `initialize`, whose arrays are zero. -/
def fresh (j : Job) : Nat → Resting :=
  fun _ => ⟨⟨fun _ _ => zeroBytes, ⟨0, 0, 0⟩⟩, j.globals, 0⟩

end Job

/-! ## The network and the machine -/

/-- **The refinement.** As long as no process can abort in the network, where a call is one step on
elements, none aborts on the machine, and a run of the machine goes along with a run of the
network: an operation on a file is no step there, and the return from a call is the call. The
processes have the same arrays and globals, and between its calls the file of a process has the
elements of the network. -/
theorem machine_refines (hpos : j.Positive) (hacc : j.Accepted .c) (hrange : j.NoOverflow)
    {prog : Nat → List (Act Double)} {procs : Nat → Job.Resting} {disk : Nat → File}
    (hrecords : ∀ pe < j.noPe, j.HasRecords pe (j.memory (j.machine prog procs disk) pe))
    (hranked : ∀ pe < j.noPe, ∀ c ∈ callsOf (prog pe), j.Ranked c)
    (hsound : ∀ is s pe, run (Net.step j.platform)
      (j.start prog (j.memory (j.machine prog procs disk))) is = some s → ¬ s.Aborts j.platform pe)
    {es : List (Event Nat)} {M : Processes}
    (hrun : run (Machine.step j.service) (j.machine prog procs disk) es = some M) :
    (∀ pe, ¬ M.Aborts j.service pe) ∧
      ∃ s, run (Net.step j.platform) (j.start prog (j.memory (j.machine prog procs disk)))
          (es.filterMap Event.acts) = some s ∧
        ∀ pe, (M.net.proc pe).prog = (s.proc pe).prog ∧
          (M.host pe).own = (s.proc pe).state.toArrays ∧
          (M.host pe).kept = (s.proc pe).state.globals ∧
          ((M.host pe).running = none → j.Shows (s.proc pe).state (j.memory M pe)) := by
  have hstart := Job.backs_start (hacc.valid hpos) hrange hrecords hranked
  obtain ⟨s, hs, hbacks⟩ := hstart.run hsound hrun
  refine ⟨fun pe => hbacks.not_aborts (hsound _ s pe hs), s, hs, fun pe => ?_⟩
  exact ⟨hbacks.prog_eq pe, hbacks.own_eq pe, hbacks.kept pe, Job.shows_of_backs hbacks⟩

/-- The first matrix is written, by processes that are gangs of their own. -/
theorem machine_refines_nine :
    let j := nineJob 4 4 8
    let prog : Nat → List (Act Double) := j.ioDistmatrixNet .matrix1 .w .wbuffer 0
    ∃ es M s, run (Machine.step j.service) (j.machine prog j.fresh fun _ => File.empty) es =
        some M ∧
      M.net.Done ∧
      run (Net.step j.platform) (j.start prog (j.memory (j.machine prog j.fresh fun _ =>
        File.empty))) (es.filterMap Event.acts) = some s ∧
      ∀ pe, (M.host pe).own = (s.proc pe).state.toArrays := by
  intro j prog
  have hacc : j.Accepted .c := by decide +kernel
  have hrange : j.NoOverflow := by decide +kernel
  have h : j.Valid := hacc.valid (by decide)
  have hrecords : ∀ pe < j.noPe,
      j.HasRecords pe (j.memory (j.machine prog j.fresh fun _ => File.empty) pe) :=
    fun pe _ => ⟨_, _, .start, h.globals_eq⟩
  have hranked : ∀ pe < j.noPe, ∀ c ∈ callsOf (prog pe), j.Ranked c := by
    intro pe _ c hc
    rw [Job.callsOf_ioDistmatrixNet, List.mem_singleton] at hc
    rw [hc]
    exact (by decide : 0 < 4)
  have hends := (Job.write_does h (hacc.ioMod_dvd (by decide) .matrix1 .w) .wbuffer 0).ends
    (L := j.memory (j.machine prog j.fresh fun _ => File.empty)) rfl
  obtain ⟨es, M, hrun, hdone, -⟩ := (hends.completes h hrange hrecords hranked).leads [] _ rfl
  obtain ⟨t, hout, -⟩ := hends
  obtain ⟨-, s, hs, hback⟩ := machine_refines (by decide) hacc hrange hrecords hranked hout.sound
    hrun
  exact ⟨es, M, s, hrun, hdone, hs, fun pe => (hback pe).2.1⟩

/-! ## Turns -/

namespace Job

/-- A call fits together by itself. -/
theorem even_ioDistmatrixNet {α : Type} [Inhabited α] {k : Kind} {rw : Rw} (h : j.Valid)
    (hdvd : j.ioMod rw ∣ j.gangPe k) (data : Var) (rank : Nat) :
    j.Even (j.ioDistmatrixNet k rw data rank : Nat → List (Act α)) := by
  -- processes that find all elements in their files
  let L : Nat → Memory α := fun pe =>
    ⟨⟨fun _ _ => default, ⟨0, 0, 0⟩⟩, records (j.share k pe + 1) 0, fun _ => some default⟩
  have haccess : ∀ pe, ∃ s, j.access pe ⟨k, rw, data, rank⟩ (L pe) = some s := by
    intro pe
    cases rw with
    | r =>
      refine ⟨_, access_r_eq_some.mpr ⟨⟨(filled_eq_self _ _).mpr (.inl ?_), fun _ _ => rfl⟩, rfl⟩⟩
      rw [doubles_records]
      omega
    | w => exact ⟨_, access_w pe k data rank _⟩
  choose S hS using haccess
  refine (ioDistmatrixNet_does h hdvd (I := fun L' => L' = L) (J := fun _ => True)
    fun L' hL' => ⟨S, fun pe _ => ?_, trivial⟩).even rfl fun g pe => paired_ioDistmatrixNet g pe
  rw [hL']
  exact hS pe

end Job

section Turns

variable {k : Kind} {rw : Rw} {data : Var} {rank : Nat} {pre post : Nat → List (Act Double)}
  {procs : Nat → Job.Resting} {disk : Nat → File} {es : List (Event Nat)} {M : Processes}
  {u x : Nat}

/-- **Taking turns.** The programs before and after the call may be any that fit together. While a
process is at its access, or inside it, the others of its gang have entered the first barrier of the
call and have not left the last one. Those before it in its group have handed on the token, those
after it have not received it, and none of them is in a call. -/
theorem turns (hpos : j.Positive) (hacc : j.Accepted .c) (hpre : j.Even pre) (hpost : j.Even post)
    (hrun : run (Machine.step j.service) (j.machine (fun pe => pre pe ++
      (j.ioDistmatrixNet k rw data rank pe ++ post pe)) procs disk) es = some M)
    (hu : u < j.noPe) (hat : (M.net.proc u).prog =
      [.call ⟨k, rw, data, rank⟩] ++ (j.sendTurn k rw u ++ (j.barrier k u ++ post u)))
    (hx : x < j.noPe) (hcomm : j.comm k x = j.comm k u) :
    ((M.net.proc x).prog <:+ (j.ioDistmatrixNet k rw data rank x).tail ++ post x ∧
      (j.barrier k x).tail ++ post x <:+ (M.net.proc x).prog) ∧
    (j.gangMyPe x k / j.ioMod rw = j.gangMyPe u k / j.ioMod rw →
      (x < u → (M.net.proc x).prog <:+ j.barrier k x ++ post x) ∧
      (u < x → j.receiveTurn k rw x ++ ([.call ⟨k, rw, data, rank⟩] ++ (j.sendTurn k rw x ++
        (j.barrier k x ++ post x))) <:+ (M.net.proc x).prog) ∧
      (x ≠ u → (M.host x).running = none)) := by
  have h := hacc.valid hpos
  have hdvd := hacc.ioMod_dvd hpos k rw
  have hordered : M.net.Ordered j.members := by
    refine Machine.ordered_run (P := j.service) ?_ hrun
    exact (hpre.append ((Job.even_ioDistmatrixNet h hdvd data rank).append hpost)).ordered
      (W := j.service.platform) ⟨fun _ => rfl, fun _ _ _ _ _ => rfl⟩ fun _ => rfl
  have hsuffix : ∀ x < j.noPe, (M.net.proc x).prog <:+
      pre x ++ (j.ioDistmatrixNet k rw data rank x ++ post x) := by
    intro x hx
    have hrest := Machine.run_suffix hrun x
    rwa [show ((j.machine _ procs disk).net.proc x).prog = _ from Job.all_eq hx] at hrest
  refine ⟨Job.inside_call hpost hordered hsuffix hu hat hx hcomm, fun hgroup => ⟨fun hxu => ?_,
    fun hux => ?_, fun hne => ?_⟩⟩
  · exact Job.before_access h hdvd hpost hordered hsuffix hu hat hcomm hgroup hxu
  · exact Job.after_access h hdvd hpost hordered hsuffix hat hx hcomm hgroup hux
  · by_contra hrunning
    obtain ⟨a, rest, hcall⟩ := Machine.inCall_run (P := j.service)
      (fun _ hsome => absurd rfl hsome) hrun x hrunning
    exact Job.not_at_call h hdvd hpost hordered hsuffix hu hat hx hcomm hgroup hne hcall

/-- Four processes that access `matrix1` in pairs. -/
def pairsJob : Job := { nineJob 1 1 24 with rMod := 2 }

/-- While process 0 reads, process 1 has not received the token. -/
theorem turns_pairs :
    let prog : Nat → List (Act Double) := fun pe =>
      [.compute fun s => s.set .rbuffer (s.buffer .x)] ++
        (pairsJob.ioDistmatrixNet .matrix1 .r .rbuffer 0 pe ++ pairsJob.reportTime pe)
    let acts : List (Event Nat) := [.act 0, .act 1, .act 2, .act 3]
    ∃ M, run (Machine.step pairsJob.service)
        (pairsJob.machine prog pairsJob.fresh fun _ => File.empty)
        (acts ++ acts ++ acts ++ [.start 0]) = some M ∧
      (M.host 0).running.isSome ∧ (M.host 1).running = none ∧
      .recv 0 (.world, 0) Arrays.receiveToken :: ([.call ⟨.matrix1, .r, .rbuffer, 0⟩] ++
        (pairsJob.barrier .matrix1 1 ++ pairsJob.reportTime 1)) <:+ (M.net.proc 1).prog := by
  have hacc : pairsJob.Accepted .c := by decide +kernel
  let L : Nat → Memory Double := fun _ =>
    ⟨⟨fun _ _ => Job.zeroBytes, ⟨0, 0, 0⟩⟩, pairsJob.globals, fun _ => none⟩
  have hpre : pairsJob.Even fun _ => [.compute fun s : Arrays Double =>
      s.set .rbuffer (s.buffer .x)] :=
    (Job.Does.compute (I := fun _ => True) (J := fun _ => True) fun _ _ => trivial).even (L := L)
      trivial fun g pe => rfl
  have hpost : pairsJob.Even (pairsJob.reportTime : Nat → List (Act Double)) := by
    have hbarrier := fun g pe => Job.paired_barrier (j := pairsJob) (α := Double) .matrix1 g pe
    exact (Job.Does.reportTime (I := fun _ => True)).even (L := L) trivial fun g pe =>
      (hbarrier g pe).append ((hbarrier g pe).append (hbarrier g pe))
  obtain ⟨M, hrun, hat, hinCall⟩ : ∃ M, run (Machine.step pairsJob.service)
      (pairsJob.machine (fun pe => [.compute fun s => s.set .rbuffer (s.buffer .x)] ++
        (pairsJob.ioDistmatrixNet .matrix1 .r .rbuffer 0 pe ++ pairsJob.reportTime pe))
        pairsJob.fresh fun _ => File.empty)
      ([.act 0, .act 1, .act 2, .act 3] ++ [.act 0, .act 1, .act 2, .act 3] ++
        [.act 0, .act 1, .act 2, .act 3] ++ [.start 0]) =
        some M ∧ (M.net.proc 0).prog = [.call ⟨.matrix1, .r, .rbuffer, 0⟩] ++
          (pairsJob.sendTurn .matrix1 .r 0 ++
            (pairsJob.barrier .matrix1 0 ++ pairsJob.reportTime 0)) ∧
        (M.host 0).running.isSome := ⟨_, rfl, rfl, rfl⟩
  have hturns := (turns (x := 1) (by decide) hacc hpre hpost hrun (by decide) hat (by decide)
    rfl).2 (by decide)
  exact ⟨M, hrun, hinCall, hturns.2.2 (by decide), hturns.2.1 (by decide)⟩

end Turns

/-! ## The functions on the machine -/

namespace Job

variable (h : j.Valid) (hrange : j.NoOverflow) (hr : ∀ k, j.ioMod .r ∣ j.gangPe k)
  (hw : ∀ k, j.ioMod .w ∣ j.gangPe k) (hwhole : j.Whole) {R : Library j Double} {build : Build}
  {procs : Nat → Resting} {disk : Nat → File}

include h hrange hr hw hwhole

theorem main_machine (hbuild : j.Computes R build)
    (hinit : ∀ pe < j.noPe, Initialized R pe
      (j.memory (j.machine (j.main R build) procs disk) pe)) :
    (j.machine (j.main R build) procs disk).Completes j.service fun M =>
      M.net.Done ∧ Finished R (j.memory M) := by
  refine (main_does h hrange hbuild hr hw hwhole hinit).completes h hrange (fun pe _ c hc => ?_) rfl
    (fun pe hpe => (hinit pe hpe).hasRecords h) fun M L hL hshows => hL.of_shows h hshows
  rw [callsOf_main h hrange] at hc
  exact ranked_mainCalls h hc

theorem io_machine (hio : build.io = true)
    (hglobals : ∀ pe < j.noPe, (procs pe).globals = j.globals) :
    (j.machine (j.main R build) procs disk).Completes j.service fun M =>
      M.net.Done ∧ j.AllStocked j.noBin (j.noBin / j.noGang) (j.memory M) ∧
        (M.host 0).own.buffer .x 0 = R.collect 0 R.zero := by
  have hstart : j.AllStocked 0 0 (j.memory (j.machine (j.main R build) procs disk)) :=
    AllStocked.start h hglobals
  refine (main_io h hr hw hwhole hio hrange).completes h hrange (fun pe _ c hc => ?_) hstart
    (fun pe hpe => (hstart pe hpe).records) fun M L hL hshows => ⟨hL.1.of_shows h hshows, ?_⟩
  · rw [callsOf_main h hrange] at hc
    exact ranked_mainCalls h hc
  · rw [← hL.2]
    exact congrFun ((hshows 0).buffer_eq .x) 0

omit hrange hr hw hwhole in
/-- In a file of zeros every matrix is zero. -/
theorem stored_zeros {k : Kind} {pe rank size : Nat} (hrank : rank < j.ranks k)
    (hsize : j.base pe + 8 * j.area ≤ size) (prog : Nat → List (Act Double))
    {A : Nat → Nat → Double} (hA : ∀ r c, A r c = zeroBytes) :
    j.Stored k pe rank A (j.memory (j.machine prog procs fun _ => ⟨size, fun _ => 0⟩) pe).file := by
  intro n hn
  have hend := h.slot_end_le (c := ⟨k, .r, .rbuffer, rank⟩) hrank pe
  dsimp only at hend
  rw [file_memory _ _ _ (by omega)]
  have hinside : j.base pe + 8 * (j.slot k rank + n) + 8 ≤ size := by omega
  exact (if_pos hinside).trans (congrArg some (hA _ _).symm)

omit h hrange hr hw hwhole in
theorem entries_zero (r c : Nat) : (Library.constant j zeroBytes).entries
    (.of fun _ _ => zeroBytes) r c = zeroBytes :=
  dite_eq_ite.trans (ite_self _)

omit h hrange hr hw hwhole in
theorem coords_zero (r : Nat) : (Library.constant j zeroBytes).coords (fun _ => zeroBytes) r =
    zeroBytes :=
  dite_eq_ite.trans (ite_self _)

omit h hrange hr hw hwhole in
/-- Eight bins for four gangs of one process, and records of one double. -/
theorem nine_fits :
    (nineJob 8 4 8).Accepted .c ∧ (nineJob 8 4 8).NoOverflow ∧ (nineJob 8 4 8).Whole :=
  ⟨by decide +kernel, by decide +kernel, by decide +kernel⟩

end Job

section Completes

variable (hpos : j.Positive) (hacc : j.Accepted .c) (hrange : j.NoOverflow) (hwhole : j.Whole)
  {R : Library j Double} {build : Build} {procs : Nat → Job.Resting} {disk : Nat → File}

include hpos hacc hrange hwhole

/-- **`calc_W` on the machine.** -/
theorem calcW_completes (hbuild : j.Computes R build) {E : j.Square Double}
    {dS : Nat → j.Square Double}
    (hE : ∀ pe < j.noPe, j.IsPart .matrix1 pe (R.entries E) ((procs pe).own.buffer .mspace))
    (hrecords : ∀ pe < j.noPe,
      j.HasRecords pe (j.memory (j.machine (j.calcW R build) procs disk) pe))
    (hfile : ∀ pe < j.noPe, ∀ b < j.noBin, j.Stored .matrix1 pe b (R.entries (dS b))
      (j.memory (j.machine (j.calcW R build) procs disk) pe).file) :
    (j.machine (j.calcW R build) procs disk).Completes j.service fun M =>
      M.net.Done ∧ ∀ pe < j.noPe, Job.Solved R E dS pe
        (j.memory (j.machine (j.calcW R build) procs disk) pe) (j.memory M pe) := by
  have h := hacc.valid hpos
  refine (Job.calcW_does h hrange hbuild hE (hacc.ioMod_dvd hpos .matrix1 .r)
    (hacc.ioMod_dvd hpos .matrix2 .w) hwhole dS hrecords hfile).completes h hrange
    (fun pe _ c hc => ?_) rfl hrecords fun M L hL hshows pe hpe =>
      (hL pe hpe).of_shows h (hshows pe)
  rw [Job.callsOf_calcW h] at hc
  exact Job.ranked_solveCalls h hc

omit hpos hacc hrange hwhole in
theorem calcW_completes_nine :
    let j := nineJob 8 4 8
    let R := Library.constant j Job.zeroBytes
    let M₀ := j.machine (j.calcW R ⟨false, true, .custom⟩) j.fresh fun _ => ⟨4096, fun _ => 0⟩
    let Z : j.Square Double := .of fun _ _ => Job.zeroBytes
    j.Positive ∧ j.Accepted .c ∧ j.NoOverflow ∧ j.Whole ∧ M₀.Completes j.service fun M =>
      M.net.Done ∧ ∀ pe < j.noPe,
        Job.Solved R Z (fun _ => Z) pe (j.memory M₀ pe) (j.memory M pe) := by
  obtain ⟨hacc, hrange, hwhole⟩ := Job.nine_fits
  have h : (nineJob 8 4 8).Valid := hacc.valid (by decide)
  have hsize : 0 + 8 * (nineJob 8 4 8).area ≤ 4096 := by decide +kernel
  refine ⟨by decide, hacc, hrange, hwhole, ?_⟩
  exact calcW_completes (by decide) hacc hrange hwhole ⟨rfl, rfl, fun _ _ => rfl⟩
    (fun pe _ n _ => (Job.entries_zero _ _).symm) (fun pe _ => ⟨_, _, .start, h.globals_eq⟩)
    fun pe _ b hb => Job.stored_zeros h hb hsize _ Job.entries_zero

end Completes

/-! ## Calls -/

section Calls

variable {R R' : Library j Double} {build build' : Build} {procs procs' : Nat → Job.Resting}
  {disk disk' : Nat → File} {es es' : List (Event Nat)} {M M' : Processes} {pe : Nat}

/-- The calls of a run and those that have not been started. -/
theorem Job.calls_main (h : j.Valid) (hrange : j.NoOverflow) (hrun : run (Machine.step j.service)
      (j.machine (j.main R build) procs disk) es = some M) (hpe : pe < j.noPe) :
    Machine.calls j.service pe (j.machine (j.main R build) procs disk) es ++ M.pending pe =
      j.mainCalls build := by
  rw [Machine.calls_append hrun]
  change callsOf (Part.all (List.range j.noPe) (j.main R build) pe) = _
  rw [Job.all_eq hpe, Job.callsOf_main h hrange]

/-- The calls of a process that has come to its end. -/
theorem Job.calls_of_done (h : j.Valid) (hrange : j.NoOverflow) (hrun : run (Machine.step j.service)
      (j.machine (j.main R build) procs disk) es = some M) (hpe : pe < j.noPe)
    (hdone : (M.net.proc pe).prog = []) :
    Machine.calls j.service pe (j.machine (j.main R build) procs disk) es = j.mainCalls build := by
  have hpending : M.pending pe = [] := by
    rw [Machine.pending, hdone]
    split <;> rfl
  rw [← Job.calls_main h hrange hrun hpe, hpending, List.append_nil]

/-- **The calls of a run** are the first ones of a list that depends on the build alone, up to an
abort or to the end of the program. -/
theorem main_calls (hpos : j.Positive) (hacc : j.Accepted .c) (hrange : j.NoOverflow)
    (hrun : run (Machine.step j.service) (j.machine (j.main R build) procs disk) es = some M)
    (hpe : pe < j.noPe) :
    Machine.calls j.service pe (j.machine (j.main R build) procs disk) es <+:
        j.mainCalls build ∧
      ((M.net.proc pe).prog = [] →
        Machine.calls j.service pe (j.machine (j.main R build) procs disk) es =
          j.mainCalls build) :=
  ⟨⟨_, Job.calls_main (hacc.valid hpos) hrange hrun hpe⟩,
    Job.calls_of_done (hacc.valid hpos) hrange hrun hpe⟩

/-- A run to the end. -/
theorem main_calls_nine :
    let j := nineJob 8 4 8
    let M₀ := j.machine (j.main (Library.constant j Job.zeroBytes) ⟨true, false, .custom⟩) j.fresh
      fun _ => File.empty
    ∃ es M, run (Machine.step j.service) M₀ es = some M ∧
      Machine.calls j.service 3 M₀ es = j.mainCalls ⟨true, false, .custom⟩ := by
  intro j M₀
  obtain ⟨hacc, hrange, hwhole⟩ := Job.nine_fits
  obtain ⟨es, M, hrun, hdone, -⟩ := (Job.io_machine (hacc.valid (by decide)) hrange
    (fun k => hacc.ioMod_dvd (by decide) k .r) (fun k => hacc.ioMod_dvd (by decide) k .w) hwhole rfl
    fun pe _ => rfl).leads [] M₀ rfl
  exact ⟨es, M, hrun, (main_calls (by decide) hacc hrange hrun (by decide)).2 (hdone 3)⟩

/-- **The calls of two builds.** A process that comes to its end makes, with `-D IO`, some of the
calls that it makes without, in the same order; what is missing is the reading of `matrix2` for the
blocks below the diagonal. -/
theorem io_calls (hpos : j.Positive) (hacc : j.Accepted .c) (hrange : j.NoOverflow)
    (hio : build.io = true) (hio' : build'.io = false)
    (hrun : run (Machine.step j.service) (j.machine (j.main R build) procs disk) es = some M)
    (hrun' : run (Machine.step j.service) (j.machine (j.main R' build') procs' disk') es' = some M')
    (hpe : pe < j.noPe) (hdone : (M.net.proc pe).prog = [])
    (hdone' : (M'.net.proc pe).prog = []) :
    let calls := Machine.calls j.service pe (j.machine (j.main R build) procs disk) es
    let calls' := Machine.calls j.service pe (j.machine (j.main R' build') procs' disk') es'
    calls.Sublist calls' ∧
      calls.filter (fun c => ¬ (c.kind = .matrix2 ∧ c.rw = .r)) =
        calls'.filter (fun c => ¬ (c.kind = .matrix2 ∧ c.rw = .r)) ∧
      2 * calls'.length = 2 * calls.length + j.noBin / j.noGang * (j.noBin / j.noGang - 1) := by
  have h := hacc.valid hpos
  simp only [Job.calls_of_done h hrange hrun hpe hdone, Job.calls_of_done h hrange hrun' hpe hdone']
  exact ⟨j.mainCalls_sublist hio hio', j.mainCalls_filter build build', j.length_mainCalls hio hio'⟩

/-- Two bins for every gang: the build with `-D IO` makes one call less. -/
theorem io_calls_nine :
    let j := nineJob 8 4 8
    let M₀ := j.machine (j.main (Library.constant j Job.zeroBytes) ⟨true, false, .custom⟩) j.fresh
      fun _ => File.empty
    let M₀' := j.machine (j.main (Library.constant j Job.zeroBytes) ⟨false, true, .custom⟩) j.fresh
      fun _ => File.empty
    ∃ es M es' M', run (Machine.step j.service) M₀ es = some M ∧
      run (Machine.step j.service) M₀' es' = some M' ∧
      (Machine.calls j.service 3 M₀ es).Sublist (Machine.calls j.service 3 M₀' es') ∧
      (Machine.calls j.service 3 M₀' es').length =
        (Machine.calls j.service 3 M₀ es).length + 1 := by
  intro j M₀ M₀'
  obtain ⟨hacc, hrange, hwhole⟩ := Job.nine_fits
  have h : j.Valid := hacc.valid (by decide)
  have hr := fun k => hacc.ioMod_dvd (by decide) k .r
  have hw := fun k => hacc.ioMod_dvd (by decide) k .w
  obtain ⟨es, M, hrun, hdone, -⟩ := (Job.io_machine h hrange hr hw hwhole rfl
    fun pe _ => rfl).leads [] M₀ rfl
  obtain ⟨es', M', hrun', hdone', -⟩ := (Job.main_machine h hrange hr hw hwhole
    ⟨rfl, rfl, fun _ _ => rfl⟩ fun pe _ => ⟨fun _ _ => rfl, rfl⟩).leads [] M₀' rfl
  obtain ⟨hsublist, -, hlength⟩ := io_calls (by decide) hacc hrange rfl rfl hrun hrun'
    (by decide : 3 < 4) (hdone 3) (hdone' 3)
  have hbins : j.noBin / j.noGang = 2 := by decide
  change 2 * (Machine.calls j.service 3 M₀' es').length =
    2 * (Machine.calls j.service 3 M₀ es).length + _ at hlength
  rw [hbins] at hlength
  exact ⟨es, M, es', M', hrun, hrun', hsublist, by omega⟩

end Calls

end CacheTrace.Madbench
