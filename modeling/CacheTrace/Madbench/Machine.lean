import CacheTrace.Madbench.Elements
import CacheTrace.Madbench.Store
import CacheTrace.Message.Refinement

/-!
# The processes on their files

Here a call of `io_distmatrix` is the program `ioDistmatrix` in the arithmetic of C. The processes
perform its operations one by one, on files that they share when `FILETYPE` is `SHARED`, and
between the operations of one process the others go on. A call whose test fails aborts.

The network, where an access is one step on the elements of an area of the file, stands for this
machine as long as the numbers of the job are in range (`accessContract`): a read seeks and reads
inside the area and leaves the globals that `access` has, and a write fills its part of the area.
So what ends in the network ends on the machine, in every order of the operations, without an
abort, and the files have the elements that the network has (`Ends.completes`).
-/

namespace CacheTrace.Madbench

open Buffer Message Machine Stdio

/-- The processes with their files. -/
abbrev Processes :=
  Message.Machine Nat (Comm × Nat) (Packet Double) (Arrays Double) Globals Comm Access Op

namespace Job

variable (j : Job)

/-! ## The calls -/

/-- The file of a process. -/
def fileOf (pe : Nat) : Nat :=
  match j.filetype with
  | .unique => pe
  | .shared => 0

/-- Where the area of a process begins in its file, in bytes. -/
def base (pe : Nat) : Nat :=
  match j.filetype with
  | .unique => 0
  | .shared => 8 * (pe * j.noBin * j.distance .matrix1)

/-- How many elements the area of a process has. -/
def area : Nat := j.noBin * j.distance .matrix1

/-- `io_distmatrix` between its messages. A write takes the elements of the array, a read stores
into it. -/
def service : Service Nat (Arrays Double) Globals Comm Access Op where
  members := j.members
  file := j.fileOf
  prog pe c s g :=
    match c.rw with
    | .r => ioDistmatrix .c j c.kind pe c.rank .read g
    | .w => ioDistmatrix .c j c.kind pe c.rank
        (.write (contents (s.buffer c.data) (j.elm c.kind pe))) g
  finish _ c stores s :=
    match c.rw with
    | .r => s.set c.data fun n => afterStores (fun i => s.buffer c.data i.toNat) stores n
    | .w => s

/-- Two areas of one file do not overlap. -/
theorem area_apart {pe pe' : Nat} (hne : pe ≠ pe') (hfile : j.fileOf pe = j.fileOf pe') :
    j.base pe + 8 * j.area ≤ j.base pe' ∨ j.base pe' + 8 * j.area ≤ j.base pe := by
  have hbelow : ∀ {a b : Nat}, a < b → a * j.noBin * j.distance .matrix1 + j.area ≤
      b * j.noBin * j.distance .matrix1 := by
    intro a b hab
    have hmul := Nat.mul_le_mul_right j.area hab
    rw [Nat.succ_mul] at hmul
    rw [Nat.mul_assoc, Nat.mul_assoc]
    exact hmul
  simp only [fileOf, base] at hfile ⊢
  cases hshared : j.filetype with
  | unique =>
    simp only [hshared] at hfile
    exact absurd hfile hne
  | shared =>
    simp only
    rcases Nat.lt_or_gt_of_ne hne with hlt | hgt
    · have hle := hbelow hlt
      omega
    · have hle := hbelow hgt
      omega

/-- The network stands for the machine. -/
def model : Model j.service (Memory Double) where
  own := Memory.toArrays
  put := Memory.put
  own_put _ _ := rfl
  call := j.access
  kept := Memory.globals
  kept_put _ _ := rfl
  elements := Memory.file
  elements_put _ _ := rfl
  base := j.base
  size _ := j.area
  apart _ _ hne hfile := j.area_apart hne hfile

variable {j}

theorem position_eq (k : Kind) (pe rank : Nat) :
    j.position k pe rank = j.base pe + 8 * j.slot k rank := by
  rw [position, base, slot]
  cases j.filetype with
  | unique => exact (Nat.zero_add _).symm
  | shared => exact Nat.add_comm _ _

theorem Valid.slot_end_le (h : j.Valid) {c : Access} (hc : j.Ranked c) (pe : Nat) :
    j.slot c.kind c.rank + j.share c.kind pe ≤ j.area := by
  have hend := h.rank_end_le hc
  have hshare := h.share_le_distance c.kind pe
  rw [Nat.succ_mul] at hend
  exact (Nat.add_le_add_left hshare _).trans hend

/-- The globals of process `pe` are those of the command line, or what a read has left. -/
def Good (j : Job) (pe : Nat) (g : Globals) : Prop :=
  pe < j.noPe → ∃ r t, j.Reached pe r t ∧ g = records r t

section Calls

variable (h : j.Valid) (hrange : j.NoOverflow) {pe : Nat} (hpe : pe < j.noPe)

include h hrange hpe

theorem adjusts_reached {r t : Nat} (hreach : j.Reached pe r t) (k : Kind) :
    Adjusts .c (j.share k pe) r t := by
  cases hreach with
  | start => exact hrange.adjusts h k pe
  | @fallback k' hlt =>
    have hshare := hrange.fits.share_lt k pe
    have hshare' := hrange.fits.share_lt k' pe
    exact adjusts_c (h.share_pos hpe k') (by omega) hshare' (by omega)

variable {S S' : Memory Double}

/-- A read does what the access does. -/
theorem meets_read {k : Kind} {data : Var} {rank : Nat} (hrank : rank < j.ranks k)
    (hgood : j.Good pe S.globals) (hcall : j.access pe ⟨k, .r, data, rank⟩ S = some S') :
    j.Good pe S'.globals ∧ j.model.Meets pe ⟨k, .r, data, rank⟩ S S' := by
  obtain ⟨r, t, hreach, hglobals⟩ := hgood hpe
  obtain ⟨⟨hfilled, hpresent⟩, rfl⟩ := access_r_eq_some.mp hcall
  rw [hglobals, doubles_records] at hfilled
  have hnext : (j.loaded pe k data rank S).globals = left (j.share k pe) r t := by
    rw [loaded, hglobals, next_records]
  let xs := contents (fun n => (S.file (j.slot k rank + n)).getD (S.buffer data n)) (j.share k pe)
  have hxs : xs.length = j.share k pe := by simp [xs, contents]
  have hget : ∀ n < j.share k pe, xs[n]? =
      some ((S.file (j.slot k rank + n)).getD (S.buffer data n)) := by
    intro n hn
    simp [xs, contents, hn]
  have hread : j.model.ReadsFrom pe S (j.loaded pe k data rank S) (j.slot k rank) xs := by
    refine ⟨?_, fun n x hx => ?_, rfl⟩
    · rw [hxs]
      exact h.slot_end_le (c := ⟨k, .r, data, rank⟩) hrank pe
    · have hn : n < j.share k pe := hxs ▸ (List.getElem?_eq_some_iff.mp hx).1
      obtain ⟨y, hy⟩ := Option.isSome_iff_exists.mp (hpresent n hn)
      rw [hget n hn, hy, Option.getD_some] at hx
      exact hy.trans hx
  refine ⟨fun _ => hnext ▸ hreach.left k, .read hread fun pos => ?_⟩
  obtain ⟨cursor, heval, hfills⟩ := hrange.fits.eval_read h hpe hrank
    (reached_pos h hpe hreach) (adjusts_reached h hrange hpe hreach k) hxs pos
  rw [if_pos hfilled, position_eq, ← hnext, ← hglobals] at heval
  rw [hfilled] at hfills
  refine ⟨cursor, heval, congrArg (S.toArrays.set data) (funext fun n => ?_)⟩
  split_ifs with hn
  · exact Option.some.inj ((hfills.afterStores_eq _ hn).symm.trans (hget n hn))
  · exact hfills.afterStores_of_ge _ (.inr (Int.ofNat_le.mpr (Nat.le_of_not_lt hn)))

/-- A write does what the access does. -/
theorem meets_write {k : Kind} {data : Var} {rank : Nat} (hrank : rank < j.ranks k)
    (hgood : j.Good pe S.globals) (hcall : j.access pe ⟨k, .w, data, rank⟩ S = some S') :
    j.Good pe S'.globals ∧ j.model.Meets pe ⟨k, .w, data, rank⟩ S S' := by
  rw [access_w] at hcall
  obtain rfl := Option.some.inj hcall
  let xs := contents (S.buffer data) (j.share k pe)
  have hxs : xs.length = j.share k pe := by simp [xs, contents]
  have hwrites : j.model.WritesTo pe ⟨k, .w, data, rank⟩ S (j.written pe k data rank S)
      (j.slot k rank) xs := by
    refine ⟨?_, fun n => ?_, fun stores => rfl⟩
    · rw [hxs]
      exact h.slot_end_le (c := ⟨k, .w, data, rank⟩) hrank pe
    · change (if _ then _ else _) = _
      rw [hxs]
      split_ifs with hin
      · have hn : n - j.slot k rank < j.share k pe := by omega
        simp [xs, contents, hn]
      · rfl
  refine ⟨hgood, .write hwrites fun pos => ?_⟩
  change (ioDistmatrix .c j k pe rank (.write (contents (S.buffer data) (j.elm k pe)))
    S.globals).Writing (j.base pe + 8 * j.slot k rank) _ _ _ _
  rw [hrange.elm_eq, ← position_eq]
  exact writing_ioDistmatrix (P := (· = S.globals)) hrange.fits h hpe hrank rfl hxs pos

end Calls

/-- **The contract of the accesses.** -/
def accessContract (h : j.Valid) (hrange : j.NoOverflow) : j.model.Contract where
  Key pe c := pe < j.noPe ∧ j.Ranked c
  Good := j.Good
  meets {pe c S S'} hkey hgood hcall := by
    obtain ⟨k, rw, data, rank⟩ := c
    cases rw with
    | r => exact meets_read h hrange hkey.1 hkey.2 hgood hcall
    | w => exact meets_write h hrange hkey.1 hkey.2 hgood hcall

/-! ## The machine -/

/-- A process between its calls, with the position of its stream. -/
structure Resting where
  own : Arrays Double
  globals : Globals
  pos : Nat

/-- The processes before they run a program, on files. -/
def machine (j : Job) (prog : Nat → List (Act Double)) (procs : Nat → Resting)
    (disk : Nat → File) : Processes :=
  ⟨⟨fun pe => ⟨Part.all (List.range j.noPe) prog pe,
    ⟨(procs pe).own, (procs pe).globals, (procs pe).pos, none⟩, fun _ => []⟩, fun _ => []⟩, disk⟩

/-- A process of the machine, with the elements that its area of the file has. -/
def memory (j : Job) (M : Processes) (pe : Nat) : Memory Double :=
  ⟨(M.host pe).own, (M.host pe).kept, fun n =>
    if n < j.area then (M.disk (j.fileOf pe)).view (j.base pe + 8 * n) else none⟩

theorem file_memory (j : Job) (M : Processes) (pe : Nat) {n : Nat} (hn : n < j.area) :
    (j.memory M pe).file n = (M.disk (j.fileOf pe)).view (j.base pe + 8 * n) :=
  if_pos hn

/-- The process has on the machine, as `s'`, what it has in the network. -/
structure Shows (j : Job) (s s' : Memory Double) : Prop where
  toArrays : s'.toArrays = s.toArrays
  globals : s'.globals = s.globals
  file : ∀ n < j.area, ∀ x, s.file n = some x → s'.file n = some x

variable {prog : Nat → List (Act Double)} {procs : Nat → Resting} {disk : Nat → File}

/-- The machine and the network begin together. -/
theorem backs_start (h : j.Valid) (hrange : j.NoOverflow)
    (hrecords : ∀ pe < j.noPe, j.HasRecords pe (j.memory (j.machine prog procs disk) pe))
    (hranked : ∀ pe < j.noPe, ∀ c ∈ callsOf (prog pe), j.Ranked c) :
    Model.Backs (accessContract h hrange) (j.machine prog procs disk)
      (j.start prog (j.memory (j.machine prog procs disk))) := by
  refine ⟨rfl, fun _ => rfl, fun pe hpe => hrecords pe hpe, fun pe c hc => ?_,
    fun pe => .idle fun n x hn _ hx => ?_⟩
  · simp only [start, Part.all, List.mem_range] at hc
    split_ifs at hc with hpe
    · exact ⟨hpe, hranked pe hpe c hc⟩
    · cases hc
  · exact view_eq_some.mp (((j.file_memory (j.machine prog procs disk) pe hn).symm).trans hx)

/-- Between its calls, the file of a process has the elements of the network. -/
theorem shows_of_backs {h : j.Valid} {hrange : j.NoOverflow} {M : Processes}
    {t : Net Nat (Comm × Nat) (Packet Double) (Arrays Double) (Memory Double) Comm Access}
    (hbacks : Model.Backs (accessContract h hrange) M t) {pe : Nat}
    (hidle : (M.host pe).running = none) : j.Shows (t.proc pe).state (j.memory M pe) := by
  refine ⟨hbacks.own_eq pe, hbacks.kept pe, fun n hn x hx => ?_⟩
  have hstanding := hbacks.standing pe
  rw [hidle] at hstanding
  cases hstanding with
  | idle hheld =>
    rw [j.file_memory M pe hn]
    exact view_eq_some.mpr (hheld n x hn (by omega) hx)

/-- A process at its end is in no call. -/
theorem idle_of_done {h : j.Valid} {hrange : j.NoOverflow} {M : Processes}
    {t : Net Nat (Comm × Nat) (Packet Double) (Arrays Double) (Memory Double) Comm Access}
    (hbacks : Model.Backs (accessContract h hrange) M t) {pe : Nat}
    (hdone : (M.net.proc pe).prog = []) : (M.host pe).running = none := by
  have hstanding := hbacks.standing pe
  rw [← hbacks.prog_eq pe, hdone] at hstanding
  cases hrunning : (M.host pe).running with
  | none => rfl
  | some r =>
    rw [hrunning] at hstanding
    obtain ⟨c, rest, heq⟩ := hstanding.calls
    cases heq

/-- **What ends in the network ends on the machine.** -/
theorem Ends.completes (h : j.Valid) (hrange : j.NoOverflow)
    (hrecords : ∀ pe < j.noPe, j.HasRecords pe (j.memory (j.machine prog procs disk) pe))
    (hranked : ∀ pe < j.noPe, ∀ c ∈ callsOf (prog pe), j.Ranked c)
    {J : (Nat → Memory Double) → Prop}
    (hends : j.Ends prog (j.memory (j.machine prog procs disk)) J) :
    (j.machine prog procs disk).Completes j.service fun M =>
      M.net.Done ∧ ∃ L, J L ∧ ∀ pe, j.Shows (L pe) (j.memory M pe) := by
  obtain ⟨t, hout, hJ⟩ := hends
  refine ((backs_start h hrange hrecords hranked).completes hout).mono fun M hM => ?_
  exact ⟨hM.1, t.states, hJ, fun pe => shows_of_backs hM.2 (idle_of_done hM.2 (hM.1 pe))⟩

end Job

end CacheTrace.Madbench
