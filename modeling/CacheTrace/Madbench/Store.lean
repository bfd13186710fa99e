import CacheTrace.Madbench.Io
import CacheTrace.Stdio.Store

/-!
# The matrices as a store

The processes of a job call `io_distmatrix` on the matrices of one kind, in any order and at the
same time; with the file type `UNIQUE` every process has its own file, with `SHARED` all of them
use one. The regions of the processes and ranks do not overlap, so the programs meet a
`Contract`, and every read that succeeds gives back what the same process wrote last at the same
rank (`io_distmatrix_store`).

A read may fall back to a record of the size of its share and leave that for the next one, so
the globals are not those of the command line. All that is known, and all that is needed, is
that they describe records (`Describes`).
-/

namespace CacheTrace.Madbench

open Machine Stdio Transition

/-- The globals describe records of doubles, and are `int`s. -/
def Describes (g : Globals) : Prop :=
  ∃ r s : Nat, g = records r s ∧ 0 < r ∧ 8 * r < 2 ^ 31 ∧ s < 2 ^ 31

/-- A read writes nothing and leaves the globals that the test has chosen. -/
theorem reads_stridedRead (A : Arith) (offset elm : Int) (g : Globals) :
    (stridedRead A offset elm g).Reads fun g' => g' = (adjust A elm g).1 := by
  have hrecord : ∀ g i tot iter, (readRecord A g i tot iter).Reads fun _ => True := by
    intro g i tot iter
    exact (Prog.reads_fread _ _).bind fun _ _ => (Prog.reads_check _ _).bind fun _ _ =>
      (Prog.reads_fseek _ _).bind fun _ _ => (Prog.reads_check _ _).bind fun _ _ => .ret trivial
  have hstride : ∀ g nr tot i, (readStride A g offset nr tot i).Reads fun _ => True := by
    intro g nr tot i
    exact (Prog.reads_fseek _ _).bind fun _ _ => (Prog.reads_check _ _).bind fun _ _ =>
      Prog.reads_foldlM (hrecord g i) _ _
  exact (Prog.reads_foldlM (hstride _ _) _ _).bind fun _ _ =>
    (Prog.reads_check _ _).bind fun _ _ => .ret rfl

namespace Job

/-- The calls of a job on the matrices of one kind. -/
def client (j : Job) (k : Kind) : Client Nat Op Globals where
  prog pe g
    | .read rank => ioDistmatrix .c j k pe rank .read g
    | .write rank data => ioDistmatrix .c j k pe rank (.write data) g
  file pe := match j.filetype with
    | .unique => pe
    | .shared => 0

/-- The parameters are `int`s, and the matrices of a process have less than 2 GB. -/
structure Small (j : Job) : Prop extends j.Ints where
  bytes : 8 * (j.noBin * j.distance .matrix1) < 2 ^ 31

variable {j : Job}

theorem Small.fits (hsmall : j.Small) (h : j.Valid) : Fits .c j (2 ^ 31) (2 ^ 63) := by
  have hbytes := hsmall.bytes
  refine ⟨Arith.c_upTo, by omega, fun k => ?_, ?_⟩
  · have hend := h.rank_end_le (h.ranks_pos k)
    have hshare := h.share_le_distance k 0
    rw [Nat.zero_add, Nat.one_mul] at hend
    omega
  · calc 8 * (j.noPe * (j.noBin * j.distance .matrix1))
        = j.noPe * (8 * (j.noBin * j.distance .matrix1)) := by ring
      _ < 2 ^ 31 * 2 ^ 31 := Nat.mul_lt_mul'' hsmall.noPe hbytes
      _ < 2 ^ 63 := by decide

theorem Small.describes (hsmall : j.Small) (h : j.Valid) : Describes j.globals := by
  have hrecord := hsmall.recordSize
  have hdvd := h.record_dvd
  refine ⟨_, _, h.globals_eq, h.record_pos, ?_, hsmall.stride⟩
  rw [recordDoubles]
  omega

section Programs

variable (hfit : Fits .c j (2 ^ 31) (2 ^ 63)) (h : j.Valid) {k : Kind} {pe rank : Nat}
  (hpe : pe < j.noPe) (hrank : rank < j.ranks k) {g : Globals}

include hfit h hpe

theorem reads_ioDistmatrix (hg : Describes g) :
    (ioDistmatrix .c j k pe rank .read g).Reads Describes := by
  obtain ⟨r, s, rfl, hr, hr', hs⟩ := hg
  have hshare := hfit.share_lt k pe
  have hadjust : Adjusts .c (j.share k pe) r s := adjusts_c hr (by omega) hr' hs
  have hreads := reads_stridedRead .c (j.fileOffset .c k pe rank) (j.myNoElm .c k pe) (records r s)
  refine (Prog.reads_fseek _ _).bind fun _ _ => (Prog.reads_check _ _).bind fun _ _ =>
    hreads.mono ?_
  intro g' hg'
  rw [hg', hfit.myNoElm_eq, hadjust]
  split_ifs with hlt
  · exact ⟨j.share k pe, 0, rfl, h.share_pos hpe k, hshare, by omega⟩
  · exact ⟨r, s, rfl, hr, hr', hs⟩

include hrank

theorem eval_ioDistmatrix_read (hg : Describes g) {xs : List Double}
    (hxs : xs.length = j.share k pe) (pos : Nat) :
    ∃ o s', (ioDistmatrix .c j k pe rank .read g).eval (region (j.position k pe rank) xs)
        ⟨pos, []⟩ = some (o, s') ∧ ∀ g', o = .ok g' → Fills s'.stores xs (j.share k pe) := by
  obtain ⟨r, s, rfl, hr, hr', hs⟩ := hg
  have hshare := hfit.share_lt k pe
  have hadjust : Adjusts .c (j.share k pe) r s := adjusts_c hr (by omega) hr' hs
  obtain ⟨s', heval, hfills⟩ := hfit.eval_read h hpe hrank hr hadjust hxs pos
  refine ⟨_, s', heval, fun g' hok => ?_⟩
  split_ifs at hok with hall
  rw [hall] at hfills
  exact hfills

theorem writing_ioDistmatrix {P : Globals → Prop} (hg : P g) {xs : List Double}
    (hxs : xs.length = j.share k pe) (pos : Nat) :
    (ioDistmatrix .c j k pe rank (.write xs) g).Writing (j.position k pe rank) (bytes xs) P []
      pos := by
  have hshare := hfit.share_lt k pe
  have hulong : Arith.c.ulong (j.share k pe) = j.share k pe :=
    Arith.c_upTo.ulong _ (by omega)
  unfold ioDistmatrix
  dsimp only
  rw [hfit.fileOffset_eq h hpe hrank, hfit.myNoElm_eq, hulong, Int.toNat_natCast,
    List.take_of_length_le hxs.le]
  refine .seek (.write (List.nil_append _) (Nat.add_zero _).symm fun pos' => ?_)
  rw [hxs]
  change Prog.Writing _ _ _ _
    (check Op.fwrite (decide ((j.share k pe : Int) = j.share k pe)) >>= _) _
  rw [decide_eq_true rfl]
  exact .ret hg

end Programs

/-- **The contract of the matrices.** -/
def contract (hsmall : j.Small) (h : j.Valid) (k : Kind) : Contract (j.client k) where
  Key pe rank := pe < j.noPe ∧ rank < j.ranks k
  lo := j.position k
  len pe _ := j.share k pe
  Good _ := Describes
  disjoint := by
    intro pe pe' rank rank' hkey hkey' hne hfile
    have hown : j.filetype = .unique → pe = pe' := by
      intro hunique
      simpa [client, hunique] using hfile
    have hshare := h.share_le_distance k pe
    have hshare' := h.share_le_distance k pe'
    rcases h.region_disjoint hkey.2 hkey'.2 hne hown with hlt | hlt
    · left
      omega
    · right
      omega
  reads hkey hg := reads_ioDistmatrix (hsmall.fits h) h hkey.1 hg
  read hkey hg hxs pos := eval_ioDistmatrix_read (hsmall.fits h) h hkey.1 hkey.2 hg hxs pos
  write hkey hg hxs pos := writing_ioDistmatrix (hsmall.fits h) h hkey.1 hkey.2 hg hxs pos

/-- The processes before their first call, whatever the files hold. -/
def startSystem (j : Job) (file : Nat → File) : System Nat Op Globals :=
  ⟨fun _ => ⟨j.globals, 0, none⟩, file⟩

/-- The calls of a run are calls of processes and ranks of the job, and a write has the elements
of the share. -/
def Calls (j : Job) (k : Kind) (es : List (Event Nat)) : Prop :=
  ∀ pe c, .call pe c ∈ es → pe < j.noPe ∧ match c with
    | .read rank => rank < j.ranks k
    | .write rank data => rank < j.ranks k ∧ data.length = j.share k pe

end Job

/-- **A store keyed by process and rank.** -/
theorem io_distmatrix_store {j : Job} (hpos : j.Positive) (hacc : j.Accepted .c)
    (hsmall : j.Small) (k : Kind) {file : Nat → File} {es : List (Event Nat)}
    {s : System Nat Op Globals} (hcalls : j.Calls k es)
    (hrun : run (j.client k).step (j.startSystem file) es = some s) {pe rank : Nat}
    {data : List Double} (hlast : lastWrite es pe rank = some data) :
    (∀ g stores, (s.proc pe).readDone = some (rank, g, stores) → ∀ buffer,
      (List.range (j.share k pe)).map (fun i : Nat => afterStores buffer stores i) = data) ∧
    ((s.proc pe).writes ≠ some rank →
      (s.file ((j.client k).file pe)).read (j.position k pe rank) (j.share k pe) = data) := by
  have h := hacc.valid hpos
  let C := Job.contract hsmall h k
  have hallowed : ∀ e ∈ es, C.Allowed e := by
    intro e he
    cases e with
    | call pe c =>
      obtain ⟨hpe, hc⟩ := hcalls pe c he
      cases c with
      | read rank => exact ⟨hpe, hc⟩
      | write rank data => exact ⟨⟨hpe, hc.1⟩, hc.2⟩
    | step i m => trivial
    | ret i => trivial
  have hinv := C.invariant (s := j.startSystem file) (fun _ => hsmall.describes h)
    (fun _ => rfl) hallowed hrun
  have hkept := hinv.kept pe rank data hlast
  have hlength : data.length = j.share k pe := hkept.length
  constructor
  · intro g stores hdone buffer
    have hfills := hinv.fills hdone hlast
    apply List.ext_getElem?
    intro i
    by_cases hi : i < j.share k pe
    · rw [List.getElem?_map, List.getElem?_range hi]
      exact (hfills.afterStores_eq buffer hi).symm
    · rw [List.getElem?_eq_none (by simpa using hi), List.getElem?_eq_none (by omega)]
  · intro hw
    rw [← hlength]
    exact (hkept.held hw).read

/-- Process 0 writes four elements in two pieces, while process 1 writes two of its own, and
reads them back. -/
def nineRun : List (Event Nat) := [
  .call 0 (.write 0 (List.replicate 4 fun i => i.val.toUInt8)), .step 0 0, .step 0 20,
  .call 1 (.write 0 (List.replicate 2 fun _ => 7)), .step 1 0, .step 1 16, .step 0 20, .step 0 0,
  .ret 0, .call 0 (.read 0), .step 0 0, .step 0 0, .step 1 0, .step 0 0, .step 0 0]

theorem io_distmatrix_store_nine :
    ∃ s g stores, run ((nineJob 1 1 72).client .matrix1).step
        ((nineJob 1 1 72).startSystem fun _ => .empty) nineRun = some s ∧
      (s.proc 0).readDone = some (0, g, stores) ∧ ∀ buffer,
        (List.range 4).map (fun i : Nat => afterStores buffer stores i) =
          List.replicate 4 fun i => i.val.toUInt8 := by
  have hdone : ((run ((nineJob 1 1 72).client .matrix1).step
      ((nineJob 1 1 72).startSystem fun _ => .empty) nineRun).bind fun s =>
        (s.proc 0).readDone.map fun o => (o.1, o.2.1)) = some (0, ⟨32, 0⟩) := by
    decide +kernel
  obtain ⟨s, hrun, hread⟩ := Option.bind_eq_some_iff.mp hdone
  obtain ⟨⟨rank, g, stores⟩, hread, heq⟩ := Option.map_eq_some_iff.mp hread
  cases heq
  have hshare : ∀ pe < 2, (nineJob 1 1 72).share .matrix1 pe = 4 / (pe + 1) := by decide +kernel
  have hcalls : (nineJob 1 1 72).Calls .matrix1 nineRun := by
    intro pe c hc
    have hcases : (pe = 0 ∧ c = .write 0 (List.replicate 4 fun i => i.val.toUInt8)) ∨
        (pe = 1 ∧ c = .write 0 (List.replicate 2 fun _ => 7)) ∨ (pe = 0 ∧ c = .read 0) := by
      simpa [nineRun] using hc
    rcases hcases with ⟨rfl, rfl⟩ | ⟨rfl, rfl⟩ | ⟨rfl, rfl⟩
    · exact ⟨by decide, by decide, (hshare 0 (by decide)).symm⟩
    · exact ⟨by decide, by decide, (hshare 1 (by decide)).symm⟩
    · exact ⟨by decide, by decide⟩
  refine ⟨s, _, stores, hrun, hread, ?_⟩
  have hstore := io_distmatrix_store (by decide) (by decide +kernel)
    ⟨by decide, by decide +kernel⟩ .matrix1 hcalls hrun
    (show lastWrite nineRun 0 0 = some _ by rfl)
  rw [hshare 0 (by decide)] at hstore
  exact hstore.1 _ stores hread

end CacheTrace.Madbench
