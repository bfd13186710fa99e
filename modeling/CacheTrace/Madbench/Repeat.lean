import CacheTrace.Madbench.Io
import CacheTrace.Transition.Run

/-!
# Reads one after the other

The globals `record_size` and `stride` are what one read leaves for the next. A read with fewer
elements than a block replaces them by its own share, for good. So the globals are those of the
command line, or one record of the size of such a share (`Reached`), and a later read fills as
many elements as it would have filled in the beginning when both kinds of blocks fit equally
often into its share (`reads_independent_iff`).

The file of a read is a part of the call: it may have changed since the last one.
-/

namespace CacheTrace.Madbench

open Machine Stdio Transition

/-- What a process keeps from one read to the next. -/
structure Reader where
  globals : Globals
  pos : Nat
  deriving DecidableEq

/-- A read of one rank, with the file as it is then. -/
structure ReadCall where
  kind : Kind
  rank : Nat
  file : File

/-- Two reads succeed or fail together, and they leave the same buffer. -/
structure SameRead (a b : Except Op Globals × File × Cursor) : Prop where
  success : (∃ g, a.1 = .ok g) ↔ ∃ g, b.1 = .ok g
  buffer : ∀ buffer, afterStores buffer a.2.2.stores = afterStores buffer b.2.2.stores

namespace Job

variable (j : Job) (pe : Nat)

/-- A read in exact arithmetic. -/
def readResult (s : Reader) (c : ReadCall) : Except Op Globals × File × Cursor :=
  (ioDistmatrix .exact j c.kind pe c.rank .read s.globals).exec c.file ⟨s.pos, []⟩

/-- A read that fails ends the process. -/
def readStep (s : Reader) (c : ReadCall) : Option Reader :=
  match j.readResult pe s c with
  | (.ok g, _, cursor) => some ⟨g, cursor.pos⟩
  | (.error _, _, _) => none

/-- The process before its first read. -/
def reader : Reader := ⟨j.globals, 0⟩

/-- The share has been written. -/
structure Written (c : ReadCall) : Prop where
  rank : c.rank < j.ranks c.kind
  written : j.position c.kind pe c.rank + 8 * j.share c.kind pe ≤ c.file.size

/-- The records that the globals may describe. -/
inductive Reached : Nat → Nat → Prop
  | start : Reached j.recordDoubles j.stride
  | fallback {k : Kind} : j.share k pe < j.blockDoubles → Reached (j.share k pe) 0

theorem Reached.left {j : Job} {pe r s : Nat} (hreach : j.Reached pe r s) (k : Kind) :
    ∃ r' s', j.Reached pe r' s' ∧ left (j.share k pe) r s = records r' s' := by
  unfold Madbench.left
  split_ifs with hlt
  · refine ⟨j.share k pe, 0, .fallback ?_, rfl⟩
    cases hreach with
    | start => exact hlt
    | fallback hshare => omega
  · exact ⟨r, s, hreach, rfl⟩

end Job

section Reads

variable {j : Job} {pe : Nat} (h : j.Valid) (hpe : pe < j.noPe)

include h hpe

theorem readResult_eq {c : ReadCall} (hc : j.Written pe c) {r s : Nat} (hr : 0 < r) (pos : Nat) :
    ∃ cursor, j.readResult pe ⟨records r s, pos⟩ c =
        (if filled (j.share c.kind pe) ((s + 1) * r) = j.share c.kind pe then
            .ok (left (j.share c.kind pe) r s)
          else .error .stridedReads, c.file, cursor) ∧
      Fills cursor.stores (c.file.doubles (j.position c.kind pe c.rank) (j.share c.kind pe))
        (filled (j.share c.kind pe) ((s + 1) * r)) := by
  obtain ⟨n, m, hfit⟩ := j.fits_exact
  exact hfit.exec_read h hpe hc.rank hr (adjusts_exact hr s _) hc.written pos

theorem readStep_eq_some {c : ReadCall} (hc : j.Written pe c) {r s : Nat} (hr : 0 < r) {pos : Nat}
    {s' : Reader} (hstep : j.readStep pe ⟨records r s, pos⟩ c = some s') :
    s'.globals = left (j.share c.kind pe) r s := by
  obtain ⟨cursor, hresult, -⟩ := readResult_eq h hpe hc hr pos
  rw [Job.readStep, hresult] at hstep
  split_ifs at hstep with hall
  cases hstep
  rfl

/-- A read with fewer elements than a block succeeds. -/
theorem readStep_fallback {c : ReadCall} (hc : j.Written pe c) {r s : Nat} (hr : 0 < r)
    (hlt : j.share c.kind pe < (s + 1) * r) (pos : Nat) :
    ∃ pos', j.readStep pe ⟨records r s, pos⟩ c = some ⟨records (j.share c.kind pe) 0, pos'⟩ := by
  obtain ⟨cursor, hresult, -⟩ := readResult_eq h hpe hc hr pos
  refine ⟨cursor.pos, ?_⟩
  rw [Job.readStep, hresult, filled, if_pos hlt, if_pos rfl, left, if_pos hlt]

/-- Two records serve a read equally when they fill the same number of elements. -/
theorem sameRead_iff {c : ReadCall} (hc : j.Written pe c) {r s r' s' : Nat} (hr : 0 < r)
    (hr' : 0 < r') (pos pos' : Nat) :
    SameRead (j.readResult pe ⟨records r s, pos⟩ c) (j.readResult pe ⟨records r' s', pos'⟩ c) ↔
      filled (j.share c.kind pe) ((s + 1) * r) = filled (j.share c.kind pe) ((s' + 1) * r') := by
  obtain ⟨cursor, hresult, hfills⟩ := readResult_eq h hpe hc (s := s) hr pos
  obtain ⟨cursor', hresult', hfills'⟩ := readResult_eq h hpe hc (s := s') hr' pos'
  constructor
  · intro hsame
    have hbuffer := hsame.buffer
    rw [hresult, hresult'] at hbuffer
    exact hfills.eq_of_afterStores hfills' hbuffer
  · intro heq
    refine ⟨?_, fun buffer => ?_⟩
    · rw [hresult, hresult', heq]
      split_ifs with hall
      · simp
      · simp
    · rw [hresult, hresult']
      exact hfills.afterStores_congr (heq ▸ hfills') buffer

theorem reached_pos {r s : Nat} (hreach : j.Reached pe r s) : 0 < r := by
  cases hreach with
  | start => exact h.record_pos
  | fallback hlt => exact h.share_pos hpe _

/-- One read leads from such records to such records. -/
theorem reached_step {c : ReadCall} (hc : j.Written pe c) {r s : Nat} (hreach : j.Reached pe r s)
    {pos : Nat} {s' : Reader} (hstep : j.readStep pe ⟨records r s, pos⟩ c = some s') :
    ∃ r' t, j.Reached pe r' t ∧ s'.globals = records r' t := by
  rw [readStep_eq_some h hpe hc (reached_pos h hpe hreach) hstep]
  exact hreach.left c.kind

/-- **What the globals are** after any reads. -/
theorem reached_run {calls : List ReadCall} (hcalls : ∀ c ∈ calls, j.Written pe c) {s : Reader}
    (hrun : run (j.readStep pe) j.reader calls = some s) :
    ∃ r t, j.Reached pe r t ∧ s.globals = records r t := by
  have hstart : ∃ r t, j.Reached pe r t ∧ j.reader.globals = records r t :=
    ⟨_, _, .start, h.globals_eq⟩
  have hguard : Guarded (j.readStep pe) (fun _ c => j.Written pe c) j.reader calls :=
    guarded_of_forall (fun c hc _ => hcalls c hc) _
  refine run_invariant (I := fun m => ∃ r t, j.Reached pe r t ∧ m.globals = records r t) ?_ hstart
    hrun hguard
  rintro ⟨g, pos⟩ c s' hc ⟨r, t, hreach, rfl⟩ hstep
  exact reached_step h hpe hc hreach hstep

end Reads

/-- **When reads are independent of each other.** -/
theorem reads_independent_iff {j : Job} (hpos : j.Positive) (hacc : j.Accepted .exact) {pe : Nat}
    (hpe : pe < j.noPe) :
    (∀ calls c s, (∀ c' ∈ calls, j.Written pe c') → j.Written pe c →
      run (j.readStep pe) j.reader calls = some s →
      SameRead (j.readResult pe s c) (j.readResult pe j.reader c)) ↔
    ∀ k k', j.share k pe < j.blockDoubles → j.share k pe ≤ j.share k' pe →
      j.share k' pe / j.share k pe * j.share k pe =
        if j.share k' pe < j.blockDoubles then j.share k' pe
        else j.share k' pe / j.blockDoubles * j.blockDoubles := by
  have h := hacc.valid hpos
  have hreader : j.reader = ⟨records j.recordDoubles j.stride, 0⟩ := by
    rw [Job.reader, h.globals_eq]
  constructor
  · intro hall k k' hlt hle
    -- one read of `k`, then the read of `k'`, both from a file with everything in it
    let f : File :=
      ⟨j.position k pe 0 + 8 * j.share k pe + (j.position k' pe 0 + 8 * j.share k' pe), fun _ => 0⟩
    have hfirst : j.Written pe ⟨k, 0, f⟩ := ⟨h.ranks_pos k, Nat.le_add_right _ _⟩
    have hsecond : j.Written pe ⟨k', 0, f⟩ := ⟨h.ranks_pos k', Nat.le_add_left _ _⟩
    obtain ⟨pos, hstep⟩ := readStep_fallback h hpe hfirst h.record_pos hlt 0
    have hsame := hall [⟨k, 0, f⟩] ⟨k', 0, f⟩ _ (by simpa using hfirst) hsecond
      (by rw [run_singleton, hreader]; exact hstep)
    rw [hreader, sameRead_iff h hpe hsecond (h.share_pos hpe k) h.record_pos, Nat.zero_add,
      Nat.one_mul, filled, if_neg (Nat.not_lt.mpr hle)] at hsame
    exact hsame
  · intro hcond calls c s hcalls hc hrun
    obtain ⟨r, t, hreach, hglobals⟩ := reached_run h hpe hcalls hrun
    obtain ⟨_, pos⟩ := s
    obtain rfl := hglobals
    rw [hreader, sameRead_iff h hpe hc (reached_pos h hpe hreach) h.record_pos]
    cases hreach with
    | start => rfl
    | @fallback k hlt =>
      rw [Nat.zero_add, Nat.one_mul]
      by_cases hle : j.share k pe ≤ j.share c.kind pe
      · rw [filled, if_neg (by omega)]
        exact hcond k c.kind hlt hle
      · have hsmall : j.share c.kind pe < j.blockDoubles := by omega
        rw [Job.blockDoubles] at hsmall
        rw [filled, if_pos (by omega), filled, if_pos hsmall]

/-- The read of four elements of `matrix1` makes the read of nine elements of `matrix2` fail. -/
theorem second_read_aborts :
    (nineJob 4 4 72).Positive ∧ (nineJob 4 4 72).Accepted .exact ∧
      ∃ s, run ((nineJob 4 4 72).readStep 0) (nineJob 4 4 72).reader
          [⟨.matrix1, 0, ⟨72, fun _ => 0⟩⟩] = some s ∧
        ((nineJob 4 4 72).readResult 0 s ⟨.matrix2, 0, ⟨72, fun _ => 0⟩⟩).1 =
          .error .stridedReads ∧
        ((nineJob 4 4 72).readResult 0 (nineJob 4 4 72).reader
          ⟨.matrix2, 0, ⟨72, fun _ => 0⟩⟩).1 = .ok ⟨72, 0⟩ :=
  ⟨by decide, by decide +kernel, ⟨⟨32, 0⟩, 32⟩, by decide +kernel, by decide +kernel,
    by decide +kernel⟩

/-- With one gang the two matrices have the same shares. -/
theorem reads_independent_nine :
    SameRead
      ((nineJob 1 1 72).readResult 0 ⟨⟨32, 0⟩, 32⟩ ⟨.matrix2, 0, ⟨32, fun _ => 0⟩⟩)
      ((nineJob 1 1 72).readResult 0 (nineJob 1 1 72).reader
        ⟨.matrix2, 0, ⟨32, fun _ => 0⟩⟩) := by
  have hshare : ∀ k, (nineJob 1 1 72).share k 0 = 4 := by decide +kernel
  have hwritten : ∀ k, (nineJob 1 1 72).Written 0 ⟨k, 0, ⟨32, fun _ => 0⟩⟩ := by
    intro k
    cases k with
    | matrix1 => exact ⟨by decide +kernel, by decide +kernel⟩
    | matrix2 => exact ⟨by decide +kernel, by decide +kernel⟩
  refine (reads_independent_iff (by decide) (by decide +kernel) (by decide)).mpr ?_
    [⟨.matrix1, 0, ⟨32, fun _ => 0⟩⟩] _ _ (by simpa using hwritten .matrix1)
    (hwritten .matrix2) (by decide +kernel)
  intro k k' _ _
  rw [hshare, hshare]
  decide +kernel

end CacheTrace.Madbench
