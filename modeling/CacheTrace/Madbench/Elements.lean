import CacheTrace.Madbench.Turns

/-!
# Elements in files

What `io_distmatrix` does for the whole job, when its reads fill the shares. The globals may fall
back to a record of the size of a share on the way (`Reached`), so the condition is about all of
them (`Whole`); then reads and writes keep everything but the array or the ranks that they are
about.
-/

namespace CacheTrace.Madbench

open Cyclic Buffer Message

variable {α : Type}

namespace Job

/-- The reads fill the shares, whatever the reads before have left. -/
def Whole (j : Job) : Prop :=
  ∀ pe < j.noPe, ∀ r s, j.Reached pe r s → ∀ k, filled (j.share k pe) ((s + 1) * r) = j.share k pe

theorem whole_iff (j : Job) : j.Whole ↔ ∀ pe < j.noPe,
    (∀ k, j.share k pe < j.blockDoubles ∨ j.blockDoubles ∣ j.share k pe) ∧
      ∀ k k', j.share k pe < j.blockDoubles →
        j.share k' pe < j.share k pe ∨ j.share k pe ∣ j.share k' pe := by
  refine forall₂_congr fun pe _ => ?_
  constructor
  · intro hall
    refine ⟨fun k => (filled_eq_self _ _).mp (hall _ _ .start k), fun k k' hlt => ?_⟩
    have hfilled := (filled_eq_self _ _).mp (hall _ _ (.fallback hlt) k')
    rwa [Nat.zero_add, Nat.one_mul] at hfilled
  · rintro ⟨hstart, hfallback⟩ r s hreach k
    refine (filled_eq_self _ _).mpr ?_
    cases hreach with
    | start => exact hstart k
    | fallback hlt =>
      rw [Nat.zero_add, Nat.one_mul]
      exact hfallback _ k hlt

instance (j : Job) : Decidable j.Whole := decidable_of_iff _ j.whole_iff.symm

/-- The globals of a process are those of the command line, or what a read has left. -/
def HasRecords (j : Job) (pe : Nat) (s : Memory α) : Prop :=
  ∃ r t, j.Reached pe r t ∧ s.globals = records r t

/-- From `s₀` to `s` process `pe` has changed only the arrays `vs`, and the globals at most as
reads do it. -/
structure Retains (j : Job) (pe : Nat) (vs : List Var) (s₀ s : Memory α) : Prop where
  buffer : ∀ v, v ∉ vs → s.buffer v = s₀.buffer v
  file : s.file = s₀.file
  records : j.HasRecords pe s₀ → j.HasRecords pe s

/-- An access to one of the matrices of the job. -/
def Ranked (j : Job) (c : Access) : Prop := c.rank < j.ranks c.kind

/-- The process has written a rank. -/
def Present (j : Job) (k : Kind) (pe rank : Nat) (file : Nat → Option α) : Prop :=
  ∀ n < j.share k pe, (file (j.slot k rank + n)).isSome

/-- The part of process `pe` in a matrix is in the file. -/
def Stored (j : Job) (k : Kind) (pe rank : Nat) (M : Nat → Nat → α) (file : Nat → Option α) :
    Prop :=
  ∀ n < j.share k pe, file (j.slot k rank + n) = some (j.part k pe M n)

variable {j : Job} {pe : Nat} {vs vs' : List Var} {s₀ s s' : Memory α}

theorem Retains.of_keeps (h : Memory.Keeps vs s₀ s) : j.Retains pe vs s₀ s :=
  ⟨h.buffer, h.file, fun hs => by rw [HasRecords, h.globals]; exact hs⟩

theorem Retains.refl (vs : List Var) (s : Memory α) : j.Retains pe vs s s := .of_keeps (.refl vs s)

theorem Retains.trans (h : j.Retains pe vs s₀ s) (h' : j.Retains pe vs s s') :
    j.Retains pe vs s₀ s' :=
  ⟨fun v hv => (h'.buffer v hv).trans (h.buffer v hv), h'.file.trans h.file,
    fun hs => h'.records (h.records hs)⟩

theorem Retains.mono (h : j.Retains pe vs s₀ s) (hvs : vs ⊆ vs') : j.Retains pe vs' s₀ s :=
  ⟨fun v hv => h.buffer v fun hmem => hv (hvs hmem), h.file, h.records⟩

theorem HasRecords.of_eq (hs : j.HasRecords pe s₀) (hglobals : s.globals = s₀.globals) :
    j.HasRecords pe s := by
  rw [HasRecords, hglobals]
  exact hs

theorem Stored.present {k : Kind} {rank : Nat} {M : Nat → Nat → α} {file : Nat → Option α}
    (hstored : j.Stored k pe rank M file) : j.Present k pe rank file :=
  fun n hn => by simp [hstored n hn]

/-- A process after a read. -/
def loaded (j : Job) (pe : Nat) (k : Kind) (data : Var) (rank : Nat) (s : Memory α) : Memory α :=
  { s with
    toArrays := s.toArrays.set data fun n => if n < j.share k pe then
        (s.file (j.slot k rank + n)).getD (s.buffer data n)
      else s.buffer data n
    globals := s.globals.next (j.share k pe) }

theorem access_r_eq_some {k : Kind} {data : Var} {rank : Nat} :
    j.access pe ⟨k, .r, data, rank⟩ s = some s' ↔
      (filled (j.share k pe) s.globals.doubles = j.share k pe ∧ j.Present k pe rank s.file) ∧
        s' = j.loaded pe k data rank s := by
  change (if _ then some (j.loaded pe k data rank s) else none) = some s' ↔ _
  rw [Option.ite_none_right_eq_some, Option.some.injEq, eq_comm (a := s')]
  exact Iff.rfl

/-- A read of a rank that is there. -/
theorem access_r (hwhole : j.Whole) (hpe : pe < j.noPe) {k : Kind} (data : Var) {rank : Nat}
    (hs : j.HasRecords pe s) (hpresent : j.Present k pe rank s.file) :
    ∃ s', j.access pe ⟨k, .r, data, rank⟩ s = some s' ∧ j.Retains pe [data] s s' ∧
      ∀ n < j.share k pe, s.file (j.slot k rank + n) = some (s'.buffer data n) := by
  obtain ⟨r, t, hreach, hglobals⟩ := hs
  have hfilled : filled (j.share k pe) s.globals.doubles = j.share k pe := by
    rw [hglobals, doubles_records]
    exact hwhole pe hpe r t hreach k
  refine ⟨_, access_r_eq_some.mpr ⟨⟨hfilled, hpresent⟩, rfl⟩, ⟨fun v hv => ?_, rfl, fun _ => ?_⟩,
    fun n hn => ?_⟩
  · exact Arrays.set_buffer_of_ne _ (fun heq => hv (List.mem_singleton.mpr heq)) _
  · rw [HasRecords, loaded, hglobals, next_records]
    exact hreach.left k
  · obtain ⟨x, hx⟩ := Option.isSome_iff_exists.mp (hpresent n hn)
    simp [loaded, hn, hx]

/-- The area of a process after a write. -/
def written (j : Job) (pe : Nat) (k : Kind) (data : Var) (rank : Nat) (s : Memory α) : Memory α :=
  { s with file := fun n =>
      if j.slot k rank ≤ n ∧ n < j.slot k rank + j.share k pe then
        some (s.buffer data (n - j.slot k rank))
      else s.file n }

theorem access_w (pe : Nat) (k : Kind) (data : Var) (rank : Nat) (s : Memory α) :
    j.access pe ⟨k, .w, data, rank⟩ s = some (j.written pe k data rank s) := rfl

@[simp]
theorem written_toArrays (k : Kind) (data : Var) (rank : Nat) (s : Memory α) :
    (j.written pe k data rank s).toArrays = s.toArrays := rfl

@[simp]
theorem written_globals (k : Kind) (data : Var) (rank : Nat) (s : Memory α) :
    (j.written pe k data rank s).globals = s.globals := rfl

/-- The rank that has been written. -/
theorem IsPart.stored {k : Kind} {M : Nat → Nat → α} {data : Var}
    (hdata : j.IsPart k pe M (s.buffer data)) (rank : Nat) :
    j.Stored k pe rank M (j.written pe k data rank s).file := by
  intro n hn
  simp only [written]
  rw [if_pos ⟨Nat.le_add_right _ _, by omega⟩, Nat.add_sub_cancel_left, hdata n hn]

/-- The elements of the other ranks. -/
theorem written_of_ne (h : j.Valid) {k k' : Kind} {rank rank' : Nat} {n : Nat}
    (hdistance : j.slot k' (rank' + 1) ≤ j.slot k rank ∨ j.slot k (rank + 1) ≤ j.slot k' rank')
    (hn : n < j.share k' pe) (data : Var) :
    (j.written pe k data rank s).file (j.slot k' rank' + n) = s.file (j.slot k' rank' + n) := by
  have hshare := h.share_le_distance k pe
  have hshare' := h.share_le_distance k' pe
  simp only [slot, Nat.succ_mul] at hdistance
  refine if_neg ?_
  simp only [slot]
  omega

/-- The ranks of one kind are apart. -/
theorem slot_apart (j : Job) (k : Kind) {rank rank' : Nat} (hne : rank' ≠ rank) :
    j.slot k (rank' + 1) ≤ j.slot k rank ∨ j.slot k (rank + 1) ≤ j.slot k rank' := by
  rcases Nat.lt_or_gt_of_ne hne with hlt | hgt
  · exact .inl (Nat.mul_le_mul_right _ hlt)
  · exact .inr (Nat.mul_le_mul_right _ hgt)

theorem Stored.write_ne (h : j.Valid) {k : Kind} {M : Nat → Nat → α} {rank rank' : Nat}
    (hfile : j.Stored k pe rank' M s.file) (hne : rank' ≠ rank) (data : Var) :
    j.Stored k pe rank' M (j.written pe k data rank s).file := by
  intro n hn
  rw [written_of_ne h (j.slot_apart k hne) hn]
  exact hfile n hn

section Calls

variable (h : j.Valid) {k : Kind} {L₀ : Nat → Memory α}

include h

/-- A read of a rank that the processes have written. -/
theorem read_present_does (hdvd : j.ioMod .r ∣ j.gangPe k) (hwhole : j.Whole) (data : Var)
    (rank : Nat) (hrecords : ∀ pe < j.noPe, j.HasRecords pe (L₀ pe))
    (hpresent : ∀ pe < j.noPe, j.Present k pe rank (L₀ pe).file) :
    j.Does (fun L => L = L₀) (j.ioDistmatrixNet k .r data rank) (fun L => ∀ pe < j.noPe,
      j.Retains pe [data] (L₀ pe) (L pe) ∧ ∀ n < j.share k pe,
        (L₀ pe).file (j.slot k rank + n) = some ((L pe).buffer data n)) := by
  have hread : ∀ pe, ∃ s', pe < j.noPe →
      j.access pe ⟨k, .r, data, rank⟩ (L₀ pe) = some s' ∧ j.Retains pe [data] (L₀ pe) s' ∧
        ∀ n < j.share k pe, (L₀ pe).file (j.slot k rank + n) = some (s'.buffer data n) := by
    intro pe
    by_cases hpe : pe < j.noPe
    · obtain ⟨s', hs'⟩ := access_r hwhole hpe data (hrecords pe hpe) (hpresent pe hpe)
      exact ⟨s', fun _ => hs'⟩
    · exact ⟨L₀ pe, fun hlt => absurd hlt hpe⟩
  choose S hS using hread
  refine ioDistmatrixNet_does h hdvd ?_
  rintro L rfl
  refine ⟨S, fun pe hpe => (hS pe hpe).1, fun pe hpe => ?_⟩
  simp only [if_pos hpe]
  exact (hS pe hpe).2

/-- A read of a matrix that is in the files. -/
theorem read_does (hdvd : j.ioMod .r ∣ j.gangPe k) (hwhole : j.Whole) (data : Var) (rank : Nat)
    (hrecords : ∀ pe < j.noPe, j.HasRecords pe (L₀ pe)) {V : Nat → Nat → Nat → α}
    (hfile : ∀ pe < j.noPe, j.Stored k pe rank (V pe) (L₀ pe).file) :
    j.Does (fun L => L = L₀) (j.ioDistmatrixNet k .r data rank) (fun L => ∀ pe < j.noPe,
      j.Retains pe [data] (L₀ pe) (L pe) ∧ j.IsPart k pe (V pe) ((L pe).buffer data)) := by
  refine (read_present_does h hdvd hwhole data rank hrecords fun pe hpe =>
    (hfile pe hpe).present).conseq (fun L hL => hL) fun L hL pe hpe =>
      ⟨(hL pe hpe).1, fun n hn => ?_⟩
  exact Option.some.inj (((hL pe hpe).2 n hn).symm.trans (hfile pe hpe n hn))

/-- A write puts the parts into the files. -/
theorem write_does (hdvd : j.ioMod .w ∣ j.gangPe k) (data : Var) (rank : Nat) :
    j.Does (fun L => L = L₀) (j.ioDistmatrixNet k .w data rank) (fun L => ∀ pe < j.noPe,
      L pe = j.written pe k data rank (L₀ pe)) := by
  refine ioDistmatrixNet_does h hdvd ?_
  rintro L rfl
  exact ⟨fun pe => j.written pe k data rank (L pe), fun pe _ => access_w pe k data rank (L pe),
    fun pe hpe => if_pos hpe⟩

end Calls

end Job

end CacheTrace.Madbench
