import CacheTrace.Interpose.Kernel

/-!
# What a record says about its access

A record should name the bytes that the real call transferred: their start and their number.
The wrappers ask for the position after the call and pass on the size that was requested. So a
record is wrong about every transfer, a call that transfers nothing is logged as well, and a
stream transfer whose size is a multiple of `2^64` is not logged. What is left are the calls
that asked for nothing (`describes_iff`).
-/

namespace CacheTrace.Interpose

open Log

variable {F : Type}

/-- What a wrapped call was asked for and what the real call did. -/
structure Request where
  type : AccessType
  p : Nat
  fd : Nat
  /-- The bytes that the wrapper passes to its handler. -/
  bytes : Nat
  /-- The bytes that the real call transferred. -/
  k : Nat

def Event.request : Event F → Option Request
  | .read p fd size k => some ⟨.read, p, fd, size, k⟩
  | .write p fd size k => some ⟨.write, p, fd, size, k⟩
  | .fread p fd size nmemb k => some ⟨.read, p, fd, streamBytes size nmemb, k⟩
  | .fwrite p fd size nmemb k => some ⟨.write, p, fd, streamBytes size nmemb, k⟩
  | _ => none

/-- The log grew by one record of `k` bytes at position `pos`, and not at all when `k` is
zero. -/
structure Describes (st st' : State F) (pos k : Nat) : Prop where
  logged : 0 < k → ∃ a, st'.log = st.log ++ [a] ∧ a.record.offset = (pos : Int) ∧ a.record.bytes = k
  silent : k = 0 → st'.log = st.log

variable [DecidableEq F]

/-- Every wrapped call is a transfer. -/
theorem transfer_of_request {st st' : State F} {e : Event F} {q : Request}
    (he : e.request = some q) (h : step st e = some st') :
    ∃ limit, transfer st q.type q.p q.fd limit q.bytes q.k = some st' := by
  cases e with
  | openFile p t => cases he
  | closeFd p fd => cases he
  | lseek p fd pos => cases he
  | read p fd size k =>
    cases he
    exact ⟨_, h⟩
  | write p fd size k =>
    cases he
    exact ⟨_, h⟩
  | fread p fd size nmemb k =>
    cases he
    exact ⟨_, h⟩
  | fwrite p fd size nmemb k =>
    cases he
    exact ⟨_, h⟩

/-- The log after a wrapped call on a regular file. -/
theorem log_of_request {st st' : State F} {e : Event F} {q : Request} {d : Desc F} {f : F}
    (he : e.request = some q) (hd : lookup (st.table q.p) q.fd = some d)
    (ht : d.target = .file f) (hfd : 2 < q.fd) (h : step st e = some st') :
    st'.log = if q.bytes = 0 then st.log else
      st.log ++ [⟨⟨q.type, q.p, q.fd, ((d.pos + q.k : Nat) : Int), q.bytes⟩, f, d.pos, q.k⟩] := by
  obtain ⟨limit, htransfer⟩ := transfer_of_request he h
  obtain ⟨d', hd', hcase⟩ := transfer_eq_some htransfer
  obtain rfl : d = d' := Option.some.inj (hd.symm.trans hd')
  rcases hcase with ⟨hdev, -⟩ | ⟨f', ht', -, -, -, -, rfl⟩
  · rw [ht] at hdev
    cases hdev
  obtain rfl : f = f' := by
    rw [ht] at ht'
    exact Target.file.inj ht'
  have hhook : hook q.type q.p q.fd d.target (d.pos + q.k) q.bytes =
      handleAccess q.type q.p q.fd ((d.pos + q.k : Nat) : Int) q.bytes := by
    unfold hook
    rw [if_pos (by simpa [ht, regFd] using hfd)]
    cases q.type with
    | read => rfl
    | write => rfl
  simp only [afterTransfer, hhook]
  split_ifs with hzero
  · rw [hzero, handleAccess, if_pos (by omega)]
  · rw [handleAccess, if_neg (by omega)]

/-- **When a record describes its access.** -/
theorem describes_iff {st st' : State F} {e : Event F} {q : Request} {d : Desc F} {f : F}
    (he : e.request = some q) (hd : lookup (st.table q.p) q.fd = some d)
    (ht : d.target = .file f) (hfd : 2 < q.fd) (h : step st e = some st') :
    Describes st st' d.pos q.k ↔ q.k = 0 ∧ q.bytes = 0 := by
  have hlog := log_of_request he hd ht hfd h
  constructor
  · intro hdesc
    rcases Nat.eq_zero_or_pos q.k with hk | hk
    · refine ⟨hk, ?_⟩
      by_contra hbytes
      rw [if_neg hbytes, hdesc.silent hk] at hlog
      simp at hlog
    · -- the logged position is that after the transfer
      obtain ⟨a, ha, hoffset, -⟩ := hdesc.logged hk
      rw [ha] at hlog
      split_ifs at hlog with hbytes
      · simp at hlog
      · obtain rfl := List.singleton_inj.mp (List.append_cancel_left hlog)
        simp only at hoffset
        omega
  · rintro ⟨hk, hbytes⟩
    rw [if_pos hbytes] at hlog
    exact ⟨fun hpos => by omega, fun _ => hlog⟩

/-- A file of 100 bytes is opened, and 10 of them are read. -/
theorem read_ten_logged :
    ∃ st st' : State Unit,
      Transition.run step (init fun _ => 100) [.openFile 0 (.file ())] = some st ∧
      lookup (st.table 0) 3 = some ⟨.file (), 0⟩ ∧ step st (.read 0 3 10 10) = some st' ∧
      st'.log.map Access.record = [⟨.read, 0, 3, 10, 10⟩] ∧ ¬ Describes st st' 0 10 := by
  refine ⟨_, _, rfl, rfl, rfl, rfl, ?_⟩
  intro hdesc
  obtain ⟨a, ha, hoffset, -⟩ := hdesc.logged (by decide)
  obtain rfl := List.singleton_inj.mp ha
  cases hoffset

/-- A call that asks for nothing leaves no record. -/
theorem describes_read_nothing :
    ∃ st st' : State Unit,
      Transition.run step (init fun _ => 100) [.openFile 0 (.file ())] = some st ∧
      step st (.read 0 3 0 0) = some st' ∧ Describes st st' 0 0 := by
  refine ⟨_, _, rfl, rfl, ?_⟩
  exact (describes_iff (e := .read 0 3 0 0) rfl (d := ⟨.file (), 0⟩) rfl rfl (by decide) rfl).mpr
    ⟨rfl, rfl⟩

end CacheTrace.Interpose
