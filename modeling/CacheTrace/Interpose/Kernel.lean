import CacheTrace.Log.Record
import CacheTrace.Transition.Run
import Mathlib.Logic.Function.Basic

/-!
# Interposed file accesses

`data_gen/lib/frontend.cpp` replaces `read`, `write`, `fread` and `fwrite`. Each wrapper
makes the real call and then, when the descriptor is a regular file and not a standard
stream, hands the descriptor, the file position *after* the call and the *requested* number
of bytes to the handler.

Here the wrappers run on a model of the kernel: every process has a descriptor table, `open`
returns the lowest free descriptor, and an open file has a position that transfers move. The
log keeps, next to each record, the file and the bytes that the real call transferred. A
position is an `off_t`, so no call leaves it at `2^63` or beyond. A stream is its descriptor
here: the two have one position, which is where `ftell` and `lseek` find it, and the buffer
that stdio keeps between them is not modelled.
-/

namespace CacheTrace.Interpose

open Log

/-! ## Descriptor tables -/

/-- What a descriptor is open on. -/
inductive Target (F : Type) where
  | device
  | file (f : F)
  deriving DecidableEq, Repr

structure Desc (F : Type) where
  target : Target F
  pos : Nat
  deriving DecidableEq, Repr

abbrev Table (F : Type) := List (Option (Desc F))

variable {F : Type}

def lookup (t : Table F) (fd : Nat) : Option (Desc F) := t[fd]?.join

def lowestFree (t : Table F) : Nat := t.findIdx Option.isNone

def install (t : Table F) (fd : Nat) (d : Desc F) : Table F :=
  if fd < t.length then t.set fd (some d) else t ++ [some d]

theorem lowestFree_le (t : Table F) : lowestFree t ≤ t.length := List.findIdx_le_length

theorem lookup_lowestFree (t : Table F) : lookup t (lowestFree t) = none := by
  by_cases h : lowestFree t < t.length
  · have hnone := List.findIdx_getElem (w := h)
    rw [Option.isNone_iff_eq_none] at hnone
    rw [lookup, List.getElem?_eq_getElem h]
    exact hnone
  · rw [lookup, List.getElem?_eq_none (by omega)]
    rfl

theorem lookup_install_self {t : Table F} {fd : Nat} (h : fd ≤ t.length) (d : Desc F) :
    lookup (install t fd d) fd = some d := by
  unfold lookup install
  split_ifs with hlt
  · rw [List.getElem?_set_self hlt]
    rfl
  · obtain rfl : fd = t.length := by omega
    rw [List.getElem?_append_right le_rfl]
    simp

theorem lookup_install_of_ne {t : Table F} {fd fd' : Nat} (h : fd ≤ t.length) (hne : fd' ≠ fd)
    (d : Desc F) : lookup (install t fd d) fd' = lookup t fd' := by
  unfold lookup install
  split_ifs with hlt
  · rw [List.getElem?_set_ne (Ne.symm hne)]
  · obtain rfl : fd = t.length := by omega
    by_cases hlt' : fd' < t.length
    · rw [List.getElem?_append_left hlt']
    · rw [List.getElem?_eq_none (by simp; omega), List.getElem?_eq_none (by omega)]

theorem lookup_lt_length {t : Table F} {fd : Nat} {d : Desc F} (h : lookup t fd = some d) :
    fd < t.length := by
  by_contra hlt
  rw [lookup, List.getElem?_eq_none (by omega)] at h
  cases h

theorem lookup_set_self {t : Table F} {fd : Nat} {d : Desc F} (h : lookup t fd = some d)
    (x : Option (Desc F)) : lookup (t.set fd x) fd = x := by
  rw [lookup, List.getElem?_set_self (lookup_lt_length h)]
  rfl

theorem lookup_set_of_ne {t : Table F} {fd fd' : Nat} (hne : fd' ≠ fd) (x : Option (Desc F)) :
    lookup (t.set fd x) fd' = lookup t fd' := by
  rw [lookup, List.getElem?_set_ne (Ne.symm hne), lookup]

/-- What a descriptor is open on, without its position. -/
def targetOf (t : Table F) (fd : Nat) : Option (Target F) := (lookup t fd).map Desc.target

theorem targetOf_install (t : Table F) (fd : Nat) (d : Desc F) :
    targetOf (install t (lowestFree t) d) fd =
      if fd = lowestFree t then some d.target else targetOf t fd := by
  unfold targetOf
  split_ifs with h
  · rw [h, lookup_install_self (lowestFree_le t)]
    rfl
  · rw [lookup_install_of_ne (lowestFree_le t) h]

theorem targetOf_close {t : Table F} {fd : Nat} {d : Desc F} (h : lookup t fd = some d)
    (fd' : Nat) : targetOf (t.set fd none) fd' = if fd' = fd then none else targetOf t fd' := by
  unfold targetOf
  split_ifs with hne
  · rw [hne, lookup_set_self h]
    rfl
  · rw [lookup_set_of_ne hne]

/-- Moving a position does not change what is open. -/
theorem targetOf_setPos {t : Table F} {fd : Nat} {d : Desc F} (h : lookup t fd = some d)
    (pos fd' : Nat) : targetOf (t.set fd (some ⟨d.target, pos⟩)) fd' = targetOf t fd' := by
  unfold targetOf
  by_cases hne : fd' = fd
  · rw [hne, lookup_set_self h, h]
    rfl
  · rw [lookup_set_of_ne hne]

theorem targetOf_lowestFree (t : Table F) : targetOf t (lowestFree t) = none := by
  rw [targetOf, lookup_lowestFree]
  rfl

/-! ## The wrappers -/

/-- `reg_fd`: not a standard stream, and `fstat` says that it is a regular file. -/
def regFd (fd : Nat) : Target F → Bool
  | .device => false
  | .file _ => 2 < fd

/-- What a wrapper hands to its handler after the real call. `pos` is the position that
`lseek(fd, 0, SEEK_CUR)` or `ftell(stream)` then returns. -/
def hook (type : AccessType) (pid fd : Nat) (t : Target F) (pos bytes : Nat) : Option Record :=
  if regFd fd t = true then
    match type with
    | .read => handleRead pid fd pos bytes
    | .write => handleWrite pid fd pos bytes
  else none

/-- The argument `size*nmemb` of the stream wrappers, a `size_t` product. -/
def streamBytes (size nmemb : Nat) : Nat := size * nmemb % 2 ^ 64

/-! ## The system -/

/-- A logged access: the record, and the bytes `start, …, start + count - 1` of the file that
the real call transferred. -/
structure Access (F : Type) where
  record : Record
  file : F
  start : Nat
  count : Nat

structure State (F : Type) where
  size : F → Nat
  table : Nat → Table F
  log : List (Access F)

inductive Event (F : Type) where
  | openFile (p : Nat) (t : Target F)
  | closeFd (p fd : Nat)
  | lseek (p fd pos : Nat)
  | read (p fd size k : Nat)
  | write (p fd size k : Nat)
  | fread (p fd size nmemb k : Nat)
  | fwrite (p fd size nmemb k : Nat)

/-- The three standard streams are open, nothing is logged. -/
def init (size : F → Nat) : State F :=
  ⟨size, fun _ => List.replicate 3 (some ⟨.device, 0⟩), []⟩

def State.setTable (st : State F) (p : Nat) (t : Table F) : State F :=
  { st with table := Function.update st.table p t }

@[simp] theorem State.setTable_self (st : State F) (p : Nat) (t : Table F) :
    (st.setTable p t).table p = t := Function.update_self ..

theorem State.setTable_of_ne (st : State F) {p q : Nat} (h : q ≠ p) (t : Table F) :
    (st.setTable p t).table q = st.table q := Function.update_of_ne h ..

variable [DecidableEq F]

/-- The file sizes after a transfer of `k` bytes from position `pos` on. -/
def sizeAfter (size : F → Nat) (type : AccessType) (f : F) (pos k : Nat) : F → Nat :=
  if type = .write ∧ 0 < k then Function.update size f (max (size f) (pos + k)) else size

/-- The state after the real call transferred `k` bytes of file `f` through descriptor `d`
and the wrapper logged `bytes` bytes. -/
def afterTransfer (st : State F) (type : AccessType) (p fd : Nat) (d : Desc F) (f : F)
    (bytes k : Nat) : State F where
  size := sizeAfter st.size type f d.pos k
  table := Function.update st.table p ((st.table p).set fd (some ⟨d.target, d.pos + k⟩))
  log := match hook type p fd d.target (d.pos + k) bytes with
    | none => st.log
    | some r => st.log ++ [⟨r, f, d.pos, k⟩]

theorem table_afterTransfer (st : State F) (type : AccessType) (p fd : Nat) (d : Desc F) (f : F)
    (bytes k : Nat) :
    (afterTransfer st type p fd d f bytes k).table =
      (st.setTable p ((st.table p).set fd (some ⟨d.target, d.pos + k⟩))).table := rfl

/-- A wrapped call that may transfer up to `limit` bytes and transfers `k`: fewer at the end
of the file, after an error or a signal. -/
def transfer (st : State F) (type : AccessType) (p fd limit bytes k : Nat) : Option (State F) :=
  match lookup (st.table p) fd with
  | none => none
  | some d => match d.target with
    | .device => some st
    | .file f =>
      if k ≤ limit ∧ bytes < 2 ^ 64 ∧ d.pos + k < 2 ^ 63 ∧
          (type = .read → k ≤ st.size f - d.pos) then
        some (afterTransfer st type p fd d f bytes k)
      else none

def step (st : State F) : Event F → Option (State F)
  | .openFile p t =>
    some (st.setTable p (install (st.table p) (lowestFree (st.table p)) ⟨t, 0⟩))
  | .closeFd p fd =>
    match lookup (st.table p) fd with
    | none => none
    | some _ => some (st.setTable p ((st.table p).set fd none))
  | .lseek p fd pos =>
    match lookup (st.table p) fd with
    | none => none
    | some d =>
      if pos < 2 ^ 63 then
        some (st.setTable p ((st.table p).set fd (some ⟨d.target, pos⟩)))
      else none
  | .read p fd size k => transfer st .read p fd size size k
  | .write p fd size k => transfer st .write p fd size size k
  | .fread p fd size nmemb k => transfer st .read p fd (size * nmemb) (streamBytes size nmemb) k
  | .fwrite p fd size nmemb k => transfer st .write p fd (size * nmemb) (streamBytes size nmemb) k

/-- The lines that the run leaves in `ACCESS_LOG`. -/
def State.lines (st : State F) : List Text := st.log.map fun a => logLine a.record

/-- The contents of `ACCESS_LOG`. -/
def State.logText (st : State F) : Text := st.lines.flatten

/-! ## What a step does -/

theorem transfer_eq_some {st st' : State F} {type : AccessType} {p fd limit bytes k : Nat}
    (h : transfer st type p fd limit bytes k = some st') :
    ∃ d, lookup (st.table p) fd = some d ∧
      ((d.target = .device ∧ st' = st) ∨
        ∃ f, d.target = .file f ∧ k ≤ limit ∧ bytes < 2 ^ 64 ∧ d.pos + k < 2 ^ 63 ∧
          (type = .read → k ≤ st.size f - d.pos) ∧
          st' = afterTransfer st type p fd d f bytes k) := by
  unfold transfer at h
  split at h
  · cases h
  · rename_i d hd
    refine ⟨d, hd, ?_⟩
    split at h
    · rename_i ht
      cases h
      exact Or.inl ⟨ht, rfl⟩
    · rename_i f ht
      split_ifs at h with hk
      cases h
      exact Or.inr ⟨f, ht, hk.1, hk.2.1, hk.2.2.1, hk.2.2.2, rfl⟩

theorem lseek_eq_some {st st' : State F} {p fd pos : Nat}
    (h : step st (.lseek p fd pos) = some st') :
    ∃ d, lookup (st.table p) fd = some d ∧ pos < 2 ^ 63 ∧
      st' = st.setTable p ((st.table p).set fd (some ⟨d.target, pos⟩)) := by
  simp only [step] at h
  split at h
  · cases h
  · rename_i d hd
    split_ifs at h with hpos
    exact ⟨d, hd, hpos, (Option.some.inj h).symm⟩

/-- The log after a transfer: nothing new, or one valid record with the position after the
transfer. -/
theorem log_afterTransfer (st : State F) {type : AccessType} {p fd : Nat} {d : Desc F} {f : F}
    {bytes k : Nat} (ht : d.target = .file f) (hbytes : bytes < 2 ^ 64)
    (hpos : d.pos + k < 2 ^ 63) :
    (afterTransfer st type p fd d f bytes k).log = st.log ∨
      ∃ r : Record, r.Valid ∧ 2 < fd ∧ 0 < bytes ∧
        r = ⟨type, p, fd, ((d.pos + k : Nat) : Int), bytes⟩ ∧
        (afterTransfer st type p fd d f bytes k).log = st.log ++ [⟨r, f, d.pos, k⟩] := by
  unfold afterTransfer
  dsimp only
  split
  · exact Or.inl rfl
  · rename_i r hr
    refine Or.inr ⟨r, ?_⟩
    unfold hook at hr
    split_ifs at hr with hreg
    have hfd : 2 < fd := by simpa [ht, regFd] using hreg
    have hr' : handleAccess type p fd ((d.pos + k : Nat) : Int) bytes = some r := by
      cases type with
      | read => exact hr
      | write => exact hr
    obtain ⟨-, hb, -, hrec⟩ := handleAccess_eq_some.mp hr'
    refine ⟨handleAccess_valid hr' ?_ hbytes, hfd, hb, hrec, rfl⟩
    exact_mod_cast hpos

/-- A `read` of a regular file that the wrapper logs. -/
theorem step_read_logged {st : State F} {p fd : Nat} {d : Desc F} {f : F} (size k : Nat)
    (hd : lookup (st.table p) fd = some d) (ht : d.target = .file f) (hfd : 2 < fd)
    (hsize : 0 < size) (hbytes : size < 2 ^ 64) (hk : k ≤ size) (hpos : d.pos + k < 2 ^ 63)
    (hfit : k ≤ st.size f - d.pos) :
    ∃ st', step st (.read p fd size k) = some st' ∧ st'.size = st.size ∧
      st'.table = (st.setTable p ((st.table p).set fd (some ⟨d.target, d.pos + k⟩))).table ∧
      st'.log = st.log ++ [⟨⟨.read, p, fd, ((d.pos + k : Nat) : Int), size⟩, f, d.pos, k⟩] := by
  refine ⟨afterTransfer st .read p fd d f size k, ?_, ?_, rfl, ?_⟩
  · simp only [step, transfer, hd, ht]
    rw [if_pos ⟨hk, hbytes, hpos, fun _ => hfit⟩]
  · simp [afterTransfer, sizeAfter]
  · have hhook : hook .read p fd d.target (d.pos + k) size =
        some ⟨.read, p, fd, ((d.pos + k : Nat) : Int), size⟩ := by
      rw [hook, if_pos (by simpa [ht, regFd] using hfd)]
      exact handleAccess_eq_some.mpr ⟨Int.natCast_nonneg _, hsize, by exact_mod_cast hfd, rfl⟩
    simp only [afterTransfer, hhook]

/-- Every event is an `open`, a `close`, a seek or a transfer. -/
theorem step_cases {st st' : State F} {e : Event F} (h : step st e = some st') :
    (∃ p t, e = .openFile p t ∧
        st' = st.setTable p (install (st.table p) (lowestFree (st.table p)) ⟨t, 0⟩)) ∨
    (∃ p fd d, e = .closeFd p fd ∧ lookup (st.table p) fd = some d ∧
        st' = st.setTable p ((st.table p).set fd none)) ∨
    (∃ p fd pos d, e = .lseek p fd pos ∧ lookup (st.table p) fd = some d ∧
        st' = st.setTable p ((st.table p).set fd (some ⟨d.target, pos⟩))) ∨
    ∃ type p fd limit bytes k, transfer st type p fd limit bytes k = some st' := by
  cases e with
  | openFile p t => exact Or.inl ⟨p, t, rfl, (Option.some.inj h).symm⟩
  | closeFd p fd =>
    simp only [step] at h
    split at h
    · cases h
    · rename_i d hd
      exact Or.inr (Or.inl ⟨p, fd, d, rfl, hd, (Option.some.inj h).symm⟩)
  | lseek p fd pos =>
    obtain ⟨d, hd, -, hst⟩ := lseek_eq_some h
    exact Or.inr (Or.inr (Or.inl ⟨p, fd, pos, d, rfl, hd, hst⟩))
  | read p fd size k => exact Or.inr (Or.inr (Or.inr ⟨_, _, _, _, _, _, h⟩))
  | write p fd size k => exact Or.inr (Or.inr (Or.inr ⟨_, _, _, _, _, _, h⟩))
  | fread p fd size nmemb k => exact Or.inr (Or.inr (Or.inr ⟨_, _, _, _, _, _, h⟩))
  | fwrite p fd size nmemb k => exact Or.inr (Or.inr (Or.inr ⟨_, _, _, _, _, _, h⟩))

end CacheTrace.Interpose
