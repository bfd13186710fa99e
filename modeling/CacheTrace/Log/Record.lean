import CacheTrace.Text.Lines
import Mathlib.Algebra.Ring.Int.Defs
import Mathlib.Algebra.Ring.Nat

/-!
# Records of the access log

`data_gen/lib/handler.cpp` gets the descriptor, the file position and the size of an
access. It drops the access when the position is negative, the size zero or the descriptor
a standard stream, and otherwise appends one line of five numbers to `ACCESS_LOG`: the
type, the process, the descriptor, the position and the size.

An `Entry` is such a line of numbers without any bound on them; `entryLine` prints it in
decimal. The line of `write_log` is the line of an entry as soon as the position is not
negative, since `%lu` prints a position modulo `2^64` (`logLine_eq`).
-/

namespace CacheTrace.Log

open Text

/-! ## Lines of five numbers -/

/-- The five numbers of a line. -/
structure Entry where
  type : Int
  pid : Int
  fd : Int
  offset : Int
  size : Int
  deriving DecidableEq, Repr

def Entry.numbers (e : Entry) : List Int := [e.type, e.pid, e.fd, e.offset, e.size]

/-- The line of an entry, in decimal. -/
def entryLine (e : Entry) : Text := joinFields ',' (e.numbers.map showInt) ++ ['\n']

theorem not_mem_entry_fields {e : Entry} :
    ∀ f ∈ e.numbers.map showInt, ',' ∉ f ∧ '\n' ∉ f := by
  intro f hf
  obtain ⟨z, -, rfl⟩ := List.mem_map.mp hf
  exact not_mem_showInt z

theorem newline_not_mem_entry (e : Entry) : '\n' ∉ joinFields ',' (e.numbers.map showInt) :=
  newline_not_mem_joinFields fun f hf => (not_mem_entry_fields f hf).2

theorem entryLine_complete (e : Entry) : Complete (entryLine e) :=
  complete_line (newline_not_mem_entry e)

/-- A file of entry lines is read back line by line. -/
theorem readlines_entryLines {ι : Type} (is : List ι) (e : ι → Entry) :
    readlines (is.map fun i => entryLine (e i)).flatten = is.map fun i => entryLine (e i) := by
  apply readlines_flatten
  intro l hl
  obtain ⟨i, -, rfl⟩ := List.mem_map.mp hl
  exact entryLine_complete (e i)

/-- The fields of a line. The newline stays with the last one. -/
theorem split_entryLine (e : Entry) :
    split ',' (entryLine e) =
      [showInt e.type, showInt e.pid, showInt e.fd, showInt e.offset,
        showInt e.size ++ ['\n']] := by
  have htail : entryLine e = joinFields ',' [showInt e.type, showInt e.pid, showInt e.fd,
      showInt e.offset, showInt e.size ++ ['\n']] :=
    joinFields_append_tail ',' [showInt e.type, showInt e.pid, showInt e.fd, showInt e.offset]
      (showInt e.size) ['\n']
  rw [htail, split_joinFields (by simp)]
  intro f hf
  have hsep : ∀ z, ',' ∉ showInt z := fun z => (not_mem_showInt z).1
  simp only [List.mem_cons, List.not_mem_nil, or_false] at hf
  rcases hf with rfl | rfl | rfl | rfl | rfl
  · exact hsep _
  · exact hsep _
  · exact hsep _
  · exact hsep _
  · simp [hsep]

/-! ## Records -/

/-- The first argument of `write_log`: `0` for a read, `1` for a write. -/
inductive AccessType where
  | read
  | write
  deriving DecidableEq, Repr

def AccessType.code : AccessType → Int
  | .read => 0
  | .write => 1

/-- The arguments of `write_log`. -/
structure Record where
  type : AccessType
  pid : Int
  fd : Int
  offset : Int
  bytes : Nat
  deriving DecidableEq, Repr

/-- The five numbers of a record. -/
def Record.entry (r : Record) : Entry := ⟨r.type.code, r.pid, r.fd, r.offset, r.bytes⟩

/-- The line of `write_log`: `fprintf(fp, "%d,%d,%d,%lu,%zu\n", type, pid, fd, offset, bytes)`,
where `offset` is a signed 64-bit number. -/
def logLine (r : Record) : Text :=
  joinFields ',' [showInt r.type.code, showInt r.pid, showInt r.fd,
    showNat (r.offset % 2 ^ 64).toNat, showNat r.bytes] ++ ['\n']

theorem logLine_complete (r : Record) : Complete (logLine r) := by
  have hentry : logLine r =
      entryLine ⟨r.type.code, r.pid, r.fd, (r.offset % 2 ^ 64).toNat, r.bytes⟩ := by
    simp only [logLine, entryLine, Entry.numbers, List.map_cons, List.map_nil, showInt_natCast]
  rw [hentry]
  exact entryLine_complete _

/-- A position that is not negative is printed as it is. -/
theorem logLine_eq {r : Record} (h0 : 0 ≤ r.offset) (h63 : r.offset < 2 ^ 63) :
    logLine r = entryLine r.entry := by
  have hmod : ((r.offset % 2 ^ 64).toNat : Int) = r.offset := by omega
  have hoffset : showNat (r.offset % 2 ^ 64).toNat = showInt r.offset := by
    rw [← showInt_natCast, hmod]
  rw [logLine, hoffset, ← showInt_natCast r.bytes]
  rfl

/-- What `write_log` did: the log after it, the text on the standard output of the program,
and the returned `bool`, which is `true` exactly when the file could not be opened. -/
structure WriteLog where
  log : Text
  stdout : Text
  failed : Bool

def writeLog (opens : Bool) (log : Text) (r : Record) : WriteLog :=
  if opens then ⟨log ++ logLine r, [], false⟩ else ⟨log, "Unable to open file\n".toList, true⟩

/-! ## The handlers -/

/-- The common body of `handle_read` and `handle_write`: the record that is written between
`get_sem` and `post_sem`, `none` when the sanitization check fails. -/
def handleAccess (type : AccessType) (pid fd pos : Int) (bytes : Nat) : Option Record :=
  if pos < 0 ∨ bytes ≤ 0 ∨ fd ≤ 2 then none else some ⟨type, pid, fd, pos, bytes⟩

def handleRead (pid fd pos : Int) (bytes : Nat) : Option Record :=
  handleAccess .read pid fd pos bytes

def handleWrite (pid fd pos : Int) (bytes : Nat) : Option Record :=
  handleAccess .write pid fd pos bytes

/-- The records that reach `write_log` with arguments of the types of the source. -/
structure Record.Valid (r : Record) : Prop where
  fd_gt : 2 < r.fd
  offset_nonneg : 0 ≤ r.offset
  offset_lt : r.offset < 2 ^ 63
  bytes_pos : 0 < r.bytes
  bytes_lt : r.bytes < 2 ^ 64

theorem handleAccess_eq_some {type : AccessType} {pid fd pos : Int} {bytes : Nat} {r : Record} :
    handleAccess type pid fd pos bytes = some r ↔
      0 ≤ pos ∧ 0 < bytes ∧ 2 < fd ∧ r = ⟨type, pid, fd, pos, bytes⟩ := by
  unfold handleAccess
  split_ifs with h
  · constructor
    · intro h'
      cases h'
    · rintro ⟨h1, h2, h3, -⟩
      omega
  · constructor
    · intro h'
      cases h'
      exact ⟨by omega, by omega, by omega, rfl⟩
    · rintro ⟨-, -, -, rfl⟩
      rfl

theorem handleAccess_valid {type : AccessType} {pid fd pos : Int} {bytes : Nat} {r : Record}
    (h : handleAccess type pid fd pos bytes = some r) (hpos : pos < 2 ^ 63)
    (hbytes : bytes < 2 ^ 64) : r.Valid := by
  obtain ⟨h0, hb, hfd, rfl⟩ := handleAccess_eq_some.mp h
  exact ⟨hfd, h0, hpos, hb, hbytes⟩

theorem Record.Valid.line_eq {r : Record} (h : r.Valid) : logLine r = entryLine r.entry :=
  logLine_eq h.offset_nonneg h.offset_lt

end CacheTrace.Log
