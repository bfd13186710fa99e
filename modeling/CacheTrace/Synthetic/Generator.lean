import CacheTrace.Log.Record
import Mathlib.Data.List.OfFn
import Mathlib.Logic.Function.Basic

/-!
# The line generator of the synthetic workloads

`data_gen/synthetic/seq.py` and `data_gen/synthetic/random_reuse.py` have the functions
`init_dicts` and `generate_line` in common. `init_dicts` draws the descriptors, with
possible repeats, and one size for every descriptor drawn; `generate_line` draws one of the
descriptors and a process, prints the line and moves the offset of the descriptor.

The outcome of every random call is a field of `Choices`. A dictionary is a partial
function; `none` stands for the exception of a missing key or index.
-/

namespace CacheTrace.Synthetic

open Text Log

/-- The outcomes of the random calls of one run with `nrFiles` files. The calls of
`generate_line` are numbered by the line they are made for. -/
structure Choices (nrFiles : Nat) where
  /-- `randint(1000, 2000)` for each file. -/
  fd : Fin nrFiles → Nat
  /-- `randint(4096, 1048576)` for each key. -/
  size : Nat → Nat
  size_ge : ∀ key, 4096 ≤ size key
  /-- The index that `random.choice(fd_list)` takes. -/
  choice : Nat → Fin nrFiles
  /-- `randint(1000, 5000)`. -/
  pid : Nat → Nat

/-- The module variables `fd_list`, `dict_fd_offset` and `dict_fd_size`. -/
structure Globals where
  fdList : List Nat
  dictFdOffset : Nat → Option Nat
  dictFdSize : Nat → Option Nat

def initDicts {nrFiles : Nat} (c : Choices nrFiles) : Globals :=
  let g := (List.ofFn c.fd).foldl
    (fun g fd => { g with
      fdList := g.fdList ++ [fd]
      dictFdOffset := Function.update g.dictFdOffset fd (some 0) })
    (⟨[], fun _ => none, fun _ => none⟩ : Globals)
  { g with dictFdSize := fun key => (g.dictFdOffset key).map fun _ => c.size key }

def READ : Text := ['0']

def generateLine (stride : Nat) (g : Globals) (choice pid : Nat) : Option (Text × Globals) := do
  let fd ← g.fdList[choice]?
  let offset ← g.dictFdOffset fd
  let size ← g.dictFdSize fd
  let retLine := READ ++ [',']
  let retLine := retLine ++ showNat pid ++ [',']
  let retLine := retLine ++ showNat fd ++ [',']
  let retLine := retLine ++ showNat offset ++ [',']
  let retLine := retLine ++ showNat size
  return (retLine,
    { g with dictFdOffset := Function.update g.dictFdOffset fd (some (offset + size * stride)) })

/-- The line that `write_outfile` appends. -/
def outline (line : Text) : Text := line ++ ['\n']

/-! ## What the functions compute -/

variable {nrFiles : Nat} (c : Choices nrFiles)

/-- A descriptor that was drawn. -/
def Choices.Drawn (fd : Nat) : Prop := fd ∈ List.ofFn c.fd

instance (fd : Nat) : Decidable (c.Drawn fd) :=
  inferInstanceAs (Decidable (fd ∈ List.ofFn c.fd))

/-- The descriptor drawn for line `p`. -/
def Choices.fdAt (p : Nat) : Nat := c.fd (c.choice p)

theorem Choices.drawn_fdAt (p : Nat) : c.Drawn (c.fdAt p) :=
  List.mem_ofFn.mpr ⟨c.choice p, rfl⟩

/-- The variables after `init_dicts` and some number of calls of `generate_line`: the drawn
descriptors are the keys of both dictionaries, `offset` gives the current offsets. -/
def globalsWith (offset : Nat → Nat) : Globals where
  fdList := List.ofFn c.fd
  dictFdOffset fd := if c.Drawn fd then some (offset fd) else none
  dictFdSize fd := if c.Drawn fd then some (c.size fd) else none

theorem foldl_append_fd (fds : List Nat) (g : Globals) :
    fds.foldl (fun g fd => { g with
      fdList := g.fdList ++ [fd]
      dictFdOffset := Function.update g.dictFdOffset fd (some 0) }) g =
    ⟨g.fdList ++ fds, fun fd => if fd ∈ fds then some 0 else g.dictFdOffset fd,
      g.dictFdSize⟩ := by
  induction fds generalizing g with
  | nil => simp
  | cons fd fds ih =>
    rw [List.foldl_cons, ih]
    simp only [List.append_assoc, List.singleton_append, Globals.mk.injEq, true_and, and_true]
    funext k
    by_cases hk : k = fd
    · simp [hk]
    · simp [hk, Function.update_of_ne]

theorem initDicts_eq : initDicts c = globalsWith c (fun _ => 0) := by
  unfold initDicts globalsWith
  simp only [foldl_append_fd, List.nil_append, Globals.mk.injEq, true_and]
  refine ⟨rfl, ?_⟩
  funext fd
  change Option.map _ (if c.Drawn fd then some 0 else none) = _
  split_ifs <;> rfl

/-- The entry that `generate_line` prints for line `p` when the offsets are `offset`. -/
def freshEntry (offset : Nat → Nat) (p : Nat) : Entry :=
  ⟨0, c.pid p, c.fdAt p, offset (c.fdAt p), c.size (c.fdAt p)⟩

/-- The offsets after it. -/
def advance (stride : Nat) (offset : Nat → Nat) (p : Nat) : Nat → Nat :=
  Function.update offset (c.fdAt p) (offset (c.fdAt p) + c.size (c.fdAt p) * stride)

/-- The line of `generate_line`, without its newline. -/
def lineBody (e : Entry) : Text := joinFields ',' (e.numbers.map showInt)

theorem outline_lineBody (e : Entry) : outline (lineBody e) = entryLine e := rfl

/-- In every state in which its lookups succeed, `generate_line` prints the number `0`, the
process, the descriptor, its offset and its size. -/
theorem generateLine_of_lookups {stride : Nat} {g : Globals} {choice pid fd offset size : Nat}
    (hfd : g.fdList[choice]? = some fd) (hoffset : g.dictFdOffset fd = some offset)
    (hsize : g.dictFdSize fd = some size) :
    generateLine stride g choice pid = some (lineBody ⟨0, pid, fd, offset, size⟩,
      { g with dictFdOffset :=
          Function.update g.dictFdOffset fd (some (offset + size * stride)) }) := by
  have hline : READ ++ [','] ++ showNat pid ++ [','] ++ showNat fd ++ [','] ++
      showNat offset ++ [','] ++ showNat size = lineBody ⟨0, pid, fd, offset, size⟩ := by
    simp only [lineBody, Entry.numbers, List.map_cons, List.map_nil, joinFields,
      List.intercalate_cons_cons, List.intercalate_singleton, showInt_natCast, List.append_assoc]
    rfl
  unfold generateLine
  simp only [hfd, hoffset, hsize, bind, Option.bind, pure, hline]

theorem generateLine_eq (stride : Nat) (offset : Nat → Nat) (p : Nat) :
    generateLine stride (globalsWith c offset) (c.choice p) (c.pid p) =
      some (lineBody (freshEntry c offset p), globalsWith c (advance c stride offset p)) := by
  have hfd : (globalsWith c offset).fdList[(c.choice p : Nat)]? = some (c.fdAt p) := by
    simp [globalsWith, Choices.fdAt]
  have hoffset : (globalsWith c offset).dictFdOffset (c.fdAt p) = some (offset (c.fdAt p)) :=
    if_pos (c.drawn_fdAt p)
  have hsize : (globalsWith c offset).dictFdSize (c.fdAt p) = some (c.size (c.fdAt p)) :=
    if_pos (c.drawn_fdAt p)
  have hdict : Function.update (globalsWith c offset).dictFdOffset (c.fdAt p)
      (some (offset (c.fdAt p) + c.size (c.fdAt p) * stride)) =
      (globalsWith c (advance c stride offset p)).dictFdOffset := by
    funext k
    by_cases hk : k = c.fdAt p
    · subst hk
      simp [globalsWith, advance, c.drawn_fdAt p]
    · simp [globalsWith, advance, Function.update_of_ne hk]
  rw [generateLine_of_lookups hfd hoffset hsize, hdict]
  rfl

end CacheTrace.Synthetic
