import CacheTrace.Text.Lines

/-!
# The labeller

`label_gen/label.py` reads a trace, cuts it into windows of `WINDOW` lines and writes each
line of the windows `1, …, nr_windows - 1` to the output file with a label behind it: `0`
when the pair (field 2, field 3) of the line, its descriptor and its offset, occurs again
in the `LOOKAHEAD * WINDOW` lines after the window, and `1` otherwise.

The script computes the number of windows with the literal `100`, not with `WINDOW`; the
model keeps the two apart, so `main` may index the trace out of range when `WINDOW` is
larger than `100`. An exception ends the script and leaves the lines that were written
before it in the output file.
-/

namespace CacheTrace.Label

open Text

/-- The module constants `WINDOW` and `LOOKAHEAD`. -/
structure Config where
  window : Nat
  lookahead : Nat

/-- The values the script sets. -/
def config : Config := ⟨100, 2⟩

def delim : Char := ','

inductive PyError where
  | indexError
  deriving DecidableEq, Repr

/-- `xs[i]` for an index that is not negative. -/
def getItem {α : Type} (xs : List α) (i : Nat) : Except PyError α :=
  match xs[i]? with
  | some x => .ok x
  | none => .error .indexError

/-- `range(a, b)`. -/
def range (a b : Nat) : List Nat := List.range' a (b - a)

/-- `nr_windows = int((nr_lines-1)/100)`. The conversion truncates towards zero, so an empty
trace has `int(-0.01) = 0` windows. -/
def nrWindows (nrLines : Nat) : Nat := (Int.tdiv ((nrLines : Int) - 1) 100).toNat

/-- The loop of `check_access` over the line numbers that are left. Field 3 is looked up only
when field 2 agrees. -/
def scanAccess (filecontent : List Text) (checkFd checkOffset : Text) :
    List Nat → Except PyError Bool
  | [] => .ok false
  | i :: is => do
    let line ← getItem filecontent i
    let access := split delim line
    let fd ← getItem access 2
    if fd = checkFd then
      let offset ← getItem access 3
      if offset = checkOffset then
        return true
      else
        scanAccess filecontent checkFd checkOffset is
    else
      scanAccess filecontent checkFd checkOffset is

def checkAccess (filecontent : List Text) (checkFd checkOffset : Text)
    (startLine checkNrLines : Nat) : Except PyError Bool :=
  let nrLines := filecontent.length
  let endLine := startLine + checkNrLines
  let endLine := if endLine > nrLines then nrLines else endLine
  scanAccess filecontent checkFd checkOffset (range startLine endLine)

/-- The body of the inner loop of `main`: the arguments of the call of `write_outfile` for
line `j` of the window that ends at `endLine`. -/
def labelLine (cfg : Config) (filecontent : List Text) (endLine j : Nat) :
    Except PyError (Text × Text) := do
  let text ← getItem filecontent j
  let line := split delim text
  let fd ← getItem line 2
  let offset ← getItem line 3
  let found ← checkAccess filecontent fd offset endLine (cfg.lookahead * cfg.window)
  if found = true then
    return (text, ['0'])
  else
    return (text, ['1'])

/-- Make the calls one after the other until one of them raises. -/
def runCalls {α : Type} : List (Except PyError α) → List α × Option PyError
  | [] => ([], none)
  | .error e :: _ => ([], some e)
  | .ok c :: rest => (c :: (runCalls rest).1, (runCalls rest).2)

/-- `main`: the calls of `write_outfile` in order, and the exception that ended the run. -/
def main (cfg : Config) (filecontent : List Text) : List (Text × Text) × Option PyError :=
  runCalls <| (range 1 (nrWindows filecontent.length)).flatMap fun i =>
    let start := i * cfg.window
    let endLine := (i + 1) * cfg.window
    (range start endLine).map fun j => labelLine cfg filecontent endLine j

/-- The line that `write_outfile` appends. -/
def outline (line label : Text) : Text := strip '\n' line ++ delim :: label ++ ['\n']

def writeOutfile (outfile : Text) (line label : Text) : Text := outfile ++ outline line label

/-- One run of the script: the input file is read, the output file appended to. -/
def runScript (cfg : Config) (infile outfile : Text) : Text :=
  (main cfg (readlines infile)).1.foldl (fun out call => writeOutfile out call.1 call.2) outfile

theorem foldl_writeOutfile (calls : List (Text × Text)) (outfile : Text) :
    calls.foldl (fun out call => writeOutfile out call.1 call.2) outfile =
      outfile ++ (calls.map fun c => outline c.1 c.2).flatten := by
  induction calls generalizing outfile with
  | nil => simp
  | cons c cs ih =>
    rw [List.foldl_cons, ih, List.map_cons, List.flatten_cons, writeOutfile, List.append_assoc]

theorem runScript_eq (cfg : Config) (infile outfile : Text) :
    runScript cfg infile outfile =
      outfile ++ ((main cfg (readlines infile)).1.map fun c => outline c.1 c.2).flatten :=
  foldl_writeOutfile _ _

end CacheTrace.Label
