import CacheTrace.Label.Output
import CacheTrace.Synthetic.Generator

/-!
# The record format from the producers to the reader of the labelled file

Three programs produce lines of five numbers: `write_log` and the `generate_line` of the two
synthetic workloads (`Produced`). The labeller splits such a line into fields and appends
its label, the training notebook reads the labelled file as a table.

`record_format` follows a list of produced lines through all of this. The lines are
recovered from the file, the numbers from the fields and from the labelled table, and the
labeller's comparison of fields as texts is the comparison of descriptors and offsets as
numbers.
-/

namespace CacheTrace.Log

open Text Label

/-! ## Lines of entries in the labeller -/

theorem split_length_entryLine (e : Entry) : (split delim (entryLine e)).length = 5 := by
  rw [delim, split_entryLine]
  rfl

theorem hasAccess_entryLines {ι : Type} (is : List ι) (e : ι → Entry) :
    HasAccess (is.map fun i => entryLine (e i)) := by
  intro l hl
  obtain ⟨i, -, rfl⟩ := List.mem_map.mp hl
  rw [split_length_entryLine]
  decide

/-- The comparison of fields as texts compares the numbers. -/
theorem sameAccess_entryLine (a b : Entry) :
    sameAccess (entryLine a) (entryLine b) = true ↔ a.fd = b.fd ∧ a.offset = b.offset := by
  simp only [sameAccess, delim, split_entryLine, decide_eq_true_eq]
  change some (showInt a.fd) = some (showInt b.fd) ∧
    some (showInt a.offset) = some (showInt b.offset) ↔ _
  rw [Option.some.injEq, Option.some.injEq, showInt_inj, showInt_inj]

/-- The numbers of a line, field by field. The last field is read without its newline. -/
theorem fields_entryLine (e : Entry) :
    ((split delim (entryLine e)).map (strip '\n')).mapM readInt = some e.numbers := by
  have hnl : ∀ z, '\n' ∉ showInt z := fun z => (not_mem_showInt z).2
  have hfields : (split delim (entryLine e)).map (strip '\n') = e.numbers.map showInt := by
    rw [delim, split_entryLine]
    simp only [List.map_cons, List.map_nil, strip_line (hnl _), strip_of_not_mem (hnl _),
      Entry.numbers]
  rw [hfields, mapM_readInt_showInt]

theorem lineNumbers_entryLine (e : Entry) : lineNumbers (entryLine e) = some e.numbers := by
  have hstrip : strip '\n' (entryLine e) = joinFields delim (e.numbers.map showInt) :=
    strip_line (newline_not_mem_entry e)
  rw [lineNumbers, hstrip, split_joinFields (by simp [Entry.numbers]), mapM_readInt_showInt]
  exact fun f hf => (not_mem_entry_fields f hf).1

/-! ## The three producers -/

/-- The lines of the log and of the generated traces, each with the numbers it was printed
from. -/
inductive Produced : Text → Entry → Prop
  | writeLog {r : Record} (h : r.Valid) : Produced (logLine r) r.entry
  | generateLine {stride choice pid fd offset size : Nat} {g g' : Synthetic.Globals} {line : Text}
      (hfd : g.fdList[choice]? = some fd) (hoffset : g.dictFdOffset fd = some offset)
      (hsize : g.dictFdSize fd = some size)
      (h : Synthetic.generateLine stride g choice pid = some (line, g')) :
      Produced (Synthetic.outline line) ⟨0, pid, fd, offset, size⟩

theorem Produced.eq_entryLine {line : Text} {e : Entry} (h : Produced line e) :
    line = entryLine e := by
  cases h with
  | writeLog h => exact h.line_eq
  | generateLine hfd hoffset hsize h =>
    rw [Synthetic.generateLine_of_lookups hfd hoffset hsize] at h
    cases h
    exact Synthetic.outline_lineBody _

/-- **The format survives the pipeline.** Every row is a produced line, its numbers and the
label that `write_outfile` appends to it. -/
theorem record_format (rows : List (Text × Entry × Text))
    (hprod : ∀ r ∈ rows, Produced r.1 r.2.1) (hlabel : ∀ r ∈ rows, IsLabel r.2.2) :
    readlines (rows.map fun r => r.1).flatten = (rows.map fun r => r.1) ∧
      (∀ r ∈ rows, ((split delim r.1).map (strip '\n')).mapM readInt = some r.2.1.numbers) ∧
      readCsv ((rows.map fun r => (r.1, r.2.2)).foldl
          (fun out call => writeOutfile out call.1 call.2) []) =
        some (rows.map fun r => r.2.1.numbers ++ [labelNumber r.2.2]) ∧
      ∀ r ∈ rows, ∀ r' ∈ rows, sameAccess r.1 r'.1 = true ↔
        r.2.1.fd = r'.2.1.fd ∧ r.2.1.offset = r'.2.1.offset := by
  have hline : ∀ r ∈ rows, r.1 = entryLine r.2.1 := fun r hr => (hprod r hr).eq_entryLine
  refine ⟨?_, ?_, ?_, ?_⟩
  · rw [List.map_congr_left hline]
    exact readlines_entryLines rows _
  · intro r hr
    rw [hline r hr]
    exact fields_entryLine _
  · -- the numbers of the entry, as a function of the line
    have hnumbers : ∀ r ∈ rows, (lineNumbers r.1).getD [] = r.2.1.numbers := by
      intro r hr
      rw [hline r hr, lineNumbers_entryLine]
      rfl
    rw [foldl_writeOutfile, List.nil_append, readCsv_outlines fun l => (lineNumbers l).getD []]
    · rw [List.map_map]
      exact congrArg some (List.map_congr_left fun r hr => by simp [← hnumbers r hr])
    · intro c hc
      obtain ⟨r, hr, rfl⟩ := List.mem_map.mp hc
      rw [hline r hr, lineNumbers_entryLine]
      rfl
    · intro c hc
      obtain ⟨r, hr, rfl⟩ := List.mem_map.mp hc
      exact hlabel r hr
  · intro r hr r' hr'
    rw [hline r hr, hline r' hr']
    exact sameAccess_entryLine _ _

/-- A record of the log that the notebook prints. -/
def sampleRecord : Record := ⟨.read, 25103, 12, 135168, 4096⟩

/-- The next write to the same descriptor, at another offset. -/
def nextRecord : Record := ⟨.write, 25103, 12, 139264, 4096⟩

/-- Two records in order, with their labels; the labeller tells them apart by the offset. -/
theorem record_format_sample :
    sampleRecord.Valid ∧ nextRecord.Valid ∧
      readlines (logLine sampleRecord ++ logLine nextRecord) =
        [logLine sampleRecord, logLine nextRecord] ∧
      readCsv (writeOutfile (writeOutfile [] (logLine sampleRecord) ['1'])
          (logLine nextRecord) ['0']) =
        some [[0, 25103, 12, 135168, 4096, 1], [1, 25103, 12, 139264, 4096, 0]] ∧
      sameAccess (logLine sampleRecord) (logLine sampleRecord) = true ∧
      sameAccess (logLine sampleRecord) (logLine nextRecord) = false := by
  have hsample : sampleRecord.Valid := ⟨by decide, by decide, by decide, by decide, by decide⟩
  have hnext : nextRecord.Valid := ⟨by decide, by decide, by decide, by decide, by decide⟩
  obtain ⟨hlines, -, hcsv, hsame⟩ := record_format
    [(logLine sampleRecord, sampleRecord.entry, ['1']),
      (logLine nextRecord, nextRecord.entry, ['0'])]
    (List.forall_mem_cons.mpr ⟨.writeLog hsample, List.forall_mem_singleton.mpr (.writeLog hnext)⟩)
    (List.forall_mem_cons.mpr ⟨Or.inr rfl, List.forall_mem_singleton.mpr (Or.inl rfl)⟩)
  rw [List.forall_mem_cons, List.forall_mem_cons, List.forall_mem_singleton] at hsame
  refine ⟨hsample, hnext, ?_, hcsv, hsame.1.1.mpr ⟨rfl, rfl⟩, ?_⟩
  · rw [List.map_cons, List.map_cons, List.map_nil, List.flatten_cons, List.flatten_cons,
      List.flatten_nil, List.append_nil] at hlines
    exact hlines
  · refine Bool.eq_false_of_not_eq_true fun h => ?_
    exact absurd (hsame.1.2.mp h).2 (by decide)

end CacheTrace.Log
