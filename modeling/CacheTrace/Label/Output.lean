import CacheTrace.Label.Semantics

/-!
# The labelled file

`write_outfile` appends the label to a line as one more field. When the fields of the lines
are decimal numerals, the labelled file is read back as the numbers of every line followed by
the number of its label (`readCsv_outlines`).
-/

namespace CacheTrace.Label

open Text

/-- The two labels. -/
def IsLabel (label : Text) : Prop := label = ['0'] ∨ label = ['1']

/-- The number of a label. -/
def labelNumber (label : Text) : Int := if label = ['0'] then 0 else 1

theorem IsLabel.readInt {label : Text} (h : IsLabel label) :
    readInt label = some (labelNumber label) := by
  rcases h with rfl | rfl <;> decide

theorem IsLabel.ne_nil {label : Text} (h : IsLabel label) : label ≠ [] := by
  rcases h with rfl | rfl <;> decide

/-- The numbers in the fields of a line, read without its newline. -/
def lineNumbers (line : Text) : Option (List Int) :=
  (split delim (strip '\n' line)).mapM Text.readInt

theorem split_ne_nil (c : Char) (t : Text) : split c t ≠ [] := List.splitOn_ne_nil c t

theorem outline_eq (line label : Text) :
    outline line label =
      joinFields ',' (split delim (strip '\n' line) ++ [label]) ++ ['\n'] := by
  rw [joinFields_concat (split_ne_nil _ _), ← delim, joinFields_split]
  simp [outline]

/-- **The labelled file is read back** as the numbers of each line and its label. -/
theorem readCsv_outlines {calls : List (Text × Text)} (numbers : Text → List Int)
    (hline : ∀ c ∈ calls, lineNumbers c.1 = some (numbers c.1))
    (hlabel : ∀ c ∈ calls, IsLabel c.2) :
    readCsv (calls.map fun c => outline c.1 c.2).flatten =
      some (calls.map fun c => numbers c.1 ++ [labelNumber c.2]) := by
  have htext : (calls.map fun c => outline c.1 c.2) =
      (calls.map fun c => split delim (strip '\n' c.1) ++ [c.2]).map fun row =>
        joinFields ',' row ++ ['\n'] := by
    rw [List.map_map]
    exact List.map_congr_left fun c _ => outline_eq c.1 c.2
  rw [htext, readCsv_rows]
  · rw [List.mapM_map]
    apply mapM_eq_some_map
    intro c hc
    have hlast : [c.2].mapM Text.readInt = some [labelNumber c.2] := by
      rw [List.mapM_cons, (hlabel c hc).readInt]
      rfl
    have hfields := hline c hc
    rw [lineNumbers] at hfields
    rw [Function.comp_apply, List.mapM_append, hfields, hlast]
    rfl
  · intro row hrow f hf
    obtain ⟨c, hc, rfl⟩ := List.mem_map.mp hrow
    rcases List.mem_append.mp hf with hf | hf
    · obtain ⟨z, hz⟩ := exists_of_mapM_eq_some (hline c hc) f hf
      exact not_mem_numeral hz
    · rw [List.mem_singleton.mp hf]
      exact not_mem_numeral (hlabel c hc).readInt
  · intro row hrow
    obtain ⟨c, hc, rfl⟩ := List.mem_map.mp hrow
    exact ⟨c.2, by simp, (hlabel c hc).ne_nil⟩

end CacheTrace.Label
