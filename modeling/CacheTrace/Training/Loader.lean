import CacheTrace.Label.Output
import CacheTrace.Lists.Table
import CacheTrace.Log.Record
import Mathlib.Data.List.Perm.Basic
import Mathlib.Data.Rat.Defs
import Mathlib.Data.Rat.Lemmas

/-!
# From the labelled file to the training data

`transformer/final_project.ipynb` reads the labelled file as a table, transposes it, drops the
first row (the type of the access), and splits the rest into samples of `window = 100`
columns. `get_data_loader` shuffles the samples, separates the four features from the label,
transposes every sample back and cuts the list into a training and a validation set.

The labelled file may come from several runs of the labeller. `training_data` says that the
samples are the windows of the runs, one by one and in order, and that the two sets contain
every window once, each line with its own label.
-/

namespace CacheTrace.Training

open Text Label Log CacheTrace.Lists

/-! ## The notebook -/

def window : Nat := 100

/-- `pd.read_csv(…, header = None)`: a table with at least one row and rows of one length. -/
def readFrame (csv : Text) : Option (List (List Int)) := do
  let rows ← readCsv csv
  if rows ≠ [] ∧ ∀ row ∈ rows, row.length = width rows then some rows else none

/-- `np.hsplit` into a given number of sections of equal width. The notebook passes the
quotient of the number of columns and `window`. -/
def hsplit (data : List (List Int)) (sections : Rat) : Option (List (List (List Int))) :=
  if 0 < sections ∧ sections.den = 1 ∧ width data % sections.num.toNat = 0 then
    let n := sections.num.toNat
    let w := width data / n
    some ((List.range n).map fun i => data.map fun row => (row.drop (i * w)).take w)
  else none

/-- The cell that loads the data. -/
def loadData (csv : Text) : Option (List (List (List Int))) := do
  let data ← readFrame csv
  let data := ((transpose data).drop 1).take 5
  hsplit data (width data / window)

abbrev TensorDataset := List (List (List Int) × List (List Int))

structure Loaders where
  sourceSeq : List (List (List Int))
  targetSeq : List (List (List Int))
  trainSet : TensorDataset
  valSet : TensorDataset

/-- `int(0.9 * n)`. -/
def trainSetSize (n : Nat) : Nat := 9 * n / 10

/-- `get_data_loader` after `random.shuffle(data)`. -/
def getDataLoader (data : List (List (List Int))) : Loaders :=
  let sourceSeq := data.map fun sample => transpose (sample.take 4)
  let targetSeq := data.map fun sample => transpose (sample.drop 4)
  let m := trainSetSize sourceSeq.length
  { sourceSeq
    targetSeq
    trainSet := (sourceSeq.take m).zip (targetSeq.take m)
    valSet := (sourceSeq.drop m).zip (targetSeq.drop m) }

theorem train_append_val (data : List (List (List Int))) :
    (getDataLoader data).trainSet ++ (getDataLoader data).valSet =
      data.map fun sample => (transpose (sample.take 4), transpose (sample.drop 4)) := by
  simp only [getDataLoader]
  rw [← List.zip_append (by simp), List.take_append_drop, List.take_append_drop, List.zip_map']

/-! ## Traces of numbers -/

/-- A line of five decimal numerals; the last line of a file may lack its newline. -/
def IsRecord (l : Text) : Prop :=
  ∃ fields : List Text, fields.length = 5 ∧ (∀ f ∈ fields, (readInt f).isSome = true) ∧
    (l = joinFields ',' fields ∨ l = joinFields ',' fields ++ ['\n'])

theorem not_mem_isSome {f : Text} (h : (readInt f).isSome = true) : ',' ∉ f ∧ '\n' ∉ f := by
  obtain ⟨z, hz⟩ := Option.isSome_iff_exists.mp h
  exact not_mem_numeral hz

theorem IsRecord.lineNumbers {l : Text} (h : IsRecord l) :
    ∃ zs, zs.length = 5 ∧ Label.lineNumbers l = some zs := by
  obtain ⟨fields, hlen, hnum, hl⟩ := h
  have hnl : '\n' ∉ joinFields ',' fields :=
    newline_not_mem_joinFields fun f hf => (not_mem_isSome (hnum f hf)).2
  have hstrip : strip '\n' l = joinFields ',' fields := by
    rcases hl with rfl | rfl
    · exact strip_of_not_mem hnl
    · exact strip_line hnl
  have hsplit : split delim (strip '\n' l) = fields := by
    rw [hstrip]
    refine split_joinFields ?_ fun f hf => (not_mem_isSome (hnum f hf)).1
    rintro rfl
    cases hlen
  refine ⟨fields.map fun f => (readInt f).getD 0, by rw [List.length_map, hlen], ?_⟩
  rw [Label.lineNumbers, hsplit]
  apply mapM_eq_some_map
  intro f hf
  obtain ⟨z, hz⟩ := Option.isSome_iff_exists.mp (hnum f hf)
  rw [hz]
  rfl

theorem IsRecord.length_split {l : Text} (h : IsRecord l) : (split delim l).length = 5 := by
  obtain ⟨fields, hlen, hnum, hl⟩ := h
  have hsep : ∀ f ∈ fields, ',' ∉ f := fun f hf => (not_mem_isSome (hnum f hf)).1
  have hne : fields ≠ [] := by
    rintro rfl
    cases hlen
  rcases hl with rfl | rfl
  · rw [delim, split_joinFields hne hsep, hlen]
  · -- the newline belongs to the last field
    obtain ⟨front, last, rfl⟩ : ∃ front last, fields = front ++ [last] :=
      ⟨_, _, (List.dropLast_append_getLast hne).symm⟩
    rw [joinFields_append_tail, delim, split_joinFields (by simp)]
    · simpa using hlen
    · intro f hf
      rcases List.mem_append.mp hf with hf | hf
      · exact hsep f (List.mem_append_left _ hf)
      · rw [List.mem_singleton.mp hf]
        simpa using hsep last (by simp)

/-- The lines of the log and of the generated traces are such lines. -/
theorem isRecord_entryLine (e : Entry) : IsRecord (entryLine e) := by
  refine ⟨e.numbers.map showInt, rfl, ?_, Or.inr rfl⟩
  intro f hf
  obtain ⟨z, -, rfl⟩ := List.mem_map.mp hf
  rw [readInt_showInt]
  rfl

/-! ## The windows of the runs -/

/-- The labelled windows that one run of the script writes. -/
def runWindows (infile : Text) : List (List (Text × Text)) :=
  (range 1 (nrWindows (readlines infile).length)).map (labelledWindow config (readlines infile))

/-- The labelled file after one run for every trace. -/
def labelAll (infiles : List Text) : Text :=
  infiles.foldl (fun outfile infile => runScript config infile outfile) []

/-- The windows of all runs. -/
def allWindows (infiles : List Text) : List (List (Text × Text)) := infiles.flatMap runWindows

/-- The row of a labelled line. -/
def csvRow (call : Text × Text) : List Int := (lineNumbers call.1).getD [] ++ [labelNumber call.2]

theorem main_eq_windows {infile : Text} (h : ∀ l ∈ readlines infile, IsRecord l) :
    main config (readlines infile) = ((runWindows infile).flatten, none) := by
  rw [main_config_eq, emitted, List.flatMap_def]
  · rfl
  · intro l hl
    rw [(h l hl).length_split]
    decide

theorem length_of_mem_runWindows {infile : Text} {win : List (Text × Text)}
    (hwin : win ∈ runWindows infile) : win.length = 100 := by
  obtain ⟨i, hi, rfl⟩ := List.mem_map.mp hwin
  rw [range, List.mem_range'_1] at hi
  exact labelledWindow_length_of_range (nrWindows_mul_le _) i hi.1 hi.2

theorem of_mem_runWindows {infile : Text} {win : List (Text × Text)} {call : Text × Text}
    (hwin : win ∈ runWindows infile) (hcall : call ∈ win) :
    call.1 ∈ readlines infile ∧ IsLabel call.2 := by
  obtain ⟨i, -, rfl⟩ := List.mem_map.mp hwin
  obtain ⟨l, hl, rfl⟩ := List.mem_map.mp hcall
  exact ⟨List.mem_of_mem_drop (List.mem_of_mem_take hl), labelOf_cases config _ i l⟩

theorem labelAll_eq {infiles : List Text}
    (h : ∀ infile ∈ infiles, ∀ l ∈ readlines infile, IsRecord l) :
    labelAll infiles =
      ((allWindows infiles).flatten.map fun c => outline c.1 c.2).flatten := by
  have hfold : ∀ out, infiles.foldl (fun outfile infile => runScript config infile outfile) out =
      out ++ ((allWindows infiles).flatten.map fun c => outline c.1 c.2).flatten := by
    unfold allWindows
    induction infiles with
    | nil => simp
    | cons infile rest ih =>
      intro out
      obtain ⟨hfirst, hrest⟩ := List.forall_mem_cons.mp h
      rw [List.foldl_cons, ih hrest, runScript_eq, main_eq_windows hfirst, List.flatMap_cons,
        List.flatten_append, List.map_append, List.flatten_append, List.append_assoc]
  exact (hfold []).trans (List.nil_append _)

theorem length_csvRow {call : Text × Text} (h : IsRecord call.1) : (csvRow call).length = 6 := by
  obtain ⟨zs, hlen, hzs⟩ := h.lineNumbers
  simp [csvRow, hzs, hlen]

/-! ## The training data -/

theorem hsplit_columns {ι : Type} (f : ι → List Int) {w : Nat} (hw : 0 < w) {ws : List (List ι)}
    (hne : ws ≠ []) (hlen : ∀ win ∈ ws, win.length = 100) :
    hsplit (columns f w ws.flatten) (width (columns f w ws.flatten) / window) =
      some (ws.map (columns f w)) := by
  have hwidth : width (columns f w ws.flatten) = ws.length * 100 := by
    rw [columns_width f hw, length_flatten hlen]
  have hsections : ((ws.length * 100 : Nat) : Rat) / (window : Rat) = (ws.length : Rat) := by
    simp [window]
  have hpos : 0 < ws.length := List.length_pos_of_ne_nil hne
  have hdiv : ws.length * 100 / ws.length = 100 := Nat.mul_div_cancel_left _ hpos
  rw [hwidth, hsections, hsplit, if_pos]
  · simp only [Rat.num_natCast, Int.toNat_natCast, hwidth, hdiv, columns_slice]
    have hblocks := congrArg (List.map (columns f w)) (map_block_flatten hlen)
    rw [List.map_map] at hblocks
    exact congrArg some hblocks
  · refine ⟨by exact_mod_cast hpos, Rat.den_natCast _, ?_⟩
    simp [hwidth]

/-- The samples are the windows, one after the other. -/
theorem loadData_eq {csv : Text} {ws : List (List (Text × Text))} (hne : ws ≠ [])
    (hlen : ∀ win ∈ ws, win.length = 100) (hrow : ∀ c ∈ ws.flatten, (csvRow c).length = 6)
    (hcsv : readCsv csv = some (ws.flatten.map csvRow)) :
    loadData csv = some (ws.map (columns (fun c => (csvRow c).drop 1) 5)) := by
  have hflat : ws.flatten ≠ [] := by
    intro h
    have := length_flatten hlen
    rw [h, List.length_nil] at this
    have := List.length_pos_of_ne_nil hne
    omega
  have hrows : ∀ row ∈ ws.flatten.map csvRow, row.length = 6 := by
    intro row h
    obtain ⟨c, hc, rfl⟩ := List.mem_map.mp h
    exact hrow c hc
  have hframe : readFrame csv = some (ws.flatten.map csvRow) := by
    rw [readFrame, hcsv]
    have hmap : ws.flatten.map csvRow ≠ [] := by simpa using hflat
    refine if_pos ⟨hmap, fun row h => ?_⟩
    rw [hrows row h, width_of_forall hmap hrows]
  rw [loadData, hframe]
  change hsplit _ _ = _
  rw [transpose_map hflat hrow, columns_drop, columns_take _ le_rfl]
  exact hsplit_columns _ (by decide) hne hlen

/-- What the loader makes of one sample. -/
theorem sample_parts {win : List (Text × Text)} (hrow : ∀ c ∈ win, (csvRow c).length = 6) :
    (transpose ((columns (fun c => (csvRow c).drop 1) 5 win).take 4),
      transpose ((columns (fun c => (csvRow c).drop 1) 5 win).drop 4)) =
    (win.map fun c => ((csvRow c).drop 1).take 4, win.map fun c => (csvRow c).drop 5) := by
  rw [columns_take _ (by decide), columns_drop, transpose_columns, transpose_columns (by decide)]
  · congr 1
    apply List.map_congr_left
    intro c hc
    rw [List.drop_drop, List.take_of_length_le]
    simp [hrow c hc]
  · intro c hc
    simp [hrow c hc]
  · decide
  · intro c hc
    simp [hrow c hc]

theorem length_of_mem_allWindows {infiles : List Text} {win : List (Text × Text)}
    (hwin : win ∈ allWindows infiles) : win.length = 100 := by
  obtain ⟨infile, -, hwin⟩ := List.mem_flatMap.mp hwin
  exact length_of_mem_runWindows hwin

section Records

variable {infiles : List Text} (hrec : ∀ infile ∈ infiles, ∀ l ∈ readlines infile, IsRecord l)

include hrec

theorem of_mem_allWindows {c : Text × Text} (hc : c ∈ (allWindows infiles).flatten) :
    IsRecord c.1 ∧ IsLabel c.2 := by
  obtain ⟨win, hwin, hc⟩ := List.mem_flatten.mp hc
  obtain ⟨infile, hinfile, hwin⟩ := List.mem_flatMap.mp hwin
  obtain ⟨hl, hlabel⟩ := of_mem_runWindows hwin hc
  exact ⟨hrec infile hinfile _ hl, hlabel⟩

theorem readCsv_labelAll :
    readCsv (labelAll infiles) = some ((allWindows infiles).flatten.map csvRow) := by
  rw [labelAll_eq hrec]
  refine readCsv_outlines (fun l => (lineNumbers l).getD []) ?_
    fun c hc => (of_mem_allWindows hrec hc).2
  intro c hc
  obtain ⟨zs, -, hzs⟩ := (of_mem_allWindows hrec hc).1.lineNumbers
  rw [hzs]
  rfl

end Records

/-- **No sample is lost, torn or given wrong labels.** -/
theorem training_data {infiles : List Text}
    (hrec : ∀ infile ∈ infiles, ∀ l ∈ readlines infile, IsRecord l)
    (hemit : ∃ infile ∈ infiles, (main config (readlines infile)).1 ≠ []) :
    (∀ infile ∈ infiles, main config (readlines infile) = ((runWindows infile).flatten, none)) ∧
    (∀ win ∈ allWindows infiles, win.length = 100) ∧
    (∀ c ∈ (allWindows infiles).flatten, ∃ type pid fd offset size,
      lineNumbers c.1 = some [type, pid, fd, offset, size] ∧
      csvRow c = [type, pid, fd, offset, size, labelNumber c.2]) ∧
    readCsv (labelAll infiles) = some ((allWindows infiles).flatten.map csvRow) ∧
    ((allWindows infiles).flatten.map csvRow).length % 100 = 0 ∧
    ∃ samples, loadData (labelAll infiles) = some samples ∧
      samples = (allWindows infiles).map
        (fun win => transpose (win.map fun c => (csvRow c).drop 1)) ∧
      ∀ shuffled, List.Perm shuffled samples →
        ∃ ws, List.Perm ws (allWindows infiles) ∧
          (getDataLoader shuffled).trainSet ++ (getDataLoader shuffled).valSet =
            ws.map fun win => (win.map fun c => ((csvRow c).drop 1).take 4,
              win.map fun c => (csvRow c).drop 5) := by
  have hlen : ∀ win ∈ allWindows infiles, win.length = 100 := fun _ => length_of_mem_allWindows
  have hcalls : ∀ c ∈ (allWindows infiles).flatten, IsRecord c.1 ∧ IsLabel c.2 :=
    fun _ => of_mem_allWindows hrec
  have hrow : ∀ c ∈ (allWindows infiles).flatten, (csvRow c).length = 6 := fun c hc =>
    length_csvRow (hcalls c hc).1
  have hcsv := readCsv_labelAll hrec
  have hne : allWindows infiles ≠ [] := by
    obtain ⟨infile, hinfile, hmain⟩ := hemit
    rw [main_eq_windows (hrec infile hinfile)] at hmain
    intro hnil
    have : runWindows infile = [] := List.flatMap_eq_nil_iff.mp hnil infile hinfile
    exact hmain (by rw [this]; rfl)
  have hwinRow : ∀ win ∈ allWindows infiles, ∀ c ∈ win, (csvRow c).length = 6 :=
    fun win hwin c hc => hrow c (List.mem_flatten.mpr ⟨win, hwin, hc⟩)
  refine ⟨fun infile h => main_eq_windows (hrec infile h), hlen, ?_, hcsv, ?_, ?_⟩
  · intro c hc
    obtain ⟨zs, hzs, hnum⟩ := (hcalls c hc).1.lineNumbers
    match zs, hzs with
    | [type, pid, fd, offset, size], _ =>
      exact ⟨type, pid, fd, offset, size, hnum, by simp [csvRow, hnum]⟩
  · rw [List.length_map, length_flatten hlen]
    omega
  · refine ⟨_, loadData_eq hne hlen hrow hcsv, ?_, ?_⟩
    · apply List.map_congr_left
      intro win hwin
      rw [transpose_map]
      · rintro rfl
        exact absurd (hlen _ hwin) (by decide)
      · intro c hc
        rw [List.length_drop, hwinRow win hwin c hc]
    · intro shuffled hperm
      obtain ⟨ws, rfl, hws⟩ := (congrFun₂ (List.eq_map_comp_perm _) _ _).mpr hperm
      refine ⟨ws, hws, ?_⟩
      rw [train_append_val, List.map_map]
      apply List.map_congr_left
      intro win hwin
      exact sample_parts (hwinRow win (hws.mem_iff.mp hwin))

/-- A trace of `n` equal lines of the process `pid`. -/
def sampleTrace (n pid : Nat) : Text :=
  (List.replicate n (entryLine ⟨0, pid, 12, 135168, 4096⟩)).flatten

theorem readlines_sampleTrace (n pid : Nat) :
    readlines (sampleTrace n pid) = List.replicate n (entryLine ⟨0, pid, 12, 135168, 4096⟩) := by
  apply readlines_flatten
  intro l hl
  rw [List.eq_of_mem_replicate hl]
  exact entryLine_complete _

theorem isRecord_sampleTrace {n pid : Nat} {l : Text} (hl : l ∈ readlines (sampleTrace n pid)) :
    IsRecord l := by
  rw [readlines_sampleTrace] at hl
  rw [List.eq_of_mem_replicate hl]
  exact isRecord_entryLine _

theorem length_runWindows_sampleTrace (n pid : Nat) :
    (runWindows (sampleTrace n pid)).length = (n - 1) / 100 - 1 := by
  rw [runWindows, List.length_map, range, List.length_range', readlines_sampleTrace,
    List.length_replicate, nrWindows_eq]

theorem main_ne_nil {infile : Text} (h : ∀ l ∈ readlines infile, IsRecord l)
    (hne : runWindows infile ≠ []) : (main config (readlines infile)).1 ≠ [] := by
  rw [main_eq_windows h]
  intro hnil
  have hflat := length_flatten fun win (hwin : win ∈ runWindows infile) =>
    length_of_mem_runWindows hwin
  rw [show (runWindows infile).flatten = [] from hnil, List.length_nil] at hflat
  have := List.length_pos_of_ne_nil hne
  omega

/-- Two runs, of which the first emits one window and the second emits two: the first sample is of
the first run, the others are of the second. -/
theorem training_data_sampleTrace :
    ∃ samples, loadData (labelAll [sampleTrace 201 25103, sampleTrace 301 7]) = some samples ∧
      samples = (runWindows (sampleTrace 201 25103) ++ runWindows (sampleTrace 301 7)).map
        (fun win => transpose (win.map fun c => (csvRow c).drop 1)) ∧
      (runWindows (sampleTrace 201 25103)).length = 1 ∧
      (runWindows (sampleTrace 301 7)).length = 2 := by
  have hrec : ∀ infile ∈ [sampleTrace 201 25103, sampleTrace 301 7],
      ∀ l ∈ readlines infile, IsRecord l :=
    List.forall_mem_cons.mpr ⟨fun _ => isRecord_sampleTrace,
      List.forall_mem_singleton.mpr fun _ => isRecord_sampleTrace⟩
  have hlen := length_runWindows_sampleTrace 201 25103
  have hne : runWindows (sampleTrace 201 25103) ≠ [] := by
    intro hnil
    rw [hnil] at hlen
    exact absurd hlen (by decide)
  obtain ⟨-, -, -, -, -, samples, hload, hsamples, -⟩ :=
    training_data hrec ⟨_, List.mem_cons_self, main_ne_nil (fun _ => isRecord_sampleTrace) hne⟩
  refine ⟨samples, hload, ?_, hlen, length_runWindows_sampleTrace 301 7⟩
  rw [hsamples, allWindows, List.flatMap_cons, List.flatMap_cons, List.flatMap_nil,
    List.append_nil]

end CacheTrace.Training
