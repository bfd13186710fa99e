import CacheTrace.Label.Program
import CacheTrace.Lists.Blocks

/-!
# What the labeller writes

The script indexes the trace line by line. Here the indices are removed: a window is a
slice of the trace (`windowLines`), the lines that decide its labels are another slice
(`lookaheadLines`, cut off at the end of the trace), and a line of the window is labelled
`0` exactly when one of the latter agrees with it in the fields 2 and 3 (`labelOf`).

`main_eq` says that the script makes exactly the calls of `emitted`, without an exception,
when every line has the fields it looks at and the windows fit into the trace; with the
values the script sets they always do (`nrWindows_mul_le`).
-/

namespace CacheTrace.Label

open Text

/-! ## Slices -/

theorem nrWindows_eq (n : Nat) : nrWindows n = (n - 1) / 100 := by
  unfold nrWindows
  cases n with
  | zero => decide
  | succ m =>
    have h : ((m + 1 : Nat) : Int) - 1 = (m : Int) := by omega
    rw [h, Int.tdiv_eq_ediv_of_nonneg (Int.natCast_nonneg m)]
    omega

/-- With windows of 100 lines, every counted window lies inside the trace. -/
theorem nrWindows_mul_le (n : Nat) : nrWindows n * config.window ≤ n := by
  rw [nrWindows_eq]
  change (n - 1) / 100 * 100 ≤ n
  omega

/-- The lines with numbers in `range a b` are a slice of the file. -/
theorem range_getElem? {α : Type} (xs : List α) (a b : Nat) (hb : b ≤ xs.length) :
    (range a b).map (fun i => xs[i]?) = ((xs.drop a).take (b - a)).map some := by
  apply List.ext_getElem?
  intro k
  simp only [range, List.getElem?_map, List.getElem?_take, List.getElem?_drop]
  by_cases hk : k < b - a
  · have hlt : a + k < xs.length := by omega
    rw [List.getElem?_range' hk, if_pos hk, List.getElem?_eq_getElem hlt]
    simp [List.getElem?_eq_getElem hlt]
  · rw [if_neg hk, List.getElem?_eq_none (by simpa using hk)]
    rfl

theorem getItem_of_getElem? {α : Type} {xs : List α} {i : Nat} {x : α} (h : xs[i]? = some x) :
    getItem xs i = .ok x := by
  simp only [getItem, h]

/-! ## Equal accesses -/

/-- The test of `check_access` on two lines: fields 2 and fields 3 are equal. -/
def sameAccess (a b : Text) : Bool :=
  (split delim a)[2]? = (split delim b)[2]? ∧ (split delim a)[3]? = (split delim b)[3]?

/-- Every line has the fields 2 and 3. -/
def HasAccess (filecontent : List Text) : Prop :=
  ∀ l ∈ filecontent, 4 ≤ (split delim l).length

theorem scanAccess_eq {filecontent : List Text} (h : HasAccess filecontent) {a : Text}
    {fd offset : Text} (hfd : (split delim a)[2]? = some fd)
    (hoffset : (split delim a)[3]? = some offset) {is : List Nat} {ls : List Text}
    (hls : is.map (fun i => filecontent[i]?) = ls.map some) :
    scanAccess filecontent fd offset is = .ok (ls.any (sameAccess a)) := by
  induction is generalizing ls with
  | nil =>
    obtain rfl : ls = [] := by simpa using hls.symm
    rfl
  | cons i is ih =>
    cases ls with
    | nil => simp at hls
    | cons l ls =>
      obtain ⟨hl, hrest⟩ := List.cons.inj hls
      have hlen := h l (List.mem_of_getElem? hl)
      have h2 : (split delim l)[2]? = some (split delim l)[2] := List.getElem?_eq_getElem _
      have h3 : (split delim l)[3]? = some (split delim l)[3] := List.getElem?_eq_getElem _
      rw [scanAccess, getItem_of_getElem? hl]
      simp only [bind, Except.bind, getItem_of_getElem? h2, getItem_of_getElem? h3, pure,
        Except.pure, ih hrest, List.any_cons, sameAccess, hfd, hoffset, h2, h3,
        Option.some.injEq]
      split_ifs with hf ho
      · simp [hf, ho]
      · simp [hf, Ne.symm ho]
      · simp [Ne.symm hf]

/-- `check_access` looks at the slice of `checkNrLines` lines from `startLine`, as far as the
file goes. -/
theorem checkAccess_eq {filecontent : List Text} (h : HasAccess filecontent) {a : Text}
    {fd offset : Text} (hfd : (split delim a)[2]? = some fd)
    (hoffset : (split delim a)[3]? = some offset) (startLine checkNrLines : Nat) :
    checkAccess filecontent fd offset startLine checkNrLines =
      .ok (((filecontent.drop startLine).take checkNrLines).any (sameAccess a)) := by
  unfold checkAccess
  dsimp only
  rw [scanAccess_eq h hfd hoffset (range_getElem? filecontent _ _ (by split_ifs <;> omega))]
  congr 2
  split_ifs with hend
  · -- the range is cut off at the end of the file, and so is the slice
    rw [List.take_of_length_le (by simp), List.take_of_length_le (by simp; omega)]
  · rw [Nat.add_sub_cancel_left]

/-! ## Windows -/

variable (cfg : Config)

/-- The lines of window `i`. -/
def windowLines (filecontent : List Text) (i : Nat) : List Text :=
  (filecontent.drop (i * cfg.window)).take cfg.window

/-- The lines that decide the labels of window `i`. -/
def lookaheadLines (filecontent : List Text) (i : Nat) : List Text :=
  (filecontent.drop ((i + 1) * cfg.window)).take (cfg.lookahead * cfg.window)

/-- The label of line `l` in window `i`. -/
def labelOf (filecontent : List Text) (i : Nat) (l : Text) : Text :=
  if (lookaheadLines cfg filecontent i).any (sameAccess l) then ['0'] else ['1']

/-- The labelled lines of window `i`. -/
def labelledWindow (filecontent : List Text) (i : Nat) : List (Text × Text) :=
  (windowLines cfg filecontent i).map fun l => (l, labelOf cfg filecontent i l)

/-- The labelled lines of all the windows that are written. -/
def emitted (filecontent : List Text) : List (Text × Text) :=
  (range 1 (nrWindows filecontent.length)).flatMap (labelledWindow cfg filecontent)

/-- A label is `0` or `1`. -/
theorem labelOf_cases (filecontent : List Text) (i : Nat) (l : Text) :
    labelOf cfg filecontent i l = ['0'] ∨ labelOf cfg filecontent i l = ['1'] := by
  unfold labelOf
  split_ifs
  · exact Or.inl rfl
  · exact Or.inr rfl

variable {cfg}

theorem mem_windowLines {filecontent : List Text} {i : Nat} {a : Text} :
    a ∈ windowLines cfg filecontent i ↔
      ∃ p, (i * cfg.window ≤ p ∧ p < (i + 1) * cfg.window) ∧ filecontent[p]? = some a := by
  rw [windowLines, Lists.mem_take_drop]
  simp only [Nat.succ_mul, and_assoc]

/-- The lookahead slice holds the lines with the next `LOOKAHEAD * WINDOW` numbers. -/
theorem mem_lookaheadLines {filecontent : List Text} {i : Nat} {b : Text} :
    b ∈ lookaheadLines cfg filecontent i ↔
      ∃ q, (i + 1) * cfg.window ≤ q ∧ q < (i + 1) * cfg.window + cfg.lookahead * cfg.window ∧
        filecontent[q]? = some b :=
  Lists.mem_take_drop

theorem labelOf_eq_zero {filecontent : List Text} {i : Nat} {l : Text} :
    labelOf cfg filecontent i l = ['0'] ↔
      ∃ b ∈ lookaheadLines cfg filecontent i, sameAccess l b = true := by
  unfold labelOf
  split_ifs with h
  · simpa using h
  · simpa using h

theorem labelOf_eq_one {filecontent : List Text} {i : Nat} {l : Text} :
    labelOf cfg filecontent i l = ['1'] ↔
      ∀ b ∈ lookaheadLines cfg filecontent i, sameAccess l b = false := by
  unfold labelOf
  split_ifs with h
  · simpa using h
  · simpa using h

/-! ## The run of the script -/

theorem runCalls_ok {α : Type} (cs : List α) :
    runCalls (cs.map fun c => (.ok c : Except PyError α)) = (cs, none) := by
  induction cs with
  | nil => rfl
  | cons c cs ih => simp only [List.map_cons, runCalls, ih]

theorem labelLine_eq {filecontent : List Text} (h : HasAccess filecontent) {i j : Nat} {l : Text}
    (hl : filecontent[j]? = some l) :
    labelLine cfg filecontent ((i + 1) * cfg.window) j =
      .ok (l, labelOf cfg filecontent i l) := by
  have hlen := h l (List.mem_of_getElem? hl)
  have h2 : (split delim l)[2]? = some (split delim l)[2] := List.getElem?_eq_getElem _
  have h3 : (split delim l)[3]? = some (split delim l)[3] := List.getElem?_eq_getElem _
  unfold labelLine labelOf lookaheadLines
  simp only [bind, Except.bind, getItem_of_getElem? hl, getItem_of_getElem? h2,
    getItem_of_getElem? h3, checkAccess_eq h h2 h3, pure, Except.pure]
  split_ifs <;> rfl

/-- The inner loop labels one window. -/
theorem window_calls {filecontent : List Text} (h : HasAccess filecontent) {i : Nat}
    (hfit : (i + 1) * cfg.window ≤ filecontent.length) :
    ((range (i * cfg.window) ((i + 1) * cfg.window)).map fun j =>
        labelLine cfg filecontent ((i + 1) * cfg.window) j) =
      (labelledWindow cfg filecontent i).map .ok := by
  have hslice := range_getElem? filecontent (i * cfg.window) _ hfit
  have hwidth : (i + 1) * cfg.window - i * cfg.window = cfg.window := by
    rw [Nat.succ_mul, Nat.add_sub_cancel_left]
  rw [hwidth] at hslice
  unfold labelledWindow windowLines
  generalize range (i * cfg.window) ((i + 1) * cfg.window) = is at hslice ⊢
  generalize (filecontent.drop (i * cfg.window)).take cfg.window = ls at hslice ⊢
  induction is generalizing ls with
  | nil =>
    obtain rfl : ls = [] := by simpa using hslice.symm
    rfl
  | cons j js ih =>
    cases ls with
    | nil => simp at hslice
    | cons l ls =>
      obtain ⟨hl, hrest⟩ := List.cons.inj hslice
      rw [List.map_cons, labelLine_eq h hl, ih ls hrest]
      rfl

/-- The script writes the labelled windows when each of them lies inside the trace. -/
theorem main_eq_of_windows {filecontent : List Text} (h : HasAccess filecontent)
    (hfit : ∀ i, 1 ≤ i → i < nrWindows filecontent.length →
      (i + 1) * cfg.window ≤ filecontent.length) :
    main cfg filecontent = (emitted cfg filecontent, none) := by
  have hcalls : ((range 1 (nrWindows filecontent.length)).flatMap fun i =>
      (range (i * cfg.window) ((i + 1) * cfg.window)).map fun j =>
        labelLine cfg filecontent ((i + 1) * cfg.window) j) =
      (emitted cfg filecontent).map .ok := by
    rw [emitted, List.map_flatMap]
    apply List.flatMap_congr
    intro i hi
    simp only [range, List.mem_range'_1] at hi
    exact window_calls h (hfit i hi.1 (by omega))
  unfold main
  dsimp only
  rw [hcalls, runCalls_ok]

/-- **The script writes the labelled windows.** No index is out of range as long as the
counted windows lie inside the trace. -/
theorem main_eq {filecontent : List Text} (h : HasAccess filecontent)
    (hfit : nrWindows filecontent.length * cfg.window ≤ filecontent.length) :
    main cfg filecontent = (emitted cfg filecontent, none) :=
  main_eq_of_windows h fun _ _ hi => (Nat.mul_le_mul_right _ hi).trans hfit

/-- With the values the script sets, every trace is labelled to the end. -/
theorem main_config_eq {filecontent : List Text} (h : HasAccess filecontent) :
    main config filecontent = (emitted config filecontent, none) :=
  main_eq h (nrWindows_mul_le _)

/-! ## The written lines by their position -/

theorem labelledWindow_length {filecontent : List Text} {i : Nat}
    (hfit : (i + 1) * cfg.window ≤ filecontent.length) :
    (labelledWindow cfg filecontent i).length = cfg.window := by
  have hsplit : (i + 1) * cfg.window = i * cfg.window + cfg.window := Nat.succ_mul _ _
  simp only [labelledWindow, windowLines, List.length_map, List.length_take, List.length_drop]
  omega

theorem labelledWindow_length_of_range {filecontent : List Text}
    (hfit : nrWindows filecontent.length * cfg.window ≤ filecontent.length) (i : Nat)
    (hi : 1 ≤ i) (hi' : i < 1 + (nrWindows filecontent.length - 1)) :
    (labelledWindow cfg filecontent i).length = cfg.window :=
  labelledWindow_length ((Nat.mul_le_mul_right _ (by omega)).trans hfit)

theorem emitted_length {filecontent : List Text}
    (hfit : nrWindows filecontent.length * cfg.window ≤ filecontent.length) :
    (emitted cfg filecontent).length = (nrWindows filecontent.length - 1) * cfg.window :=
  Lists.flatMap_range'_length (labelledWindow_length_of_range hfit)

/-- The written line number `k` is line `WINDOW + k` of the trace, with the label of its
window. -/
theorem emitted_getElem? {filecontent : List Text}
    (hfit : nrWindows filecontent.length * cfg.window ≤ filecontent.length) {k : Nat}
    (hk : k < (emitted cfg filecontent).length) :
    (emitted cfg filecontent)[k]? = filecontent[cfg.window + k]?.map fun l =>
      (l, labelOf cfg filecontent (1 + k / cfg.window) l) := by
  rw [emitted_length hfit] at hk
  have hw : 0 < cfg.window := by
    rcases Nat.eq_zero_or_pos cfg.window with h0 | h0
    · rw [h0, Nat.mul_zero] at hk
      omega
    · exact h0
  have hmod : k % cfg.window < cfg.window := Nat.mod_lt _ hw
  have hsum : (1 + k / cfg.window) * cfg.window + k % cfg.window = cfg.window + k := by
    rw [Nat.add_mul, Nat.one_mul, Nat.add_assoc, Nat.div_add_mod']
  rw [emitted, range, Lists.flatMap_range'_getElem? hw (labelledWindow_length_of_range hfit) hk,
    labelledWindow, windowLines, List.getElem?_map, List.getElem?_take_of_lt hmod,
    List.getElem?_drop, hsum]

/-- Line `j` of window `i`, as the script writes it. -/
theorem main_getElem? {filecontent : List Text} (h : HasAccess filecontent) {i j : Nat}
    (hi : 1 ≤ i) (hj : j < 100) :
    (main config filecontent).1[(i - 1) * 100 + j]? =
      if i < nrWindows filecontent.length then
        filecontent[i * 100 + j]?.map fun l => (l, labelOf config filecontent i l)
      else none := by
  have hlen := emitted_length (nrWindows_mul_le filecontent.length)
  change _ = _ * 100 at hlen
  rw [main_config_eq h]
  split_ifs with hiw
  · have hk : (i - 1) * 100 + j < (emitted config filecontent).length := by omega
    rw [emitted_getElem? (nrWindows_mul_le _) hk]
    change filecontent[100 + ((i - 1) * 100 + j)]?.map (fun l =>
      (l, labelOf config filecontent (1 + ((i - 1) * 100 + j) / 100) l)) = _
    rw [show 100 + ((i - 1) * 100 + j) = i * 100 + j by omega,
      show 1 + ((i - 1) * 100 + j) / 100 = i by omega]
  · have hend : (emitted config filecontent).length ≤ (i - 1) * 100 + j := by omega
    exact List.getElem?_eq_none hend

/-- The unlabelled lines that are written: a slice from the second window on. -/
theorem emitted_lines {filecontent : List Text}
    (hfit : nrWindows filecontent.length * cfg.window ≤ filecontent.length) :
    (emitted cfg filecontent).map Prod.fst =
      (filecontent.drop cfg.window).take ((nrWindows filecontent.length - 1) * cfg.window) := by
  apply List.ext_getElem?
  intro k
  rw [List.getElem?_map, List.getElem?_take, List.getElem?_drop, ← emitted_length hfit]
  split_ifs with hk
  · rw [emitted_getElem? hfit hk, Option.map_map]
    exact Option.map_id'
  · rw [List.getElem?_eq_none (by omega)]
    rfl

/-- In a trace whose lines all differ in the fields 2 and 3, every line gets the label `1`. -/
theorem emitted_label_one {filecontent : List Text}
    (h : ∀ (p q : Nat) (a b : Text), p < q → filecontent[p]? = some a →
      filecontent[q]? = some b → sameAccess a b = false) :
    ∀ e ∈ emitted cfg filecontent, e.2 = ['1'] := by
  intro e he
  obtain ⟨i, -, he⟩ := List.mem_flatMap.mp he
  obtain ⟨a, ha, rfl⟩ := List.mem_map.mp he
  obtain ⟨p, hp, hpa⟩ := mem_windowLines.mp ha
  apply labelOf_eq_one.mpr
  intro b hb
  obtain ⟨q, hq, -, hqb⟩ := mem_lookaheadLines.mp hb
  exact h p q a b (hp.2.trans_le hq) hpa hqb

/-- A line of a read of 4096 bytes, as it stands in a log. -/
def sampleLine : Text := "0,25103,12,135168,4096\n".toList

end CacheTrace.Label
