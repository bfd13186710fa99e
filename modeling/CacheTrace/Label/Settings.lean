import CacheTrace.Label.Semantics

/-!
# Other values of WINDOW and LOOKAHEAD

The docstring of `label.py` explains the script with windows of five lines and a lookahead of
one window. `described` is what it then says: every window from the second on that more lines
follow is written, and a line is labelled `0` when it is accessed again in the lookahead.

`nr_windows` is computed with the literal `100`. So the script counts too few windows when
`WINDOW` is smaller, and too many when it is larger, where it runs out of lines. It does what is
described exactly when both ways of counting give the same number of windows to write
(`main_described_iff`).
-/

namespace CacheTrace.Label

open Text

section Described

variable (cfg : Config) (filecontent : List Text)

/-- A line with the fields 2 and 3 of `l` comes in the lookahead of window `i`. -/
def Reaccessed (i : Nat) (l : Text) : Prop :=
  ∃ q < min filecontent.length ((i + 1) * cfg.window + cfg.lookahead * cfg.window),
    (i + 1) * cfg.window ≤ q ∧ filecontent[q]?.any (sameAccess l)

instance (i : Nat) (l : Text) : Decidable (Reaccessed cfg filecontent i l) :=
  inferInstanceAs (Decidable (∃ q < _, _))

/-- The windows from the second on that are followed by at least one line. -/
def followedWindows : List Nat :=
  (List.range filecontent.length).filter fun i =>
    1 ≤ i ∧ (i + 1) * cfg.window ≤ filecontent.length - 1

/-- The calls of `write_outfile` that the docstring describes. -/
def described : List (Text × Text) :=
  (followedWindows cfg filecontent).flatMap fun i =>
    (windowLines cfg filecontent i).map fun l =>
      (l, if Reaccessed cfg filecontent i l then ['0'] else ['1'])

end Described

variable {cfg : Config} {filecontent : List Text}

theorem reaccessed_iff {i : Nat} {l : Text} :
    Reaccessed cfg filecontent i l ↔ labelOf cfg filecontent i l = ['0'] := by
  rw [labelOf_eq_zero]
  constructor
  · rintro ⟨q, hlt, hle, hany⟩
    cases hq : filecontent[q]? with
    | none =>
      rw [hq] at hany
      cases hany
    | some b =>
      rw [hq] at hany
      exact ⟨b, mem_lookaheadLines.mpr ⟨q, hle, by omega, hq⟩, hany⟩
  · rintro ⟨b, hb, hsame⟩
    obtain ⟨q, hle, hlt, hq⟩ := mem_lookaheadLines.mp hb
    have hq' := (List.getElem?_eq_some_iff.mp hq).1
    exact ⟨q, by omega, hle, by rw [hq]; exact hsame⟩

/-- The windows that are followed by a line are counted with `WINDOW`. -/
theorem followedWindows_eq (hw : 1 ≤ cfg.window) :
    followedWindows cfg filecontent = range 1 ((filecontent.length - 1) / cfg.window) := by
  have hcount : ∀ i, (i + 1) * cfg.window ≤ filecontent.length - 1 ↔
      i < (filecontent.length - 1) / cfg.window := fun i => (Nat.le_div_iff_mul_le hw).symm
  have hle : (filecontent.length - 1) / cfg.window ≤ filecontent.length :=
    (Nat.div_le_self _ _).trans (Nat.sub_le _ _)
  simp only [followedWindows, hcount]
  by_cases hone : 1 ≤ (filecontent.length - 1) / cfg.window
  · exact Lists.filter_range_interval hone hle
  · rw [range, show (filecontent.length - 1) / cfg.window - 1 = 0 by omega]
    apply List.filter_eq_nil_iff.mpr
    intro i _
    simp only [decide_eq_true_eq]
    omega

theorem described_eq (hw : 1 ≤ cfg.window) :
    described cfg filecontent =
      (range 1 ((filecontent.length - 1) / cfg.window)).flatMap
        (labelledWindow cfg filecontent) := by
  rw [described, followedWindows_eq hw]
  refine List.flatMap_congr fun i _ => List.map_congr_left fun l _ => ?_
  rcases labelOf_cases cfg filecontent i l with h | h
  · rw [if_pos (reaccessed_iff.mpr h), h]
  · rw [if_neg (by simp [reaccessed_iff, h]), h]

/-- A run without an exception has made all of its calls. -/
theorem runCalls_length {α : Type} {calls : List (Except PyError α)}
    (h : (runCalls calls).2 = none) : (runCalls calls).1.length = calls.length := by
  induction calls with
  | nil => rfl
  | cons c calls ih =>
    cases c with
    | error e => cases h
    | ok c =>
      rw [runCalls, List.length_cons, List.length_cons, ih h]

theorem main_length (h : (main cfg filecontent).2 = none) :
    (main cfg filecontent).1.length = (nrWindows filecontent.length - 1) * cfg.window := by
  rw [main, runCalls_length h, range]
  apply Lists.flatMap_range'_length
  intro i _ _
  rw [List.length_map, range, List.length_range', Nat.succ_mul, Nat.add_sub_cancel_left]

/-- A window that is followed by a line lies in the trace. -/
theorem window_le (hw : 1 ≤ cfg.window) {i : Nat}
    (hi : i < (filecontent.length - 1) / cfg.window) :
    (i + 1) * cfg.window ≤ filecontent.length := by
  have h := (Nat.le_div_iff_mul_le hw).mp hi
  exact h.trans (Nat.sub_le _ _)

theorem described_length (hw : 1 ≤ cfg.window) :
    (described cfg filecontent).length =
      ((filecontent.length - 1) / cfg.window - 1) * cfg.window := by
  rw [described_eq hw, range]
  apply Lists.flatMap_range'_length
  intro i _ hi
  exact labelledWindow_length (window_le hw (by omega))

/-- **When the script does what is described.** -/
theorem main_described_iff (hw : 1 ≤ cfg.window)
    (hfields : ∀ l ∈ filecontent, 5 ≤ (split delim l).length) :
    main cfg filecontent = (described cfg filecontent, none) ↔
      (filecontent.length - 1) / 100 = (filecontent.length - 1) / cfg.window ∨
        (filecontent.length - 1) / 100 ≤ 1 ∧ (filecontent.length - 1) / cfg.window ≤ 1 := by
  have hcounts : ((filecontent.length - 1) / 100 = (filecontent.length - 1) / cfg.window ∨
      (filecontent.length - 1) / 100 ≤ 1 ∧ (filecontent.length - 1) / cfg.window ≤ 1) ↔
      nrWindows filecontent.length - 1 = (filecontent.length - 1) / cfg.window - 1 := by
    rw [nrWindows_eq]
    omega
  rw [hcounts]
  constructor
  · intro h
    have hlength := main_length (congrArg Prod.snd h)
    rw [h, described_length hw] at hlength
    exact (Nat.eq_of_mul_eq_mul_right hw hlength).symm
  · intro h
    have haccess : HasAccess filecontent := fun l hl => (by decide : 4 ≤ 5).trans (hfields l hl)
    rw [main_eq_of_windows haccess fun i hi hlt => window_le hw (by omega), described_eq hw,
      emitted, range, range, h]

/-- With the values of the docstring, a trace of 16 lines has two windows to write. The script
writes none. -/
theorem main_five_lines :
    (∀ l ∈ List.replicate 16 sampleLine, 5 ≤ (split delim l).length) ∧
      main ⟨5, 1⟩ (List.replicate 16 sampleLine) = ([], none) ∧
      (described ⟨5, 1⟩ (List.replicate 16 sampleLine)).length = 10 := by
  refine ⟨?_, by decide +kernel, by rw [described_length (by decide)]; decide⟩
  intro l hl
  rw [List.eq_of_mem_replicate hl]
  decide

/-- With windows of 99 lines the script counts as many as it should in 250 lines. -/
theorem main_described_replicate :
    main ⟨99, 1⟩ (List.replicate 250 sampleLine) =
      (described ⟨99, 1⟩ (List.replicate 250 sampleLine), none) := by
  refine (main_described_iff (by decide) ?_).mpr (by decide +kernel)
  intro l hl
  rw [List.eq_of_mem_replicate hl]
  decide

end CacheTrace.Label
