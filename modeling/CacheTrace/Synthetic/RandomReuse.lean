import CacheTrace.Log.Format
import Mathlib.Algebra.Order.Ring.Rat
import Mathlib.Tactic.NormNum

/-!
# The random-reuse workload and its labels

`data_gen/synthetic/random_reuse.py` writes windows of `window_sz` lines. The first window
is generated and remembered in `access_list`; at position `j` of every later window a coin
decides between line `j` of the first window and a newly generated line.

The run is computed in closed form (`main_eq`): line `p` of the trace is the line generated
for line number `origin p`, which is `p` itself or, after reuse, its position in the first
window. No two generated lines agree in descriptor and offset (`key_inj`), because every
generated line moves the offset of its descriptor. The labels follow (`labels_random_reuse`).
-/

namespace CacheTrace.Synthetic.RandomReuse

open Text Log Label

/-! ## The program -/

def windowSz : Nat := 100

def randomness : Rat := 4 / 10

/-- The outcomes of the random calls, with those of the coin. -/
structure Choices (nrFiles : Nat) extends Synthetic.Choices nrFiles where
  /-- `random.randint(1, 100)`, numbered by the line it is made for. -/
  flip : Nat → Nat

/-- The number of the line at position `j` of window `i`. -/
def lineNumber (i j : Nat) : Nat := i * windowSz + j

theorem lineNumber_mod {i j : Nat} (hj : j < windowSz) : lineNumber i j % windowSz = j := by
  rw [lineNumber, Nat.add_comm, Nat.add_mul_mod_self_right, Nat.mod_eq_of_lt hj]

structure State where
  globals : Globals
  accessList : List Text
  outfile : Text

variable {nrFiles : Nat} (stride : Nat) (c : Choices nrFiles)

/-- The body of the loop of `first_time`. -/
def firstTimeBody (i : Nat) (s : State) (j : Nat) : Option State := do
  let (line, g) ← generateLine stride s.globals (c.choice (lineNumber i j)) (c.pid (lineNumber i j))
  return ⟨g, s.accessList ++ [line], s.outfile ++ outline line⟩

def firstTime (i : Nat) (s : State) : Option State :=
  (List.range windowSz).foldlM (firstTimeBody stride c i) s

/-- The body of the loop of `random_reuse`. -/
def randomReuseBody (i : Nat) (s : State) (j : Nat) : Option State := do
  let flip := c.flip (lineNumber i j)
  if (flip : Rat) < 100 * randomness then
    let line ← s.accessList[j]?
    return { s with outfile := s.outfile ++ outline line }
  else
    let (line, g) ←
      generateLine stride s.globals (c.choice (lineNumber i j)) (c.pid (lineNumber i j))
    return { s with globals := g, outfile := s.outfile ++ outline line }

def randomReuse (i : Nat) (s : State) : Option State :=
  (List.range windowSz).foldlM (randomReuseBody stride c i) s

/-- The body of the loop of `main`. -/
def mainBody (s : State) (i : Nat) : Option State :=
  if i = 0 then firstTime stride c i s else randomReuse stride c i s

/-- `main` with `nrWindows` windows, writing to an empty file. -/
def main (nrWindows : Nat) : Option State :=
  (List.range nrWindows).foldlM (mainBody stride c) ⟨initDicts c.toChoices, [], []⟩

/-- The reuse branch is taken at position `j` of window `i`. -/
def Choices.Reuses (i j : Nat) : Prop := (c.flip (lineNumber i j) : Rat) < 100 * randomness

instance (i j : Nat) : Decidable (c.Reuses i j) :=
  inferInstanceAs (Decidable ((c.flip (lineNumber i j) : Rat) < 100 * randomness))

/-! ## The run in closed form -/

/-- Line `p` is a line of the first window, taken again. -/
def Choices.Reused (p : Nat) : Prop := windowSz ≤ p ∧ (c.flip p : Rat) < 100 * randomness

instance (p : Nat) : Decidable (c.Reused p) :=
  inferInstanceAs (Decidable (windowSz ≤ p ∧ (c.flip p : Rat) < 100 * randomness))

theorem Choices.reused_lineNumber {i j : Nat} (hi : 1 ≤ i) :
    c.Reused (lineNumber i j) ↔ c.Reuses i j := by
  have hle : windowSz ≤ lineNumber i j :=
    (Nat.le_mul_of_pos_left windowSz hi).trans (Nat.le_add_right _ _)
  exact ⟨fun h => h.2, fun h => ⟨hle, h⟩⟩

/-- The line number for which the text of line `p` was generated. -/
def Choices.origin (p : Nat) : Nat := if c.Reused p then p % windowSz else p

/-- The offsets before line `p`. -/
def offsetAt : Nat → Nat → Nat
  | 0 => fun _ => 0
  | p + 1 => if c.Reused p then offsetAt p else advance c.toChoices stride (offsetAt p) p

/-- The numbers of line `p`. -/
def entryAt (p : Nat) : Entry :=
  freshEntry c.toChoices (offsetAt stride c (c.origin p)) (c.origin p)

/-- The variables and the file before line `p`. -/
def stateAt (p : Nat) : State where
  globals := globalsWith c.toChoices (offsetAt stride c p)
  accessList := (List.range (min p windowSz)).map fun k => lineBody (entryAt stride c k)
  outfile := ((List.range p).map fun k => entryLine (entryAt stride c k)).flatten

variable {c}

theorem not_reused_of_lt {p : Nat} (h : p < windowSz) : ¬ c.Reused p :=
  fun hr => absurd hr.1 (Nat.not_le.mpr h)

theorem origin_of_not_reused {p : Nat} (h : ¬ c.Reused p) : c.origin p = p := if_neg h

theorem origin_of_reused {p : Nat} (h : c.Reused p) : c.origin p = p % windowSz := if_pos h

theorem not_reused_origin (p : Nat) : ¬ c.Reused (c.origin p) := by
  by_cases h : c.Reused p
  · rw [origin_of_reused h]
    exact not_reused_of_lt (Nat.mod_lt _ (by decide))
  · rwa [origin_of_not_reused h]

variable (c)

theorem outfile_succ (p : Nat) :
    (stateAt stride c (p + 1)).outfile =
      (stateAt stride c p).outfile ++ entryLine (entryAt stride c p) := by
  simp [stateAt, List.range_succ]

/-- Generating a line that is not a reused one leads from state `p` to state `p + 1`. -/
theorem generateLine_stateAt {p : Nat} (h : ¬ c.Reused p) :
    generateLine stride (stateAt stride c p).globals (c.choice p) (c.pid p) =
      some (lineBody (entryAt stride c p), (stateAt stride c (p + 1)).globals) := by
  simp only [stateAt, entryAt, origin_of_not_reused h, offsetAt, if_neg h]
  exact generateLine_eq c.toChoices stride (offsetAt stride c p) p

theorem firstTimeBody_stateAt {j : Nat} (hj : j < windowSz) :
    firstTimeBody stride c 0 (stateAt stride c j) j = some (stateAt stride c (j + 1)) := by
  have hnum : lineNumber 0 j = j := by simp [lineNumber]
  have hgen := generateLine_stateAt stride c (not_reused_of_lt (c := c) hj)
  have hlist : (stateAt stride c (j + 1)).accessList =
      (stateAt stride c j).accessList ++ [lineBody (entryAt stride c j)] := by
    simp only [stateAt]
    rw [Nat.min_eq_left (by omega), Nat.min_eq_left hj.le, List.range_succ, List.map_append]
    rfl
  rw [firstTimeBody, hnum, hgen]
  simp only [bind, Option.bind, pure, outline_lineBody, ← outfile_succ, ← hlist]

theorem randomReuseBody_stateAt {i j : Nat} (hi : 1 ≤ i) (hj : j < windowSz) :
    randomReuseBody stride c i (stateAt stride c (lineNumber i j)) j =
      some (stateAt stride c (lineNumber i j + 1)) := by
  have hle : windowSz ≤ lineNumber i j :=
    (Nat.le_mul_of_pos_left windowSz hi).trans (Nat.le_add_right _ _)
  -- from the second window on, `access_list` is complete and does not change
  have hlist : (stateAt stride c (lineNumber i j + 1)).accessList =
      (stateAt stride c (lineNumber i j)).accessList := by
    simp only [stateAt]
    rw [Nat.min_eq_right (by omega), Nat.min_eq_right hle]
  unfold randomReuseBody
  dsimp only
  split_ifs with hflip
  · have hreused : c.Reused (lineNumber i j) := ⟨hle, hflip⟩
    have horigin : c.origin (lineNumber i j) = j := by
      rw [origin_of_reused hreused, lineNumber_mod hj]
    have hline : (stateAt stride c (lineNumber i j)).accessList[j]? =
        some (lineBody (entryAt stride c (lineNumber i j))) := by
      have hentry : entryAt stride c (lineNumber i j) = entryAt stride c j := by
        unfold entryAt
        rw [horigin, origin_of_not_reused (not_reused_of_lt hj)]
      simp only [stateAt]
      rw [Nat.min_eq_right hle, List.getElem?_map, List.getElem?_range hj, hentry]
      rfl
    have hglobals : (stateAt stride c (lineNumber i j + 1)).globals =
        (stateAt stride c (lineNumber i j)).globals := by
      simp only [stateAt, offsetAt, if_pos hreused]
    rw [hline]
    simp only [bind, Option.bind, pure, outline_lineBody, ← outfile_succ, ← hlist, ← hglobals]
  · have hgen := generateLine_stateAt stride c (p := lineNumber i j) fun h => hflip h.2
    rw [hgen]
    simp only [bind, Option.bind, pure, outline_lineBody, ← outfile_succ, ← hlist]

theorem mainBody_stateAt (i : Nat) :
    mainBody stride c (stateAt stride c (lineNumber i 0)) i =
      some (stateAt stride c (lineNumber (i + 1) 0)) := by
  have hnext : lineNumber (i + 1) 0 = lineNumber i windowSz := by
    simp only [lineNumber, Nat.succ_mul, Nat.add_zero]
  have hstep : ∀ j, lineNumber i (j + 1) = lineNumber i j + 1 := fun j => rfl
  unfold mainBody
  rw [hnext]
  split_ifs with hi
  · subst hi
    have hnum : ∀ j, lineNumber 0 j = j := fun j => by simp [lineNumber]
    rw [hnum, hnum]
    exact Lists.foldlM_range (s := stateAt stride c) fun j hj => firstTimeBody_stateAt stride c hj
  · exact Lists.foldlM_range (s := fun j => stateAt stride c (lineNumber i j)) fun j hj =>
      randomReuseBody_stateAt stride c (by omega) hj

/-- **The run in closed form.** -/
theorem main_eq (nrWindows : Nat) :
    main stride c nrWindows = some (stateAt stride c (lineNumber nrWindows 0)) := by
  have hinit : (⟨initDicts c.toChoices, [], []⟩ : State) = stateAt stride c (lineNumber 0 0) := by
    rw [initDicts_eq]
    rfl
  unfold main
  rw [hinit]
  exact Lists.foldlM_range (s := fun i => stateAt stride c (lineNumber i 0)) fun i _ =>
    mainBody_stateAt stride c i

/-! ## No generated line is generated twice -/

variable {stride}

theorem offsetAt_le_succ (p fd : Nat) : offsetAt stride c p fd ≤ offsetAt stride c (p + 1) fd := by
  rw [offsetAt]
  split_ifs
  · exact le_rfl
  · by_cases hfd : fd = c.fdAt p
    · subst hfd
      simp [advance]
    · rw [advance, Function.update_of_ne hfd]

theorem offsetAt_mono {p q : Nat} (h : p ≤ q) (fd : Nat) :
    offsetAt stride c p fd ≤ offsetAt stride c q fd :=
  monotone_nat_of_le_succ (fun p => offsetAt_le_succ c p fd) h

/-- A generated line moves the offset of its descriptor past its own offset. -/
theorem offsetAt_lt_of_lt (hstride : 1 ≤ stride) {p q : Nat} (hp : ¬ c.Reused p) (hpq : p < q) :
    offsetAt stride c p (c.fdAt p) < offsetAt stride c q (c.fdAt p) := by
  have hsize := c.size_ge (c.fdAt p)
  have hmove : 0 < c.size (c.fdAt p) * stride := Nat.mul_pos (by omega) hstride
  calc offsetAt stride c p (c.fdAt p)
      < offsetAt stride c p (c.fdAt p) + c.size (c.fdAt p) * stride := by omega
    _ = offsetAt stride c (p + 1) (c.fdAt p) := by
        rw [offsetAt, if_neg hp, advance, Function.update_self]
    _ ≤ offsetAt stride c q (c.fdAt p) := offsetAt_mono c hpq _

/-- Generated lines with the same descriptor and offset are the same line. -/
theorem key_inj (hstride : 1 ≤ stride) {p q : Nat} (hp : ¬ c.Reused p) (hq : ¬ c.Reused q)
    (hfd : c.fdAt p = c.fdAt q)
    (hoffset : offsetAt stride c p (c.fdAt p) = offsetAt stride c q (c.fdAt q)) : p = q := by
  rcases Nat.lt_trichotomy p q with h | h | h
  · have hlt := offsetAt_lt_of_lt c hstride hp h
    rw [hoffset, hfd] at hlt
    omega
  · exact h
  · have hlt := offsetAt_lt_of_lt c hstride hq h
    rw [← hoffset, ← hfd] at hlt
    omega

theorem sameAccess_entryAt (hstride : 1 ≤ stride) (p q : Nat) :
    sameAccess (entryLine (entryAt stride c p)) (entryLine (entryAt stride c q)) = true ↔
      c.origin p = c.origin q := by
  rw [sameAccess_entryLine]
  constructor
  · rintro ⟨hfd, hoffset⟩
    exact key_inj c hstride (not_reused_origin p) (not_reused_origin q)
      (Int.natCast_inj.mp hfd) (Int.natCast_inj.mp hoffset)
  · intro h
    simp only [entryAt, h, and_self]

/-! ## The labels -/

/-- A line of window `i ≥ 1` and a later line have the same origin exactly when both are
reused at the same position. -/
theorem origin_eq_iff {p q : Nat} (hp : windowSz ≤ p) (hpq : p < q) :
    c.origin p = c.origin q ↔ c.Reused p ∧ c.Reused q ∧ p % windowSz = q % windowSz := by
  have hmod : ∀ k, k % windowSz < windowSz := fun k => Nat.mod_lt _ (by decide)
  by_cases hrp : c.Reused p
  · rw [origin_of_reused hrp]
    by_cases hrq : c.Reused q
    · rw [origin_of_reused hrq]
      exact ⟨fun h => ⟨hrp, hrq, h⟩, fun h => h.2.2⟩
    · rw [origin_of_not_reused hrq]
      have := hmod p
      exact ⟨fun h => by omega, fun h => absurd h.2.1 hrq⟩
  · rw [origin_of_not_reused hrp]
    refine ⟨fun h => ?_, fun h => absurd h.1 hrp⟩
    by_cases hrq : c.Reused q
    · rw [origin_of_reused hrq] at h
      have := hmod q
      omega
    · rw [origin_of_not_reused hrq] at h
      omega

/-- The lines of the generated trace. -/
def traceLines (stride : Nat) (nrWindows : Nat) : List Text :=
  (List.range (lineNumber nrWindows 0)).map fun p => entryLine (entryAt stride c p)

theorem readlines_outfile (nrWindows : Nat) :
    readlines (stateAt stride c (lineNumber nrWindows 0)).outfile =
      traceLines c stride nrWindows :=
  readlines_entryLines _ (entryAt stride c)

theorem traceLines_length (nrWindows : Nat) :
    (traceLines c stride nrWindows).length = nrWindows * 100 := by
  simp [traceLines, lineNumber, windowSz]

theorem traceLines_getElem? {nrWindows p : Nat} (hp : p < nrWindows * 100) :
    (traceLines c stride nrWindows)[p]? = some (entryLine (entryAt stride c p)) := by
  have hp' : p < lineNumber nrWindows 0 := hp
  rw [traceLines, List.getElem?_map, List.getElem?_range hp']
  rfl

/-- The label of position `j` of window `i`. -/
theorem labelOf_traceLines (hstride : 1 ≤ stride) {nrWindows i j : Nat} (hi : 1 ≤ i)
    (hi' : i + 1 < nrWindows) (hj : j < windowSz) :
    labelOf config (traceLines c stride nrWindows) i
        (entryLine (entryAt stride c (lineNumber i j))) = ['0'] ↔
      c.Reuses i j ∧ (c.Reuses (i + 1) j ∨ (i + 2 < nrWindows ∧ c.Reuses (i + 2) j)) := by
  have hnum : ∀ i, lineNumber i j = i * 100 + j := fun _ => rfl
  have hj' : j < 100 := hj
  rw [labelOf_eq_zero]
  constructor
  · rintro ⟨b, hb, hsame⟩
    obtain ⟨q, hle, hlt, hq⟩ := mem_lookaheadLines.mp hb
    change (i + 1) * 100 ≤ q at hle
    change q < (i + 1) * 100 + 2 * 100 at hlt
    have hqn : q < nrWindows * 100 := by
      have := (List.getElem?_eq_some_iff.mp hq).1
      rwa [traceLines_length] at this
    rw [traceLines_getElem? c hqn] at hq
    cases hq
    have hwin : windowSz ≤ lineNumber i j := by
      rw [hnum]
      change 100 ≤ _
      omega
    obtain ⟨hri, hrq, hmod⟩ := (origin_eq_iff c hwin (by rw [hnum]; omega)).mp
      ((sameAccess_entryAt c hstride _ _).mp hsame)
    rw [lineNumber_mod hj] at hmod
    change j = q % 100 at hmod
    refine ⟨(c.reused_lineNumber hi).mp hri, ?_⟩
    -- only two lines of the slice are at position `j`
    have hcases : q = lineNumber (i + 1) j ∨ q = lineNumber (i + 2) j := by
      rw [hnum, hnum]
      omega
    rcases hcases with rfl | rfl
    · exact Or.inl ((c.reused_lineNumber (by omega)).mp hrq)
    · refine Or.inr ⟨?_, (c.reused_lineNumber (by omega)).mp hrq⟩
      rw [hnum] at hqn
      omega
  · rintro ⟨hri, hlater⟩
    obtain ⟨i', hii', hi2, hin, hri'⟩ : ∃ i', i < i' ∧ i' ≤ i + 2 ∧ i' < nrWindows ∧
        c.Reuses i' j := by
      rcases hlater with h | ⟨h, h'⟩
      · exact ⟨i + 1, by omega, by omega, hi', h⟩
      · exact ⟨i + 2, by omega, by omega, h, h'⟩
    refine ⟨entryLine (entryAt stride c (lineNumber i' j)), ?_, ?_⟩
    · refine mem_lookaheadLines.mpr ⟨lineNumber i' j, ?_, ?_, ?_⟩
      · change (i + 1) * 100 ≤ i' * 100 + j
        omega
      · change i' * 100 + j < (i + 1) * 100 + 2 * 100
        omega
      · apply traceLines_getElem?
        rw [hnum]
        omega
    · rw [sameAccess_entryAt c hstride, origin_of_reused ((c.reused_lineNumber hi).mpr hri),
        origin_of_reused ((c.reused_lineNumber (by omega)).mpr hri'), lineNumber_mod hj,
        lineNumber_mod hj]

/-- **Labels of the random-reuse workload.** The trace of `nrWindows` windows is generated
into an empty file and labelled: the lines of the windows `1, …, nrWindows - 2` are written
in order, and position `j` of window `i` gets the label `0` exactly when it was reused
there and again in one of the next two windows. -/
theorem labels_random_reuse (hstride : 1 ≤ stride) (nrWindows : Nat) :
    ∃ s lines out, main stride c nrWindows = some s ∧ readlines s.outfile = lines ∧
      lines.length = nrWindows * 100 ∧ Label.main config lines = (out, none) ∧
      out.map Prod.fst = (lines.drop 100).take ((nrWindows - 2) * 100) ∧
      ∀ i j, 1 ≤ i → i + 1 < nrWindows → j < 100 →
        out[(i - 1) * 100 + j]?.map Prod.snd =
          some (if c.Reuses i j ∧ (c.Reuses (i + 1) j ∨ (i + 2 < nrWindows ∧ c.Reuses (i + 2) j))
            then ['0'] else ['1']) := by
  have hlen : (traceLines c stride nrWindows).length = nrWindows * 100 :=
    traceLines_length c nrWindows
  have haccess : HasAccess (traceLines c stride nrWindows) :=
    hasAccess_entryLines _ (entryAt stride c)
  have hcount : nrWindows * 100 ≠ 0 → Label.nrWindows (nrWindows * 100) = nrWindows - 1 := by
    intro hne
    rw [nrWindows_eq]
    omega
  have hcount' : Label.nrWindows (nrWindows * 100) - 1 = nrWindows - 2 := by
    by_cases hne : nrWindows * 100 = 0
    · rw [hne, nrWindows_eq]
      omega
    · rw [hcount hne]
      omega
  have hfit := nrWindows_mul_le (traceLines c stride nrWindows).length
  refine ⟨_, _, _, main_eq stride c nrWindows, readlines_outfile c nrWindows, hlen,
    main_config_eq haccess, ?_, ?_⟩
  · rw [emitted_lines hfit, hlen, hcount']
    rfl
  · intro i j hi hi' hj
    have hk : (i - 1) * 100 + j < (emitted config (traceLines c stride nrWindows)).length := by
      rw [emitted_length hfit, hlen, hcount']
      change _ < (nrWindows - 2) * 100
      omega
    have hp : config.window + ((i - 1) * 100 + j) = lineNumber i j := by
      change 100 + ((i - 1) * 100 + j) = i * 100 + j
      omega
    have hwin : 1 + ((i - 1) * 100 + j) / config.window = i := by
      change 1 + ((i - 1) * 100 + j) / 100 = i
      omega
    have hlt : lineNumber i j < nrWindows * 100 := by
      change i * 100 + j < _
      omega
    rw [emitted_getElem? hfit hk, hp, hwin, traceLines_getElem? c hlt]
    simp only [Option.map_some, Option.some.injEq]
    split_ifs with h
    · exact (labelOf_traceLines c hstride hi hi' hj).mpr h
    · rcases labelOf_cases config (traceLines c stride nrWindows) i
        (entryLine (entryAt stride c (lineNumber i j))) with h0 | h1
      · exact absurd ((labelOf_traceLines c hstride hi hi' hj).mp h0) h
      · exact h1

/-- One file, every coin decides for reuse. -/
def sampleChoices : Choices 1 where
  fd _ := 1000
  size _ := 4096
  size_ge _ := le_rfl
  choice _ := 0
  pid _ := 1000
  flip _ := 1

theorem labels_random_reuse_sample :
    ∃ s lines out, main 3 sampleChoices 4 = some s ∧ readlines s.outfile = lines ∧
      Label.main config lines = (out, none) ∧ out[0]?.map Prod.snd = some ['0'] := by
  obtain ⟨s, lines, out, hs, hlines, -, hout, -, hlabel⟩ :=
    labels_random_reuse sampleChoices (show 1 ≤ 3 by decide) 4
  refine ⟨s, lines, out, hs, hlines, hout, ?_⟩
  rw [hlabel 1 0 (by decide) (by decide) (by decide), if_pos]
  have hreuses : ∀ i, sampleChoices.Reuses i 0 := by
    intro i
    change ((1 : Nat) : Rat) < 100 * (4 / 10)
    norm_num
  exact ⟨hreuses 1, Or.inl (hreuses 2)⟩

end CacheTrace.Synthetic.RandomReuse
