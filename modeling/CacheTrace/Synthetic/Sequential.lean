import CacheTrace.Log.Format

/-!
# The sequential workload and its labels

`data_gen/synthetic/seq.py` draws a descriptor for every line and moves the offset of the
descriptor by `stride` times its size. Descriptors are drawn with repetition, so `fd_list` may
hold one of them several times, while the dictionaries hold it once.

The offsets before line `p` are known in closed form: a descriptor that was drawn `k` times has
the offset `k * size * stride` (`offsetAt`). This is the invariant of the loop (`main_eq`). Two
lines of one descriptor have different `k`, so their bytes are disjoint (`offset_add_size_le`)
and the labeller finds no access again (`labels_sequential`).
-/

namespace CacheTrace.Synthetic.Sequential

open Text Log Label

/-! ## The program -/

structure State where
  globals : Globals
  outfile : Text

variable {nrFiles : Nat} (stride : Nat) (c : Choices nrFiles)

/-- The body of the loop of `main`. -/
def mainBody (s : State) (i : Nat) : Option State := do
  let (line, g) ← generateLine stride s.globals (c.choice i) (c.pid i)
  return ⟨g, s.outfile ++ outline line⟩

/-- `main` with `nrEntries` entries, writing to an empty file. -/
def main (nrEntries : Nat) : Option State :=
  (List.range nrEntries).foldlM (mainBody stride c) ⟨initDicts c, []⟩

/-! ## The run in closed form -/

/-- The number of lines of a descriptor before line `p`. -/
def drawnBefore (p fd : Nat) : Nat := (List.range p).countP fun q => c.fdAt q = fd

/-- The offsets before line `p`. -/
def offsetAt (p fd : Nat) : Nat := drawnBefore c p fd * c.size fd * stride

/-- The numbers of line `p`. -/
def entryAt (p : Nat) : Entry := freshEntry c (offsetAt stride c p) p

/-- The variables and the file before line `p`. -/
def stateAt (p : Nat) : State where
  globals := globalsWith c (offsetAt stride c p)
  outfile := ((List.range p).map fun k => entryLine (entryAt stride c k)).flatten

theorem drawnBefore_succ (p fd : Nat) :
    drawnBefore c (p + 1) fd = drawnBefore c p fd + if c.fdAt p = fd then 1 else 0 := by
  simp [drawnBefore, List.range_succ, List.countP_append, List.countP_cons]

theorem advance_offsetAt (p : Nat) :
    advance c stride (offsetAt stride c p) p = offsetAt stride c (p + 1) := by
  funext fd
  by_cases hfd : fd = c.fdAt p
  · subst hfd
    rw [advance, Function.update_self, offsetAt, offsetAt, drawnBefore_succ, if_pos rfl,
      Nat.succ_mul, Nat.add_mul]
  · rw [advance, Function.update_of_ne hfd, offsetAt, offsetAt, drawnBefore_succ,
      if_neg (Ne.symm hfd), Nat.add_zero]

theorem mainBody_stateAt (p : Nat) :
    mainBody stride c (stateAt stride c p) p = some (stateAt stride c (p + 1)) := by
  have hgen := generateLine_eq c stride (offsetAt stride c p) p
  rw [advance_offsetAt] at hgen
  have hfile : (stateAt stride c (p + 1)).outfile =
      (stateAt stride c p).outfile ++ entryLine (entryAt stride c p) := by
    simp [stateAt, List.range_succ]
  have hglobals : (stateAt stride c p).globals = globalsWith c (offsetAt stride c p) := rfl
  rw [mainBody, hglobals, hgen]
  simp only [bind, Option.bind, pure, outline_lineBody]
  exact congrArg some (congrArg (State.mk _) hfile.symm)

/-- **The run in closed form.** -/
theorem main_eq (nrEntries : Nat) :
    main stride c nrEntries = some (stateAt stride c nrEntries) := by
  have hinit : (⟨initDicts c, []⟩ : State) = stateAt stride c 0 := by
    rw [initDicts_eq, stateAt]
    congr
    funext fd
    simp [offsetAt, drawnBefore]
  rw [main, hinit]
  exact Lists.foldlM_range fun p _ => mainBody_stateAt stride c p

/-! ## Bytes and labels -/

variable {stride}

theorem drawnBefore_mono {p q : Nat} (h : p ≤ q) (fd : Nat) :
    drawnBefore c p fd ≤ drawnBefore c q fd := by
  have hstep (p : Nat) : drawnBefore c p fd ≤ drawnBefore c (p + 1) fd := by
    rw [drawnBefore_succ]
    exact Nat.le_add_right _ _
  exact monotone_nat_of_le_succ hstep h

/-- The bytes of a line end before the next line of the descriptor. -/
theorem offset_add_size_le (hstride : 1 ≤ stride) {p q : Nat} (hpq : p < q) :
    offsetAt stride c p (c.fdAt p) + c.size (c.fdAt p) ≤ offsetAt stride c q (c.fdAt p) := by
  have hcount : drawnBefore c p (c.fdAt p) + 1 ≤ drawnBefore c q (c.fdAt p) := by
    have hmono := drawnBefore_mono c hpq (c.fdAt p)
    rwa [drawnBefore_succ, if_pos rfl] at hmono
  calc offsetAt stride c p (c.fdAt p) + c.size (c.fdAt p)
      ≤ offsetAt stride c p (c.fdAt p) + c.size (c.fdAt p) * stride :=
        Nat.add_le_add_left (Nat.le_mul_of_pos_right _ hstride) _
    _ = (drawnBefore c p (c.fdAt p) + 1) * c.size (c.fdAt p) * stride := by
        rw [offsetAt, Nat.succ_mul, Nat.add_mul]
    _ ≤ offsetAt stride c q (c.fdAt p) :=
        Nat.mul_le_mul_right _ (Nat.mul_le_mul_right _ hcount)

/-- Line `p` is an access to byte `x` of its descriptor. -/
def HasByte (stride p x : Nat) : Prop :=
  offsetAt stride c p (c.fdAt p) ≤ x ∧ x < offsetAt stride c p (c.fdAt p) + c.size (c.fdAt p)

theorem disjoint_bytes (hstride : 1 ≤ stride) {p q : Nat} (hpq : p ≠ q)
    (hfd : c.fdAt p = c.fdAt q) (x : Nat) : ¬ (HasByte c stride p x ∧ HasByte c stride q x) := by
  rintro ⟨⟨hp, hp'⟩, hq, hq'⟩
  rcases Nat.lt_or_gt_of_ne hpq with h | h
  · have hle := offset_add_size_le c hstride h
    rw [← hfd] at hq
    omega
  · have hle := offset_add_size_le c hstride h
    rw [hfd] at hp
    omega

/-- No line has the descriptor and the offset of an earlier one. -/
theorem sameAccess_entryAt (hstride : 1 ≤ stride) {p q : Nat} (hpq : p < q) :
    sameAccess (entryLine (entryAt stride c p)) (entryLine (entryAt stride c q)) = false := by
  rw [← Bool.not_eq_true, sameAccess_entryLine]
  rintro ⟨hfd, hoffset⟩
  have hfd : c.fdAt p = c.fdAt q := Int.natCast_inj.mp hfd
  have hoffset : offsetAt stride c p (c.fdAt p) = offsetAt stride c q (c.fdAt q) :=
    Int.natCast_inj.mp hoffset
  have hle := offset_add_size_le c hstride hpq
  have hsize := c.size_ge (c.fdAt p)
  rw [← hfd] at hoffset
  omega

/-- The lines of the generated trace. -/
def traceLines (stride nrEntries : Nat) : List Text :=
  (List.range nrEntries).map fun p => entryLine (entryAt stride c p)

theorem readlines_outfile (nrEntries : Nat) :
    readlines (stateAt stride c nrEntries).outfile = traceLines c stride nrEntries :=
  readlines_entryLines _ (entryAt stride c)

theorem of_traceLines_getElem? {nrEntries p : Nat} {l : Text}
    (h : (traceLines c stride nrEntries)[p]? = some l) : l = entryLine (entryAt stride c p) := by
  rw [traceLines, List.getElem?_map] at h
  obtain ⟨k, hk, rfl⟩ := Option.map_eq_some_iff.mp h
  obtain ⟨-, rfl⟩ := List.getElem?_eq_some_iff.mp hk
  rw [List.getElem_range]

/-- **Labels of the sequential workload.** The trace is generated into an empty file and
labelled. A line that was preceded by `k` lines of its descriptor has the offset
`k * size * stride`, no two lines of a descriptor have a byte in common, and every line that is
written gets the label `1`. -/
theorem labels_sequential (hstride : 1 ≤ stride) (nrEntries : Nat) :
    ∃ s lines out, main stride c nrEntries = some s ∧ readlines s.outfile = lines ∧
      lines = (List.range nrEntries).map (fun p => entryLine ⟨0, c.pid p, c.fdAt p,
        (drawnBefore c p (c.fdAt p) * c.size (c.fdAt p) * stride : Nat), c.size (c.fdAt p)⟩) ∧
      (∀ p < nrEntries, ∀ q < nrEntries, p ≠ q → c.fdAt p = c.fdAt q →
        ∀ x, ¬ (HasByte c stride p x ∧ HasByte c stride q x)) ∧
      Label.main config lines = (out, none) ∧
      out.map Prod.fst = (lines.drop 100).take ((nrWindows nrEntries - 1) * 100) ∧
      ∀ e ∈ out, e.2 = ['1'] := by
  have haccess : HasAccess (traceLines c stride nrEntries) :=
    hasAccess_entryLines _ (entryAt stride c)
  have hlen : (traceLines c stride nrEntries).length = nrEntries := by simp [traceLines]
  refine ⟨_, _, _, main_eq stride c nrEntries, readlines_outfile c nrEntries, rfl, ?_,
    main_config_eq haccess, ?_, ?_⟩
  · intro p _ q _ hpq hfd
    exact disjoint_bytes c hstride hpq hfd
  · rw [emitted_lines (nrWindows_mul_le _), hlen]
    rfl
  · apply emitted_label_one
    intro p q a b hpq ha hb
    rw [of_traceLines_getElem? c ha, of_traceLines_getElem? c hb]
    exact sameAccess_entryAt c hstride hpq

/-- Three files, two of them with the same descriptor, drawn in turn. -/
def sampleChoices : Choices 3 where
  fd i := if i.val = 2 then 1001 else 1000
  size _ := 4096
  size_ge _ := Nat.le_refl _
  choice p := ⟨p % 3, Nat.mod_lt p (by decide)⟩
  pid _ := 1000

theorem labels_sequential_sample :
    ∃ s out, main 2 sampleChoices 301 = some s ∧
      Label.main config (readlines s.outfile) = (out, none) ∧ out.length = 200 ∧
      ∀ e ∈ out, e.2 = ['1'] := by
  obtain ⟨s, lines, out, hs, hread, hlines, -, hout, hfst, hone⟩ :=
    labels_sequential sampleChoices (show 1 ≤ 2 by decide) 301
  refine ⟨s, out, hs, hread ▸ hout, ?_, hone⟩
  have hlength := congrArg List.length hfst
  rw [List.length_map, List.length_take, List.length_drop, hlines, List.length_map,
    List.length_range] at hlength
  rw [hlength]
  decide

end CacheTrace.Synthetic.Sequential
