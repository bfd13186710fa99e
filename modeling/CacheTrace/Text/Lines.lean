import CacheTrace.Text.Decimal
import Mathlib.Data.List.DropRight
import Mathlib.Data.List.Basic

/-!
# Lines, fields and tables of numbers

The text functions that record files are written and read with:

* `readlines` cuts a file into lines and keeps the newline at the end of each one;
* `split` cuts a line into fields at every occurrence of the separator;
* `strip` removes a character from both ends of a line;
* `readCsv` reads a whole file as rows of decimal integers, blank lines skipped.

A line is `Complete` when it ends in its only newline. `readlines` recovers every list of
complete lines from their concatenation (`readlines_flatten`), and `readCsv` recovers
every table whose rows are printed field by field (`readCsv_rows`).
-/

namespace CacheTrace.Text

/-! ## Lines -/

/-- Cut a text after every newline. -/
def readlines : Text → List Text
  | [] => []
  | c :: cs =>
    if c = '\n' then [c] :: readlines cs
    else match readlines cs with
      | [] => [[c]]
      | l :: ls => (c :: l) :: ls

/-- The line ends in a newline and has no other one. -/
def Complete (l : Text) : Prop := ∃ body, '\n' ∉ body ∧ l = body ++ ['\n']

theorem complete_line {body : Text} (h : '\n' ∉ body) : Complete (body ++ ['\n']) :=
  ⟨body, h, rfl⟩

theorem readlines_cons_line {body : Text} (h : '\n' ∉ body) (rest : Text) :
    readlines (body ++ '\n' :: rest) = (body ++ ['\n']) :: readlines rest := by
  induction body with
  | nil => simp [readlines]
  | cons c cs ih =>
    rw [List.mem_cons, not_or] at h
    have hc : c ≠ '\n' := fun he => h.1 he.symm
    rw [List.cons_append, readlines, if_neg hc, ih h.2]
    rfl

/-- **Lines are recovered from their concatenation.** -/
theorem readlines_flatten {ls : List Text} (h : ∀ l ∈ ls, Complete l) :
    readlines ls.flatten = ls := by
  induction ls with
  | nil => rfl
  | cons l ls ih =>
    obtain ⟨body, hbody, rfl⟩ := h l List.mem_cons_self
    have hrest := ih fun l' hl' => h l' (List.mem_cons_of_mem _ hl')
    rw [List.flatten_cons, List.append_assoc, List.singleton_append,
      readlines_cons_line hbody, hrest]

/-! ## Fields -/

/-- Cut a text at every occurrence of `c`, which is removed. -/
def split (c : Char) (t : Text) : List Text := t.splitOn c

/-- Remove `c` from both ends of a text. -/
def strip (c : Char) (t : Text) : Text := (t.dropWhile (· == c)).rdropWhile (· == c)

theorem strip_of_not_mem {c : Char} {t : Text} (h : c ∉ t) : strip c t = t := by
  have hne : ∀ x ∈ t, ¬ (x == c) = true := fun x hx he => h (beq_iff_eq.mp he ▸ hx)
  have hdrop : t.dropWhile (· == c) = t := by
    cases t with
    | nil => rfl
    | cons x xs => exact List.dropWhile_cons_of_neg (hne x List.mem_cons_self)
  rw [strip, hdrop, List.rdropWhile_eq_self_iff]
  exact fun hl => hne _ (List.getLast_mem hl)

/-- Stripping newlines from a line leaves its body. -/
theorem strip_line {body : Text} (h : '\n' ∉ body) : strip '\n' (body ++ ['\n']) = body := by
  by_cases hb : body = []
  · subst hb
    decide
  · obtain ⟨x, xs, rfl⟩ := List.exists_cons_of_ne_nil hb
    have hx : x ≠ '\n' := fun he => h (he ▸ List.mem_cons_self)
    have hdrop : ∀ ys : Text, (x :: ys).dropWhile (· == '\n') = x :: ys := fun ys => by
      simp [hx]
    have hs := strip_of_not_mem h
    rw [strip, hdrop] at hs
    rw [strip, List.cons_append, hdrop, ← List.cons_append,
      List.rdropWhile_concat_pos _ _ _ (by simp)]
    exact hs

/-- The fields of a line, put together with the separator between them. -/
def joinFields (c : Char) (fields : List Text) : Text := [c].intercalate fields

theorem split_joinFields {c : Char} {fields : List Text} (hne : fields ≠ [])
    (h : ∀ f ∈ fields, c ∉ f) : split c (joinFields c fields) = fields :=
  List.splitOn_intercalate c h hne

theorem mem_joinFields {c d : Char} {fields : List Text} (h : d ∈ joinFields c fields) :
    d = c ∨ ∃ f ∈ fields, d ∈ f := by
  induction fields with
  | nil => simp [joinFields] at h
  | cons f fs ih =>
    cases fs with
    | nil => exact Or.inr ⟨f, by simp, by simpa [joinFields] using h⟩
    | cons g gs =>
      rw [joinFields, List.intercalate_cons_cons] at h
      rcases List.mem_append.mp h with h | h
      · rcases List.mem_append.mp h with h | h
        · exact Or.inr ⟨f, by simp, h⟩
        · exact Or.inl (List.mem_singleton.mp h)
      · rcases ih h with h | ⟨f', hf', hd⟩
        · exact Or.inl h
        · exact Or.inr ⟨f', List.mem_cons_of_mem _ hf', hd⟩

theorem joinFields_split (c : Char) (t : Text) : joinFields c (split c t) = t :=
  List.intercalate_splitOn c

/-- One more field. -/
theorem joinFields_concat {c : Char} {fields : List Text} (hne : fields ≠ []) (f : Text) :
    joinFields c (fields ++ [f]) = joinFields c fields ++ c :: f := by
  induction fields with
  | nil => exact absurd rfl hne
  | cons g gs ih =>
    cases gs with
    | nil => simp [joinFields]
    | cons k ks =>
      have hrest := ih (List.cons_ne_nil k ks)
      unfold joinFields at hrest ⊢
      rw [List.cons_append, List.cons_append, List.intercalate_cons_cons,
        List.intercalate_cons_cons, ← List.cons_append, hrest]
      simp only [List.append_assoc]

theorem newline_not_mem_joinFields {fields : List Text} (h : ∀ f ∈ fields, '\n' ∉ f) :
    '\n' ∉ joinFields ',' fields := by
  intro hmem
  rcases mem_joinFields hmem with hc | ⟨f, hf, hd⟩
  · cases hc
  · exact h f hf hd

/-- Text put behind the last field belongs to that field. -/
theorem joinFields_append_tail (c : Char) (fields : List Text) (f tail : Text) :
    joinFields c (fields ++ [f]) ++ tail = joinFields c (fields ++ [f ++ tail]) := by
  induction fields with
  | nil => simp [joinFields]
  | cons g gs ih =>
    obtain ⟨x, xs, hx⟩ := List.exists_cons_of_ne_nil (List.append_ne_nil_of_right_ne_nil gs
      (List.cons_ne_nil f []))
    obtain ⟨y, ys, hy⟩ := List.exists_cons_of_ne_nil (List.append_ne_nil_of_right_ne_nil gs
      (List.cons_ne_nil (f ++ tail) []))
    unfold joinFields at ih ⊢
    rw [List.cons_append, List.cons_append, hx, hy, List.intercalate_cons_cons,
      List.intercalate_cons_cons, List.append_assoc, ← hx, ← hy, ih]

/-! ## Tables of numbers -/

/-- A numeral has neither a separator nor a newline in it. -/
theorem not_mem_numeral {f : Text} {z : Int} (h : readInt f = some z) : ',' ∉ f ∧ '\n' ∉ f :=
  ⟨not_mem_of_readInt h (by decide) (by decide) (by decide),
    not_mem_of_readInt h (by decide) (by decide) (by decide)⟩

theorem not_mem_showInt (z : Int) : ',' ∉ showInt z ∧ '\n' ∉ showInt z :=
  not_mem_numeral (readInt_showInt z)

/-- One row of a table: the decimal numerals between the separators. -/
def readRow (l : Text) : Option (List Int) := (split ',' l).mapM readInt

/-- Read a text as rows of decimal integers; a blank line is skipped. -/
def readCsv (t : Text) : Option (List (List Int)) :=
  (((readlines t).map (strip '\n')).filter (· ≠ [])).mapM readRow

theorem mapM_eq_some_map {α β : Type} {f : α → Option β} {g : α → β} {xs : List α}
    (h : ∀ x ∈ xs, f x = some (g x)) : xs.mapM f = some (xs.map g) := by
  induction xs with
  | nil => rfl
  | cons x xs ih =>
    have hrest := ih fun y hy => h y (List.mem_cons_of_mem _ hy)
    simp only [List.mapM_cons, h x List.mem_cons_self, hrest, List.map_cons]
    rfl

theorem exists_of_mapM_eq_some {α β : Type} {f : α → Option β} {xs : List α} {ys : List β}
    (h : xs.mapM f = some ys) : ∀ x ∈ xs, ∃ y, f x = some y := by
  induction xs generalizing ys with
  | nil => simp
  | cons x xs ih =>
    rw [List.mapM_cons] at h
    obtain ⟨y, hy, h⟩ := Option.bind_eq_some_iff.mp h
    obtain ⟨zs, hzs, -⟩ := Option.bind_eq_some_iff.mp h
    exact List.forall_mem_cons.mpr ⟨⟨y, hy⟩, ih hzs⟩

/-- The numerals of a row are read back. -/
theorem mapM_readInt_showInt (zs : List Int) : (zs.map showInt).mapM readInt = some zs := by
  have h : zs.mapM (readInt ∘ showInt) = some (zs.map id) :=
    mapM_eq_some_map fun z _ => readInt_showInt z
  rwa [← List.mapM_map, List.map_id] at h

theorem joinFields_ne_nil {c : Char} {row : List Text} {f : Text} (hf : f ∈ row)
    (hne : f ≠ []) : joinFields c row ≠ [] := by
  induction row with
  | nil => cases hf
  | cons g gs ih =>
    cases gs with
    | nil =>
      have : f = g := List.mem_singleton.mp hf
      simpa [joinFields, ← this] using hne
    | cons k ks => simp [joinFields, List.intercalate_cons_cons]

/-- **A printed table is read back field by field.** The fields contain neither the
separator nor a newline, and no row is blank. -/
theorem readCsv_rows {rows : List (List Text)}
    (hsep : ∀ row ∈ rows, ∀ f ∈ row, ',' ∉ f ∧ '\n' ∉ f)
    (hne : ∀ row ∈ rows, ∃ f ∈ row, f ≠ []) :
    readCsv (rows.map fun row => joinFields ',' row ++ ['\n']).flatten =
      rows.mapM fun row => row.mapM readInt := by
  have hnl : ∀ row ∈ rows, '\n' ∉ joinFields ',' row := fun row hrow =>
    newline_not_mem_joinFields fun f hf => (hsep row hrow f hf).2
  have hlines : readlines (rows.map fun row => joinFields ',' row ++ ['\n']).flatten =
      rows.map fun row => joinFields ',' row ++ ['\n'] := by
    apply readlines_flatten
    intro l hl
    obtain ⟨row, hrow, rfl⟩ := List.mem_map.mp hl
    exact complete_line (hnl row hrow)
  have hbody : ((rows.map fun row => joinFields ',' row ++ ['\n']).map (strip '\n')).filter
      (· ≠ []) = rows.map (joinFields ',') := by
    rw [List.map_map, List.filter_eq_self.mpr]
    · exact List.map_congr_left fun row hrow => strip_line (hnl row hrow)
    · intro l hl
      obtain ⟨row, hrow, rfl⟩ := List.mem_map.mp hl
      obtain ⟨f, hf, hf0⟩ := hne row hrow
      simpa [strip_line (hnl row hrow)] using joinFields_ne_nil hf hf0
  have hsplit : (rows.map (joinFields ',')).map (split ',') = rows := by
    rw [List.map_map]
    conv_rhs => rw [← List.map_id rows]
    apply List.map_congr_left
    intro row hrow
    obtain ⟨f, hf, -⟩ := hne row hrow
    exact split_joinFields (List.ne_nil_of_mem hf) fun g hg => (hsep row hrow g hg).1
  calc readCsv (rows.map fun row => joinFields ',' row ++ ['\n']).flatten
      = (rows.map (joinFields ',')).mapM readRow := by rw [readCsv, hlines, hbody]
    _ = ((rows.map (joinFields ',')).map (split ',')).mapM fun row => row.mapM readInt :=
        List.mapM_map.symm
    _ = rows.mapM fun row => row.mapM readInt := by rw [hsplit]

end CacheTrace.Text
