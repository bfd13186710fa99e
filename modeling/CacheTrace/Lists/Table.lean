import Mathlib.Data.List.TakeDrop
import Mathlib.Data.List.Infix

/-!
# Tables as lists of rows

A table is a list of rows of one length. `columns f w xs` is the table with one column
`f x` for every `x` of `xs`, cut off after `w` entries. Slices of its rows and of its columns
are tables of the same form, and its transpose has the rows `f x` (`transpose_columns`), so
operations on tables given by columns reduce to operations on `xs` and `f`.
-/

namespace CacheTrace.Lists

variable {ι α : Type}

/-- The number of columns, read off the first row. -/
def width (m : List (List α)) : Nat := (m.head?.map List.length).getD 0

theorem width_of_forall {m : List (List α)} {w : Nat} (hne : m ≠ [])
    (h : ∀ row ∈ m, row.length = w) : width m = w := by
  obtain ⟨row, rest, rfl⟩ := List.exists_cons_of_ne_nil hne
  exact h row List.mem_cons_self

section Transpose

variable [Inhabited α]

def transpose (m : List (List α)) : List (List α) :=
  (List.range (width m)).map fun j => m.map fun row => row.getD j default

def columns (f : ι → List α) (w : Nat) (xs : List ι) : List (List α) :=
  (List.range w).map fun j => xs.map fun x => (f x).getD j default

theorem transpose_map {f : ι → List α} {w : Nat} {xs : List ι} (hne : xs ≠ [])
    (h : ∀ x ∈ xs, (f x).length = w) : transpose (xs.map f) = columns f w xs := by
  have hw : width (xs.map f) = w := by
    refine width_of_forall (by simpa using hne) fun row hrow => ?_
    obtain ⟨x, hx, rfl⟩ := List.mem_map.mp hrow
    exact h x hx
  simp only [transpose, columns, hw, List.map_map, Function.comp_def]

theorem columns_take (f : ι → List α) {w b : Nat} (hb : b ≤ w) (xs : List ι) :
    (columns f w xs).take b = columns f b xs := by
  rw [columns, ← List.map_take, List.take_range, Nat.min_eq_left hb]
  rfl

theorem columns_drop (f : ι → List α) (w a : Nat) (xs : List ι) :
    (columns f w xs).drop a = columns (fun x => (f x).drop a) (w - a) xs := by
  apply List.ext_getElem
  · simp [columns]
  · intro i h₁ h₂
    simp [columns, List.getD_eq_getElem?_getD]

/-- A slice of every row is the table of a slice of `xs`. -/
theorem columns_slice (f : ι → List α) (w : Nat) (xs : List ι) (a b : Nat) :
    ((columns f w xs).map fun row => (row.drop a).take b) = columns f w ((xs.drop a).take b) := by
  simp only [columns, List.map_map, Function.comp_def, List.map_take, List.map_drop]

theorem columns_width (f : ι → List α) {w : Nat} (hw : 0 < w) (xs : List ι) :
    width (columns f w xs) = xs.length := by
  refine width_of_forall ?_ fun row hrow => ?_
  · simpa [columns] using Nat.ne_of_gt hw
  · obtain ⟨j, -, rfl⟩ := List.mem_map.mp hrow
    exact List.length_map _

theorem map_getD_range (l : List α) {w : Nat} (h : w ≤ l.length) :
    ((List.range w).map fun i => l.getD i default) = l.take w := by
  apply List.ext_getElem
  · simp [Nat.min_eq_left h]
  · intro i h₁ h₂
    have hi : i < l.length := by simp at h₂; omega
    simp [hi]

/-- **The rows of the transpose.** -/
theorem transpose_columns {f : ι → List α} {w : Nat} (hw : 0 < w) {xs : List ι}
    (h : ∀ x ∈ xs, w ≤ (f x).length) :
    transpose (columns f w xs) = xs.map fun x => (f x).take w := by
  rw [transpose, columns_width f hw]
  apply List.ext_getElem
  · simp
  · intro j h₁ h₂
    have hj : j < xs.length := by simpa using h₂
    simp only [columns, List.getElem_map, List.getElem_range, List.map_map]
    rw [← map_getD_range _ (h _ (List.getElem_mem hj))]
    apply List.map_congr_left
    intro i _
    simp [hj]

end Transpose

/-! ## Blocks of one length -/

theorem drop_flatten {w : Nat} {ws : List (List α)} (h : ∀ x ∈ ws, x.length = w) (i : Nat) :
    ws.flatten.drop (i * w) = (ws.drop i).flatten := by
  induction i generalizing ws with
  | zero => simp
  | succ i ih =>
    cases ws with
    | nil => simp
    | cons x xs =>
      have hx : x.length = w := h x List.mem_cons_self
      rw [List.drop_succ_cons, List.flatten_cons, Nat.succ_mul, Nat.add_comm,
        ← List.drop_drop, List.drop_left' hx, ih fun y hy => h y (List.mem_cons_of_mem _ hy)]

/-- Blocks are recovered from their concatenation. -/
theorem map_block_flatten {w : Nat} {ws : List (List α)} (h : ∀ x ∈ ws, x.length = w) :
    ((List.range ws.length).map fun i => (ws.flatten.drop (i * w)).take w) = ws := by
  apply List.ext_getElem
  · simp
  · intro i h₁ h₂
    rw [List.getElem_map, List.getElem_range, drop_flatten h, List.drop_eq_getElem_cons h₂,
      List.flatten_cons, List.take_left' (h _ (List.getElem_mem h₂))]

theorem length_flatten {w : Nat} {ws : List (List α)} (h : ∀ x ∈ ws, x.length = w) :
    ws.flatten.length = ws.length * w := by
  rw [List.length_flatten, List.map_congr_left h, List.map_const', List.sum_replicate_nat]

end CacheTrace.Lists
