import Mathlib.Algebra.BigOperators.Ring.Finset
import Mathlib.Algebra.Order.Group.Nat
import Mathlib.Data.List.Forall2
import Mathlib.Data.List.ReduceOption
import Mathlib.Logic.Equiv.Basic
import Mathlib.Tactic.Ring

/-!
# Strided tensors

A tensor is a flat storage with a shape and a stride for each axis: the element at an index is
the one at the sum of the strides, each as often as the index says. `transpose` and `view`
change shape and strides and leave the storage as it is; a view needs a storage in row-major
order, which `contiguous` makes by a copy. Operations that compute put their results into a new
storage in row-major order (`ofFn`).

A proof about a tensor reads its elements, with one lemma for each operation (`get_ofFn`,
`view_eq`, `get_transpose` and those that follow from them).
-/

namespace CacheTrace

structure Tensor (α : Type) where
  shape : List Nat
  strides : List Nat
  data : Nat → α
  rank : strides.length = shape.length

namespace Tensor

open Finset

/-! ## Positions -/

/-- The strides of the row-major order. -/
def rowMajor : List Nat → List Nat
  | [] => []
  | _ :: ds => ds.prod :: rowMajor ds

/-- The position of an index in the storage. -/
def flat : List Nat → List Nat → Nat
  | s :: ss, i :: is => i * s + flat ss is
  | _, _ => 0

/-- The index at a position of the row-major order. -/
def unravel : List Nat → Nat → List Nat
  | [], _ => []
  | _ :: ds, n => n / ds.prod :: unravel ds (n % ds.prod)

/-- The index is one of the shape. -/
def InBounds (idx shape : List Nat) : Prop := List.Forall₂ (· < ·) idx shape

@[simp] theorem length_rowMajor (shape : List Nat) : (rowMajor shape).length = shape.length := by
  induction shape with
  | nil => rfl
  | cons d ds ih => simp [rowMajor, ih]

theorem flat_lt {idx shape : List Nat} (h : InBounds idx shape) :
    flat (rowMajor shape) idx < shape.prod := by
  induction h with
  | nil => exact Nat.one_pos
  | @cons i d is ds hi _ ih =>
    have hle : (i + 1) * ds.prod ≤ d * ds.prod := Nat.mul_le_mul_right _ hi
    rw [Nat.succ_mul] at hle
    rw [List.prod_cons, rowMajor, flat]
    omega

theorem unravel_flat {idx shape : List Nat} (h : InBounds idx shape) :
    unravel shape (flat (rowMajor shape) idx) = idx := by
  induction h with
  | nil => rfl
  | @cons i d is ds hi hrest ih =>
    have hlt := flat_lt hrest
    rw [rowMajor, flat, unravel, Nat.mul_comm, Nat.mul_add_div (Nat.zero_lt_of_lt hlt),
      Nat.div_eq_of_lt hlt, Nat.mul_add_mod, Nat.mod_eq_of_lt hlt, ih, Nat.add_zero]

/-! ## Swapped axes -/

/-- The list with the elements at `i` and `j` exchanged. -/
def swapAt (l : List Nat) (i j : Nat) : List Nat := (l.set i (l.getD j 0)).set j (l.getD i 0)

@[simp] theorem length_swapAt (l : List Nat) (i j : Nat) : (swapAt l i j).length = l.length := by
  simp [swapAt]

theorem getD_swapAt {l : List Nat} {i j : Nat} (hi : i < l.length) (hj : j < l.length) (k : Nat) :
    (swapAt l i j).getD k 0 = l.getD (Equiv.swap i j k) 0 := by
  simp only [swapAt, List.getD_eq_getElem?_getD, List.getElem?_set, List.length_set]
  rcases eq_or_ne j k with rfl | hjk
  · simp [hj]
  · rcases eq_or_ne i k with rfl | hik
    · simp [hjk, hi]
    · simp [hjk, hik, Equiv.swap_apply_of_ne_of_ne hik.symm hjk.symm]

theorem flat_eq_sum {strides idx : List Nat} (h : strides.length = idx.length) :
    flat strides idx = ∑ k ∈ range idx.length, idx.getD k 0 * strides.getD k 0 := by
  induction strides generalizing idx with
  | nil =>
    obtain rfl : idx = [] := List.length_eq_zero_iff.mp h.symm
    rfl
  | cons s ss ih =>
    cases idx with
    | nil => cases h
    | cons i is =>
      rw [flat, ih (Nat.succ.inj h), List.length_cons, Finset.sum_range_succ']
      simp [Nat.add_comm]

/-- Exchanged strides are read with an exchanged index. -/
theorem flat_swapAt {strides idx : List Nat} (h : strides.length = idx.length) {i j : Nat}
    (hi : i < idx.length) (hj : j < idx.length) :
    flat (swapAt strides i j) idx = flat strides (swapAt idx i j) := by
  rw [flat_eq_sum (by simpa using h), flat_eq_sum (by simpa using h), length_swapAt]
  refine Finset.sum_equiv (Equiv.swap i j) ?_ ?_
  · intro k
    simp only [mem_range]
    rcases eq_or_ne k i with rfl | hki
    · simp [hi, hj]
    · rcases eq_or_ne k j with rfl | hkj
      · simp [hi, hj]
      · rw [Equiv.swap_apply_of_ne_of_ne hki hkj]
  · intro k _
    rw [getD_swapAt (h ▸ hi) (h ▸ hj), getD_swapAt hi hj, Equiv.swap_apply_self]

/-! ## Operations -/

variable {α β : Type}

/-- The element at an index. -/
def get (t : Tensor α) (idx : List Nat) : α := t.data (flat t.strides idx)

/-- A new tensor. -/
def ofFn (shape : List Nat) (f : List Nat → α) : Tensor α where
  shape := shape
  strides := rowMajor shape
  data n := f (unravel shape n)
  rank := length_rowMajor shape

/-- `transpose(i, j)`. -/
def transpose (t : Tensor α) (i j : Nat) : Tensor α where
  shape := swapAt t.shape i j
  strides := swapAt t.strides i j
  data := t.data
  rank := by simpa using t.rank

/-- The sizes of a view of `numel` elements; `none` stands for the size `-1`, which is inferred
from the others. -/
def inferShape (numel : Nat) (sizes : List (Option Nat)) : Option (List Nat) :=
  let known := sizes.reduceOption.prod
  match sizes.count none with
  | 0 => if known = numel then some sizes.reduceOption else none
  | 1 =>
    if known ≠ 0 ∧ known ∣ numel then some (sizes.map fun d => d.getD (numel / known)) else none
  | _ => none

/-- `view(sizes)`. -/
def view (t : Tensor α) (sizes : List (Option Nat)) : Option (Tensor α) :=
  if t.strides = rowMajor t.shape then
    (inferShape t.shape.prod sizes).map fun shape =>
      ⟨shape, rowMajor shape, t.data, length_rowMajor shape⟩
  else none

/-- `contiguous()`. -/
def contiguous (t : Tensor α) : Tensor α := ofFn t.shape t.get

/-- An operation on every element. -/
def map (f : α → β) (t : Tensor α) : Tensor β := ofFn t.shape fun idx => f (t.get idx)

/-- The elements in row-major order. -/
def elements (t : Tensor α) : List α :=
  (List.range t.shape.prod).map fun n => t.get (unravel t.shape n)

/-- The strides of the axes that do not have size one. -/
def squeezeStrides : List Nat → List Nat → List Nat
  | d :: ds, s :: ss => if d = 1 then squeezeStrides ds ss else s :: squeezeStrides ds ss
  | _, _ => []

theorem length_squeezeStrides {shape strides : List Nat} (h : strides.length = shape.length) :
    (squeezeStrides shape strides).length = (shape.filter (· ≠ 1)).length := by
  induction shape generalizing strides with
  | nil => rfl
  | cons d ds ih =>
    cases strides with
    | nil => cases h
    | cons s ss =>
      have hrest := ih (Nat.succ.inj h)
      by_cases hd : d = 1
      · simpa [squeezeStrides, hd] using hrest
      · simpa [squeezeStrides, hd] using hrest

/-- `squeeze()`. -/
def squeeze (t : Tensor α) : Tensor α where
  shape := t.shape.filter (· ≠ 1)
  strides := squeezeStrides t.shape t.strides
  data := t.data
  rank := length_squeezeStrides t.rank

/-- `a == b`, for tensors of one shape. -/
def eqElements [DecidableEq α] (a b : Tensor α) : Option (Tensor Bool) :=
  if a.shape = b.shape then some (ofFn a.shape fun idx => a.get idx = b.get idx) else none

/-- `t[mask]`, for a mask of the same shape. -/
def select (t : Tensor α) (mask : Tensor Bool) : Option (List α) :=
  if mask.shape = t.shape then some (((t.elements.zip mask.elements).filter Prod.snd).map Prod.fst)
  else none

/-- The row of an index: all elements that differ from it in the last axis only. -/
def row (t : Tensor α) (idx : List Nat) : List α :=
  (List.range (t.shape.getLastD 0)).map fun j => t.get (idx.dropLast ++ [j])

section Algebra

variable [CommSemiring α]

/-- An operation on every row, which knows the number of the row in its matrix. -/
def mapRows (f : Nat → List α → List α) (t : Tensor α) : Tensor α :=
  ofFn t.shape fun idx => (f (idx.dropLast.getLastD 0) (t.row idx)).getD (idx.getLastD 0) 0

/-- `matmul` of stacks of matrices with the same batch axes. -/
def matmul (a b : Tensor α) : Option (Tensor α) :=
  let batch := a.shape.dropLast.dropLast
  let n := a.shape.dropLast.getLastD 0
  let k := a.shape.getLastD 0
  let m := b.shape.getLastD 0
  if a.shape = batch ++ [n, k] ∧ b.shape = batch ++ [k, m] then
    some (ofFn (batch ++ [n, m]) fun idx =>
      ∑ e ∈ range k, a.get (idx.dropLast ++ [e]) *
        b.get (idx.dropLast.dropLast ++ [e, idx.getLastD 0]))
  else none

/-- `Linear(dIn, dOut, bias=False)` with the weights `w`. -/
def linear (w : Nat → Nat → α) (dIn dOut : Nat) (x : Tensor α) : Option (Tensor α) :=
  if x.shape.getLast? = some dIn then
    some (ofFn (x.shape.dropLast ++ [dOut]) fun idx =>
      ∑ i ∈ range dIn, x.get (idx.dropLast ++ [i]) * w (idx.getLastD 0) i)
  else none

end Algebra

/-! ## Elements -/

@[simp] theorem shape_ofFn (shape : List Nat) (f : List Nat → α) : (ofFn shape f).shape = shape :=
  rfl

@[simp] theorem shape_transpose (t : Tensor α) (i j : Nat) :
    (t.transpose i j).shape = swapAt t.shape i j := rfl

@[simp] theorem shape_contiguous (t : Tensor α) : t.contiguous.shape = t.shape := rfl

theorem get_ofFn {shape idx : List Nat} (h : InBounds idx shape) (f : List Nat → α) :
    (ofFn shape f).get idx = f idx := by
  change f (unravel shape (flat (rowMajor shape) idx)) = f idx
  rw [unravel_flat h]

theorem get_transpose (t : Tensor α) {i j : Nat} {idx : List Nat}
    (hlength : idx.length = t.shape.length) (hi : i < idx.length) (hj : j < idx.length) :
    (t.transpose i j).get idx = t.get (swapAt idx i j) := by
  change t.data (flat (swapAt t.strides i j) idx) = t.data (flat t.strides (swapAt idx i j))
  rw [flat_swapAt (t.rank.trans hlength.symm) hi hj]

/-- The sizes with one of them inferred. -/
theorem inferShape_none (numel : Nat) (before after : List Nat) :
    inferShape numel (before.map some ++ none :: after.map some) =
      if (before ++ after).prod ≠ 0 ∧ (before ++ after).prod ∣ numel then
        some (before ++ numel / (before ++ after).prod :: after)
      else none := by
  have hcount : (before.map some ++ none :: after.map some).count none = 1 := by
    simp [List.count_eq_zero_of_not_mem]
  have hknown : (before.map some ++ none :: after.map some).reduceOption = before ++ after := by
    simp [List.reduceOption]
  simp only [inferShape, hcount, hknown]
  simp

theorem inferShape_eq (before after : List Nat) (d : Nat) (h : 0 < (before ++ after).prod) :
    inferShape (before ++ d :: after).prod (before.map some ++ none :: after.map some) =
      some (before ++ d :: after) := by
  have hprod : (before ++ d :: after).prod = (before ++ after).prod * d := by
    simp only [List.prod_append, List.prod_cons]
    ring
  rw [inferShape_none, hprod, if_pos ⟨h.ne', Nat.dvd_mul_right _ _⟩, Nat.mul_div_cancel_left d h]

/-- A view of a tensor in row-major order shows the element at the same position. -/
theorem view_eq {t : Tensor α} (ht : t.strides = rowMajor t.shape) {sizes : List (Option Nat)}
    {shape : List Nat} (hshape : inferShape t.shape.prod sizes = some shape) :
    ∃ v, t.view sizes = some v ∧ v.shape = shape ∧ ∀ idx idx',
      flat (rowMajor shape) idx = flat (rowMajor t.shape) idx' → v.get idx = t.get idx' := by
  refine ⟨⟨shape, rowMajor shape, t.data, length_rowMajor shape⟩, ?_, rfl, ?_⟩
  · rw [view, if_pos ht, hshape]
    rfl
  · intro idx idx' h
    change t.data (flat (rowMajor shape) idx) = t.data (flat t.strides idx')
    rw [h, ht]

/-- A view with one inferred size. -/
theorem view_infer {t : Tensor α} (ht : t.strides = rowMajor t.shape) {before after : List Nat}
    {d : Nat} (hprod : t.shape.prod = (before ++ d :: after).prod)
    (hpos : 0 < (before ++ after).prod) :
    ∃ v, t.view (before.map some ++ none :: after.map some) = some v ∧
      v.shape = before ++ d :: after ∧ ∀ idx idx',
        flat (rowMajor (before ++ d :: after)) idx = flat (rowMajor t.shape) idx' →
        v.get idx = t.get idx' := by
  have hinfer := inferShape_eq before after d hpos
  rw [← hprod] at hinfer
  exact view_eq ht hinfer

theorem view_eq_none {t : Tensor α} {sizes : List (Option Nat)}
    (hshape : inferShape t.shape.prod sizes = none) : t.view sizes = none := by
  rw [view, hshape]
  split_ifs
  · rfl
  · rfl

theorem get_contiguous (t : Tensor α) {idx : List Nat} (h : InBounds idx t.shape) :
    t.contiguous.get idx = t.get idx := get_ofFn h _

theorem get_map (f : α → β) (t : Tensor α) {idx : List Nat} (h : InBounds idx t.shape) :
    (t.map f).get idx = f (t.get idx) := get_ofFn h _

theorem inBounds_unravel {shape : List Nat} {n : Nat} (h : n < shape.prod) :
    InBounds (unravel shape n) shape := by
  induction shape generalizing n with
  | nil => exact List.Forall₂.nil
  | cons d ds ih =>
    rw [List.prod_cons] at h
    have hpos : 0 < ds.prod := Nat.pos_of_mul_pos_left (Nat.zero_lt_of_lt h)
    exact List.Forall₂.cons ((Nat.div_lt_iff_lt_mul hpos).mpr h) (ih (Nat.mod_lt n hpos))

@[simp] theorem length_elements (t : Tensor α) : t.elements.length = t.shape.prod := by
  simp [elements]

theorem elements_ofFn (shape : List Nat) (f : List Nat → α) :
    (ofFn shape f).elements = (List.range shape.prod).map fun n => f (unravel shape n) := by
  apply List.map_congr_left
  intro n hn
  exact get_ofFn (inBounds_unravel (List.mem_range.mp hn)) f

theorem elements_map (f : α → β) (t : Tensor α) : (t.map f).elements = t.elements.map f := by
  rw [map, elements_ofFn, elements, List.map_map]
  rfl

theorem prod_filter_ne_one (shape : List Nat) : (shape.filter (· ≠ 1)).prod = shape.prod := by
  induction shape with
  | nil => rfl
  | cons d ds ih =>
    by_cases hd : d = 1
    · simpa [hd] using ih
    · simpa [hd] using Or.inl ih

/-- An axis of size one does not move a position. -/
theorem flat_squeezeStrides {shape strides : List Nat} (hlength : strides.length = shape.length)
    {n : Nat} (hn : n < shape.prod) :
    flat (squeezeStrides shape strides) (unravel (shape.filter (· ≠ 1)) n) =
      flat strides (unravel shape n) := by
  induction shape generalizing strides n with
  | nil =>
    obtain rfl : strides = [] := List.length_eq_zero_iff.mp hlength
    rfl
  | cons d ds ih =>
    cases strides with
    | nil => cases hlength
    | cons s ss =>
      have hlength' : ss.length = ds.length := Nat.succ.inj hlength
      by_cases hd : d = 1
      · subst hd
        rw [List.prod_cons, Nat.one_mul] at hn
        rw [squeezeStrides, if_pos rfl, List.filter_cons_of_neg (by simp), ih hlength' hn, unravel,
          flat, Nat.div_eq_of_lt hn, Nat.mod_eq_of_lt hn, Nat.zero_mul, Nat.zero_add]
      · rw [List.prod_cons] at hn
        have hpos : 0 < ds.prod := Nat.pos_of_mul_pos_left (Nat.zero_lt_of_lt hn)
        rw [squeezeStrides, if_neg hd, List.filter_cons_of_pos (by simpa using hd), unravel,
          unravel, flat, flat, prod_filter_ne_one, ih hlength' (Nat.mod_lt n hpos)]

/-- Axes of size one do not change the elements. -/
theorem elements_squeeze (t : Tensor α) : t.squeeze.elements = t.elements := by
  have hprod : t.squeeze.shape.prod = t.shape.prod := prod_filter_ne_one t.shape
  rw [elements, hprod]
  apply List.map_congr_left
  intro n hn
  exact congrArg t.data (flat_squeezeStrides t.rank (List.mem_range.mp hn))

theorem eqElements_eq [DecidableEq α] {a b : Tensor α} (h : a.shape = b.shape) :
    ∃ t, eqElements a b = some t ∧
      t.elements = (a.elements.zip b.elements).map fun x => decide (x.1 = x.2) := by
  refine ⟨_, if_pos h, ?_⟩
  rw [elements_ofFn, elements, elements, ← h, List.zip_map', List.map_map]
  rfl

section Algebra

variable [CommSemiring α]

theorem get_mapRows (f : Nat → List α → List α) {t : Tensor α} {shape : List Nat} {width : Nat}
    (ht : t.shape = shape ++ [width]) {idx : List Nat} {i j : Nat}
    (h : InBounds (idx ++ [i, j]) t.shape) :
    (t.mapRows f).get (idx ++ [i, j]) =
      (f i ((List.range width).map fun j' => t.get (idx ++ [i, j']))).getD j 0 := by
  rw [mapRows, get_ofFn h, row, ht]
  simp

/-- A product of stacks of matrices. -/
theorem matmul_eq {a b : Tensor α} {batch : List Nat} {n k m : Nat}
    (ha : a.shape = batch ++ [n, k]) (hb : b.shape = batch ++ [k, m]) :
    ∃ c, matmul a b = some c ∧ c.shape = batch ++ [n, m] ∧ ∀ idx i j,
      InBounds (idx ++ [i, j]) (batch ++ [n, m]) →
      c.get (idx ++ [i, j]) = ∑ e ∈ range k, a.get (idx ++ [i, e]) * b.get (idx ++ [e, j]) := by
  have hbatch : a.shape.dropLast.dropLast = batch := by simp [ha]
  have hn : a.shape.dropLast.getLastD 0 = n := by simp [ha]
  have hk : a.shape.getLastD 0 = k := by simp [ha]
  have hm : b.shape.getLastD 0 = m := by simp [hb]
  refine ⟨ofFn (batch ++ [n, m]) fun idx => ∑ e ∈ range k,
    a.get (idx.dropLast ++ [e]) * b.get (idx.dropLast.dropLast ++ [e, idx.getLastD 0]), ?_, rfl, ?_⟩
  · simp only [matmul, hbatch, hn, hk, hm]
    rw [if_pos ⟨ha, hb⟩]
  · intro idx i j h
    rw [get_ofFn h]
    simp

/-- A linear layer acts on the last axis. -/
theorem linear_eq (w : Nat → Nat → α) {dIn : Nat} (dOut : Nat) {x : Tensor α} {shape : List Nat}
    (hx : x.shape = shape ++ [dIn]) :
    ∃ y, linear w dIn dOut x = some y ∧ y.shape = shape ++ [dOut] ∧
      y.strides = rowMajor y.shape ∧ ∀ idx o, InBounds (idx ++ [o]) (shape ++ [dOut]) →
        y.get (idx ++ [o]) = ∑ i ∈ range dIn, x.get (idx ++ [i]) * w o i := by
  refine ⟨_, if_pos (by simp [hx]), ?_, rfl, ?_⟩
  · simp [hx]
  · intro idx o h
    rw [hx, List.dropLast_concat, get_ofFn h]
    simp

end Algebra

end Tensor

end CacheTrace
