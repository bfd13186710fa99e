import CacheTrace.Tensor.Basic
import Mathlib.Algebra.Field.Rat
import Mathlib.Data.Rat.Cast.Lemmas

/-!
# The rates of an evaluation

`eval_acc` of the notebook `transformer/final_project.ipynb` goes through the batches of a
loader, compares the predictions with the targets, and adds up how many agree, how many targets
are `1`, and for how many of these the prediction is zero. It prints the quotient of the last two
as the false positive rate and returns the percentage that agrees.

`evalAcc_eq` gives both numbers in terms of all positions of all batches. What is printed is the
share of the targets `1` that were predicted `0`: the false negatives. It is the false positive
rate only when the four numbers of the confusion matrix happen to fit
(`false_positive_rate_iff`).

The network is left out: a batch has the predictions that `model.predict` returns for it. Numbers
are exact.
-/

namespace CacheTrace.Training

/-! ## The program -/

/-- The predictions and the targets of a batch. Targets come with a last axis of size one, which
`predict` has not; both are squeezed. There are two classes. -/
structure Batch where
  pred : Tensor Nat
  target : Tensor Nat
  contiguous : target.strides = Tensor.rowMajor target.shape
  shape_eq : target.squeeze.shape = pred.shape
  pred_binary : ∀ x ∈ pred.elements, x = 0 ∨ x = 1

/-- The variables of `eval_acc`. -/
structure Totals where
  total : Nat
  correct : Nat
  totalPositive : Nat
  totalFalsePositive : Int
  deriving DecidableEq

/-- The body of the loop. -/
def evalBatch (s : Totals) (b : Batch) : Option Totals := do
  let flat ← b.target.view [none]
  let size ← flat.shape[0]?
  let target := b.target.squeeze
  let hits ← Tensor.eqElements target b.pred
  let positive ← b.pred.select (target.map (· == 1))
  let falsePositive := (positive.length : Int) - positive.countP (· ≠ 0)
  return ⟨s.total + size, s.correct + hits.elements.count true,
    s.totalPositive + positive.length, s.totalFalsePositive + falsePositive⟩

/-- The quotient of two tensors, `none` for `nan`. -/
def quotient (a : Int) (b : Nat) : Option Rat := if b = 0 then none else some (a / b)

/-- What `eval_acc` returns and prints. -/
structure Report where
  acc : Option Rat
  falsePositiveRate : Option Rat
  deriving DecidableEq

/-- Without a batch, the divisor is the number zero and no tensor, and the division raises. -/
def evalAcc (loader : List Batch) : Option Report := do
  let s ← loader.foldlM evalBatch ⟨0, 0, 0, 0⟩
  if loader.isEmpty then none
  else return ⟨quotient (100 * s.correct) s.total, quotient s.totalFalsePositive s.totalPositive⟩

/-! ## The confusion matrix -/

/-- The prediction and the target at every position. -/
def Batch.pairs (b : Batch) : List (Nat × Nat) := b.pred.elements.zip b.target.elements

def allPairs (loader : List Batch) : List (Nat × Nat) := loader.flatMap Batch.pairs

/-- The positions with a given prediction and target. -/
def cell (loader : List Batch) (pred target : Nat) : Nat := (allPairs loader).count (pred, target)

/-- The positions with a given target. -/
def targets (loader : List Batch) (target : Nat) : Nat :=
  (allPairs loader).countP fun x => x.2 = target

/-- The positions where prediction and target agree. -/
def hits (loader : List Batch) : Nat := (allPairs loader).countP fun x => x.1 = x.2

/-! ## One batch -/

theorem Batch.length_pairs (b : Batch) : b.pairs.length = b.target.shape.prod := by
  have hprod : b.pred.shape.prod = b.target.shape.prod := by
    rw [← b.shape_eq]
    exact Tensor.prod_filter_ne_one _
  rw [pairs, List.length_zip, Tensor.length_elements, Tensor.length_elements, hprod, min_self]

theorem Batch.exists_view (b : Batch) :
    ∃ flat, b.target.view [none] = some flat ∧ flat.shape = [b.pairs.length] := by
  have hprod : b.target.shape.prod = ([] ++ b.pairs.length :: []).prod := by
    simp [b.length_pairs]
  obtain ⟨flat, hflat, hshape, -⟩ := Tensor.view_infer b.contiguous hprod (by decide)
  exact ⟨flat, hflat, hshape⟩

theorem Batch.exists_hits (b : Batch) :
    ∃ t, Tensor.eqElements b.target.squeeze b.pred = some t ∧
      t.elements.count true = b.pairs.countP fun x => x.1 = x.2 := by
  obtain ⟨t, ht, helements⟩ := Tensor.eqElements_eq b.shape_eq
  refine ⟨t, ht, ?_⟩
  rw [helements, Tensor.elements_squeeze, pairs, ← List.zip_swap, List.count, List.countP_map,
    List.countP_map]
  congr
  funext x
  simp [eq_comm]

/-- The predictions where the target is `1`. -/
theorem Batch.select_eq (b : Batch) :
    b.pred.select (b.target.squeeze.map (· == 1)) =
      some ((b.pairs.filter fun x => x.2 = 1).map Prod.fst) := by
  have hmask : (b.target.squeeze.map (· == 1)).shape = b.pred.shape := b.shape_eq
  rw [Tensor.select, if_pos hmask, Tensor.elements_map, Tensor.elements_squeeze,
    List.zip_map_right, List.filter_map, List.map_map]
  rfl

/-- Those among them that are zero. -/
theorem countP_sub_nonzero (xs : List (Nat × Nat)) :
    (xs.countP (fun x => x.2 = 1) : Int) -
      ((xs.filter fun x => x.2 = 1).map Prod.fst).countP (· ≠ 0) = xs.count (0, 1) := by
  induction xs with
  | nil => rfl
  | cons x xs ih =>
    obtain ⟨p, t⟩ := x
    by_cases ht : t = 1
    · by_cases hp : p = 0
      · simp [ht, hp] at ih ⊢
        omega
      · simp [ht, hp] at ih ⊢
        omega
    · simpa [ht] using ih

theorem evalBatch_eq (s : Totals) (b : Batch) :
    evalBatch s b = some ⟨s.total + b.pairs.length, s.correct + b.pairs.countP fun x => x.1 = x.2,
      s.totalPositive + b.pairs.countP fun x => x.2 = 1,
      s.totalFalsePositive + b.pairs.count (0, 1)⟩ := by
  obtain ⟨flat, hflat, hshape⟩ := b.exists_view
  obtain ⟨t, ht, hcount⟩ := b.exists_hits
  have hsize : flat.shape[0]? = some b.pairs.length := by
    rw [hshape]
    rfl
  have hpositive : ((b.pairs.filter fun x => x.2 = 1).map Prod.fst).length =
      b.pairs.countP fun x => x.2 = 1 := by
    rw [List.length_map, List.countP_eq_length_filter]
  simp only [evalBatch, hflat, hsize, ht, b.select_eq, bind, Option.bind, pure, hcount,
    hpositive, countP_sub_nonzero]

/-! ## All batches -/

theorem foldlM_evalBatch (loader : List Batch) (s : Totals) :
    loader.foldlM evalBatch s = some ⟨s.total + (allPairs loader).length, s.correct + hits loader,
      s.totalPositive + targets loader 1, s.totalFalsePositive + cell loader 0 1⟩ := by
  induction loader generalizing s with
  | nil => simp [allPairs, hits, targets, cell]
  | cons b loader ih =>
    rw [List.foldlM_cons, evalBatch_eq]
    change loader.foldlM evalBatch _ = _
    rw [ih]
    simp only [allPairs, hits, targets, cell, List.flatMap_cons, List.length_append,
      List.countP_append, List.count_append, Nat.add_assoc, Int.add_assoc, Int.natCast_add]

/-- **What `eval_acc` reports.** -/
theorem evalAcc_eq {loader : List Batch} (h : loader ≠ []) :
    evalAcc loader = some ⟨quotient (100 * hits loader) (allPairs loader).length,
      quotient (cell loader 0 1) (targets loader 1)⟩ := by
  have hempty : loader.isEmpty = false := by
    rwa [← Bool.not_eq_true, List.isEmpty_iff]
  simp [evalAcc, foldlM_evalBatch, hempty]

/-! ## The printed rate -/

theorem countP_snd_eq {xs : List (Nat × Nat)} (h : ∀ x ∈ xs, x.1 = 0 ∨ x.1 = 1) (t : Nat) :
    xs.countP (fun x => x.2 = t) = xs.count (0, t) + xs.count (1, t) := by
  induction xs with
  | nil => rfl
  | cons x xs ih =>
    obtain ⟨hx, hxs⟩ := List.forall_mem_cons.mp h
    have ih := ih hxs
    obtain ⟨p, t'⟩ := x
    by_cases ht : t' = t
    · rcases hx with rfl | rfl
      · simp [ht] at ih ⊢
        omega
      · simp [ht] at ih ⊢
        omega
    · simpa [ht] using ih

/-- A target is predicted `0` or `1`. -/
theorem targets_eq (loader : List Batch) (t : Nat) :
    targets loader t = cell loader 0 t + cell loader 1 t := by
  refine countP_snd_eq (fun x hx => ?_) t
  obtain ⟨b, -, hx⟩ := List.mem_flatMap.mp hx
  exact b.pred_binary x.1 (List.of_mem_zip hx).1

/-- **When the printed rate is the false positive rate.** With targets of both kinds, the printed
number is the share of the targets `0` that are predicted `1` exactly when the numbers of true
and false positives have the same product as those of true and false negatives. -/
theorem false_positive_rate_iff (loader : List Batch) (h₀ : 0 < targets loader 0)
    (h₁ : 0 < targets loader 1) :
    ∃ report, evalAcc loader = some report ∧
      (report.falsePositiveRate = some ((cell loader 1 0 : Rat) / targets loader 0) ↔
        cell loader 1 1 * cell loader 1 0 = cell loader 0 0 * cell loader 0 1) := by
  have hne : loader ≠ [] := by
    rintro rfl
    exact absurd h₀ (by decide)
  refine ⟨_, evalAcc_eq hne, ?_⟩
  have hq₀ : (targets loader 0 : Rat) ≠ 0 := Nat.cast_ne_zero.mpr h₀.ne'
  have hq₁ : (targets loader 1 : Rat) ≠ 0 := Nat.cast_ne_zero.mpr h₁.ne'
  simp only [quotient, if_neg h₁.ne', Option.some.injEq, Int.cast_natCast]
  rw [div_eq_div_iff hq₁ hq₀, targets_eq, targets_eq]
  have hleft : cell loader 0 1 * (cell loader 0 0 + cell loader 1 0) =
      cell loader 0 0 * cell loader 0 1 + cell loader 0 1 * cell loader 1 0 := by
    ring
  have hright : cell loader 1 0 * (cell loader 0 1 + cell loader 1 1) =
      cell loader 1 1 * cell loader 1 0 + cell loader 0 1 * cell loader 1 0 := by
    ring
  norm_cast
  rw [hleft, hright, Nat.add_right_cancel_iff]
  exact eq_comm

/-- Two positions with the targets `0` and `1` and the given predictions. -/
def twoPositions (pred : List Nat → Nat) (hpred : ∀ idx, pred idx = 0 ∨ pred idx = 1) : Batch where
  pred := Tensor.ofFn [2] pred
  target := Tensor.ofFn [1, 2, 1] fun idx => if idx = [0, 1, 0] then 1 else 0
  contiguous := rfl
  shape_eq := rfl
  pred_binary := by
    intro x hx
    rw [Tensor.elements_ofFn] at hx
    obtain ⟨n, -, rfl⟩ := List.mem_map.mp hx
    exact hpred _

/-- Nothing is predicted `1`. -/
def zeros : Batch := twoPositions (fun _ => 0) fun _ => .inl rfl

/-- No target `0` is predicted `1`, and the rate is printed as one. -/
theorem false_positive_rate_zeros :
    0 < targets [zeros] 0 ∧ 0 < targets [zeros] 1 ∧
      evalAcc [zeros] = some ⟨some 50, some 1⟩ ∧
      (cell [zeros] 1 0 : Rat) / targets [zeros] 0 = 0 := by
  decide +kernel

/-- Every prediction is right. -/
def right : Batch := twoPositions (fun idx => if idx = [1] then 1 else 0) fun idx => by
  split_ifs
  · exact .inr rfl
  · exact .inl rfl

theorem false_positive_rate_right :
    ∃ report, evalAcc [right] = some report ∧
      report.falsePositiveRate = some ((cell [right] 1 0 : Rat) / targets [right] 0) := by
  obtain ⟨report, hreport, hiff⟩ :=
    false_positive_rate_iff [right] (by decide +kernel) (by decide +kernel)
  exact ⟨report, hreport, hiff.mpr (by decide +kernel)⟩

end CacheTrace.Training
