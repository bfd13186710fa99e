import CacheTrace.Buffer.Loop
import CacheTrace.Madbench.Matrices

/-!
# The inverse

`invert_D` adds the noise to the signal and inverts the sum. The routines of the library leave the
lower triangle of the inverse; the upper one is completed from the transposed matrix.

When the arithmetic is exact and the routines give the lower triangle of the inverse of a symmetric
matrix, the processes have the inverse in the end (`inverse_eq`).
-/

namespace CacheTrace.Madbench

open Cyclic Buffer Message

variable {α : Type}

namespace Library

variable {j : Job} (R : Library j α)

/-- The signal with the noise. -/
def withNoise (S : Nat → Nat → α) (r c : Nat) : α :=
  if r = c then R.add (S r c) R.one else S r c

/-- The lower triangle of what the library leaves, completed. -/
def inverse (S : Nat → Nat → α) : j.Square α :=
  let X := R.pdpotri (R.pdpotrf (j.toMatrix (R.withNoise S)))
  .of fun r c => if r < c then R.pdtran X r c else X r c

end Library

namespace Job

variable (j : Job) (R : Library j α)

/-- White noise is added. -/
def addNoise (pe : Nat) (s : Arrays α) : Arrays α :=
  columns (j.myNoRow .matrix1 pe) (j.myNoCol .matrix1 pe) (fun c r n s =>
    if j.globalRow .matrix1 pe r = j.globalCol .matrix1 pe c then
      s.set .mspace (Function.update (s.buffer .mspace) n (R.add (s.buffer .mspace n) R.one))
    else s) s

/-- The upper triangle is completed. -/
def completeUpper (pe : Nat) (s : Arrays α) : Arrays α :=
  columns (j.myNoRow .matrix1 pe) (j.myNoCol .matrix1 pe) (fun c r n s =>
    if j.globalRow .matrix1 pe r < j.globalCol .matrix1 pe c then
      s.set .mspace (Function.update (s.buffer .mspace) n (s.buffer .invDT n))
    else s) s

/-- `invert_D` -/
def invertD (pe : Nat) : List (Act α) :=
  [.compute fun s => s.set .invDT fun n =>
    if n < j.elm .matrix1 pe then R.zero else s.buffer .invDT n] ++
  ([.compute (j.addNoise R pe)] ++
  (j.routine .matrix1 R (fun _ => True) (j.pdpotrf .matrix1 R .mspace) pe ++
  (j.routine .matrix1 R (fun _ => True) (j.pdpotri .matrix1 R .mspace) pe ++
  (j.routine .matrix1 R (fun _ => True) (j.pdtran .matrix1 R .mspace .invDT) pe ++
  ([.compute (j.completeUpper pe)] ++ j.reportTime pe)))))

variable {j} {R}

/-! ## The noise and the upper triangle -/

/-- A loop that changes the array `v` where `p` holds, element by element. -/
theorem columns_set {v w : Var} (hw : w ≠ v) {p : Nat → Nat → Prop} [∀ r c, Decidable (p r c)]
    (f : α → α → α) (rows cols : Nat) (s : Arrays α) {t : Arrays α}
    (ht : columns rows cols (fun c r n s => if p r c then
      s.set v (Function.update (s.buffer v) n (f (s.buffer v n) (s.buffer w n))) else s) s = t) :
    (∀ v', v' ∉ [v] → t.buffer v' = s.buffer v') ∧ ∀ n < cols * rows, t.buffer v n =
      if p (n % rows) (n / rows) then f (s.buffer v n) (s.buffer w n) else s.buffer v n := by
  subst ht
  constructor
  · refine columns_invariant (I := fun t : Arrays α => ∀ v', v' ∉ [v] → t.buffer v' = s.buffer v')
      (fun c r n t ht v' hv' => ?_) _ fun _ _ => rfl
    split_ifs
    · rw [Arrays.set_buffer_of_ne _ fun heq => hv' (List.mem_singleton.mpr heq)]
      exact ht v' hv'
    · exact ht v' hv'
  · intro n hn
    refine (congrArg Prod.fst (columns_get (fun (t : Arrays α) m => (t.buffer v m, t.buffer w m))
      (f := fun r c x => if p r c then (f x.1 x.2, x.2) else x) (fun c r n t m => ?_) _ s n)).trans
      ?_
    · split_ifs with hp hm hm
      · rw [hm, Arrays.set_buffer_self, Function.update_self, Arrays.set_buffer_of_ne _ hw]
      · rw [Arrays.set_buffer_self, Function.update_of_ne hm, Arrays.set_buffer_of_ne _ hw]
      · rw [hm]
      · rfl
    · rw [if_pos hn]
      split_ifs <;> rfl

theorem addNoise_eq {pe : Nat} {s : Memory α} {S : Nat → Nat → α}
    (hs : j.IsPart .matrix1 pe S (s.buffer .mspace)) :
    Memory.Keeps [.mspace] s (s.put (j.addNoise R pe s.toArrays)) ∧
      j.IsPart .matrix1 pe (R.withNoise S) ((j.addNoise R pe s.toArrays).buffer .mspace) := by
  obtain ⟨hkeeps, hget⟩ := columns_set (w := .invDT) (by decide) (fun x _ => R.add x R.one)
    (j.myNoRow .matrix1 pe) (j.myNoCol .matrix1 pe) s.toArrays (t := j.addNoise R pe s.toArrays)
    rfl
  refine ⟨Memory.keeps_put s hkeeps, fun n hn => ?_⟩
  rw [hget n (lt_cols_mul_rows hn), hs n hn]
  rfl

theorem entries_upper (A B : j.Square α) (r c : Nat) :
    R.entries (.of fun r c => if r < c then B r c else A r c) r c =
      if r < c then R.entries B r c else R.entries A r c := by
  by_cases hlt : r < c
  · simp [Library.entries, hlt]
  · simp [Library.entries, hlt]

theorem completeUpper_eq {pe : Nat} {s : Memory α} {A B : j.Square α}
    (hA : j.IsPart .matrix1 pe (R.entries A) (s.buffer .mspace))
    (hB : j.IsPart .matrix1 pe (R.entries B) (s.buffer .invDT)) :
    Memory.Keeps [.mspace] s (s.put (j.completeUpper pe s.toArrays)) ∧
      j.IsPart .matrix1 pe (R.entries (.of fun r c => if r < c then B r c else A r c))
        ((j.completeUpper pe s.toArrays).buffer .mspace) := by
  obtain ⟨hkeeps, hget⟩ := columns_set (w := .invDT) (by decide) (fun _ y => y)
    (j.myNoRow .matrix1 pe) (j.myNoCol .matrix1 pe) s.toArrays (t := j.completeUpper pe s.toArrays)
    rfl
  refine ⟨Memory.keeps_put s hkeeps, fun n hn => ?_⟩
  rw [hget n (lt_cols_mul_rows hn), hA n hn, hB n hn, part, part, part, entries_upper]

/-! ## The whole function -/

/-- **The inverse.** -/
theorem invertD_does (h : j.Valid) {S : Nat → Nat → α} {L₀ : Nat → Memory α}
    (hS : ∀ pe < j.noPe, j.IsPart .matrix1 pe S ((L₀ pe).buffer .mspace)) :
    j.Does (fun L => L = L₀) (j.invertD R) (fun L => ∀ pe < j.noPe,
      Memory.Keeps [.mspace, .invDT] (L₀ pe) (L pe) ∧
      j.IsPart .matrix1 pe (R.entries (R.inverse S)) ((L pe).buffer .mspace)) := by
  let D : j.Square α := j.toMatrix (R.withNoise S)
  let X : j.Square α := R.pdpotri (R.pdpotrf D)
  let holds (M : Nat → Nat → α) (L : Nat → Memory α) : Prop := ∀ pe < j.noPe,
    Memory.Keeps [.mspace, .invDT] (L₀ pe) (L pe) ∧ j.IsPart .matrix1 pe M ((L pe).buffer .mspace)
  refine Does.seq (J := holds S) (Does.compute ?_) (Does.seq (J := holds (R.withNoise S))
    (Does.compute ?_) (Does.seq (J := holds (R.entries (R.pdpotrf D)))
    (Does.routine h (fun _ _ _ hp => hp) ?_) (Does.seq (J := holds (R.entries X))
    (Does.routine h (fun _ _ _ hp => hp) ?_) (Does.seq (J := fun L => ∀ pe < j.noPe,
      Memory.Keeps [.mspace, .invDT] (L₀ pe) (L pe) ∧
      j.IsPart .matrix1 pe (R.entries X) ((L pe).buffer .mspace) ∧
      j.IsPart .matrix1 pe (R.entries (R.pdtran X)) ((L pe).buffer .invDT))
    (Does.routine h (fun _ _ _ hp => hp) ?_) (Does.seq (Does.compute ?_) Does.reportTime)))))
  · rintro _ rfl pe hpe
    simp only [if_pos hpe]
    exact ⟨(Memory.keeps_set _ _ _).mono (by simp), hS pe hpe⟩
  · intro L hL pe hpe
    simp only [if_pos hpe]
    obtain ⟨hkeeps, hnoise⟩ := addNoise_eq (R := R) (hL pe hpe).2
    exact ⟨(hL pe hpe).1.trans (hkeeps.mono (by simp)), hnoise⟩
  · intro L hL pe hpe
    have hD : j.toMatrix (j.gathered .matrix1 L pe .mspace) = D := by
      ext r c
      exact h.gathered_eq hpe r c (fun q hq _ => (hL q hq).2) r.isLt c.isLt
    simp only [hpe, and_self, if_true, pdpotrf, hD]
    exact ⟨(hL pe hpe).1.trans ((keeps_storeMatrix _ _ _ _).mono (by simp)),
      isPart_storeMatrix _ _ _ _⟩
  · intro L hL pe hpe
    have hD := h.toMatrix_gathered hpe fun q hq _ => (hL q hq).2
    simp only [hpe, and_self, if_true, pdpotri, hD]
    exact ⟨(hL pe hpe).1.trans ((keeps_storeMatrix _ _ _ _).mono (by simp)),
      isPart_storeMatrix _ _ _ _⟩
  · intro L hL pe hpe
    have hX := h.toMatrix_gathered hpe fun q hq _ => (hL q hq).2
    simp only [hpe, and_self, if_true, pdtran, hX]
    have hkeeps := keeps_storeMatrix (k := .matrix1) (R := R) (R.pdtran X) .invDT pe (L pe)
    refine ⟨(hL pe hpe).1.trans (hkeeps.mono (by simp)), ?_, isPart_storeMatrix _ _ _ _⟩
    rw [hkeeps.buffer .mspace (by decide)]
    exact (hL pe hpe).2
  · intro L hL pe hpe
    simp only [if_pos hpe]
    obtain ⟨hkeeps, hX, hT⟩ := hL pe hpe
    obtain ⟨hkeeps', hinverse⟩ := completeUpper_eq hX hT
    exact ⟨hkeeps.trans (hkeeps'.mono (by simp)), hinverse⟩

/-! ## Exact arithmetic -/

variable [Field α]

theorem toMatrix_withNoise (hR : R.Exact) (S : Nat → Nat → α) :
    j.toMatrix (R.withNoise S) = j.toMatrix S + 1 := by
  ext r c
  simp only [toMatrix_apply, Library.withNoise, Library.one, hR.add, hR.ofNat, Nat.cast_one,
    Matrix.add_apply, Matrix.one_apply, Fin.ext_iff]
  split_ifs
  · rfl
  · rw [add_zero]

/-- The routines give the inverse of a symmetric matrix. -/
theorem inverse_eq (hR : R.Exact) {S : Nat → Nat → α} (hS : ∀ r c, S r c = S c r)
    (hlib : ∀ r c, c ≤ r →
      R.pdpotri (R.pdpotrf (j.toMatrix S + 1)) r c = (j.toMatrix S + 1 : j.Square α)⁻¹ r c) :
    R.inverse S = (j.toMatrix S + 1)⁻¹ := by
  have hsymm : (j.toMatrix S + 1 : j.Square α).transpose = j.toMatrix S + 1 := by
    rw [Matrix.transpose_add, Matrix.transpose_one]
    congr 1
    ext r c
    exact hS c r
  ext r c
  rw [Library.inverse, toMatrix_withNoise hR, hR.pdtran, Matrix.of_apply]
  split_ifs with hlt
  · rw [Matrix.transpose_apply, hlib c r hlt.le]
    conv_rhs => rw [← hsymm, ← Matrix.transpose_nonsing_inv]
    rfl
  · exact hlib r c (not_lt.mp hlt)

end Job

end CacheTrace.Madbench
