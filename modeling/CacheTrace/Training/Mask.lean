import CacheTrace.Training.Attention
import Mathlib.Analysis.SpecialFunctions.Exp
import Mathlib.Analysis.Real.Sqrt

/-!
# The causal mask

`forward` hides the positions after `t` from row `t` of the scores: it writes `-1e9` over them
before the softmax. The scores themselves are products of the input with the weights, and the
input is not normalised, so the scores of the visible positions may all be below this number.
Then the softmax prefers the hidden positions.

`hides_iff` says when the mask works. The product of a query and a key is a bilinear form of the
two positions (`dot_eq_form`), and every row that hides something needs a visible position where
the form is above `-1e9` times the root of `dk`.
-/

namespace CacheTrace.Training

open Finset

/-! ## The mask and the softmax -/

/-- `masked_fill(attn_mask == 1, value)` on row `t`, where the mask is the triangle above the
diagonal. -/
def maskedFill {α : Type} [Zero α] (value : α) (t : Nat) (scores : List α) : List α :=
  (List.range scores.length).map fun j => if t < j then value else scores.getD j 0

noncomputable def softmax (scores : List ℝ) : List ℝ :=
  scores.map fun s => Real.exp s / (scores.map Real.exp).sum

/-- The function of a row that `forward` uses. -/
noncomputable def attentionRow (t : Nat) (scores : List ℝ) : List ℝ :=
  softmax (maskedFill (-10 ^ 9) t scores)

theorem getD_maskedFill {α : Type} [Zero α] (value : α) (t : Nat) {scores : List α} {j : Nat}
    (hj : j < scores.length) :
    (maskedFill value t scores).getD j 0 = if t < j then value else scores.getD j 0 := by
  simp [maskedFill, hj]

/-- The softmax keeps the order. -/
theorem softmax_lt_iff {scores : List ℝ} {i j : Nat} (hi : i < scores.length)
    (hj : j < scores.length) :
    (softmax scores).getD i 0 < (softmax scores).getD j 0 ↔
      scores.getD i 0 < scores.getD j 0 := by
  have hsum : 0 < (scores.map Real.exp).sum := by
    refine List.sum_pos _ ?_ ?_
    · intro x hx
      obtain ⟨s, -, rfl⟩ := List.mem_map.mp hx
      exact Real.exp_pos s
    · rw [ne_eq, List.map_eq_nil_iff]
      exact List.ne_nil_of_length_pos (Nat.zero_lt_of_lt hi)
  simp only [softmax, List.getD_eq_getElem?_getD, List.getElem?_map,
    List.getElem?_eq_getElem hi, List.getElem?_eq_getElem hj, Option.map_some, Option.getD_some]
  rw [div_lt_div_iff_of_pos_right hsum, Real.exp_lt_exp]

namespace MultiHeadCausalSelfAttention

variable (m : MultiHeadCausalSelfAttention ℝ)

/-- The division by `math.sqrt(dk)`. -/
noncomputable def scale (s : ℝ) : ℝ := s / √m.dk

/-- `raw_score` after the mask. -/
noncomputable def maskedScore (input : Tensor ℝ) : Option (Tensor ℝ) :=
  (m.rawScore m.scale input).map (Tensor.mapRows (maskedFill (-10 ^ 9)))

/-- `score`, the weights that `multiheadV` multiplies with the values. -/
noncomputable def score (input : Tensor ℝ) : Option (Tensor ℝ) :=
  (m.rawScore m.scale input).map (Tensor.mapRows attentionRow)

/-- No hidden position of a row has the largest entry or the largest weight. -/
def HidesFuture (input : Tensor ℝ) (bs sl : Nat) : Prop :=
  ∀ masked score, m.maskedScore input = some masked → m.score input = some score →
    ∀ b < bs, ∀ c < m.numHeads, ∀ t j, t < j → j < sl → ∃ j' ≤ t,
      masked.get [b, c, t, j] < masked.get [b, c, t, j'] ∧
      score.get [b, c, t, j] < score.get [b, c, t, j']

/-! ## The bilinear form of a head -/

/-- The product of the transposed query weights and the key weights of head `c`. -/
noncomputable def form (c i i' : Nat) : ℝ :=
  ∑ e ∈ range m.dk, m.projQ (c * m.dk + e) i * m.projK (c * m.dk + e) i'

noncomputable def formAt (x : Nat → Nat → ℝ) (c t j : Nat) : ℝ :=
  ∑ i ∈ range m.dModel, ∑ i' ∈ range m.dModel, x t i * m.form c i i' * x j i'

/-- In every row that hides a position, the form is large enough at a visible one. -/
def Dominates (x : Nat → Nat → ℝ) (sl : Nat) : Prop :=
  ∀ c < m.numHeads, ∀ t, t + 1 < sl → ∃ j ≤ t, -10 ^ 9 * √m.dk < m.formAt x c t j

theorem dot_eq_form (x : Nat → Nat → ℝ) (c t j : Nat) : m.dot x c t j = m.formAt x c t j := by
  have hterm (e i i' : Nat) :
      x t i * m.projQ (c * m.dk + e) i * (x j i' * m.projK (c * m.dk + e) i') =
        x t i * (m.projQ (c * m.dk + e) i * m.projK (c * m.dk + e) i') * x j i' := by
    ring
  simp only [dot, project, sum_mul_sum, hterm]
  simp only [formAt, form, mul_sum, sum_mul]
  rw [sum_comm]
  exact sum_congr rfl fun i _ => sum_comm

/-! ## When the mask works -/

section Scores

variable {m} {input : Tensor ℝ} {bs sl : Nat} (hinput : input.shape = [bs, sl, m.dModel])

include hinput

/-- The entries and the weights of a row. -/
theorem maskedScore_eq (hdk : 0 < m.dk) (hbs : 0 < bs) :
    ∃ masked score, m.maskedScore input = some masked ∧ m.score input = some score ∧
      ∀ b < bs, ∀ c < m.numHeads, ∀ t < sl,
        (∀ j < sl, masked.get [b, c, t, j] =
          if t < j then -10 ^ 9 else m.scale (m.dot (element input b) c t j)) ∧
        ∀ i < sl, ∀ j < sl, score.get [b, c, t, i] < score.get [b, c, t, j] ↔
          masked.get [b, c, t, i] < masked.get [b, c, t, j] := by
  obtain ⟨raw, hraw, hshape, hget⟩ := rawScore_eq hinput hdk hbs m.scale
  refine ⟨raw.mapRows (maskedFill (-10 ^ 9)), raw.mapRows attentionRow,
    by rw [maskedScore, hraw]; rfl, by rw [score, hraw]; rfl, ?_⟩
  intro b hb c hc t ht
  have hrow (f : Nat → List ℝ → List ℝ) {j : Nat} (hj : j < sl) :=
    get_mapRows_heads f hshape hb hc ht hj
  refine ⟨fun j hj => ?_, fun i hi j hj => ?_⟩
  · rw [hrow _ hj, getD_maskedFill _ _ (by simpa using hj), ← hget b hb c hc t ht j hj]
    simp [hj]
  · rw [hrow _ hi, hrow _ hj, hrow _ hi, hrow _ hj, attentionRow]
    exact softmax_lt_iff (by simpa [maskedFill] using hi) (by simpa [maskedFill] using hj)

end Scores

theorem lt_scale_iff (hdk : 0 < m.dk) (x : Nat → Nat → ℝ) (c t j : Nat) :
    -10 ^ 9 < m.scale (m.dot x c t j) ↔ -10 ^ 9 * √m.dk < m.formAt x c t j := by
  have hroot : 0 < √(m.dk : ℝ) := Real.sqrt_pos.mpr (Nat.cast_pos.mpr hdk)
  rw [scale, lt_div_iff₀ hroot, dot_eq_form]

/-- The mask hides the future exactly when every row that hides a position has a visible one
where the form of the head is above `-1e9` times the root of `dk`. -/
theorem hides_iff {m : MultiHeadCausalSelfAttention ℝ} {input : Tensor ℝ} {bs sl : Nat}
    (hinput : input.shape = [bs, sl, m.dModel]) (hdk : 0 < m.dk) :
    (0 < bs → (m.maskedScore input).isSome ∧ (m.score input).isSome) ∧
    (m.HidesFuture input bs sl ↔ ∀ b < bs, m.Dominates (element input b) sl) := by
  refine ⟨fun hbs => ?_, fun h b hb c hc t ht => ?_, fun h masked' score' hmasked' hscore' => ?_⟩
  · obtain ⟨masked, score, hmasked, hscore, -⟩ := maskedScore_eq hinput hdk hbs
    simp [hmasked, hscore]
  · obtain ⟨masked, score, hmasked, hscore, hrows⟩ :=
      maskedScore_eq hinput hdk (Nat.zero_lt_of_lt hb)
    obtain ⟨j', hj', hlt, -⟩ :=
      h masked score hmasked hscore b hb c hc t (t + 1) (Nat.lt_succ_self t) ht
    have hentries := (hrows b hb c hc t (by omega)).1
    rw [hentries _ ht, hentries j' (by omega), if_pos (Nat.lt_succ_self t),
      if_neg (by omega), lt_scale_iff m hdk] at hlt
    exact ⟨j', hj', hlt⟩
  · intro b hb c hc t j htj hj
    obtain ⟨masked, score, hmasked, hscore, hrows⟩ :=
      maskedScore_eq hinput hdk (Nat.zero_lt_of_lt hb)
    obtain rfl : masked' = masked := Option.some.inj (hmasked'.symm.trans hmasked)
    obtain rfl : score' = score := Option.some.inj (hscore'.symm.trans hscore)
    obtain ⟨hentries, horder⟩ := hrows b hb c hc t (by omega)
    obtain ⟨j', hj', hform⟩ := h b hb c hc t (by omega)
    have hlt : masked'.get [b, c, t, j] < masked'.get [b, c, t, j'] := by
      rw [hentries j hj, hentries j' (by omega), if_pos htj, if_neg (by omega),
        lt_scale_iff m hdk]
      exact hform
    exact ⟨j', hj', hlt, (horder j hj j' (by omega)).mpr hlt⟩

/-- One head of four columns, with the same weight everywhere in each projection. -/
def constant (q k : ℝ) : MultiHeadCausalSelfAttention ℝ :=
  ⟨4, 1, fun _ _ => q, fun _ _ => k, fun _ _ => 1, fun _ _ => 1, rfl⟩

/-- Two positions with the same number in the four columns. -/
def constantInput (a : ℝ) : Tensor ℝ := Tensor.ofFn [1, 2, 4] fun _ => a

theorem dk_constant (q k : ℝ) : (constant q k).dk = 4 := Nat.div_one 4

theorem formAt_constant (q k a : ℝ) (c t j : Nat) :
    (constant q k).formAt (element (constantInput a) 0) c t j = 64 * (a * q * k * a) := by
  have hdModel : (constant q k).dModel = 4 := rfl
  have helement (t i : Nat) : element (constantInput a) 0 t i = a := rfl
  have hform (i i' : Nat) : (constant q k).form c i i' = 4 * (q * k) := by
    rw [form, dk_constant]
    simp [constant]
  simp only [formAt, hform, helement, hdModel, sum_const, card_range, nsmul_eq_mul]
  ring

theorem sqrt_dk_constant (q k : ℝ) : √((constant q k).dk : ℝ) = 2 := by
  rw [dk_constant, Real.sqrt_eq_iff_mul_self_eq (by norm_num) (by norm_num)]
  norm_num

theorem hides_small : (constant 1 (-1)).HidesFuture (constantInput 1) 1 2 := by
  have hinput : (constantInput 1).shape = [1, 2, (constant 1 (-1)).dModel] := rfl
  refine ((hides_iff hinput (by decide)).2).mpr fun b hb c _ t _ => ⟨0, Nat.zero_le t, ?_⟩
  obtain rfl : b = 0 := by omega
  rw [formAt_constant, sqrt_dk_constant]
  norm_num

theorem future_preferred : ¬ (constant 1 (-1)).HidesFuture (constantInput (10 ^ 5)) 1 2 := by
  intro h
  have hinput : (constantInput (10 ^ 5)).shape = [1, 2, (constant 1 (-1)).dModel] := rfl
  obtain ⟨masked, score, hmasked, hscore, hrows⟩ := maskedScore_eq hinput (by decide) Nat.one_pos
  obtain ⟨j', hj', hlt, -⟩ := h masked score hmasked hscore 0 Nat.one_pos 0 Nat.one_pos 0 1
    Nat.one_pos Nat.one_lt_two
  obtain rfl : j' = 0 := by omega
  have hentries := (hrows 0 Nat.one_pos 0 Nat.one_pos 0 Nat.two_pos).1
  rw [hentries 1 Nat.one_lt_two, hentries 0 Nat.two_pos, if_pos Nat.one_pos,
    if_neg (lt_irrefl 0), lt_scale_iff _ (by decide), formAt_constant, sqrt_dk_constant] at hlt
  norm_num at hlt

end MultiHeadCausalSelfAttention

end CacheTrace.Training
