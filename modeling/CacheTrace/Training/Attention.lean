import CacheTrace.Lists.Blocks
import CacheTrace.Tensor.Basic

/-!
# Multi-head attention

`MultiHeadCausalSelfAttention` of the notebook `transformer/final_project.ipynb` computes all
heads at once: the projections of a batch are viewed with an axis for the heads, the axes of the
heads and of the sequence are exchanged, and after two products of stacks of matrices the axes
are exchanged back and viewed as one again.

`headAttention` is the attention of one head on one element of the batch, from the columns of
the head in the three projections. `forward_eq` says that the module computes the output
projection of these, written one behind the other.

The elements are any commutative semiring. The mask and the softmax are any function `row` of a
row of scores and its number, the division by the root of `dk` is any function `scale`; dropout
is off. A batch without elements is refused by `view`, which then cannot infer a size.
-/

namespace CacheTrace.Training

open Finset

/-- The module, with weights by output and input. -/
structure MultiHeadCausalSelfAttention (α : Type) where
  dModel : Nat
  numHeads : Nat
  projQ : Nat → Nat → α
  projK : Nat → Nat → α
  projV : Nat → Nat → α
  projO : Nat → Nat → α
  /-- The assertion of `__init__`. -/
  divisible : dModel % numHeads = 0

namespace MultiHeadCausalSelfAttention

variable {α : Type} [CommSemiring α] (m : MultiHeadCausalSelfAttention α)

def dk : Nat := m.dModel / m.numHeads

/-- `proj(input).view(bs,-1,self.num_heads,dk).transpose(1,2)`. -/
def concat (proj : Nat → Nat → α) (input : Tensor α) (bs : Nat) : Option (Tensor α) := do
  let p ← Tensor.linear proj m.dModel m.dModel input
  let v ← p.view [some bs, none, some m.numHeads, some m.dk]
  return v.transpose 1 2

/-- The scores before the mask. -/
def rawScore (scale : α → α) (input : Tensor α) : Option (Tensor α) := do
  let bs ← input.shape[0]?
  let q ← m.concat m.projQ input bs
  let k ← m.concat m.projK input bs
  let score ← Tensor.matmul q (k.transpose 2 3)
  return score.map scale

/-- `multihead_v`: the values of all heads, one behind the other. -/
def multiheadV (scale : α → α) (row : Nat → List α → List α) (input : Tensor α) :
    Option (Tensor α) := do
  let bs ← input.shape[0]?
  let rawScore ← m.rawScore scale input
  let v ← m.concat m.projV input bs
  let multihead ← Tensor.matmul (rawScore.mapRows row) v
  (multihead.transpose 1 2).contiguous.view [some bs, none, some m.dModel]

def forward (scale : α → α) (row : Nat → List α → List α) (input : Tensor α) :
    Option (Tensor α) := do
  let multihead ← m.multiheadV scale row input
  Tensor.linear m.projO m.dModel m.dModel multihead

/-! ## The definition head by head

`x` is one element of the batch, a row for each position of the sequence. -/

/-- Column `o` of a projection. -/
def project (proj : Nat → Nat → α) (x : Nat → Nat → α) (t o : Nat) : α :=
  ∑ i ∈ range m.dModel, x t i * proj o i

/-- The product of the query of position `t` and the key of position `j` in head `c`. -/
def dot (x : Nat → Nat → α) (c t j : Nat) : α :=
  ∑ e ∈ range m.dk,
    m.project m.projQ x t (c * m.dk + e) * m.project m.projK x j (c * m.dk + e)

/-- Row `t` of the attention of head `c` on a sequence of `sl` positions. -/
def headAttention (scale : α → α) (row : Nat → List α → List α) (x : Nat → Nat → α)
    (sl c t e : Nat) : α :=
  ∑ j ∈ range sl, (row t ((List.range sl).map fun j => scale (m.dot x c t j))).getD j 0 *
    m.project m.projV x j (c * m.dk + e)

/-- The rows of all heads, one behind the other. -/
def concatHeads (scale : α → α) (row : Nat → List α → List α) (x : Nat → Nat → α) (sl t : Nat) :
    List α :=
  (List.range m.numHeads).flatMap fun c =>
    (List.range m.dk).map fun e => m.headAttention scale row x sl c t e

/-- Column `o` of the output. -/
def perHead (scale : α → α) (row : Nat → List α → List α) (x : Nat → Nat → α) (sl t o : Nat) : α :=
  ∑ n ∈ range m.dModel, (m.concatHeads scale row x sl t).getD n 0 * m.projO o n

/-! ## The tensors -/

section Tensors

variable {m} {input : Tensor α} {bs sl : Nat} (hinput : input.shape = [bs, sl, m.dModel])

/-- Element `b` of a batch. -/
def element (input : Tensor α) (b : Nat) : Nat → Nat → α := fun t i => input.get [b, t, i]

omit [CommSemiring α] in
theorem dModel_eq : m.dModel = m.numHeads * m.dk :=
  (Nat.mul_div_cancel' (Nat.dvd_of_mod_eq_zero m.divisible)).symm

omit [CommSemiring α] in
theorem numHeads_pos (hdk : 0 < m.dk) : 0 < m.numHeads := by
  rcases Nat.eq_zero_or_pos m.numHeads with h | h
  · rw [dk, h, Nat.div_zero] at hdk
    exact absurd hdk (lt_irrefl 0)
  · exact h

omit [CommSemiring α] in
theorem column_lt {c e : Nat} (hc : c < m.numHeads) (he : e < m.dk) :
    c * m.dk + e < m.dModel :=
  calc c * m.dk + e < c * m.dk + m.dk := Nat.add_lt_add_left he _
    _ = (c + 1) * m.dk := (Nat.succ_mul c m.dk).symm
    _ ≤ m.numHeads * m.dk := Nat.mul_le_mul_right _ hc
    _ = m.dModel := m.dModel_eq.symm

theorem concatHeads_getD (scale : α → α) (row : Nat → List α → List α) (x : Nat → Nat → α)
    (sl t : Nat) (hdk : 0 < m.dk) {n : Nat} (hn : n < m.numHeads * m.dk) :
    (m.concatHeads scale row x sl t).getD n 0 =
      m.headAttention scale row x sl (n / m.dk) t (n % m.dk) := by
  rw [concatHeads, List.range_eq_range' (n := m.numHeads), List.getD_eq_getElem?_getD,
    Lists.flatMap_range'_getElem? hdk (fun _ _ _ => by simp) hn]
  simp [Nat.mod_lt n hdk]

/-- A function of the rows, on the scores of all heads. -/
theorem get_mapRows_heads (f : Nat → List α → List α) {s : Tensor α} {bs h sl width : Nat}
    (hs : s.shape = [bs, h, sl, width]) {b c t j : Nat} (hb : b < bs) (hc : c < h) (ht : t < sl)
    (hj : j < width) :
    (s.mapRows f).get [b, c, t, j] =
      (f t ((List.range width).map fun j => s.get [b, c, t, j])).getD j 0 := by
  have hlast : s.shape = [bs, h, sl] ++ [width] := hs
  have hbound : Tensor.InBounds ([b, c] ++ [t, j]) s.shape := by
    rw [hs]
    simp [Tensor.InBounds, hb, hc, ht, hj]
  exact Tensor.get_mapRows f hlast hbound

omit [CommSemiring α] in
/-- Viewing the columns by head keeps the positions. -/
theorem flat_heads (bs sl b t c e : Nat) :
    Tensor.flat (Tensor.rowMajor [bs, sl, m.numHeads, m.dk]) [b, t, c, e] =
      Tensor.flat (Tensor.rowMajor [bs, sl, m.dModel]) [b, t, c * m.dk + e] := by
  simp only [Tensor.flat, Tensor.rowMajor, List.prod_cons, List.prod_nil, m.dModel_eq]
  ring

include hinput

theorem concat_eq (hdk : 0 < m.dk) (hbs : 0 < bs) (proj : Nat → Nat → α) :
    ∃ q, m.concat proj input bs = some q ∧ q.shape = [bs, m.numHeads, sl, m.dk] ∧
      ∀ b < bs, ∀ c < m.numHeads, ∀ t < sl, ∀ e < m.dk,
        q.get [b, c, t, e] = m.project proj (element input b) t (c * m.dk + e) := by
  have hx : input.shape = [bs, sl] ++ [m.dModel] := hinput
  obtain ⟨p, hp, hpshape, hpstrides, hpget⟩ := Tensor.linear_eq proj m.dModel hx
  have hprod : p.shape.prod = ([bs] ++ sl :: [m.numHeads, m.dk]).prod := by
    simp [hpshape, m.dModel_eq]
  obtain ⟨v, hv, hvshape, hvget⟩ := Tensor.view_infer hpstrides hprod
    (by simp [hbs, m.numHeads_pos hdk, hdk])
  have hview : p.view [some bs, none, some m.numHeads, some m.dk] = some v := hv
  refine ⟨v.transpose 1 2, ?_, ?_, ?_⟩
  · simp [concat, hp, hview]
  · rw [Tensor.shape_transpose, hvshape]
    rfl
  · intro b hb c hc t ht e he
    have hcol := column_lt hc he
    calc (v.transpose 1 2).get [b, c, t, e] = v.get [b, t, c, e] :=
          Tensor.get_transpose v (by simp [hvshape]) (by simp) (by simp)
      _ = p.get ([b, t] ++ [c * m.dk + e]) :=
          hvget _ _ (by rw [hpshape]; exact flat_heads bs sl b t c e)
      _ = m.project proj (element input b) t (c * m.dk + e) := by
          rw [hpget _ _ (by simp [Tensor.InBounds, hb, ht, hcol])]
          rfl

theorem rawScore_eq (hdk : 0 < m.dk) (hbs : 0 < bs) (scale : α → α) :
    ∃ s, m.rawScore scale input = some s ∧ s.shape = [bs, m.numHeads, sl, sl] ∧
      ∀ b < bs, ∀ c < m.numHeads, ∀ t < sl, ∀ j < sl,
        s.get [b, c, t, j] = scale (m.dot (element input b) c t j) := by
  obtain ⟨q, hq, hqshape, hqget⟩ := concat_eq hinput hdk hbs m.projQ
  obtain ⟨k, hk, hkshape, hkget⟩ := concat_eq hinput hdk hbs m.projK
  have hqbatch : q.shape = [bs, m.numHeads] ++ [sl, m.dk] := hqshape
  have hkbatch : (k.transpose 2 3).shape = [bs, m.numHeads] ++ [m.dk, sl] := by
    rw [Tensor.shape_transpose, hkshape]
    rfl
  obtain ⟨s, hs, hsshape, hsget⟩ := Tensor.matmul_eq hqbatch hkbatch
  refine ⟨s.map scale, ?_, hsshape, ?_⟩
  · simp [rawScore, hinput, hq, hk, hs]
  · intro b hb c hc t ht j hj
    have hbound : Tensor.InBounds ([b, c] ++ [t, j]) ([bs, m.numHeads] ++ [sl, sl]) := by
      simp [Tensor.InBounds, hb, hc, ht, hj]
    have hdot : s.get ([b, c] ++ [t, j]) = m.dot (element input b) c t j := by
      rw [hsget _ _ _ hbound, dot]
      refine sum_congr rfl fun e he => ?_
      have he : e < m.dk := mem_range.mp he
      have hkt : (k.transpose 2 3).get [b, c, e, j] = k.get [b, c, j, e] :=
        Tensor.get_transpose k (by simp [hkshape]) (by simp) (by simp)
      exact congrArg₂ (· * ·) (hqget b hb c hc t ht e he) (hkt.trans (hkget b hb c hc j hj e he))
    rw [Tensor.get_map scale s (by rw [hsshape]; exact hbound)]
    exact congrArg scale hdot

theorem multiheadV_eq (hdk : 0 < m.dk) (hbs : 0 < bs) (scale : α → α)
    (row : Nat → List α → List α) :
    ∃ v, m.multiheadV scale row input = some v ∧ v.shape = [bs, sl, m.dModel] ∧
      ∀ b < bs, ∀ t < sl, ∀ c < m.numHeads, ∀ e < m.dk,
        v.get [b, t, c * m.dk + e] = m.headAttention scale row (element input b) sl c t e := by
  obtain ⟨s, hs, hsshape, hsget⟩ := rawScore_eq hinput hdk hbs scale
  obtain ⟨w, hw, hwshape, hwget⟩ := concat_eq hinput hdk hbs m.projV
  have hsbatch : (s.mapRows row).shape = [bs, m.numHeads] ++ [sl, sl] := hsshape
  have hwbatch : w.shape = [bs, m.numHeads] ++ [sl, m.dk] := hwshape
  obtain ⟨a, ha, hashape, haget⟩ := Tensor.matmul_eq hsbatch hwbatch
  have htshape : (a.transpose 1 2).shape = [bs, sl, m.numHeads, m.dk] := by
    rw [Tensor.shape_transpose, hashape]
    rfl
  have hprod : (a.transpose 1 2).contiguous.shape.prod = ([bs] ++ sl :: [m.dModel]).prod := by
    rw [Tensor.shape_contiguous, htshape]
    simp [m.dModel_eq]
  obtain ⟨v, hv, hvshape, hvget⟩ := Tensor.view_infer rfl hprod
    (by simp [hbs, m.dModel_eq, m.numHeads_pos hdk, hdk])
  have hview : (a.transpose 1 2).contiguous.view [some bs, none, some m.dModel] = some v := hv
  refine ⟨v, ?_, hvshape, ?_⟩
  · simp [multiheadV, hinput, hs, hw, ha, hview]
  · intro b hb t ht c hc e he
    have hvt : v.get [b, t, c * m.dk + e] = (a.transpose 1 2).contiguous.get [b, t, c, e] :=
      hvget _ _ (by rw [Tensor.shape_contiguous, htshape]; exact (flat_heads bs sl b t c e).symm)
    have hcont : (a.transpose 1 2).contiguous.get [b, t, c, e] =
        (a.transpose 1 2).get [b, t, c, e] := by
      refine Tensor.get_contiguous _ ?_
      rw [htshape]
      simp [Tensor.InBounds, hb, hc, ht, he]
    have hat : (a.transpose 1 2).get [b, t, c, e] = a.get ([b, c] ++ [t, e]) :=
      Tensor.get_transpose a (by simp [hashape]) (by simp) (by simp)
    rw [hvt, hcont, hat, haget _ _ _ (by simp [Tensor.InBounds, hb, hc, ht, he]), headAttention]
    refine sum_congr rfl fun j hj => ?_
    have hj : j < sl := mem_range.mp hj
    have hrow := get_mapRows_heads row hsshape hb hc ht hj
    have hscores : ((List.range sl).map fun j => s.get [b, c, t, j]) =
        (List.range sl).map fun j => scale (m.dot (element input b) c t j) :=
      List.map_congr_left fun j hj => hsget b hb c hc t ht j (List.mem_range.mp hj)
    rw [hscores] at hrow
    exact congrArg₂ (· * ·) hrow (hwget b hb c hc j hj e he)

theorem forward_eq (hdk : 0 < m.dk) (hbs : 0 < bs) (scale : α → α)
    (row : Nat → List α → List α) :
    ∃ y, m.forward scale row input = some y ∧ y.shape = [bs, sl, m.dModel] ∧
      ∀ b < bs, ∀ t < sl, ∀ o < m.dModel,
        y.get [b, t, o] = m.perHead scale row (element input b) sl t o := by
  obtain ⟨v, hv, hvshape, hvget⟩ := multiheadV_eq hinput hdk hbs scale row
  have hvlast : v.shape = [bs, sl] ++ [m.dModel] := hvshape
  obtain ⟨y, hy, hyshape, -, hyget⟩ := Tensor.linear_eq m.projO m.dModel hvlast
  refine ⟨y, ?_, hyshape, ?_⟩
  · simp [forward, hv, hy]
  · intro b hb t ht o ho
    have hbound : Tensor.InBounds ([b, t] ++ [o]) ([bs, sl] ++ [m.dModel]) := by
      simp [Tensor.InBounds, hb, ht, ho]
    refine (hyget _ _ hbound).trans (sum_congr rfl fun n hn => ?_)
    have hn : n < m.numHeads * m.dk := m.dModel_eq ▸ mem_range.mp hn
    -- column `n` belongs to head `n / dk`
    have hslot := hvget b hb t ht (n / m.dk) (Nat.div_lt_of_lt_mul (by rwa [Nat.mul_comm]))
      (n % m.dk) (Nat.mod_lt n hdk)
    rw [Nat.div_add_mod'] at hslot
    rw [concatHeads_getD scale row _ sl t hdk hn]
    exact congrArg₂ (· * ·) hslot rfl

/-- An empty batch is refused. -/
theorem forward_empty (hbs : bs = 0) (scale : α → α) (row : Nat → List α → List α) :
    m.forward scale row input = none := by
  have hx : input.shape = [bs, sl] ++ [m.dModel] := hinput
  obtain ⟨p, hp, hpshape, -, -⟩ := Tensor.linear_eq m.projQ m.dModel hx
  have hinfer := Tensor.inferShape_none p.shape.prod [bs] [m.numHeads, m.dk]
  rw [if_neg (by simp [hbs])] at hinfer
  have hview : p.view [some bs, none, some m.numHeads, some m.dk] = none :=
    Tensor.view_eq_none hinfer
  simp [forward, multiheadV, rawScore, concat, hinput, hp, hview]

end Tensors

/-! ## Separate heads -/

/-- The three projections of head `c` are the same for two elements. -/
def SameHead (m m' : MultiHeadCausalSelfAttention α) (x x' : Nat → Nat → α) (sl c : Nat) : Prop :=
  ∀ t < sl, ∀ e < m.dk,
    m.project m.projQ x t (c * m.dk + e) = m'.project m'.projQ x' t (c * m.dk + e) ∧
    m.project m.projK x t (c * m.dk + e) = m'.project m'.projK x' t (c * m.dk + e) ∧
    m.project m.projV x t (c * m.dk + e) = m'.project m'.projV x' t (c * m.dk + e)

theorem headAttention_congr {m m' : MultiHeadCausalSelfAttention α} {x x' : Nat → Nat → α}
    {sl c t e : Nat} (hdk : m'.dk = m.dk) (h : SameHead m m' x x' sl c) (ht : t < sl)
    (he : e < m.dk) (scale : α → α) (row : Nat → List α → List α) :
    m.headAttention scale row x sl c t e = m'.headAttention scale row x' sl c t e := by
  have hdot {j : Nat} (hj : j < sl) : m.dot x c t j = m'.dot x' c t j := by
    rw [dot, dot, hdk]
    refine sum_congr rfl fun e he => ?_
    rw [(h t ht e (mem_range.mp he)).1, (h j hj e (mem_range.mp he)).2.1]
  have hscores : ((List.range sl).map fun j => scale (m.dot x c t j)) =
      (List.range sl).map fun j => scale (m'.dot x' c t j) :=
    List.map_congr_left fun j hj => congrArg scale (hdot (List.mem_range.mp hj))
  rw [headAttention, headAttention, hscores, hdk]
  refine sum_congr rfl fun j hj => ?_
  rw [(h j (mem_range.mp hj) e he).2.2]

/-- The module computes the attention of every head of every element on its own: on a batch with
elements its output is that of `perHead`, and the columns of a head in one element depend on the
projections of this head on this element only. An empty batch is refused. -/
theorem forward_per_head {m : MultiHeadCausalSelfAttention α} {input : Tensor α} {bs sl : Nat}
    (hinput : input.shape = [bs, sl, m.dModel]) (hdk : 0 < m.dk) (scale : α → α)
    (row : Nat → List α → List α) :
    (bs = 0 → m.forward scale row input = none) ∧
    (0 < bs → ∃ v y, m.multiheadV scale row input = some v ∧
      m.forward scale row input = some y ∧ y.shape = [bs, sl, m.dModel] ∧
      (∀ b < bs, ∀ t < sl, ∀ o < m.dModel,
        y.get [b, t, o] = m.perHead scale row (element input b) sl t o) ∧
      ∀ (m' : MultiHeadCausalSelfAttention α) (input' v' : Tensor α),
        m'.dModel = m.dModel → m'.numHeads = m.numHeads → input'.shape = input.shape →
        m'.multiheadV scale row input' = some v' →
        ∀ b < bs, ∀ c < m.numHeads, SameHead m m' (element input b) (element input' b) sl c →
        ∀ t < sl, ∀ e < m.dk, v'.get [b, t, c * m.dk + e] = v.get [b, t, c * m.dk + e]) := by
  refine ⟨fun hbs => forward_empty hinput hbs scale row, fun hbs => ?_⟩
  obtain ⟨v, hv, -, hvget⟩ := multiheadV_eq hinput hdk hbs scale row
  obtain ⟨y, hy, hyshape, hyget⟩ := forward_eq hinput hdk hbs scale row
  refine ⟨v, y, hv, hy, hyshape, hyget, ?_⟩
  intro m' input' v' hd hh hshape hv' b hb c hc hsame t ht e he
  have hdk' : m'.dk = m.dk := by rw [dk, dk, hd, hh]
  have hinput' : input'.shape = [bs, sl, m'.dModel] := by rw [hshape, hinput, hd]
  obtain ⟨w, hw, -, hwget⟩ := multiheadV_eq hinput' (hdk'.symm ▸ hdk) hbs scale row
  obtain rfl : v' = w := Option.some.inj (hv'.symm.trans hw)
  have hslot := hwget b hb t ht c (hh.symm ▸ hc) e (hdk'.symm ▸ he)
  rw [hdk'] at hslot
  rw [hslot, hvget b hb t ht c hc e he]
  exact (headAttention_congr hdk' hsame ht he scale row).symm

/-- Two heads of two columns. -/
def twoHeads : MultiHeadCausalSelfAttention Int :=
  ⟨4, 2, fun o i => o + i, fun o i => o * i, fun o i => o - i, fun o i => i - o, rfl⟩

/-- A batch of sequences of three positions. -/
def sumBatch (bs : Nat) : Tensor Int := Tensor.ofFn [bs, 3, 4] fun idx => idx.sum

theorem forward_per_head_two :
    ∃ y, twoHeads.forward id (fun _ => id) (sumBatch 2) = some y ∧
      y.get [1, 2, 3] = twoHeads.perHead id (fun _ => id) (element (sumBatch 2) 1) 3 2 3 := by
  have hinput : (sumBatch 2).shape = [2, 3, twoHeads.dModel] := rfl
  obtain ⟨-, y, -, hy, -, hget, -⟩ :=
    (forward_per_head hinput (by decide) id fun _ => id).2 (by decide)
  exact ⟨y, hy, hget 1 (by decide) 2 (by decide) 3 (by decide)⟩

theorem forward_empty_batch : twoHeads.forward id (fun _ => id) (sumBatch 0) = none :=
  forward_empty (m := twoHeads) rfl rfl id fun _ => id

end MultiHeadCausalSelfAttention

end CacheTrace.Training
