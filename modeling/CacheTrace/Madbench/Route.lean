import CacheTrace.Madbench.Process
import Mathlib.Data.List.Sort
import Mathlib.Order.Monotone.Basic

/-!
# The targets of a remap

`remap` brings a matrix from the square of all processes to the smaller square of one gang `tg`.
The target `tp[sp]` of a process has its row and column in the smaller square, counted round. The
processes with one target `t` are numbered by `np` in ascending order, and `source t k` is the one
of number `k`: its row and column are the row and column of `t` plus multiples of the smaller
side, and the number has these multiples as digits (`np_eq`).

The number is what `fill` works with. As rows are dealt out to processes in turn, the elements of
the source are again a cyclic share of those of the target (`globalRow_embed`), and the sources
of a target have all its elements among them (`exists_source`).

Inside the target gang the targets keep the order of processes in one row of the square
(`tp_mono`). So following the targets leads up all the time or down all the time, and never round
in a circle.
-/

namespace CacheTrace.Madbench

open Cyclic Buffer

namespace Job

/-- The entry `tp[sp]` for the target gang `tg`. The loop over `spc` and `spr` goes through the
processes column by column. -/
def tp (j : Job) (tg sp : Nat) : Nat :=
  let spr := sp % j.side .matrix1
  let spc := sp / j.side .matrix1
  tg * j.gangPe .matrix2 + spr % j.side .matrix2 + spc % j.side .matrix2 * j.side .matrix2

/-- The value of the counter `np` at process `pe`: the processes before it with the target
`me`. -/
def np (j : Job) (tg me pe : Nat) : Nat := (List.range pe).countP fun sp => j.tp tg sp = me

/-- Process `k` among those with the target `t`. -/
def source (j : Job) (t k : Nat) : Nat :=
  (k / j.ratio * j.side .matrix2 + j.peCol .matrix2 t) * j.side .matrix1 +
    (k % j.ratio * j.side .matrix2 + j.peRow .matrix2 t)

/-- A process is its gang and its row and column there. -/
theorem pe_eq (j : Job) (pe : Nat) : pe = j.gangId pe * j.gangPe .matrix2 + j.peRow .matrix2 pe +
    j.peCol .matrix2 pe * j.side .matrix2 := by
  have hgang := Nat.div_add_mod pe (j.gangPe .matrix2)
  have hsquare := Nat.div_add_mod (j.gangMyPe pe .matrix2) (j.side .matrix2)
  rw [Nat.mul_comm] at hgang hsquare
  rw [gangId, peRow, peCol]
  simp only [gangMyPe] at *
  omega

variable {j : Job} (h : j.Valid) {tg sp t : Nat}

include h

/-! ## The two squares -/

theorem Valid.side_eq : j.side .matrix1 = j.ratio * j.side .matrix2 := by
  have hpos := h.side_pos .matrix2
  suffices hdvd : j.side .matrix2 ∣ j.side .matrix1 from (Nat.div_mul_cancel hdvd).symm
  rw [← Nat.pow_dvd_pow_iff (n := 2) (by decide), Nat.pow_two, Nat.pow_two, h.side_sq, h.side_sq]
  exact Nat.div_dvd_of_dvd h.gang_dvd_pe

theorem Valid.ratio_pos : 0 < j.ratio :=
  Nat.pos_of_mul_pos_right (h.side_eq ▸ h.side_pos .matrix1)

theorem Valid.noPe_eq : j.noPe = j.noGang * j.gangPe .matrix2 :=
  (Nat.mul_div_cancel' h.gang_dvd_pe).symm

theorem Valid.gangId_lt {pe : Nat} (hpe : pe < j.noPe) : j.gangId pe < j.noGang := by
  rw [gangId, Nat.div_lt_iff_lt_mul (h.gangPe_pos .matrix2), ← h.noPe_eq]
  exact hpe

/-! ## Targets -/

/-- The number of the target in its gang is below the size of the gang. -/
theorem Valid.tp_rest_lt (sp : Nat) : sp % j.side .matrix1 % j.side .matrix2 +
    sp / j.side .matrix1 % j.side .matrix2 * j.side .matrix2 < j.gangPe .matrix2 := by
  have hrow := Nat.mod_lt (sp % j.side .matrix1) (h.side_pos .matrix2)
  have hcol := Nat.mod_lt (sp / j.side .matrix1) (h.side_pos .matrix2)
  have hmul := Nat.mul_le_mul_right (j.side .matrix2) hcol
  rw [Nat.succ_mul] at hmul
  rw [← h.side_sq]
  omega

theorem Valid.gangId_tp (tg sp : Nat) : j.gangId (j.tp tg sp) = tg := by
  rw [gangId, tp, Nat.add_assoc]
  exact mul_add_div (h.gangPe_pos .matrix2) (h.tp_rest_lt sp)

theorem Valid.tp_lt (htg : tg < j.noGang) (sp : Nat) : j.tp tg sp < j.noPe := by
  rw [h.noPe_eq, ← Nat.div_lt_iff_lt_mul (h.gangPe_pos .matrix2)]
  exact (h.gangId_tp tg sp).trans_lt htg

theorem Valid.gangMyPe_tp (tg sp : Nat) : j.gangMyPe (j.tp tg sp) .matrix2 =
    j.peCol .matrix1 sp % j.side .matrix2 * j.side .matrix2 +
      j.peRow .matrix1 sp % j.side .matrix2 := by
  rw [gangMyPe, tp, Nat.add_assoc, mul_add_mod (h.tp_rest_lt sp), Nat.add_comm]
  rfl

theorem Valid.peRow_tp (tg sp : Nat) :
    j.peRow .matrix2 (j.tp tg sp) = j.peRow .matrix1 sp % j.side .matrix2 := by
  rw [peRow, h.gangMyPe_tp, mul_add_mod (Nat.mod_lt _ (h.side_pos .matrix2))]

theorem Valid.peCol_tp (tg sp : Nat) :
    j.peCol .matrix2 (j.tp tg sp) = j.peCol .matrix1 sp % j.side .matrix2 := by
  rw [peCol, h.gangMyPe_tp,
    mul_add_div (h.side_pos .matrix2) (Nat.mod_lt _ (h.side_pos .matrix2))]

/-- The target of a process is `t`. -/
theorem Valid.tp_eq_iff (ht : j.gangId t = tg) : j.tp tg sp = t ↔
    j.peRow .matrix1 sp % j.side .matrix2 = j.peRow .matrix2 t ∧
      j.peCol .matrix1 sp % j.side .matrix2 = j.peCol .matrix2 t := by
  constructor
  · rintro rfl
    exact ⟨(h.peRow_tp tg sp).symm, (h.peCol_tp tg sp).symm⟩
  · rintro ⟨hrow, hcol⟩
    rw [j.pe_eq t, ht, ← hrow, ← hcol]
    rfl

/-- **Targets keep the order**, for processes of the target gang in the same row. -/
theorem Valid.tp_mono {x y : Nat} (hx : j.gangId x = tg) (hy : j.gangId y = tg)
    (hrow : x % j.side .matrix2 = y % j.side .matrix2) (hle : x ≤ y) : j.tp tg x ≤ j.tp tg y := by
  have hsame : ∀ z, z % j.side .matrix1 % j.side .matrix2 = z % j.side .matrix2 := by
    intro z
    rw [h.side_eq]
    exact Nat.mod_mul_left_mod _ _ _
  -- the columns of the gang in the large square do not go round
  have hdigit : ∀ z, j.gangId z = tg → z / j.side .matrix1 / j.side .matrix2 = tg / j.ratio := by
    rintro z rfl
    rw [gangId, ← h.side_sq, h.side_eq, Nat.div_div_eq_div_mul, Nat.div_div_eq_div_mul]
    congr 1
    ring
  have hcol : x / j.side .matrix1 % j.side .matrix2 ≤ y / j.side .matrix1 % j.side .matrix2 := by
    have hdiv : x / j.side .matrix1 ≤ y / j.side .matrix1 := Nat.div_le_div_right hle
    have hx' := Nat.div_add_mod (x / j.side .matrix1) (j.side .matrix2)
    have hy' := Nat.div_add_mod (y / j.side .matrix1) (j.side .matrix2)
    rw [hdigit x hx] at hx'
    rw [hdigit y hy] at hy'
    omega
  simp only [tp, hsame, hrow]
  exact Nat.add_le_add_left (Nat.mul_le_mul_right _ hcol) _

theorem Valid.tp_mod (tg sp : Nat) : j.tp tg sp % j.side .matrix2 = sp % j.side .matrix2 := by
  have hgang : tg * j.gangPe .matrix2 = tg * j.side .matrix2 * j.side .matrix2 := by
    rw [← h.side_sq, Nat.mul_assoc]
  rw [tp, hgang, Nat.add_mul_mod_self_right, Nat.mul_add_mod_self_right, Nat.mod_mod, h.side_eq]
  exact Nat.mod_mul_left_mod _ _ _

/-- From a process of the gang that has its target above, the targets lead up. -/
theorem Valid.le_tp_tp (hsp : j.gangId sp = tg) (hlt : sp ≤ j.tp tg sp) :
    j.tp tg sp ≤ j.tp tg (j.tp tg sp) :=
  h.tp_mono hsp (h.gangId_tp tg sp) (h.tp_mod tg sp).symm hlt

/-- From a process of the gang that has its target below, the targets lead down. -/
theorem Valid.tp_tp_le (hsp : j.gangId sp = tg) (hlt : j.tp tg sp ≤ sp) :
    j.tp tg (j.tp tg sp) ≤ j.tp tg sp :=
  h.tp_mono (h.gangId_tp tg sp) hsp (h.tp_mod tg sp) hlt

/-! ## Sources -/

theorem Valid.source_row_lt (t k : Nat) :
    k % j.ratio * j.side .matrix2 + j.peRow .matrix2 t < j.side .matrix1 := by
  have hmul := Nat.mul_le_mul_right (j.side .matrix2) (Nat.mod_lt k h.ratio_pos)
  have hrow := h.peRow_lt .matrix2 t
  rw [Nat.succ_mul] at hmul
  rw [h.side_eq]
  omega

theorem Valid.peRow_source (t k : Nat) :
    j.peRow .matrix1 (j.source t k) = k % j.ratio * j.side .matrix2 + j.peRow .matrix2 t :=
  mul_add_mod (h.source_row_lt t k)

theorem Valid.peCol_source (t k : Nat) :
    j.peCol .matrix1 (j.source t k) = k / j.ratio * j.side .matrix2 + j.peCol .matrix2 t :=
  mul_add_div (h.side_pos .matrix1) (h.source_row_lt t k)

theorem Valid.source_strictMono (t : Nat) : StrictMono (j.source t) := by
  intro k k' hlt
  have hk := Nat.div_add_mod k j.ratio
  have hk' := Nat.div_add_mod k' j.ratio
  rw [Nat.mul_comm] at hk hk'
  have hdigits : k / j.ratio < k' / j.ratio ∨ k / j.ratio = k' / j.ratio ∧
      k % j.ratio < k' % j.ratio := by
    rw [← mul_add_lt_iff (Nat.mod_lt k h.ratio_pos) (Nat.mod_lt k' h.ratio_pos), hk, hk']
    exact hlt
  have hmul : ∀ {x y : Nat}, x < y → x * j.side .matrix2 < y * j.side .matrix2 :=
    fun hxy => Nat.mul_lt_mul_of_pos_right hxy (h.side_pos .matrix2)
  rw [source, source, mul_add_lt_iff (h.source_row_lt t k) (h.source_row_lt t k')]
  rcases hdigits with hcol | ⟨hcol, hrow⟩
  · exact .inl (Nat.add_lt_add_right (hmul hcol) _)
  · exact .inr ⟨by rw [hcol], Nat.add_lt_add_right (hmul hrow) _⟩

/-- A process is a source of its target. -/
theorem Valid.source_tp (tg sp : Nat) : j.source (j.tp tg sp)
    (j.peCol .matrix1 sp / j.side .matrix2 * j.ratio + j.peRow .matrix1 sp / j.side .matrix2) =
      sp := by
  have hlt : j.peRow .matrix1 sp / j.side .matrix2 < j.ratio := by
    rw [Nat.div_lt_iff_lt_mul (h.side_pos .matrix2), ← h.side_eq]
    exact h.peRow_lt .matrix1 sp
  rw [source, mul_add_div h.ratio_pos hlt, mul_add_mod hlt, h.peRow_tp, h.peCol_tp,
    Nat.mul_comm (j.peCol .matrix1 sp / _), Nat.mul_comm (j.peRow .matrix1 sp / _),
    Nat.div_add_mod, Nat.div_add_mod, Nat.mul_comm]
  exact Nat.div_add_mod sp _

theorem Valid.tp_source (ht : j.gangId t = tg) (k : Nat) : j.tp tg (j.source t k) = t := by
  rw [h.tp_eq_iff ht, h.peRow_source, h.peCol_source, mul_add_mod (h.peRow_lt .matrix2 t),
    Nat.mul_add_mod_self_right]
  refine ⟨rfl, Nat.mod_eq_of_lt ?_⟩
  rw [peCol, Nat.div_lt_iff_lt_mul (h.side_pos .matrix2), h.side_sq]
  exact Nat.mod_lt _ (h.gangPe_pos .matrix2)

/-- **The counter `np`** has the multiples of the side as its digits. -/
theorem Valid.np_eq (tg sp : Nat) : j.np tg (j.tp tg sp) sp =
    j.peCol .matrix1 sp / j.side .matrix2 * j.ratio + j.peRow .matrix1 sp / j.side .matrix2 := by
  set k := j.peCol .matrix1 sp / j.side .matrix2 * j.ratio + j.peRow .matrix1 sp / j.side .matrix2
  set t := j.tp tg sp
  have hmono := h.source_strictMono t
  have hsp : j.source t k = sp := h.source_tp tg sp
  have hsources : (List.range sp).filter (fun pe => j.tp tg pe = t) =
      (List.range k).map (j.source t) := by
    refine (List.pairwise_lt_range.filter _).eq_of_mem_iff
      (List.pairwise_lt_range.map _ fun _ _ hlt => hmono hlt) fun pe => ?_
    simp only [List.mem_filter, List.mem_range, decide_eq_true_eq, List.mem_map]
    constructor
    · rintro ⟨hlt, htp⟩
      have hpe := h.source_tp tg pe
      rw [htp] at hpe
      exact ⟨_, hmono.lt_iff_lt.mp (by rw [hpe, hsp]; exact hlt), hpe⟩
    · rintro ⟨i, hi, rfl⟩
      exact ⟨by rw [← hsp]; exact hmono hi, h.tp_source (h.gangId_tp tg sp) i⟩
  rw [np, List.countP_eq_length_filter, hsources, List.length_map, List.length_range]

theorem Valid.np_mod (tg sp : Nat) :
    j.np tg (j.tp tg sp) sp % j.ratio = j.peRow .matrix1 sp / j.side .matrix2 := by
  rw [h.np_eq, mul_add_mod]
  rw [Nat.div_lt_iff_lt_mul (h.side_pos .matrix2), ← h.side_eq]
  exact h.peRow_lt .matrix1 sp

theorem Valid.np_div (tg sp : Nat) :
    j.np tg (j.tp tg sp) sp / j.ratio = j.peCol .matrix1 sp / j.side .matrix2 := by
  rw [h.np_eq, mul_add_div h.ratio_pos]
  rw [Nat.div_lt_iff_lt_mul (h.side_pos .matrix2), ← h.side_eq]
  exact h.peRow_lt .matrix1 sp

/-! ## Elements -/

/-- The row of an element in the matrix is the same at the source and at the target. -/
theorem Valid.globalRow_embed (tg sp r : Nat) : j.globalRow .matrix2 (j.tp tg sp)
    (j.embed (j.np tg (j.tp tg sp) sp % j.ratio) r) = j.globalRow .matrix1 sp r := by
  rw [globalRow, embed, globalIndex_globalIndex h.sblocksize, h.np_mod, h.peRow_tp,
    Nat.mul_comm (j.peRow .matrix1 sp / _), Nat.div_add_mod, ← h.side_eq]
  rfl

theorem Valid.globalCol_embed (tg sp c : Nat) : j.globalCol .matrix2 (j.tp tg sp)
    (j.embed (j.np tg (j.tp tg sp) sp / j.ratio) c) = j.globalCol .matrix1 sp c := by
  rw [globalCol, embed, globalIndex_globalIndex h.sblocksize, h.np_div, h.peCol_tp,
    Nat.mul_comm (j.peCol .matrix1 sp / _), Nat.div_add_mod, ← h.side_eq]
  rfl

/-- The indices of the target that the elements of a source go to. -/
def Placed (j : Job) (tg sp n : Nat) : Prop :=
  let np := j.np tg (j.tp tg sp) sp
  ∃ r < j.myNoRow .matrix1 sp, ∃ c < j.myNoCol .matrix1 sp,
    n = j.embed (np / j.ratio) c * j.myNoRow .matrix2 (j.tp tg sp) + j.embed (np % j.ratio) r

section Elements

variable {α : Type} {M : Nat → Nat → α} {d1 : Nat → α} (htg : tg < j.noGang) (hsp : sp < j.noPe)

include htg hsp

theorem Valid.embed_lt_iff (r c : Nat) :
    (j.embed (j.np tg (j.tp tg sp) sp % j.ratio) r < j.myNoRow .matrix2 (j.tp tg sp) ↔
      r < j.myNoRow .matrix1 sp) ∧
    (j.embed (j.np tg (j.tp tg sp) sp / j.ratio) c < j.myNoCol .matrix2 (j.tp tg sp) ↔
      c < j.myNoCol .matrix1 sp) := by
  rw [h.lt_myNoRow_iff, h.lt_myNoRow_iff, h.globalRow_embed, h.lt_myNoCol_iff (h.tp_lt htg sp),
    h.lt_myNoCol_iff hsp, h.globalCol_embed]
  exact ⟨Iff.rfl, Iff.rfl⟩

/-- The running `offset` of `fill` stays in range: a row block begins inside the rows of the
target, or one or two blocks beyond the last one that does. -/
theorem Valid.fillOffset_lt (hrange : j.NoOverflow) {c k : Nat} (hc : c < j.myNoCol .matrix1 sp)
    (hk : k ≤ j.myNoRow .matrix1 sp / j.sblocksize + 1) :
    j.fillOffset (j.np tg (j.tp tg sp) sp) (j.myNoRow .matrix2 (j.tp tg sp)) c k < 2 ^ 31 := by
  set np := j.np tg (j.tp tg sp) sp with hnp
  set rows := j.myNoRow .matrix2 (j.tp tg sp)
  set nrb := j.myNoRow .matrix1 sp / j.sblocksize with hnrb
  have hb := h.sblocksize
  have hfills := hrange.fills
  have hroff : (np % j.ratio + 1) * j.sblocksize ≤ j.ratio * j.sblocksize :=
    Nat.mul_le_mul_right _ (Nat.mod_lt _ h.ratio_pos)
  have hcol : (j.embed (np / j.ratio) c + 1) * rows ≤ j.share .matrix2 0 := by
    refine (Nat.mul_le_mul_right rows ((h.embed_lt_iff htg hsp 0 c).2.mpr hc)).trans ?_
    rw [Nat.mul_comm, ← share_eq]
    exact j.share_le_zero _ _
  have hblock : k * j.ratio * j.sblocksize ≤ (nrb + 1) * j.ratio * j.sblocksize :=
    Nat.mul_le_mul_right _ (Nat.mul_le_mul_right _ hk)
  rw [Nat.succ_mul] at hroff hcol
  rw [fillOffset, Nat.add_mul]
  rcases Nat.eq_zero_or_pos nrb with hzero | hpos
  · rw [hzero, Nat.zero_add, Nat.one_mul] at hblock
    omega
  · -- the last row of the whole blocks is a row of the target
    obtain ⟨m, hm⟩ := Nat.exists_eq_add_of_lt hpos
    rw [Nat.zero_add] at hm
    have hlast : m * j.sblocksize + (j.sblocksize - 1) < j.myNoRow .matrix1 sp := by
      have hmul := Nat.div_mul_le_self (j.myNoRow .matrix1 sp) j.sblocksize
      rw [← hnrb, hm, Nat.succ_mul] at hmul
      omega
    have hrow := (h.embed_lt_iff htg hsp (m * j.sblocksize + (j.sblocksize - 1)) c).1.mpr hlast
    rw [embed, globalIndex_mul_add hb (by omega), Nat.add_mul, ← hnp] at hrow
    rw [hm, Nat.succ_mul, Nat.succ_mul, Nat.add_mul, Nat.add_mul] at hblock
    omega

/-- **One call of `fill`** writes elements of the matrix where the target has them. -/
theorem Valid.fill_writes_part (hrange : j.NoOverflow) (hd1 : j.IsPart .matrix1 sp M d1)
    (d2 : Nat → α) :
    Writes (j.part .matrix2 (j.tp tg sp) M) (j.Placed tg sp) d2
      (j.fill d1 (j.np tg (j.tp tg sp) sp) (j.ppMatrix .matrix1 sp)
        (j.myNoRow .matrix2 (j.tp tg sp)) d2) := by
  have htarget : ∀ r < (j.ppMatrix .matrix1 sp).myNoRow, ∀ c < (j.ppMatrix .matrix1 sp).myNoCol,
      j.part .matrix2 (j.tp tg sp) M (j.embed (j.np tg (j.tp tg sp) sp / j.ratio) c *
        j.myNoRow .matrix2 (j.tp tg sp) + j.embed (j.np tg (j.tp tg sp) sp % j.ratio) r) =
        d1 (c * (j.ppMatrix .matrix1 sp).myNoRow + r) := by
    intro r hr c hc
    have hlt := h.embed_lt_iff htg hsp r c
    rw [part_mul_add M (hlt.1.mpr hr), h.globalRow_embed, h.globalCol_embed]
    exact ((hd1 _ (mul_add_lt_share hr hc)).trans (part_mul_add M hr)).symm
  have hcount : j.myNoCol .matrix1 sp * j.myNoRow .matrix1 sp < 2 ^ 31 := by
    have hshare := hrange.fits.share_lt .matrix1 sp
    rw [share_eq, Nat.mul_comm (j.myNoRow .matrix1 sp)] at hshare
    omega
  exact fill_writes h.sblocksize htarget hcount
    (fun c hc k hk => h.fillOffset_lt htg hsp hrange hc hk) d2

end Elements

/-- **The sources of a target have all its elements.** -/
theorem Valid.exists_source {n : Nat} (ht : t < j.noPe) (htg : j.gangId t = tg)
    (hn : n < j.share .matrix2 t) : ∃ sp < j.noPe, j.tp tg sp = t ∧ j.Placed tg sp n := by
  obtain ⟨r, hr, c, hc, rfl⟩ := exists_of_lt_share hn
  have hg := h.ratio_pos
  have hroff := owner_lt hg j.sblocksize r
  have hcoff := owner_lt hg j.sblocksize c
  set k := owner j.sblocksize j.ratio c * j.ratio + owner j.sblocksize j.ratio r with hk
  have hmod : k % j.ratio = owner j.sblocksize j.ratio r := mul_add_mod hroff
  have hdiv : k / j.ratio = owner j.sblocksize j.ratio c := mul_add_div hg hroff
  have htp := h.tp_source htg k
  have hcol : j.peCol .matrix1 (j.source t k) < j.side .matrix1 := by
    have hmul := Nat.mul_le_mul_right (j.side .matrix2) hcoff
    have hlt := h.peCol_lt ht .matrix2
    rw [Nat.succ_mul] at hmul
    rw [h.peCol_source, hdiv, h.side_eq]
    omega
  have hsp : j.source t k < j.noPe := by
    rw [peCol, Nat.div_lt_iff_lt_mul (h.side_pos .matrix1), h.side_sq] at hcol
    exact hcol
  have hrow' : j.embed (j.np tg t (j.source t k) % j.ratio) (localIndex j.sblocksize j.ratio r) =
      r := by
    have hnp := h.np_mod tg (j.source t k)
    rw [htp, h.peRow_source, mul_add_div (h.side_pos .matrix2) (h.peRow_lt .matrix2 t), hmod] at hnp
    rw [hnp]
    exact globalIndex_localIndex h.sblocksize _ _
  have hcol' : j.embed (j.np tg t (j.source t k) / j.ratio) (localIndex j.sblocksize j.ratio c) =
      c := by
    have hnp := h.np_div tg (j.source t k)
    rw [htp, h.peCol_source, mul_add_div (h.side_pos .matrix2) (h.peCol_lt ht .matrix2), hdiv]
      at hnp
    rw [hnp]
    exact globalIndex_localIndex h.sblocksize _ _
  have hlt := h.embed_lt_iff (htg ▸ h.gangId_lt ht) hsp (localIndex j.sblocksize j.ratio r)
    (localIndex j.sblocksize j.ratio c)
  rw [htp, hrow', hcol'] at hlt
  refine ⟨j.source t k, hsp, htp, _, hlt.1.mp hr, _, hlt.2.mp hc, ?_⟩
  rw [htp, hrow', hcol']

end Job

end CacheTrace.Madbench
