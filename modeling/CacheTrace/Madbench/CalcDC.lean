import CacheTrace.Madbench.Derivatives

/-!
# The derivatives of all pairs of bins

`calc_dC` goes through the blocks of `no_gang` columns of the second derivatives, and in every
block through the rows from the diagonal on. Gang `id` has the column `bc + id`, and its rows are
shifted by its number, so that the matrices can go round the ring; a matrix is got one pass ahead
of the one that is worked on. In the end the gangs put their columns together, and process 0
solves for the correction `dC` with `dposv`, which overwrites the derivatives.

The number of passes is a quotient of `int`s. With 65536 bins the product wraps to 0.
-/

namespace CacheTrace.Madbench

open Cyclic Buffer Message Finset Machine

variable {α : Type}

namespace Library

variable {j : Job} (R : Library j α)

/-- The value `x` of gang `owner`, when the gangs have been added up. -/
def collect (owner : Nat) (x : α) : α :=
  if 1 < j.noGang then
    R.mpiSum ((List.range j.noGang).map fun id => if owner = id then x else R.zero)
  else x

variable (dv zv : j.Vec α) (W : Nat → j.Square α)

/-- The first derivatives as process 0 has them before `dposv`. -/
def gradient : Fin j.noBin → α := fun r =>
  R.collect (r % j.noGang) (R.firstDerivative dv zv (W r))

/-- The second derivatives as process 0 has them before `dposv`. -/
def curvature : Matrix (Fin j.noBin) (Fin j.noBin) α :=
  .of fun r c => R.collect (c % j.noGang)
    (if c.val ≤ r.val then R.secondDerivative (W r) (W c) else R.zero)

end Library

namespace Job

variable (j : Job) (R : Library j α) (build : Build)

/-- `no_bin2` -/
def noBin2 : Int := Arith.c.int (j.noBin * j.noBin : Nat)

/-- `bmax` -/
def bmax : Int := j.noBin2.tdiv j.noGang

/-- The matrix that was got last is copied. -/
def takeW (b pe : Nat) : List (Act α) :=
  if 0 < b then [.compute fun s => s.set .wb
    (memcpy (s.buffer .wb) 0 (s.buffer .rbuffer) 0 (j.elm .matrix2 pe))] else []

def fetchW (b pe : Nat) : List (Act α) :=
  if b < j.bmax then j.getW (b % j.noBin) .rbuffer pe else []

def derive (b xbr xbc pe : Nat) : List (Act α) :=
  if 0 < b then
    if build.io then j.busyWork .matrix1 pe
    else j.dbydC R (fun id => j.noGang * (xbr / j.noGang) + (xbr + id) % j.noGang)
      (fun id => xbc + id) pe
  else []

/-- The loop of `calc_dC` with `n` passes to go. -/
def derivativeLoop (pe : Nat) : Nat → Nat → Nat → Nat → List (Act α)
  | 0, _, _, _ => []
  | n + 1, b, xbr, xbc =>
    let bc := j.noGang * (b / j.noBin)
    let br := b % j.noBin
    if b < j.bmax ∧ (if build.io then br ≠ bc else br < bc) then
      derivativeLoop pe n (b + 1) xbr xbc
    else
      j.takeW b pe ++ (j.fetchW b pe ++ (j.derive R build b xbr xbc pe ++
        derivativeLoop pe n (b + 1) (if 0 < b then br else xbr) (if 0 < b then bc else xbc)))

/-- The derivatives of the gangs are added up in process 0. -/
def gatherGangs (v : Var) (count : Int) (pe : Nat) : List (Act α) :=
  j.mpiReduce R (fun pe => 1 < j.noGang ∧ j.gangMyPe pe .matrix2 = 0)
    (fun pe => .g2pe (j.gangMyPe pe .matrix2)) (fun pe => j.gangId pe = 0) v .tmp count.toNat pe ++
  (if (1 < j.noGang ∧ j.gangMyPe pe .matrix2 = 0) ∧ j.gangId pe = 0 then
    [.compute fun s => s.set v (memcpy (s.buffer v) 0 (s.buffer .tmp) 0 count.toNat)] else [])

/-- The two arrays as `dposv` sees them, the matrix column by column. -/
def solution (s : Arrays α) :
    Matrix (Fin j.noBin) (Fin j.noBin) α × (Fin j.noBin → α) :=
  R.dposv (.of fun r c => s.buffer .d2LdC2 (r + c * j.noBin)) fun r => s.buffer .dLdC r

/-- `dposv` -/
def dposv (s : Arrays α) : Arrays α :=
  (s.set .d2LdC2 fun n =>
    if h : n % j.noBin < j.noBin ∧ n / j.noBin < j.noBin then
      (j.solution R s).1 ⟨n % j.noBin, h.1⟩ ⟨n / j.noBin, h.2⟩
    else s.buffer .d2LdC2 n).set .dLdC fun n =>
    if h : n < j.noBin then (j.solution R s).2 ⟨n, h⟩ else s.buffer .dLdC n

/-- Process 0 solves, and keeps the number that it prints. -/
def solveDC (pe : Nat) : List (Act α) :=
  if pe = 0 then
    [.compute fun s =>
      let s := if build.io then s else j.dposv R s
      s.set .x (Function.update (s.buffer .x) 0 (s.buffer .dLdC 0))]
  else []

def clearDC (_ : Nat) : List (Act α) :=
  [.compute fun s =>
    (s.set .dLdC fun n => if n < j.noBin then R.zero else s.buffer .dLdC n).set .d2LdC2
      fun n => if n < j.noBin2 then R.zero else s.buffer .d2LdC2 n]

/-- `calc_dC` -/
def calcDC (pe : Nat) : List (Act α) :=
  j.clearDC R pe ++ (j.derivativeLoop R build pe (j.bmax + 1).toNat 0 0 0 ++
  (j.gatherGangs R .dLdC j.noBin pe ++ (j.gatherGangs R .d2LdC2 j.noBin2 pe ++
  (j.solveDC R build pe ++ j.reportTime pe))))

/-! ## Pairs of bins -/

/-- The row of gang `id` in pass `b`. -/
def rowBin (b id : Nat) : Nat :=
  j.noGang * (b % j.noBin / j.noGang) + (b % j.noBin + id) % j.noGang

/-- The column of gang `id` in pass `b`. -/
def colBin (b id : Nat) : Nat := j.noGang * (b / j.noBin) + id

/-- The number of passes before the last one, when `bmax` is in the range of an `int`. -/
def pairs : Nat := j.noBin * j.noBin / j.noGang

/-- A pass that is skipped. -/
def Skips (b : Nat) : Prop := b < j.pairs ∧ b % j.noBin < j.noGang * (b / j.noBin)

instance (b : Nat) : Decidable (j.Skips b) := inferInstanceAs (Decidable (_ ∧ _))

variable {j} {R} {build}

theorem NoOverflow.noBin2_eq (h : j.NoOverflow) : j.noBin2 = (j.noBin * j.noBin : Nat) :=
  Arith.c_upTo.int _ h.bins

theorem NoOverflow.bmax_eq (h : j.NoOverflow) : j.bmax = j.pairs := by
  rw [bmax, h.noBin2_eq]
  exact Int.ofNat_tdiv _ _

theorem NoOverflow.lt_bmax (h : j.NoOverflow) (b : Nat) : (b : Int) < j.bmax ↔ b < j.pairs := by
  rw [h.bmax_eq, Int.ofNat_lt]

section Bins

variable (h : j.Valid) {b id : Nat}

include h

theorem Valid.pairs_eq : j.pairs = j.noBin * (j.noBin / j.noGang) :=
  Nat.mul_div_assoc _ h.gang_dvd_bin

theorem Valid.rowBin_lt (b id : Nat) : j.rowBin b id < j.noBin := by
  have hblock : b % j.noBin / j.noGang < j.noBin / j.noGang :=
    Nat.div_lt_div_of_lt_of_dvd h.gang_dvd_bin (Nat.mod_lt b h.noBin)
  calc j.rowBin b id
      = b % j.noBin / j.noGang * j.noGang + (b % j.noBin + id) % j.noGang := by
        rw [rowBin, Nat.mul_comm]
    _ < j.noBin / j.noGang * j.noGang := (mul_add_lt_mul_iff (Nat.mod_lt _ h.noGang)).mpr hblock
    _ = j.noBin := Nat.div_mul_cancel h.gang_dvd_bin

/-- In a pass that is skipped all elements are above the diagonal. -/
theorem Valid.rowBin_lt_colBin (hb : b % j.noBin < j.noGang * (b / j.noBin)) (id : Nat) :
    j.rowBin b id < j.colBin b id := by
  rw [Nat.mul_comm, ← Nat.div_lt_iff_lt_mul h.noGang] at hb
  have hlt : j.rowBin b id < j.noGang * (b / j.noBin) := by
    rw [rowBin, Nat.mul_comm, Nat.mul_comm _ (b / _), mul_add_lt_mul_iff (Nat.mod_lt _ h.noGang)]
    exact hb
  exact Nat.lt_of_lt_of_le hlt (Nat.le_add_right _ _)

theorem Valid.rowBin_eq_colBin (hid : id < j.noGang)
    (hb : b % j.noBin = j.noGang * (b / j.noBin)) : j.rowBin b id = j.colBin b id := by
  rw [rowBin, colBin, hb, Nat.mul_div_cancel_left _ h.noGang, Nat.mul_add_mod, Nat.mod_eq_of_lt hid]

theorem Valid.below_of_colBin_lt (hid : id < j.noGang) (hlt : j.colBin b id < j.rowBin b id) :
    j.noGang * (b / j.noBin) < b % j.noBin := by
  rcases Nat.lt_trichotomy (b % j.noBin) (j.noGang * (b / j.noBin)) with habove | hdiag | hbelow
  · exact absurd hlt (Nat.lt_asymm (h.rowBin_lt_colBin habove id))
  · exact absurd (h.rowBin_eq_colBin hid hdiag) (Nat.ne_of_gt hlt)
  · exact hbelow

omit h in
theorem add_mul_inj {B r r' c c' : Nat} (hr : r < B) (hr' : r' < B)
    (heq : r + c * B = r' + c' * B) : r = r' ∧ c = c' := by
  rw [Nat.add_comm, Nat.add_comm r'] at heq
  have hmod := congrArg (· % B) heq
  have hdiv := congrArg (· / B) heq
  simp only [mul_add_mod hr, mul_add_mod hr', mul_add_div (Nat.zero_lt_of_lt hr) hr,
    mul_add_div (Nat.zero_lt_of_lt hr) hr'] at hmod hdiv
  exact ⟨hmod, hdiv⟩

/-- The pass before one that is not the first of its columns. -/
theorem Valid.pred_bins (hb : b % j.noBin ≠ 0) :
    0 < b ∧ (b - 1) % j.noBin = b % j.noBin - 1 ∧ (b - 1) / j.noBin = b / j.noBin := by
  have hrow := Nat.mod_lt b h.noBin
  have hdiv := Nat.div_add_mod b j.noBin
  have hpred : b - 1 = b / j.noBin * j.noBin + (b % j.noBin - 1) := by
    rw [Nat.mul_comm]
    omega
  refine ⟨by omega, ?_, ?_⟩
  · rw [hpred, mul_add_mod (by omega)]
  · rw [hpred, mul_add_div h.noBin (by omega)]

omit h in
/-- The rows of a pass where the gangs read. -/
theorem rowBin_read (hid : id < j.noGang) (hb : b % j.noBin % j.noGang = 0) :
    j.rowBin b id = b % j.noBin / j.noGang * j.noGang + id := by
  rw [rowBin, Nat.add_mod, hb, Nat.zero_add, Nat.mod_mod, Nat.mod_eq_of_lt hid, Nat.mul_comm]

/-- The matrix of the next gang is the one that comes next. -/
theorem Valid.rowBin_pred (id : Nat) (hb : b % j.noBin % j.noGang ≠ 0) :
    j.rowBin (b - 1) id = j.rowBin b ((id + j.noGang - 1) % j.noGang) := by
  have hgang := h.noGang
  have hrow := Nat.mod_lt (b % j.noBin) hgang
  have hdiv := Nat.div_add_mod (b % j.noBin) j.noGang
  have hpos : b % j.noBin ≠ 0 := fun heq => hb (by rw [heq, Nat.zero_mod])
  obtain ⟨-, hmod, -⟩ := h.pred_bins hpos
  have hpred : b % j.noBin - 1 =
      b % j.noBin / j.noGang * j.noGang + (b % j.noBin % j.noGang - 1) := by
    rw [Nat.mul_comm]
    omega
  have hblock : (b % j.noBin - 1) / j.noGang = b % j.noBin / j.noGang := by
    rw [hpred, mul_add_div hgang (by omega)]
  have hshift : b % j.noBin + (id + j.noGang - 1) = b % j.noBin - 1 + id + j.noGang := by omega
  rw [rowBin, rowBin, hmod, hblock, Nat.add_mod_mod, hshift, Nat.add_mod_right]

/-- **Every pair is met** by the gang that has the column. -/
theorem Valid.exists_pass_iff {r c : Nat} (hr : r < j.noBin) (hc : c < j.noBin)
    (hid : id < j.noGang) :
    (∃ b < j.pairs, j.rowBin b id = r ∧ j.colBin b id = c) ↔ c % j.noGang = id := by
  constructor
  · rintro ⟨b, -, -, rfl⟩
    rw [colBin, Nat.mul_add_mod, Nat.mod_eq_of_lt hid]
  · rintro rfl
    have hgang := h.noGang
    have hcol := Nat.mod_lt c hgang
    let x := (r % j.noGang + j.noGang - c % j.noGang) % j.noGang
    have hx : x < j.noGang := Nat.mod_lt _ hgang
    have hrow : r / j.noGang * j.noGang + x < j.noBin := by
      rw [← Nat.div_mul_cancel h.gang_dvd_bin, mul_add_lt_mul_iff hx, Nat.div_lt_iff_lt_mul hgang,
        Nat.div_mul_cancel h.gang_dvd_bin]
      exact hr
    have hdiv : (c / j.noGang * j.noBin + (r / j.noGang * j.noGang + x)) / j.noBin = c / j.noGang :=
      mul_add_div h.noBin hrow
    have hmod : (c / j.noGang * j.noBin + (r / j.noGang * j.noGang + x)) % j.noBin =
        r / j.noGang * j.noGang + x := mul_add_mod hrow
    refine ⟨c / j.noGang * j.noBin + (r / j.noGang * j.noGang + x), ?_, ?_, ?_⟩
    · rw [h.pairs_eq, Nat.mul_comm j.noBin, mul_add_lt_mul_iff hrow, Nat.div_lt_iff_lt_mul hgang,
        Nat.div_mul_cancel h.gang_dvd_bin]
      exact hc
    · have hshift : (x + c % j.noGang) % j.noGang = r % j.noGang := by
        rw [Nat.mod_add_mod, Nat.sub_add_cancel (by omega), Nat.add_mod_right, Nat.mod_mod]
      rw [rowBin, hmod, mul_add_div hgang hx, Nat.add_assoc, Nat.mul_comm (r / _),
        Nat.mul_add_mod, hshift, Nat.div_add_mod]
    · rw [colBin, hdiv, Nat.div_add_mod]

end Bins

/-! ## The passes -/

/-- The arrays that the passes change. -/
def passVars : List Var := .wb :: .rbuffer :: .mpiBuffer :: derivativeVars

/-- Process `pe` before pass `b`, when `x` is the last pass that was not skipped: its matrix is
there, and the derivatives of the passes before it are done. -/
structure Pending (R : Library j α) (W : Nat → j.Square α) (dv zv : j.Vec α) (b x pe : Nat)
    (s₀ s : Memory α) : Prop where
  retains : j.Retains pe passVars s₀ s
  rbuffer : 0 < b → x < j.pairs →
    j.IsPart .matrix2 pe (R.entries (W (j.rowBin x (j.gangId pe)))) (s.buffer .rbuffer)
  wTb : 0 < b → j.noGang * (x / j.noBin) < x % j.noBin →
    j.IsPart .matrix2 pe (R.entries (R.pdtran (W (j.colBin x (j.gangId pe))))) (s.buffer .wTb)
  dLdC : j.gangMyPe pe .matrix2 = 0 → ∀ r < j.noBin, s.buffer .dLdC r =
    if ∃ b' < x, j.rowBin b' (j.gangId pe) = r ∧ j.colBin b' (j.gangId pe) = r then
      R.firstDerivative dv zv (W r)
    else R.zero
  d2LdC2 : j.gangMyPe pe .matrix2 = 0 → ∀ r < j.noBin, ∀ c < j.noBin,
    s.buffer .d2LdC2 (r + c * j.noBin) =
    if c ≤ r ∧ ∃ b' < x, j.rowBin b' (j.gangId pe) = r ∧ j.colBin b' (j.gangId pe) = c then
      R.secondDerivative (W r) (W c)
    else R.zero

/-- Pass `x` is the last one before `b` that is not skipped. -/
structure Last (j : Job) (b x : Nat) : Prop where
  zero : b = 0 → x = 0
  lt : 0 < b → x < b
  skips : ∀ b', x < b' → b' < b → j.Skips b'

theorem Last.skip {b x : Nat} (hlast : j.Last b x) (hskip : j.Skips b) : j.Last (b + 1) x := by
  refine ⟨fun hzero => absurd hzero (Nat.succ_ne_zero b), fun _ => ?_, fun b' hx hb => ?_⟩
  · rcases Nat.eq_zero_or_pos b with hzero | hpos
    · have hx := hlast.zero hzero
      omega
    · exact Nat.lt_succ_of_lt (hlast.lt hpos)
  · rcases Nat.lt_succ_iff_lt_or_eq.mp hb with hlt | rfl
    · exact hlast.skips b' hx hlt
    · exact hskip

/-- Of a pass below the diagonal, the pass before is not skipped. -/
theorem Last.eq_pred (h : j.Valid) {b x : Nat} (hlast : j.Last b x)
    (hb : j.noGang * (b / j.noBin) < b % j.noBin) : x = b - 1 := by
  obtain ⟨hpos, hmod, hdiv⟩ := h.pred_bins (Nat.ne_of_gt (Nat.zero_lt_of_lt hb))
  have hx := hlast.lt hpos
  rcases Nat.lt_or_ge x (b - 1) with hlt | hge
  · have hskip := (hlast.skips (b - 1) hlt (by omega)).2
    rw [hmod, hdiv] at hskip
    omega
  · omega

/-- A pass adds the pair of the last one. -/
theorem Last.exists_iff (h : j.Valid) {b x id r c : Nat} (hlast : j.Last b x) (hpos : 0 < b)
    (hle : c ≤ r) : (∃ b' < b, j.rowBin b' id = r ∧ j.colBin b' id = c) ↔
      (∃ b' < x, j.rowBin b' id = r ∧ j.colBin b' id = c) ∨
        j.rowBin x id = r ∧ j.colBin x id = c := by
  have hx := hlast.lt hpos
  constructor
  · rintro ⟨b', hb', hrow, hcol⟩
    rcases Nat.lt_trichotomy b' x with hlt | rfl | hgt
    · exact .inl ⟨b', hlt, hrow, hcol⟩
    · exact .inr ⟨hrow, hcol⟩
    · have habove := h.rowBin_lt_colBin (hlast.skips b' hgt hb').2 id
      omega
  · rintro (⟨b', hb', hpair⟩ | hpair)
    · exact ⟨b', by omega, hpair⟩
    · exact ⟨x, hx, hpair⟩

variable {W : Nat → j.Square α} {dv zv : j.Vec α} {b x pe : Nat} {s₀ s s₁ s₂ s₃ : Memory α}

/-- The derivatives of pass `x` at every gang. -/
abbrev DerivedAt (R : Library j α) (W : Nat → j.Square α) (dv zv : j.Vec α) (x pe : Nat)
    (s s' : Memory α) : Prop :=
  Derived R (fun id => W (j.rowBin x id)) (fun id => W (j.colBin x id)) dv zv
    (j.rowBin x) (j.colBin x) pe s s'

section Step

variable (h : j.Valid) (hlast : j.Last b x) (hpos : 0 < b)

include h hlast hpos

/-- The transposed matrix of the column, one pass later. -/
theorem DerivedAt.wTb_next (hpe : pe < j.noPe) (hs : Pending R W dv zv b x pe s₀ s)
    (hsame : s₂.buffer .wTb = s.buffer .wTb) (hderived : DerivedAt R W dv zv x pe s₂ s₃)
    (hb : j.noGang * (b / j.noBin) < b % j.noBin) :
    j.IsPart .matrix2 pe (R.entries (R.pdtran (W (j.colBin b (j.gangId pe)))))
      (s₃.buffer .wTb) := by
  obtain rfl := hlast.eq_pred h hb
  obtain ⟨-, hmod, hdiv⟩ := h.pred_bins (Nat.ne_of_gt (Nat.zero_lt_of_lt hb))
  have hcol : j.colBin (b - 1) (j.gangId pe) = j.colBin b (j.gangId pe) := by
    rw [colBin, colBin, hdiv]
  have hturned := hderived.wTb
  rw [Transposed, hcol] at hturned
  split_ifs at hturned with hdiag
  · exact hturned
  · rw [hturned, hsame, ← hcol]
    refine hs.wTb hpos (Nat.lt_of_le_of_ne ?_ fun heq => hdiag ?_)
    · rw [hdiv, hmod]
      omega
    · rw [← hcol]
      exact h.rowBin_eq_colBin (h.gangId_lt hpe) heq.symm

/-- The first derivatives, one pass later. -/
theorem DerivedAt.dLdC_next (hs : Pending R W dv zv b x pe s₀ s)
    (hsame : s₂.buffer .dLdC = s.buffer .dLdC) (hderived : DerivedAt R W dv zv x pe s₂ s₃)
    (hzero : j.gangMyPe pe .matrix2 = 0) {r : Nat} (hr : r < j.noBin) : s₃.buffer .dLdC r =
      if ∃ b' < b, j.rowBin b' (j.gangId pe) = r ∧ j.colBin b' (j.gangId pe) = r then
        R.firstDerivative dv zv (W r)
      else R.zero := by
  rw [hderived.dLdC hzero, hsame, if_congr (hlast.exists_iff h hpos le_rfl) rfl rfl]
  have hbefore := hs.dLdC hzero r hr
  by_cases hpair : j.rowBin x (j.gangId pe) = r ∧ j.colBin x (j.gangId pe) = r
  · rw [if_pos (hpair.1.trans hpair.2.symm), if_pos (.inr hpair), hpair.1, Function.update_self]
  · simp only [hpair, or_false]
    rw [← hbefore]
    split_ifs with hdiag
    · exact Function.update_of_ne (fun heq => hpair ⟨heq.symm, hdiag.symm.trans heq.symm⟩) _ _
    · rfl

/-- The second derivatives, one pass later. -/
theorem DerivedAt.d2LdC2_next (hs : Pending R W dv zv b x pe s₀ s)
    (hsame : s₂.buffer .d2LdC2 = s.buffer .d2LdC2) (hderived : DerivedAt R W dv zv x pe s₂ s₃)
    (hzero : j.gangMyPe pe .matrix2 = 0) {r c : Nat} (hr : r < j.noBin) (hc : c < j.noBin) :
    s₃.buffer .d2LdC2 (r + c * j.noBin) =
      if c ≤ r ∧ ∃ b' < b, j.rowBin b' (j.gangId pe) = r ∧ j.colBin b' (j.gangId pe) = c then
        R.secondDerivative (W r) (W c)
      else R.zero := by
  rw [hderived.d2LdC2 hzero, hsame,
    if_congr (and_congr_right fun hle => hlast.exists_iff h hpos hle) rfl rfl]
  have hbefore := hs.d2LdC2 hzero r hr c hc
  by_cases hpair : j.rowBin x (j.gangId pe) = r ∧ j.colBin x (j.gangId pe) = c
  · simp only [hpair, and_self, or_true, and_true]
    split_ifs with hle
    · rw [Function.update_self]
    · rw [hbefore, if_neg fun hle' => hle hle'.1]
  · simp only [hpair, or_false]
    rw [← hbefore]
    split_ifs with hle
    · exact Function.update_of_ne
        (fun heq => hpair (add_mul_inj (h.rowBin_lt x _) hr heq.symm)) _ _
    · rfl

/-- One pass at one process. -/
theorem Pending.step (hpe : pe < j.noPe) (hs : Pending R W dv zv b x pe s₀ s)
    (hcopy : Memory.Keeps [.wb] s s₁) (hget : j.Retains pe [.rbuffer, .mpiBuffer] s₁ s₂)
    (hrbuffer : b < j.pairs →
      j.IsPart .matrix2 pe (R.entries (W (j.rowBin b (j.gangId pe)))) (s₂.buffer .rbuffer))
    (hderived : DerivedAt R W dv zv x pe s₂ s₃) : Pending R W dv zv (b + 1) b pe s₀ s₃ := by
  have hsame : ∀ v, v ∉ [Var.wb, .rbuffer, .mpiBuffer] → s₂.buffer v = s.buffer v := by
    intro v hv
    simp only [List.mem_cons, List.not_mem_nil, or_false, not_or] at hv
    rw [hget.buffer v (by simp [hv]), hcopy.buffer v (by simp [hv])]
  refine ⟨hs.retains.trans (((Retains.of_keeps hcopy).mono ?_).trans ((hget.mono ?_).trans
    ((Retains.of_keeps hderived.keeps).mono ?_))), fun _ hb => ?_,
    fun _ => hderived.wTb_next h hlast hpos hpe hs (hsame .wTb (by decide)),
    fun hzero r hr => hderived.dLdC_next h hlast hpos hs (hsame .dLdC (by decide)) hzero hr,
    fun hzero r hr c hc =>
      hderived.d2LdC2_next h hlast hpos hs (hsame .d2LdC2 (by decide)) hzero hr hc⟩
  · simp [passVars]
  · simp [passVars]
  · exact List.subset_append_right [Var.wb, .rbuffer, .mpiBuffer] _
  · rw [hderived.keeps.buffer .rbuffer (by decide)]
    exact hrbuffer hb

end Step

theorem Pending.skip (hs : Pending R W dv zv b x pe s₀ s) (hpos : 0 < b) :
    Pending R W dv zv (b + 1) x pe s₀ s :=
  ⟨hs.retains, fun _ => hs.rbuffer hpos, fun _ => hs.wTb hpos, hs.dLdC, hs.d2LdC2⟩

section Passes

variable (h : j.Valid) (hrange : j.NoOverflow) (hdvd : j.ioMod .r ∣ j.gangPe .matrix2)
  (hwhole : j.Whole) {L₀ : Nat → Memory α} (hrecords : ∀ pe < j.noPe, j.HasRecords pe (L₀ pe))
  (hfile : ∀ pe < j.noPe, ∀ c < j.noBin / j.noGang,
    j.Stored .matrix2 pe c (R.entries (W (c * j.noGang + j.gangId pe))) (L₀ pe).file)
  (hd : ∀ pe < j.noPe, j.IsVector .matrix2 pe (R.coords dv) ((L₀ pe).buffer .d))
  (hz : ∀ pe < j.noPe, j.IsVector .matrix2 pe (R.coords zv) ((L₀ pe).buffer .z))

include h hrange hdvd hwhole hrecords hfile

/-- The matrix of pass `b`. -/
theorem fetchW_does (hlast : j.Last b x) (hskip : ¬ j.Skips b) {L : Nat → Memory α}
    (hL : ∀ pe < j.noPe, j.Retains pe passVars (L₀ pe) (L pe))
    (hrbuffer : 0 < b → ∀ pe < j.noPe,
      j.IsPart .matrix2 pe (R.entries (W (j.rowBin x (j.gangId pe)))) ((L pe).buffer .rbuffer)) :
    j.Does (fun L' => L' = L) (j.fetchW b)
      (fun L' => ∀ pe < j.noPe, j.Retains pe [.rbuffer, .mpiBuffer] (L pe) (L' pe) ∧
        (b < j.pairs → j.IsPart .matrix2 pe (R.entries (W (j.rowBin b (j.gangId pe))))
          ((L' pe).buffer .rbuffer))) := by
  by_cases hb : b < j.pairs
  · have hread : b % j.noBin % j.noGang = 0 → ∀ pe < j.noPe,
        j.Stored .matrix2 pe (b % j.noBin / j.noGang) (R.entries (W (j.rowBin b (j.gangId pe))))
          (L pe).file := by
      intro hmod pe hpe
      rw [(hL pe hpe).file, rowBin_read (h.gangId_lt hpe) hmod]
      exact hfile pe hpe _ (Nat.div_lt_div_of_lt_of_dvd h.gang_dvd_bin (Nat.mod_lt b h.noBin))
    have hring : b % j.noBin % j.noGang ≠ 0 → ∀ pe < j.noPe, j.IsPart .matrix2 pe
        (R.entries (W (j.rowBin b (j.toGang pe)))) ((L pe).buffer .rbuffer) := by
      intro hmod pe hpe
      have hbelow : j.noGang * (b / j.noBin) < b % j.noBin := by
        refine Nat.lt_of_le_of_ne (Nat.le_of_not_lt fun hlt => hskip ⟨hb, hlt⟩) fun heq => hmod ?_
        rw [← heq, Nat.mul_mod_right]
      obtain ⟨hpos, -, -⟩ := h.pred_bins (Nat.ne_of_gt (Nat.zero_lt_of_lt hbelow))
      rw [toGang, ← h.rowBin_pred (j.gangId pe) hmod, ← hlast.eq_pred h hbelow]
      exact hrbuffer hpos pe hpe
    refine ((getW_does h hrange hdvd hwhole (by decide)
      (V := fun id => R.entries (W (j.rowBin b id)))
      (fun pe hpe => (hL pe hpe).records (hrecords pe hpe)) hread hring).conseq
      (fun L' hL' => hL') fun L' hL' pe hpe => ⟨(hL' pe hpe).1, fun _ => (hL' pe hpe).2⟩).of_eq
      fun pe _ => if_pos ((hrange.lt_bmax b).mpr hb)
  · refine (Does.skip.conseq (fun L' hL' => hL') ?_).of_eq fun pe _ =>
      if_neg fun hlt => hb ((hrange.lt_bmax b).mp hlt)
    rintro L' rfl pe hpe
    exact ⟨.refl _ _, fun hb' => absurd hb' hb⟩

/-- The matrix of pass `x` is copied, and that of pass `b` is got. -/
theorem takeW_fetchW_does (hlast : j.Last b x) (hpos : 0 < b) (hx : x < j.pairs)
    (hskip : ¬ j.Skips b) {L : Nat → Memory α}
    (hL : ∀ pe < j.noPe, Pending R W dv zv b x pe (L₀ pe) (L pe)) :
    j.Does (fun L' => L' = L) (fun pe => j.takeW b pe ++ j.fetchW b pe)
      (fun L' => ∀ pe < j.noPe, ∃ s₁, Memory.Keeps [.wb] (L pe) s₁ ∧
        j.IsPart .matrix2 pe (R.entries (W (j.rowBin x (j.gangId pe)))) (s₁.buffer .wb) ∧
        j.Retains pe [.rbuffer, .mpiBuffer] s₁ (L' pe) ∧
        (b < j.pairs → j.IsPart .matrix2 pe (R.entries (W (j.rowBin b (j.gangId pe))))
          ((L' pe).buffer .rbuffer))) := by
  refine Does.seq (J := fun L₁ => ∀ pe < j.noPe, Memory.Keeps [.wb] (L pe) (L₁ pe) ∧
      j.IsPart .matrix2 pe (R.entries (W (j.rowBin x (j.gangId pe)))) ((L₁ pe).buffer .wb))
    (Does.of_eq (Does.compute (f := fun pe s => s.set .wb
      (memcpy (s.buffer .wb) 0 (s.buffer .rbuffer) 0 (j.elm .matrix2 pe))) ?_)
      fun pe _ => if_pos hpos) (Does.of_start fun L₁ hL₁ => ?_)
  · rintro _ rfl pe hpe
    simp only [if_pos hpe]
    refine ⟨Memory.keeps_set _ _ _, ?_⟩
    rw [Memory.put_toArrays, Arrays.set_buffer_self, hrange.elm_eq]
    exact ((hL pe hpe).rbuffer hpos hx).copied _
  · refine (fetchW_does h hrange hdvd hwhole hrecords hfile hlast hskip
      (fun pe hpe => (hL pe hpe).retains.trans ((Retains.of_keeps (hL₁ pe hpe).1).mono
        (by simp [passVars]))) fun _ pe hpe => ?_).conseq (fun L' hL' => hL')
      fun L₂ hL₂ pe hpe => ⟨L₁ pe, (hL₁ pe hpe).1, (hL₁ pe hpe).2, hL₂ pe hpe⟩
    rw [(hL₁ pe hpe).1.buffer .rbuffer (by decide)]
    exact (hL pe hpe).rbuffer hpos hx

include hd hz

/-- A pass after the first one. -/
theorem pass_does (hio : build.io = false) (hlast : j.Last b x) (hpos : 0 < b) (hb : b ≤ j.pairs)
    (hskip : ¬ j.Skips b) :
    j.Does (fun L => ∀ pe < j.noPe, Pending R W dv zv b x pe (L₀ pe) (L pe))
      (fun pe => (j.takeW b pe ++ j.fetchW b pe) ++
        j.derive R build b (x % j.noBin) (j.noGang * (x / j.noBin)) pe)
      (fun L => ∀ pe < j.noPe, Pending R W dv zv (b + 1) b pe (L₀ pe) (L pe)) := by
  have hx : x < j.pairs := Nat.lt_of_lt_of_le (hlast.lt hpos) hb
  refine Does.of_start fun L hL => Does.seq (takeW_fetchW_does h hrange hdvd hwhole hrecords hfile
    hlast hpos hx hskip hL) (Does.of_start fun L₂ hL₂ => ?_)
  have hgiven : ∀ pe < j.noPe, Given R (fun id => W (j.rowBin x id)) (fun id => W (j.colBin x id))
      dv zv (j.rowBin x) (j.colBin x) pe (L₂ pe) := by
    intro pe hpe
    obtain ⟨s₁, hcopy, hwb, hget, -⟩ := hL₂ pe hpe
    have hretains := ((hL pe hpe).retains.trans ((Retains.of_keeps hcopy).mono
      (by simp [passVars]))).trans (hget.mono (by simp [passVars]))
    constructor
    · rw [hget.buffer .wb (by decide)]
      exact hwb
    · rw [hretains.buffer .d (by decide)]
      exact hd pe hpe
    · rw [hretains.buffer .z (by decide)]
      exact hz pe hpe
    · intro hlt
      rw [hget.buffer .wTb (by decide), hcopy.buffer .wTb (by decide)]
      exact (hL pe hpe).wTb hpos (h.below_of_colBin_lt (h.gangId_lt hpe) hlt)
  refine ((dbydC_does h hgiven (fun id heq => by rw [heq]) hrange).conseq (fun L' hL' => hL')
    fun L₃ hL₃ pe hpe => ?_).of_eq fun pe _ => ?_
  · obtain ⟨s₁, hcopy, -, hget, hrbuffer⟩ := hL₂ pe hpe
    exact (hL pe hpe).step h hlast hpos hpe hcopy hget hrbuffer (hL₃ pe hpe)
  · rw [derive, if_pos hpos, if_neg (ne_true_of_eq_false hio)]
    rfl

omit hd hz in
/-- The first pass only gets a matrix. -/
theorem first_does : j.Does (fun L => ∀ pe < j.noPe, Pending R W dv zv 0 0 pe (L₀ pe) (L pe))
    (j.fetchW 0) (fun L => ∀ pe < j.noPe, Pending R W dv zv 1 0 pe (L₀ pe) (L pe)) := by
  have hlast : j.Last 0 0 := ⟨fun _ => rfl, fun hlt => absurd hlt (Nat.lt_irrefl 0),
    fun b' _ hlt => absurd hlt (Nat.not_lt_zero b')⟩
  have hskip : ¬ j.Skips 0 := by simp [Skips]
  refine Does.of_start fun L hL => (fetchW_does h hrange hdvd hwhole hrecords hfile hlast hskip
    (fun pe hpe => (hL pe hpe).retains) fun hlt => absurd hlt (Nat.lt_irrefl 0)).conseq
    (fun L' hL' => hL') fun L' hL' pe hpe => ?_
  obtain ⟨hretains, hrbuffer⟩ := hL' pe hpe
  have hpending := hL pe hpe
  refine ⟨hpending.retains.trans (hretains.mono (by simp [passVars])), fun _ => hrbuffer,
    fun _ hlt => ?_, fun hzero => ?_, fun hzero => ?_⟩
  · simp at hlt
  · rw [hretains.buffer .dLdC (by decide)]
    exact hpending.dLdC hzero
  · rw [hretains.buffer .d2LdC2 (by decide)]
    exact hpending.d2LdC2 hzero

omit h hrange hdvd hwhole hrecords hfile hd hz in
theorem takeW_zero (pe : Nat) : j.takeW 0 pe = ([] : List (Act α)) := rfl

omit h hrange hdvd hwhole hrecords hfile hd hz in
theorem derive_zero (xbr xbc pe : Nat) : j.derive R build 0 xbr xbc pe = [] := rfl

omit h hrange hdvd hwhole hrecords hfile hd hz in
/-- The loop in a pass that is skipped, and in one that is not. -/
theorem derivativeLoop_succ (hrange : j.NoOverflow) (hio : build.io = false)
    (pe n b xbr xbc : Nat) : j.derivativeLoop R build pe (n + 1) b xbr xbc =
      if j.Skips b then j.derivativeLoop R build pe n (b + 1) xbr xbc
      else j.takeW b pe ++ (j.fetchW b pe ++ (j.derive R build b xbr xbc pe ++
        j.derivativeLoop R build pe n (b + 1) (if 0 < b then b % j.noBin else xbr)
          (if 0 < b then j.noGang * (b / j.noBin) else xbc))) := by
  have hcond : ((b : Int) < j.bmax ∧
      (if build.io then b % j.noBin ≠ j.noGang * (b / j.noBin)
        else b % j.noBin < j.noGang * (b / j.noBin))) ↔ j.Skips b := by
    rw [if_neg (ne_true_of_eq_false hio), hrange.lt_bmax]
    exact Iff.rfl
  rw [derivativeLoop]
  exact if_congr hcond rfl rfl

/-- **All passes.** -/
theorem derivativeLoop_does (hio : build.io = false) (n : Nat) :
    ∀ b x, b + n = j.pairs + 1 → j.Last b x →
    j.Does (fun L => ∀ pe < j.noPe, Pending R W dv zv b x pe (L₀ pe) (L pe))
      (fun pe => j.derivativeLoop R build pe n b (x % j.noBin) (j.noGang * (x / j.noBin)))
      (fun L => ∀ pe < j.noPe, Pending R W dv zv (j.pairs + 1) j.pairs pe (L₀ pe) (L pe)) := by
  induction n with
  | zero =>
    intro b x hb hlast
    obtain rfl : b = j.pairs + 1 := hb
    have hx : x = j.pairs := by
      refine Nat.le_antisymm (Nat.le_of_lt_succ (hlast.lt (Nat.succ_pos _))) ?_
      refine Nat.le_of_not_lt fun hlt => ?_
      exact Nat.lt_irrefl _ (hlast.skips j.pairs hlt (Nat.lt_succ_self _)).1
    rw [hx]
    exact Does.skip
  | succ n ih =>
    intro b x hb hlast
    by_cases hskip : j.Skips b
    · have hpos : 0 < b := by
        refine Nat.pos_of_ne_zero ?_
        rintro rfl
        simp [Skips] at hskip
      refine ((ih (b + 1) x (by omega) (hlast.skip hskip)).conseq
        (fun L hL pe hpe => (hL pe hpe).skip hpos) fun L hL => hL).of_eq fun pe _ => ?_
      rw [derivativeLoop_succ hrange hio, if_pos hskip]
    · have hnext : j.Last (b + 1) b := ⟨fun hzero => absurd hzero (Nat.succ_ne_zero b),
        fun _ => Nat.lt_succ_self b, fun b' hlt hlt' => by omega⟩
      have hrest := ih (b + 1) b (by omega) hnext
      rcases Nat.eq_zero_or_pos b with rfl | hpos
      · obtain rfl := hlast.zero rfl
        refine ((first_does h hrange hdvd hwhole hrecords hfile).seq hrest).of_eq fun pe _ => ?_
        rw [derivativeLoop_succ hrange hio, if_neg hskip, takeW_zero, derive_zero, List.nil_append,
          List.nil_append, if_neg (Nat.lt_irrefl 0), if_neg (Nat.lt_irrefl 0)]
      · refine ((pass_does h hrange hdvd hwhole hrecords hfile hd hz hio hlast hpos (by omega)
          hskip).seq hrest).of_eq fun pe _ => ?_
        rw [derivativeLoop_succ hrange hio, if_neg hskip, if_pos hpos, if_pos hpos]
        simp only [List.append_assoc]

end Passes

/-! ## The columns of all gangs -/

section Gather

variable (h : j.Valid)

include h

theorem Valid.members_g2pe : j.members (.g2pe 0) =
    (List.range j.noGang).map (· * j.gangPe .matrix2) := by
  refine (List.pairwise_lt_range.filter _).eq_of_mem_iff
    (List.pairwise_lt_range.map _ fun _ _ hlt =>
      Nat.mul_lt_mul_of_pos_right hlt (h.gangPe_pos .matrix2)) fun x => ?_
  simp only [List.mem_filter, List.mem_range, decide_eq_true_eq, List.mem_map]
  constructor
  · rintro ⟨hx, hzero⟩
    exact ⟨j.gangId x, h.gangId_lt hx, Nat.div_mul_cancel (Nat.dvd_of_mod_eq_zero hzero)⟩
  · rintro ⟨id, hid, rfl⟩
    refine ⟨?_, Nat.mul_mod_left _ _⟩
    rw [h.noPe_eq]
    exact Nat.mul_lt_mul_of_pos_right hid (h.gangPe_pos .matrix2)

/-- The first process of a gang. -/
theorem Valid.first_of_gang {id : Nat} (hid : id < j.noGang) :
    id * j.gangPe .matrix2 < j.noPe ∧ j.gangMyPe (id * j.gangPe .matrix2) .matrix2 = 0 ∧
      j.gangId (id * j.gangPe .matrix2) = id := by
  refine ⟨?_, Nat.mul_mod_left _ _, Nat.mul_div_cancel _ (h.gangPe_pos .matrix2)⟩
  rw [h.noPe_eq]
  exact Nat.mul_lt_mul_of_pos_right hid (h.gangPe_pos .matrix2)

/-- The sum that process 0 gets of what the first processes of the gangs have. -/
def gangSum (j : Job) (R : Library j α) (L : Nat → Memory α) (v : Var) (n : Nat) : α :=
  if 1 < j.noGang then
    R.mpiSum ((List.range j.noGang).map fun id => (L (id * j.gangPe .matrix2)).buffer v n)
  else (L 0).buffer v n

theorem gatherGangs_does {v : Var} (hv : v ≠ .tmp) (count : Nat) (L₀ : Nat → Memory α) :
    j.Does (fun L => L = L₀) (j.gatherGangs R v count) (fun L =>
      (∀ pe < j.noPe, Memory.Keeps [v, .tmp] (L₀ pe) (L pe)) ∧
        ∀ n < count, (L 0).buffer v n = j.gangSum R L₀ v n) := by
  have hzero : j.gangMyPe 0 .matrix2 = 0 ∧ j.gangId 0 = 0 := ⟨Nat.zero_mod _, Nat.zero_div _⟩
  refine Does.seq (J := fun L => ∀ pe < j.noPe, Memory.Keeps [.tmp] (L₀ pe) (L pe) ∧
      (1 < j.noGang → pe = 0 → ∀ n < count, (L pe).buffer .tmp n = j.gangSum R L₀ v n))
    (Does.mpiReduce (fun pe _ hp x => ?_) ?_)
    ((Does.computeIf (J := fun L => ∀ pe < j.noPe, Memory.Keeps [v, .tmp] (L₀ pe) (L pe) ∧
      (pe = 0 → ∀ n < count, (L pe).buffer v n = j.gangSum R L₀ v n)) ?_).conseq
      (fun L hL => hL) fun L hL => ⟨fun pe hpe => (hL pe hpe).1, (hL 0 h.noPe).2 rfl⟩)
  · simp only [members, List.mem_filter, List.mem_range, decide_eq_true_eq, Comm.g2pe.injEq]
    constructor
    · rintro ⟨hx, heq⟩
      exact ⟨⟨hx, hp.1, heq.trans hp.2⟩, heq⟩
    · rintro ⟨⟨hx, -⟩, heq⟩
      exact ⟨hx, heq⟩
  · rintro L rfl pe hpe
    simp only [hpe, true_and, Int.toNat_natCast]
    split_ifs with hroot
    · refine ⟨Memory.keeps_set _ _ _, fun hmany _ n hn => ?_⟩
      rw [Memory.put_toArrays, Arrays.set_buffer_self, if_pos hn, hroot.1.2, h.members_g2pe,
        List.map_map, gangSum, if_pos hmany]
      rfl
    · refine ⟨.refl _ _, fun hmany hpe => absurd ⟨⟨hmany, ?_⟩, ?_⟩ hroot⟩
      · rw [hpe, hzero.1]
      · rw [hpe, hzero.2]
  · intro L hL pe hpe
    obtain ⟨hkeeps, hsum⟩ := hL pe hpe
    simp only [hpe, true_and, Int.toNat_natCast]
    split_ifs with hroot
    · refine ⟨hkeeps.set _ _, fun hpe n hn => ?_⟩
      rw [Memory.put_toArrays, Arrays.set_buffer_self, ← hsum hroot.1.1 hpe n hn]
      simp [memcpy, hn]
    · refine ⟨hkeeps.cons _, ?_⟩
      rintro rfl n hn
      have hone : ¬ 1 < j.noGang := fun hmany => hroot ⟨⟨hmany, hzero.1⟩, hzero.2⟩
      rw [hkeeps.buffer v (by simpa using hv), gangSum, if_neg hone]

variable {L : Nat → Memory α} {r c : Nat}

/-- The gangs have values of their own bins and zeros. -/
theorem gangSum_eq {v : Var} {n owner : Nat} {x : α} (howner : owner < j.noGang)
    (hL : ∀ id < j.noGang, (L (id * j.gangPe .matrix2)).buffer v n =
      if owner = id then x else R.zero) : j.gangSum R L v n = R.collect owner x := by
  rw [gangSum, Library.collect]
  split_ifs with hmany
  · exact congrArg R.mpiSum (List.map_congr_left fun id hid => hL id (List.mem_range.mp hid))
  · have hone : j.noGang = 1 := Nat.le_antisymm (Nat.le_of_not_lt hmany) h.noGang
    have hzero := hL 0 h.noGang
    rw [Nat.zero_mul, if_pos (by omega)] at hzero
    exact hzero

variable {L₀ : Nat → Memory α} {W : Nat → j.Square α} {dv zv : j.Vec α}
  (hL : ∀ pe < j.noPe, Pending R W dv zv (j.pairs + 1) j.pairs pe (L₀ pe) (L pe))

include hL

theorem gangSum_dLdC (hr : r < j.noBin) :
    j.gangSum R L .dLdC r = R.gradient dv zv W ⟨r, hr⟩ := by
  refine gangSum_eq h (Nat.mod_lt _ h.noGang) fun id hid => ?_
  obtain ⟨hlt, hmyPe, hgang⟩ := h.first_of_gang hid
  rw [(hL _ hlt).dLdC hmyPe r hr, hgang, if_congr (h.exists_pass_iff hr hr hid) rfl rfl]

theorem gangSum_d2LdC2 (hr : r < j.noBin) (hc : c < j.noBin) :
    j.gangSum R L .d2LdC2 (r + c * j.noBin) = R.curvature W ⟨r, hr⟩ ⟨c, hc⟩ := by
  refine gangSum_eq h (Nat.mod_lt _ h.noGang) fun id hid => ?_
  obtain ⟨hlt, hmyPe, hgang⟩ := h.first_of_gang hid
  rw [(hL _ hlt).d2LdC2 hmyPe r hr c hc, hgang,
    if_congr ((and_congr_right fun _ => h.exists_pass_iff hr hc hid).trans and_comm) rfl rfl,
    ite_and]

end Gather

/-! ## The whole function -/

/-- The arrays that `calc_dC` changes. -/
def calcDCVars : List Var := .x :: .tmp :: passVars

theorem clearDC_does (h : j.NoOverflow) {W : Nat → j.Square α} {dv zv : j.Vec α}
    {L₀ : Nat → Memory α} : j.Does (fun L => L = L₀) (j.clearDC R)
      (fun L => ∀ pe < j.noPe, Pending R W dv zv 0 0 pe (L₀ pe) (L pe)) := by
  refine Does.compute ?_
  rintro L rfl pe hpe
  simp only [if_pos hpe]
  have hkeeps : ∀ d d' : Nat → α, Memory.Keeps [.d2LdC2, .dLdC] (L pe)
      ((L pe).put (((L pe).toArrays.set .dLdC d).set .d2LdC2 d')) := fun d d' =>
    Memory.keeps_put (L pe) fun v hv => by
      simp only [List.mem_cons, List.not_mem_nil, or_false, not_or] at hv
      rw [Arrays.set_buffer_of_ne _ hv.1, Arrays.set_buffer_of_ne _ hv.2]
  refine ⟨(Retains.of_keeps (hkeeps _ _)).mono ?_, fun hlt => absurd hlt (Nat.lt_irrefl 0),
    fun hlt => absurd hlt (Nat.lt_irrefl 0), fun _ r hr => ?_, fun _ r hr c hc => ?_⟩
  · simp [passVars, derivativeVars, secondVars, firstVars]
  · rw [Memory.put_toArrays, Arrays.set_buffer_of_ne _ (by decide), Arrays.set_buffer_self,
      if_pos hr]
    simp
  · have hlt : r + c * j.noBin < j.noBin * j.noBin := by
      rw [Nat.add_comm, mul_add_lt_mul_iff hr]
      exact hc
    rw [Memory.put_toArrays, Arrays.set_buffer_self, h.noBin2_eq, if_pos (by exact_mod_cast hlt)]
    simp

/-- What `calc_dC` leaves in process 0: the matrix and the vector of `dposv`, and the number that
is printed. -/
structure Corrected (R : Library j α) (dv zv : j.Vec α) (W : Nat → j.Square α) (s : Memory α) :
    Prop where
  d2LdC2 : ∀ r c : Fin j.noBin, s.buffer .d2LdC2 (r + c * j.noBin) =
    (R.dposv (R.curvature W) (R.gradient dv zv W)).1 r c
  dC : ∀ r : Fin j.noBin, s.buffer .dLdC r = (R.dposv (R.curvature W) (R.gradient dv zv W)).2 r
  x : ∀ h : 0 < j.noBin, s.buffer .x 0 =
    (R.dposv (R.curvature W) (R.gradient dv zv W)).2 ⟨0, h⟩

theorem solution_eq {W : Nat → j.Square α} {dv zv : j.Vec α} {s : Arrays α}
    (hfirst : ∀ r : Fin j.noBin, s.buffer .dLdC r = R.gradient dv zv W r)
    (hsecond : ∀ r c : Fin j.noBin, s.buffer .d2LdC2 (r + c * j.noBin) = R.curvature W r c) :
    j.solution R s = R.dposv (R.curvature W) (R.gradient dv zv W) := by
  rw [solution, funext hfirst]
  congr 1
  ext r c
  exact hsecond r c

theorem solveDC_does {W : Nat → j.Square α} {dv zv : j.Vec α} (hio : build.io = false)
    (h : j.Valid) {L₀ : Nat → Memory α}
    (hfirst : ∀ r : Fin j.noBin, (L₀ 0).buffer .dLdC r = R.gradient dv zv W r)
    (hsecond : ∀ r c : Fin j.noBin,
      (L₀ 0).buffer .d2LdC2 (r + c * j.noBin) = R.curvature W r c) :
    j.Does (fun L => L = L₀) (j.solveDC R build) (fun L =>
      (∀ pe < j.noPe, Memory.Keeps [.x, .dLdC, .d2LdC2] (L₀ pe) (L pe)) ∧
        Corrected R dv zv W (L 0)) := by
  have hsolution := solution_eq hfirst hsecond
  refine Does.computeIf ?_
  rintro L rfl
  simp only [hio, Bool.false_eq_true, if_false]
  refine ⟨fun pe hpe => ?_, ?_⟩
  · split_ifs
    · refine Memory.keeps_put _ fun v hv => ?_
      simp only [List.mem_cons, List.not_mem_nil, or_false, not_or] at hv
      rw [Arrays.set_buffer_of_ne _ hv.1, dposv, Arrays.set_buffer_of_ne _ hv.2.1,
        Arrays.set_buffer_of_ne _ hv.2.2]
    · exact .refl _ _
  · simp only [h.noPe, and_self, if_true]
    have hdLdC : ∀ r : Fin j.noBin, (j.dposv R (L 0).toArrays).buffer .dLdC r =
        (R.dposv (R.curvature W) (R.gradient dv zv W)).2 r := by
      intro r
      rw [dposv, Arrays.set_buffer_self, dif_pos r.isLt, hsolution]
    refine ⟨fun r c => ?_, fun r => ?_, fun hbin => ?_⟩
    · have hmod : (r.val + c * j.noBin) % j.noBin = r := by
        rw [Nat.add_mul_mod_self_right, Nat.mod_eq_of_lt r.isLt]
      have hdiv : (r.val + c * j.noBin) / j.noBin = c := by
        rw [Nat.add_comm, mul_add_div (Nat.zero_lt_of_lt r.isLt) r.isLt]
      rw [Memory.put_toArrays, Arrays.set_buffer_of_ne _ (by decide), dposv,
        Arrays.set_buffer_of_ne _ (by decide), Arrays.set_buffer_self]
      simp only [hmod, hdiv, r.isLt, c.isLt, and_self, dite_true, hsolution]
    · rw [Memory.put_toArrays, Arrays.set_buffer_of_ne _ (by decide)]
      exact hdLdC r
    · rw [Memory.put_toArrays, Arrays.set_buffer_self, Function.update_self]
      exact hdLdC ⟨0, hbin⟩

/-- **The derivatives and the correction.** -/
theorem calcDC_does {W : Nat → j.Square α} {dv zv : j.Vec α} (hio : build.io = false)
    (h : j.Valid) (hrange : j.NoOverflow) (hdvd : j.ioMod .r ∣ j.gangPe .matrix2)
    (hwhole : j.Whole) {L₀ : Nat → Memory α} (hrecords : ∀ pe < j.noPe, j.HasRecords pe (L₀ pe))
    (hfile : ∀ pe < j.noPe, ∀ c < j.noBin / j.noGang,
      j.Stored .matrix2 pe c (R.entries (W (c * j.noGang + j.gangId pe))) (L₀ pe).file)
    (hd : ∀ pe < j.noPe, j.IsVector .matrix2 pe (R.coords dv) ((L₀ pe).buffer .d))
    (hz : ∀ pe < j.noPe, j.IsVector .matrix2 pe (R.coords zv) ((L₀ pe).buffer .z)) :
    j.Does (fun L => L = L₀) (j.calcDC R build) fun L =>
      (∀ pe < j.noPe, j.Retains pe calcDCVars (L₀ pe) (L pe)) ∧ Corrected R dv zv W (L 0) := by
  have hpasses : (j.bmax + 1).toNat = j.pairs + 1 := by
    rw [hrange.bmax_eq]
    rfl
  have hstart : j.Last 0 0 := ⟨fun _ => rfl, fun hlt => absurd hlt (Nat.lt_irrefl 0),
    fun b' _ hlt => absurd hlt (Nat.not_lt_zero b')⟩
  have hloop := derivativeLoop_does h hrange hdvd hwhole hrecords hfile hd hz hio (j.pairs + 1) 0 0
    (Nat.zero_add _) hstart
  refine (clearDC_does hrange).seq ((hloop.of_eq fun pe _ => by
    rw [hpasses, Nat.zero_mod, Nat.zero_div, Nat.mul_zero]).seq
    (Does.of_start fun L₂ hL₂ => (gatherGangs_does h (v := .dLdC) (by decide) j.noBin L₂).seq
      (Does.of_start fun L₃ hL₃ => ?_)))
  refine ((gatherGangs_does h (v := .d2LdC2) (by decide) (j.noBin * j.noBin) L₃).of_eq
    fun pe _ => by rw [hrange.noBin2_eq]).seq (Does.of_start fun L₄ hL₄ => ?_)
  -- process 0 has all derivatives
  have hfirst : ∀ r : Fin j.noBin, (L₄ 0).buffer .dLdC r = R.gradient dv zv W r := by
    intro r
    rw [(hL₄.1 0 h.noPe).buffer .dLdC (by decide), hL₃.2 r r.isLt, gangSum_dLdC h hL₂ r.isLt]
  have hsecond : ∀ r c : Fin j.noBin,
      (L₄ 0).buffer .d2LdC2 (r + c * j.noBin) = R.curvature W r c := by
    intro r c
    have hlt : r + c * j.noBin < j.noBin * j.noBin := by
      rw [Nat.add_comm, mul_add_lt_mul_iff r.isLt]
      exact c.isLt
    have hsame : j.gangSum R L₃ .d2LdC2 (r + c * j.noBin) =
        j.gangSum R L₂ .d2LdC2 (r + c * j.noBin) := by
      rw [gangSum, gangSum]
      split_ifs
      · refine congrArg R.mpiSum (List.map_congr_left fun id hid => ?_)
        rw [(hL₃.1 _ (h.first_of_gang (List.mem_range.mp hid)).1).buffer .d2LdC2 (by decide)]
      · rw [(hL₃.1 0 h.noPe).buffer .d2LdC2 (by decide)]
    rw [hL₄.2 _ hlt, hsame, gangSum_d2LdC2 h hL₂ r.isLt c.isLt]
  refine ((solveDC_does hio h hfirst hsecond).seq Does.reportTime).conseq (fun L hL => hL)
    fun L hL => ⟨fun pe hpe => ?_, hL.2⟩
  have hkeeps : ∀ {vs : List Var} {s s' : Memory α}, Memory.Keeps vs s s' → vs ⊆ calcDCVars →
      j.Retains pe calcDCVars s s' := fun hkeeps hvs => (Retains.of_keeps hkeeps).mono hvs
  refine ((hL₂ pe hpe).retains.mono ?_).trans ((hkeeps (hL₃.1 pe hpe) ?_).trans
    ((hkeeps (hL₄.1 pe hpe) ?_).trans (hkeeps (hL.1 pe hpe) ?_)))
  · exact List.subset_append_right [Var.x, .tmp] _
  all_goals simp [calcDCVars, passVars, derivativeVars, secondVars, firstVars]

/-! ## Exact arithmetic -/

section Exact

variable [Field α] (h : j.Valid) (hR : R.Exact)

include hR

theorem collect_eq {owner : Nat} (howner : owner < j.noGang) (x : α) : R.collect owner x = x := by
  rw [Library.collect]
  split_ifs
  · rw [hR.mpiSum, hR.zero_eq]
    change ∑ id ∈ range j.noGang, (if owner = id then x else 0) = x
    rw [sum_ite_eq, if_pos (mem_range.mpr howner)]
  · rfl

include h

theorem gradient_eq (dv zv : j.Vec α) (W : Nat → j.Square α) (r : Fin j.noBin) :
    R.gradient dv zv W r = 1 / (2 : Nat) * (dv ⬝ᵥ (W r).mulVec zv - (W r).trace) := by
  rw [Library.gradient, collect_eq hR (Nat.mod_lt _ h.noGang), Library.firstDerivative, hR.mul,
    hR.half, hR.sub, hR.pddot, hR.pdgemv, hR.pdlatra]

/-- The lower triangle of the second derivatives. -/
theorem curvature_eq (W : Nat → j.Square α) {r c : Fin j.noBin} (hle : c ≤ r) :
    R.curvature W r c = 1 / (2 : Nat) * (W r * W c).trace := by
  rw [Library.curvature, Matrix.of_apply, collect_eq hR (Nat.mod_lt _ h.noGang),
    if_pos (show c.val ≤ r.val from hle), Library.secondDerivative, hR.mul, hR.half,
    traceProduct_eq h hR]

/-- The matrix that `dposv` solves for: the second derivatives, which are symmetric. -/
theorem symmetric_curvature (W : Nat → j.Square α) (r c : Fin j.noBin) :
    Library.symmetric (R.curvature W) r c = 1 / (2 : Nat) * (W r * W c).trace := by
  rw [Library.symmetric, Matrix.of_apply]
  split_ifs with hle
  · exact curvature_eq h hR W hle
  · rw [curvature_eq h hR W (not_le.mp hle).le, Matrix.trace_mul_comm]

end Exact

end Job

end CacheTrace.Madbench
