import CacheTrace.Buffer.Loop
import CacheTrace.Legendre.Recurrence
import CacheTrace.Madbench.Elements
import CacheTrace.Madbench.Matrices

/-!
# The signal and its derivatives

`build_S` builds the derivative of the signal for every bin and writes it, and adds them up. The
element of two pixels is a sum of Legendre polynomials of the cosine of their angle, where a bin
has ten degrees. The polynomials are computed by their recurrence, which goes on from one bin to
the next: the last two values of every element are kept in two more matrices.

The values are those of the arithmetic of the library, in the order of the program
(`Library.binDerivative`, `Library.signal`). In exact arithmetic they are the sums of the
polynomials (`binDerivative_eq`), and the matrices are symmetric.
-/

namespace CacheTrace.Madbench

open Cyclic Buffer Message Legendre Finset

/-- `binwidth` -/
def binwidth : Nat := 10

variable {α : Type}

/-! ## The values -/

namespace Library

variable {j : Job} (R : Library j α)

/-- `pi` -/
def pi : α := R.mul (R.ofNat 4) (R.atan R.one)

/-- `two_pi` -/
def twoPi : α := R.mul (R.ofNat 2) R.pi

/-- The angles of pixel `n`. -/
def ra (n : Nat) : α := R.mul R.twoPi (R.drand48 (2 * n))

def dec (n : Nat) : α := R.mul R.pi (R.sub (R.drand48 (2 * n + 1)) R.half)

/-- `inv_four_pi` -/
def invFourPi : α := R.div R.one (R.mul (R.ofNat 16) (R.atan R.one))

/-- `vc` or `vr` for pixel `p`, before and after it is divided by its norm. -/
def direction (p : Nat) : Nat → α :=
  let v : Nat → α
    | 0 => R.mul (R.cos (R.dec p)) (R.cos (R.ra p))
    | 1 => R.mul (R.cos (R.dec p)) (R.sin (R.ra p))
    | _ => R.sin (R.dec p)
  let norm := (List.range 3).foldl (fun x d => R.add x (R.mul (v d) (v d))) R.zero
  fun d => R.mul (v d) (R.div R.one (R.sqrt norm))

/-- `cos_chi` of the pixels `pr` and `pc`. -/
def cosChi (pr pc : Nat) : α :=
  (List.range 3).foldl (fun x d => R.add x (R.mul (R.direction pc d) (R.direction pr d))) R.zero

/-- The body of the loop over the degrees. -/
def nextDegree (chi : α) (s : Running α) (l : Nat) : Running α :=
  let p2 := R.sub (R.sub (R.mul (R.mul (R.ofNat 2) chi) s.p1) s.p0)
    (R.mul (R.sub (R.mul chi s.p1) s.p0) (R.div R.one (R.ofNat l)))
  ⟨R.add s.sum (R.mul (R.ofNat (2 * l + 1)) p2), s.p1, p2⟩

/-- The degrees from `lmin` to `lmax` of one element. -/
def degrees (chi : α) (lmin lmax : Nat) (s : Running α) : Running α :=
  let t := (List.range' lmin (lmax - lmin)).foldl (R.nextDegree chi) s
  ⟨R.mul t.sum R.invFourPi, t.p0, t.p1⟩

/-- The values of one element after `b` bins. -/
def values (chi : α) : Nat → Running α
  | 0 => ⟨R.zero, R.zero, R.one⟩
  | b + 1 => R.degrees chi (1 + b * binwidth) (1 + (b + 1) * binwidth)
      ⟨R.zero, (values chi b).p0, (values chi b).p1⟩

/-- The derivative of the signal for bin `b`. -/
def binDerivative (b r c : Nat) : α := (R.values (R.cosChi r c) (b + 1)).sum

/-- The signal of the first `b` bins, with the `binweight` 1. -/
def signal : Nat → Nat → Nat → α
  | 0, _, _ => R.zero
  | b + 1, r, c => R.add (signal b r c) (R.mul R.one (R.binDerivative b r c))

end Library

/-! ## The program -/

namespace Job

variable (j : Job) (R : Library j α)

/-- The element `n` in the local row `r` and column `c`. -/
def buildElement (pe lmin lmax c r n : Nat) (s : Arrays α) : Arrays α :=
  let chi := R.cosChi (j.globalRow .matrix1 pe r) (j.globalCol .matrix1 pe c)
  let t := R.degrees chi lmin lmax ⟨s.buffer .dSdCb n, s.buffer .lpLminus1 n, s.buffer .lpL n⟩
  ((s.set .dSdCb (Function.update (s.buffer .dSdCb) n t.sum)).set .lpLminus1
    (Function.update (s.buffer .lpLminus1) n t.p0)).set .lpL
    (Function.update (s.buffer .lpL) n t.p1)

/-- `build_dSdC` -/
def buildDSdC (lmin lmax pe : Nat) (s : Arrays α) : Arrays α :=
  let s := s.set .dSdCb fun n => if n < j.elm .matrix1 pe then R.zero else s.buffer .dSdCb n
  let s := columns (j.myNoRow .matrix1 pe) (j.myNoCol .matrix1 pe)
    (j.buildElement R pe lmin lmax) s
  s.set .mspace fun n => if n < j.elm .matrix1 pe then
    R.add (s.buffer .mspace n) (R.mul R.one (s.buffer .dSdCb n)) else s.buffer .mspace n

/-- A pass of `build_S`. -/
def buildPass (build : Build) (b pe : Nat) : List (Act α) :=
  if b < j.noBin then
    (if build.io then j.busyWork .matrix1 pe else
      [.compute (j.buildDSdC R (1 + b * binwidth) (1 + (b + 1) * binwidth) pe)]) ++
    ([.compute fun s => s.set .wbuffer
      (memcpy (s.buffer .wbuffer) 0 (s.buffer .dSdCb) 0 (j.elm .matrix1 pe))] ++
    j.ioDistmatrixNet .matrix1 .w .wbuffer b pe)
  else []

/-- `build_S` -/
def buildS (build : Build) (pe : Nat) : List (Act α) :=
  [.compute fun s => (s.set .lpLminus1 fun n =>
    if n < j.elm .matrix1 pe then R.zero else s.buffer .lpLminus1 n).set .lpL fun n =>
      if n < j.elm .matrix1 pe then R.one else s.buffer .lpL n] ++
  (((List.range (j.noBin + 1)).flatMap fun b => j.buildPass R build b pe) ++ j.reportTime pe)

/-! ## One bin -/

variable {j} {R}

/-- The values of one element. -/
def valuesAt (s : Arrays α) (n : Nat) : Running α :=
  ⟨s.buffer .dSdCb n, s.buffer .lpLminus1 n, s.buffer .lpL n⟩

theorem valuesAt_buildElement (pe lmin lmax c r n : Nat) (s : Arrays α) (m : Nat) :
    valuesAt (j.buildElement R pe lmin lmax c r n s) m =
      if m = n then R.degrees (R.cosChi (j.globalRow .matrix1 pe r) (j.globalCol .matrix1 pe c))
        lmin lmax (valuesAt s n)
      else valuesAt s m := by
  by_cases hm : m = n
  · subst hm
    simp [valuesAt, buildElement]
  · simp [valuesAt, buildElement, hm]

/-- The arrays that one bin changes. -/
def binVars : List Var := [.mspace, .dSdCb, .lpLminus1, .lpL]

/-- The last two values of the elements of process `pe` after `b` bins. -/
structure Values (R : Library j α) (b pe : Nat) (s : Arrays α) : Prop where
  lpLminus1 : j.IsPart .matrix1 pe (fun r c => (R.values (R.cosChi r c) b).p0) (s.buffer .lpLminus1)
  lpL : j.IsPart .matrix1 pe (fun r c => (R.values (R.cosChi r c) b).p1) (s.buffer .lpL)

section Bin

variable {pe b : Nat} {s : Arrays α}

theorem buildElements_keeps (lmin lmax : Nat) (v : Var) (hv : v ∉ binVars) :
    (columns (j.myNoRow .matrix1 pe) (j.myNoCol .matrix1 pe) (j.buildElement R pe lmin lmax)
      s).buffer v = s.buffer v := by
  simp only [binVars, List.mem_cons, List.not_mem_nil, or_false, not_or] at hv
  refine columns_invariant (I := fun t : Arrays α => t.buffer v = s.buffer v)
    (fun c r n t ht => ?_) _ rfl
  rw [buildElement, Arrays.set_buffer_of_ne _ hv.2.2.2, Arrays.set_buffer_of_ne _ hv.2.2.1,
    Arrays.set_buffer_of_ne _ hv.2.1, ht]

theorem buildElements_mspace (lmin lmax : Nat) :
    (columns (j.myNoRow .matrix1 pe) (j.myNoCol .matrix1 pe) (j.buildElement R pe lmin lmax)
      s).buffer .mspace = s.buffer .mspace := by
  refine columns_invariant (I := fun t : Arrays α => t.buffer .mspace = s.buffer .mspace)
    (fun c r n t ht => ?_) _ rfl
  rw [buildElement, Arrays.set_buffer_of_ne _ (by decide), Arrays.set_buffer_of_ne _ (by decide),
    Arrays.set_buffer_of_ne _ (by decide), ht]

/-- The loops over the elements go on with the values that the bin before has left. -/
theorem valuesAt_buildElements (hs : Values R b pe s)
    (hzero : ∀ n < j.share .matrix1 pe, s.buffer .dSdCb n = R.zero) {n : Nat}
    (hn : n < j.share .matrix1 pe) :
    valuesAt (columns (j.myNoRow .matrix1 pe) (j.myNoCol .matrix1 pe)
      (j.buildElement R pe (1 + b * binwidth) (1 + (b + 1) * binwidth)) s) n =
      ⟨j.part .matrix1 pe (R.binDerivative b) n,
        j.part .matrix1 pe (fun r c => (R.values (R.cosChi r c) (b + 1)).p0) n,
        j.part .matrix1 pe (fun r c => (R.values (R.cosChi r c) (b + 1)).p1) n⟩ := by
  rw [columns_get valuesAt (fun c r n s m => valuesAt_buildElement pe _ _ c r n s m),
    if_pos (lt_cols_mul_rows hn), valuesAt, hzero n hn, hs.lpLminus1 n hn, hs.lpL n hn]
  rfl

/-- **One bin** in one process. -/
theorem buildDSdC_eq (hrange : j.NoOverflow) (hs : Values R b pe s)
    (hmspace : j.IsPart .matrix1 pe (R.signal b) (s.buffer .mspace)) {s' : Arrays α}
    (hs' : s' = j.buildDSdC R (1 + b * binwidth) (1 + (b + 1) * binwidth) pe s) :
    (∀ v, v ∉ binVars → s'.buffer v = s.buffer v) ∧ Values R (b + 1) pe s' ∧
      j.IsPart .matrix1 pe (R.binDerivative b) (s'.buffer .dSdCb) ∧
      j.IsPart .matrix1 pe (R.signal (b + 1)) (s'.buffer .mspace) := by
  subst hs'
  let s₁ := s.set .dSdCb fun n => if n < j.elm .matrix1 pe then R.zero else s.buffer .dSdCb n
  let s₂ := columns (j.myNoRow .matrix1 pe) (j.myNoCol .matrix1 pe)
    (j.buildElement R pe (1 + b * binwidth) (1 + (b + 1) * binwidth)) s₁
  have hs₁ : Values R b pe s₁ :=
    ⟨by simpa [s₁] using hs.lpLminus1, by simpa [s₁] using hs.lpL⟩
  have hvalues : ∀ n < j.share .matrix1 pe, valuesAt s₂ n = _ := fun n hn =>
    valuesAt_buildElements hs₁ (fun n hn => by simp [s₁, hrange.elm_eq, hn]) hn
  have hresult : j.buildDSdC R (1 + b * binwidth) (1 + (b + 1) * binwidth) pe s =
      s₂.set .mspace fun n => if n < j.elm .matrix1 pe then
        R.add (s₂.buffer .mspace n) (R.mul R.one (s₂.buffer .dSdCb n)) else s₂.buffer .mspace n :=
    rfl
  rw [hresult]
  refine ⟨fun v hv => ?_, ⟨fun n hn => ?_, fun n hn => ?_⟩, fun n hn => ?_, fun n hn => ?_⟩
  · have hne : v ≠ .mspace ∧ v ≠ .dSdCb := by
      simp only [binVars, List.mem_cons, List.not_mem_nil, or_false, not_or] at hv
      exact ⟨hv.1, hv.2.1⟩
    rw [Arrays.set_buffer_of_ne _ hne.1, buildElements_keeps _ _ v hv,
      Arrays.set_buffer_of_ne _ hne.2]
  · rw [Arrays.set_buffer_of_ne _ (by decide)]
    exact congrArg Running.p0 (hvalues n hn)
  · rw [Arrays.set_buffer_of_ne _ (by decide)]
    exact congrArg Running.p1 (hvalues n hn)
  · rw [Arrays.set_buffer_of_ne _ (by decide)]
    exact congrArg Running.sum (hvalues n hn)
  · have hdS : s₂.buffer .dSdCb n = _ := congrArg Running.sum (hvalues n hn)
    have hS : s₂.buffer .mspace n = j.part .matrix1 pe (R.signal b) n := by
      rw [buildElements_mspace, Arrays.set_buffer_of_ne _ (by decide), hmspace n hn]
    rw [Arrays.set_buffer_self, hrange.elm_eq, if_pos hn, hS, hdS]
    rfl

end Bin

/-! ## All bins -/

/-- The arrays that `build_S` changes. -/
def buildVars : List Var := .wbuffer :: binVars

/-- Process `pe` when `b` bins have been built. -/
structure Built (R : Library j α) (b pe : Nat) (s₀ s : Memory α) : Prop where
  buffer : ∀ v, v ∉ buildVars → s.buffer v = s₀.buffer v
  globals : s.globals = s₀.globals
  mspace : j.IsPart .matrix1 pe (R.signal b) (s.buffer .mspace)
  values : Values R b pe s.toArrays
  file : ∀ b' < b, j.Stored .matrix1 pe b' (R.binDerivative b') s.file

theorem Values.congr {b pe : Nat} {s s' : Arrays α} (h : Values R b pe s)
    (hminus1 : s'.buffer .lpLminus1 = s.buffer .lpLminus1)
    (hlpL : s'.buffer .lpL = s.buffer .lpL) : Values R b pe s' :=
  ⟨hminus1 ▸ h.lpLminus1, hlpL ▸ h.lpL⟩

/-- A process after one more bin: it is built, copied and written. -/
theorem Built.next (h : j.Valid) (hrange : j.NoOverflow) {b pe : Nat} {s₀ s s' : Memory α}
    (hbuilt : Built R b pe s₀ s) {s₁ : Arrays α}
    (hs₁ : s₁ = j.buildDSdC R (1 + b * binwidth) (1 + (b + 1) * binwidth) pe s.toArrays)
    (hs' : s' = j.written pe .matrix1 .wbuffer b (s.put (s₁.set .wbuffer
      (memcpy (s₁.buffer .wbuffer) 0 (s₁.buffer .dSdCb) 0 (j.elm .matrix1 pe))))) :
    Built R (b + 1) pe s₀ s' := by
  obtain ⟨hbuffer, hvalues, hdS, hmspace⟩ := buildDSdC_eq hrange hbuilt.values hbuilt.mspace hs₁
  subst hs'
  refine ⟨fun v hv => ?_, hbuilt.globals, ?_, hvalues.congr ?_ ?_, fun b' hb' => ?_⟩
  · simp only [buildVars, List.mem_cons, not_or] at hv
    rw [written_toArrays, Memory.put_toArrays, Arrays.set_buffer_of_ne _ hv.1, hbuffer v hv.2]
    exact hbuilt.buffer v (by simpa [buildVars] using hv)
  · rw [written_toArrays, Memory.put_toArrays, Arrays.set_buffer_of_ne _ (by decide)]
    exact hmspace
  · exact Arrays.set_buffer_of_ne _ (by decide) _
  · exact Arrays.set_buffer_of_ne _ (by decide) _
  · rcases Nat.lt_succ_iff_lt_or_eq.mp hb' with hlt | rfl
    · refine Stored.write_ne h ?_ (Nat.ne_of_lt hlt) _
      exact hbuilt.file b' hlt
    · refine IsPart.stored ?_ b'
      rw [Memory.put_toArrays, Arrays.set_buffer_self, hrange.elm_eq]
      exact hdS.copied _

section Passes

variable (h : j.Valid) (hrange : j.NoOverflow) (hw : j.ioMod .w ∣ j.gangPe .matrix1)
  {L₀ : Nat → Memory α} {build : Build} (hio : build.io = false)

include h hrange hw hio

theorem buildPass_does {b : Nat} (hb : b < j.noBin) :
    j.Does (fun L => ∀ pe < j.noPe, Built R b pe (L₀ pe) (L pe)) (j.buildPass R build b)
      (fun L => ∀ pe < j.noPe, Built R (b + 1) pe (L₀ pe) (L pe)) := by
  refine (Does.of_start fun L hL => Does.seq (J := fun L₁ => ∀ pe < j.noPe, L₁ pe = (L pe).put
      (j.buildDSdC R (1 + b * binwidth) (1 + (b + 1) * binwidth) pe (L pe).toArrays))
    (Does.compute ?_) (Does.of_start fun L₁ hL₁ => Does.seq (J := fun L₂ => ∀ pe < j.noPe,
      L₂ pe = (L₁ pe).put ((L₁ pe).toArrays.set .wbuffer (memcpy ((L₁ pe).buffer .wbuffer) 0
        ((L₁ pe).buffer .dSdCb) 0 (j.elm .matrix1 pe))))
    (Does.compute ?_) (Does.of_start fun L₂ hL₂ => (write_does h hw .wbuffer b).conseq
      (fun L hL => hL) fun L₃ hL₃ pe hpe => ?_))).of_eq fun pe _ => by
        rw [buildPass, if_pos hb, if_neg (ne_true_of_eq_false hio)]
  · rintro _ rfl pe hpe
    exact if_pos hpe
  · rintro _ rfl pe hpe
    exact if_pos hpe
  · refine (hL pe hpe).next h hrange rfl ?_
    rw [hL₃ pe hpe, hL₂ pe hpe, hL₁ pe hpe]
    rfl

/-- **The signal and its derivatives.** -/
theorem buildS_does (hmspace : ∀ pe < j.noPe, ∀ n < j.share .matrix1 pe,
    (L₀ pe).buffer .mspace n = R.zero) : j.Does (fun L => L = L₀) (j.buildS R build)
      (fun L => ∀ pe < j.noPe, Built R j.noBin pe (L₀ pe) (L pe)) := by
  refine Does.seq (J := fun L => ∀ pe < j.noPe, Built R 0 pe (L₀ pe) (L pe))
    (Does.compute ?_) (((Does.rounds (fun b L => ∀ pe < j.noPe,
      Built R (min b j.noBin) pe (L₀ pe) (L pe)) fun b hb => ?_).seq
      Does.reportTime).conseq (fun L hL => by rwa [Nat.zero_min]) fun L hL => by
        rwa [Nat.min_eq_right (Nat.le_succ _)] at hL)
  · rintro L rfl pe hpe
    simp only [if_pos hpe]
    refine ⟨fun v hv => ?_, rfl, fun n hn => ?_, ⟨fun n hn => ?_, fun n hn => ?_⟩,
      fun b' hb' => absurd hb' (Nat.not_lt_zero b')⟩
    · simp only [buildVars, binVars, List.mem_cons, List.not_mem_nil, or_false, not_or] at hv
      rw [Memory.put_toArrays, Arrays.set_buffer_of_ne _ hv.2.2.2.2,
        Arrays.set_buffer_of_ne _ hv.2.2.2.1]
    · rw [Memory.put_toArrays, Arrays.set_buffer_of_ne _ (by decide),
        Arrays.set_buffer_of_ne _ (by decide), hmspace pe hpe n hn]
      rfl
    · rw [Memory.put_toArrays, Arrays.set_buffer_of_ne _ (by decide), Arrays.set_buffer_self,
        hrange.elm_eq, if_pos hn]
      rfl
    · rw [Memory.put_toArrays, Arrays.set_buffer_self, hrange.elm_eq, if_pos hn]
      rfl
  · rcases Nat.lt_or_eq_of_le (Nat.le_of_lt_succ hb) with hlt | rfl
    · rw [Nat.min_eq_left hlt.le, Nat.min_eq_left hlt]
      exact buildPass_does h hrange hw hio hlt
    · rw [Nat.min_self, Nat.min_eq_right (Nat.le_succ _)]
      exact Does.skip.of_eq fun pe _ => if_neg (Nat.lt_irrefl _)

end Passes

end Job

/-! ## Exact arithmetic -/

section Exact

variable [Field α] {j : Job} {R : Library j α} (hR : R.Exact)

include hR

theorem cosChi_comm (r c : Nat) : R.cosChi r c = R.cosChi c r := by
  simp only [Library.cosChi, hR.mul, mul_comm]

theorem binDerivative_comm (b r c : Nat) : R.binDerivative b r c = R.binDerivative b c r := by
  rw [Library.binDerivative, cosChi_comm hR, Library.binDerivative]

theorem signal_comm (b r c : Nat) : R.signal b r c = R.signal b c r := by
  induction b with
  | zero => rfl
  | succ b ih => rw [Library.signal, ih, binDerivative_comm hR, Library.signal]

theorem nextDegree_eq (chi : α) : R.nextDegree chi = Running.next chi := by
  funext s l
  simp only [Library.nextDegree, Running.next, hR.add, hR.sub, hR.mul, hR.div, hR.ofNat,
    hR.one_eq]
  push_cast
  rfl

/-- The recurrence goes on where the bin before has left it. -/
theorem values_eq [CharZero α] (chi : α) (b : Nat) :
    (R.values chi b).p0 = before chi (b * binwidth) ∧
      (R.values chi b).p1 = legendre chi (b * binwidth) ∧ (R.values chi (b + 1)).sum =
        (∑ l ∈ Ico (1 + b * binwidth) (1 + (b + 1) * binwidth), term chi l) * R.invFourPi := by
  have hbin : ∀ b, (R.values chi b).p0 = before chi (b * binwidth) →
      (R.values chi b).p1 = legendre chi (b * binwidth) → R.values chi (b + 1) =
        ⟨(∑ l ∈ Ico (1 + b * binwidth) (1 + (b + 1) * binwidth), term chi l) * R.invFourPi,
          before chi ((b + 1) * binwidth), legendre chi ((b + 1) * binwidth)⟩ := by
    intro b hp0 hp1
    have hwidth : 1 + (b + 1) * binwidth - (1 + b * binwidth) = binwidth := by
      rw [Nat.succ_mul]
      omega
    have hnext : b * binwidth + binwidth = (b + 1) * binwidth := (Nat.succ_mul b binwidth).symm
    have hend : b * binwidth + 1 + binwidth = 1 + (b + 1) * binwidth := by omega
    rw [Library.values, Library.degrees, hp0, hp1, hwidth, nextDegree_eq hR, hR.zero_eq,
      Nat.add_comm 1 (b * binwidth), sumFrom_eq, hnext, hend, Nat.add_comm (b * binwidth) 1,
      hR.mul, zero_add]
  have hlast : ∀ b, (R.values chi b).p0 = before chi (b * binwidth) ∧
      (R.values chi b).p1 = legendre chi (b * binwidth) := by
    intro b
    induction b with
    | zero => simp [Library.values, hR.zero_eq, hR.one_eq, legendre]
    | succ b ih =>
      rw [hbin b ih.1 ih.2]
      exact ⟨rfl, rfl⟩
  refine ⟨(hlast b).1, (hlast b).2, ?_⟩
  rw [hbin b (hlast b).1 (hlast b).2]

/-- The derivative of a bin is the sum of its polynomials. -/
theorem binDerivative_eq [CharZero α] (b r c : Nat) : R.binDerivative b r c =
    (∑ l ∈ Ico (1 + b * binwidth) (1 + (b + 1) * binwidth), term (R.cosChi r c) l) *
      R.invFourPi :=
  (values_eq hR (R.cosChi r c) b).2.2

theorem signal_eq (b r c : Nat) : R.signal b r c = ∑ b' ∈ range b, R.binDerivative b' r c := by
  induction b with
  | zero => exact hR.zero_eq
  | succ b ih => rw [Library.signal, ih, hR.add, hR.mul, hR.one_eq, one_mul, sum_range_succ]

end Exact

end CacheTrace.Madbench
