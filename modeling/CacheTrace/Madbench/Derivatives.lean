import CacheTrace.Cyclic.Sum
import CacheTrace.Madbench.Matrices
import CacheTrace.Madbench.Ring

/-!
# The derivatives

`dbydC` computes one element of the second derivatives, and for the diagonal one of the first
derivatives, from the matrices `W` of two bins. All gangs call it at the same time, each for a
pair of bins of its own. The trace of the product of two matrices is a sum of products of
elements, so every process adds up its own products and the sums are reduced in the gang
(`Library.traceProduct`); in exact arithmetic this is the trace (`traceProduct_eq`).
-/

namespace CacheTrace.Madbench

open Cyclic Buffer Message Finset

variable {α : Type}

namespace Library

variable {j : Job} (R : Library j α)

/-- The sums of the products of the elements of `A` and of the transposed matrix of `B`, process
by process. -/
def traceProduct (A B : j.Square α) : α :=
  R.mpiSum ((List.range (j.gangPe .matrix2)).map fun q =>
    R.ddot (contents (j.part .matrix2 q (R.entries A)) (j.share .matrix2 q))
      (contents (j.part .matrix2 q (R.entries (R.pdtran B))) (j.share .matrix2 q)))

/-- The element of the first derivatives. -/
def firstDerivative (dv zv : j.Vec α) (A : j.Square α) : α :=
  R.mul R.half (R.sub (R.pddot dv (R.pdgemv A zv)) (R.pdlatra A))

/-- The element of the second derivatives. -/
def secondDerivative (A B : j.Square α) : α := R.mul R.half (R.traceProduct A B)

end Library

namespace Job

variable (j : Job) (R : Library j α) (br bc : Nat → Nat)

/-- Gang `id` has the bins `br id` and `bc id`. On the diagonal they are the same. -/
abbrev Diagonal (pe : Nat) : Prop := br (j.gangId pe) = bc (j.gangId pe)

abbrev Lower (pe : Nat) : Prop := bc (j.gangId pe) ≤ br (j.gangId pe)

def storeFirst (pe : Nat) : List (Act α) :=
  if j.Diagonal br bc pe ∧ j.gangMyPe pe .matrix2 = 0 then
    [.compute fun s => s.set .dLdC (Function.update (s.buffer .dLdC) (br (j.gangId pe))
      (R.mul R.half (R.sub (s.buffer .dTWbZ 0) (s.buffer .trWb 0))))] else []

/-- `ddot` on the local elements. -/
def localDot (pe : Nat) : List (Act α) :=
  if j.Lower br bc pe then
    [.compute fun s => s.set .myTrWbrWbc (Function.update (s.buffer .myTrWbrWbc) 0
      (R.ddot (contents (s.buffer .wb) (j.elm .matrix2 pe))
        (contents (s.buffer .wTb) (j.elm .matrix2 pe))))] else []

def storeSecond (pe : Nat) : List (Act α) :=
  if j.Lower br bc pe ∧ j.gangMyPe pe .matrix2 = 0 then
    [.compute fun s => s.set .d2LdC2 (Function.update (s.buffer .d2LdC2)
      (br (j.gangId pe) + bc (j.gangId pe) * j.noBin) (R.mul R.half (s.buffer .trWbrWbc 0)))]
  else []

/-- `dbydC` for the first derivatives. -/
def dbydCFirst (pe : Nat) : List (Act α) :=
  j.routine .matrix2 R (j.Diagonal br bc) (j.pdgemv .matrix2 R .wb .z .wbZ) pe ++
  (j.routine .matrix2 R (j.Diagonal br bc) (j.pddot .matrix2 R .dTWbZ .d .wbZ) pe ++
  (j.routine .matrix2 R (j.Diagonal br bc) (j.pdlatra R .trWb .wb) pe ++
  j.storeFirst R br bc pe))

/-- `dbydC` for the second derivatives. -/
def dbydCSecond (pe : Nat) : List (Act α) :=
  j.routine .matrix2 R (j.Diagonal br bc) (j.pdtran .matrix2 R .wb .wTb) pe ++
  (j.localDot R br bc pe ++
  (j.mpiReduce R (j.Lower br bc) (j.comm .matrix2) (fun pe => j.gangMyPe pe .matrix2 = 0)
    .myTrWbrWbc .trWbrWbc 1 pe ++
  j.storeSecond R br bc pe))

/-- `dbydC` -/
def dbydC (pe : Nat) : List (Act α) := j.dbydCFirst R br bc pe ++ j.dbydCSecond R br bc pe

variable {j} {R} {br bc}

/-! ## What a call needs and does -/

variable {A B : Nat → j.Square α} {dv zv : j.Vec α}

/-- What `dbydC` needs: gang `id` has the matrix `A id`, and from the diagonal the transposed
matrix of `B id`. -/
structure Given (R : Library j α) (A B : Nat → j.Square α) (dv zv : j.Vec α) (br bc : Nat → Nat)
    (pe : Nat) (s : Memory α) : Prop where
  wb : j.IsPart .matrix2 pe (R.entries (A (j.gangId pe))) (s.buffer .wb)
  d : j.IsVector .matrix2 pe (R.coords dv) (s.buffer .d)
  z : j.IsVector .matrix2 pe (R.coords zv) (s.buffer .z)
  wTb : bc (j.gangId pe) < br (j.gangId pe) →
    j.IsPart .matrix2 pe (R.entries (R.pdtran (B (j.gangId pe)))) (s.buffer .wTb)

theorem Given.of_keeps {pe : Nat} {s₀ s : Memory α} (hs : Given R A B dv zv br bc pe s₀)
    {vs : List Var} (hkeeps : Memory.Keeps vs s₀ s) (hwb : .wb ∉ vs) (hd : .d ∉ vs) (hz : .z ∉ vs)
    (hwTb : .wTb ∉ vs) : Given R A B dv zv br bc pe s := by
  constructor
  · rw [hkeeps.buffer .wb hwb]
    exact hs.wb
  · rw [hkeeps.buffer .d hd]
    exact hs.d
  · rw [hkeeps.buffer .z hz]
    exact hs.z
  · rw [hkeeps.buffer .wTb hwTb]
    exact hs.wTb

/-- The arrays that `dbydC` changes. -/
def firstVars : List Var := [.dLdC, .trWb, .dTWbZ, .wbZ]

def secondVars : List Var := [.d2LdC2, .trWbrWbc, .myTrWbrWbc, .wTb]

def derivativeVars : List Var := secondVars ++ firstVars

/-- On the diagonal `WTb` becomes the transposed matrix, and elsewhere it stays what it is. -/
def Transposed (R : Library j α) (B : Nat → j.Square α) (br bc : Nat → Nat) (pe : Nat)
    (s₀ s : Memory α) : Prop :=
  if br (j.gangId pe) = bc (j.gangId pe) then
    j.IsPart .matrix2 pe (R.entries (R.pdtran (B (j.gangId pe)))) (s.buffer .wTb)
  else s.buffer .wTb = s₀.buffer .wTb

theorem Transposed.set {pe : Nat} {s₀ s : Memory α} (h : Transposed R B br bc pe s₀ s) {v : Var}
    (hv : .wTb ≠ v) (d : Nat → α) :
    Transposed R B br bc pe s₀ (s.put (s.toArrays.set v d)) := by
  rw [Transposed, Memory.put_toArrays, Arrays.set_buffer_of_ne _ hv]
  exact h

/-- What a call of `dbydC` does. -/
structure Derived (R : Library j α) (A B : Nat → j.Square α) (dv zv : j.Vec α) (br bc : Nat → Nat)
    (pe : Nat) (s₀ s : Memory α) : Prop where
  keeps : Memory.Keeps derivativeVars s₀ s
  dLdC : j.gangMyPe pe .matrix2 = 0 → s.buffer .dLdC =
    if br (j.gangId pe) = bc (j.gangId pe) then
      Function.update (s₀.buffer .dLdC) (br (j.gangId pe))
        (R.firstDerivative dv zv (A (j.gangId pe)))
    else s₀.buffer .dLdC
  wTb : Transposed R B br bc pe s₀ s
  d2LdC2 : j.gangMyPe pe .matrix2 = 0 → s.buffer .d2LdC2 =
    if bc (j.gangId pe) ≤ br (j.gangId pe) then
      Function.update (s₀.buffer .d2LdC2) (br (j.gangId pe) + bc (j.gangId pe) * j.noBin)
        (R.secondDerivative (A (j.gangId pe)) (B (j.gangId pe)))
    else s₀.buffer .d2LdC2

theorem gangId_eq {x y : Nat} (hcomm : j.comm .matrix2 x = j.comm .matrix2 y) :
    j.gangId x = j.gangId y :=
  Comm.gang.inj hcomm

theorem diagonal_of_comm {x y : Nat} (hcomm : j.comm .matrix2 x = j.comm .matrix2 y)
    (hx : j.Diagonal br bc x) : j.Diagonal br bc y := by
  rwa [Diagonal, ← gangId_eq hcomm]

section Gang

variable (h : j.Valid) {pe : Nat} (hpe : pe < j.noPe) {L : Nat → Memory α} {v : Var}

include h hpe

/-- The matrix of a gang, when every gang has one of its own. -/
theorem Valid.toMatrix_gang
    (hL : ∀ q < j.noPe, j.IsPart .matrix2 q (R.entries (A (j.gangId q))) ((L q).buffer v)) :
    j.toMatrix (j.gathered .matrix2 L pe v) = A (j.gangId pe) := by
  refine h.toMatrix_gathered (R := R) hpe fun q hq hcomm => ?_
  rw [← gangId_eq hcomm]
  exact hL q hq

theorem Valid.vector_gang {x : Nat → j.Vec α}
    (hL : ∀ q < j.noPe, j.gangId q = j.gangId pe →
      j.IsVector .matrix2 q (R.coords (x (j.gangId q))) ((L q).buffer v)) :
    (fun r : Fin j.noPix => j.gathered .matrix2 L pe v r 0) = x (j.gangId pe) := by
  refine h.vector_gathered (R := R) hpe fun q hq hcomm => ?_
  rw [← gangId_eq hcomm]
  exact hL q hq (gangId_eq hcomm)

end Gang

section Call

variable (h : j.Valid) {L₀ : Nat → Memory α}
  (hL₀ : ∀ pe < j.noPe, Given R A B dv zv br bc pe (L₀ pe))

/-! ## The first derivatives -/

include h hL₀

/-- The product with `z`. -/
theorem pdgemv_does : j.Does (fun L => L = L₀)
    (j.routine .matrix2 R (j.Diagonal br bc) (j.pdgemv .matrix2 R .wb .z .wbZ))
    (fun L => ∀ pe < j.noPe, Memory.Keeps [.wbZ] (L₀ pe) (L pe) ∧ (j.Diagonal br bc pe →
      j.IsVector .matrix2 pe (R.coords (R.pdgemv (A (j.gangId pe)) zv)) ((L pe).buffer .wbZ))) := by
  refine Does.routine h (fun _ _ => diagonal_of_comm) ?_
  rintro L rfl pe hpe
  simp only [hpe, true_and]
  split_ifs with hdiag
  · have hA := h.toMatrix_gang hpe fun q hq => (hL₀ q hq).wb
    have hz := h.vector_gathered hpe fun q hq _ => (hL₀ q hq).z
    simp only [pdgemv, hA, hz]
    exact ⟨keeps_storeVec _ _ _ _, fun _ => isVector_storeVec _ _ _ _⟩
  · exact ⟨.refl _ _, fun hdiag' => absurd hdiag' hdiag⟩

/-- The product with `d`, which process 0 of the gang gets. -/
theorem pddot_does : j.Does
    (fun L => ∀ pe < j.noPe, Memory.Keeps [.wbZ] (L₀ pe) (L pe) ∧ (j.Diagonal br bc pe →
      j.IsVector .matrix2 pe (R.coords (R.pdgemv (A (j.gangId pe)) zv)) ((L pe).buffer .wbZ)))
    (j.routine .matrix2 R (j.Diagonal br bc) (j.pddot .matrix2 R .dTWbZ .d .wbZ))
    (fun L => ∀ pe < j.noPe, Memory.Keeps [.dTWbZ, .wbZ] (L₀ pe) (L pe) ∧
      (j.Diagonal br bc pe → j.gangMyPe pe .matrix2 = 0 →
        (L pe).buffer .dTWbZ 0 = R.pddot dv (R.pdgemv (A (j.gangId pe)) zv))) := by
  refine Does.routine h (fun _ _ => diagonal_of_comm) fun L hL pe hpe => ?_
  simp only [hpe, true_and]
  split_ifs with hdiag
  · have hd : _ = dv := h.vector_gathered hpe fun q hq _ =>
      (hL q hq).1.buffer .d (by decide) ▸ (hL₀ q hq).d
    have hz := h.vector_gang hpe (x := fun id => R.pdgemv (A id) zv) fun q hq hgang =>
      (hL q hq).2 (by rwa [Diagonal, hgang])
    simp only [pddot, hd, hz]
    split_ifs with hcol
    · refine ⟨(hL pe hpe).1.set _ _, fun _ _ => ?_⟩
      rw [Memory.put_toArrays, Arrays.set_buffer_self, Function.update_self]
    · refine ⟨(hL pe hpe).1.cons _, fun _ hzero => absurd ?_ hcol⟩
      rw [peCol, hzero, Nat.zero_div]
  · exact ⟨(hL pe hpe).1.cons _, fun hdiag' => absurd hdiag' hdiag⟩

/-- The trace. -/
theorem pdlatra_does : j.Does
    (fun L => ∀ pe < j.noPe, Memory.Keeps [.dTWbZ, .wbZ] (L₀ pe) (L pe) ∧
      (j.Diagonal br bc pe → j.gangMyPe pe .matrix2 = 0 →
        (L pe).buffer .dTWbZ 0 = R.pddot dv (R.pdgemv (A (j.gangId pe)) zv)))
    (j.routine .matrix2 R (j.Diagonal br bc) (j.pdlatra R .trWb .wb))
    (fun L => ∀ pe < j.noPe, Memory.Keeps [.trWb, .dTWbZ, .wbZ] (L₀ pe) (L pe) ∧
      (j.Diagonal br bc pe → j.gangMyPe pe .matrix2 = 0 →
        (L pe).buffer .dTWbZ 0 = R.pddot dv (R.pdgemv (A (j.gangId pe)) zv) ∧
          (L pe).buffer .trWb 0 = R.pdlatra (A (j.gangId pe)))) := by
  refine Does.routine h (fun _ _ => diagonal_of_comm) fun L hL pe hpe => ?_
  simp only [hpe, true_and]
  split_ifs with hdiag
  · have hA : _ = A (j.gangId pe) := h.toMatrix_gang hpe fun q hq =>
      (hL q hq).1.buffer .wb (by decide) ▸ (hL₀ q hq).wb
    simp only [pdlatra, hA]
    refine ⟨(hL pe hpe).1.set _ _, fun _ hzero => ⟨?_, ?_⟩⟩
    · rw [Memory.put_toArrays, Arrays.set_buffer_of_ne _ (by decide)]
      exact (hL pe hpe).2 hdiag hzero
    · rw [Memory.put_toArrays, Arrays.set_buffer_self, Function.update_self]
  · exact ⟨(hL pe hpe).1.cons _, fun hdiag' => absurd hdiag' hdiag⟩

omit h hL₀ in
theorem storeFirst_does : j.Does
    (fun L => ∀ pe < j.noPe, Memory.Keeps [.trWb, .dTWbZ, .wbZ] (L₀ pe) (L pe) ∧
      (j.Diagonal br bc pe → j.gangMyPe pe .matrix2 = 0 →
        (L pe).buffer .dTWbZ 0 = R.pddot dv (R.pdgemv (A (j.gangId pe)) zv) ∧
          (L pe).buffer .trWb 0 = R.pdlatra (A (j.gangId pe))))
    (j.storeFirst R br bc)
    (fun L => ∀ pe < j.noPe, Memory.Keeps firstVars (L₀ pe) (L pe) ∧
      (j.gangMyPe pe .matrix2 = 0 → (L pe).buffer .dLdC =
        if br (j.gangId pe) = bc (j.gangId pe) then
          Function.update ((L₀ pe).buffer .dLdC) (br (j.gangId pe))
            (R.firstDerivative dv zv (A (j.gangId pe)))
        else (L₀ pe).buffer .dLdC)) := by
  refine Does.computeIf fun L hL pe hpe => ?_
  simp only [hpe, true_and]
  have hbefore : (L pe).buffer .dLdC = (L₀ pe).buffer .dLdC := (hL pe hpe).1.buffer _ (by decide)
  split_ifs with hroot hdiag hdiag
  · obtain ⟨hdot, htrace⟩ := (hL pe hpe).2 hdiag hroot.2
    refine ⟨(hL pe hpe).1.set _ _, fun _ => ?_⟩
    rw [Memory.put_toArrays, Arrays.set_buffer_self, hdot, htrace, hbefore,
      Library.firstDerivative]
  · exact absurd hroot.1 hdiag
  · exact ⟨(hL pe hpe).1.cons _, fun hzero => absurd ⟨hdiag, hzero⟩ hroot⟩
  · exact ⟨(hL pe hpe).1.cons _, fun _ => hbefore⟩

/-- **The first derivatives.** -/
theorem dbydCFirst_does : j.Does (fun L => L = L₀) (j.dbydCFirst R br bc)
    (fun L => ∀ pe < j.noPe, Memory.Keeps firstVars (L₀ pe) (L pe) ∧
      (j.gangMyPe pe .matrix2 = 0 → (L pe).buffer .dLdC =
        if br (j.gangId pe) = bc (j.gangId pe) then
          Function.update ((L₀ pe).buffer .dLdC) (br (j.gangId pe))
            (R.firstDerivative dv zv (A (j.gangId pe)))
        else (L₀ pe).buffer .dLdC)) :=
  (pdgemv_does h hL₀).seq ((pddot_does h hL₀).seq ((pdlatra_does h hL₀).seq storeFirst_does))

/-! ## The second derivatives -/

variable (hB : ∀ id, br id = bc id → B id = A id)

include hB in
theorem pdtran_does : j.Does (fun L => L = L₀)
    (j.routine .matrix2 R (j.Diagonal br bc) (j.pdtran .matrix2 R .wb .wTb))
    (fun L => ∀ pe < j.noPe, Memory.Keeps [.wTb] (L₀ pe) (L pe) ∧
      Transposed R B br bc pe (L₀ pe) (L pe)) := by
  refine Does.routine h (fun _ _ => diagonal_of_comm) ?_
  rintro L rfl pe hpe
  simp only [hpe, true_and]
  split_ifs with hdiag
  · have hA := h.toMatrix_gang hpe fun q hq => (hL₀ q hq).wb
    simp only [pdtran, hA]
    refine ⟨keeps_storeMatrix _ _ _ _, ?_⟩
    rw [Transposed, if_pos hdiag, hB _ hdiag]
    exact isPart_storeMatrix _ _ _ _
  · exact ⟨.refl _ _, by rw [Transposed, if_neg hdiag]⟩

omit h in
/-- The sum of one process. -/
theorem localDot_does (hrange : j.NoOverflow) : j.Does
    (fun L => ∀ pe < j.noPe, Memory.Keeps [.wTb] (L₀ pe) (L pe) ∧
      Transposed R B br bc pe (L₀ pe) (L pe))
    (j.localDot R br bc)
    (fun L => ∀ pe < j.noPe, Memory.Keeps [.myTrWbrWbc, .wTb] (L₀ pe) (L pe) ∧
      Transposed R B br bc pe (L₀ pe) (L pe) ∧ (j.Lower br bc pe →
        (L pe).buffer .myTrWbrWbc 0 = R.ddot
          (contents (j.part .matrix2 pe (R.entries (A (j.gangId pe)))) (j.share .matrix2 pe))
          (contents (j.part .matrix2 pe (R.entries (R.pdtran (B (j.gangId pe)))))
            (j.share .matrix2 pe)))) := by
  refine Does.computeIf fun L hL pe hpe => ?_
  simp only [hpe, true_and]
  obtain ⟨hkeeps, hturned⟩ := hL pe hpe
  split_ifs with hle
  · have hwTb : j.IsPart .matrix2 pe (R.entries (R.pdtran (B (j.gangId pe))))
        ((L pe).buffer .wTb) := by
      rw [Transposed] at hturned
      split_ifs at hturned with hdiag
      · exact hturned
      · rw [hturned]
        exact (hL₀ pe hpe).wTb (by omega)
    refine ⟨hkeeps.set _ _, hturned.set (by decide) _, fun _ => ?_⟩
    rw [Memory.put_toArrays, Arrays.set_buffer_self, Function.update_self, hrange.elm_eq,
      hkeeps.buffer .wb (by decide), (hL₀ pe hpe).wb.contents_eq, hwTb.contents_eq]
  · exact ⟨hkeeps.cons _, hturned, fun hle' => absurd hle' hle⟩

omit hL₀ in
theorem Valid.members_gang {pe : Nat} (hpe : pe < j.noPe) : j.members (j.comm .matrix2 pe) =
    (List.range (j.gangPe .matrix2)).map (j.gangId pe * j.gangPe .matrix2 + ·) := by
  refine (List.pairwise_lt_range.filter _).eq_of_mem_iff
    (List.pairwise_lt_range.map _ fun _ _ hlt => Nat.add_lt_add_left hlt _) fun x => ?_
  simp only [List.mem_filter, List.mem_range, decide_eq_true_eq, List.mem_map]
  constructor
  · rintro ⟨-, hid⟩
    refine ⟨j.gangMyPe x .matrix2, Nat.mod_lt _ (h.gangPe_pos .matrix2), ?_⟩
    rw [← hid]
    exact inGang_self x
  · rintro ⟨q, hq, rfl⟩
    have hid : j.gangId (j.gangId pe * j.gangPe .matrix2 + q) = j.gangId pe :=
      mul_add_div (h.gangPe_pos .matrix2) hq
    refine ⟨?_, hid⟩
    rw [h.noPe_eq, ← Nat.div_lt_iff_lt_mul (h.gangPe_pos .matrix2)]
    exact hid.trans_lt (h.gangId_lt hpe)

omit hL₀ in
/-- The sums of the processes of a gang are those of the first gang. -/
theorem mpiSum_gang {pe : Nat} (hpe : pe < j.noPe) (f : Nat → α) (C D : j.Square α)
    (hf : ∀ y ∈ j.members (j.comm .matrix2 pe), f y = R.ddot
      (contents (j.part .matrix2 y (R.entries C)) (j.share .matrix2 y))
      (contents (j.part .matrix2 y (R.entries (R.pdtran D))) (j.share .matrix2 y))) :
    R.mpiSum ((j.members (j.comm .matrix2 pe)).map f) = R.traceProduct C D := by
  rw [List.map_congr_left hf, h.members_gang hpe, List.map_map, Library.traceProduct]
  refine congrArg R.mpiSum (List.map_congr_left fun q hq => ?_)
  have hq : q < j.gangPe .matrix2 := List.mem_range.mp hq
  have hself : j.gangId pe * j.gangPe .matrix2 + q = j.inGang (j.gangId pe) q := by
    rw [inGang, gangMyPe, Nat.mod_eq_of_lt hq]
  simp only [Function.comp, hself, h.part_inGang, h.share_inGang]

omit hL₀ in
/-- The sum of the gang, which process 0 gets. -/
theorem reduce_does : j.Does
    (fun L => ∀ pe < j.noPe, Memory.Keeps [.myTrWbrWbc, .wTb] (L₀ pe) (L pe) ∧
      Transposed R B br bc pe (L₀ pe) (L pe) ∧ (j.Lower br bc pe →
        (L pe).buffer .myTrWbrWbc 0 = R.ddot
          (contents (j.part .matrix2 pe (R.entries (A (j.gangId pe)))) (j.share .matrix2 pe))
          (contents (j.part .matrix2 pe (R.entries (R.pdtran (B (j.gangId pe)))))
            (j.share .matrix2 pe))))
    (j.mpiReduce R (j.Lower br bc) (j.comm .matrix2) (fun pe => j.gangMyPe pe .matrix2 = 0)
      .myTrWbrWbc .trWbrWbc 1)
    (fun L => ∀ pe < j.noPe, Memory.Keeps [.trWbrWbc, .myTrWbrWbc, .wTb] (L₀ pe) (L pe) ∧
      Transposed R B br bc pe (L₀ pe) (L pe) ∧
      (j.Lower br bc pe → j.gangMyPe pe .matrix2 = 0 →
        (L pe).buffer .trWbrWbc 0 = R.traceProduct (A (j.gangId pe)) (B (j.gangId pe)))) := by
  refine Does.mpiReduce (fun pe hpe hle x => ?_) fun L hL pe hpe => ?_
  · rw [mem_members_comm, List.mem_range]
    constructor
    · rintro ⟨hx, hcomm⟩
      rw [Lower, gangId_eq hcomm]
      exact ⟨⟨hx, hle⟩, hcomm⟩
    · rintro ⟨⟨hx, -⟩, hcomm⟩
      exact ⟨hx, hcomm⟩
  · obtain ⟨hkeeps, hturned, -⟩ := hL pe hpe
    simp only [hpe, true_and]
    split_ifs with hroot
    · refine ⟨hkeeps.set _ _, hturned.set (by decide) _, fun hle _ => ?_⟩
      rw [Memory.put_toArrays, Arrays.set_buffer_self, if_pos Nat.zero_lt_one]
      refine mpiSum_gang h hpe _ _ _ fun y hy => ?_
      obtain ⟨hy, hcomm⟩ := (mem_members_comm .matrix2 pe y).mp hy
      have hy' := (hL y (List.mem_range.mp hy)).2.2
      rw [Lower, gangId_eq hcomm] at hy'
      exact hy' hle
    · exact ⟨hkeeps.cons _, hturned, fun hle hzero => absurd ⟨hle, hzero⟩ hroot⟩

omit h hL₀ in
theorem storeSecond_does : j.Does
    (fun L => ∀ pe < j.noPe, Memory.Keeps [.trWbrWbc, .myTrWbrWbc, .wTb] (L₀ pe) (L pe) ∧
      Transposed R B br bc pe (L₀ pe) (L pe) ∧
      (j.Lower br bc pe → j.gangMyPe pe .matrix2 = 0 →
        (L pe).buffer .trWbrWbc 0 = R.traceProduct (A (j.gangId pe)) (B (j.gangId pe))))
    (j.storeSecond R br bc)
    (fun L => ∀ pe < j.noPe, Memory.Keeps secondVars (L₀ pe) (L pe) ∧
      Transposed R B br bc pe (L₀ pe) (L pe) ∧
      (j.gangMyPe pe .matrix2 = 0 → (L pe).buffer .d2LdC2 =
        if bc (j.gangId pe) ≤ br (j.gangId pe) then
          Function.update ((L₀ pe).buffer .d2LdC2) (br (j.gangId pe) + bc (j.gangId pe) * j.noBin)
            (R.secondDerivative (A (j.gangId pe)) (B (j.gangId pe)))
        else (L₀ pe).buffer .d2LdC2)) := by
  refine Does.computeIf fun L hL pe hpe => ?_
  obtain ⟨hkeeps, hturned, htrace⟩ := hL pe hpe
  have hbefore : (L pe).buffer .d2LdC2 = (L₀ pe).buffer .d2LdC2 := hkeeps.buffer _ (by decide)
  simp only [hpe, true_and]
  split_ifs with hroot hle hle
  · refine ⟨hkeeps.set _ _, hturned.set (by decide) _, fun _ => ?_⟩
    rw [Memory.put_toArrays, Arrays.set_buffer_self, htrace hle hroot.2, hbefore,
      Library.secondDerivative]
  · exact absurd hroot.1 hle
  · exact ⟨hkeeps.cons _, hturned, fun hzero => absurd ⟨hle, hzero⟩ hroot⟩
  · exact ⟨hkeeps.cons _, hturned, fun _ => hbefore⟩

variable (hrange : j.NoOverflow)

include hrange hB

/-- **The second derivatives.** -/
theorem dbydCSecond_does : j.Does (fun L => L = L₀) (j.dbydCSecond R br bc)
    (fun L => ∀ pe < j.noPe, Memory.Keeps secondVars (L₀ pe) (L pe) ∧
      Transposed R B br bc pe (L₀ pe) (L pe) ∧
      (j.gangMyPe pe .matrix2 = 0 → (L pe).buffer .d2LdC2 =
        if bc (j.gangId pe) ≤ br (j.gangId pe) then
          Function.update ((L₀ pe).buffer .d2LdC2) (br (j.gangId pe) + bc (j.gangId pe) * j.noBin)
            (R.secondDerivative (A (j.gangId pe)) (B (j.gangId pe)))
        else (L₀ pe).buffer .d2LdC2)) :=
  (pdtran_does h hL₀ hB).seq ((localDot_does hL₀ hrange).seq
    ((reduce_does h).seq storeSecond_does))

/-- **The derivatives of one pair of bins in every gang.** -/
theorem dbydC_does : j.Does (fun L => L = L₀) (j.dbydC R br bc)
    (fun L => ∀ pe < j.noPe, Derived R A B dv zv br bc pe (L₀ pe) (L pe)) := by
  have hgiven : ∀ L₁ : Nat → Memory α,
      (∀ pe < j.noPe, Memory.Keeps firstVars (L₀ pe) (L₁ pe)) →
      ∀ pe < j.noPe, Given R A B dv zv br bc pe (L₁ pe) := fun L₁ hL₁ pe hpe =>
    (hL₀ pe hpe).of_keeps (hL₁ pe hpe) (by decide) (by decide) (by decide) (by decide)
  refine Does.seq (dbydCFirst_does h hL₀) (Does.of_start fun L₁ hL₁ =>
    (dbydCSecond_does h (hgiven L₁ fun pe hpe => (hL₁ pe hpe).1) hB hrange).conseq
      (fun L hL => hL) fun L hL pe hpe => ?_)
  obtain ⟨hkeeps, hdLdC⟩ := hL₁ pe hpe
  obtain ⟨hkeeps', hturned, htrace⟩ := hL pe hpe
  refine ⟨(hkeeps.mono ?_).trans (hkeeps'.mono ?_), fun hzero => ?_, ?_, fun hzero => ?_⟩
  · exact List.subset_append_right _ _
  · exact List.subset_append_left _ _
  · rw [hkeeps'.buffer .dLdC (by decide), hdLdC hzero]
  · rw [Transposed, hkeeps.buffer .wTb (by decide)] at hturned
    exact hturned
  · rw [htrace hzero, hkeeps.buffer .d2LdC2 (by decide)]

end Call

/-! ## Exact arithmetic -/

section Exact

variable [Field α] (h : j.Valid)

include h

/-- **The sum over all elements of a matrix**, process by process. -/
theorem sum_gang (F : Nat → Nat → α) :
    ((List.range (j.gangPe .matrix2)).map fun q => ∑ n ∈ range (j.share .matrix2 q),
      j.part .matrix2 q F n).sum = ∑ r ∈ range j.noPix, ∑ c ∈ range j.noPix, F r c := by
  have hn : ∀ c < j.side .matrix2, ∀ r, r < numroc j.noPix j.sblocksize c (j.side .matrix2) ↔
      globalIndex j.sblocksize (j.side .matrix2) c r < j.noPix :=
    fun c hc r => lt_numroc_iff h.sblocksize hc
  rw [← sum_dealt_square h.sblocksize (h.side_pos .matrix2) hn F, h.side_sq]
  change ∑ q ∈ range (j.gangPe .matrix2), _ = _
  refine sum_congr rfl fun q hq => ?_
  have hmyPe : j.gangMyPe q .matrix2 = q := Nat.mod_eq_of_lt (mem_range.mp hq)
  simp only [share, part, globalRow, globalCol, myNoRow, peRow, peCol, hmyPe]

/-- The trace of the product of two matrices. -/
theorem traceProduct_eq (hR : R.Exact) (A B : j.Square α) :
    R.traceProduct A B = (A * B).trace := by
  have hdot : ∀ q, R.ddot (contents (j.part .matrix2 q (R.entries A)) (j.share .matrix2 q))
      (contents (j.part .matrix2 q (R.entries (R.pdtran B))) (j.share .matrix2 q)) =
        ∑ n ∈ range (j.share .matrix2 q),
          j.part .matrix2 q (fun r c => R.entries A r c * R.entries B c r) n := by
    intro q
    have htran : ∀ r c, R.entries (R.pdtran B) r c = R.entries B c r := by
      intro r c
      simp only [Library.entries, hR.pdtran, Matrix.transpose_apply, and_comm]
    rw [hR.ddot]
    simp only [contents, List.zipWith_map, List.zipWith_self, part, htran]
    rfl
  simp only [Library.traceProduct, hdot, hR.mpiSum]
  rw [sum_gang h fun r c => R.entries A r c * R.entries B c r, Matrix.trace,
    ← Fin.sum_univ_eq_sum_range fun r => ∑ c ∈ range j.noPix, R.entries A r c * R.entries B c r]
  refine sum_congr rfl fun r _ => ?_
  rw [Matrix.diag_apply, Matrix.mul_apply,
    ← Fin.sum_univ_eq_sum_range fun c => R.entries A r c * R.entries B c r]
  refine sum_congr rfl fun c _ => ?_
  rw [entries_apply R A r.isLt c.isLt, entries_apply R B c.isLt r.isLt]

end Exact

end Job

end CacheTrace.Madbench
