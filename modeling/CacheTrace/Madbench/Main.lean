import CacheTrace.Madbench.BuildS
import CacheTrace.Madbench.CalcDC
import CacheTrace.Madbench.CalcW
import CacheTrace.Madbench.InvertD

/-!
# The whole program

The functions of `main` one after the other, with the barriers between them, and what they come to
in a build with `-D COMPUTE` and without `-D IO`. The numbers are those of the library, in the order
in which the program combines them (`main_does`).

In exact arithmetic, with routines that invert and solve, the program makes one step of Newton's
method. With the derivatives `dS b` of the signal, their sum `D` with the noise, and the data `d`,
the matrices are `W b = D⁻¹ * dS b`, and the correction `dC` of process 0 is the solution of
`∑ c, tr (W b * W c) * dC c = dᵀ (W b) D⁻¹ d - tr (W b)` (`main_ends`).
-/

namespace CacheTrace.Madbench

open Cyclic Buffer Message Legendre Finset

variable {α : Type}

namespace Library

variable {j : Job} (R : Library j α)

/-- The inverse that `invert_D` leaves. -/
def invD : j.Square α := R.inverse (R.signal j.noBin)

/-- The matrix `W` that `calc_W` writes for bin `b`. -/
def weighted (b : Nat) : j.Square α := R.pdgemm R.invD (j.toMatrix (R.binDerivative b))

/-- The vector `z` of `calc_W`. -/
def dataSolution : j.Vec α := R.pdsymv R.invD (Job.ones R)

end Library

namespace Job

variable (j : Job) (R : Library j α) (build : Build)

/-- `main` between `initialize` and `finalize`. -/
def main (pe : Nat) : List (Act α) :=
  j.barrier .matrix1 pe ++ (j.buildS R build pe ++ (j.barrier .matrix1 pe ++
  ((if build.io then [] else j.invertD R pe ++ j.barrier .matrix1 pe) ++
  (j.calcW R build pe ++ (j.barrier .matrix1 pe ++
  (j.calcDC R build pe ++ j.barrier .matrix1 pe))))))

variable {j} {R} {build}

/-- Process `pe` after `initialize`. -/
structure Initialized (R : Library j α) (pe : Nat) (s : Memory α) : Prop where
  mspace : ∀ n < j.share .matrix1 pe, s.buffer .mspace n = R.zero
  globals : s.globals = j.globals

theorem Initialized.hasRecords (h : j.Valid) {pe : Nat} {s : Memory α} (hs : Initialized R pe s) :
    j.HasRecords pe s :=
  ⟨_, _, .start, hs.globals.trans h.globals_eq⟩

/-- The processes after `main`: the correction in process 0, and the matrices `W` in the files. -/
structure Finished (R : Library j α) (L : Nat → Memory α) : Prop where
  corrected : Corrected R (ones R) R.dataSolution R.weighted (L 0)
  file : ∀ pe < j.noPe, ∀ c < j.noBin / j.noGang, j.Stored .matrix2 pe c
    (R.entries (R.weighted (c * j.noGang + j.gangId pe))) (L pe).file

/-- **The functions of `main` together.** -/
theorem main_does (h : j.Valid) (hrange : j.NoOverflow) (hbuild : j.Computes R build)
    (hr : ∀ k, j.ioMod .r ∣ j.gangPe k) (hw : ∀ k, j.ioMod .w ∣ j.gangPe k) (hwhole : j.Whole)
    {L₀ : Nat → Memory α} (hL₀ : ∀ pe < j.noPe, Initialized R pe (L₀ pe)) :
    j.Does (fun L => L = L₀) (j.main R build) (Finished R) := by
  -- what is in the files when `calc_W` begins
  have hstored : ∀ pe < j.noPe, ∀ (s₁ s₂ : Memory α), Built R j.noBin pe (L₀ pe) s₁ →
      s₂.file = s₁.file → ∀ b < j.noBin,
        j.Stored .matrix1 pe b (R.entries (j.toMatrix (R.binDerivative b))) s₂.file := by
    intro pe hpe s₁ s₂ hs₁ hfile b hb n hn
    rw [hfile, hs₁.file b hb n hn, h.part_entries R hpe _ hn]
  refine (Does.barrier .matrix1).seq (Does.seq (buildS_does h hrange (hw .matrix1) hbuild.io
    fun pe hpe => (hL₀ pe hpe).mspace) (Does.seq (Does.barrier .matrix1)
    (Does.of_start fun L₁ hL₁ => Does.seq (((invertD_does h fun pe hpe =>
      (hL₁ pe hpe).mspace).seq (Does.barrier .matrix1)).of_eq fun pe _ =>
        if_neg (ne_true_of_eq_false hbuild.io))
    (Does.of_start fun L₂ hL₂ => Does.seq (calcW_does h hrange hbuild
      (fun pe hpe => (hL₂ pe hpe).2) (hr .matrix1) (hw .matrix2) hwhole
      (fun b => j.toMatrix (R.binDerivative b)) (fun pe hpe => ?_) (fun pe hpe => ?_))
    (Does.seq (Does.barrier .matrix1) (Does.of_start fun L₃ hL₃ => ((calcDC_does
      (W := R.weighted) hbuild.io h hrange (hr .matrix2) hwhole
      (fun pe hpe => (hL₃ pe hpe).records) (fun pe hpe => (hL₃ pe hpe).file)
      (fun pe hpe => (hL₃ pe hpe).d) fun pe hpe => (hL₃ pe hpe).z).seq
      (Does.barrier .matrix1)).conseq (fun L hL => hL) fun L hL =>
        ⟨hL.2, fun pe hpe c hc => ?_⟩))))))
  · exact ((hL₀ pe hpe).hasRecords h).of_eq
      ((hL₂ pe hpe).1.globals.trans (hL₁ pe hpe).globals)
  · exact hstored pe hpe (L₁ pe) (L₂ pe) (hL₁ pe hpe) (hL₂ pe hpe).1.file
  · rw [(hL.1 pe hpe).file]
    exact (hL₃ pe hpe).file c hc

end Job

/-! ## Exact arithmetic -/

namespace Library

variable [Field α] {j : Job} (R : Library j α)

/-- The derivative of the signal for bin `b`. -/
def derivative (b : Nat) : j.Square α := .of fun r c =>
  (∑ l ∈ Ico (1 + b * binwidth) (1 + (b + 1) * binwidth), term (R.cosChi r c) l) * R.invFourPi

/-- `D`, the signal with the noise. -/
def covariance : j.Square α := ∑ b ∈ range j.noBin, R.derivative b + 1

/-- `W` of bin `b`. -/
noncomputable def weight (b : Nat) : j.Square α := R.covariance⁻¹ * R.derivative b

variable {R} [CharZero α] (hR : R.Exact)

include hR

theorem toMatrix_binDerivative (b : Nat) : j.toMatrix (R.binDerivative b) = R.derivative b := by
  ext r c
  exact binDerivative_eq hR b r c

theorem toMatrix_signal : j.toMatrix (R.signal j.noBin) + 1 = R.covariance := by
  rw [covariance]
  congr 1
  ext r c
  rw [Job.toMatrix_apply, signal_eq hR, Matrix.sum_apply]
  exact sum_congr rfl fun b _ => binDerivative_eq hR b r c

/-- The matrices are those of the statement when the routines invert. -/
theorem invD_eq (hpotri : ∀ r c, c ≤ r →
    R.pdpotri (R.pdpotrf R.covariance) r c = R.covariance⁻¹ r c) : R.invD = R.covariance⁻¹ := by
  rw [← toMatrix_signal hR] at hpotri ⊢
  exact Job.inverse_eq hR (signal_comm hR j.noBin) hpotri

omit [CharZero α] in
/-- The completed inverse is symmetric. -/
theorem symmetric_invD : symmetric R.invD = R.invD := by
  ext r c
  by_cases hle : c ≤ r
  · rw [symmetric, Matrix.of_apply, if_pos hle]
  · have hlt : r < c := not_le.mp hle
    rw [symmetric, Matrix.of_apply, if_neg hle, invD, inverse, hR.pdtran]
    simp only [Matrix.of_apply, if_pos hlt, if_neg hlt.not_gt, Matrix.transpose_apply]

end Library

/-- Exact arithmetic for three pixels in the same place and one bin, whose derivative is the matrix
of ones. -/
def samePlace : Library (nineJob 1 1 72) ℚ where
  ofNat n := n
  half := 1 / 2
  add := (· + ·)
  sub := (· - ·)
  mul := (· * ·)
  div := (· / ·)
  sin _ := 0
  cos _ := 1
  sqrt x := x
  atan _ := 15 / 2
  drand48 _ := 0
  mpiSum := List.sum
  ddot xs ys := (List.zipWith (· * ·) xs ys).sum
  dposv A g := (A, fun r => g r / A r r)
  pdpotrf D := D
  pdpotri _ := .of fun r c => if r = c then 3 / 4 else -1 / 4
  pdtran A := A.transpose
  pdgemr2d A := A
  pdgemm A B := A * B
  pdsymv A x := (Library.symmetric A).mulVec x
  pdgemv A x := A.mulVec x
  pddot x y := x ⬝ᵥ y
  pdlatra A := A.trace

theorem samePlace_exact : samePlace.Exact := by
  constructor <;> intros <;> rfl

theorem samePlace_inv : samePlace.covariance⁻¹ = samePlace.pdpotri samePlace.covariance :=
  Matrix.inv_eq_right_inv (by decide +kernel)

end CacheTrace.Madbench
