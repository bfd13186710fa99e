import CacheTrace.Madbench.Route
import Mathlib.LinearAlgebra.Matrix.NonsingularInverse

/-!
# Routines on distributed matrices

The build without `-D IO` calls ScaLAPACK on the matrices of a gang. A call is a collective
operation: every process lends its arrays, the matrices are put together from them, and every
process stores its part of the result. A vector is distributed like the first column of a matrix.

What the routines compute is not a part of the program. `Library` has a function on whole matrices
for every one of them, and the arithmetic of doubles, and nothing is assumed about these functions
here: what the program does with them holds for floating point numbers as well. `Library.Exact`
says that they are the operations of a field, so that sums and products are exact and the order in
which a library adds up does not matter.
-/

namespace CacheTrace.Madbench

open Cyclic Buffer Message

variable {α : Type}

/-- The matrices of the job. -/
abbrev Job.Square (j : Job) (α : Type) : Type := Matrix (Fin j.noPix) (Fin j.noPix) α

/-- The vectors of the job. -/
abbrev Job.Vec (j : Job) (α : Type) : Type := Fin j.noPix → α

/-- The arithmetic and the libraries that the program is linked with. -/
structure Library (j : Job) (α : Type) where
  /-- `(double)n`, and the constants of the program that are whole numbers. -/
  ofNat : Nat → α
  /-- The constant `0.5`. -/
  half : α
  add : α → α → α
  sub : α → α → α
  mul : α → α → α
  div : α → α → α
  sin : α → α
  cos : α → α
  sqrt : α → α
  atan : α → α
  /-- The values of `drand48` after `srand48(0)`. -/
  drand48 : Nat → α
  /-- `MPI_SUM` of the contributions of the members. -/
  mpiSum : List α → α
  ddot : List α → List α → α
  /-- The matrix and the right-hand side as `dposv` leaves them. -/
  dposv : Matrix (Fin j.noBin) (Fin j.noBin) α → (Fin j.noBin → α) →
    Matrix (Fin j.noBin) (Fin j.noBin) α × (Fin j.noBin → α)
  pdpotrf : j.Square α → j.Square α
  pdpotri : j.Square α → j.Square α
  /-- `pdtran`, with the factors 1 and 0. -/
  pdtran : j.Square α → j.Square α
  pdgemr2d : j.Square α → j.Square α
  /-- `pdgemm`, with the factors 1 and 0. -/
  pdgemm : j.Square α → j.Square α → j.Square α
  /-- `pdsymv` with `uplo` set to `L` and the factors 1 and 0. -/
  pdsymv : j.Square α → j.Vec α → j.Vec α
  /-- `pdgemv`, with the factors 1 and 0. -/
  pdgemv : j.Square α → j.Vec α → j.Vec α
  pddot : j.Vec α → j.Vec α → α
  pdlatra : j.Square α → α

/-- The library where every number is `x`, and a routine leaves its matrix as it is. -/
def Library.constant (j : Job) (x : α) : Library j α where
  ofNat _ := x
  half := x
  add _ _ := x
  sub _ _ := x
  mul _ _ := x
  div _ _ := x
  sin _ := x
  cos _ := x
  sqrt _ := x
  atan _ := x
  drand48 _ := x
  mpiSum _ := x
  ddot _ _ := x
  dposv A g := (A, g)
  pdpotrf A := A
  pdpotri A := A
  pdtran A := A
  pdgemr2d A := A
  pdgemm A _ := A
  pdsymv _ y := y
  pdgemv _ y := y
  pddot _ _ := x
  pdlatra _ := x

namespace Library

variable {j : Job} (R : Library j α)

def zero : α := R.ofNat 0

def one : α := R.ofNat 1

/-- The elements of a matrix by numbers. -/
def entries (A : j.Square α) (r c : Nat) : α :=
  if h : r < j.noPix ∧ c < j.noPix then A ⟨r, h.1⟩ ⟨c, h.2⟩ else R.zero

/-- The elements of a vector by numbers. -/
def coords (x : j.Vec α) (r : Nat) : α := if h : r < j.noPix then x ⟨r, h⟩ else R.zero

/-- The matrix with the lower triangle of `A`, also above the diagonal. -/
def symmetric {n : Nat} (A : Matrix (Fin n) (Fin n) α) : Matrix (Fin n) (Fin n) α :=
  .of fun r c => if c ≤ r then A r c else A c r

/-- The numbers are those of a field, and the routines compute what they stand for. -/
structure Exact [Field α] : Prop where
  ofNat : ∀ n : Nat, R.ofNat n = n
  half : R.half = 1 / (2 : Nat)
  add : ∀ x y, R.add x y = x + y
  sub : ∀ x y, R.sub x y = x - y
  mul : ∀ x y, R.mul x y = x * y
  div : ∀ x y, R.div x y = x / y
  mpiSum : ∀ xs, R.mpiSum xs = xs.sum
  ddot : ∀ xs ys, R.ddot xs ys = (List.zipWith (· * ·) xs ys).sum
  pdtran : ∀ A, R.pdtran A = A.transpose
  pdgemm : ∀ A B, R.pdgemm A B = A * B
  pdsymv : ∀ A x, R.pdsymv A x = (symmetric A).mulVec x
  pdgemv : ∀ A x, R.pdgemv A x = A.mulVec x
  pddot : ∀ x y, R.pddot x y = x ⬝ᵥ y
  pdlatra : ∀ A, R.pdlatra A = A.trace

theorem Exact.zero_eq [Field α] (hR : R.Exact) : R.zero = 0 := by
  rw [zero, hR.ofNat, Nat.cast_zero]

theorem Exact.one_eq [Field α] (hR : R.Exact) : R.one = 1 := by
  rw [one, hR.ofNat, Nat.cast_one]

end Library

namespace Job

variable (j : Job) (k : Kind)

/-- The matrix with the elements `M`. -/
def toMatrix (M : Nat → Nat → α) : j.Square α := .of fun r c => M r c

/-- The process of the gang of `pe` that has the element of row `r` and column `c`. -/
def holder (pe r c : Nat) : Nat :=
  pe - j.gangMyPe pe k +
    (owner j.sblocksize (j.side k) c * j.side k + owner j.sblocksize (j.side k) r)

/-- The index of the element there. -/
def heldAt (pe r c : Nat) : Nat :=
  localIndex j.sblocksize (j.side k) c * j.myNoRow k (j.holder k pe r c) +
    localIndex j.sblocksize (j.side k) r

/-- The arrays of the processes `L` as matrices of the gang of `pe`. -/
def gathered (L : Nat → Memory α) (pe : Nat) (v : Var) (r c : Nat) : α :=
  (L (j.holder k pe r c)).buffer v (j.heldAt k pe r c)

/-- The matrices from the contributions of the members. -/
def assemble (R : Library j α) (pe : Nat) (x : Nat → Option (Packet α)) (v : Var) (r c : Nat) : α :=
  match x (j.holder k pe r c) with
  | some (.arrays a) => a v (j.heldAt k pe r c)
  | _ => R.zero

/-- Process `pe` stores its part of the matrix `M`. -/
def storePart (pe : Nat) (M : Nat → Nat → α) (d : Nat → α) : Nat → α := fun n =>
  if n < j.share k pe then j.part k pe M n else d n

/-- Process `pe` stores its part of a vector, if it has one. -/
def storeVector (pe : Nat) (x : Nat → α) (d : Nat → α) : Nat → α := fun n =>
  if j.peCol k pe = 0 ∧ n < j.myNoRow k pe then x (j.globalRow k pe n) else d n

/-- A routine on the matrices of the gang of `k`, called by the processes with `p`. -/
def routine (R : Library j α) (p : Nat → Prop) [DecidablePred p]
    (f : Nat → (Var → Nat → Nat → α) → Arrays α → Arrays α) (pe : Nat) : List (Act α) :=
  if p pe then
    [.enter (j.comm k pe) fun s => .arrays s.buffer,
     .leave (j.comm k pe) fun x s => some (f pe (j.assemble k R pe x) s)]
  else []

variable {j} {k}

@[simp]
theorem toMatrix_apply (M : Nat → Nat → α) (r c : Fin j.noPix) : j.toMatrix M r c = M r c := rfl

theorem entries_apply (R : Library j α) (A : j.Square α) {r c : Nat} (hr : r < j.noPix)
    (hc : c < j.noPix) : R.entries A r c = A ⟨r, hr⟩ ⟨c, hc⟩ :=
  dif_pos ⟨hr, hc⟩

theorem coords_apply (R : Library j α) (x : j.Vec α) {r : Nat} (hr : r < j.noPix) :
    R.coords x r = x ⟨r, hr⟩ :=
  dif_pos hr

@[simp]
theorem toMatrix_entries (R : Library j α) (A : j.Square α) : j.toMatrix (R.entries A) = A := by
  ext r c
  rw [toMatrix_apply, entries_apply R A r.isLt c.isLt]

theorem lt_cols_mul_rows {k : Kind} {pe n : Nat} (hn : n < j.share k pe) :
    n < j.myNoCol k pe * j.myNoRow k pe := by
  rwa [Nat.mul_comm, ← share_eq]

/-- Only the rows and columns of a matrix matter. -/
theorem Valid.part_entries (h : j.Valid) (R : Library j α) {pe : Nat} (hpe : pe < j.noPe)
    (M : Nat → Nat → α) {n : Nat} (hn : n < j.share k pe) :
    j.part k pe (R.entries (j.toMatrix M)) n = j.part k pe M n := by
  have hlt := lt_cols_mul_rows hn
  have hrow : n % j.myNoRow k pe < j.myNoRow k pe := Nat.mod_lt _ (by
    rcases Nat.eq_zero_or_pos (j.myNoRow k pe) with hzero | hpos
    · rw [hzero, Nat.mul_zero] at hlt
      omega
    · exact hpos)
  have hcol : n / j.myNoRow k pe < j.myNoCol k pe := Nat.div_lt_of_lt_mul (Nat.mul_comm _ _ ▸ hlt)
  rw [part, part, entries_apply R _ (h.lt_myNoRow_iff.mp hrow) ((h.lt_myNoCol_iff hpe).mp hcol),
    toMatrix_apply]

theorem holder_matrix1 (pe r c : Nat) : j.holder .matrix1 pe r c =
    owner j.sblocksize (j.side .matrix1) c * j.side .matrix1 +
      owner j.sblocksize (j.side .matrix1) r := by
  rw [holder, gangMyPe, Nat.sub_self, Nat.zero_add]

theorem holder_matrix2 (pe r c : Nat) : j.holder .matrix2 pe r c =
    j.gangId pe * j.gangPe .matrix2 + (owner j.sblocksize (j.side .matrix2) c * j.side .matrix2 +
      owner j.sblocksize (j.side .matrix2) r) := by
  have hpe := Nat.div_add_mod pe (j.gangPe .matrix2)
  rw [holder, gangMyPe, gangId, Nat.mul_comm (pe / _)]
  congr 1
  omega

section

variable (h : j.Valid) {pe : Nat} (hpe : pe < j.noPe) (r c : Nat)

include h

theorem Valid.holder_rest_lt : owner j.sblocksize (j.side k) c * j.side k +
    owner j.sblocksize (j.side k) r < j.gangPe k := by
  have hr := owner_lt (h.side_pos k) j.sblocksize r
  have hc := owner_lt (h.side_pos k) j.sblocksize c
  have hmul := Nat.mul_le_mul_right (j.side k) hc
  rw [Nat.succ_mul] at hmul
  rw [← h.side_sq]
  omega

theorem Valid.gangMyPe_holder (pe : Nat) : j.gangMyPe (j.holder k pe r c) k =
    owner j.sblocksize (j.side k) c * j.side k + owner j.sblocksize (j.side k) r := by
  cases k with
  | matrix1 => exact holder_matrix1 pe r c
  | matrix2 =>
    rw [gangMyPe, holder_matrix2]
    exact mul_add_mod (h.holder_rest_lt r c)

theorem Valid.comm_holder (pe : Nat) : j.comm k (j.holder k pe r c) = j.comm k pe := by
  cases k with
  | matrix1 => rfl
  | matrix2 =>
    rw [comm, comm, gangId, holder_matrix2,
      mul_add_div (h.gangPe_pos .matrix2) (h.holder_rest_lt r c)]

theorem Valid.peRow_holder (pe : Nat) :
    j.peRow k (j.holder k pe r c) = owner j.sblocksize (j.side k) r := by
  rw [peRow, h.gangMyPe_holder, mul_add_mod (owner_lt (h.side_pos k) _ _)]

theorem Valid.peCol_holder (pe : Nat) :
    j.peCol k (j.holder k pe r c) = owner j.sblocksize (j.side k) c := by
  rw [peCol, h.gangMyPe_holder, mul_add_div (h.side_pos k) (owner_lt (h.side_pos k) _ _)]

include hpe

theorem Valid.holder_lt : j.holder k pe r c < j.noPe := by
  cases k with
  | matrix1 =>
    rw [holder_matrix1]
    exact h.holder_rest_lt r c
  | matrix2 =>
    have hgang := h.gangId_lt hpe
    have hid : j.gangId (j.holder .matrix2 pe r c) = j.gangId pe := by
      simpa [comm] using h.comm_holder (k := .matrix2) r c pe
    rw [← hid, gangId, Nat.div_lt_iff_lt_mul (h.gangPe_pos .matrix2), ← h.noPe_eq] at hgang
    exact hgang

theorem Valid.holder_mem : j.holder k pe r c ∈ j.members (j.comm k pe) :=
  (mem_members_comm k pe _).mpr ⟨List.mem_range.mpr (h.holder_lt hpe r c), h.comm_holder r c pe⟩

/-- The matrix that the processes of a gang have parts of. -/
theorem Valid.gathered_eq {L : Nat → Memory α} {v : Var} {M : Nat → Nat → α}
    (hL : ∀ x < j.noPe, j.comm k x = j.comm k pe → j.IsPart k x M ((L x).buffer v))
    (hr : r < j.noPix) (hc : c < j.noPix) : j.gathered k L pe v r c = M r c := by
  have hlt := h.holder_lt hpe r c (k := k)
  have hrow : j.globalRow k (j.holder k pe r c) (localIndex j.sblocksize (j.side k) r) = r := by
    rw [globalRow, h.peRow_holder, globalIndex_localIndex h.sblocksize]
  have hcol : j.globalCol k (j.holder k pe r c) (localIndex j.sblocksize (j.side k) c) = c := by
    rw [globalCol, h.peCol_holder, globalIndex_localIndex h.sblocksize]
  have hr' := h.lt_myNoRow_iff.mpr (hrow.symm ▸ hr)
  have hc' := (h.lt_myNoCol_iff hlt).mpr (hcol.symm ▸ hc)
  rw [gathered, heldAt, hL _ hlt (h.comm_holder r c pe) _ (mul_add_lt_share hr' hc'),
    part_mul_add M hr', hrow, hcol]

/-- What a routine works with. -/
theorem Valid.assemble_eq (R : Library j α) (L : Nat → Memory α) (v : Var) :
    j.assemble k R pe (fun x => if x ∈ j.members (j.comm k pe) then some (.arrays (L x).buffer)
      else none) v r c = j.gathered k L pe v r c := by
  rw [assemble, if_pos (h.holder_mem hpe r c)]
  rfl

end

theorem isPart_storePart (pe : Nat) (M : Nat → Nat → α) (d : Nat → α) :
    j.IsPart k pe M (j.storePart k pe M d) :=
  fun _ hn => if_pos hn

/-- The buffer `d` of process `pe` holds its part of the vector `x`, if it has one. -/
def IsVector (j : Job) (k : Kind) (pe : Nat) (x d : Nat → α) : Prop :=
  j.peCol k pe = 0 → ∀ n < j.myNoRow k pe, d n = x (j.globalRow k pe n)

theorem isVector_storeVector (pe : Nat) (x d : Nat → α) :
    j.IsVector k pe x (j.storeVector k pe x d) :=
  fun hcol _ hn => if_pos ⟨hcol, hn⟩

section Gathered

variable (h : j.Valid) {pe : Nat} (hpe : pe < j.noPe) {R : Library j α} {L : Nat → Memory α}
  {v : Var}

include h hpe

theorem Valid.toMatrix_gathered {A : j.Square α}
    (hL : ∀ x < j.noPe, j.comm k x = j.comm k pe → j.IsPart k x (R.entries A) ((L x).buffer v)) :
    j.toMatrix (j.gathered k L pe v) = A := by
  ext r c
  rw [toMatrix_apply, h.gathered_eq hpe r c hL r.isLt c.isLt, entries_apply R A r.isLt c.isLt]

/-- The vector that the processes of a gang have parts of. -/
theorem Valid.vector_gathered {x : j.Vec α}
    (hL : ∀ y < j.noPe, j.comm k y = j.comm k pe →
      j.IsVector k y (R.coords x) ((L y).buffer v)) :
    (fun r : Fin j.noPix => j.gathered k L pe v r 0) = x := by
  funext r
  have hlt := h.holder_lt hpe r 0 (k := k)
  have hrow : j.globalRow k (j.holder k pe r 0) (localIndex j.sblocksize (j.side k) r) = r := by
    rw [globalRow, h.peRow_holder, globalIndex_localIndex h.sblocksize]
  have hcol : j.peCol k (j.holder k pe r 0) = 0 := by
    rw [h.peCol_holder, owner, Nat.zero_div, Nat.zero_mod]
  have hzero : localIndex j.sblocksize (j.side k) 0 = 0 := by
    simp [localIndex]
  have hr' := h.lt_myNoRow_iff.mpr (hrow.symm ▸ r.isLt)
  rw [gathered, heldAt, hzero, Nat.zero_mul, Nat.zero_add,
    hL _ hlt (h.comm_holder r 0 pe) hcol _ hr', hrow, coords_apply R x r.isLt]

end Gathered

/-- **The rule for routines.** Gangs take part as a whole. -/
theorem Does.routine (h : j.Valid) {R : Library j α} {p : Nat → Prop} [DecidablePred p]
    (hp : ∀ x y, j.comm k x = j.comm k y → p x → p y)
    {f : Nat → (Var → Nat → Nat → α) → Arrays α → Arrays α} {I J : (Nat → Memory α) → Prop}
    (hstep : ∀ L, I L → J fun pe =>
      if pe < j.noPe ∧ p pe then (L pe).put (f pe (j.gathered k L pe) (L pe).toArrays)
      else L pe) :
    j.Does I (j.routine k R p f) J := by
  refine (Does.collective_some (c := j.comm k) (fun pe _ hpe x => ?_) (fun _ s => .arrays s.buffer)
    (fun pe x s => f pe (j.assemble k R pe x) s) fun L hL => ?_).of_eq fun _ _ => rfl
  · rw [mem_members_comm, List.mem_range]
    exact ⟨fun hx => ⟨⟨hx.1, hp _ _ hx.2.symm hpe⟩, hx.2⟩, fun hx => ⟨hx.1.1, hx.2⟩⟩
  · convert hstep L hL using 2 with pe
    by_cases hpe : pe < j.noPe ∧ p pe
    · rw [if_pos hpe, if_pos hpe]
      congr 2
      funext v r c
      exact h.assemble_eq hpe.1 r c R L v
    · rw [if_neg hpe, if_neg hpe]

/-! ## The routines -/

section Routines

variable (j) (k) (R : Library j α)

/-- The array `a` becomes the result of a routine on matrices. -/
def storeMatrix (A : j.Square α) (a : Var) (pe : Nat) (s : Arrays α) : Arrays α :=
  s.set a (j.storePart k pe (R.entries A) (s.buffer a))

/-- The array `y` becomes the result of a routine on vectors. -/
def storeVec (x : j.Vec α) (y : Var) (pe : Nat) (s : Arrays α) : Arrays α :=
  s.set y (j.storeVector k pe (R.coords x) (s.buffer y))

/-- `pdpotrf`, in the place of `a`. -/
def pdpotrf (a : Var) (pe : Nat) (M : Var → Nat → Nat → α) : Arrays α → Arrays α :=
  j.storeMatrix k R (R.pdpotrf (j.toMatrix (M a))) a pe

/-- `pdpotri`, in the place of `a`. -/
def pdpotri (a : Var) (pe : Nat) (M : Var → Nat → Nat → α) : Arrays α → Arrays α :=
  j.storeMatrix k R (R.pdpotri (j.toMatrix (M a))) a pe

/-- `pdtran`: `c` becomes the transposed matrix of `a`. -/
def pdtran (a c : Var) (pe : Nat) (M : Var → Nat → Nat → α) : Arrays α → Arrays α :=
  j.storeMatrix k R (R.pdtran (j.toMatrix (M a))) c pe

/-- `pdgemm`: `c` becomes the product of `a` and `b`. -/
def pdgemm (a b c : Var) (pe : Nat) (M : Var → Nat → Nat → α) : Arrays α → Arrays α :=
  j.storeMatrix k R (R.pdgemm (j.toMatrix (M a)) (j.toMatrix (M b))) c pe

/-- `pdsymv`: `y` becomes the product of `a` and `u`. -/
def pdsymv (a u y : Var) (pe : Nat) (M : Var → Nat → Nat → α) : Arrays α → Arrays α :=
  j.storeVec k R (R.pdsymv (j.toMatrix (M a)) fun r => M u r 0) y pe

/-- `pdgemv`: `y` becomes the product of `a` and `u`. -/
def pdgemv (a u y : Var) (pe : Nat) (M : Var → Nat → Nat → α) : Arrays α → Arrays α :=
  j.storeVec k R (R.pdgemv (j.toMatrix (M a)) fun r => M u r 0) y pe

/-- `pddot`. The number is returned to the processes that have parts of the vectors. -/
def pddot (v u y : Var) (pe : Nat) (M : Var → Nat → Nat → α) (s : Arrays α) : Arrays α :=
  if j.peCol k pe = 0 then
    s.set v (Function.update (s.buffer v) 0 (R.pddot (fun r => M u r 0) fun r => M y r 0))
  else s

/-- `pdlatra` -/
def pdlatra (v a : Var) (_ : Nat) (M : Var → Nat → Nat → α) (s : Arrays α) : Arrays α :=
  s.set v (Function.update (s.buffer v) 0 (R.pdlatra (j.toMatrix (M a))))

/-- `MPI_Reduce` of `count` numbers with `MPI_SUM`, to the first member of the communicator. -/
def mpiReduce (p : Nat → Prop) [DecidablePred p] (c : Nat → Comm) (root : Nat → Prop)
    [DecidablePred root] (source target : Var) (count pe : Nat) : List (Act α) :=
  if p pe then
    [.enter (c pe) fun s => .doubles (contents (s.buffer source) count),
     .leave (c pe) fun x s => some <|
      if root pe then
        s.set target fun n => if n < count then
            R.mpiSum ((j.members (c pe)).map fun y => match x y with
              | some (.doubles xs) => xs.getD n R.zero
              | _ => R.zero)
          else s.buffer target n
      else s]
  else []

/-- `MPI_Bcast` from gang 0 to the processes with the same number in the other gangs. -/
def mpiBcast (v : Var) (count : Nat → Nat) (pe : Nat) : List (Act α) :=
  [.enter (.g2pe (j.gangMyPe pe .matrix2)) fun s =>
    if j.gangId pe = 0 then .doubles (contents (s.buffer v) (count pe)) else .nothing,
   .leave (.g2pe (j.gangMyPe pe .matrix2)) fun x s =>
    match x (j.gangMyPe pe .matrix2) with
    | some m => s.receive v (count pe) m
    | none => none]

variable {j} {k} {R}

theorem isPart_storeMatrix (A : j.Square α) (a : Var) (pe : Nat) (s : Arrays α) :
    j.IsPart k pe (R.entries A) ((j.storeMatrix k R A a pe s).buffer a) := by
  rw [storeMatrix, Arrays.set_buffer_self]
  exact isPart_storePart pe _ _

theorem isVector_storeVec (x : j.Vec α) (y : Var) (pe : Nat) (s : Arrays α) :
    j.IsVector k pe (R.coords x) ((j.storeVec k R x y pe s).buffer y) := by
  rw [storeVec, Arrays.set_buffer_self]
  exact isVector_storeVector pe _ _

theorem keeps_storeMatrix (A : j.Square α) (a : Var) (pe : Nat) (s : Memory α) :
    Memory.Keeps [a] s (s.put (j.storeMatrix k R A a pe s.toArrays)) :=
  Memory.keeps_set s a _

theorem keeps_storeVec (x : j.Vec α) (y : Var) (pe : Nat) (s : Memory α) :
    Memory.Keeps [y] s (s.put (j.storeVec k R x y pe s.toArrays)) :=
  Memory.keeps_set s y _

/-- The rule for broadcasts. -/
theorem Does.mpiBcast (h : j.Valid) {v : Var} {count : Nat → Nat}
    (hcount : ∀ pe < j.noPe, count (j.gangMyPe pe .matrix2) = count pe)
    {I J : (Nat → Memory α) → Prop}
    (hstep : ∀ L, I L → J fun pe => if pe < j.noPe then
        (L pe).put ((L pe).toArrays.set v (load (contents
          ((L (j.gangMyPe pe .matrix2)).buffer v) (count pe)) ((L pe).buffer v)))
      else L pe) :
    j.Does I (j.mpiBcast v count) J := by
  refine (Does.collective (p := fun _ => True) (c := fun pe => .g2pe (j.gangMyPe pe .matrix2))
    (fun pe _ _ x => ?_) (fun pe s => if j.gangId pe = 0 then
      .doubles (contents (s.buffer v) (count pe)) else .nothing)
    (fun pe x s => match x (j.gangMyPe pe .matrix2) with
      | some m => s.receive v (count pe) m
      | none => none) fun L hL => ⟨fun pe => (L pe).toArrays.set v (load (contents
          ((L (j.gangMyPe pe .matrix2)).buffer v) (count pe)) ((L pe).buffer v)),
        fun pe hpe _ => ?_, ?_⟩).of_eq fun pe _ => (if_pos trivial).symm
  · simp [members]
  · have hlt := h.gangMyPe_lt hpe .matrix2
    have hself : j.gangMyPe (j.gangMyPe pe .matrix2) .matrix2 = j.gangMyPe pe .matrix2 :=
      Nat.mod_eq_of_lt hlt
    have hfirst : j.gangId (j.gangMyPe pe .matrix2) = 0 := Nat.div_eq_of_lt hlt
    have hmem : j.gangMyPe pe .matrix2 ∈ j.members (.g2pe (j.gangMyPe pe .matrix2)) := by
      simp only [members, List.mem_filter, List.mem_range, decide_eq_true_eq]
      exact ⟨Nat.lt_of_le_of_lt (Nat.mod_le _ _) hpe, hself⟩
    simp only [hmem, if_true, hfirst, hcount pe hpe, Arrays.receive_doubles]
  · simpa using hstep L hL

/-- **The rule for reductions.** -/
theorem Does.mpiReduce {p : Nat → Prop} [DecidablePred p] {c : Nat → Comm}
    (hc : ∀ pe < j.noPe, p pe → ∀ x, x ∈ j.members (c pe) ↔ (x < j.noPe ∧ p x) ∧ c x = c pe)
    {root : Nat → Prop} [DecidablePred root] {source target : Var} {count : Nat}
    {I J : (Nat → Memory α) → Prop}
    (hstep : ∀ L, I L → J fun pe => if pe < j.noPe ∧ p pe ∧ root pe then
        (L pe).put ((L pe).toArrays.set target fun n => if n < count then
            R.mpiSum ((j.members (c pe)).map fun y => (L y).buffer source n)
          else (L pe).buffer target n)
      else L pe) :
    j.Does I (j.mpiReduce R p c root source target count) J := by
  refine (Does.collective_some hc (fun _ s => .doubles (contents (s.buffer source) count))
    (fun pe x s => if root pe then
      s.set target fun n => if n < count then
          R.mpiSum ((j.members (c pe)).map fun y => match x y with
            | some (.doubles xs) => xs.getD n R.zero
            | _ => R.zero)
        else s.buffer target n
      else s) fun L hL => ?_).of_eq fun _ _ => rfl
  convert hstep L hL using 2 with pe
  by_cases hroot : root pe
  · simp only [hroot, if_true, and_true]
    by_cases hpe : pe < j.noPe ∧ p pe
    · rw [if_pos hpe, if_pos hpe]
      congr 2
      funext n
      by_cases hn : n < count
      · rw [if_pos hn, if_pos hn]
        refine congrArg R.mpiSum (List.map_congr_left fun y hy => ?_)
        simp [hy, contents, List.getD, hn]
      · rw [if_neg hn, if_neg hn]
    · rw [if_neg hpe, if_neg hpe]
  · simp [hroot]

end Routines

end Job

end CacheTrace.Madbench
