import CacheTrace.Message.Schedule
import CacheTrace.Madbench.Fill

/-!
# The processes of MADbench

Every process has the arrays of the program, the globals that its reads replace, and the elements
of its area of the file. The processes of `MADbench2.c` run the same functions with their own
numbers: a function is a list of actions for every process, and `Does I prog J` is the triple of
the program where every process runs it. The rules are those of `Triple`, for the communicators of
the program.

A call of `io_distmatrix` is one step here: it reads or writes elements, and a read has no result
when the records do not make up the share, where the program aborts. The calls as programs on
files, where all numbers are those of the machine, are in `Madbench.Machine`.

The programs are those of the mode `SYNC`. What is compiled depends on the macros `IO`, which
replaces most computations by `busy_work`, and `COMPUTE` (`Build`).
-/

namespace CacheTrace.Madbench

open Buffer Message Machine

/-- The arrays and numbers of a process that messages or matrix routines read or write. -/
inductive Var where
  | mspace
  | dSdCb
  | lpLminus1
  | lpL
  | wbuffer
  | invDT
  | invD2
  | wb
  | rbuffer
  | grbuffer
  | gmbuffer
  | recvData1
  | d
  | z
  | wbZ
  | wTb
  | mpiBuffer
  | dTWbZ
  | trWb
  | myTrWbrWbc
  | trWbrWbc
  | dLdC
  | d2LdC2
  | tmp
  | x
  deriving DecidableEq

/-- The argument `rw` of `io_distmatrix`. -/
inductive Rw where
  | r
  | w
  deriving DecidableEq

/-- A call of `io_distmatrix`, with the array that it reads or writes. -/
structure Access where
  kind : Kind
  rw : Rw
  data : Var
  rank : Nat
  deriving DecidableEq

/-- What the functions of a process read and write, apart from the calls of `io_distmatrix`. -/
structure Arrays (α : Type) where
  buffer : Var → Nat → α
  spm1 : Extent

/-- The memory of a process, with the elements of its area of the file. -/
structure Memory (α : Type) extends Arrays α where
  globals : Globals
  file : Nat → Option α

/-- The variable `REMAP` of the environment. -/
inductive RemapMode where
  | scalapack
  | custom
  deriving DecidableEq

/-- The macros that the program is compiled with, and the variable `REMAP`. -/
structure Build where
  io : Bool
  compute : Bool
  remap : RemapMode
  deriving DecidableEq

/-- What a message or a contribution to a collective operation carries. -/
inductive Packet (α : Type) where
  | nothing
  | token
  | matrix (m : Extent)
  | doubles (xs : List α)
  /-- The arrays that a matrix routine reads. -/
  | arrays (a : Var → Nat → α)

/-- `MPI_COMM_WORLD`, which is also `gang1.comm`, the `gang2.comm` of every gang, and the
`g2pe_comm` of the processes with one number in their gangs. -/
inductive Comm where
  | world
  | gang (id : Nat)
  | g2pe (myPe : Nat)
  deriving DecidableEq

/-- The actions of a process. A tag belongs to a communicator. -/
abbrev Act (α : Type) := Action Nat (Comm × Nat) (Packet α) (Arrays α) Comm Access

/-- The actions of all processes. -/
abbrev Acts (α : Type) := Part Nat (Comm × Nat) (Packet α) (Arrays α) Comm Access

variable {α : Type}

namespace Arrays

def set (s : Arrays α) (v : Var) (d : Nat → α) : Arrays α :=
  { s with buffer := Function.update s.buffer v d }

@[simp]
theorem set_buffer_self (s : Arrays α) (v : Var) (d : Nat → α) : (s.set v d).buffer v = d :=
  Function.update_self _ _ _

@[simp]
theorem set_buffer_of_ne (s : Arrays α) {v v' : Var} (hv : v' ≠ v) (d : Nat → α) :
    (s.set v d).buffer v' = s.buffer v' :=
  Function.update_of_ne hv _ _

@[simp]
theorem set_spm1 (s : Arrays α) (v : Var) (d : Nat → α) : (s.set v d).spm1 = s.spm1 := rfl

/-- Doubles are received into an array that has room for `count` of them. A longer message is an
error. -/
def receive (v : Var) (count : Int) (m : Packet α) (s : Arrays α) : Option (Arrays α) :=
  match m with
  | .doubles xs => if xs.length ≤ count then some (s.set v (load xs (s.buffer v))) else none
  | _ => none

/-- As many doubles are received as there is room for. -/
theorem receive_doubles (s : Arrays α) (v : Var) (d : Nat → α) (n : Nat) :
    s.receive v n (.doubles (contents d n)) =
      some (s.set v (load (contents d n) (s.buffer v))) := by
  have hlength : ((contents d n).length : Int) ≤ n := by simp [contents]
  rw [receive, if_pos hlength]

/-- A token is received. -/
def receiveToken (m : Packet α) (s : Arrays α) : Option (Arrays α) :=
  match m with
  | .token => some s
  | _ => none

/-- The first numbers of a `MATRIX` are received into `spm1`. -/
def receiveMatrix (m : Packet α) (s : Arrays α) : Option (Arrays α) :=
  match m with
  | .matrix m => some { s with spm1 := m }
  | _ => none

end Arrays

namespace Memory

/-- The arrays are replaced. -/
def put (x : Arrays α) (s : Memory α) : Memory α := { s with toArrays := x }

@[simp]
theorem put_toArrays (x : Arrays α) (s : Memory α) : (put x s).toArrays = x := rfl

@[simp]
theorem put_globals (x : Arrays α) (s : Memory α) : (put x s).globals = s.globals := rfl

@[simp]
theorem put_file (x : Arrays α) (s : Memory α) : (put x s).file = s.file := rfl

@[simp]
theorem put_self (s : Memory α) : put s.toArrays s = s := rfl

@[simp]
theorem put_put (x y : Arrays α) (s : Memory α) : put x (put y s) = put x s := rfl

/-- From `s₀` to `s` only the arrays `vs` have changed. -/
structure Keeps (vs : List Var) (s₀ s : Memory α) : Prop where
  buffer : ∀ v, v ∉ vs → s.buffer v = s₀.buffer v
  file : s.file = s₀.file
  globals : s.globals = s₀.globals

theorem Keeps.refl (vs : List Var) (s : Memory α) : Keeps vs s s := ⟨fun _ _ => rfl, rfl, rfl⟩

theorem Keeps.trans {vs : List Var} {s₀ s s' : Memory α} (h : Keeps vs s₀ s) (h' : Keeps vs s s') :
    Keeps vs s₀ s' :=
  ⟨fun v hv => (h'.buffer v hv).trans (h.buffer v hv), h'.file.trans h.file,
    h'.globals.trans h.globals⟩

theorem Keeps.mono {vs vs' : List Var} {s₀ s : Memory α} (h : Keeps vs s₀ s) (hvs : vs ⊆ vs') :
    Keeps vs' s₀ s :=
  ⟨fun v hv => h.buffer v fun hmem => hv (hvs hmem), h.file, h.globals⟩

theorem Keeps.cons {vs : List Var} {s₀ s : Memory α} (h : Keeps vs s₀ s) (v : Var) :
    Keeps (v :: vs) s₀ s :=
  h.mono (List.subset_cons_self v vs)

/-- A change of the arrays keeps the others. -/
theorem keeps_put {vs : List Var} (s : Memory α) {x : Arrays α}
    (hx : ∀ v, v ∉ vs → x.buffer v = s.buffer v) : Keeps vs s (put x s) :=
  ⟨hx, rfl, rfl⟩

theorem keeps_set (s : Memory α) (v : Var) (d : Nat → α) :
    Keeps [v] s (put (s.toArrays.set v d) s) :=
  keeps_put s fun _ hv => Arrays.set_buffer_of_ne _ (fun heq => hv (List.mem_singleton.mpr heq)) d

theorem Keeps.set {vs : List Var} {s₀ s : Memory α} (h : Keeps vs s₀ s) (v : Var) (d : Nat → α) :
    Keeps (v :: vs) s₀ (put (s.toArrays.set v d) s) :=
  (h.cons v).trans ((keeps_set s v d).mono (by simp))

end Memory

/-- The doubles of a block. -/
def Globals.doubles (g : Globals) : Nat := ((g.stride + 1) * g.recordSize).toNat / 8

/-- The globals after a read of `elm` elements. -/
def Globals.next (g : Globals) (elm : Nat) : Globals :=
  if elm < g.doubles then records elm 0 else g

theorem doubles_records (r s : Nat) : (records r s).doubles = (s + 1) * r := by
  have hblock : ((s : Int) + 1) * (8 * r) = ((8 * ((s + 1) * r) : Nat) : Int) := by
    push_cast
    ring
  rw [Globals.doubles, records, hblock]
  omega

theorem next_records (elm r s : Nat) : (records r s).next elm = left elm r s := by
  rw [Globals.next, doubles_records, left]

namespace Job

variable (j : Job)

/-- `gang2.id` -/
def gangId (pe : Nat) : Nat := pe / j.gangPe .matrix2

/-- The members of a communicator. -/
def members : Comm → List Nat
  | .world => List.range j.noPe
  | .gang id => (List.range j.noPe).filter fun pe => j.gangId pe = id
  | .g2pe myPe => (List.range j.noPe).filter fun pe => j.gangMyPe pe .matrix2 = myPe

/-- The communicator of the gang of a matrix. -/
def comm (k : Kind) (pe : Nat) : Comm :=
  match k with
  | .matrix1 => .world
  | .matrix2 => .gang (j.gangId pe)

/-- `my_no_elm` as the number of elements that are sent, copied or worked on. -/
def elm (k : Kind) (pe : Nat) : Nat := (j.myNoElm .c k pe).toNat

/-- The first numbers of `pp_matrix1` and `pp_matrix2`. -/
def ppMatrix (k : Kind) (pe : Nat) : Extent :=
  ⟨j.myNoRow k pe, j.myNoCol k pe, j.myNoElm .c k pe⟩

/-- The element of the area of a process where its part of a matrix begins. -/
def slot (k : Kind) (rank : Nat) : Nat := rank * j.distance k

/-- What `io_distmatrix` does, when no number is out of range: a write copies the part to its
place, a read copies it back if the blocks of records make it up. -/
def access (pe : Nat) (c : Access) (s : Memory α) : Option (Memory α) :=
  let elm := j.share c.kind pe
  let slot := j.slot c.kind c.rank
  match c.rw with
  | .w => some { s with file := fun n =>
      if slot ≤ n ∧ n < slot + elm then some (s.buffer c.data (n - slot)) else s.file n }
  | .r =>
    if filled elm s.globals.doubles = elm ∧ ∀ n < elm, (s.file (slot + n)).isSome then
      some { s with
        toArrays := s.toArrays.set c.data fun n =>
          if n < elm then (s.file (slot + n)).getD (s.buffer c.data n) else s.buffer c.data n
        globals := s.globals.next elm }
    else none

def platform : Platform Nat (Arrays α) (Memory α) Comm Access where
  members := j.members
  own := Memory.toArrays
  put := Memory.put
  own_put _ _ := rfl
  call := j.access

/-- `PMPI_Barrier` -/
def barrier (k : Kind) (pe : Nat) : List (Act α) :=
  [.enter (j.comm k pe) fun _ => .nothing, .leave (j.comm k pe) fun _ s => some s]

/-- The three reductions of `report_time`. The times are left out. -/
def reportTime (pe : Nat) : List (Act α) :=
  j.barrier .matrix1 pe ++ (j.barrier .matrix1 pe ++ j.barrier .matrix1 pe)

/-- `busy_work` in the gang of a matrix. What it computes between the barriers is not used. -/
def busyWork (k : Kind) (pe : Nat) : List (Act α) := j.barrier k pe ++ j.barrier k pe

/-- The triple of a program that every process runs. -/
def Does (I : (Nat → Memory α) → Prop) (prog : Nat → List (Act α)) (J : (Nat → Memory α) → Prop) :
    Prop :=
  Triple j.platform I (Part.all (List.range j.noPe) prog) J

/-- The processes before they run a program. -/
def start (prog : Nat → List (Act α)) (L : Nat → Memory α) :
    Net Nat (Comm × Nat) (Packet α) (Arrays α) (Memory α) Comm Access :=
  ⟨fun pe => ⟨Part.all (List.range j.noPe) prog pe, L pe, fun _ => []⟩, fun _ => []⟩

/-- Every run of the program, in whatever order the processes go on and whatever messages are kept
on the way, comes to one outcome (`Net.Outcome`). No process aborts, there is a bound on the steps;
before the outcome some process can go on, even when no message is kept; and whatever has been
done, the rest leads to the outcome. -/
def Ends (prog : Nat → List (Act α)) (L : Nat → Memory α) (J : (Nat → Memory α) → Prop) : Prop :=
  ∃ t, Net.Outcome j.platform (j.start prog L) t ∧ J t.states

variable {j} {I J K : (Nat → Memory α) → Prop} {prog prog' : Nat → List (Act α)}

theorem NoOverflow.elm_eq (h : j.NoOverflow) (k : Kind) (pe : Nat) :
    j.elm k pe = j.share k pe := by
  rw [elm, h.fits.myNoElm_eq, Int.toNat_natCast]

theorem mem_members_comm (k : Kind) (pe x : Nat) :
    x ∈ j.members (j.comm k pe) ↔ x ∈ List.range j.noPe ∧ j.comm k x = j.comm k pe := by
  cases k with
  | matrix1 => simp [members, comm]
  | matrix2 => simp [members, comm]

/-- A message from process `sp` to process `t`. -/
theorem triple_exchange {sp t : Nat} (hne : sp ≠ t) (tag : Comm × Nat) (msg : Arrays α → Packet α)
    (update : Packet α → Arrays α → Option (Arrays α)) :
    Triple j.platform (fun L => ∃ x, update (msg (L sp).toArrays) (L t).toArrays = some x ∧
        J (Function.update L t ((L t).put x)))
      (Part.exchange sp t tag msg update : Acts α) J :=
  Triple.exchange hne tag msg update

/-- Process `t` computes. -/
theorem triple_compute (t : Nat) (f : Arrays α → Arrays α) :
    Triple j.platform (fun L => J (Function.update L t ((L t).put (f (L t).toArrays))))
      (Part.all [t] fun _ => [.compute f] : Acts α) J := by
  refine (Triple.compute (List.nodup_singleton t) fun _ => f).conseq (fun L hL => ?_) fun L hL => hL
  convert hL using 2 with x
  by_cases hx : x = t
  · subst hx
    simp [platform]
  · simp [hx]

namespace Does

theorem seq (h : j.Does I prog J) (h' : j.Does J prog' K) :
    j.Does I (fun pe => prog pe ++ prog' pe) K := by
  refine (Triple.seq h h').of_eq fun pe => ?_
  simp only [Part.all]
  split_ifs <;> rfl

theorem conseq {I' J' : (Nat → Memory α) → Prop} (h : j.Does I prog J) (hI : ∀ L, I' L → I L)
    (hJ : ∀ L, J L → J' L) : j.Does I' prog J' :=
  Triple.conseq h hI hJ

theorem of_eq (h : j.Does I prog J) (heq : ∀ pe < j.noPe, prog' pe = prog pe) :
    j.Does I prog' J := by
  refine Triple.of_eq h fun pe => ?_
  simp only [Part.all, List.mem_range]
  split_ifs with hpe
  · exact heq pe hpe
  · rfl

/-- It is enough to look at every start. -/
theorem of_start (h : ∀ L, I L → j.Does (fun L' => L' = L) prog J) : j.Does I prog J := by
  intro s rest hquiet hI hprog
  exact h s.states hI s rest hquiet rfl hprog

theorem skip : j.Does I (fun _ => []) I :=
  Triple.of_eq Triple.skip fun pe => by simp [Part.all]

theorem rounds {R : Nat → Nat → List (Act α)} (I : Nat → (Nat → Memory α) → Prop) {n : Nat}
    (h : ∀ k < n, j.Does (I k) (R k) (I (k + 1))) :
    j.Does (I 0) (fun pe => (List.range n).flatMap fun k => R k pe) (I n) := by
  refine (Triple.rounds I h).of_eq fun pe => ?_
  simp only [Part.all]
  split_ifs with hpe
  · rfl
  · simp

/-- Some processes compute. -/
theorem computeIf {p : Nat → Prop} [DecidablePred p] {f : Nat → Arrays α → Arrays α}
    (h : ∀ L, I L → J fun pe =>
      if pe < j.noPe ∧ p pe then (L pe).put (f pe (L pe).toArrays) else L pe) :
    j.Does I (fun pe => if p pe then [.compute (f pe)] else []) J := by
  refine Triple.of_eq (Triple.conseq (Triple.compute
    ((List.nodup_range (n := j.noPe)).filter fun pe => p pe) f) (fun L hL => ?_) fun L hL => hL)
    fun pe => ?_
  · simp only [List.mem_filter, List.mem_range, decide_eq_true_eq]
    exact h L hL
  · simp only [Part.all, List.mem_filter, List.mem_range, decide_eq_true_eq]
    by_cases hpe : pe < j.noPe
    · simp [hpe]
    · simp [hpe]

theorem compute {f : Nat → Arrays α → Arrays α}
    (h : ∀ L, I L → J fun pe => if pe < j.noPe then (L pe).put (f pe (L pe).toArrays) else L pe) :
    j.Does I (fun pe => [.compute (f pe)]) J := by
  refine (computeIf (p := fun _ => True) fun L hL => ?_).of_eq fun pe _ => (if_pos trivial).symm
  simpa using h L hL

/-- A collective operation of some processes, each in its communicator `c pe`. -/
theorem collective {p : Nat → Prop} [DecidablePred p] {c : Nat → Comm}
    (hc : ∀ pe < j.noPe, p pe → ∀ x, x ∈ j.members (c pe) ↔ (x < j.noPe ∧ p x) ∧ c x = c pe)
    (msg : Nat → Arrays α → Packet α)
    (update : Nat → (Nat → Option (Packet α)) → Arrays α → Option (Arrays α))
    (h : ∀ L, I L → ∃ x : Nat → Arrays α, (∀ pe < j.noPe, p pe →
        update pe (fun y => if y ∈ j.members (c pe) then some (msg y (L y).toArrays) else none)
          (L pe).toArrays = some (x pe)) ∧
      J fun pe => if pe < j.noPe ∧ p pe then (L pe).put (x pe) else L pe) :
    j.Does I (fun pe => if p pe then [.enter (c pe) (msg pe), .leave (c pe) (update pe)] else [])
      J := by
  let l := (List.range j.noPe).filter fun pe => p pe
  have hl : ∀ pe, pe ∈ l ↔ pe < j.noPe ∧ p pe := by simp [l]
  let part : Acts α := Part.collective l c msg update
  have hrule : Triple j.platform _ part J :=
    Triple.collective (List.nodup_range.filter _) c
      (fun pe hpe x => by rw [hl x]; exact hc pe ((hl pe).mp hpe).1 ((hl pe).mp hpe).2 x) msg update
  refine Triple.of_eq (hrule.conseq (fun L hL => ?_) fun L hL => hL) fun pe => ?_
  · obtain ⟨x, hx, hJ⟩ := h L hL
    refine ⟨x, fun pe hpe => hx pe ((hl pe).mp hpe).1 ((hl pe).mp hpe).2, ?_⟩
    simp only [List.mem_filter, List.mem_range, decide_eq_true_eq]
    exact hJ
  · simp only [part, Part.collective, Part.all, hl, List.mem_range]
    by_cases hpe : pe < j.noPe
    · simp [hpe]
    · simp [hpe]

/-- A collective operation that does not fail. -/
theorem collective_some {p : Nat → Prop} [DecidablePred p] {c : Nat → Comm}
    (hc : ∀ pe < j.noPe, p pe → ∀ x, x ∈ j.members (c pe) ↔ (x < j.noPe ∧ p x) ∧ c x = c pe)
    (msg : Nat → Arrays α → Packet α)
    (update : Nat → (Nat → Option (Packet α)) → Arrays α → Arrays α)
    (h : ∀ L, I L → J fun pe => if pe < j.noPe ∧ p pe then (L pe).put
      (update pe (fun y => if y ∈ j.members (c pe) then some (msg y (L y).toArrays) else none)
        (L pe).toArrays) else L pe) :
    j.Does I (fun pe => if p pe then
      [.enter (c pe) (msg pe), .leave (c pe) fun m s => some (update pe m s)] else []) J :=
  collective hc msg (fun pe m s => some (update pe m s)) fun L hL => ⟨_, fun _ _ _ => rfl, h L hL⟩

theorem barrier (k : Kind) : j.Does I (j.barrier k) I := by
  refine (collective_some (p := fun _ => True) (c := j.comm k) (fun pe _ _ x => ?_)
    (fun _ _ => .nothing) (fun _ _ s => s) fun L hL => ?_).of_eq fun pe _ => (if_pos trivial).symm
  · rw [mem_members_comm, List.mem_range, and_true]
  · simpa using hL

theorem busyWork (k : Kind) : j.Does I (j.busyWork k) I := (barrier k).seq (barrier k)

theorem reportTime : j.Does I j.reportTime I :=
  (barrier .matrix1).seq ((barrier .matrix1).seq (barrier .matrix1))

theorem ends (h : j.Does I prog J) {L : Nat → Memory α} (hL : I L) : j.Ends prog L J :=
  Triple.outcome (s := j.start prog L) h ⟨fun _ => rfl, fun _ _ _ _ _ => rfl⟩ hL fun _ => rfl

end Does

end Job

end CacheTrace.Madbench
