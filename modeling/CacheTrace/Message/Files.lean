import CacheTrace.Message.Order
import CacheTrace.Stdio.Program

/-!
# Processes that use files

The calls of the processes are programs on streams. All operations of all processes are
interleaved, on files that the processes may share: while one process is in the middle of a call,
others go on with theirs, exchange messages or compute. A `Service` says what the calls do.

A process starts a call, performs the operations of its program one by one, and returns from the
call with what the program has stored in its buffers. Until then the call is the next action of the
process. A program that has aborted is not gone on with.

What the processes still have to do fits together here as it does in a network (`ordered_run`), and
the calls that a process starts are the first ones of its program (`calls_append`).
-/

namespace CacheTrace.Message

open Transition
open Stdio (Prog File Double Cursor)

/-- What the calls do: a call is a program that is made from the own part of the state of a process
and from what the calls before have left, and that returns what it leaves. -/
structure Service (ι σ θ γ κ ε : Type) where
  members : γ → List ι
  /-- The file of a process. -/
  file : ι → Nat
  prog : ι → κ → σ → θ → Prog ε θ
  /-- The own part of the state after the stores of a call. -/
  finish : ι → κ → List (Int × Double) → σ → σ

/-- A process has its own part, what the calls have left, the position of its stream, and the call
that it is in: what is left of the program, and what it has stored. -/
structure Host (σ θ ε : Type) where
  own : σ
  kept : θ
  pos : Nat
  running : Option (Prog ε θ × List (Int × Double))

/-- The process has come to `p` in its call. -/
def Host.advance {σ θ ε : Type} (h : Host σ θ ε) (p : Prog ε θ) (cursor : Cursor) : Host σ θ ε :=
  { h with pos := cursor.pos, running := some (p, cursor.stores) }

structure Machine (ι τ μ σ θ γ κ ε : Type) where
  net : Net ι τ μ σ (Host σ θ ε) γ κ
  disk : Nat → File

inductive Event (ι : Type) where
  /-- An action that is no call. -/
  | act (i : ι)
  | start (i : ι)
  /-- One operation of the call of process `i`; a write puts at most `m` bytes into the file. -/
  | op (i : ι) (m : Nat)
  | ret (i : ι)

/-- The process that an event completes an action of. -/
def Event.acts {ι : Type} : Event ι → Option ι
  | .act i => some i
  | .start _ => none
  | .op _ _ => none
  | .ret i => some i

variable {ι τ μ σ θ γ κ ε : Type}

/-- The network between the calls. -/
def Service.platform (P : Service ι σ θ γ κ ε) : Platform ι σ (Host σ θ ε) γ κ where
  members := P.members
  own := Host.own
  put s h := { h with own := s }
  own_put _ _ := rfl
  call _ _ _ := none

/-- The calls of a program. -/
def callsOf (as : List (Action ι τ μ σ γ κ)) : List κ :=
  as.filterMap fun
    | .call c => some c
    | _ => none

section CallsOf

variable (as bs : List (Action ι τ μ σ γ κ))

@[simp]
theorem callsOf_nil : callsOf ([] : List (Action ι τ μ σ γ κ)) = [] := rfl

@[simp]
theorem callsOf_send (dest : ι) (tag : τ) (msg : σ → μ) :
    callsOf (.send dest tag msg :: as) = callsOf as := rfl

@[simp]
theorem callsOf_recv (source : ι) (tag : τ) (update : μ → σ → Option σ) :
    callsOf (.recv source tag update :: as) = callsOf as := rfl

@[simp]
theorem callsOf_compute (f : σ → σ) : callsOf (.compute f :: as) = callsOf as := rfl

@[simp]
theorem callsOf_enter (g : γ) (msg : σ → μ) : callsOf (.enter g msg :: as) = callsOf as := rfl

@[simp]
theorem callsOf_leave (g : γ) (update : (ι → Option μ) → σ → Option σ) :
    callsOf (.leave g update :: as) = callsOf as := rfl

@[simp]
theorem callsOf_call (c : κ) : callsOf (.call c :: as) = c :: callsOf as := rfl

@[simp]
theorem callsOf_append : callsOf (as ++ bs) = callsOf as ++ callsOf bs := List.filterMap_append

@[simp]
theorem callsOf_ite (p : Prop) [Decidable p] :
    callsOf (if p then as else bs) = if p then callsOf as else callsOf bs := apply_ite callsOf _ _ _

@[simp]
theorem callsOf_flatMap {β : Type} (l : List β) (f : β → List (Action ι τ μ σ γ κ)) :
    callsOf (l.flatMap f) = l.flatMap fun b => callsOf (f b) := List.filterMap_flatMap

end CallsOf

theorem mem_callsOf {c : κ} {as : List (Action ι τ μ σ γ κ)} : c ∈ callsOf as ↔ .call c ∈ as := by
  simp only [callsOf, List.mem_filterMap]
  constructor
  · rintro ⟨a, ha, heq⟩
    cases a with
    | call c' =>
      cases heq
      exact ha
    | send => cases heq
    | recv => cases heq
    | compute => cases heq
    | enter => cases heq
    | leave => cases heq
  · intro h
    exact ⟨_, h, rfl⟩

/-- Process `i` is about to call. -/
def Net.Calls {Ω : Type} (s : Net ι τ μ σ Ω γ κ) (i : ι) : Prop :=
  ∃ c rest, (s.proc i).prog = .call c :: rest

namespace Machine

def setFile (M : Machine ι τ μ σ θ γ κ ε) (n : Nat) (f : File) : Machine ι τ μ σ θ γ κ ε :=
  { M with disk := Function.update M.disk n f }

def host (M : Machine ι τ μ σ θ γ κ ε) (i : ι) : Host σ θ ε := (M.net.proc i).state

@[simp]
theorem setFile_net (M : Machine ι τ μ σ θ γ κ ε) (n : Nat) (f : File) :
    (M.setFile n f).net = M.net := rfl

@[simp]
theorem setFile_host (M : Machine ι τ μ σ θ γ κ ε) (n : Nat) (f : File) (i : ι) :
    (M.setFile n f).host i = M.host i := rfl

variable [DecidableEq ι]

def setProc (M : Machine ι τ μ σ θ γ κ ε) (i : ι) (p : Proc ι τ μ σ (Host σ θ ε) γ κ) :
    Machine ι τ μ σ θ γ κ ε :=
  { M with net := { M.net with proc := Function.update M.net.proc i p } }

def setHost (M : Machine ι τ μ σ θ γ κ ε) (i : ι) (h : Host σ θ ε) : Machine ι τ μ σ θ γ κ ε :=
  M.setProc i { M.net.proc i with state := h }

section Set

variable (M : Machine ι τ μ σ θ γ κ ε)

@[simp]
theorem setProc_proc_self (i : ι) (p : Proc ι τ μ σ (Host σ θ ε) γ κ) :
    (M.setProc i p).net.proc i = p := Function.update_self _ _ _

theorem setProc_proc_of_ne {i k : ι} (hk : k ≠ i) (p : Proc ι τ μ σ (Host σ θ ε) γ κ) :
    (M.setProc i p).net.proc k = M.net.proc k := Function.update_of_ne hk _ _

@[simp]
theorem setHost_host_self (i : ι) (h : Host σ θ ε) : (M.setHost i h).host i = h := by
  rw [host, setHost, setProc_proc_self]

theorem setHost_proc_of_ne {i k : ι} (hk : k ≠ i) (h : Host σ θ ε) :
    (M.setHost i h).net.proc k = M.net.proc k := M.setProc_proc_of_ne hk _

theorem setHost_host_of_ne {i k : ι} (hk : k ≠ i) (h : Host σ θ ε) :
    (M.setHost i h).host k = M.host k := by
  rw [host, M.setHost_proc_of_ne hk, host]

/-- A change of the state of a process does not change what it has to do. -/
theorem setHost_prog (i : ι) (h : Host σ θ ε) (k : ι) :
    ((M.setHost i h).net.proc k).prog = (M.net.proc k).prog := by
  by_cases hk : k = i
  · subst hk
    rw [setHost, setProc_proc_self]
  · rw [M.setHost_proc_of_ne hk]

theorem setHost_given (i : ι) (h : Host σ θ ε) (k : ι) :
    ((M.setHost i h).net.proc k).given = (M.net.proc k).given := by
  by_cases hk : k = i
  · subst hk
    rw [setHost, setProc_proc_self]
  · rw [M.setHost_proc_of_ne hk]

end Set

variable [DecidableEq τ] [DecidableEq γ]

def step (P : Service ι σ θ γ κ ε) (M : Machine ι τ μ σ θ γ κ ε) :
    Event ι → Option (Machine ι τ μ σ θ γ κ ε)
  | .act i => (M.net.step P.platform i).map fun net => { M with net }
  | .start i => match (M.net.proc i).prog, (M.host i).running with
    | .call c :: _, none => some (M.setHost i ((M.host i).advance
        (P.prog i c (M.host i).own (M.host i).kept) ⟨(M.host i).pos, []⟩))
    | _, _ => none
  | .op i m => match (M.host i).running with
    | some (rest, stores) =>
      let (rest', f', cursor) := rest.step m (M.disk (P.file i)) ⟨(M.host i).pos, stores⟩
      some ((M.setHost i ((M.host i).advance rest' cursor)).setFile (P.file i) f')
    | none => none
  | .ret i => match (M.net.proc i).prog, (M.host i).running with
    | .call c :: rest, some (.ret a, stores) => some (M.setProc i { M.net.proc i with
        prog := rest
        state := ⟨P.finish i c stores (M.host i).own, a, (M.host i).pos, none⟩ })
    | _, _ => none

/-- Process `i` has failed in a call, or its next action is wrong. -/
inductive Aborts (P : Service ι σ θ γ κ ε) (M : Machine ι τ μ σ θ γ κ ε) (i : ι) : Prop
  | call {e : ε} {stores : List (Int × Double)} : (M.host i).running = some (.abort e, stores) →
      Aborts P M i
  | act : ¬ M.net.Calls i → M.net.Aborts P.platform i → Aborts P M i

/-- Process `i` can go on when no message is kept. -/
def Ready (P : Service ι σ θ γ κ ε) (M : Machine ι τ μ σ θ γ κ ε) (i : ι) : Prop :=
  M.net.Calls i ∧ (∀ e stores, (M.host i).running ≠ some (.abort e, stores)) ∨
    ¬ M.net.Calls i ∧ M.net.Ready P.platform i

variable {P : Service ι σ θ γ κ ε} {M M' : Machine ι τ μ σ θ γ κ ε} {i k : ι}

/-! ## The events one by one -/

theorem act_eq_some : M.step P (.act i) = some M' ↔
    ∃ net, M.net.step P.platform i = some net ∧ M' = { M with net } := by
  rw [step, Option.map_eq_some_iff]
  simp only [eq_comm]

theorem start_eq_some : M.step P (.start i) = some M' ↔
    ∃ c rest, (M.net.proc i).prog = .call c :: rest ∧ (M.host i).running = none ∧
      M' = M.setHost i ((M.host i).advance (P.prog i c (M.host i).own (M.host i).kept)
        ⟨(M.host i).pos, []⟩) := by
  constructor
  · intro h
    simp only [step] at h
    split at h
    · cases h
      exact ⟨_, _, ‹_›, ‹_›, rfl⟩
    · cases h
  · rintro ⟨c, rest, hprog, hrunning, rfl⟩
    simp only [step, hprog, hrunning]

theorem op_eq_some {m : Nat} : M.step P (.op i m) = some M' ↔
    ∃ rest stores rest' f' cursor, (M.host i).running = some (rest, stores) ∧
      rest.step m (M.disk (P.file i)) ⟨(M.host i).pos, stores⟩ = (rest', f', cursor) ∧
      M' = (M.setHost i ((M.host i).advance rest' cursor)).setFile (P.file i) f' := by
  constructor
  · intro h
    simp only [step] at h
    split at h
    · cases h
      exact ⟨_, _, _, _, _, ‹_›, rfl, rfl⟩
    · cases h
  · rintro ⟨rest, stores, rest', f', cursor, hrunning, hstep, rfl⟩
    simp only [step, hrunning, hstep]

theorem ret_eq_some : M.step P (.ret i) = some M' ↔
    ∃ c rest a stores, (M.net.proc i).prog = .call c :: rest ∧
      (M.host i).running = some (.ret a, stores) ∧ M' = M.setProc i { M.net.proc i with
        prog := rest
        state := ⟨P.finish i c stores (M.host i).own, a, (M.host i).pos, none⟩ } := by
  constructor
  · intro h
    simp only [step] at h
    split at h
    · cases h
      exact ⟨_, _, _, _, ‹_›, ‹_›, rfl⟩
    · cases h
  · rintro ⟨c, rest, a, stores, hprog, hrunning, rfl⟩
    simp only [step, hprog, hrunning]

/-! ## What must have happened before -/

/-- What the network sees of an event: nothing, or an action, where a call is one that succeeds. -/
theorem step_net {e : Event ι} (h : M.step P e = some M') :
    ((∀ k, (M'.net.proc k).prog = (M.net.proc k).prog) ∧
        (∀ k, (M'.net.proc k).given = (M.net.proc k).given) ∧ M'.net.queue = M.net.queue) ∨
      ∃ (W : Platform ι σ (Host σ θ ε) γ κ) (i : ι), W.members = P.members ∧
        M.net.step W i = some M'.net := by
  cases e with
  | act i =>
    obtain ⟨net, hstep, rfl⟩ := act_eq_some.mp h
    exact .inr ⟨P.platform, i, rfl, hstep⟩
  | start i =>
    obtain ⟨c, rest, -, -, rfl⟩ := start_eq_some.mp h
    exact .inl ⟨M.setHost_prog i _, M.setHost_given i _, rfl⟩
  | op i m =>
    obtain ⟨rest, stores, rest', f', cursor, -, -, rfl⟩ := op_eq_some.mp h
    exact .inl ⟨M.setHost_prog i _, M.setHost_given i _, rfl⟩
  | ret i =>
    obtain ⟨c, rest, a, stores, hprog, -, rfl⟩ := ret_eq_some.mp h
    let h' : Host σ θ ε := ⟨P.finish i c stores (M.host i).own, a, (M.host i).pos, none⟩
    refine .inr ⟨{ P.platform with call := fun _ _ _ => some h' }, i, rfl, ?_⟩
    exact Net.step_eq_some.mpr ⟨_, .call hprog rfl, rfl⟩

theorem ordered_step {e : Event ι} (hM : M.net.Ordered P.members) (h : M.step P e = some M') :
    M'.net.Ordered P.members := by
  rcases step_net h with ⟨hprog, hgiven, hqueue⟩ | ⟨W, i, hmembers, hstep⟩
  · refine ⟨fun i k tag => ?_, fun g i hi k hk => ?_, fun g i => ?_, fun g i hi k hk => ?_⟩
    · rw [hqueue, hprog, hprog]
      exact hM.messages i k tag
    · rw [hprog, hprog, hgiven, hgiven]
      exact hM.level g i hi k hk
    · rw [hprog]
      exact hM.paired g i
    · rw [hprog, hprog]
      exact hM.order g i hi k hk
  · rw [← hmembers] at hM ⊢
    exact hM.step hstep

/-- **The order of things** is kept by every run. -/
theorem ordered_run {es : List (Event ι)} (hM : M.net.Ordered P.members)
    (hrun : run (step P) M es = some M') : M'.net.Ordered P.members :=
  run_invariant (I := fun M => M.net.Ordered P.members) (fun _ _ _ _ hM h => ordered_step hM h) hM
    hrun (guarded_true M es)

theorem step_suffix {e : Event ι} (h : M.step P e = some M') (k : ι) :
    (M'.net.proc k).prog <:+ (M.net.proc k).prog := by
  rcases step_net h with ⟨hprog, -, -⟩ | ⟨W, i, -, hstep⟩
  · rw [hprog]
  · exact Net.step_suffix hstep k

/-- What remains of a program is a rest of it. -/
theorem run_suffix {es : List (Event ι)} (hrun : run (step P) M es = some M') (k : ι) :
    (M'.net.proc k).prog <:+ (M.net.proc k).prog := by
  refine run_invariant (I := fun M' => (M'.net.proc k).prog <:+ (M.net.proc k).prog) ?_
    List.suffix_rfl hrun (guarded_true M es)
  intro m e m' _ hm h
  exact (step_suffix h k).trans hm

/-! ## The calls of a run -/

/-- The call that process `i` starts with an event. -/
def started (M : Machine ι τ μ σ θ γ κ ε) (i : ι) : Event ι → List κ
  | .start k => if k = i then (callsOf (M.net.proc i).prog).take 1 else []
  | _ => []

/-- The calls that process `i` starts in a run. -/
def calls (P : Service ι σ θ γ κ ε) (i : ι) : Machine ι τ μ σ θ γ κ ε → List (Event ι) → List κ
  | _, [] => []
  | M, e :: es => M.started i e ++ match M.step P e with
    | some M' => calls P i M' es
    | none => []

/-- The calls that process `i` has not started. -/
def pending (M : Machine ι τ μ σ θ γ κ ε) (i : ι) : List κ :=
  match (M.host i).running with
  | none => callsOf (M.net.proc i).prog
  | some _ => (callsOf (M.net.proc i).prog).drop 1

omit [DecidableEq ι] [DecidableEq τ] [DecidableEq γ] in
theorem pending_congr (hrunning : (M'.host i).running.isSome = (M.host i).running.isSome)
    (hcalls : callsOf (M'.net.proc i).prog = callsOf (M.net.proc i).prog) :
    M'.pending i = M.pending i := by
  simp only [pending]
  split <;> split <;> simp_all

/-- A process is in a call only when the call is its next action. -/
def InCall (M : Machine ι τ μ σ θ γ κ ε) : Prop :=
  ∀ i, (M.host i).running ≠ none → M.net.Calls i

/-- An action that is no call leaves the calls and what they have left. -/
theorem act_host {net : Net ι τ μ σ (Host σ θ ε) γ κ} (h : M.net.step P.platform i = some net)
    (k : ι) : callsOf (net.proc k).prog = callsOf (M.net.proc k).prog ∧
      (net.proc k).state.running = (M.host k).running := by
  by_cases hk : k = i
  · subst hk
    obtain ⟨m, hm, rfl⟩ := Net.step_eq_some.mp h
    simp only [Function.update_self, host]
    cases hm with
    | send hprog => exact ⟨by rw [hprog]; rfl, rfl⟩
    | recv hprog => exact ⟨by rw [hprog]; rfl, rfl⟩
    | compute hprog => exact ⟨by rw [hprog]; rfl, rfl⟩
    | enter hprog => exact ⟨by rw [hprog]; rfl, rfl⟩
    | leave hprog => exact ⟨by rw [hprog]; rfl, rfl⟩
    | call _ hcall => cases hcall
  · rw [Net.step_proc_of_ne h hk]
    exact ⟨rfl, rfl⟩

theorem act_not_calls {net : Net ι τ μ σ (Host σ θ ε) γ κ}
    (h : M.net.step P.platform i = some net) : ¬ M.net.Calls i := by
  rintro ⟨c, rest, hprog⟩
  simp only [Net.step, Net.move, hprog, Service.platform, Option.map_none, reduceCtorEq] at h

theorem inCall_step {e : Event ι} (hM : M.InCall) (h : M.step P e = some M') : M'.InCall := by
  intro k hk
  cases e with
  | act i =>
    obtain ⟨net, hstep, rfl⟩ := act_eq_some.mp h
    have hcalls := hM k (by rwa [← (act_host hstep k).2])
    have hne : k ≠ i := by
      rintro rfl
      exact act_not_calls hstep hcalls
    rw [Net.Calls, Net.step_proc_of_ne hstep hne]
    exact hcalls
  | start i =>
    obtain ⟨c, rest, hprog, -, rfl⟩ := start_eq_some.mp h
    rw [Net.Calls, M.setHost_prog]
    by_cases hne : k = i
    · subst hne
      exact ⟨c, rest, hprog⟩
    · rw [M.setHost_host_of_ne hne] at hk
      exact hM k hk
  | op i m =>
    obtain ⟨rest, stores, rest', f', cursor, hrunning, -, rfl⟩ := op_eq_some.mp h
    rw [Net.Calls, setFile_net, M.setHost_prog]
    by_cases hne : k = i
    · subst hne
      exact hM k (by simp [hrunning])
    · rw [setFile_host, M.setHost_host_of_ne hne] at hk
      exact hM k hk
  | ret i =>
    obtain ⟨c, rest, a, stores, -, -, rfl⟩ := ret_eq_some.mp h
    by_cases hne : k = i
    · subst hne
      rw [host, setProc_proc_self] at hk
      exact absurd rfl hk
    · rw [host, M.setProc_proc_of_ne hne] at hk
      rw [Net.Calls, M.setProc_proc_of_ne hne]
      exact hM k hk

theorem inCall_run {es : List (Event ι)} (hM : M.InCall) (hrun : run (step P) M es = some M') :
    M'.InCall :=
  run_invariant (I := InCall) (fun _ _ _ _ hM h => inCall_step hM h) hM hrun (guarded_true M es)

theorem started_append {e : Event ι} (h : M.step P e = some M') (i : ι) :
    M.started i e ++ M'.pending i = M.pending i := by
  cases e with
  | act k =>
    obtain ⟨net, hstep, rfl⟩ := act_eq_some.mp h
    obtain ⟨hcalls, hrunning⟩ := act_host hstep i
    exact pending_congr (congrArg Option.isSome hrunning) hcalls
  | start k =>
    obtain ⟨c, rest, hprog, hrunning, rfl⟩ := start_eq_some.mp h
    by_cases hki : k = i
    · subst hki
      simp only [started, if_true, pending, setHost_host_self, hrunning, M.setHost_prog,
        Host.advance, List.take_append_drop]
    · simp only [started, if_neg hki, pending, M.setHost_host_of_ne (Ne.symm hki),
        M.setHost_prog, List.nil_append]
  | op k m =>
    obtain ⟨rest, stores, rest', f', cursor, hrunning, -, rfl⟩ := op_eq_some.mp h
    refine pending_congr ?_ (by rw [setFile_net, M.setHost_prog])
    by_cases hki : i = k
    · subst hki
      rw [setFile_host, setHost_host_self, hrunning]
      rfl
    · rw [setFile_host, M.setHost_host_of_ne hki]
  | ret k =>
    obtain ⟨c, rest, a, stores, hprog, hrunning, rfl⟩ := ret_eq_some.mp h
    by_cases hki : i = k
    · subst hki
      simp only [started, pending, host, setProc_proc_self, List.nil_append] at hrunning ⊢
      rw [hrunning, hprog]
      rfl
    · simp only [started, pending, host, M.setProc_proc_of_ne hki, List.nil_append]

/-- **The calls of a run** and those that have not been started are the calls of the program. -/
theorem calls_append {es : List (Event ι)} (hrun : run (step P) M es = some M') (i : ι) :
    calls P i M es ++ M'.pending i = M.pending i := by
  induction es generalizing M with
  | nil =>
    cases hrun
    rfl
  | cons e es ih =>
    obtain ⟨m, hstep, hrest⟩ := Option.bind_eq_some_iff.mp hrun
    rw [calls, hstep, List.append_assoc, ih hrest, started_append hstep]

end Machine

end CacheTrace.Message
