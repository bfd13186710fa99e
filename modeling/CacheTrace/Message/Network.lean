import CacheTrace.Transition.Commuting
import Mathlib.Logic.Function.Basic

/-!
# Processes that exchange messages

A process runs a list of actions: it sends a message to another process, receives one, computes,
takes part in a collective operation of a group, or calls something outside of its program, such
as a file system. Messages with the same sender, receiver and tag arrive in their order. A
collective operation has two actions: a process enters it with a contribution and leaves it, with
the contributions of all, when every member has entered.

What the programs run on is a `Platform`. It says what calls do, with a state that has more in it
than the part that the other actions see.

A message, the contributions or a call may turn out to be wrong. Then the action has no result:
the process aborts (`Aborts`), and with it the program. The other processes may have gone on for a
while, so the runs of an aborted program are among the runs here.

A send may end at once, with the message kept on the way, or wait for the receiver. `step` lets
every send end at once; what it can reach is thus all that can be reached. `Ready` is what a
process can do when no message is kept: a send needs a receiver that waits for it.

A synchronous schedule (`Sync`) hands over every message at once. One such schedule to the end
settles the matter: whatever is kept on the way and in whatever order the processes go on, no
process aborts, no state is stuck, every run ends, and it ends in the same state (`Sync.outcome`).
-/

namespace CacheTrace.Message

open Transition

/-- The sender and the receiver of a message, and its tag. -/
abbrev Channel (ι τ : Type) := ι × ι × τ

inductive Action (ι τ μ σ γ κ : Type) where
  | send (dest : ι) (tag : τ) (msg : σ → μ)
  | recv (source : ι) (tag : τ) (update : μ → σ → Option σ)
  | compute (f : σ → σ)
  /-- Enter the collective operation of a group with a contribution. -/
  | enter (group : γ) (msg : σ → μ)
  /-- Leave it, with the contributions of the members. -/
  | leave (group : γ) (update : (ι → Option μ) → σ → Option σ)
  | call (c : κ)

/-- What the programs of the processes run on. -/
structure Platform (ι σ Ω γ κ : Type) where
  members : γ → List ι
  /-- The part of a state that is not left to the calls. -/
  own : Ω → σ
  put : σ → Ω → Ω
  own_put : ∀ s S, own (put s S) = s
  call : ι → κ → Ω → Option Ω

structure Proc (ι τ μ σ Ω γ κ : Type) where
  prog : List (Action ι τ μ σ γ κ)
  state : Ω
  /-- The contributions to the operations of every group, the first one first. -/
  given : γ → List μ

structure Net (ι τ μ σ Ω γ κ : Type) where
  proc : ι → Proc ι τ μ σ Ω γ κ
  /-- The messages on the way. -/
  queue : Channel ι τ → List μ

/-- What an action does to the messages on the way. -/
inductive Effect (ι τ μ : Type) where
  | quiet
  | push (c : Channel ι τ) (m : μ)
  | pop (c : Channel ι τ)

variable {ι τ μ σ Ω γ κ : Type} [DecidableEq ι] [DecidableEq γ]

def Effect.on [DecidableEq τ] (q : Channel ι τ → List μ) : Effect ι τ μ → Channel ι τ → List μ
  | quiet => q
  | push c m => Function.update q c (q c ++ [m])
  | pop c => Function.update q c (q c).tail

/-- The effects that an action of process `i` can have. -/
def Effect.Allowed (q : Channel ι τ → List μ) (i : ι) : Effect ι τ μ → Prop
  | .quiet => True
  | .push c _ => c.1 = i
  | .pop c => c.2.1 = i ∧ q c ≠ []

omit [DecidableEq ι] [DecidableEq γ] in
/-- A process whose own part of the state has been changed. -/
def Proc.goOn (W : Platform ι σ Ω γ κ) (p : Proc ι τ μ σ Ω γ κ)
    (rest : List (Action ι τ μ σ γ κ)) (s : σ) : Proc ι τ μ σ Ω γ κ :=
  { p with prog := rest, state := W.put s p.state }

namespace Net

variable (W : Platform ι σ Ω γ κ) (s : Net ι τ μ σ Ω γ κ)

/-- The contributions to operation `n` of a group. -/
def contributions (g : γ) (n : Nat) : ι → Option μ := fun j =>
  if j ∈ W.members g then ((s.proc j).given g)[n]? else none

/-- The process after its next action, and the effect of the action. A process leaves the last
operation it has entered. -/
def move (i : ι) : Option (Proc ι τ μ σ Ω γ κ × Effect ι τ μ) :=
  let p := s.proc i
  match p.prog with
  | [] => none
  | .send dest tag msg :: rest =>
    some ({ p with prog := rest }, .push (i, dest, tag) (msg (W.own p.state)))
  | .recv source tag update :: rest => match s.queue (source, i, tag) with
    | [] => none
    | m :: _ => (update m (W.own p.state)).map fun x => (p.goOn W rest x, .pop (source, i, tag))
  | .compute f :: rest => some (p.goOn W rest (f (W.own p.state)), .quiet)
  | .enter g msg :: rest =>
    some ({ p with
      prog := rest
      given := Function.update p.given g (p.given g ++ [msg (W.own p.state)]) }, .quiet)
  | .leave g update :: rest => match (p.given g).length with
    | 0 => none
    | n + 1 =>
      if ∀ j ∈ W.members g, n < ((s.proc j).given g).length then
        (update (s.contributions W g n) (W.own p.state)).map fun x => (p.goOn W rest x, .quiet)
      else none
  | .call c :: rest =>
    (W.call i c p.state).map fun x => ({ p with prog := rest, state := x }, .quiet)

/-- The actions one by one. -/
inductive Move (i : ι) : Proc ι τ μ σ Ω γ κ × Effect ι τ μ → Prop
  | send {dest : ι} {tag : τ} {msg : σ → μ} {rest : List (Action ι τ μ σ γ κ)} :
      (s.proc i).prog = .send dest tag msg :: rest →
      Move i ({ s.proc i with prog := rest },
        .push (i, dest, tag) (msg (W.own (s.proc i).state)))
  | recv {source : ι} {tag : τ} {update : μ → σ → Option σ} {rest : List (Action ι τ μ σ γ κ)}
      {m : μ} {ms : List μ} {x : σ} : (s.proc i).prog = .recv source tag update :: rest →
      s.queue (source, i, tag) = m :: ms → update m (W.own (s.proc i).state) = some x →
      Move i ((s.proc i).goOn W rest x, .pop (source, i, tag))
  | compute {f : σ → σ} {rest : List (Action ι τ μ σ γ κ)} :
      (s.proc i).prog = .compute f :: rest →
      Move i ((s.proc i).goOn W rest (f (W.own (s.proc i).state)), .quiet)
  | enter {g : γ} {msg : σ → μ} {rest : List (Action ι τ μ σ γ κ)} :
      (s.proc i).prog = .enter g msg :: rest →
      Move i ({ s.proc i with
        prog := rest
        given := Function.update (s.proc i).given g
          ((s.proc i).given g ++ [msg (W.own (s.proc i).state)]) }, .quiet)
  | leave {g : γ} {update : (ι → Option μ) → σ → Option σ} {rest : List (Action ι τ μ σ γ κ)}
      {n : Nat} {x : σ} : (s.proc i).prog = .leave g update :: rest →
      ((s.proc i).given g).length = n + 1 →
      (∀ j ∈ W.members g, n < ((s.proc j).given g).length) →
      update (s.contributions W g n) (W.own (s.proc i).state) = some x →
      Move i ((s.proc i).goOn W rest x, .quiet)
  | call {c : κ} {rest : List (Action ι τ μ σ γ κ)} {x : Ω} :
      (s.proc i).prog = .call c :: rest → W.call i c (s.proc i).state = some x →
      Move i ({ s.proc i with prog := rest, state := x }, .quiet)

/-- The next action of process `i` is wrong. -/
inductive Aborts (i : ι) : Prop
  | recv {source : ι} {tag : τ} {update : μ → σ → Option σ} {rest : List (Action ι τ μ σ γ κ)}
      {m : μ} {ms : List μ} : (s.proc i).prog = .recv source tag update :: rest →
      s.queue (source, i, tag) = m :: ms → update m (W.own (s.proc i).state) = none → Aborts i
  | leave {g : γ} {update : (ι → Option μ) → σ → Option σ} {rest : List (Action ι τ μ σ γ κ)}
      {n : Nat} : (s.proc i).prog = .leave g update :: rest →
      ((s.proc i).given g).length = n + 1 →
      (∀ j ∈ W.members g, n < ((s.proc j).given g).length) →
      update (s.contributions W g n) (W.own (s.proc i).state) = none → Aborts i
  | call {c : κ} {rest : List (Action ι τ μ σ γ κ)} :
      (s.proc i).prog = .call c :: rest → W.call i c (s.proc i).state = none → Aborts i

/-- Process `j` is about to receive from process `i`. -/
def Waits (j i : ι) (tag : τ) : Prop :=
  ∃ update rest, (s.proc j).prog = .recv i tag update :: rest

/-- All processes have come to their end. -/
def Done : Prop := ∀ i, (s.proc i).prog = []

variable {W} {s} {t : Net ι τ μ σ Ω γ κ} {i j : ι} {m : Proc ι τ μ σ Ω γ κ × Effect ι τ μ}

/-! ## One action -/

theorem move_eq_some : s.move W i = some m ↔ s.Move W i m := by
  constructor
  · intro h
    unfold move at h
    dsimp only at h
    split at h
    · cases h
    · cases h
      exact .send ‹_›
    · split at h
      · cases h
      · obtain ⟨x, hx, rfl⟩ := Option.map_eq_some_iff.mp h
        exact .recv ‹_› ‹_› hx
    · cases h
      exact .compute ‹_›
    · cases h
      exact .enter ‹_›
    · split at h
      · cases h
      · split_ifs at h
        obtain ⟨x, hx, rfl⟩ := Option.map_eq_some_iff.mp h
        exact .leave ‹_› ‹_› ‹_› hx
    · obtain ⟨x, hx, rfl⟩ := Option.map_eq_some_iff.mp h
      exact .call ‹_› hx
  · intro h
    cases h with
    | send hprog => simp only [move, hprog]
    | recv hprog hq hx => simp only [move, hprog, hq, hx, Option.map_some]
    | compute hprog => simp only [move, hprog]
    | enter hprog => simp only [move, hprog]
    | leave hprog hn hall hx =>
      simp only [move, hprog]
      split
      · omega
      · rename_i k hk
        obtain rfl : _ = k := Nat.succ.inj (hn.symm.trans hk)
        rw [if_pos hall, hx, Option.map_some]
    | call hprog hx => simp only [move, hprog, hx, Option.map_some]

theorem Move.allowed (h : s.Move W i m) : m.2.Allowed s.queue i := by
  cases h with
  | send => rfl
  | recv _ hq _ => exact ⟨rfl, hq ▸ List.cons_ne_nil _ _⟩
  | compute => trivial
  | enter => trivial
  | leave => trivial
  | call => trivial

/-- Contributions are only added. -/
theorem Move.given (h : s.Move W i m) (g : γ) : (s.proc i).given g <+: m.1.given g := by
  cases h with
  | send => exact List.prefix_rfl
  | recv => exact List.prefix_rfl
  | compute => exact List.prefix_rfl
  | @enter g' =>
    by_cases hg : g = g'
    · subst hg
      simp
    · simp [Function.update_of_ne hg]
  | leave => exact List.prefix_rfl
  | call => exact List.prefix_rfl

theorem Aborts.move_eq_none (h : s.Aborts W i) : s.move W i = none := by
  cases h with
  | recv hprog hq hx => simp only [move, hprog, hq, hx, Option.map_none]
  | leave hprog hn hall hx =>
    simp only [move, hprog]
    split
    · rfl
    · rename_i k hk
      obtain rfl : _ = k := Nat.succ.inj (hn.symm.trans hk)
      rw [if_pos hall, hx, Option.map_none]
  | call hprog hx => simp only [move, hprog, hx, Option.map_none]

/-! ## One step -/

variable [DecidableEq τ]

/-- Process `i` performs its next action. -/
def step (W : Platform ι σ Ω γ κ) (s : Net ι τ μ σ Ω γ κ) (i : ι) : Option (Net ι τ μ σ Ω γ κ) :=
  (s.move W i).map fun m => ⟨Function.update s.proc i m.1, m.2.on s.queue⟩

/-- Process `i` can go on when no message is kept. -/
def Ready (W : Platform ι σ Ω γ κ) (s : Net ι τ μ σ Ω γ κ) (i : ι) : Prop :=
  match (s.proc i).prog with
  | .send dest tag _ :: _ => s.queue (i, dest, tag) = [] ∧ s.Waits dest i tag
  | _ => (s.step W i).isSome

theorem step_eq_some : s.step W i = some t ↔
    ∃ m, s.Move W i m ∧ t = ⟨Function.update s.proc i m.1, m.2.on s.queue⟩ := by
  rw [step, Option.map_eq_some_iff]
  constructor
  · rintro ⟨m, hm, rfl⟩
    exact ⟨m, move_eq_some.mp hm, rfl⟩
  · rintro ⟨m, hm, rfl⟩
    exact ⟨m, move_eq_some.mpr hm, rfl⟩

theorem Aborts.step_eq_none (h : s.Aborts W i) : s.step W i = none := by
  rw [step, h.move_eq_none, Option.map_none]

theorem step_proc_of_ne (h : s.step W i = some t) (hji : j ≠ i) : t.proc j = s.proc j := by
  obtain ⟨m, -, rfl⟩ := step_eq_some.mp h
  exact Function.update_of_ne hji _ _

theorem step_given (h : s.step W i = some t) (j : ι) (g : γ) :
    (s.proc j).given g <+: (t.proc j).given g := by
  by_cases hji : j = i
  · subst hji
    obtain ⟨m, hm, rfl⟩ := step_eq_some.mp h
    simpa using hm.given g
  · exact step_proc_of_ne h hji ▸ List.prefix_rfl

/-- A message that has arrived is not taken by another process. -/
theorem step_queue_head (h : s.step W i = some t) (hji : j ≠ i) {source : ι} {tag : τ} {x : μ}
    {xs : List μ} (hq : s.queue (source, j, tag) = x :: xs) :
    ∃ xs', t.queue (source, j, tag) = x :: xs' := by
  obtain ⟨⟨p, e⟩, hm, rfl⟩ := step_eq_some.mp h
  have hallowed := hm.allowed
  cases e with
  | quiet => exact ⟨xs, hq⟩
  | push c y =>
    by_cases hc : (source, j, tag) = c
    · subst hc
      exact ⟨xs ++ [y], by simp [Effect.on, hq]⟩
    · exact ⟨xs, by simp [Effect.on, Function.update_of_ne hc, hq]⟩
  | pop c =>
    have hc : (source, j, tag) ≠ c := by
      rintro rfl
      exact hji hallowed.1
    exact ⟨xs, by simp [Effect.on, Function.update_of_ne hc, hq]⟩

/-- An operation that all members have entered is not changed any more. -/
theorem step_contributions (h : s.step W i = some t) {g : γ} {n : Nat}
    (hall : ∀ j ∈ W.members g, n < ((s.proc j).given g).length) :
    (∀ j ∈ W.members g, n < ((t.proc j).given g).length) ∧
      t.contributions W g n = s.contributions W g n := by
  refine ⟨fun k hk => Nat.lt_of_lt_of_le (hall k hk) (step_given h k g).length_le, ?_⟩
  funext k
  simp only [contributions]
  split_ifs with hk
  · obtain ⟨more, hmore⟩ := step_given h k g
    rw [← hmore, List.getElem?_append_left (hall k hk)]
  · rfl

/-- What a process does next is not changed by a step of another one. -/
theorem Move.of_step (hm : s.Move W j m) (h : s.step W i = some t) (hji : j ≠ i) :
    t.Move W j m := by
  have hproc : t.proc j = s.proc j := step_proc_of_ne h hji
  cases hm with
  | send hprog =>
    rw [← hproc] at hprog ⊢
    exact .send hprog
  | recv hprog hq hx =>
    obtain ⟨xs', hxs'⟩ := step_queue_head h hji hq
    rw [← hproc] at hprog hx ⊢
    exact .recv hprog hxs' hx
  | compute hprog =>
    rw [← hproc] at hprog ⊢
    exact .compute hprog
  | enter hprog =>
    rw [← hproc] at hprog ⊢
    exact .enter hprog
  | leave hprog hn hall hx =>
    obtain ⟨hall', hsame⟩ := step_contributions h hall
    rw [← hproc] at hprog hn hx ⊢
    exact .leave hprog hn hall' (hsame ▸ hx)
  | call hprog hx =>
    rw [← hproc] at hprog hx ⊢
    exact .call hprog hx

/-- A process that aborts is not helped by a step of another one. -/
theorem Aborts.of_step (ha : s.Aborts W j) (h : s.step W i = some t) (hji : j ≠ i) :
    t.Aborts W j := by
  have hproc : t.proc j = s.proc j := step_proc_of_ne h hji
  cases ha with
  | recv hprog hq hx =>
    obtain ⟨xs', hxs'⟩ := step_queue_head h hji hq
    rw [← hproc] at hprog hx
    exact .recv hprog hxs' hx
  | leave hprog hn hall hx =>
    obtain ⟨hall', hsame⟩ := step_contributions h hall
    rw [← hproc] at hprog hn hx
    exact .leave hprog hn hall' (hsame ▸ hx)
  | call hprog hx =>
    rw [← hproc] at hprog hx
    exact .call hprog hx

/-- A process that aborts does not come to its end. -/
theorem Aborts.not_done {es : List ι} (ha : s.Aborts W i) (hrun : run (step W) s es = some t) :
    ¬ t.Done := by
  induction es generalizing s with
  | nil =>
    cases hrun
    intro hdone
    cases ha with
    | recv hprog => cases hprog.symm.trans (hdone i)
    | leave hprog => cases hprog.symm.trans (hdone i)
    | call hprog => cases hprog.symm.trans (hdone i)
  | cons k es ih =>
    obtain ⟨m, hk, hrest⟩ := Option.bind_eq_some_iff.mp hrun
    by_cases hik : i = k
    · subst hik
      rw [ha.step_eq_none] at hk
      cases hk
    · exact ih (ha.of_step hk hik) hrest

/-! ## Two steps -/

/-- A push and a pop, of different processes, in both orders. -/
theorem push_pop_comm {q : Channel ι τ → List μ} {c c' : Channel ι τ} (x : μ) (h : q c' ≠ []) :
    (Effect.pop c').on ((Effect.push c x).on q) = (Effect.push c x).on ((Effect.pop c').on q) := by
  by_cases hc : c = c'
  · subst hc
    simp only [Effect.on, Function.update_self, Function.update_idem, List.tail_append_of_ne_nil h]
  · simp only [Effect.on, Function.update_of_ne hc, Function.update_of_ne (Ne.symm hc)]
    exact Function.update_comm hc _ _ q

theorem effect_comm {q : Channel ι τ → List μ} {e e' : Effect ι τ μ} (hij : i ≠ j)
    (he : e.Allowed q i) (he' : e'.Allowed q j) : e'.on (e.on q) = e.on (e'.on q) := by
  have hne : ∀ {c c' : Channel ι τ}, c.1 = i ∧ c'.1 = j ∨ c.2.1 = i ∧ c'.2.1 = j → c ≠ c' := by
    rintro c _ (⟨hi, hj⟩ | ⟨hi, hj⟩) rfl
    · exact hij (hi.symm.trans hj)
    · exact hij (hi.symm.trans hj)
  cases e with
  | quiet => rfl
  | push c x =>
    cases e' with
    | quiet => rfl
    | push c' y =>
      have hc : c ≠ c' := hne (.inl ⟨he, he'⟩)
      simp only [Effect.on, Function.update_of_ne hc, Function.update_of_ne (Ne.symm hc)]
      exact Function.update_comm hc _ _ q
    | pop c' => exact push_pop_comm x he'.2
  | pop c =>
    cases e' with
    | quiet => rfl
    | push c' y => exact (push_pop_comm y he.2).symm
    | pop c' =>
      have hc : c ≠ c' := hne (.inr ⟨he.1, he'.1⟩)
      simp only [Effect.on, Function.update_of_ne hc, Function.update_of_ne (Ne.symm hc)]
      exact Function.update_comm hc _ _ q

/-- **Steps of different processes commute.** -/
theorem step_commutes :
    Commutes (step W : Net ι τ μ σ Ω γ κ → ι → Option (Net ι τ μ σ Ω γ κ)) := by
  intro s i j s₁ s₂ hij hi hj
  obtain ⟨m, hm, rfl⟩ := step_eq_some.mp hi
  obtain ⟨m', hm', rfl⟩ := step_eq_some.mp hj
  refine ⟨⟨Function.update (Function.update s.proc i m.1) j m'.1, m'.2.on (m.2.on s.queue)⟩, ?_, ?_⟩
  · exact step_eq_some.mpr ⟨m', hm'.of_step hi (Ne.symm hij), rfl⟩
  · refine step_eq_some.mpr ⟨m, hm.of_step hj hij, ?_⟩
    rw [effect_comm hij hm.allowed hm'.allowed, Function.update_comm hij]

theorem Done.final (h : s.Done) : Final (step W) s := by
  intro i
  simp only [step, move, h i, Option.map_none]

/-! ## Synchronous schedules -/

/-- From the first state to the second one, every message that is sent is received at once. -/
inductive Sync (W : Platform ι σ Ω γ κ) : Net ι τ μ σ Ω γ κ → Net ι τ μ σ Ω γ κ → Prop
  | refl (s : Net ι τ μ σ Ω γ κ) : Sync W s s
  /-- Process `i` computes, enters, leaves or calls. -/
  | alone {s t u : Net ι τ μ σ Ω γ κ} {i : ι} : (∀ dest tag msg rest,
      (s.proc i).prog ≠ .send dest tag msg :: rest) → s.step W i = some t →
      Sync W t u → Sync W s u
  /-- Process `i` sends what process `j` waits for. -/
  | exchange {s m t u : Net ι τ μ σ Ω γ κ} {i j : ι} {tag : τ} {msg : σ → μ}
      {rest : List (Action ι τ μ σ γ κ)} : (s.proc i).prog = .send j tag msg :: rest →
      s.Waits j i tag → s.step W i = some m → m.step W j = some t →
      Sync W t u → Sync W s u

theorem Sync.trans {u : Net ι τ μ σ Ω γ κ} (h : Sync W s t) (h' : Sync W t u) :
    Sync W s u := by
  induction h with
  | refl s => exact h'
  | alone hsend hstep _ ih => exact .alone hsend hstep (ih h')
  | exchange hsend hwaits hi hj _ ih => exact .exchange hsend hwaits hi hj (ih h')

theorem Sync.exists_run (h : Sync W s t) : ∃ es, run (step W) s es = some t := by
  induction h with
  | refl s => exact ⟨[], rfl⟩
  | @alone s m u i _ hstep _ ih =>
    obtain ⟨es, hes⟩ := ih
    refine ⟨i :: es, ?_⟩
    rw [run_cons, hstep]
    exact hes
  | @exchange s m t u i j _ _ _ _ _ hi hj _ ih =>
    obtain ⟨es, hes⟩ := ih
    refine ⟨i :: j :: es, ?_⟩
    rw [run_cons, hi, Option.bind_some, run_cons, hj]
    exact hes

/-! ## Runs against a schedule -/

/-- No message is on the way. -/
def Empty (s : Net ι τ μ σ Ω γ κ) : Prop := ∀ c, s.queue c = []

theorem step_queue_of_ne {k : ι} (h : s.step W k = some t) (hi : k ≠ i) (hj : k ≠ j)
    (tag : τ) : t.queue (i, j, tag) = s.queue (i, j, tag) := by
  obtain ⟨⟨p, e⟩, hm, rfl⟩ := step_eq_some.mp h
  have hallowed := hm.allowed
  cases e with
  | quiet => rfl
  | push c x =>
    refine Function.update_of_ne ?_ _ _
    rintro rfl
    exact hi hallowed.symm
  | pop c =>
    refine Function.update_of_ne ?_ _ _
    rintro rfl
    exact hj hallowed.1.symm

theorem run_proc_of_not_mem {c : Net ι τ μ σ Ω γ κ} {es : List ι}
    (hrun : run (step W) s es = some c) (hi : i ∉ es) : c.proc i = s.proc i := by
  induction es generalizing s with
  | nil =>
    cases hrun
    rfl
  | cons k es ih =>
    obtain ⟨t, hk, hrest⟩ := Option.bind_eq_some_iff.mp hrun
    rw [List.mem_cons, not_or] at hi
    rw [ih hrest hi.2, step_proc_of_ne hk hi.1]

/-- Who waits for a process that does not move does not move either. -/
theorem run_waits {c : Net ι τ μ σ Ω γ κ} {es : List ι} {tag : τ}
    (hrun : run (step W) s es = some c) (hi : i ∉ es) (hempty : s.queue (i, j, tag) = [])
    (hwaits : s.Waits j i tag) : c.queue (i, j, tag) = [] ∧ c.Waits j i tag := by
  induction es generalizing s with
  | nil =>
    cases hrun
    exact ⟨hempty, hwaits⟩
  | cons k es ih =>
    obtain ⟨t, hk, hrest⟩ := Option.bind_eq_some_iff.mp hrun
    rw [List.mem_cons, not_or] at hi
    have hkj : k ≠ j := by
      rintro rfl
      obtain ⟨update, rest, hprog⟩ := hwaits
      simp only [step, move, hprog, hempty, Option.map_none, reduceCtorEq] at hk
    refine ih hrest hi.2 ?_ ?_
    · rw [step_queue_of_ne hk (Ne.symm hi.1) hkj, hempty]
    · rw [Waits, step_proc_of_ne hk (Ne.symm hkj)]
      exact hwaits

/-- Without messages on the way, a step that is not a send leaves it so. -/
theorem Empty.step_alone (hempty : s.Empty)
    (hsend : ∀ dest tag msg rest, (s.proc i).prog ≠ .send dest tag msg :: rest)
    (hstep : s.step W i = some t) : t.Empty := by
  obtain ⟨m, hm, rfl⟩ := step_eq_some.mp hstep
  cases hm with
  | send hprog => exact absurd hprog (hsend _ _ _ _)
  | recv _ hq _ => exact absurd ((hempty _).symm.trans hq) (List.cons_ne_nil _ _).symm
  | compute => exact hempty
  | enter => exact hempty
  | leave => exact hempty
  | call => exact hempty

theorem Empty.exchange (hempty : s.Empty) {tag : τ} {msg : σ → μ}
    {rest : List (Action ι τ μ σ γ κ)} (hsend : (s.proc i).prog = .send j tag msg :: rest)
    (hwaits : s.Waits j i tag) {m : Net ι τ μ σ Ω γ κ} (hi : s.step W i = some m)
    (hj : m.step W j = some t) : t.Empty := by
  obtain ⟨update, rest', hrecv⟩ := hwaits
  have hij : j ≠ i := by
    rintro rfl
    cases hsend.symm.trans hrecv
  obtain ⟨m₁, hm₁, rfl⟩ := step_eq_some.mp hi
  obtain ⟨m₂, hm₂, rfl⟩ := step_eq_some.mp hj
  have he₁ : m₁.2 = .push (i, j, tag) (msg (W.own (s.proc i).state)) := by
    have := move_eq_some.mpr hm₁
    simp only [move, hsend, Option.some.injEq] at this
    rw [← this]
  have he₂ : m₂.2 = .pop (i, j, tag) := by
    have := move_eq_some.mpr hm₂
    simp only [move, Function.update_of_ne hij, hrecv, he₁, Effect.on, Function.update_self,
      hempty _, List.nil_append] at this
    obtain ⟨x, -, rfl⟩ := Option.map_eq_some_iff.mp this
    rfl
  intro c
  simp only [he₁, he₂, Effect.on, Function.update_self, Function.update_idem, hempty _,
    List.nil_append, List.tail_cons]
  by_cases hc : c = (i, j, tag)
  · rw [hc, Function.update_self]
  · rw [Function.update_of_ne hc, hempty]

theorem ready_of_not_send
    (hsend : ∀ dest tag msg rest, (s.proc i).prog ≠ .send dest tag msg :: rest)
    (hstep : s.step W i = some t) : s.Ready W i := by
  unfold Ready
  split
  · exact absurd ‹_› (hsend _ _ _ _)
  · rw [hstep]
    rfl

/-- **No deadlock.** A state that is reached from the start of a synchronous schedule is the end
of the schedule, or some process can go on without a message being kept. -/
theorem Sync.ready (h : Sync W s t) (hdone : t.Done) (hempty : s.Empty) {es : List ι}
    {c : Net ι τ μ σ Ω γ κ} (hrun : run (step W) s es = some c) :
    c.Done ∨ ∃ i, c.Ready W i := by
  induction h generalizing es with
  | refl s =>
    cases es with
    | nil =>
      cases hrun
      exact .inl hdone
    | cons i es =>
      obtain ⟨_, hi, -⟩ := Option.bind_eq_some_iff.mp hrun
      rw [hdone.final i] at hi
      cases hi
  | @alone s m u i hsend hstep _ ih =>
    rcases step_commutes.front hstep hrun with ⟨hnot, c', hc'⟩ | ⟨before, after, rfl, hmoved⟩
    · -- the process has not moved, and it can do what it could do in the beginning
      refine .inr ⟨i, ready_of_not_send ?_ hc'⟩
      rw [run_proc_of_not_mem hrun hnot]
      exact hsend
    · exact ih hdone (hempty.step_alone hsend hstep) hmoved
  | @exchange s m t u i j tag msg rest hsend hwaits hi hj _ ih =>
    rcases step_commutes.front hi hrun with ⟨hnot, -⟩ | ⟨before, after, rfl, hmoved⟩
    · -- neither the sender nor the receiver has moved
      refine .inr ⟨i, ?_⟩
      unfold Ready
      rw [run_proc_of_not_mem hrun hnot, hsend]
      exact run_waits hrun hnot (hempty _) hwaits
    · rcases step_commutes.front hj hmoved with ⟨hnot, c', hc'⟩ | ⟨before', after', heq, hmoved'⟩
      · -- the message is on the way
        refine .inr ⟨j, ready_of_not_send ?_ hc'⟩
        obtain ⟨update, rest', hrecv⟩ := hwaits
        have hij : j ≠ i := by
          rintro rfl
          cases hsend.symm.trans hrecv
        rw [run_proc_of_not_mem hmoved hnot, step_proc_of_ne hi hij, hrecv]
        intro dest tag msg rest hne
        cases hne
      · rw [heq] at hmoved
        exact ih hdone (hempty.exchange hsend hwaits hi hj) hmoved'

/-- All runs from `s` are finite, none aborts, none is stuck, and all lead to `t`. -/
structure Outcome (W : Platform ι σ Ω γ κ) (s t : Net ι τ μ σ Ω γ κ) : Prop where
  done : t.Done
  bounded : ∃ n, ∀ es c, run (step W) s es = some c → es.length ≤ n
  sound : ∀ es c i, run (step W) s es = some c → ¬ c.Aborts W i
  ready : ∀ es c, run (step W) s es = some c → c = t ∨ ∃ i, c.Ready W i
  leads : ∀ es c, run (step W) s es = some c → ∃ rest, run (step W) c rest = some t

/-- **The outcome of a network.** One synchronous schedule that leads to the end is enough. -/
theorem Sync.outcome (h : Sync W s t) (hdone : t.Done) (hempty : s.Empty) : Outcome W s t := by
  obtain ⟨schedule, hschedule⟩ := h.exists_run
  have hleads : ∀ es c, run (step W) s es = some c →
      ∃ rest, run (step W) c rest = some t ∧ List.Perm (es ++ rest) schedule :=
    fun es c hrun => step_commutes.run_perm hschedule hdone.final hrun
  refine ⟨hdone, ⟨schedule.length, fun es c hrun => ?_⟩, fun es c i hrun haborts => ?_,
    fun es c hrun => ?_, fun es c hrun => ?_⟩
  · obtain ⟨rest, -, hperm⟩ := hleads es c hrun
    rw [← hperm.length_eq, List.length_append]
    exact Nat.le_add_right _ _
  · obtain ⟨rest, hrest, -⟩ := hleads es c hrun
    exact haborts.not_done hrest hdone
  · obtain ⟨rest, hrest, -⟩ := hleads es c hrun
    rcases h.ready hdone hempty hrun with hc | hready
    · left
      cases rest with
      | nil =>
        cases hrest
        rfl
      | cons i rest =>
        obtain ⟨_, hi, -⟩ := Option.bind_eq_some_iff.mp hrest
        rw [hc.final i] at hi
        cases hi
    · exact .inr hready
  · obtain ⟨rest, hrest, -⟩ := hleads es c hrun
    exact ⟨rest, hrest⟩

end Net

end CacheTrace.Message
