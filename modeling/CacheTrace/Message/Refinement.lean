import CacheTrace.Message.Files
import CacheTrace.Stdio.Store

/-!
# Calls as single steps

The network of `Message.Net` takes a call as one step of one process. A machine performs it
operation by operation, on files that it shares. This module says when the one stands for the
other.

A `Model` gives, for every state of a process of the network, what its calls have left and
the elements that its area of the file holds. The areas of two processes on one file do not
overlap. A call that has a result in the network either reads elements of its area, and then ends
the same way on any file that holds them, or writes some (`Meets`).

Then every run of the machine goes along with a run of the network (`Backs.run`): an operation of
a call is no step of the network, and the return from the call is the call. No call fails as long
as the network does not abort, no state is stuck, and every run can be led to an end, where the
files hold the elements of the last state of the network (`Backs.completes`).
-/

namespace CacheTrace.Message

open Transition
open Stdio (Prog File Double Cursor Holds bytes region View)

variable {ι τ μ σ Ω γ κ : Type}

/-! ## Networks without their calls -/

/-- The platform where a call has no result. -/
def Platform.mute (W : Platform ι σ Ω γ κ) : Platform ι σ Ω γ κ :=
  { W with call := fun _ _ _ => none }

/-- The platform of the parts of the states that are not left to the calls. -/
def Platform.plain (members : γ → List ι) : Platform ι σ σ γ κ where
  members := members
  own := id
  put s _ := s
  own_put _ _ := rfl
  call _ _ _ := none

def Proc.erase (W : Platform ι σ Ω γ κ) (p : Proc ι τ μ σ Ω γ κ) : Proc ι τ μ σ σ γ κ :=
  ⟨p.prog, W.own p.state, p.given⟩

def Net.erase (W : Platform ι σ Ω γ κ) (s : Net ι τ μ σ Ω γ κ) : Net ι τ μ σ σ γ κ :=
  ⟨fun i => (s.proc i).erase W, s.queue⟩

section Erase

variable [DecidableEq ι] [DecidableEq γ] {W : Platform ι σ Ω γ κ} {s t : Net ι τ μ σ Ω γ κ} {i : ι}

omit [DecidableEq ι] [DecidableEq γ] in
theorem Proc.erase_goOn (p : Proc ι τ μ σ Ω γ κ) (rest : List (Action ι τ μ σ γ κ)) (x : σ) :
    (p.goOn W.mute rest x).erase W = (p.erase W).goOn (.plain W.members) rest x := by
  simp only [Proc.erase, Proc.goOn, Platform.mute, Platform.plain, W.own_put]

/-- A call has no result on either side; every other action sees the same. -/
theorem Net.erase_move : (s.erase W).move (.plain W.members) i =
    (s.move W.mute i).map fun m => (m.1.erase W, m.2) := by
  have hprog_eq : ((s.erase W).proc i).prog = (s.proc i).prog := rfl
  cases hprog : (s.proc i).prog with
  | nil => simp only [move, hprog_eq, hprog, Option.map_none]
  | cons a rest =>
    cases a with
    | send dest tag msg =>
      simp only [move, hprog_eq, hprog, Option.map_some]
      rfl
    | recv source tag update =>
      have hqueue : (s.erase W).queue = s.queue := rfl
      simp only [move, hprog_eq, hprog, hqueue]
      cases s.queue (source, i, tag) with
      | nil => rfl
      | cons m ms =>
        simp only [Option.map_map, Function.comp_def, Proc.erase_goOn]
        rfl
    | compute f =>
      simp only [move, hprog_eq, hprog, Option.map_some, Proc.erase_goOn]
      rfl
    | enter g msg =>
      simp only [move, hprog_eq, hprog, Option.map_some]
      rfl
    | leave g update =>
      have hgiven : ((s.erase W).proc i).given = (s.proc i).given := rfl
      simp only [move, hprog_eq, hprog, hgiven]
      cases ((s.proc i).given g).length with
      | zero => rfl
      | succ n =>
        by_cases hall : ∀ j ∈ W.members g, n < ((s.proc j).given g).length
        · have hleft : ∀ j ∈ (Platform.plain W.members : Platform ι σ σ γ κ).members g,
            n < (((s.erase W).proc j).given g).length := hall
          have hright : ∀ j ∈ W.mute.members g, n < ((s.proc j).given g).length := hall
          simp only [if_pos hleft, if_pos hright, Option.map_map, Function.comp_def,
            Proc.erase_goOn]
          rfl
        · have hleft : ¬ ∀ j ∈ (Platform.plain W.members : Platform ι σ σ γ κ).members g,
            n < (((s.erase W).proc j).given g).length := hall
          have hright : ¬ ∀ j ∈ W.mute.members g, n < ((s.proc j).given g).length := hall
          simp only [if_neg hleft, if_neg hright, Option.map_none]
    | call c =>
      simp only [move, hprog_eq, hprog]
      rfl

variable [DecidableEq τ]

theorem Net.erase_step : (s.erase W).step (.plain W.members) i =
    (s.step W.mute i).map (·.erase W) := by
  rw [step, erase_move, step, Option.map_map, Option.map_map]
  congr 1
  funext m
  simp only [Function.comp_apply, erase, Net.mk.injEq, and_true]
  funext k
  by_cases hk : k = i
  · subst hk
    simp only [Function.update_self]
  · simp only [Function.update_of_ne hk]

theorem Net.step_of_mute (h : s.step W.mute i = some t) : s.step W i = some t := by
  obtain ⟨m, hm, rfl⟩ := step_eq_some.mp h
  refine step_eq_some.mpr ⟨m, ?_, rfl⟩
  cases hm with
  | send hprog => exact .send hprog
  | recv hprog hq hx => exact .recv hprog hq hx
  | compute hprog => exact .compute hprog
  | enter hprog => exact .enter hprog
  | leave hprog hn hall hx => exact .leave hprog hn hall hx
  | call _ hcall => cases hcall

theorem Net.mute_of_step (h : s.step W i = some t) (hcalls : ¬ s.Calls i) :
    s.step W.mute i = some t := by
  obtain ⟨m, hm, rfl⟩ := step_eq_some.mp h
  refine step_eq_some.mpr ⟨m, ?_, rfl⟩
  cases hm with
  | send hprog => exact .send hprog
  | recv hprog hq hx => exact .recv hprog hq hx
  | compute hprog => exact .compute hprog
  | enter hprog => exact .enter hprog
  | leave hprog hn hall hx => exact .leave hprog hn hall hx
  | call hprog _ => exact absurd ⟨_, _, hprog⟩ hcalls

/-- What is left to the calls is not changed by the other actions. -/
theorem Net.mute_state {β : Type} {f : Ω → β} (hf : ∀ x S, f (W.put x S) = f S)
    (h : s.step W.mute i = some t) (k : ι) : f (t.proc k).state = f (s.proc k).state := by
  by_cases hk : k = i
  · subst hk
    obtain ⟨m, hm, rfl⟩ := step_eq_some.mp h
    simp only [Function.update_self]
    cases hm with
    | send => rfl
    | recv => exact hf _ _
    | compute => exact hf _ _
    | enter => rfl
    | leave => exact hf _ _
    | call _ hcall => cases hcall
  · rw [step_proc_of_ne h hk]

theorem Net.step_call {c : κ} {rest : List (Action ι τ μ σ γ κ)} {S' : Ω}
    (hprog : (s.proc i).prog = .call c :: rest) (hcall : W.call i c (s.proc i).state = some S') :
    ∃ t, s.step W i = some t ∧ t.proc i = { s.proc i with prog := rest, state := S' } ∧
      t.queue = s.queue :=
  ⟨_, step_eq_some.mpr ⟨_, .call hprog hcall, rfl⟩, Function.update_self _ _ _, rfl⟩

omit [DecidableEq τ] [DecidableEq γ] in
theorem Net.Aborts.erase (h : s.Aborts W i) (hcalls : ¬ s.Calls i) :
    (s.erase W).Aborts (.plain W.members) i := by
  cases h with
  | recv hprog hq hx => exact .recv hprog hq hx
  | leave hprog hn hall hx => exact .leave hprog hn hall hx
  | call hprog _ => exact absurd ⟨_, _, hprog⟩ hcalls

omit [DecidableEq τ] [DecidableEq γ] in
theorem Net.Aborts.of_erase (h : (s.erase W).Aborts (.plain W.members) i)
    (hcalls : ¬ s.Calls i) : s.Aborts W i := by
  cases h with
  | recv hprog hq hx => exact .recv hprog hq hx
  | leave hprog hn hall hx => exact .leave hprog hn hall hx
  | call hprog _ => exact absurd ⟨_, _, hprog⟩ hcalls

/-- Whether a process can go on does not depend on what is left to the calls. -/
theorem Net.ready_erase (hcalls : ¬ s.Calls i) :
    (s.erase W).Ready (.plain W.members) i ↔ s.Ready W i := by
  have hsome : ((s.erase W).step (.plain W.members) i).isSome ↔ (s.step W i).isSome := by
    rw [erase_step, Option.isSome_map, Option.isSome_iff_exists, Option.isSome_iff_exists]
    exact exists_congr fun t => ⟨step_of_mute, fun h => mute_of_step h hcalls⟩
  have hprog_eq : ((s.erase W).proc i).prog = (s.proc i).prog := rfl
  unfold Ready
  rw [hprog_eq]
  split
  · exact Iff.rfl
  · exact hsome

end Erase

/-! ## Calls on files -/

variable {θ ε : Type}

/-- What the calls of a service do, seen as single steps: the state of a process has what its
calls have left, and the elements of its area of the file. -/
structure Model (P : Service ι σ θ γ κ ε) (Ω : Type) where
  own : Ω → σ
  put : σ → Ω → Ω
  own_put : ∀ x S, own (put x S) = x
  call : ι → κ → Ω → Option Ω
  kept : Ω → θ
  kept_put : ∀ x S, kept (put x S) = kept S
  elements : Ω → Nat → Option Double
  elements_put : ∀ x S, elements (put x S) = elements S
  /-- The area of a process has `size` elements, from byte `base` on. -/
  base : ι → Nat
  size : ι → Nat
  apart : ∀ i k, i ≠ k → P.file i = P.file k →
    base i + 8 * size i ≤ base k ∨ base k + 8 * size k ≤ base i

namespace Model

variable {P : Service ι σ θ γ κ ε} (A : Model P Ω)

def platform : Platform ι σ Ω γ κ := ⟨P.members, A.own, A.put, A.own_put, A.call⟩

/-- The call reads the elements `xs`. -/
structure ReadsFrom (i : ι) (S S' : Ω) (lo : Nat) (xs : List Double) : Prop where
  inside : lo + xs.length ≤ A.size i
  present : ∀ n x, xs[n]? = some x → A.elements S (lo + n) = some x
  elements_eq : A.elements S' = A.elements S

/-- The call writes the elements `xs`. -/
structure WritesTo (i : ι) (c : κ) (S S' : Ω) (lo : Nat) (xs : List Double) : Prop where
  inside : lo + xs.length ≤ A.size i
  elements_eq : ∀ n, A.elements S' n =
    if lo ≤ n ∧ n < lo + xs.length then xs[n - lo]? else A.elements S n
  finish : ∀ stores, P.finish i c stores (A.own S) = A.own S'

/-- The program of a call does what the call does. -/
inductive Meets (i : ι) (c : κ) (S S' : Ω) : Prop
  | read {lo : Nat} {xs : List Double} : A.ReadsFrom i S S' lo xs →
      (∀ pos, ∃ cursor, (P.prog i c (A.own S) (A.kept S)).eval (region (A.base i + 8 * lo) xs)
        ⟨pos, []⟩ = some (.ok (A.kept S'), cursor) ∧
        P.finish i c cursor.stores (A.own S) = A.own S') → Meets i c S S'
  | write {lo : Nat} {xs : List Double} : A.WritesTo i c S S' lo xs →
      (∀ pos, (P.prog i c (A.own S) (A.kept S)).Writing (A.base i + 8 * lo) (bytes xs)
        (· = A.kept S') [] pos) → Meets i c S S'

/-- The calls that are made, and the states between them. -/
structure Contract where
  Key : ι → κ → Prop
  Good : ι → θ → Prop
  meets {i : ι} {c : κ} {S S' : Ω} : Key i c → Good i (A.kept S) → A.call i c S = some S' →
    Good i (A.kept S') ∧ A.Meets i c S S'

/-- The file has the elements of the area, those from `lo` to `hi` apart. -/
def Held (i : ι) (f : File) (S : Ω) (lo hi : Nat) : Prop :=
  ∀ n x, n < A.size i → ¬ (lo ≤ n ∧ n < hi) → A.elements S n = some x →
    Holds f (A.base i + 8 * n) (bytes [x])

variable {A} {i : ι} {f f' : File} {S S' : Ω} {lo : Nat} {xs : List Double}

theorem Held.holds (h : A.Held i f S 0 0) (hread : A.ReadsFrom i S S' lo xs) :
    Holds f (A.base i + 8 * lo) (bytes xs) := by
  refine Stdio.holds_bytes.mpr fun k x hx => ?_
  have hk : k < xs.length := (List.getElem?_eq_some_iff.mp hx).1
  have hinside := hread.inside
  have hheld := h (lo + k) x (by omega) (by omega) (hread.present k x hx)
  rwa [Nat.mul_add, ← Nat.add_assoc] at hheld

/-- Every byte of the area stays. -/
def Untouched (A : Model P Ω) (i : ι) (f f' : File) : Prop :=
  ∀ lo bs, A.base i ≤ lo → lo + bs.length ≤ A.base i + 8 * A.size i → Holds f lo bs →
    Holds f' lo bs

theorem Held.frame {hi : Nat} (h : A.Held i f S lo hi) (hf : A.Untouched i f f') :
    A.Held i f' S lo hi := by
  intro n x hn hout hx
  refine hf _ _ (Nat.le_add_right _ _) ?_ (h n x hn hout hx)
  rw [Stdio.length_bytes, List.length_singleton]
  omega

/-- What a write has left of the elements is held when its bytes stand in their place. -/
theorem WritesTo.held {c : κ} (hw : A.WritesTo i c S S' lo xs)
    (h : A.Held i f S lo (lo + xs.length)) (hxs : Holds f (A.base i + 8 * lo) (bytes xs)) :
    A.Held i f S' 0 0 := by
  intro n x hn _ hx
  rw [hw.elements_eq] at hx
  split_ifs at hx with hin
  · have hheld := Stdio.holds_bytes.mp hxs (n - lo) x hx
    rwa [show A.base i + 8 * lo + 8 * (n - lo) = A.base i + 8 * n by omega] at hheld
  · exact h n x hn hin hx

/-! ## Where a process stands -/

/-- How a process stands to its state `S` in the network, where the calls are single steps. -/
inductive Standing (A : Model P Ω) (i : ι) (f : File) (prog : List (Action ι τ μ σ γ κ)) (S : Ω)
    (pos : Nat) : Option (Prog ε θ × List (Int × Double)) → Prop
  | idle : A.Held i f S 0 0 → Standing A i f prog S pos none
  | reading {c : κ} {rest : List (Action ι τ μ σ γ κ)} {S' : Ω} {lo : Nat} {xs : List Double}
      {p : Prog ε θ} {stores : List (Int × Double)} {cursor : Cursor} :
      prog = .call c :: rest → A.call i c S = some S' → A.Held i f S 0 0 →
      A.ReadsFrom i S S' lo xs →
      p.eval (region (A.base i + 8 * lo) xs) ⟨pos, stores⟩ = some (.ok (A.kept S'), cursor) →
      P.finish i c cursor.stores (A.own S) = A.own S' →
      Standing A i f prog S pos (some (p, stores))
  | writing {c : κ} {rest : List (Action ι τ μ σ γ κ)} {S' : Ω} {lo : Nat} {xs : List Double}
      {p : Prog ε θ} {stores : List (Int × Double)} {done : List UInt8} :
      prog = .call c :: rest → A.call i c S = some S' → A.Held i f S lo (lo + xs.length) →
      A.WritesTo i c S S' lo xs →
      p.Writing (A.base i + 8 * lo) (bytes xs) (· = A.kept S') done pos →
      Holds f (A.base i + 8 * lo) done →
      Standing A i f prog S pos (some (p, stores))

namespace Standing

variable {prog : List (Action ι τ μ σ γ κ)} {pos : Nat} {p p' : Prog ε θ}
  {stores : List (Int × Double)} {running : Option (Prog ε θ × List (Int × Double))}

theorem calls (h : A.Standing i f prog S pos (some (p, stores))) :
    ∃ c rest, prog = .call c :: rest := by
  cases h with
  | reading hprog => exact ⟨_, _, hprog⟩
  | writing hprog => exact ⟨_, _, hprog⟩

theorem not_abort {e : ε} : ¬ A.Standing i f prog S pos (some (.abort e, stores)) := by
  intro h
  cases h with
  | reading _ _ _ _ heval => cases heval
  | writing _ _ _ _ hw => cases hw

theorem frame (h : A.Standing i f prog S pos running) (hf : A.Untouched i f f') :
    A.Standing i f' prog S pos running := by
  cases h with
  | idle hheld => exact .idle (hheld.frame hf)
  | reading hprog hcall hheld hread heval hfinish =>
    exact .reading hprog hcall (hheld.frame hf) hread heval hfinish
  | writing hprog hcall hheld hwrites hw hdone =>
    refine .writing hprog hcall (hheld.frame hf) hwrites hw (hf _ _ (Nat.le_add_right _ _) ?_ hdone)
    have hinside := hwrites.inside
    have hlength := hw.length_le
    rw [Stdio.length_bytes] at hlength
    omega

/-- A process starts a call. -/
theorem start {c : κ} {rest : List (Action ι τ μ σ γ κ)} (h : A.Standing i f prog S pos none)
    (hprog : prog = .call c :: rest) (hcall : A.call i c S = some S') (hmeets : A.Meets i c S S') :
    A.Standing i f prog S pos (some (P.prog i c (A.own S) (A.kept S), [])) := by
  cases h with
  | idle hheld =>
    cases hmeets with
    | read hread hprogram =>
      obtain ⟨cursor, heval, hfinish⟩ := hprogram pos
      exact .reading hprog hcall hheld hread heval hfinish
    | write hwrites hprogram =>
      refine .writing hprog hcall ?_ hwrites (hprogram pos) (Stdio.holds_nil _ _)
      exact fun n x hn _ hx => hheld n x hn (by omega) hx

/-- One operation of a call goes on with it, and touches nothing outside of the area. -/
theorem op {m : Nat} {cursor : Cursor} (h : A.Standing i f prog S pos (some (p, stores)))
    (hstep : p.step m f ⟨pos, stores⟩ = (p', f', cursor)) :
    A.Standing i f' prog S cursor.pos (some (p', cursor.stores)) ∧
      ∀ lo bs, lo + bs.length ≤ A.base i ∨ A.base i + 8 * A.size i ≤ lo → Holds f lo bs →
        Holds f' lo bs := by
  cases h with
  | reading hprog hcall hheld hread heval hfinish =>
    obtain ⟨rfl, heval'⟩ := Prog.eval_step (hheld.holds hread).region heval hstep
    exact ⟨.reading hprog hcall hheld hread heval' hfinish, fun _ _ _ h => h⟩
  | @writing _ _ _ lo xs _ _ _ hprog hcall hheld hwrites hw hdone =>
    obtain ⟨⟨done', hw', hdone'⟩, hout⟩ := Prog.Writing.step (s := ⟨pos, stores⟩) hw hdone hstep
    have hinside := hwrites.inside
    rw [Stdio.length_bytes] at hout
    refine ⟨.writing hprog hcall ?_ hwrites hw' hdone', fun lo' bs h => hout lo' bs (by omega)⟩
    intro n x hn hne hx
    refine hout _ _ ?_ (hheld n x hn hne hx)
    rw [Stdio.length_bytes, List.length_singleton]
    omega

/-- The return from a call is the call. -/
theorem ret {c : κ} {rest : List (Action ι τ μ σ γ κ)} {a : θ}
    (h : A.Standing i f (.call c :: rest) S pos (some (.ret a, stores))) :
    ∃ S', A.call i c S = some S' ∧ a = A.kept S' ∧
      P.finish i c stores (A.own S) = A.own S' ∧ A.Held i f S' 0 0 := by
  cases h with
  | reading hprog hcall hheld hread heval hfinish =>
    cases hprog
    cases heval
    refine ⟨_, hcall, rfl, hfinish, fun n x hn hne hx => hheld n x hn hne ?_⟩
    rwa [← hread.elements_eq]
  | writing hprog hcall hheld hwrites hw hdone =>
    cases hprog
    cases hw with
    | ret ha => exact ⟨_, hcall, ha, hwrites.finish _, hwrites.held hheld hdone⟩

end Standing

/-! ## Machines and networks -/

/-- The machine is in the middle of what the network has reached. -/
structure Backs {A : Model P Ω} (C : A.Contract) (M : Machine ι τ μ σ θ γ κ ε)
    (s : Net ι τ μ σ Ω γ κ) : Prop where
  erase_eq : M.net.erase P.platform = s.erase A.platform
  kept : ∀ i, (M.host i).kept = A.kept (s.proc i).state
  good : ∀ i, C.Good i (A.kept (s.proc i).state)
  keys : ∀ i c, c ∈ callsOf (s.proc i).prog → C.Key i c
  standing : ∀ i, A.Standing i (M.disk (P.file i)) (s.proc i).prog (s.proc i).state (M.host i).pos
    (M.host i).running

namespace Backs

variable {C : A.Contract} {M M' : Machine ι τ μ σ θ γ κ ε} {s s' t : Net ι τ μ σ Ω γ κ}

theorem prog_eq (h : Backs C M s) (k : ι) : (M.net.proc k).prog = (s.proc k).prog :=
  congrArg (fun net => (net.proc k).prog) h.erase_eq

theorem own_eq (h : Backs C M s) (k : ι) : (M.host k).own = A.own (s.proc k).state :=
  congrArg (fun net => (net.proc k).state) h.erase_eq

theorem calls_iff (h : Backs C M s) : M.net.Calls i ↔ s.Calls i := by
  rw [Net.Calls, h.prog_eq, Net.Calls]

theorem done_iff (h : Backs C M s) : M.net.Done ↔ s.Done :=
  forall_congr' fun k => by rw [h.prog_eq]

variable [DecidableEq ι]

/-- An event concerns one process. What it does to the file touches no other area. -/
theorem update (h : Backs C M s) (herase : M'.net.erase P.platform = s'.erase A.platform)
    (hhost : ∀ k, k ≠ i → M'.host k = M.host k) (hproc : ∀ k, k ≠ i → s'.proc k = s.proc k)
    (hdisk : M'.disk = Function.update M.disk (P.file i) f')
    (hout : ∀ lo bs, lo + bs.length ≤ A.base i ∨ A.base i + 8 * A.size i ≤ lo →
      Holds (M.disk (P.file i)) lo bs → Holds f' lo bs)
    (hkept : (M'.host i).kept = A.kept (s'.proc i).state)
    (hgood : C.Good i (A.kept (s'.proc i).state)) (hprog : (s'.proc i).prog <:+ (s.proc i).prog)
    (hstanding : A.Standing i f' (s'.proc i).prog (s'.proc i).state (M'.host i).pos
      (M'.host i).running) : Backs C M' s' := by
  refine ⟨herase, fun k => ?_, fun k => ?_, fun k c hc => ?_, fun k => ?_⟩
  · by_cases hk : k = i
    · exact hk ▸ hkept
    · rw [hhost k hk, hproc k hk]
      exact h.kept k
  · by_cases hk : k = i
    · exact hk ▸ hgood
    · rw [hproc k hk]
      exact h.good k
  · by_cases hk : k = i
    · subst hk
      exact h.keys k c (mem_callsOf.mpr (hprog.subset (mem_callsOf.mp hc)))
    · rw [hproc k hk] at hc
      exact h.keys k c hc
  · by_cases hk : k = i
    · subst hk
      rw [hdisk, Function.update_self]
      exact hstanding
    · rw [hproc k hk, hhost k hk, hdisk]
      by_cases hfile : P.file k = P.file i
      · rw [hfile, Function.update_self]
        have hbefore := h.standing k
        rw [hfile] at hbefore
        have hapart := A.apart k i hk hfile
        exact hbefore.frame fun lo bs hlo hhi => hout lo bs (by omega)
      · rw [Function.update_of_ne hfile]
        exact h.standing k

/-- The file is left as it is. -/
theorem update_host (h : Backs C M s) (herase : M'.net.erase P.platform = s'.erase A.platform)
    (hhost : ∀ k, k ≠ i → M'.host k = M.host k) (hproc : ∀ k, k ≠ i → s'.proc k = s.proc k)
    (hdisk : M'.disk = M.disk) (hkept : (M'.host i).kept = A.kept (s'.proc i).state)
    (hgood : C.Good i (A.kept (s'.proc i).state)) (hprog : (s'.proc i).prog <:+ (s.proc i).prog)
    (hstanding : A.Standing i (M.disk (P.file i)) (s'.proc i).prog (s'.proc i).state
      (M'.host i).pos (M'.host i).running) : Backs C M' s' :=
  h.update herase hhost hproc (hdisk.trans (Function.update_eq_self _ _).symm)
    (fun _ _ _ h => h) hkept hgood hprog hstanding

theorem erase_advance (p : Prog ε θ) (cursor : Cursor) :
    (M.setHost i ((M.host i).advance p cursor)).net.erase P.platform =
      M.net.erase P.platform := by
  simp only [Net.erase, Net.mk.injEq]
  refine ⟨funext fun k => ?_, rfl⟩
  by_cases hk : k = i
  · subst hk
    rw [Machine.setHost, Machine.setProc_proc_self]
    rfl
  · rw [M.setHost_proc_of_ne hk]

variable [DecidableEq γ] [DecidableEq τ]

theorem act (h : Backs C M s) (hstep : M.step P (.act i) = some M') :
    ∃ s', s.step A.platform i = some s' ∧ Backs C M' s' := by
  obtain ⟨net, hnet, rfl⟩ := Machine.act_eq_some.mp hstep
  have hcalls : ¬ M.net.Calls i := Machine.act_not_calls hnet
  -- the same action in the network
  have herase : (s.erase A.platform).step (.plain P.members) i = some (net.erase P.platform) := by
    rw [← h.erase_eq]
    exact Net.erase_step.trans (congrArg (Option.map (Net.erase P.platform)) hnet)
  obtain ⟨s', hs', herase'⟩ := Option.map_eq_some_iff.mp (Net.erase_step.symm.trans herase)
  have hstep' := Net.step_of_mute hs'
  have hidle : (M.host i).running = none := by
    cases hrunning : (M.host i).running with
    | none => rfl
    | some r =>
      have hstanding := h.standing i
      rw [hrunning] at hstanding
      exact absurd (h.calls_iff.mpr hstanding.calls) hcalls
  have hkept := Net.mute_state (f := A.kept) A.kept_put hs' i
  have helements := Net.mute_state (f := A.elements) A.elements_put hs' i
  have hhostkept := Net.mute_state (W := P.platform) (f := Host.kept) (fun _ _ => rfl) hnet i
  have hrunning := Net.mute_state (W := P.platform) (f := Host.running) (fun _ _ => rfl) hnet i
  refine ⟨s', hstep', h.update_host herase'.symm (fun k hk => ?_)
    (fun k hk => Net.step_proc_of_ne hstep' hk) rfl ?_ ?_ (Net.step_suffix hstep' i) ?_⟩
  · rw [Machine.host, Net.step_proc_of_ne hnet hk, Machine.host]
  · rw [hkept, ← h.kept i]
    exact hhostkept
  · rw [hkept]
    exact h.good i
  · have hbefore := h.standing i
    rw [hidle] at hbefore
    cases hbefore with
    | idle hheld =>
      have hnone : (net.proc i).state.running = none := hrunning.trans hidle
      rw [Machine.host, hnone]
      refine .idle fun n x hn hne hx => hheld n x hn hne ?_
      rwa [← helements]

theorem start (h : Backs C M s) (hsafe : ¬ s.Aborts A.platform i)
    (hstep : M.step P (.start i) = some M') : Backs C M' s := by
  obtain ⟨c, rest, hprog, hrunning, rfl⟩ := Machine.start_eq_some.mp hstep
  have hprog' : (s.proc i).prog = .call c :: rest := (h.prog_eq i).symm.trans hprog
  -- the call has a result in the network
  obtain ⟨S', hS'⟩ : ∃ S', A.call i c (s.proc i).state = some S' :=
    Option.ne_none_iff_exists'.mp fun hnone => hsafe (.call hprog' hnone)
  have hkey : C.Key i c := h.keys i c (mem_callsOf.mpr (hprog' ▸ List.mem_cons_self))
  obtain ⟨-, hmeets⟩ := C.meets hkey (h.good i) hS'
  have hstanding := h.standing i
  rw [hrunning] at hstanding
  refine h.update_host (i := i) ((erase_advance _ _).trans h.erase_eq)
    (fun k hk => M.setHost_host_of_ne hk _) (fun _ _ => rfl) rfl ?_ (h.good i) List.suffix_rfl ?_
  · rw [Machine.setHost_host_self]
    exact h.kept i
  · rw [Machine.setHost_host_self, h.own_eq, h.kept]
    exact hstanding.start hprog' hS' hmeets

theorem op {m : Nat} (h : Backs C M s) (hstep : M.step P (.op i m) = some M') : Backs C M' s := by
  obtain ⟨p, stores, p', f', cursor, hrunning, hop, rfl⟩ := Machine.op_eq_some.mp hstep
  have hstanding := h.standing i
  rw [hrunning] at hstanding
  obtain ⟨hnext, hout⟩ := hstanding.op hop
  refine h.update (i := i) ((erase_advance _ _).trans h.erase_eq)
    (fun k hk => M.setHost_host_of_ne hk _) (fun _ _ => rfl) rfl hout ?_ (h.good i)
    List.suffix_rfl ?_
  · rw [Machine.setFile_host, Machine.setHost_host_self]
    exact h.kept i
  · rw [Machine.setFile_host, Machine.setHost_host_self]
    exact hnext

theorem ret (h : Backs C M s) (hstep : M.step P (.ret i) = some M') :
    ∃ s', s.step A.platform i = some s' ∧ Backs C M' s' := by
  obtain ⟨c, rest, a, stores, hprog, hrunning, rfl⟩ := Machine.ret_eq_some.mp hstep
  have hprog' : (s.proc i).prog = .call c :: rest := (h.prog_eq i).symm.trans hprog
  have hkey : C.Key i c := h.keys i c (mem_callsOf.mpr (hprog' ▸ List.mem_cons_self))
  have hstanding := h.standing i
  rw [hrunning, hprog'] at hstanding
  obtain ⟨S', hS', ha, hfinish, hheld⟩ := hstanding.ret
  obtain ⟨hgood, -⟩ := C.meets hkey (h.good i) hS'
  obtain ⟨s', hstep', hproc, hqueue⟩ := Net.step_call (W := A.platform) hprog' hS'
  have hothers : ∀ k, k ≠ i → s'.proc k = s.proc k := fun k hk => Net.step_proc_of_ne hstep' hk
  refine ⟨s', hstep', h.update_host (i := i) ?_ (fun k hk => ?_) hothers rfl ?_ ?_ ?_ ?_⟩
  · simp only [Net.erase, Net.mk.injEq]
    refine ⟨funext fun k => ?_, (congrArg Net.queue h.erase_eq).trans hqueue.symm⟩
    by_cases hk : k = i
    · subst hk
      rw [Machine.setProc_proc_self, hproc]
      have hgiven : (M.net.proc k).given = (s.proc k).given :=
        congrArg (fun net => (net.proc k).given) h.erase_eq
      simp only [Proc.erase, Service.platform, platform, hgiven, h.own_eq, hfinish]
    · rw [M.setProc_proc_of_ne hk, hothers k hk]
      exact congrArg (fun net => net.proc k) h.erase_eq
  · rw [Machine.host, M.setProc_proc_of_ne hk, Machine.host]
  · rw [Machine.host, Machine.setProc_proc_self, hproc]
    exact ha
  · rw [hproc]
    exact hgood
  · exact Net.step_suffix hstep' i
  · rw [Machine.host, Machine.setProc_proc_self, hproc]
    exact .idle hheld

/-- **An event of the machine** is a step of the network or none. -/
theorem step {e : Event ι} (h : Backs C M s) (hsafe : ∀ i, ¬ s.Aborts A.platform i)
    (hstep : M.step P e = some M') :
    ∃ s', run (Net.step A.platform) s e.acts.toList = some s' ∧ Backs C M' s' := by
  cases e with
  | act i =>
    obtain ⟨s', hs', h'⟩ := h.act hstep
    exact ⟨s', (run_singleton s i).trans hs', h'⟩
  | start i => exact ⟨s, rfl, h.start (hsafe i) hstep⟩
  | op i m => exact ⟨s, rfl, h.op hstep⟩
  | ret i =>
    obtain ⟨s', hs', h'⟩ := h.ret hstep
    exact ⟨s', (run_singleton s i).trans hs', h'⟩

/-- The network does not abort in any run from `s`. -/
def Sound (W : Platform ι σ Ω γ κ) (s : Net ι τ μ σ Ω γ κ) : Prop :=
  ∀ is m i, run (Net.step W) s is = some m → ¬ m.Aborts W i

theorem Sound.run {W : Platform ι σ Ω γ κ} {is : List ι} (h : Sound W s)
    (hrun : run (Net.step W) s is = some s') : Sound W s' :=
  fun _ m i hrest => h _ m i (run_append.mpr ⟨s', hrun, hrest⟩)

/-- **Every run of the machine** goes along with a run of the network. -/
theorem run {es : List (Event ι)} (h : Backs C M s) (hsound : Sound A.platform s)
    (hrun : Transition.run (Machine.step P) M es = some M') :
    ∃ s', Transition.run (Net.step A.platform) s (es.filterMap Event.acts) = some s' ∧
      Backs C M' s' := by
  induction es generalizing M s with
  | nil =>
    cases hrun
    exact ⟨s, rfl, h⟩
  | cons e es ih =>
    obtain ⟨m, hm, hrest⟩ := Option.bind_eq_some_iff.mp hrun
    obtain ⟨n, hn, hback⟩ := h.step (fun i => hsound [] s i rfl) hm
    obtain ⟨s', hs', hback'⟩ := ih hback (hsound.run hn) hrest
    refine ⟨s', ?_, hback'⟩
    rw [show (e :: es).filterMap Event.acts = e.acts.toList ++ es.filterMap Event.acts by
      cases he : e.acts <;> simp [he]]
    exact run_append.mpr ⟨n, hn, hs'⟩

/-! ## The way to the end -/

omit [DecidableEq γ] [DecidableEq τ] in
theorem not_aborts (h : Backs C M s) (hsafe : ¬ s.Aborts A.platform i) : ¬ M.Aborts P i := by
  intro haborts
  cases haborts with
  | call hrunning =>
    have hstanding := h.standing i
    rw [hrunning] at hstanding
    exact hstanding.not_abort
  | act hcalls haborts =>
    have herase : (s.erase A.platform).Aborts (.plain P.members) i :=
      h.erase_eq ▸ haborts.erase hcalls
    exact hsafe (Net.Aborts.of_erase herase (h.calls_iff.not.mp hcalls))

theorem ready (h : Backs C M s) (hready : s.Ready A.platform i) : M.Ready P i := by
  by_cases hcalls : s.Calls i
  · refine .inl ⟨h.calls_iff.mpr hcalls, fun e stores hrunning => ?_⟩
    have hstanding := h.standing i
    rw [hrunning] at hstanding
    exact hstanding.not_abort
  · have hcalls' := h.calls_iff.not.mpr hcalls
    refine .inr ⟨hcalls', (Net.ready_erase hcalls').mp ?_⟩
    rw [h.erase_eq]
    exact (Net.ready_erase hcalls).mpr hready

/-- A process can perform the next operation of its call. -/
theorem exists_op {p : Prog ε θ} {stores : List (Int × Double)} (m : Nat) (h : Backs C M s)
    (hrunning : (M.host i).running = some (p, stores)) :
    ∃ M' stores', M.step P (.op i m) = some M' ∧ Backs C M' s ∧ (M'.host i).running =
      some ((p.step m (M.disk (P.file i)) ⟨(M.host i).pos, stores⟩).1, stores') := by
  cases hop : p.step m (M.disk (P.file i)) ⟨(M.host i).pos, stores⟩ with
  | mk p' o =>
    have hstep := Machine.op_eq_some.mpr ⟨p, stores, p', o.1, o.2, hrunning, hop, rfl⟩
    refine ⟨_, o.2.stores, hstep, h.op hstep, ?_⟩
    rw [Machine.setFile_host, Machine.setHost_host_self]
    rfl

/-- Process `i` comes to the return from its call. -/
def Returns (C : A.Contract) (M : Machine ι τ μ σ θ γ κ ε) (s : Net ι τ μ σ Ω γ κ) (i : ι) : Prop :=
  ∃ (ms : List Nat) (M' : Machine ι τ μ σ θ γ κ ε) (a : θ) (stores : List (Int × Double)),
    Transition.run (Machine.step P) M (ms.map (Event.op i)) = some M' ∧
    Backs C M' s ∧ (M'.host i).running = some (.ret a, stores)

theorem Returns.of_step {m : Nat} (hstep : M.step P (.op i m) = some M')
    (h : Returns C M' s i) : Returns C M s i := by
  obtain ⟨ms, M'', a, stores, hrun, hrest⟩ := h
  refine ⟨m :: ms, M'', a, stores, ?_, hrest⟩
  rw [List.map_cons, run_cons, hstep]
  exact hrun

/-- A call that has been started can be brought to its return. -/
theorem returns {p : Prog ε θ} {stores : List (Int × Double)} (h : Backs C M s)
    (hrunning : (M.host i).running = some (p, stores)) : Returns C M s i := by
  induction p generalizing M stores with
  | ret a => exact ⟨[], M, a, stores, rfl, h, hrunning⟩
  | abort e =>
    have hstanding := h.standing i
    rw [hrunning] at hstanding
    exact hstanding.not_abort.elim
  | fseek w off k ih =>
    obtain ⟨M', stores', hstep, h', hrunning'⟩ := h.exists_op 0 hrunning
    refine Returns.of_step hstep ?_
    simp only [Prog.step] at hrunning'
    split at hrunning'
    · exact ih true h' hrunning'
    · exact ih false h' hrunning'
  | fread dest n k ih =>
    obtain ⟨M', stores', hstep, h', hrunning'⟩ := h.exists_op 0 hrunning
    exact Returns.of_step hstep (ih _ h' hrunning')
  | fwrite bs n k ih =>
    have hlast {M : Machine ι τ μ σ θ γ κ ε} {stores : List (Int × Double)} (h : Backs C M s)
        (hrunning : (M.host i).running = some (.fwrite [] n k, stores)) : Returns C M s i := by
      obtain ⟨M', stores', hstep, h', hrunning'⟩ := h.exists_op 0 hrunning
      exact Returns.of_step hstep (ih _ h' hrunning')
    cases bs with
    | nil => exact hlast h hrunning
    | cons b bs =>
      -- all bytes at once
      obtain ⟨M', stores', hstep, h', hrunning'⟩ := h.exists_op (b :: bs).length hrunning
      simp only [Prog.step, List.drop_length] at hrunning'
      exact Returns.of_step hstep (hlast h' hrunning')

theorem exists_start {c : κ} {rest : List (Action ι τ μ σ γ κ)} (h : Backs C M s)
    (hsafe : ¬ s.Aborts A.platform i) (hprog : (s.proc i).prog = .call c :: rest)
    (hrunning : (M.host i).running = none) :
    ∃ M', M.step P (.start i) = some M' ∧ Backs C M' s ∧ (M'.host i).running ≠ none := by
  have hstep := (Machine.start_eq_some (P := P)).mpr
    ⟨c, rest, (h.prog_eq i).trans hprog, hrunning, rfl⟩
  refine ⟨_, hstep, h.start hsafe hstep, ?_⟩
  rw [Machine.setHost_host_self]
  exact Option.some_ne_none _

/-- Every step of the network can be made on the machine. -/
theorem exists_run (h : Backs C M s) (hsafe : ¬ s.Aborts A.platform i)
    (hstep : s.step A.platform i = some s') :
    ∃ es M', Transition.run (Machine.step P) M es = some M' ∧ Backs C M' s' := by
  by_cases hcalls : s.Calls i
  · obtain ⟨c, rest, hprog⟩ := hcalls
    -- the call is started unless it is going on
    have hstarted : ∃ es M', Transition.run (Machine.step P) M es = some M' ∧ Backs C M' s ∧
        (M'.host i).running ≠ none := by
      cases hrunning : (M.host i).running with
      | none =>
        obtain ⟨M', hM', h', hrunning'⟩ := h.exists_start hsafe hprog hrunning
        exact ⟨[.start i], M', (run_singleton M _).trans hM', h', hrunning'⟩
      | some r => exact ⟨[], M, rfl, h, by simp [hrunning]⟩
    obtain ⟨es, m, hrun, hm, hrunning⟩ := hstarted
    obtain ⟨⟨p, stores⟩, hp⟩ := Option.ne_none_iff_exists'.mp hrunning
    obtain ⟨ms, n, a, stores', hops, hn, hret⟩ := hm.returns hp
    have hlast := (Machine.ret_eq_some (P := P)).mpr
      ⟨c, rest, a, stores', (hn.prog_eq i).trans hprog, hret, rfl⟩
    obtain ⟨s'', hs'', h'⟩ := hn.ret hlast
    cases hs''.symm.trans hstep
    refine ⟨es ++ (ms.map (Event.op i) ++ [.ret i]), _, ?_, h'⟩
    exact run_append.mpr ⟨m, hrun, run_concat.mpr ⟨n, hops, hlast⟩⟩
  · have hmute : (s.erase A.platform).step (.plain P.members) i = some (s'.erase A.platform) :=
      Net.erase_step.trans (congrArg (Option.map _) (Net.mute_of_step hstep hcalls))
    rw [← h.erase_eq] at hmute
    obtain ⟨net, hnet, -⟩ := Option.map_eq_some_iff.mp (Net.erase_step.symm.trans hmute)
    have hact : M.step P (.act i) = some { M with net } := Machine.act_eq_some.mpr ⟨net, hnet, rfl⟩
    obtain ⟨s'', hs'', h'⟩ := h.act hact
    cases hs''.symm.trans hstep
    exact ⟨[.act i], _, (run_singleton M _).trans hact, h'⟩

theorem exists_runs {is : List ι} (h : Backs C M s) (hsound : Sound A.platform s)
    (hrun : Transition.run (Net.step A.platform) s is = some s') :
    ∃ es M', Transition.run (Machine.step P) M es = some M' ∧ Backs C M' s' := by
  induction is generalizing M s with
  | nil =>
    cases hrun
    exact ⟨[], M, rfl, h⟩
  | cons i is ih =>
    obtain ⟨n, hn, hrest⟩ := Option.bind_eq_some_iff.mp hrun
    obtain ⟨es, m, hes, hm⟩ := h.exists_run (hsound [] s i rfl) hn
    obtain ⟨es', M', hes', hM'⟩ := ih hm (hsound.run ((run_singleton s i).trans hn)) hrest
    exact ⟨es ++ es', M', run_append.mpr ⟨m, hes, hes'⟩, hM'⟩

end Backs

end Model

/-- A machine that comes to an end where `F` holds: nothing fails on the way, no state is stuck,
and whatever has happened, the rest can be done. Only a write that never puts its bytes into the
file takes forever. -/
structure Machine.Completes [DecidableEq ι] [DecidableEq τ] [DecidableEq γ]
    (P : Service ι σ θ γ κ ε) (M : Machine ι τ μ σ θ γ κ ε)
    (F : Machine ι τ μ σ θ γ κ ε → Prop) : Prop where
  bounded : ∃ n, ∀ es M', run (step P) M es = some M' → (es.filterMap Event.acts).length ≤ n
  sound : ∀ es M' i, run (step P) M es = some M' → ¬ M'.Aborts P i
  ready : ∀ es M', run (step P) M es = some M' → F M' ∨ ∃ i, M'.Ready P i
  leads : ∀ es M', run (step P) M es = some M' →
    ∃ rest M'', run (step P) M' rest = some M'' ∧ F M''

section Completes

variable [DecidableEq ι] [DecidableEq τ] [DecidableEq γ] {P : Service ι σ θ γ κ ε} {A : Model P Ω}
  {C : A.Contract} {M : Machine ι τ μ σ θ γ κ ε} {s t : Net ι τ μ σ Ω γ κ}

theorem Machine.Completes.mono {F G : Machine ι τ μ σ θ γ κ ε → Prop} (h : M.Completes P F)
    (hFG : ∀ M', F M' → G M') : M.Completes P G where
  bounded := h.bounded
  sound := h.sound
  ready es M' hrun := (h.ready es M' hrun).imp_left (hFG M')
  leads es M' hrun := by
    obtain ⟨rest, M'', hrest, hF⟩ := h.leads es M' hrun
    exact ⟨rest, M'', hrest, hFG M'' hF⟩

/-- **The outcome of a machine** is that of the network. -/
theorem Model.Backs.completes (h : Backs C M s) (ho : Net.Outcome A.platform s t) :
    M.Completes P fun M' => M'.net.Done ∧ Backs C M' t := by
  have hsound : Backs.Sound A.platform s := ho.sound
  refine ⟨?_, fun es M' i hrun => ?_, fun es M' hrun => ?_, fun es M' hrun => ?_⟩
  · obtain ⟨n, hn⟩ := ho.bounded
    refine ⟨n, fun es M' hrun => ?_⟩
    obtain ⟨s', hs', -⟩ := h.run hsound hrun
    exact hn _ s' hs'
  · obtain ⟨s', hs', h'⟩ := h.run hsound hrun
    exact h'.not_aborts (hsound _ s' i hs')
  · obtain ⟨s', hs', h'⟩ := h.run hsound hrun
    rcases ho.ready _ s' hs' with rfl | ⟨i, hready⟩
    · exact .inl ⟨h'.done_iff.mpr ho.done, h'⟩
    · exact .inr ⟨i, h'.ready hready⟩
  · obtain ⟨s', hs', h'⟩ := h.run hsound hrun
    obtain ⟨is, his⟩ := ho.leads _ s' hs'
    obtain ⟨rest, M'', hrest, h''⟩ := h'.exists_runs (hsound.run hs') his
    exact ⟨rest, M'', hrest, h''.done_iff.mpr ho.done, h''⟩

end Completes

end CacheTrace.Message
