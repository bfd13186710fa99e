import CacheTrace.Message.Triple
import CacheTrace.Transition.Run

/-!
# What must have happened before

A process that has received a message tells something about its sender, and a process that has
left a collective operation about all members. Here this is said of what the processes still have
to do: of a channel, the sends that remain and the messages on the way are the receives that
remain; of a group, a member has no more operations to enter than another one has to leave. Both
are kept by every step (`Ordered.step`), and what remains of a program is always a rest of it
(`step_suffix`).
-/

namespace CacheTrace.Message

open Transition

variable {ι τ μ σ Ω γ κ : Type}

/-! ## What a program does -/

section Messages

variable [DecidableEq ι] [DecidableEq τ]

/-- The messages with a tag that a program sends to process `dest`. -/
def sends (dest : ι) (tag : τ) (as : List (Action ι τ μ σ γ κ)) : Nat :=
  as.countP fun
    | .send d t _ => d = dest ∧ t = tag
    | _ => false

/-- The messages with a tag that a program receives from process `source`. -/
def recvs (source : ι) (tag : τ) (as : List (Action ι τ μ σ γ κ)) : Nat :=
  as.countP fun
    | .recv s t _ => s = source ∧ t = tag
    | _ => false

theorem sends_append (dest : ι) (tag : τ) (as bs : List (Action ι τ μ σ γ κ)) :
    sends dest tag (as ++ bs) = sends dest tag as + sends dest tag bs := List.countP_append

theorem recvs_append (source : ι) (tag : τ) (as bs : List (Action ι τ μ σ γ κ)) :
    recvs source tag (as ++ bs) = recvs source tag as + recvs source tag bs := List.countP_append

theorem sends_le {as bs : List (Action ι τ μ σ γ κ)} (h : as <:+ bs) (dest : ι) (tag : τ) :
    sends dest tag as ≤ sends dest tag bs := h.sublist.countP_le

theorem recvs_le {as bs : List (Action ι τ μ σ γ κ)} (h : as <:+ bs) (source : ι) (tag : τ) :
    recvs source tag as ≤ recvs source tag bs := h.sublist.countP_le

end Messages

section Operations

variable [DecidableEq γ]

def enters (g : γ) (as : List (Action ι τ μ σ γ κ)) : Nat :=
  as.countP fun
    | .enter g' _ => g' = g
    | _ => false

def leaves (g : γ) (as : List (Action ι τ μ σ γ κ)) : Nat :=
  as.countP fun
    | .leave g' _ => g' = g
    | _ => false

/-- The operations of a group are left one by one before the next one is entered. A program that
begins inside an operation has `inside` set. -/
def Paired (g : γ) : Bool → List (Action ι τ μ σ γ κ) → Prop
  | inside, [] => inside = false
  | inside, .enter g' _ :: as => if g' = g then inside = false ∧ Paired g true as
    else Paired g inside as
  | inside, .leave g' _ :: as => if g' = g then inside = true ∧ Paired g false as
    else Paired g inside as
  | inside, .send _ _ _ :: as => Paired g inside as
  | inside, .recv _ _ _ :: as => Paired g inside as
  | inside, .compute _ :: as => Paired g inside as
  | inside, .call _ :: as => Paired g inside as

variable {g : γ} {inside : Bool} {as bs : List (Action ι τ μ σ γ κ)}

theorem Paired.leaves_eq (h : Paired g inside as) :
    leaves g as = enters g as + if inside then 1 else 0 := by
  induction as generalizing inside with
  | nil => simp [leaves, enters, show inside = false from h]
  | cons a as ih =>
    cases a with
    | enter g' msg =>
      rw [Paired] at h
      split_ifs at h with hg
      · have := ih h.2
        simp_all [leaves, enters]
      · have := ih h
        simp_all [leaves, enters]
    | leave g' update =>
      rw [Paired] at h
      split_ifs at h with hg
      · have := ih h.2
        simp_all [leaves, enters]
      · have := ih h
        simp_all [leaves, enters]
    | send => exact ih h
    | recv => exact ih h
    | compute => exact ih h
    | call => exact ih h

theorem Paired.tail {a : Action ι τ μ σ γ κ} (h : Paired g inside (a :: as)) :
    ∃ inside', Paired g inside' as := by
  cases a with
  | enter g' msg =>
    rw [Paired] at h
    split_ifs at h
    · exact ⟨_, h.2⟩
    · exact ⟨_, h⟩
  | leave g' update =>
    rw [Paired] at h
    split_ifs at h
    · exact ⟨_, h.2⟩
    · exact ⟨_, h⟩
  | send => exact ⟨_, h⟩
  | recv => exact ⟨_, h⟩
  | compute => exact ⟨_, h⟩
  | call => exact ⟨_, h⟩

theorem Paired.append (h : Paired g inside as) (h' : Paired g false bs) :
    Paired g inside (as ++ bs) := by
  induction as generalizing inside with
  | nil =>
    obtain rfl : inside = false := h
    exact h'
  | cons a as ih =>
    cases a with
    | enter g' msg =>
      rw [List.cons_append, Paired]
      rw [Paired] at h
      split_ifs at h ⊢
      · exact ⟨h.1, ih h.2⟩
      · exact ih h
    | leave g' update =>
      rw [List.cons_append, Paired]
      rw [Paired] at h
      split_ifs at h ⊢
      · exact ⟨h.1, ih h.2⟩
      · exact ih h
    | send => exact ih h
    | recv => exact ih h
    | compute => exact ih h
    | call => exact ih h

theorem enters_append (g : γ) (as bs : List (Action ι τ μ σ γ κ)) :
    enters g (as ++ bs) = enters g as + enters g bs := List.countP_append

theorem leaves_append (g : γ) (as bs : List (Action ι τ μ σ γ κ)) :
    leaves g (as ++ bs) = leaves g as + leaves g bs := List.countP_append

theorem enters_le {as bs : List (Action ι τ μ σ γ κ)} (h : as <:+ bs) (g : γ) :
    enters g as ≤ enters g bs := h.sublist.countP_le

theorem leaves_le {as bs : List (Action ι τ μ σ γ κ)} (h : as <:+ bs) (g : γ) :
    leaves g as ≤ leaves g bs := h.sublist.countP_le

end Operations

/-- Of two rests of a program one has the other inside. -/
theorem suffix_cases {P R rest : List (Action ι τ μ σ γ κ)} {a : Action ι τ μ σ γ κ} (hR : R <:+ P)
    (hrest : a :: rest <:+ P) : R <:+ rest ∨ a :: rest <:+ R := by
  rcases List.suffix_or_suffix_of_suffix hR hrest with hle | hle
  · rcases List.suffix_cons_iff.mp hle with rfl | hle
    · exact .inr List.suffix_rfl
    · exact .inl hle
  · exact .inr hle

/-- A rest of a program that is at most one action before `rest`. -/
theorem eq_or_eq_of_suffix {R rest : List (Action ι τ μ σ γ κ)} {a : Action ι τ μ σ γ κ}
    (hle : R <:+ a :: rest) (hge : rest <:+ R) : R = a :: rest ∨ R = rest := by
  rcases List.suffix_cons_iff.mp hle with heq | hle
  · exact .inl heq
  · exact .inr (hle.eq_of_length_le hge.length_le)

/-! ## One step -/

namespace Net

variable [DecidableEq ι] [DecidableEq τ] [DecidableEq γ] {W : Platform ι σ Ω γ κ}
  {s t : Net ι τ μ σ Ω γ κ} {i k : ι} {m : Proc ι τ μ σ Ω γ κ × Effect ι τ μ}

/-- What the action of a step does to the messages on the way and to the contributions. -/
structure Counted (W : Platform ι σ Ω γ κ) (s : Net ι τ μ σ Ω γ κ) (i : ι)
    (m : Proc ι τ μ σ Ω γ κ × Effect ι τ μ) (a : Action ι τ μ σ γ κ) : Prop where
  prog : (s.proc i).prog = [a] ++ m.1.prog
  queue : ∀ x k tag, (m.2.on s.queue (x, k, tag)).length + (if k = i then recvs x tag [a] else 0) =
    (s.queue (x, k, tag)).length + if x = i then sends k tag [a] else 0
  given : ∀ g, (m.1.given g).length = ((s.proc i).given g).length + enters g [a]
  leave : ∀ g, leaves g [a] = 0 ∨ (∃ update, a = .leave g update) ∧
    ∀ x ∈ W.members g, (m.1.given g).length ≤ ((s.proc x).given g).length

theorem Move.counted (h : s.Move W i m) : ∃ a, Counted W s i m a := by
  cases h with
  | @send dest tag msg rest hprog =>
    refine ⟨_, hprog, fun x k tag' => ?_, fun g => rfl, fun g => .inl rfl⟩
    simp only [Effect.on, Function.update_apply, Prod.mk.injEq, sends, recvs,
      List.countP_singleton, decide_eq_true_eq]
    grind
  | @recv source tag update rest y ys _ hprog hq =>
    refine ⟨_, hprog, fun x k tag' => ?_, fun g => rfl, fun g => .inl rfl⟩
    simp only [Effect.on, Function.update_apply, Prod.mk.injEq, sends, recvs,
      List.countP_singleton, decide_eq_true_eq]
    grind
  | compute hprog =>
    exact ⟨_, hprog, by simp [Effect.on, sends, recvs], fun g => rfl, fun g => .inl rfl⟩
  | call hprog =>
    exact ⟨_, hprog, by simp [Effect.on, sends, recvs], fun g => rfl, fun g => .inl rfl⟩
  | @enter g msg rest hprog =>
    refine ⟨_, hprog, by simp [Effect.on, sends, recvs], fun g' => ?_, fun g' => .inl rfl⟩
    simp only [Function.update_apply, enters, List.countP_singleton, decide_eq_true_eq]
    grind
  | @leave g update rest n _ hprog hn hall =>
    refine ⟨_, hprog, by simp [Effect.on, sends, recvs], fun g' => rfl, fun g' => ?_⟩
    by_cases hg : g = g'
    · subst hg
      exact .inr ⟨⟨update, rfl⟩, fun x hx => hn ▸ hall x hx⟩
    · exact .inl (by simp [leaves, hg])

/-- **Messages are not lost or made up**: what happens to the messages on the way, the sends that
remain and the receives that remain of a channel. -/
theorem step_messages (h : s.step W i = some t) (x k : ι) (tag : τ) :
    (t.queue (x, k, tag)).length + sends k tag (t.proc x).prog + recvs x tag (s.proc k).prog =
      (s.queue (x, k, tag)).length + sends k tag (s.proc x).prog +
        recvs x tag (t.proc k).prog := by
  obtain ⟨m, hm, rfl⟩ := step_eq_some.mp h
  obtain ⟨a, ha⟩ := hm.counted
  have hqueue := ha.queue x k tag
  have hsends : sends k tag (s.proc x).prog =
      (if x = i then sends k tag [a] else 0) +
        sends k tag (Function.update s.proc i m.1 x).prog := by
    split_ifs with hx
    · rw [hx, ha.prog, sends_append, Function.update_self]
    · rw [Function.update_of_ne hx, Nat.zero_add]
  have hrecvs : recvs x tag (s.proc k).prog =
      (if k = i then recvs x tag [a] else 0) +
        recvs x tag (Function.update s.proc i m.1 k).prog := by
    split_ifs with hk
    · rw [hk, ha.prog, recvs_append, Function.update_self]
    · rw [Function.update_of_ne hk, Nat.zero_add]
  dsimp only
  omega

/-- The contributions of a process and the operations that it still has to enter. -/
theorem step_enters (h : s.step W i = some t) (g : γ) (x : ι) :
    ((t.proc x).given g).length + enters g (t.proc x).prog =
      ((s.proc x).given g).length + enters g (s.proc x).prog := by
  obtain ⟨m, hm, rfl⟩ := step_eq_some.mp h
  obtain ⟨a, ha⟩ := hm.counted
  by_cases hx : x = i
  · simp only [hx, Function.update_self]
    rw [ha.prog, enters_append, ha.given, Nat.add_assoc]
  · simp only [Function.update_of_ne hx]

theorem step_suffix (h : s.step W i = some t) (k : ι) :
    (t.proc k).prog <:+ (s.proc k).prog := by
  by_cases hki : k = i
  · subst hki
    obtain ⟨m, hm, rfl⟩ := step_eq_some.mp h
    obtain ⟨a, ha⟩ := hm.counted
    rw [ha.prog]
    simp
  · exact step_proc_of_ne h hki ▸ List.suffix_rfl

/-! ## Runs -/

section Runs

variable {es : List ι} (hrun : run (step W) s es = some t)

include hrun

theorem run_messages (x k : ι) (tag : τ) :
    (t.queue (x, k, tag)).length + sends k tag (t.proc x).prog + recvs x tag (s.proc k).prog =
      (s.queue (x, k, tag)).length + sends k tag (s.proc x).prog +
        recvs x tag (t.proc k).prog := by
  induction es generalizing s with
  | nil =>
    cases hrun
    rfl
  | cons i es ih =>
    obtain ⟨m, hm, hrest⟩ := Option.bind_eq_some_iff.mp hrun
    have hfirst := step_messages hm x k tag
    have hthen := ih hrest
    omega

theorem run_enters (g : γ) (x : ι) :
    ((t.proc x).given g).length + enters g (t.proc x).prog =
      ((s.proc x).given g).length + enters g (s.proc x).prog := by
  induction es generalizing s with
  | nil =>
    cases hrun
    rfl
  | cons i es ih =>
    obtain ⟨m, hm, hrest⟩ := Option.bind_eq_some_iff.mp hrun
    exact (ih hrest).trans (step_enters hm g x)

end Runs

/-- What the processes still have to do fits together. -/
structure Ordered (members : γ → List ι) (s : Net ι τ μ σ Ω γ κ) : Prop where
  messages : ∀ i k tag, (s.queue (i, k, tag)).length + sends k tag (s.proc i).prog =
    recvs i tag (s.proc k).prog
  level : ∀ g, ∀ i ∈ members g, ∀ k ∈ members g,
    ((s.proc i).given g).length + enters g (s.proc i).prog =
      ((s.proc k).given g).length + enters g (s.proc k).prog
  paired : ∀ g i, ∃ inside, Paired g inside (s.proc i).prog
  order : ∀ g, ∀ i ∈ members g, ∀ k ∈ members g,
    enters g (s.proc i).prog ≤ leaves g (s.proc k).prog

theorem Ordered.step (h : s.Ordered W.members) (hstep : s.step W i = some t) :
    t.Ordered W.members := by
  have hlevel : ∀ g, ∀ x ∈ W.members g, ∀ k ∈ W.members g,
      ((t.proc x).given g).length + enters g (t.proc x).prog =
        ((t.proc k).given g).length + enters g (t.proc k).prog := by
    intro g x hx k hk
    rw [step_enters hstep, step_enters hstep]
    exact h.level g x hx k hk
  refine ⟨fun x k tag => ?_, hlevel, fun g x => ?_, fun g x hx k hk => ?_⟩
  · have hmessages := step_messages hstep x k tag
    have hbefore := h.messages x k tag
    omega
  · obtain ⟨inside, hinside⟩ := h.paired g x
    by_cases hx : x = i
    · subst hx
      obtain ⟨m, hm, rfl⟩ := step_eq_some.mp hstep
      obtain ⟨a, ha⟩ := hm.counted
      rw [ha.prog] at hinside
      simpa using hinside.tail
    · rw [step_proc_of_ne hstep hx]
      exact ⟨inside, hinside⟩
  · have hbefore := h.order g x hx k hk
    have hx' := enters_le (step_suffix hstep x) g
    by_cases hki : k = i
    swap
    · rw [step_proc_of_ne hstep hki]
      exact Nat.le_trans hx' hbefore
    subst hki
    obtain ⟨m, hm, rfl⟩ := step_eq_some.mp hstep
    obtain ⟨a, ha⟩ := hm.counted
    rw [ha.prog, leaves_append] at hbefore
    simp only [Function.update_self]
    rcases ha.leave g with hnone | ⟨⟨update, rfl⟩, hall⟩
    · exact Nat.le_trans hx' (by omega)
    · -- the members have entered what process `k` leaves
      obtain ⟨inside, hinside⟩ := h.paired g k
      rw [ha.prog, List.singleton_append, Paired, if_pos rfl] at hinside
      have hleaves := hinside.2.leaves_eq
      have hlength := (step_given hstep x g).length_le
      have hlevel' := hlevel g x hx k hk
      have hall' := hall x hx
      simp only [Function.update_self] at hlevel' hlength
      simp only [Bool.false_eq_true, if_false, Nat.add_zero] at hleaves
      omega

end Net

/-! ## Programs -/

section Balanced

variable [DecidableEq ι] [DecidableEq τ] [DecidableEq γ] {W : Platform ι σ Ω γ κ}
  {members : γ → List ι} {P Q : Part ι τ μ σ γ κ} {I J : (ι → Ω) → Prop}

/-- In a part of a program every message that is sent is received, the members of a group enter
equally many operations, and they leave every one. -/
structure Balanced (members : γ → List ι) (P : Part ι τ μ σ γ κ) : Prop where
  messages : ∀ i k tag, sends k tag (P i) = recvs i tag (P k)
  level : ∀ g, ∀ i ∈ members g, ∀ k ∈ members g, enters g (P i) = enters g (P k)
  paired : ∀ g i, Paired g false (P i)

theorem Balanced.append (h : Balanced members P) (h' : Balanced members Q) :
    Balanced members fun i => P i ++ Q i := by
  refine ⟨fun i k tag => ?_, fun g i hi k hk => ?_,
    fun g i => (h.paired g i).append (h'.paired g i)⟩
  · rw [sends_append, recvs_append, h.messages, h'.messages]
  · rw [enters_append, enters_append, h.level g i hi k hk, h'.level g i hi k hk]

/-- The members of a group leave as many operations as they enter. -/
theorem Balanced.enters_eq_leaves (h : Balanced members P) {g : γ} {i k : ι} (hi : i ∈ members g)
    (hk : k ∈ members g) : enters g (P i) = leaves g (P k) := by
  have hleaves := (h.paired g k).leaves_eq
  simp only [Bool.false_eq_true, if_false, Nat.add_zero] at hleaves
  rw [h.level g i hi k hk, hleaves]

/-- A part that has a triple is balanced. -/
theorem Triple.balanced (h : Triple W I P J) {L : ι → Ω} (hL : I L)
    (hpaired : ∀ g i, Paired g false (P i)) : Balanced W.members P := by
  let s : Net ι τ μ σ Ω γ κ := ⟨fun i => ⟨P i, L i, fun _ => []⟩, fun _ => []⟩
  obtain ⟨t, hst, hquiet, -, hdone⟩ := h s (fun _ => []) ⟨fun _ => rfl, fun _ _ _ _ _ => rfl⟩ hL
    fun i => (List.append_nil _).symm
  obtain ⟨es, hes⟩ := hst.exists_run
  refine ⟨fun i k tag => ?_, fun g i hi k hk => ?_, hpaired⟩
  · have hmessages := Net.run_messages hes i k tag
    rw [hquiet.empty, hdone, hdone] at hmessages
    simpa [s, sends, recvs] using hmessages.symm
  · have hi' := Net.run_enters hes g i
    have hk' := Net.run_enters hes g k
    rw [hdone] at hi' hk'
    have hlevel := hquiet.level g i hi k hk
    simp only [s, enters, List.countP_nil, List.length_nil] at hi' hk' ⊢
    omega

/-- The start of a balanced program. -/
theorem Balanced.ordered (h : Balanced W.members P) {s : Net ι τ μ σ Ω γ κ} (hquiet : s.Quiet W)
    (hprog : ∀ i, (s.proc i).prog = P i) : s.Ordered W.members := by
  refine ⟨fun i k tag => ?_, fun g i hi k hk => ?_, fun g i => ?_, fun g i hi k hk => ?_⟩
  · rw [hquiet.empty, hprog, hprog, h.messages]
    exact Nat.zero_add _
  · rw [hprog, hprog, h.level g i hi k hk, hquiet.level g i hi k hk]
  · rw [hprog]
    exact ⟨false, h.paired g i⟩
  · rw [hprog, hprog]
    exact Nat.le_of_eq (h.enters_eq_leaves hi hk)

end Balanced

end CacheTrace.Message
