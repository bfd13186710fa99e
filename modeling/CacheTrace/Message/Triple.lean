import CacheTrace.Message.Network

/-!
# Pre- and postconditions of collective programs

A part of a program gives every process a list of actions, the empty one to those that take no
part. `Triple I P J` says that there is a synchronous schedule of the part `P` that leads from
states with `I` to states with `J`, whatever the processes do afterwards. The rules put such
schedules together: parts one after the other (`Triple.seq`), rounds of a loop (`Triple.rounds`),
a message (`Triple.exchange`), a collective operation (`Triple.collective`), computations
(`Triple.compute`) and a call (`Triple.call`).

A program that has a triple has only one outcome, in every order of the steps
(`Triple.outcome`).
-/

namespace CacheTrace.Message

variable {ι τ μ σ Ω γ κ : Type} [DecidableEq ι] [DecidableEq τ] [DecidableEq γ]

/-- The actions of every process in a part of a program. -/
abbrev Part (ι τ μ σ γ κ : Type) := ι → List (Action ι τ μ σ γ κ)

/-- The processes of a list perform their actions. -/
def Part.all (l : List ι) (as : Part ι τ μ σ γ κ) : Part ι τ μ σ γ κ :=
  fun x => if x ∈ l then as x else []

/-- Process `i` sends a message to process `j`. -/
def Part.exchange (i j : ι) (tag : τ) (msg : σ → μ) (update : μ → σ → Option σ) :
    Part ι τ μ σ γ κ :=
  fun x => if x = i then [.send j tag msg] else if x = j then [.recv i tag update] else []

/-- The processes of a list take part in a collective operation, each in that of its group. -/
def Part.collective (l : List ι) (group : ι → γ) (msg : ι → σ → μ)
    (update : ι → (ι → Option μ) → σ → Option σ) : Part ι τ μ σ γ κ :=
  Part.all l fun x => [.enter (group x) (msg x), .leave (group x) (update x)]

namespace Net

variable {W : Platform ι σ Ω γ κ} {s t : Net ι τ μ σ Ω γ κ}

/-- No message is on the way, and the members of a group have taken part in equally many
operations. -/
structure Quiet (W : Platform ι σ Ω γ κ) (s : Net ι τ μ σ Ω γ κ) : Prop where
  empty : s.Empty
  level : ∀ g, ∀ i ∈ W.members g, ∀ j ∈ W.members g,
    ((s.proc i).given g).length = ((s.proc j).given g).length

def states (s : Net ι τ μ σ Ω γ κ) : ι → Ω := fun i => (s.proc i).state

omit [DecidableEq ι] [DecidableEq τ] [DecidableEq γ] in
theorem Quiet.of_given (h : s.Quiet W) (hempty : t.Empty)
    (hgiven : ∀ i, (t.proc i).given = (s.proc i).given) : t.Quiet W := by
  refine ⟨hempty, fun g i hi j hj => ?_⟩
  rw [hgiven, hgiven]
  exact h.level g i hi j hj

omit [DecidableEq ι] [DecidableEq τ] [DecidableEq γ] in
/-- The number of operations that the members of every group have taken part in. -/
theorem Quiet.exists_level (h : s.Quiet W) :
    ∃ n : γ → Nat, ∀ g, ∀ i ∈ W.members g, ((s.proc i).given g).length = n g := by
  refine ⟨fun g => ((W.members g).head?.map fun a => ((s.proc a).given g).length).getD 0,
    fun g i hi => ?_⟩
  cases hl : W.members g with
  | nil => simp [hl] at hi
  | cons a l =>
    simp only [hl, List.head?_cons, Option.map_some, Option.getD_some]
    exact h.level g i hi a (hl ▸ List.mem_cons_self)

/-! ## Processes one after the other -/

/-- The state where the processes in `l` have gone on to `p`. -/
def after (s : Net ι τ μ σ Ω γ κ) (p : ι → Proc ι τ μ σ Ω γ κ) (l : List ι) :
    Net ι τ μ σ Ω γ κ :=
  ⟨fun i => if i ∈ l then p i else s.proc i, s.queue⟩

section After

variable {p : ι → Proc ι τ μ σ Ω γ κ} {l : List ι} {i : ι}

omit [DecidableEq τ] [DecidableEq γ] in
theorem after_of_mem (hi : i ∈ l) : (s.after p l).proc i = p i := if_pos hi

omit [DecidableEq τ] [DecidableEq γ] in
theorem after_of_not_mem (hi : i ∉ l) : (s.after p l).proc i = s.proc i := if_neg hi

omit [DecidableEq τ] [DecidableEq γ] in
theorem after_given (hp : ∀ i, (p i).given = (s.proc i).given) (i : ι) :
    ((s.after p l).proc i).given = (s.proc i).given := by
  simp only [after]
  split_ifs
  · exact hp i
  · rfl

theorem sync_after (hnodup : l.Nodup)
    (hsend : ∀ i ∈ l, ∀ dest tag msg rest, (s.proc i).prog ≠ .send dest tag msg :: rest)
    (hmove : ∀ i ∈ l, ∀ done, i ∉ done → (s.after p done).Move W i (p i, .quiet)) :
    Sync W s (s.after p l) := by
  have hfrom : ∀ l' done, (done ++ l').Nodup → (∀ i ∈ l', i ∈ l) →
      Sync W (s.after p done) (s.after p (done ++ l')) := by
    intro l'
    induction l' with
    | nil =>
      intro done _ _
      rw [List.append_nil]
      exact .refl _
    | cons i l' ih =>
      intro done hnd hsub
      have hnot : i ∉ done := fun hi =>
        (List.nodup_append.mp hnd).2.2 i hi i List.mem_cons_self rfl
      have hstep : (s.after p done).step W i = some (s.after p (done ++ [i])) := by
        refine step_eq_some.mpr ⟨_, hmove i (hsub i List.mem_cons_self) done hnot, ?_⟩
        simp only [after, Effect.on, Net.mk.injEq, and_true]
        funext x
        by_cases hx : x = i
        · subst hx
          simp
        · simp [hx]
      refine .alone ?_ hstep ?_
      · rw [after_of_not_mem hnot]
        exact hsend i (hsub i List.mem_cons_self)
      · have hrest := ih (done ++ [i]) (by simpa using hnd)
          fun x hx => hsub x (List.mem_cons_of_mem _ hx)
        rwa [List.append_assoc] at hrest
  have hall := hfrom l [] hnodup fun _ h => h
  have hstart : s.after p [] = s := by simp [after]
  rwa [hstart] at hall

/-- The state where the processes in `l` have changed their own parts to `x`. -/
def gone (W : Platform ι σ Ω γ κ) (s : Net ι τ μ σ Ω γ κ) (rest : Part ι τ μ σ γ κ) (x : ι → σ)
    (l : List ι) : Net ι τ μ σ Ω γ κ :=
  s.after (fun i => (s.proc i).goOn W (rest i) (x i)) l

omit [DecidableEq τ] [DecidableEq γ] in
theorem gone_states (rest : Part ι τ μ σ γ κ) (x : ι → σ) (l : List ι) :
    (s.gone W rest x l).states =
      fun i => if i ∈ l then W.put (x i) (s.states i) else s.states i := by
  funext i
  simp only [states, gone, after]
  split_ifs <;> rfl

omit [DecidableEq τ] [DecidableEq γ] in
theorem gone_prog {rest : Part ι τ μ σ γ κ} {x : ι → σ} {l : List ι}
    (hrest : ∀ i, i ∉ l → (s.proc i).prog = rest i) (i : ι) :
    ((s.gone W rest x l).proc i).prog = rest i := by
  simp only [gone, after]
  split_ifs with hi
  · rfl
  · exact hrest i hi

omit [DecidableEq τ] [DecidableEq γ] in
theorem Quiet.gone (h : s.Quiet W) (rest : Part ι τ μ σ γ κ) (x : ι → σ) (l : List ι) :
    (s.gone W rest x l).Quiet W :=
  h.of_given h.empty (after_given fun _ => rfl)

end After

/-- A message that is handed over. -/
theorem sync_exchange {i j : ι} {tag : τ} {msg : σ → μ} {update : μ → σ → Option σ} {x : σ}
    {rest rest' : List (Action ι τ μ σ γ κ)} (hempty : s.Empty)
    (hi : (s.proc i).prog = .send j tag msg :: rest)
    (hj : (s.proc j).prog = .recv i tag update :: rest')
    (hx : update (msg (W.own (s.proc i).state)) (W.own (s.proc j).state) = some x) :
    ∃ t, Sync W s t ∧ t.Empty ∧
      t.proc = Function.update (Function.update s.proc i { s.proc i with prog := rest }) j
        ((s.proc j).goOn W rest' x) := by
  have hij : j ≠ i := by
    rintro rfl
    cases hi.symm.trans hj
  have hwaits : s.Waits j i tag := ⟨update, rest', hj⟩
  let m : Net ι τ μ σ Ω γ κ := ⟨Function.update s.proc i { s.proc i with prog := rest },
    (Effect.push (i, j, tag) (msg (W.own (s.proc i).state))).on s.queue⟩
  have hsend : s.step W i = some m := step_eq_some.mpr ⟨_, .send hi, rfl⟩
  have hproc : m.proc j = s.proc j := Function.update_of_ne hij _ _
  have hqueue : m.queue (i, j, tag) = [msg (W.own (s.proc i).state)] := by
    simp [m, Effect.on, hempty (i, j, tag)]
  have hmove : m.Move W j _ :=
    .recv (hproc.symm ▸ hj : (m.proc j).prog = _) hqueue (hproc.symm ▸ hx)
  rw [hproc] at hmove
  have hrecv := step_eq_some.mpr ⟨_, hmove, rfl⟩
  exact ⟨_, .exchange hi hwaits hsend hrecv (.refl _), hempty.exchange hi hwaits hsend hrecv, rfl⟩

/-! ## Collective operations -/

section Collective

variable {l : List ι} {group : ι → γ} {msg : ι → σ → μ} {rest : Part ι τ μ σ γ κ}

/-- A process that has entered the operation of its group. -/
def entered (W : Platform ι σ Ω γ κ) (s : Net ι τ μ σ Ω γ κ) (group : ι → γ) (msg : ι → σ → μ)
    (rest : Part ι τ μ σ γ κ) (i : ι) : Proc ι τ μ σ Ω γ κ :=
  { s.proc i with
    prog := rest i
    given := Function.update (s.proc i).given (group i)
      ((s.proc i).given (group i) ++ [msg i (W.own (s.proc i).state)]) }

/-- The state where the processes in `l` have entered the operations of their groups. -/
def inside (W : Platform ι σ Ω γ κ) (s : Net ι τ μ σ Ω γ κ) (group : ι → γ) (msg : ι → σ → μ)
    (rest : Part ι τ μ σ γ κ) (l : List ι) : Net ι τ μ σ Ω γ κ :=
  s.after (s.entered W group msg rest) l

/-- The processes enter the operations of their groups. -/
theorem sync_enter (hnodup : l.Nodup)
    (hprog : ∀ i ∈ l, (s.proc i).prog = .enter (group i) (msg i) :: rest i) :
    Sync W s (s.inside W group msg rest l) := by
  refine sync_after hnodup (fun i hi => ?_) (fun i hi done hnot => ?_)
  · rw [hprog i hi]
    intro dest tag msg rest h
    cases h
  · have hsame := after_of_not_mem (s := s) (p := s.entered W group msg rest) hnot
    have hmove : (s.after (s.entered W group msg rest) done).Move W i _ :=
      .enter (hsame.symm ▸ hprog i hi)
    rwa [hsame] at hmove

/-- The processes leave the operations that all members of their groups have entered. -/
theorem sync_leave (hnodup : l.Nodup) (update : ι → (ι → Option μ) → σ → Option σ) {x : ι → σ}
    {n : γ → Nat} (hprog : ∀ i ∈ l, (s.proc i).prog = .leave (group i) (update i) :: rest i)
    (hmembers : ∀ i ∈ l, i ∈ W.members (group i))
    (hlength : ∀ i ∈ l, ∀ y ∈ W.members (group i),
      ((s.proc y).given (group i)).length = n (group i) + 1)
    (hx : ∀ i ∈ l, update i (s.contributions W (group i) (n (group i)))
      (W.own (s.proc i).state) = some (x i)) :
    Sync W s (s.gone W rest x l) := by
  refine sync_after hnodup (fun i hi => ?_) (fun i hi done hnot => ?_)
  · rw [hprog i hi]
    intro dest tag msg rest h
    cases h
  · -- leaving does not change what was given
    set m := s.after (fun i => (s.proc i).goOn W (rest i) (x i)) done
    have hgiven : ∀ y, (m.proc y).given = (s.proc y).given := after_given fun _ => rfl
    have hsame : m.proc i = s.proc i := after_of_not_mem hnot
    have hcontributions : m.contributions W (group i) (n (group i)) =
        s.contributions W (group i) (n (group i)) := by
      funext y
      simp only [contributions, hgiven]
    have hmove : m.Move W i _ := .leave (hsame.symm ▸ hprog i hi)
      (by rw [hgiven, hlength i hi i (hmembers i hi)])
      (fun y hy => by rw [hgiven, hlength i hi y hy]; exact Nat.lt_succ_self _)
      (by rw [hcontributions, hsame]; exact hx i hi)
    rwa [hsame] at hmove

section Inside

variable (hmembers : ∀ x ∈ l, ∀ y, y ∈ W.members (group x) ↔ y ∈ l ∧ group y = group x)

include hmembers

omit [DecidableEq τ] in
theorem inside_given {i y : ι} (hi : i ∈ l) (hy : y ∈ W.members (group i)) :
    ((s.inside W group msg rest l).proc y).given (group i) =
      (s.proc y).given (group i) ++ [msg y (W.own (s.states y))] := by
  obtain ⟨hyl, hgroup⟩ := (hmembers i hi y).mp hy
  rw [inside, after_of_mem hyl, entered, hgroup]
  exact Function.update_self _ _ _

omit [DecidableEq τ] in
/-- A group has no member in `l`, or all are in `l` and have entered. -/
theorem Quiet.inside (h : s.Quiet W) : (s.inside W group msg rest l).Quiet W := by
  refine ⟨h.empty, fun g i hi j hj => ?_⟩
  have hlength : ∀ y ∈ W.members g, (((s.inside W group msg rest l).proc y).given g).length =
      ((s.proc y).given g).length + if y ∈ l ∧ group y = g then 1 else 0 := by
    intro y hy
    by_cases hyl : y ∈ l
    · rw [Net.inside, after_of_mem hyl, entered]
      by_cases hg : group y = g
      · subst hg
        simp [hyl]
      · simp [Ne.symm hg, hg]
    · rw [Net.inside, after_of_not_mem hyl]
      simp [hyl]
  have hboth : ∀ x ∈ W.members g, ∀ y ∈ W.members g,
      x ∈ l ∧ group x = g → y ∈ l ∧ group y = g := by
    rintro x - y hy ⟨hxl, rfl⟩
    exact (hmembers x hxl y).mp hy
  rw [hlength i hi, hlength j hj, h.level g i hi j hj]
  exact congrArg (_ + ·) (if_congr ⟨hboth i hi j hj, hboth j hj i hi⟩ rfl rfl)

omit [DecidableEq τ] in
theorem inside_contributions {n : γ → Nat}
    (hn : ∀ g, ∀ y ∈ W.members g, ((s.proc y).given g).length = n g) {i : ι} (hi : i ∈ l) :
    (s.inside W group msg rest l).contributions W (group i) (n (group i)) = fun y =>
      if y ∈ W.members (group i) then some (msg y (W.own (s.states y))) else none := by
  funext y
  by_cases hy : y ∈ W.members (group i)
  · rw [contributions, if_pos hy, if_pos hy, inside_given hmembers hi hy, ← hn _ y hy,
      List.getElem?_concat_length]
  · rw [contributions, if_neg hy, if_neg hy]

end Inside

end Collective

end Net

open Net

variable {W : Platform ι σ Ω γ κ} {I J K : (ι → Ω) → Prop} {P Q : Part ι τ μ σ γ κ}

/-- The part leads from states with `I` to states with `J`. -/
def Triple (W : Platform ι σ Ω γ κ) (I : (ι → Ω) → Prop) (P : Part ι τ μ σ γ κ)
    (J : (ι → Ω) → Prop) : Prop :=
  ∀ (s : Net ι τ μ σ Ω γ κ) (rest : Part ι τ μ σ γ κ), s.Quiet W → I s.states →
    (∀ i, (s.proc i).prog = P i ++ rest i) →
    ∃ t, Sync W s t ∧ t.Quiet W ∧ J t.states ∧ ∀ i, (t.proc i).prog = rest i

namespace Triple

theorem skip : Triple W I (fun _ => [] : Part ι τ μ σ γ κ) I := by
  intro s rest hquiet hI hprog
  exact ⟨s, .refl s, hquiet, hI, hprog⟩

theorem seq (hP : Triple W I P J) (hQ : Triple W J Q K) :
    Triple W I (fun i => P i ++ Q i) K := by
  intro s rest hquiet hI hprog
  obtain ⟨m, hsm, hquiet, hJ, hprog⟩ := hP s (fun i => Q i ++ rest i) hquiet hI
    fun i => by rw [hprog, List.append_assoc]
  obtain ⟨t, hmt, hquiet, hK, hprog⟩ := hQ m rest hquiet hJ hprog
  exact ⟨t, hsm.trans hmt, hquiet, hK, hprog⟩

theorem conseq {I' J' : (ι → Ω) → Prop} (h : Triple W I P J) (hI : ∀ L, I' L → I L)
    (hJ : ∀ L, J L → J' L) : Triple W I' P J' := by
  intro s rest hquiet hI' hprog
  obtain ⟨t, hst, hquiet, hJ', hprog⟩ := h s rest hquiet (hI _ hI') hprog
  exact ⟨t, hst, hquiet, hJ _ hJ', hprog⟩

theorem of_eq (h : Triple W I P J) (hPQ : ∀ i, Q i = P i) : Triple W I Q J := by
  have hfun : Q = P := funext hPQ
  rwa [hfun]

/-- **The rule for loops**, over the elements of a list. The invariant says what holds when the
elements `done` have been gone through. -/
theorem each {ε : Type} {R : ε → Part ι τ μ σ γ κ} (I : List ε → (ι → Ω) → Prop) {l : List ε}
    (h : ∀ done e rest, l = done ++ e :: rest → Triple W (I done) (R e) (I (done ++ [e]))) :
    Triple W (I []) (fun i => l.flatMap fun e => R e i) (I l) := by
  induction l using List.reverseRecOn with
  | nil => exact skip
  | append_singleton l e ih =>
    refine ((ih ?_).seq (h l e [] rfl)).of_eq ?_
    · intro done e' rest hl
      exact h done e' (rest ++ [e]) (by rw [hl, List.append_assoc, List.cons_append])
    · intro i
      rw [List.flatMap_append, List.flatMap_singleton]

/-- The rule for loops that count. -/
theorem rounds {R : Nat → Part ι τ μ σ γ κ} (I : Nat → (ι → Ω) → Prop) {n : Nat}
    (h : ∀ k < n, Triple W (I k) (R k) (I (k + 1))) :
    Triple W (I 0) (fun i => (List.range n).flatMap fun k => R k i) (I n) := by
  induction n with
  | zero => exact skip
  | succ n ih =>
    refine ((ih fun k hk => h k (Nat.lt_succ_of_lt hk)).seq (h n (Nat.lt_succ_self n))).of_eq ?_
    intro i
    rw [List.range_succ, List.flatMap_append, List.flatMap_singleton]

/-- Processes compute. -/
theorem compute {l : List ι} (hnodup : l.Nodup) (f : ι → σ → σ) :
    Triple W (fun L => J fun x => if x ∈ l then W.put (f x (W.own (L x))) (L x) else L x)
      (Part.all l fun x => [.compute (f x)] : Part ι τ μ σ γ κ) J := by
  intro s rest hquiet hJ hprog
  have hhead : ∀ i ∈ l, (s.proc i).prog = .compute (f i) :: rest i := fun i hi => by
    rw [hprog, Part.all, if_pos hi]
    rfl
  have hrest : ∀ i, i ∉ l → (s.proc i).prog = rest i := fun i hi => by
    rw [hprog, Part.all, if_neg hi, List.nil_append]
  let x : ι → σ := fun i => f i (W.own (s.proc i).state)
  refine ⟨s.gone W rest x l, sync_after hnodup (fun i hi => ?_) (fun i hi done hnot => ?_),
    hquiet.gone _ _ _, ?_, gone_prog hrest⟩
  · rw [hhead i hi]
    intro dest tag msg rest h
    cases h
  · have hsame := after_of_not_mem (s := s) (p := fun i => (s.proc i).goOn W (rest i) (x i)) hnot
    have hmove : (s.after (fun i => (s.proc i).goOn W (rest i) (x i)) done).Move W i _ :=
      .compute (hsame.symm ▸ hhead i hi)
    rwa [hsame] at hmove
  · rw [gone_states]
    exact hJ

/-- A call of process `i`. -/
theorem call (i : ι) (c : κ) :
    Triple W (fun L => ∃ S, W.call i c (L i) = some S ∧ J (Function.update L i S))
      (Part.all [i] fun _ => [.call c] : Part ι τ μ σ γ κ) J := by
  rintro s rest hquiet ⟨S, hS, hJ⟩ hprog
  have hhead : (s.proc i).prog = .call c :: rest i := by
    rw [hprog, Part.all, if_pos (List.mem_singleton_self i)]
    rfl
  have hnot : ∀ dest tag msg rest, (s.proc i).prog ≠ .send dest tag msg :: rest := by
    intro dest tag msg rest' hsend
    cases hhead.symm.trans hsend
  let p : Proc ι τ μ σ Ω γ κ := { s.proc i with prog := rest i, state := S }
  let t : Net ι τ μ σ Ω γ κ := ⟨Function.update s.proc i p, s.queue⟩
  have hstep : s.step W i = some t := step_eq_some.mpr ⟨_, .call hhead hS, rfl⟩
  have hprocx : ∀ x, t.proc x = { s.proc x with
      prog := rest x
      state := Function.update s.states i S x } := by
    intro x
    by_cases hx : x = i
    · subst hx
      simp [t, p]
    · have hrest : (s.proc x).prog = rest x := by
        rw [hprog, Part.all, if_neg (by simpa using hx), List.nil_append]
      rw [Function.update_of_ne hx, ← hrest]
      exact Function.update_of_ne hx _ _
  refine ⟨t, .alone hnot hstep (.refl _), hquiet.of_given hquiet.empty fun x => by rw [hprocx], ?_,
    fun x => by rw [hprocx]⟩
  have hstates : t.states = Function.update s.states i S := by
    funext x
    rw [states, hprocx]
  rw [hstates]
  exact hJ

/-- A message from process `i` to process `j`. -/
theorem exchange {i j : ι} (hij : i ≠ j) (tag : τ) (msg : σ → μ) (update : μ → σ → Option σ) :
    Triple W (fun L => ∃ x, update (msg (W.own (L i))) (W.own (L j)) = some x ∧
        J (Function.update L j (W.put x (L j))))
      (Part.exchange i j tag msg update : Part ι τ μ σ γ κ) J := by
  rintro s rest hquiet ⟨y, hy, hJ⟩ hprog
  have hi : (s.proc i).prog = .send j tag msg :: rest i := by
    rw [hprog, Part.exchange, if_pos rfl]
    rfl
  have hj : (s.proc j).prog = .recv i tag update :: rest j := by
    rw [hprog, Part.exchange, if_neg (Ne.symm hij), if_pos rfl]
    rfl
  obtain ⟨t, hst, hempty, hproc⟩ := sync_exchange hquiet.empty hi hj hy
  have hprocx : ∀ x, t.proc x = { s.proc x with
      prog := rest x
      state := Function.update s.states j (W.put y (s.states j)) x } := by
    intro x
    rw [hproc]
    by_cases hxj : x = j
    · subst hxj
      simp [states, Proc.goOn]
    · rw [Function.update_of_ne hxj, Function.update_of_ne hxj]
      by_cases hxi : x = i
      · subst hxi
        simp [states]
      · have hx : (s.proc x).prog = rest x := by
          rw [hprog, Part.exchange, if_neg hxi, if_neg hxj, List.nil_append]
        rw [Function.update_of_ne hxi, ← hx]
        rfl
  refine ⟨t, hst, hquiet.of_given hempty fun x => by rw [hprocx], ?_, fun x => by rw [hprocx]⟩
  have hstates : t.states = Function.update s.states j (W.put y (s.states j)) := by
    funext x
    rw [states, hprocx]
  rw [hstates]
  exact hJ

/-- A collective operation in every group of the processes `l`. -/
theorem collective {l : List ι} (hnodup : l.Nodup) (group : ι → γ)
    (hmembers : ∀ x ∈ l, ∀ y, y ∈ W.members (group x) ↔ y ∈ l ∧ group y = group x)
    (msg : ι → σ → μ) (update : ι → (ι → Option μ) → σ → Option σ) :
    Triple W
      (fun L => ∃ x : ι → σ, (∀ i ∈ l, update i (fun y => if y ∈ W.members (group i) then
          some (msg y (W.own (L y))) else none) (W.own (L i)) = some (x i)) ∧
        J fun i => if i ∈ l then W.put (x i) (L i) else L i)
      (Part.collective l group msg update : Part ι τ μ σ γ κ) J := by
  rintro s rest hquiet ⟨x, hx, hJ⟩ hprog
  let leaving : Part ι τ μ σ γ κ := fun i => .leave (group i) (update i) :: rest i
  have hfirst : ∀ i ∈ l, (s.proc i).prog = .enter (group i) (msg i) :: leaving i := fun i hi => by
    rw [hprog, Part.collective, Part.all, if_pos hi]
    rfl
  have hrest : ∀ i, i ∉ l → (s.proc i).prog = rest i := fun i hi => by
    rw [hprog, Part.collective, Part.all, if_neg hi, List.nil_append]
  set m := s.inside W group msg leaving l with hm
  have hself : ∀ i ∈ l, i ∈ W.members (group i) := fun i hi => (hmembers i hi i).mpr ⟨hi, rfl⟩
  have hstates : m.states = s.states := by
    funext i
    simp only [hm, states, inside, after, entered]
    split_ifs <;> rfl
  obtain ⟨n, hn⟩ := hquiet.exists_level
  have hleave : Sync W m (m.gone W rest x l) := by
    refine sync_leave hnodup update (n := n) (fun i hi => ?_) hself (fun i hi y hy => ?_)
      fun i hi => ?_
    · rw [hm, inside, after_of_mem hi]
      rfl
    · rw [hm, inside_given hmembers hi hy, List.length_append, hn _ y hy]
      rfl
    · rw [hm, inside_contributions hmembers hn hi, ← hx i hi]
      exact congrArg (fun L => update i _ (W.own (L i))) hstates
  refine ⟨_, (sync_enter hnodup hfirst).trans hleave, (hquiet.inside hmembers).gone _ _ _, ?_,
    gone_prog fun i hi => ?_⟩
  · rw [gone_states, hstates]
    exact hJ
  · rw [hm, inside, after_of_not_mem hi, hrest i hi]

/-- **One outcome.** -/
theorem outcome (h : Triple W I P J) {s : Net ι τ μ σ Ω γ κ} (hquiet : s.Quiet W)
    (hI : I s.states) (hprog : ∀ i, (s.proc i).prog = P i) : ∃ t, Outcome W s t ∧ J t.states := by
  obtain ⟨t, hst, -, hJ, hdone⟩ := h s (fun _ => []) hquiet hI
    fun i => by rw [hprog, List.append_nil]
  exact ⟨t, hst.outcome hdone hquiet.empty, hJ⟩

end Triple

end CacheTrace.Message
