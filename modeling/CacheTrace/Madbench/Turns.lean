import CacheTrace.Message.Order
import CacheTrace.Madbench.Process
import CacheTrace.Madbench.Repeat
import CacheTrace.Madbench.Route

/-!
# Taking turns

`io_distmatrix` with its messages. A gang enters it and leaves it together. In between, the
processes of the gang access their files in groups of `io_mod` with consecutive numbers: the
first one of a group begins at once, every other one waits for a token from the process before
it and hands the token on when its access is over.

As the checks make the size of the gang a multiple of `io_mod`, no token is sent to a process
outside, and every call ends, whatever the order of the steps (`ioDistmatrixNet_does`). While a
process accesses its file, the whole gang has entered the first barrier of the call and not left
the last one, those before it in its group are through, and those after it have not received the
token (`inside_call`, `before_access`, `after_access`). For this the processes may have any
programs before and after the call that fit together (`Even`).
-/

namespace CacheTrace.Madbench

open Cyclic Buffer Message

variable {α : Type}

namespace Job

variable (j : Job) (k : Kind) (rw : Rw)

/-- `io_mod` -/
def ioMod : Nat :=
  match rw with
  | .r => j.rMod
  | .w => j.wMod

def receiveTurn (pe : Nat) : List (Act α) :=
  if j.gangMyPe pe k % j.ioMod rw > 0 then
    [.recv (pe - 1) (j.comm k pe, 0) Arrays.receiveToken]
  else []

def sendTurn (pe : Nat) : List (Act α) :=
  if (j.gangMyPe pe k + 1) % j.ioMod rw > 0 then [.send (pe + 1) (j.comm k pe, 0) fun _ => .token]
  else []

/-- `io_distmatrix` -/
def ioDistmatrixNet (data : Var) (rank pe : Nat) : List (Act α) :=
  j.barrier k pe ++ (j.receiveTurn k rw pe ++ ([.call ⟨k, rw, data, rank⟩] ++
    (j.sendTurn k rw pe ++ j.barrier k pe)))

variable {j} {k} {rw}

theorem Accepted.ioMod_dvd {A : Machine.Arith} (hacc : j.Accepted A) (hpos : j.Positive) (k : Kind)
    (rw : Rw) : j.ioMod rw ∣ j.gangPe k := by
  have h := hacc.valid hpos
  simp only [Accepted, checks, List.forall_mem_cons, decide_eq_true_eq] at hacc
  obtain ⟨-, -, -, -, -, -, hr, hw, -⟩ := hacc
  have hdvd : j.ioMod rw ∣ j.gangPe .matrix2 := by
    cases rw with
    | r => exact Nat.dvd_of_mod_eq_zero hr
    | w => exact Nat.dvd_of_mod_eq_zero hw
  cases k with
  | matrix1 =>
    rw [show j.gangPe .matrix1 = j.noPe from rfl, h.noPe_eq]
    exact hdvd.mul_left _
  | matrix2 => exact hdvd

/-- The process after one that is not the last of its gang. -/
theorem Valid.gangMyPe_succ (h : j.Valid) {pe : Nat} (hlt : j.gangMyPe pe k + 1 < j.gangPe k) :
    j.gangMyPe (pe + 1) k = j.gangMyPe pe k + 1 ∧ j.comm k (pe + 1) = j.comm k pe := by
  cases k with
  | matrix1 => exact ⟨rfl, rfl⟩
  | matrix2 =>
    have hpe := Nat.div_add_mod pe (j.gangPe .matrix2)
    rw [Nat.mul_comm] at hpe
    have hnext : pe + 1 = pe / j.gangPe .matrix2 * j.gangPe .matrix2 +
        (pe % j.gangPe .matrix2 + 1) := by omega
    have hlt' : pe % j.gangPe .matrix2 + 1 < j.gangPe .matrix2 := hlt
    constructor
    · rw [gangMyPe, hnext]
      exact mul_add_mod hlt'
    · rw [comm, comm, gangId, hnext, mul_add_div (h.gangPe_pos .matrix2) hlt', gangId]

theorem Valid.succ_lt (h : j.Valid) {pe : Nat} (hpe : pe < j.noPe)
    (hlt : j.gangMyPe pe k + 1 < j.gangPe k) : pe + 1 < j.noPe := by
  cases k with
  | matrix1 => exact hlt
  | matrix2 =>
    have hid : j.gangId (pe + 1) = j.gangId pe := by
      simpa [comm] using (h.gangMyPe_succ hlt).2
    have hgang := h.gangId_lt hpe
    rw [← hid, gangId, Nat.div_lt_iff_lt_mul (h.gangPe_pos .matrix2), ← h.noPe_eq] at hgang
    exact hgang

section Turns

variable (h : j.Valid) (hdvd : j.ioMod rw ∣ j.gangPe k)

include h hdvd

/-- A process that hands on the token is not the last of its gang. -/
theorem Valid.handsOn_lt {pe : Nat} (hpe : pe < j.noPe)
    (hsend : (j.gangMyPe pe k + 1) % j.ioMod rw > 0) : j.gangMyPe pe k + 1 < j.gangPe k := by
  refine Nat.lt_of_le_of_ne (h.gangMyPe_lt hpe k) fun heq => ?_
  rw [heq, Nat.mod_eq_zero_of_dvd hdvd] at hsend
  exact absurd hsend (Nat.lt_irrefl 0)

/-- A process that waits has one before it that hands on the token. -/
theorem Valid.exists_handsOn {pe : Nat} (hpe : pe < j.noPe)
    (hwait : j.gangMyPe pe k % j.ioMod rw > 0) :
    ∃ pe', pe = pe' + 1 ∧ pe' < j.noPe ∧ (j.gangMyPe pe' k + 1) % j.ioMod rw > 0 := by
  cases pe with
  | zero =>
    have hzero : j.gangMyPe 0 k = 0 := by
      cases k with
      | matrix1 => rfl
      | matrix2 => exact Nat.zero_mod _
    rw [hzero, Nat.zero_mod] at hwait
    exact absurd hwait (Nat.lt_irrefl 0)
  | succ pe =>
    have hpe' : pe < j.noPe := Nat.lt_of_succ_lt hpe
    refine ⟨pe, rfl, hpe', ?_⟩
    rcases Nat.lt_or_eq_of_le (h.gangMyPe_lt hpe' k) with hlt | heq
    · rwa [(h.gangMyPe_succ hlt).1] at hwait
    · -- the first process of a gang does not wait
      have hzero : j.gangMyPe (pe + 1) k = 0 := by
        cases k with
        | matrix1 => exact absurd heq (Nat.ne_of_lt hpe)
        | matrix2 =>
          have hdiv := Nat.div_add_mod pe (j.gangPe .matrix2)
          have hnext : pe + 1 = j.gangPe .matrix2 * (pe / j.gangPe .matrix2) +
              j.gangPe .matrix2 := by
            simp only [gangMyPe] at heq
            omega
          rw [gangMyPe, hnext, Nat.add_mod_right, Nat.mul_mod_right]
      rw [hzero, Nat.zero_mod] at hwait
      exact absurd hwait (Nat.lt_irrefl 0)

end Turns

/-! ## The calls end -/

/-- The access of process `pe`, and the token that it hands on. -/
def turn (j : Job) (k : Kind) (rw : Rw) (data : Var) (rank pe x : Nat) : List (Act α) :=
  if x = pe then [.call ⟨k, rw, data, rank⟩] ++ j.sendTurn k rw pe
  else if x = pe + 1 ∧ (j.gangMyPe pe k + 1) % j.ioMod rw > 0 then
    [.recv pe (j.comm k pe, 0) Arrays.receiveToken]
  else []

/-- The turns that concern process `x`. -/
def turnsOf (j : Job) (k : Kind) (rw : Rw) (x : Nat) : List Nat :=
  if x < j.noPe then (if j.gangMyPe x k % j.ioMod rw > 0 then [x - 1] else []) ++ [x] else []

variable {data : Var} {rank : Nat}

theorem turn_does {I J : (Nat → Memory α) → Prop} {pe : Nat}
    (hstep : ∀ L, I L → ∃ s, j.access pe ⟨k, rw, data, rank⟩ (L pe) = some s ∧
      J (Function.update L pe s)) :
    Triple j.platform I (j.turn k rw data rank pe) J := by
  by_cases hsend : (j.gangMyPe pe k + 1) % j.ioMod rw > 0
  · refine ((Triple.call pe ⟨k, rw, data, rank⟩).seq
      (triple_exchange (Nat.succ_ne_self pe).symm (j.comm k pe, 0) (fun _ => .token)
        Arrays.receiveToken)).conseq ?_ (fun L hL => hL) |>.of_eq ?_
    · intro L hL
      obtain ⟨s, hs, hJ⟩ := hstep L hL
      refine ⟨s, hs, _, rfl, ?_⟩
      rwa [Memory.put_self, Function.update_eq_self]
    · intro x
      by_cases hx : x = pe
      · simp [turn, Part.all, Part.exchange, sendTurn, hx, hsend]
      · by_cases hx' : x = pe + 1
        · simp [turn, Part.all, Part.exchange, hx', hsend]
        · simp [turn, Part.all, Part.exchange, hx, hx']
  · refine ((Triple.call pe ⟨k, rw, data, rank⟩).conseq hstep fun L hL => hL).of_eq ?_
    intro x
    by_cases hx : x = pe
    · simp [turn, Part.all, sendTurn, hx, hsend]
    · simp [turn, Part.all, hx, hsend]

section Does

variable (h : j.Valid) (hdvd : j.ioMod rw ∣ j.gangPe k)

include h hdvd

theorem mem_turnsOf {x pe : Nat} : pe ∈ j.turnsOf k rw x ↔
    pe ∈ List.range j.noPe ∧ j.turn k rw data rank pe x ≠ ([] : List (Act α)) := by
  have hturn : j.turn k rw data rank pe x ≠ ([] : List (Act α)) ↔
      x = pe ∨ x = pe + 1 ∧ (j.gangMyPe pe k + 1) % j.ioMod rw > 0 := by
    rw [turn]
    split_ifs with hx hx'
    · simp [hx]
    · simp [hx']
    · simp [hx, hx']
  rw [hturn, turnsOf, List.mem_range]
  constructor
  · intro hpe
    split_ifs at hpe with hx hwait
    · obtain ⟨pe', rfl, hpe', hsend⟩ := h.exists_handsOn hdvd hx hwait
      rcases List.mem_append.mp hpe with hmem | hmem
      · rw [List.mem_singleton.mp hmem]
        exact ⟨hpe', .inr ⟨rfl, hsend⟩⟩
      · rw [List.mem_singleton.mp hmem]
        exact ⟨hx, .inl rfl⟩
    · rw [List.nil_append, List.mem_singleton] at hpe
      exact ⟨hpe ▸ hx, .inl hpe.symm⟩
    · cases hpe
  · rintro ⟨hpe, rfl | ⟨rfl, hsend⟩⟩
    · rw [if_pos hpe]
      exact List.mem_append_right _ (List.mem_singleton.mpr rfl)
    · have hlt := h.handsOn_lt hdvd hpe hsend
      rw [if_pos (h.succ_lt hpe hlt), (h.gangMyPe_succ hlt).1, if_pos hsend]
      exact List.mem_append_left _ (List.mem_singleton.mpr rfl)

theorem turnsOf_sorted (x : Nat) : (j.turnsOf k rw x).Pairwise (id · < id ·) := by
  rw [turnsOf]
  split_ifs with hx hwait
  · obtain ⟨pe, rfl, -⟩ := h.exists_handsOn hdvd hx hwait
    simp
  · simp
  · exact .nil

/-- The program of a process between the barriers. -/
theorem flatMap_turn {x : Nat} (hx : x < j.noPe) :
    ((j.turnsOf k rw x).flatMap fun pe => j.turn k rw data rank pe x) =
      (j.receiveTurn k rw x ++ ([.call ⟨k, rw, data, rank⟩] ++ j.sendTurn k rw x) :
        List (Act α)) := by
  rw [turnsOf, if_pos hx, List.flatMap_append, List.flatMap_singleton]
  congr 1
  · rw [receiveTurn]
    split_ifs with hwait
    · obtain ⟨pe, rfl, hpe, hsend⟩ := h.exists_handsOn hdvd hx hwait
      rw [List.flatMap_singleton, Nat.add_sub_cancel, turn, if_neg (Nat.succ_ne_self pe),
        if_pos ⟨rfl, hsend⟩, (h.gangMyPe_succ (h.handsOn_lt hdvd hpe hsend)).2]
    · rfl
  · rw [turn, if_pos rfl]

/-- **A call of `io_distmatrix`** does the accesses of all processes. -/
theorem ioDistmatrixNet_does {I J : (Nat → Memory α) → Prop}
    (hstep : ∀ L, I L → ∃ S : Nat → Memory α,
      (∀ pe < j.noPe, j.access pe ⟨k, rw, data, rank⟩ (L pe) = some (S pe)) ∧
        J fun pe => if pe < j.noPe then S pe else L pe) :
    j.Does I (j.ioDistmatrixNet k rw data rank) J := by
  refine Does.of_start fun L₀ hL₀ => ?_
  obtain ⟨S, hS, hJ⟩ := hstep L₀ hL₀
  have hturns : Triple j.platform (fun L => L = L₀)
      (fun x => (j.turnsOf k rw x).flatMap fun pe => j.turn k rw data rank pe x) J := by
    refine Triple.conseq (Triple.ranked id
      (fun done L => L = fun x => if x ∈ done then S x else L₀ x)
      List.nodup_range (fun _ _ _ _ heq => heq) (turnsOf_sorted h hdvd)
      (fun x pe => mem_turnsOf h hdvd) (fun done pe hpe hnot => turn_does ?_) ?_) ?_ fun L hL => hL
    · rintro L rfl
      simp only [if_neg hnot]
      refine ⟨S pe, hS pe (List.mem_range.mp hpe), ?_⟩
      funext x
      by_cases hx : x = pe
      · subst hx
        simp
      · simp [hx]
    · rintro done L hdone rfl
      simpa [hdone] using hJ
    · rintro L rfl
      simp
  have hmain : j.Does (fun L => L = L₀) (fun x => j.receiveTurn k rw x ++
      ([.call ⟨k, rw, data, rank⟩] ++ j.sendTurn k rw x)) J := by
    refine hturns.of_eq fun x => ?_
    simp only [Part.all, List.mem_range]
    split_ifs with hx
    · exact (flatMap_turn h hdvd hx).symm
    · rw [turnsOf, if_neg hx]
      rfl
  refine ((Does.barrier k).seq (hmain.seq (Does.barrier k))).of_eq fun x hx => ?_
  simp only [ioDistmatrixNet, List.append_assoc]

end Does

/-! ## One at a time -/

theorem paired_barrier (k : Kind) (g : Comm) (pe : Nat) :
    Paired g false (j.barrier k pe : List (Act α)) := by
  by_cases hg : j.comm k pe = g
  · simp [barrier, Paired, hg]
  · simp [barrier, Paired, hg]

theorem paired_ioDistmatrixNet (g : Comm) (pe : Nat) :
    Paired g false (j.ioDistmatrixNet k rw data rank pe : List (Act α)) := by
  have hreceive : Paired g false (j.receiveTurn k rw pe : List (Act α)) := by
    rw [receiveTurn]
    split_ifs
    · exact rfl
    · exact rfl
  have hsend : Paired g false (j.sendTurn k rw pe : List (Act α)) := by
    rw [sendTurn]
    split_ifs
    · exact rfl
    · exact rfl
  refine (paired_barrier k g pe).append (hreceive.append (Paired.append ?_
    (hsend.append (paired_barrier k g pe))))
  exact rfl

/-- A balanced program that every process runs. -/
abbrev Even (j : Job) (prog : Nat → List (Act α)) : Prop :=
  Balanced j.members (Part.all (List.range j.noPe) prog)

theorem Even.append {prog prog' : Nat → List (Act α)} (h : j.Even prog) (h' : j.Even prog') :
    j.Even fun pe => prog pe ++ prog' pe := by
  have happend := Balanced.append h h'
  convert happend using 2 with pe
  simp only [Part.all]
  split_ifs <;> rfl

theorem Does.even {I J : (Nat → Memory α) → Prop} {prog : Nat → List (Act α)}
    (h : j.Does I prog J) {L : Nat → Memory α} (hL : I L)
    (hpaired : ∀ g pe, Paired g false (prog pe)) : j.Even prog := by
  refine Triple.balanced h hL fun g pe => ?_
  simp only [Part.all]
  split_ifs
  · exact hpaired g pe
  · exact rfl

theorem all_eq {prog : Nat → List (Act α)} {x : Nat} (hx : x < j.noPe) :
    Part.all (List.range j.noPe) prog x = prog x :=
  if_pos (List.mem_range.mpr hx)

/-- Processes of one gang are in the order of their numbers there. -/
theorem sub_gangMyPe {x y : Nat} (hcomm : j.comm k x = j.comm k y) :
    x + j.gangMyPe y k = y + j.gangMyPe x k := by
  cases k with
  | matrix1 => exact Nat.add_comm _ _
  | matrix2 =>
    have hid : j.gangId x = j.gangId y := by simpa [comm] using hcomm
    have hx := Nat.div_add_mod x (j.gangPe .matrix2)
    have hy := Nat.div_add_mod y (j.gangPe .matrix2)
    simp only [gangId] at hid
    rw [hid] at hx
    simp only [gangMyPe]
    omega

/-- A process with another one of its group before it waits. -/
theorem waits_of_lt {x y : Nat} (hcomm : j.comm k y = j.comm k x)
    (hgroup : j.gangMyPe y k / j.ioMod rw = j.gangMyPe x k / j.ioMod rw) (hyx : y < x) :
    j.gangMyPe x k % j.ioMod rw > 0 := by
  have hsub := sub_gangMyPe hcomm
  have hy := Nat.div_add_mod (j.gangMyPe y k) (j.ioMod rw)
  have hx := Nat.div_add_mod (j.gangMyPe x k) (j.ioMod rw)
  rw [hgroup] at hy
  omega

theorem recvs_sendTurn (source : Nat) (tag : Comm × Nat) (pe : Nat) :
    recvs source tag (j.sendTurn k rw pe : List (Act α)) = 0 := by
  rw [sendTurn]
  split_ifs <;> rfl

theorem enters_sendTurn (g : Comm) (pe : Nat) :
    enters g (j.sendTurn k rw pe : List (Act α)) = 0 := by
  rw [sendTurn]
  split_ifs <;> rfl

theorem leaves_sendTurn (g : Comm) (pe : Nat) :
    leaves g (j.sendTurn k rw pe : List (Act α)) = 0 := by
  rw [sendTurn]
  split_ifs <;> rfl

/-- A call has two barriers. -/
theorem enters_ioDistmatrixNet (pe : Nat) :
    enters (j.comm k pe) (j.ioDistmatrixNet k rw data rank pe : List (Act α)) = 2 := by
  have hreceive : enters (j.comm k pe) (j.receiveTurn k rw pe : List (Act α)) = 0 := by
    rw [receiveTurn]
    split_ifs <;> rfl
  rw [ioDistmatrixNet, enters_append, enters_append, enters_append, enters_append, hreceive,
    enters_sendTurn]
  simp [enters, barrier]

/-- A process at its access has its receive behind it. -/
theorem recvs_rest {post : Nat → List (Act α)} (source : Nat) (tag : Comm × Nat) (x : Nat) :
    recvs source tag ([.call ⟨k, rw, data, rank⟩] ++ (j.sendTurn k rw x ++
      (j.barrier k x ++ post x))) = recvs source tag (post x) := by
  rw [recvs_append, recvs_append, recvs_append, recvs_sendTurn]
  simp [recvs, barrier]

section Safety

variable (h : j.Valid) (hdvd : j.ioMod rw ∣ j.gangPe k) {pre post : Nat → List (Act α)}
  (hpost : j.Even post) {Ω : Type} {c : Net Nat (Comm × Nat) (Packet α) (Arrays α) Ω Comm Access}
  (hordered : c.Ordered j.members) {x u : Nat}
  (hsuffix : ∀ x < j.noPe, (c.proc x).prog <:+
    pre x ++ (j.ioDistmatrixNet k rw data rank x ++ post x))

include h hdvd hpost hordered hsuffix

/-- When a process has no receive of the call before it, the process that hands on the token to
it is through. -/
theorem through_of_recvs (hx : x < j.noPe) (hsend : (j.gangMyPe x k + 1) % j.ioMod rw > 0)
    (hreached : recvs x (j.comm k x, 0) (c.proc (x + 1)).prog ≤
      recvs x (j.comm k x, 0) (post (x + 1))) :
    (c.proc x).prog <:+ j.barrier k x ++ post x := by
  have hlt := h.succ_lt hx (h.handsOn_lt hdvd hx hsend)
  have hmessages := hordered.messages x (x + 1) (j.comm k x, 0)
  have heven := hpost.messages x (x + 1) (j.comm k x, 0)
  rw [all_eq hx, all_eq hlt] at heven
  have hcall : .send (x + 1) (j.comm k x, 0) (fun _ => .token) :: (j.barrier k x ++ post x) <:+
      pre x ++ (j.ioDistmatrixNet k rw data rank x ++ post x) := by
    refine ⟨pre x ++ (j.barrier k x ++ (j.receiveTurn k rw x ++
      [.call ⟨k, rw, data, rank⟩])), ?_⟩
    simp [ioDistmatrixNet, sendTurn, hsend]
  rcases suffix_cases (hsuffix x hx) hcall with hle | hle
  · exact hle
  · have hsends := sends_le hle (x + 1) (j.comm k x, 0)
    have hone : sends (x + 1) (j.comm k x, 0) (.send (x + 1) (j.comm k x, 0)
        (fun _ => .token) :: (j.barrier k x ++ post x)) =
          sends (x + 1) (j.comm k x, 0) (post x) + 1 := by
      simp [sends, barrier]
    omega

/-- All processes of the group before one that has no receive of the call before it are
through. -/
theorem through_before (hx : x < j.noPe)
    (hreached : recvs (x - 1) (j.comm k x, 0) (c.proc x).prog ≤
      recvs (x - 1) (j.comm k x, 0) (post x)) {y : Nat} (hcomm : j.comm k y = j.comm k x)
    (hgroup : j.gangMyPe y k / j.ioMod rw = j.gangMyPe x k / j.ioMod rw) (hyx : y < x) :
    (c.proc y).prog <:+ j.barrier k y ++ post y := by
  induction x with
  | zero => cases hyx
  | succ x ih =>
    have hsub := sub_gangMyPe hcomm
    have hwait := waits_of_lt hcomm hgroup hyx
    obtain ⟨x', heq, hx', hsend⟩ := h.exists_handsOn hdvd hx hwait
    obtain rfl := Nat.succ.inj heq
    obtain ⟨hmyPe, hcomm'⟩ := h.gangMyPe_succ (h.handsOn_lt hdvd hx' hsend)
    rw [Nat.add_sub_cancel, hcomm'] at hreached
    have hthrough := through_of_recvs h hdvd hpost hordered hsuffix hx' hsend hreached
    rcases Nat.lt_or_eq_of_le (Nat.le_of_lt_succ hyx) with hlt | rfl
    swap
    · exact hthrough
    refine ih hx' ?_ (hcomm.trans hcomm') (Nat.le_antisymm ?_ ?_) hlt
    · have hle := recvs_le hthrough (x - 1) (j.comm k x, 0)
      have hnone : recvs (x - 1) (j.comm k x, 0) (j.barrier k x ++ post x) =
          recvs (x - 1) (j.comm k x, 0) (post x) := by
        simp [recvs, barrier]
      exact hnone ▸ hle
    · exact Nat.div_le_div_right (by omega)
    · rw [hgroup]
      exact Nat.div_le_div_right (by omega)

omit h hdvd in
/-- Every process of the gang of one that is at its access is inside the call. -/
theorem inside_call (hu : u < j.noPe) (hat : (c.proc u).prog =
      [.call ⟨k, rw, data, rank⟩] ++ (j.sendTurn k rw u ++ (j.barrier k u ++ post u)))
    (hx : x < j.noPe) (hcomm : j.comm k x = j.comm k u) :
    (c.proc x).prog <:+ (j.ioDistmatrixNet k rw data rank x).tail ++ post x ∧
      (j.barrier k x).tail ++ post x <:+ (c.proc x).prog := by
  have hux : u ∈ j.members (j.comm k u) :=
    (mem_members_comm k u u).mpr ⟨List.mem_range.mpr hu, rfl⟩
  have hxu : x ∈ j.members (j.comm k u) :=
    (mem_members_comm k u x).mpr ⟨List.mem_range.mpr hx, hcomm⟩
  have heven := hpost.enters_eq_leaves hxu hux
  have heven' := hpost.enters_eq_leaves hux hxu
  rw [all_eq hx, all_eq hu] at heven heven'
  constructor
  · -- process `u` has left the first barrier
    have horder := hordered.order _ x hxu u hux
    have hcall : .enter (j.comm k x) (fun _ => .nothing) ::
        ((j.ioDistmatrixNet k rw data rank x).tail ++ post x) <:+
          pre x ++ (j.ioDistmatrixNet k rw data rank x ++ post x) := List.suffix_append _ _
    rcases suffix_cases (hsuffix x hx) hcall with hle | hle
    · exact hle
    · have henters := enters_le hle (j.comm k u)
      have htwo : enters (j.comm k u) (.enter (j.comm k x) (fun _ => .nothing) ::
          ((j.ioDistmatrixNet k rw data rank x).tail ++ post x)) =
            enters (j.comm k u) (post x) + 2 := by
        change enters (j.comm k u) (j.ioDistmatrixNet k rw data rank x ++ post x) = _
        rw [enters_append, ← hcomm, enters_ioDistmatrixNet, Nat.add_comm]
      have hone : leaves (j.comm k u) (c.proc u).prog = leaves (j.comm k u) (post u) + 1 := by
        rw [hat, leaves_append, leaves_append, leaves_append, leaves_sendTurn]
        simp [leaves, barrier, Nat.add_comm]
      omega
  · -- process `u` has not entered the second barrier
    have horder := hordered.order _ u hux x hxu
    have hcall : .leave (j.comm k x) (fun _ s => some s) :: post x <:+
        pre x ++ (j.ioDistmatrixNet k rw data rank x ++ post x) := by
      refine ⟨pre x ++ (j.barrier k x ++ (j.receiveTurn k rw x ++
        ([.call ⟨k, rw, data, rank⟩] ++ (j.sendTurn k rw x ++
          [.enter (j.comm k x) fun _ => .nothing])))), ?_⟩
      simp [ioDistmatrixNet, barrier]
    rcases suffix_cases (hsuffix x hx) hcall with hle | hle
    · have hleaves := leaves_le hle (j.comm k u)
      have hone : enters (j.comm k u) (c.proc u).prog = enters (j.comm k u) (post u) + 1 := by
        rw [hat, enters_append, enters_append, enters_append, enters_sendTurn]
        simp [enters, barrier, Nat.add_comm]
      omega
    · exact hle

variable (hu : u < j.noPe) (hat : (c.proc u).prog =
      [.call ⟨k, rw, data, rank⟩] ++ (j.sendTurn k rw u ++ (j.barrier k u ++ post u)))
  (hx : x < j.noPe) (hcomm : j.comm k x = j.comm k u)
  (hgroup : j.gangMyPe x k / j.ioMod rw = j.gangMyPe u k / j.ioMod rw)

include hu hat hx hcomm hgroup

omit hx in
/-- A process before the one at its access has made its access and handed on the token. -/
theorem before_access (hxu : x < u) : (c.proc x).prog <:+ j.barrier k x ++ post x := by
  refine through_before h hdvd hpost hordered hsuffix hu ?_ hcomm hgroup hxu
  rw [hat, recvs_rest]

omit hu in
/-- A process after the one at its access has not received the token. -/
theorem after_access (hux : u < x) : j.receiveTurn k rw x ++ ([.call ⟨k, rw, data, rank⟩] ++
    (j.sendTurn k rw x ++ (j.barrier k x ++ post x))) <:+ (c.proc x).prog := by
  have hwait := waits_of_lt hcomm.symm hgroup.symm hux
  have hreceive : j.receiveTurn k rw x =
      ([.recv (x - 1) (j.comm k x, 0) Arrays.receiveToken] : List (Act α)) := if_pos hwait
  have hcall : .recv (x - 1) (j.comm k x, 0) Arrays.receiveToken ::
      ([.call ⟨k, rw, data, rank⟩] ++ (j.sendTurn k rw x ++ (j.barrier k x ++ post x))) <:+
      pre x ++ (j.ioDistmatrixNet k rw data rank x ++ post x) := by
    refine ⟨pre x ++ j.barrier k x, ?_⟩
    simp [ioDistmatrixNet, hreceive]
  rw [hreceive]
  rcases suffix_cases (hsuffix x hx) hcall with hle | hle
  · -- otherwise process `u` would be through
    have hreached := recvs_le hle (x - 1) (j.comm k x, 0)
    rw [recvs_rest] at hreached
    have hthrough := through_before h hdvd hpost hordered hsuffix hx hreached hcomm.symm
      hgroup.symm hux
    have hlength := hthrough.length_le
    rw [hat] at hlength
    simp only [List.length_append, List.length_cons] at hlength
    omega
  · exact hle

/-- No other process of the group is at an access. -/
theorem not_at_call (hne : x ≠ u) {a : Access} {rest : List (Act α)} :
    (c.proc x).prog ≠ .call a :: rest := by
  intro hcall
  obtain ⟨hle, hge⟩ := inside_call hpost hordered hsuffix hu hat hx hcomm
  rcases Nat.lt_or_gt_of_ne hne with hxu | hux
  · have hthrough := before_access h hdvd hpost hordered hsuffix hu hat hcomm hgroup hxu
    rcases eq_or_eq_of_suffix hthrough hge with heq | heq
    · rw [heq] at hcall
      cases hcall
    · rw [heq] at hcall
      cases hcall
  · have hwaiting := after_access h hdvd hpost hordered hsuffix hat hx hcomm hgroup hux
    have hreceive : j.receiveTurn k rw x =
        ([.recv (x - 1) (j.comm k x, 0) Arrays.receiveToken] : List (Act α)) :=
      if_pos (waits_of_lt hcomm.symm hgroup.symm hux)
    rw [hreceive] at hwaiting
    simp only [ioDistmatrixNet, barrier, hreceive, List.cons_append, List.nil_append,
      List.tail_cons, List.append_assoc] at hle hwaiting
    rcases eq_or_eq_of_suffix hle hwaiting with heq | heq
    · rw [heq] at hcall
      cases hcall
    · rw [heq] at hcall
      cases hcall

end Safety

end Job

end CacheTrace.Madbench
