import CacheTrace.Madbench.Elements

/-!
# The ring of gangs

`get_W` brings the next matrix `W` to every gang. For the first one of a block of `no_gang` bins
all gangs read; then the matrices go round: every process sends its part to the process with the
same number in the gang before, and receives one from the gang after. The sends wait for their
receivers, so the even gangs send first and the odd ones receive first.

With an odd number of gangs two even gangs are neighbours in the ring, the last one and the first
one. The schedule that `ringRank` gives covers this too: of the even gangs the last one goes
first.
-/

namespace CacheTrace.Madbench

open Cyclic Buffer Message

variable {α : Type}

namespace Job

variable (j : Job)

/-- The process of gang `id` with the number that process `pe` has in its own gang. -/
def inGang (id pe : Nat) : Nat := id * j.gangPe .matrix2 + j.gangMyPe pe .matrix2

def toGang (pe : Nat) : Nat := (j.gangId pe + j.noGang - 1) % j.noGang

def fromGang (pe : Nat) : Nat := (j.gangId pe + 1) % j.noGang

def sendW (br : Nat) (data : Var) (pe : Nat) : Act α :=
  .send (j.inGang (j.toGang pe) pe) (.g2pe (j.gangMyPe pe .matrix2), br) fun s =>
    .doubles (contents (s.buffer data) (j.elm .matrix2 pe))

def recvW (br pe : Nat) : Act α :=
  .recv (j.inGang (j.fromGang pe) pe) (.g2pe (j.gangMyPe pe .matrix2), br) fun m s =>
    s.receive .mpiBuffer (j.elm .matrix2 pe) m

def copyW (data : Var) (pe : Nat) (s : Arrays α) : Arrays α :=
  s.set data (memcpy (s.buffer data) 0 (s.buffer .mpiBuffer) 0 (j.elm .matrix2 pe))

/-- `get_W` -/
def getW (br : Nat) (data : Var) (pe : Nat) : List (Act α) :=
  if br % j.noGang = 0 then j.ioDistmatrixNet .matrix2 .r data (br / j.noGang) pe
  else
    (if j.gangId pe % 2 = 0 then [j.sendW br data pe, j.recvW br pe]
      else [j.recvW br pe, j.sendW br data pe]) ++
    [.compute (j.copyW data pe)]

/-! ## Neighbours -/

variable {j}

section Neighbours

variable (h : j.Valid) {id pe : Nat}

include h

theorem Valid.gangId_inGang (id pe : Nat) : j.gangId (j.inGang id pe) = id :=
  mul_add_div (h.gangPe_pos .matrix2) (Nat.mod_lt _ (h.gangPe_pos .matrix2))

theorem Valid.gangMyPe_inGang (id pe : Nat) :
    j.gangMyPe (j.inGang id pe) .matrix2 = j.gangMyPe pe .matrix2 :=
  mul_add_mod (Nat.mod_lt _ (h.gangPe_pos .matrix2))

theorem Valid.inGang_lt (hid : id < j.noGang) (pe : Nat) : j.inGang id pe < j.noPe := by
  rw [h.noPe_eq, ← Nat.div_lt_iff_lt_mul (h.gangPe_pos .matrix2)]
  exact (h.gangId_inGang id pe).trans_lt hid

theorem Valid.toGang_lt (pe : Nat) : j.toGang pe < j.noGang := Nat.mod_lt _ h.noGang

theorem Valid.fromGang_lt (pe : Nat) : j.fromGang pe < j.noGang := Nat.mod_lt _ h.noGang

omit h in
theorem inGang_self (pe : Nat) : j.inGang (j.gangId pe) pe = pe := by
  rw [inGang, gangId, gangMyPe, Nat.mul_comm, Nat.div_add_mod]

/-- The process that receives from `pe` is the one that sends to it, seen from the other side. -/
theorem Valid.to_from (hpe : pe < j.noPe) :
    j.inGang (j.toGang (j.inGang (j.fromGang pe) pe)) (j.inGang (j.fromGang pe) pe) = pe := by
  have hid := h.gangId_lt hpe
  have hto : (j.fromGang pe + j.noGang - 1) % j.noGang = j.gangId pe := by
    rcases Nat.lt_or_eq_of_le (Nat.succ_le_of_lt hid) with hlt | heq
    · rw [fromGang, Nat.mod_eq_of_lt hlt]
      rw [show j.gangId pe + 1 + j.noGang - 1 = j.gangId pe + j.noGang by omega,
        Nat.add_mod_right, Nat.mod_eq_of_lt hid]
    · have hlast : j.gangId pe + 1 = j.noGang := heq
      rw [fromGang, hlast, Nat.mod_self, Nat.zero_add, Nat.mod_eq_of_lt (by omega)]
      omega
  rw [toGang, h.gangId_inGang, hto, inGang, h.gangMyPe_inGang]
  exact inGang_self pe

theorem Valid.from_to (hpe : pe < j.noPe) :
    j.inGang (j.fromGang (j.inGang (j.toGang pe) pe)) (j.inGang (j.toGang pe) pe) = pe := by
  have hid := h.gangId_lt hpe
  have hfrom : (j.toGang pe + 1) % j.noGang = j.gangId pe := by
    rcases Nat.eq_zero_or_pos (j.gangId pe) with hzero | hpos
    · have hto : j.toGang pe = j.noGang - 1 := by
        rw [toGang, hzero, Nat.zero_add]
        exact Nat.mod_eq_of_lt (by omega)
      rw [hto, Nat.sub_add_cancel h.noGang, Nat.mod_self, hzero]
    · have hto : j.toGang pe = j.gangId pe - 1 := by
        rw [toGang, show j.gangId pe + j.noGang - 1 = j.gangId pe - 1 + j.noGang by omega,
          Nat.add_mod_right]
        exact Nat.mod_eq_of_lt (by omega)
      rw [hto, Nat.sub_add_cancel hpos, Nat.mod_eq_of_lt hid]
  rw [fromGang, h.gangId_inGang, hfrom, inGang, h.gangMyPe_inGang]
  exact inGang_self pe

end Neighbours

/-! ## The schedule -/

/-- The place of the message of a gang in the order: first the even gangs, the last one first,
then the odd ones. -/
def ringRank (j : Job) (id : Nat) : Nat := if id % 2 = 0 then j.noGang - id else 2 * j.noGang - id

theorem ringRank_lt (j : Job) {id : Nat} (hid : id < j.noGang) (hmany : 1 < j.noGang) :
    if id % 2 = 0 then j.ringRank id < j.ringRank ((id + 1) % j.noGang)
    else j.ringRank ((id + 1) % j.noGang) < j.ringRank id := by
  rcases Nat.lt_or_eq_of_le (Nat.succ_le_of_lt hid) with hlt | heq
  · rw [Nat.mod_eq_of_lt hlt]
    simp only [ringRank]
    split_ifs <;> omega
  · rw [show id + 1 = j.noGang from heq, Nat.mod_self]
    simp only [ringRank]
    split_ifs <;> omega

/-- The message that process `sp` sends. -/
def passW (j : Job) (br : Nat) (data : Var) (sp x : Nat) : List (Act α) :=
  if x = sp then [j.sendW br data sp]
  else if x = j.inGang (j.toGang sp) sp then [j.recvW br x]
  else []

/-- The messages that process `x` sends and receives, in its order. -/
def ringOf (j : Job) (x : Nat) : List Nat :=
  if x < j.noPe then
    if j.gangId x % 2 = 0 then [x, j.inGang (j.fromGang x) x] else [j.inGang (j.fromGang x) x, x]
  else []

/-- The messages in the order of the gangs. -/
def ringOrder (j : Job) (sp : Nat) : Nat := j.ringRank (j.gangId sp) * j.noPe + sp

section Ring

variable (h : j.Valid) (hmany : 1 < j.noGang)

include h hmany

theorem to_ne (pe : Nat) (hpe : pe < j.noPe) : j.inGang (j.toGang pe) pe ≠ pe := by
  intro heq
  have hid := congrArg j.gangId heq
  rw [h.gangId_inGang, toGang] at hid
  have hlt := h.gangId_lt hpe
  rcases Nat.eq_zero_or_pos (j.gangId pe) with hzero | hpos
  · rw [hzero, Nat.zero_add, Nat.mod_eq_of_lt (by omega)] at hid
    omega
  · rw [show j.gangId pe + j.noGang - 1 = j.gangId pe - 1 + j.noGang by omega,
      Nat.add_mod_right, Nat.mod_eq_of_lt (by omega)] at hid
    omega

theorem ringOf_sorted (x : Nat) : (j.ringOf x).Pairwise (j.ringOrder · < j.ringOrder ·) := by
  rw [ringOf]
  by_cases hx : x < j.noPe
  swap
  · rw [if_neg hx]
    exact .nil
  rw [if_pos hx]
  have hsource := h.inGang_lt (h.fromGang_lt x) x
  have hrank := j.ringRank_lt (h.gangId_lt hx) hmany
  have hlt : ∀ {y z : Nat}, y < j.noPe → z < j.noPe →
      j.ringRank (j.gangId y) < j.ringRank (j.gangId z) → j.ringOrder y < j.ringOrder z :=
    fun hy hz hyz => (mul_add_lt_iff hy hz).mpr (.inl hyz)
  have hid : j.gangId (j.inGang (j.fromGang x) x) = (j.gangId x + 1) % j.noGang :=
    h.gangId_inGang _ x
  split_ifs with heven
  · rw [if_pos heven] at hrank
    exact List.pairwise_pair.mpr (hlt hx hsource (hid.symm ▸ hrank))
  · rw [if_neg heven] at hrank
    exact List.pairwise_pair.mpr (hlt hsource hx (hid.symm ▸ hrank))

omit hmany in
theorem mem_ringOf {br : Nat} {data : Var} {x sp : Nat} : sp ∈ j.ringOf x ↔
    sp ∈ List.range j.noPe ∧ j.passW br data sp x ≠ ([] : List (Act α)) := by
  have hpass : j.passW br data sp x ≠ ([] : List (Act α)) ↔
      x = sp ∨ x = j.inGang (j.toGang sp) sp := by
    rw [passW]
    split_ifs with hx hx'
    · simp [hx]
    · simp [hx']
    · simp [hx, hx']
  have hof : sp ∈ j.ringOf x ↔ x < j.noPe ∧ (sp = x ∨ sp = j.inGang (j.fromGang x) x) := by
    rw [ringOf]
    split_ifs <;> simp [*, or_comm]
  rw [hpass, hof, List.mem_range]
  constructor
  · rintro ⟨hx, rfl | rfl⟩
    · exact ⟨hx, .inl rfl⟩
    · exact ⟨h.inGang_lt (h.fromGang_lt x) x, .inr (h.to_from hx).symm⟩
  · rintro ⟨hsp, rfl | rfl⟩
    · exact ⟨hsp, .inl rfl⟩
    · exact ⟨h.inGang_lt (h.toGang_lt sp) sp, .inr (h.from_to hsp).symm⟩

omit hmany in
/-- Processes with the same number in their gangs have the same parts. -/
theorem Valid.share_inGang (id pe : Nat) :
    j.share .matrix2 (j.inGang id pe) = j.share .matrix2 pe := by
  simp only [share, h.gangMyPe_inGang]

omit hmany in
theorem Valid.elm_inGang (id pe : Nat) : j.elm .matrix2 (j.inGang id pe) = j.elm .matrix2 pe := by
  rw [elm, myNoElm, h.share_inGang, elm, myNoElm]

omit hmany in
theorem Valid.part_inGang (id pe : Nat) (M : Nat → Nat → α) :
    j.part .matrix2 (j.inGang id pe) M = j.part .matrix2 pe M := by
  funext n
  simp only [part, globalRow, globalCol, myNoRow, peRow, peCol, h.gangMyPe_inGang]

/-- Process `x` has received what its neighbour had. -/
def afterRing (j : Job) (data : Var) (L : Nat → Memory α) (x : Nat) : Memory α :=
  (L x).put ((L x).toArrays.set .mpiBuffer (load (contents
    ((L (j.inGang (j.fromGang x) x)).buffer data) (j.elm .matrix2 x)) ((L x).buffer .mpiBuffer)))

theorem passW_does {br : Nat} {data : Var} (hdata : data ≠ .mpiBuffer) (L₀ : Nat → Memory α)
    {done : List Nat} {sp : Nat} (hsp : sp < j.noPe) (hnot : sp ∉ done) :
    Triple j.platform
      (fun L => L = fun x => if x < j.noPe ∧ j.inGang (j.fromGang x) x ∈ done then
        j.afterRing data L₀ x else L₀ x)
      (j.passW br data sp)
      (fun L => L = fun x => if x < j.noPe ∧ j.inGang (j.fromGang x) x ∈ done ++ [sp] then
        j.afterRing data L₀ x else L₀ x) := by
  have htlt := h.inGang_lt (h.toGang_lt sp) sp
  have hfrom := h.from_to hsp
  have hmyPe := h.gangMyPe_inGang (j.toGang sp) sp
  have helm := h.elm_inGang (j.toGang sp) sp
  have hne := to_ne h hmany sp hsp
  have hto : ∀ x < j.noPe, j.inGang (j.fromGang x) x = sp → x = j.inGang (j.toGang sp) sp := by
    rintro x hx rfl
    exact (h.to_from hx).symm
  unfold passW sendW
  generalize j.inGang (j.toGang sp) sp = t at *
  refine ((triple_exchange hne.symm (.g2pe (j.gangMyPe sp .matrix2), br)
    (fun s => .doubles (contents (s.buffer data) (j.elm .matrix2 sp)))
    fun m s => s.receive .mpiBuffer (j.elm .matrix2 t) m).conseq ?_ fun L hL => hL).of_eq ?_
  · rintro L rfl
    have hsame : (if sp < j.noPe ∧ j.inGang (j.fromGang sp) sp ∈ done then j.afterRing data L₀ sp
        else L₀ sp).buffer data = (L₀ sp).buffer data := by
      split_ifs
      · simp [afterRing, hdata]
      · rfl
    rw [hsame, ← helm]
    refine ⟨_, Arrays.receive_doubles _ _ _ _, ?_⟩
    funext x
    by_cases hx : x = t
    · subst hx
      simp only [Function.update_self, hfrom, hnot, and_false, if_false,
        List.mem_append, List.mem_singleton, or_true, htlt, and_self, if_true]
      rw [afterRing, hfrom]
    · simp only [Function.update_of_ne hx, List.mem_append, List.mem_singleton]
      by_cases hlt : x < j.noPe
      · have hother : j.inGang (j.fromGang x) x ≠ sp := fun hsource => hx (hto x hlt hsource)
        simp [hlt, hother]
      · simp [hlt]
  · intro x
    simp only [Part.exchange, recvW]
    split_ifs with hx hx'
    · rfl
    · subst hx'
      rw [hfrom, hmyPe]
    · rfl

theorem ring_does (br : Nat) {data : Var} (hdata : data ≠ .mpiBuffer) (L₀ : Nat → Memory α) :
    j.Does (fun L => L = L₀) (fun x =>
      if j.gangId x % 2 = 0 then [j.sendW br data x, j.recvW br x]
      else [j.recvW br x, j.sendW br data x])
      (fun L => L = fun x => if x < j.noPe then j.afterRing data L₀ x else L₀ x) := by
  have hring : Triple j.platform (fun L => L = L₀)
      (fun x => (j.ringOf x).flatMap fun sp => j.passW br data sp x)
      (fun L => L = fun x => if x < j.noPe then j.afterRing data L₀ x else L₀ x) := by
    refine Triple.conseq (Triple.ranked j.ringOrder _ List.nodup_range ?_ (ringOf_sorted h hmany)
      (fun x sp => mem_ringOf h) (fun done sp hsp hnot =>
        passW_does h hmany hdata L₀ (List.mem_range.mp hsp) hnot) ?_) ?_ fun L hL => hL
    · intro a ha b hb heq
      have hmod := congrArg (· % j.noPe) heq
      simpa only [ringOrder, mul_add_mod (List.mem_range.mp ha), mul_add_mod (List.mem_range.mp hb)]
        using hmod
    · rintro done L hdone rfl
      funext x
      by_cases hx : x < j.noPe
      · have hmem : j.inGang (j.fromGang x) x ∈ done :=
          (hdone _).mpr (List.mem_range.mpr (h.inGang_lt (h.fromGang_lt x) x))
        simp [hx, hmem]
      · simp [hx]
    · rintro L rfl
      simp
  refine hring.of_eq fun x => ?_
  simp only [Part.all, List.mem_range, ringOf]
  by_cases hx : x < j.noPe
  · have hself : j.passW br data x x = ([j.sendW br data x] : List (Act α)) := if_pos rfl
    have hsource : j.passW br data (j.inGang (j.fromGang x) x) x =
        ([j.recvW br x] : List (Act α)) := by
      have hne : x ≠ j.inGang (j.fromGang x) x := fun heq =>
        to_ne h hmany _ (h.inGang_lt (h.fromGang_lt x) x) ((h.to_from hx).trans heq)
      rw [passW, if_neg hne, if_pos (h.to_from hx).symm]
    split_ifs with heven
    · simp [hself, hsource]
    · simp [hself, hsource]
  · simp [hx]

end Ring

/-- What the ring brings to a process. -/
theorem copyW_afterRing (h : j.Valid) (hrange : j.NoOverflow) {data : Var} {pe : Nat}
    (hpe : pe < j.noPe) {V : Nat → Nat → Nat → α} {L₀ : Nat → Memory α}
    (hring : ∀ pe < j.noPe, j.IsPart .matrix2 pe (V (j.toGang pe)) ((L₀ pe).buffer data)) :
    Memory.Keeps [data, .mpiBuffer] (L₀ pe) ((j.afterRing data L₀ pe).put
        (j.copyW data pe (j.afterRing data L₀ pe).toArrays)) ∧
      j.IsPart .matrix2 pe (V (j.gangId pe))
        ((j.copyW data pe (j.afterRing data L₀ pe).toArrays).buffer data) := by
  simp only [copyW, afterRing, Memory.put_put, Memory.put_toArrays, Arrays.set_buffer_self]
  constructor
  · refine Memory.keeps_put _ fun v hv => ?_
    simp only [List.mem_cons, List.not_mem_nil, or_false, not_or] at hv
    rw [Arrays.set_buffer_of_ne _ hv.1, Arrays.set_buffer_of_ne _ hv.2]
  · intro n hn
    have hgang : j.toGang (j.inGang (j.fromGang pe) pe) = j.gangId pe := by
      rw [← h.gangId_inGang (j.toGang (j.inGang (j.fromGang pe) pe))
        (j.inGang (j.fromGang pe) pe), h.to_from hpe]
    have hsent := hring _ (h.inGang_lt (h.fromGang_lt pe) pe) n
      ((h.share_inGang (j.fromGang pe) pe).symm ▸ hn)
    rw [h.part_inGang, hgang] at hsent
    rw [hrange.elm_eq, memcpy, if_pos (by omega), Nat.sub_zero, Nat.zero_add,
      load_contents _ _ hn, hsent]

/-- **The next matrix.** A gang reads its own one, or gets that of the next gang. -/
theorem getW_does (h : j.Valid) (hrange : j.NoOverflow) (hdvd : j.ioMod .r ∣ j.gangPe .matrix2)
    (hwhole : j.Whole) {br : Nat} {data : Var} (hdata : data ≠ .mpiBuffer)
    {V : Nat → Nat → Nat → α} {L₀ : Nat → Memory α}
    (hrecords : ∀ pe < j.noPe, j.HasRecords pe (L₀ pe))
    (hread : br % j.noGang = 0 → ∀ pe < j.noPe,
      j.Stored .matrix2 pe (br / j.noGang) (V (j.gangId pe)) (L₀ pe).file)
    (hring : br % j.noGang ≠ 0 → ∀ pe < j.noPe, j.IsPart .matrix2 pe (V (j.toGang pe))
      ((L₀ pe).buffer data)) :
    j.Does (fun L => L = L₀) (j.getW br data) (fun L => ∀ pe < j.noPe,
      j.Retains pe [data, .mpiBuffer] (L₀ pe) (L pe) ∧
        j.IsPart .matrix2 pe (V (j.gangId pe)) ((L pe).buffer data)) := by
  by_cases hbr : br % j.noGang = 0
  · refine ((read_does h hdvd hwhole data (br / j.noGang) hrecords (hread hbr)).conseq
      (fun L hL => hL) fun L hL pe hpe => ?_).of_eq fun pe _ => if_pos hbr
    exact ⟨(hL pe hpe).1.mono (by simp), (hL pe hpe).2⟩
  · have hmany : 1 < j.noGang := by
      rcases Nat.lt_or_ge 1 j.noGang with hlt | hle
      · exact hlt
      · have hone : j.noGang = 1 := Nat.le_antisymm hle h.noGang
        rw [hone, Nat.mod_one] at hbr
        exact absurd rfl hbr
    refine ((ring_does h hmany br hdata L₀).seq (Does.compute (f := j.copyW data) ?_)).of_eq
      fun pe _ => ?_
    · rintro L rfl pe hpe
      simp only [if_pos hpe]
      obtain ⟨hkeeps, hpart⟩ := copyW_afterRing h hrange hpe (hring hbr)
      exact ⟨.of_keeps hkeeps, hpart⟩
    · rw [getW, if_neg hbr]

end Job

end CacheTrace.Madbench
