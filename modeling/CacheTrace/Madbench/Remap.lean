import CacheTrace.Madbench.Matrices

/-!
# The remap

`remap` brings a matrix of all processes to one gang. With `REMAP` set to `SCALAPACK` this is a
routine of the library. With `CUSTOM` every process sends its part of a matrix to its target, and
the processes of the target gang receive the parts and put them together. A process of the gang
sends before it receives, and it receives first from the gang and then from outside.

No process waits for ever, even when no message is kept on the way: the messages can be handed
over in the order of `rank`. Inside the gang this follows the targets, which lead up or down. In
whatever order the processes go on, in the end every process of the target gang has its part of
the matrix (`remap_does`), as long as the numbers are in the range of an `int`.
-/

namespace CacheTrace.Madbench

open Cyclic Buffer Message

variable {α : Type}

namespace Job

variable (j : Job) (data1 data2 : Var) (tg : Nat)

/-- The loop over `pe` with the counter `np`. -/
def gather (me : Nat) (body : Nat → Nat → List (Act α)) : List (Act α) :=
  ((List.range j.noPe).foldl (fun s pe =>
    if j.tp tg pe = me then (s.1 + 1, s.2 ++ body pe s.1) else s) (0, [])).2

def sendData (me : Nat) : List (Act α) :=
  [.send (j.tp tg me) (.world, 0) fun _ => .matrix (j.ppMatrix .matrix1 me),
   .send (j.tp tg me) (.world, 1) fun s =>
    .doubles (contents (s.buffer data1) (j.elm .matrix1 me))]

def fillReceived (me np : Nat) (s : Arrays α) : Arrays α :=
  s.set data2 (j.fill (s.buffer .recvData1) np s.spm1 (j.myNoRow .matrix2 me) (s.buffer data2))

def receiveData (me pe np : Nat) : List (Act α) :=
  [.recv pe (.world, 0) Arrays.receiveMatrix,
   .recv pe (.world, 1) fun m s => s.receive .recvData1 s.spm1.myNoElm m,
   .compute (j.fillReceived data2 me np)]

def fillOwn (me np : Nat) (s : Arrays α) : Arrays α :=
  s.set data2 (j.fill (s.buffer data1) np (j.ppMatrix .matrix1 me) (j.myNoRow .matrix2 me)
    (s.buffer data2))

/-- The exchange of `REMAP` set to `CUSTOM`. -/
def exchangeParts (me : Nat) : List (Act α) :=
  (if j.tp tg me ≠ me then j.sendData data1 tg me else []) ++
    (if j.gangId me = tg then
      j.gather tg me (fun pe np =>
        if pe / j.gangPe .matrix2 = tg ∧ pe ≠ me then j.receiveData data2 me pe np else []) ++
      (j.gather tg me (fun pe np =>
        if pe / j.gangPe .matrix2 ≠ tg then j.receiveData data2 me pe np else []) ++
      j.gather tg me (fun pe np =>
        if pe = me then [.compute (j.fillOwn data1 data2 me np)] else []))
    else [])

/-- `pdgemr2d`: the processes of the gang `tg` get their parts of the matrix. -/
def pdgemr2d (R : Library j α) (pe : Nat) (M : Var → Nat → Nat → α) (s : Arrays α) : Arrays α :=
  if j.gangId pe = tg then
    j.storeMatrix .matrix2 R (R.pdgemr2d (j.toMatrix (M data1))) data2 pe s
  else s

/-- `remap` -/
def remap (R : Library j α) (mode : RemapMode) (me : Nat) : List (Act α) :=
  j.barrier .matrix1 me ++
    ((match mode with
      | .scalapack => j.routine .matrix1 R (fun _ => True) (j.pdgemr2d data1 data2 tg R) me
      | .custom => j.exchangeParts data1 data2 tg me) ++
    j.barrier .matrix1 me)

/-! ## The order of the messages -/

/-- The counter has the number of earlier processes with the same target. -/
theorem gather_eq (me : Nat) (body : Nat → Nat → List (Act α)) :
    j.gather tg me body = (List.range j.noPe).flatMap fun pe =>
      if j.tp tg pe = me then body pe (j.np tg me pe) else [] := by
  have hfold : ∀ n, (List.range n).foldl (fun s pe =>
      if j.tp tg pe = me then (s.1 + 1, s.2 ++ body pe s.1) else s) (0, []) =
        (j.np tg me n, (List.range n).flatMap fun pe =>
          if j.tp tg pe = me then body pe (j.np tg me pe) else []) := by
    intro n
    induction n with
    | zero => rfl
    | succ n ih =>
      rw [List.range_succ, List.foldl_concat, ih, List.flatMap_append, List.flatMap_singleton]
      have hnp : j.np tg me (n + 1) = j.np tg me n + if j.tp tg n = me then 1 else 0 := by
        simp only [np, List.range_succ, List.countP_append, List.countP_singleton]
        simp
      split_ifs with heq
      · rw [hnp, if_pos heq]
      · rw [hnp, if_neg heq, List.append_nil, Nat.add_zero]
  rw [gather, hfold]

/-- The place of a message in the order: inside the gang those that go up, with the highest
target first, then those that go down, with the lowest target first, and then the messages from
outside the gang. Messages to one target go in the order of the senders. -/
def rank (sp : Nat) : Nat :=
  (if j.gangId sp = tg then
    if sp < j.tp tg sp then j.noPe - j.tp tg sp else j.noPe + j.tp tg sp
  else 2 * j.noPe) * j.noPe + sp

/-- The messages that process `x` sends or receives, in its own order. -/
def own (x : Nat) : List Nat :=
  if x < j.noPe then
    (if j.tp tg x ≠ x then [x] else []) ++
      ((List.range j.noPe).filter (fun sp => j.tp tg sp = x ∧ j.gangId sp = tg ∧ sp ≠ x) ++
        (List.range j.noPe).filter fun sp => j.tp tg sp = x ∧ j.gangId sp ≠ tg)
  else []

/-- A message from process `sp` to its target. -/
def transfer (sp x : Nat) : List (Act α) :=
  if x = sp then j.sendData data1 tg sp
  else if x = j.tp tg sp then j.receiveData data2 x sp (j.np tg x sp)
  else []

variable {j} {data1 data2} {tg}

theorem transfer_ne_nil {sp x : Nat} : j.transfer data1 data2 tg sp x ≠ ([] : List (Act α)) ↔
    x = sp ∨ x = j.tp tg sp := by
  rw [transfer]
  split_ifs with hsp htp
  · simp [hsp, sendData]
  · simp [htp, receiveData]
  · simp [hsp, htp]

section Order

variable (h : j.Valid) (htg : tg < j.noGang)

include h

theorem rank_lt {sp sp' : Nat} (hsp : sp < j.noPe) (hsp' : sp' < j.noPe) :
    j.rank tg sp < j.rank tg sp' ↔ j.rank tg sp / j.noPe < j.rank tg sp' / j.noPe ∨
      j.rank tg sp / j.noPe = j.rank tg sp' / j.noPe ∧ sp < sp' := by
  rw [rank, rank, mul_add_lt_iff hsp hsp', mul_add_div h.noPe hsp, mul_add_div h.noPe hsp']

omit h in
theorem rank_injective {sp sp' : Nat} (hsp : sp < j.noPe) (hsp' : sp' < j.noPe)
    (heq : j.rank tg sp = j.rank tg sp') : sp = sp' := by
  have hmod := congrArg (· % j.noPe) heq
  simpa only [rank, mul_add_mod hsp, mul_add_mod hsp'] using hmod

include htg

theorem mem_own {x sp : Nat} : sp ∈ j.own tg x ↔
    sp ∈ (List.range j.noPe).filter (fun sp => j.tp tg sp ≠ sp) ∧ (x = sp ∨ x = j.tp tg sp) := by
  have hlt := h.tp_lt htg sp
  have hgang := h.gangId_tp tg sp
  simp only [own, List.mem_filter, List.mem_range, decide_eq_true_eq]
  by_cases hx : x < j.noPe
  · rw [if_pos hx, List.mem_append, List.mem_append]
    simp only [List.mem_filter, List.mem_range, decide_eq_true_eq]
    by_cases hself : j.tp tg x = x
    · rw [if_neg (not_not.mpr hself)]
      grind
    · rw [if_pos hself]
      grind
  · rw [if_neg hx]
    grind

/-- A process of the gang sends before it receives from the gang. -/
theorem rank_tp_lt {sp : Nat} (hsp : sp < j.noPe) (hgang : j.gangId sp = tg)
    (hsend : j.tp tg (j.tp tg sp) ≠ j.tp tg sp) : j.rank tg (j.tp tg sp) < j.rank tg sp := by
  have hlt := h.tp_lt htg sp
  have hlt' := h.tp_lt htg (j.tp tg sp)
  have hup := h.le_tp_tp hgang
  have hdown := h.tp_tp_le hgang
  rw [rank_lt h hlt hsp]
  simp only [rank, mul_add_div h.noPe hlt, mul_add_div h.noPe hsp, h.gangId_tp, hgang]
  grind

/-- The messages from outside the gang come after those of the gang. -/
theorem rank_lt_outside {sp sp' : Nat} (hsp : sp < j.noPe) (hsp' : sp' < j.noPe)
    (hgang : j.gangId sp = tg) (hgang' : j.gangId sp' ≠ tg) : j.rank tg sp < j.rank tg sp' := by
  have hlt := h.tp_lt htg sp
  rw [rank_lt h hsp hsp']
  simp only [rank, mul_add_div h.noPe hsp, mul_add_div h.noPe hsp', if_pos hgang, if_neg hgang']
  grind

/-- The messages to one target, from the gang or from outside, are in the order of the senders. -/
theorem rank_lt_of_lt {sp sp' : Nat} (hsp' : sp' < j.noPe) (htp : j.tp tg sp = j.tp tg sp')
    (hgang : j.gangId sp = tg ↔ j.gangId sp' = tg) (hlt : sp < sp') :
    j.rank tg sp < j.rank tg sp' := by
  have hsp : sp < j.noPe := hlt.trans hsp'
  have htp' := h.tp_lt htg sp'
  rw [rank_lt h hsp hsp']
  simp only [rank, mul_add_div h.noPe hsp, mul_add_div h.noPe hsp', htp, hgang]
  grind

theorem own_sorted (x : Nat) : (j.own tg x).Pairwise (j.rank tg · < j.rank tg ·) := by
  by_cases hx : x < j.noPe
  swap
  · rw [own, if_neg hx]
    exact .nil
  rw [own, if_pos hx]
  have hinside : ∀ sp ∈ (List.range j.noPe).filter
      (fun sp => j.tp tg sp = x ∧ j.gangId sp = tg ∧ sp ≠ x),
      sp < j.noPe ∧ j.tp tg sp = x ∧ j.gangId sp = tg := by
    intro sp hsp
    simp only [List.mem_filter, List.mem_range, decide_eq_true_eq] at hsp
    exact ⟨hsp.1, hsp.2.1, hsp.2.2.1⟩
  have houtside : ∀ sp ∈ (List.range j.noPe).filter
      (fun sp => j.tp tg sp = x ∧ j.gangId sp ≠ tg),
      sp < j.noPe ∧ j.tp tg sp = x ∧ j.gangId sp ≠ tg := by
    intro sp hsp
    simpa only [List.mem_filter, List.mem_range, decide_eq_true_eq] using hsp
  refine List.pairwise_append.mpr ⟨?_, List.pairwise_append.mpr ⟨?_, ?_, ?_⟩, ?_⟩
  · split_ifs
    · exact List.pairwise_singleton _ _
    · exact .nil
  · refine (List.pairwise_lt_range.filter _).imp_of_mem fun ha hb hlt => ?_
    obtain ⟨-, htp, hgang⟩ := hinside _ ha
    obtain ⟨hb, htp', hgang'⟩ := hinside _ hb
    exact rank_lt_of_lt h htg hb (htp.trans htp'.symm) (by simp [hgang, hgang']) hlt
  · refine (List.pairwise_lt_range.filter _).imp_of_mem fun ha hb hlt => ?_
    obtain ⟨-, htp, hgang⟩ := houtside _ ha
    obtain ⟨hb, htp', hgang'⟩ := houtside _ hb
    exact rank_lt_of_lt h htg hb (htp.trans htp'.symm) (by simp [hgang, hgang']) hlt
  · intro a ha b hb
    exact rank_lt_outside h htg (hinside a ha).1 (houtside b hb).1 (hinside a ha).2.2
      (houtside b hb).2.2
  · -- the own message of the process, when it is no target of itself
    intro a ha b hb
    split_ifs at ha with hsend
    · rw [List.mem_singleton.mp ha]
      rcases List.mem_append.mp hb with hb | hb
      · obtain ⟨hlt, rfl, hgang⟩ := hinside b hb
        exact rank_tp_lt h htg hlt hgang hsend
      · obtain ⟨hlt, rfl, hgang⟩ := houtside b hb
        exact rank_lt_outside h htg hx hlt (h.gangId_tp tg b) hgang
    · cases ha

end Order

/-! ## The elements -/

/-- Process `x` has received the parts of the processes `done`. -/
structure Progress (j : Job) (M : Nat → Nat → α) (data2 : Var) (tg : Nat) (done : List Nat)
    (x : Nat) (s₀ s : Memory α) : Prop where
  keeps : Memory.Keeps [data2, .recvData1] s₀ s
  writes : Writes (j.part .matrix2 x M) (fun n => ∃ sp ∈ done, j.tp tg sp = x ∧ j.Placed tg sp n)
    (s₀.buffer data2) (s.buffer data2)

/-- After the remap of the matrix `M` to `data2` in the gang `tg`. -/
structure Remapped (j : Job) (M : Nat → Nat → α) (data2 : Var) (tg x : Nat) (s₀ s : Memory α) :
    Prop where
  keeps : Memory.Keeps [data2, .recvData1] s₀ s
  part : j.gangId x = tg → j.IsPart .matrix2 x M (s.buffer data2)
  others : j.gangId x ≠ tg → s.buffer data2 = s₀.buffer data2

variable {M : Nat → Nat → α} {done : List Nat} {x sp : Nat} {s₀ s : Memory α}

theorem Progress.start (s : Memory α) : Progress j M data2 tg [] x s s :=
  ⟨.refl _ _, (Writes.nothing _).congr fun n => by simp⟩

/-- A part that does not go to process `x`. -/
theorem Progress.of_ne (hs : Progress j M data2 tg done x s₀ s) (hne : j.tp tg sp ≠ x) :
    Progress j M data2 tg (done ++ [sp]) x s₀ s :=
  { hs with writes := hs.writes.congr fun n => by simp [or_and_right, exists_or, hne] }

section

variable (h : j.Valid)

include h

/-- A part that is filled in. -/
theorem Progress.fill (hrange : j.NoOverflow) (htg : tg < j.noGang) (hsp : sp < j.noPe)
    (hs : Progress j M data2 tg done (j.tp tg sp) s₀ s) {d1 : Nat → α}
    (hd1 : j.IsPart .matrix1 sp M d1) {s' : Memory α}
    (hkeeps : Memory.Keeps [data2, .recvData1] s s')
    (hdata2 : s'.buffer data2 = j.fill d1 (j.np tg (j.tp tg sp) sp) (j.ppMatrix .matrix1 sp)
      (j.myNoRow .matrix2 (j.tp tg sp)) (s.buffer data2)) :
    Progress j M data2 tg (done ++ [sp]) (j.tp tg sp) s₀ s' := by
  refine ⟨hs.keeps.trans hkeeps, ?_⟩
  rw [hdata2]
  refine (hs.writes.trans (h.fill_writes_part htg hsp hrange hd1 _)).congr fun n => ?_
  simp [or_and_right, exists_or]

/-- All parts have come. -/
theorem Progress.remapped (hs : Progress j M data2 tg done x s₀ s) (hx : x < j.noPe)
    (hall : ∀ sp < j.noPe, j.tp tg sp = x → sp ∈ done) : Remapped j M data2 tg x s₀ s := by
  refine ⟨hs.keeps, fun hgang n hn => ?_, fun hgang => ?_⟩
  · obtain ⟨sp, hsp, htp, hplaced⟩ := h.exists_source hx hgang hn
    exact hs.writes.written n ⟨sp, hall sp hsp htp, htp, hplaced⟩
  · funext n
    refine hs.writes.kept n ?_
    rintro ⟨sp, -, rfl, -⟩
    exact hgang (h.gangId_tp tg sp)

end

section Program

variable (h : j.Valid) (hrange : j.NoOverflow) (htg : tg < j.noGang) (hdata : data1 ≠ data2)
  (hdata1 : data1 ≠ .recvData1) (hdata2 : data2 ≠ .recvData1) {L₀ : Nat → Memory α}
  (hL₀ : ∀ x < j.noPe, j.IsPart .matrix1 x M ((L₀ x).buffer data1))

include hrange in
/-- What a process has received, when process `sp` sends it `d1`. -/
theorem receive_fill (sp : Nat) (d1 : Nat → α) (s : Memory α) : ∃ s₁ s₂ : Arrays α,
    s.toArrays.receiveMatrix (.matrix (j.ppMatrix .matrix1 sp)) = some s₁ ∧
    s₁.receive .recvData1 s₁.spm1.myNoElm (.doubles (contents d1 (j.elm .matrix1 sp))) = some s₂ ∧
    s₂.buffer = Function.update s.buffer .recvData1
      (load (contents d1 (j.share .matrix1 sp)) (s.buffer .recvData1)) ∧
    s₂.spm1 = j.ppMatrix .matrix1 sp := by
  have helm : (j.ppMatrix .matrix1 sp).myNoElm = (j.share .matrix1 sp : Int) := by
    rw [ppMatrix, hrange.fits.myNoElm_eq]
  let s₁ : Arrays α := { s.toArrays with spm1 := j.ppMatrix .matrix1 sp }
  refine ⟨s₁, s₁.set .recvData1 _, rfl, ?_, rfl, rfl⟩
  have hspm1 : s₁.spm1.myNoElm = (j.share .matrix1 sp : Int) := helm
  rw [hrange.elm_eq, hspm1, Arrays.receive_doubles]

include h hrange htg hdata hdata1 hdata2 hL₀

/-- The target after a transfer. -/
theorem Progress.transfer (hsp : sp < j.noPe) {L : Nat → Memory α}
    (hL : ∀ x, Progress j M data2 tg done x (L₀ x) (L x)) {s₂ : Arrays α}
    (hbuffer : s₂.buffer = Function.update (L (j.tp tg sp)).buffer .recvData1
      (load (contents ((L sp).buffer data1) (j.share .matrix1 sp))
        ((L (j.tp tg sp)).buffer .recvData1))) (hspm1 : s₂.spm1 = j.ppMatrix .matrix1 sp) :
    Progress j M data2 tg (done ++ [sp]) (j.tp tg sp) (L₀ (j.tp tg sp))
      ((L (j.tp tg sp)).put (j.fillReceived data2 (j.tp tg sp) (j.np tg (j.tp tg sp) sp) s₂)) := by
  have hsame : (L sp).buffer data1 = (L₀ sp).buffer data1 :=
    (hL sp).keeps.buffer data1 (by simp [hdata, hdata1])
  have hreceived : j.IsPart .matrix1 sp M (load (contents ((L sp).buffer data1)
      (j.share .matrix1 sp)) ((L (j.tp tg sp)).buffer .recvData1)) := by
    intro n hn
    rw [load_contents _ _ hn, hsame]
    exact hL₀ sp hsp n hn
  refine (hL (j.tp tg sp)).fill h hrange htg hsp hreceived
    (Memory.keeps_put _ fun v hv => ?_) ?_
  · simp only [List.mem_cons, List.not_mem_nil, or_false, not_or] at hv
    rw [fillReceived, Arrays.set_buffer_of_ne _ hv.1, hbuffer, Function.update_of_ne hv.2]
  · rw [Memory.put_toArrays, fillReceived, Arrays.set_buffer_self, hspm1, hbuffer,
      Function.update_self, Function.update_of_ne hdata2]

theorem transfer_does (done : List Nat) (hsp : sp < j.noPe) (hne : j.tp tg sp ≠ sp) :
    Triple j.platform (fun L => ∀ x, Progress j M data2 tg done x (L₀ x) (L x))
      (j.transfer data1 data2 tg sp)
      (fun L => ∀ x, Progress j M data2 tg (done ++ [sp]) x (L₀ x) (L x)) := by
  refine (((triple_exchange hne.symm (.world, 0) (fun _ => .matrix (j.ppMatrix .matrix1 sp))
    Arrays.receiveMatrix).seq ((triple_exchange hne.symm (.world, 1)
    (fun s => .doubles (contents (s.buffer data1) (j.elm .matrix1 sp)))
    fun m s => s.receive .recvData1 s.spm1.myNoElm m).seq
    (triple_compute (j.tp tg sp) (j.fillReceived data2 (j.tp tg sp)
      (j.np tg (j.tp tg sp) sp))))).conseq ?_ fun L hL => hL).of_eq ?_
  · intro L hL
    obtain ⟨s₁, s₂, hmatrix, hdoubles, hbuffer, hspm1⟩ :=
      receive_fill hrange sp ((L sp).buffer data1) (L (j.tp tg sp))
    refine ⟨s₁, hmatrix, s₂, ?_, fun x => ?_⟩
    · rwa [Function.update_of_ne hne.symm, Function.update_self, Memory.put_toArrays]
    · by_cases hx : x = j.tp tg sp
      · subst hx
        simp only [Function.update_self, Memory.put_put, Memory.put_toArrays]
        exact Progress.transfer h hrange htg hdata hdata1 hdata2 hL₀ hsp hL hbuffer hspm1
      · simp only [Function.update_of_ne hx]
        exact (hL x).of_ne (Ne.symm hx)
  · intro x
    simp only [Job.transfer, Part.exchange, Part.all, List.mem_singleton]
    split_ifs with hx hx' hx'
    · exact absurd (hx.symm.trans hx').symm hne
    · rfl
    · subst hx'
      rfl
    · rfl

theorem transfers_does : Triple j.platform (fun L => L = L₀)
    (fun x => (j.own tg x).flatMap fun sp => j.transfer data1 data2 tg sp x)
    (fun L => ∃ done, (∀ sp, sp ∈ done ↔ sp < j.noPe ∧ j.tp tg sp ≠ sp) ∧
      ∀ x, Progress j M data2 tg done x (L₀ x) (L x)) := by
  let senders := (List.range j.noPe).filter fun sp => j.tp tg sp ≠ sp
  have hsenders : ∀ sp, sp ∈ senders ↔ sp < j.noPe ∧ j.tp tg sp ≠ sp := by
    simp [senders]
  have hown : ∀ x sp, sp ∈ j.own tg x ↔
      sp ∈ senders ∧ j.transfer data1 data2 tg sp x ≠ ([] : List (Act α)) := by
    intro x sp
    rw [mem_own h htg, transfer_ne_nil]
  refine Triple.conseq (Triple.ranked (j.rank tg)
    (fun done L => ∀ x, Progress j M data2 tg done x (L₀ x) (L x)) (List.nodup_range.filter _)
    (fun a ha b hb => rank_injective ((hsenders a).mp ha).1 ((hsenders b).mp hb).1)
    (own_sorted h htg) hown (fun done sp hsp _ => ?_) (fun done L hdone hL => ?_)) ?_ fun L hL => hL
  · obtain ⟨hlt, hne⟩ := (hsenders sp).mp hsp
    exact transfer_does h hrange htg hdata hdata1 hdata2 hL₀ done hlt hne
  · exact ⟨done, fun sp => (hdone sp).trans (hsenders sp), hL⟩
  · rintro L rfl x
    exact .start _

omit hdata2 in
/-- The processes that are their own targets. -/
theorem fillOwn_does : Triple j.platform
    (fun L => ∃ done, (∀ sp, sp ∈ done ↔ sp < j.noPe ∧ j.tp tg sp ≠ sp) ∧
      ∀ x, Progress j M data2 tg done x (L₀ x) (L x))
    (Part.all ((List.range j.noPe).filter fun x => j.tp tg x = x) fun x =>
      [.compute (j.fillOwn data1 data2 x (j.np tg x x))] : Acts α)
    (fun L => ∀ x < j.noPe, Remapped j M data2 tg x (L₀ x) (L x)) := by
  refine (Triple.compute (List.nodup_range.filter _) _).conseq ?_ fun L hL => hL
  rintro L ⟨done, hdone, hL⟩ x hx
  simp only [List.mem_filter, List.mem_range, decide_eq_true_eq, hx, true_and]
  split_ifs with hself
  · have hpart : j.IsPart .matrix1 x M ((L x).buffer data1) := by
      rw [(hL x).keeps.buffer data1 (by simp [hdata, hdata1])]
      exact hL₀ x hx
    have hstep : Progress j M data2 tg (done ++ [x]) (j.tp tg x) (L₀ x)
        ((L x).put (j.fillOwn data1 data2 x (j.np tg x x) (L x).toArrays)) := by
      refine Progress.fill h hrange htg hx (s := L x) (hself.symm ▸ hL x) hpart ?_ ?_
      · exact (Memory.keeps_set _ _ _).mono (by simp)
      · simp [fillOwn, hself]
    rw [hself] at hstep
    refine hstep.remapped h hx fun sp hsp htp => List.mem_append.mpr ?_
    by_cases hspx : sp = x
    · exact .inr (List.mem_singleton.mpr hspx)
    · exact .inl ((hdone sp).mpr ⟨hsp, fun heq => hspx (heq.symm.trans htp)⟩)
  · refine (hL x).remapped h hx fun sp hsp htp => (hdone sp).mpr ⟨hsp, fun heq => hself ?_⟩
    rw [← htp, heq, heq]

end Program

/-- The first two loops, each with its own condition. -/
theorem gather_receiveData {p : Nat → Prop} [DecidablePred p] (hp : ∀ sp, p sp → sp ≠ x) :
    j.gather tg x (fun pe np => if p pe then j.receiveData data2 x pe np else []) =
      (((List.range j.noPe).filter fun sp => j.tp tg sp = x ∧ p sp).flatMap fun sp =>
        j.transfer data1 data2 tg sp x : List (Act α)) := by
  rw [gather_eq]
  refine flatMap_eq_filter (fun sp _ hsp => ?_) fun sp _ hsp => ?_
  · obtain ⟨htp, hp'⟩ := of_decide_eq_true hsp
    rw [if_pos htp, if_pos hp', transfer, if_neg (Ne.symm (hp sp hp')), if_pos htp.symm]
  · split_ifs with htp hp'
    · exact absurd ⟨htp, hp'⟩ (of_decide_eq_false hsp)
    · rfl
    · rfl

/-- The third loop. -/
theorem gather_fillOwn (hx : x < j.noPe) :
    j.gather tg x (fun pe np =>
      if pe = x then [.compute (j.fillOwn data1 data2 x np)] else []) =
      (if j.tp tg x = x then [.compute (j.fillOwn data1 data2 x (j.np tg x x))] else [] :
        List (Act α)) := by
  have hself : (List.range j.noPe).filter (fun pe => pe = x) = [x] :=
    (List.pairwise_lt_range.filter _).eq_of_mem_iff (List.pairwise_singleton _ _) fun pe => by
      simp only [List.mem_filter, List.mem_range, decide_eq_true_eq, List.mem_singleton]
      exact ⟨fun hpe => hpe.2, fun hpe => ⟨hpe ▸ hx, hpe⟩⟩
  rw [gather_eq, flatMap_eq_filter (fun pe _ _ => rfl) (p := fun pe => pe = x) ?_, hself,
    List.flatMap_singleton, if_pos rfl]
  intro pe _ hpe
  rw [if_neg (of_decide_eq_false hpe), ite_self]

/-- The program of a process, in the order of the messages. -/
theorem exchangeParts_eq (h : j.Valid) (hx : x < j.noPe) :
    j.exchangeParts data1 data2 tg x = (((j.own tg x).flatMap fun sp =>
      j.transfer data1 data2 tg sp x) ++ (if j.tp tg x = x then
        [.compute (j.fillOwn data1 data2 x (j.np tg x x))] else []) : List (Act α)) := by
  have hsend : (if j.tp tg x ≠ x then j.sendData data1 tg x else []) =
      ((if j.tp tg x ≠ x then [x] else []).flatMap fun sp => j.transfer data1 data2 tg sp x :
        List (Act α)) := by
    split_ifs with hne
    · simp [transfer]
    · rfl
  rw [exchangeParts, own, if_pos hx, List.flatMap_append, List.flatMap_append, hsend]
  by_cases hgang : j.gangId x = tg
  · rw [if_pos hgang, gather_receiveData fun sp hsp => hsp.2, gather_receiveData ?_,
      gather_fillOwn hx]
    · simp only [List.append_assoc]
      rfl
    · rintro sp hsp rfl
      exact hsp hgang
  · -- no process has its target outside the gang
    have hnone : ∀ sp, j.tp tg sp ≠ x := by
      rintro sp rfl
      exact hgang (h.gangId_tp tg sp)
    simp [hgang, hnone]

section Whole

variable (h : j.Valid) (hrange : j.NoOverflow) (htg : tg < j.noGang) (hdata : data1 ≠ data2)
  (hdata1 : data1 ≠ .recvData1) (hdata2 : data2 ≠ .recvData1) {L₀ : Nat → Memory α}
  (hL₀ : ∀ x < j.noPe, j.IsPart .matrix1 x M ((L₀ x).buffer data1))

include h hL₀

/-- The remap by the library, if it copies the matrix. -/
theorem pdgemr2d_does {R : Library j α} (hlib : ∀ A, R.pdgemr2d A = A) :
    j.Does (fun L => L = L₀)
      (j.routine .matrix1 R (fun _ => True) (j.pdgemr2d data1 data2 tg R))
      (fun L => ∀ x < j.noPe, Remapped j M data2 tg x (L₀ x) (L x)) := by
  refine Does.routine h (fun _ _ _ hp => hp) ?_
  rintro L rfl x hx
  have hM : j.toMatrix (j.gathered .matrix1 L x data1) = j.toMatrix M := by
    ext r c
    exact h.gathered_eq hx r c (fun q hq _ => hL₀ q hq) r.isLt c.isLt
  simp only [hx, and_self, if_true, pdgemr2d, hlib, hM]
  split_ifs with hgang
  · refine ⟨(keeps_storeMatrix _ _ _ _).mono (by simp), fun _ n hn => ?_,
      fun hne => absurd hgang hne⟩
    rw [← h.part_entries R hx M hn]
    exact isPart_storeMatrix _ _ _ _ n hn
  · exact ⟨.refl _ _, fun heq => absurd heq hgang, fun _ => rfl⟩

include hrange htg hdata hdata1 hdata2

theorem exchangeParts_does : j.Does (fun L => L = L₀) (j.exchangeParts data1 data2 tg)
    (fun L => ∀ x < j.noPe, Remapped j M data2 tg x (L₀ x) (L x)) := by
  refine ((transfers_does h hrange htg hdata hdata1 hdata2 hL₀).seq
    (fillOwn_does h hrange htg hdata hdata1 hL₀)).of_eq fun x => ?_
  simp only [Part.all, List.mem_range, List.mem_filter, decide_eq_true_eq]
  by_cases hx : x < j.noPe
  · simp [hx, exchangeParts_eq h hx]
  · simp [hx, own]

/-- **The remap.** -/
theorem remap_does {R : Library j α} {mode : RemapMode}
    (hlib : mode = .scalapack → ∀ A, R.pdgemr2d A = A) :
    j.Does (fun L => L = L₀) (j.remap data1 data2 tg R mode)
      (fun L => ∀ x < j.noPe, Remapped j M data2 tg x (L₀ x) (L x)) := by
  refine (Does.barrier .matrix1).seq (Does.seq ?_ (Does.barrier .matrix1))
  cases mode with
  | scalapack => exact pdgemr2d_does h hL₀ (hlib rfl)
  | custom => exact exchangeParts_does h hrange htg hdata hdata1 hdata2 hL₀

end Whole

end Job

/-- **The remap brings a matrix to a gang**, in every order of the steps. -/
theorem remap_ends {j : Job} (hpos : j.Positive) (hacc : j.Accepted .c) (hrange : j.NoOverflow)
    {data1 data2 : Var} (hdata : data1 ≠ data2) (hdata1 : data1 ≠ .recvData1)
    (hdata2 : data2 ≠ .recvData1) {tg : Nat} (htg : tg < j.noGang) (R : Library j α)
    {mode : RemapMode} (hlib : mode = .scalapack → ∀ A, R.pdgemr2d A = A) {M : Nat → Nat → α}
    {L : Nat → Memory α} (hL : ∀ pe < j.noPe, j.IsPart .matrix1 pe M ((L pe).buffer data1)) :
    j.Ends (j.remap data1 data2 tg R mode) L fun L' =>
      ∀ pe < j.noPe, j.Remapped M data2 tg pe (L pe) (L' pe) :=
  (Job.remap_does (hacc.valid hpos) hrange htg hdata hdata1 hdata2 hL hlib).ends rfl

/-- Four processes that are gangs of their own: process 2 gets the whole matrix. -/
theorem remap_ends_nine :
    let j := nineJob 4 4 24
    let R := Library.constant j 0
    let M : Nat → Nat → Nat := fun r c => 3 * r + c
    let L : Nat → Memory Nat := fun pe =>
      ⟨⟨fun _ => j.part .matrix1 pe M, ⟨0, 0, 0⟩⟩, records 3 0, fun _ => none⟩
    j.Positive ∧ j.Accepted .c ∧ j.NoOverflow ∧ 2 < j.noGang ∧
      j.Ends (j.remap .gmbuffer .rbuffer 2 R .custom) L fun L' =>
        ∀ pe < j.noPe, j.Remapped M .rbuffer 2 pe (L pe) (L' pe) := by
  have hacc : (nineJob 4 4 24).Accepted .c := by decide +kernel
  have hrange : (nineJob 4 4 24).NoOverflow := by decide +kernel
  refine ⟨by decide, hacc, hrange, by decide, ?_⟩
  exact remap_ends (by decide) hacc hrange (by decide) (by decide) (by decide) (by decide) _
    (fun _ _ => rfl) fun pe _ n _ => rfl

end CacheTrace.Madbench
