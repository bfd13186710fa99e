import CacheTrace.Madbench.Matrices
import CacheTrace.Madbench.Remap
import CacheTrace.Madbench.Ring

/-!
# The matrices `W`

`calc_W` multiplies the inverse of `D` with the derivative of every bin. Each gang takes its turn
with the bins: `no_gang` of them are read by all processes together and remapped, one to every
gang, and the products are written by the gangs. The passes overlap: while the bins of one pass
are read, those of the pass before are multiplied.

The products go to the places in the files where the derivatives are. A rank of `matrix2` covers
`no_gang` ranks of `matrix1`, and it is written in the pass after these were read, so no
derivative is lost (`At`).

The products are computed only in a build with `-D COMPUTE`; with `-D IO` the call is replaced by
`busy_work`.
-/

namespace CacheTrace.Madbench

open Cyclic Buffer Message

variable {α : Type}

namespace Job

variable (j : Job) (R : Library j α) (build : Build)

/-- The array `invD2`, which is `invD1` when there is one gang. -/
def invD2 : Var := if 1 < j.noGang then .invD2 else .mspace

/-- The bin that was read last is copied. -/
def copyRead (g pe : Nat) : List (Act α) :=
  if 0 < g then [.compute fun s => s.set .gmbuffer
    (memcpy (s.buffer .gmbuffer) 0 (s.buffer .grbuffer) 0 (j.elm .matrix1 pe))] else []

def readBin (b g pe : Nat) : List (Act α) :=
  if g < j.noGang then j.ioDistmatrixNet .matrix1 .r .grbuffer (b + g) pe else []

def remapBin (g pe : Nat) : List (Act α) :=
  if 0 < g then
    if build.io then j.busyWork .matrix1 pe
    else j.remap .gmbuffer .rbuffer (g - 1) R build.remap pe
  else []

/-- A pass of the inner loop: read bin `b + g` and remap the bin before it. -/
def remapPass (b g pe : Nat) : List (Act α) :=
  j.copyRead g pe ++ (j.readBin b g pe ++ j.remapBin R build g pe)

/-- The bins from `b` on are read, one for every gang. -/
def readBins (b pe : Nat) : List (Act α) :=
  if j.noGang = 1 then j.ioDistmatrixNet .matrix1 .r .rbuffer b pe
  else (List.range (j.noGang + 1)).flatMap fun g => j.remapPass R build b g pe

def copyBin (b pe : Nat) : List (Act α) :=
  if 0 < b ∧ b ≤ j.noBin then [.compute fun s => s.set .dSdCb
    (memcpy (s.buffer .dSdCb) 0 (s.buffer .rbuffer) 0 (j.elm .matrix2 pe))] else []

def solve (b pe : Nat) : List (Act α) :=
  if build.compute = true ∧ 0 < b ∧ b ≤ j.noBin then
    if build.io then j.busyWork .matrix2 pe
    else j.routine .matrix2 R (fun _ => True) (j.pdgemm .matrix2 R j.invD2 .dSdCb .wb) pe
  else []

def writeW (b pe : Nat) : List (Act α) :=
  if 0 < b ∧ b ≤ j.noBin then
    [.compute fun s => s.set .wbuffer
      (memcpy (s.buffer .wbuffer) 0 (s.buffer .wb) 0 (j.elm .matrix2 pe))] ++
    j.ioDistmatrixNet .matrix2 .w .wbuffer ((b - j.noGang) / j.noGang) pe
  else []

/-- A pass of `calc_W`. -/
def calcWPass (b pe : Nat) : List (Act α) :=
  j.copyBin b pe ++ ((if b < j.noBin then j.readBins R build b pe else []) ++
    (j.solve R build b pe ++ j.writeW b pe))

/-- `calc_W` up to its loop. -/
def solveData (pe : Nat) : List (Act α) :=
  (if 1 < j.noGang then
    j.remap .mspace .invD2 0 R build.remap pe ++ j.mpiBcast .invD2 (j.elm .matrix2) pe
    else []) ++
  ([.compute fun s => s.set .d fun n =>
    if n < j.myNoRow .matrix2 pe then R.one else s.buffer .d n] ++
  j.routine .matrix2 R (fun _ => True) (j.pdsymv .matrix2 R j.invD2 .d .z) pe)

/-- `calc_W` -/
def calcW (pe : Nat) : List (Act α) :=
  (if build.io then [] else j.solveData R build pe) ++
  (((List.range ((j.noBin + j.noGang) / j.noGang + 1)).flatMap fun i =>
    j.calcWPass R build (i * j.noGang) pe) ++ j.reportTime pe)

/-- What is assumed about a build that computes, and about the library for it: when the matrices
are remapped by the library, it copies them. -/
structure Computes : Prop where
  io : build.io = false
  compute : build.compute = true
  pdgemr2d : build.remap = .scalapack → ∀ A, R.pdgemr2d A = A

variable {j} {R} {build}

/-! ## Reading the bins -/

/-- With one gang both kinds of parts are the same. -/
theorem isPart_of_one (hone : j.noGang = 1) {pe : Nat} (hpe : pe < j.noPe) {M : Nat → Nat → α}
    {d : Nat → α} (hd : j.IsPart .matrix1 pe M d) : j.IsPart .matrix2 pe M d := by
  have hgangPe : j.gangPe .matrix2 = j.gangPe .matrix1 := by simp [gangPe, hone]
  have hside : j.side .matrix2 = j.side .matrix1 := by rw [side, side, hgangPe]
  have hmyPe : j.gangMyPe pe .matrix2 = j.gangMyPe pe .matrix1 := by
    change pe % j.gangPe .matrix2 = pe
    rw [hgangPe]
    exact Nat.mod_eq_of_lt hpe
  intro n hn
  simp only [share, hside, hmyPe] at hn
  rw [hd n hn]
  simp only [part, globalRow, globalCol, myNoRow, peRow, peCol, hside, hmyPe]

/-- The arrays that reading the bins changes. -/
def readVars : List Var := [.rbuffer, .grbuffer, .gmbuffer, .recvData1]

/-- Process `pe` before pass `g` of the inner loop. -/
structure Reading (j : Job) (dS : Nat → Nat → Nat → α) (b g pe : Nat) (s₀ s : Memory α) : Prop where
  retains : j.Retains pe readVars s₀ s
  grbuffer : 0 < g → g ≤ j.noGang → j.IsPart .matrix1 pe (dS (b + g - 1)) (s.buffer .grbuffer)
  rbuffer : j.gangId pe + 1 < g →
    j.IsPart .matrix2 pe (dS (b + j.gangId pe)) (s.buffer .rbuffer)

/-- Process `pe` in pass `g`, when the last bin has been copied, and `bin` after the next one has
been read. -/
structure Copied (j : Job) (dS : Nat → Nat → Nat → α) (b g pe : Nat) (bin : Prop)
    (s₀ s : Memory α) : Prop where
  retains : j.Retains pe readVars s₀ s
  gmbuffer : 0 < g → j.IsPart .matrix1 pe (dS (b + g - 1)) (s.buffer .gmbuffer)
  grbuffer : bin → g < j.noGang → j.IsPart .matrix1 pe (dS (b + g)) (s.buffer .grbuffer)
  rbuffer : j.gangId pe + 1 < g →
    j.IsPart .matrix2 pe (dS (b + j.gangId pe)) (s.buffer .rbuffer)

section Reading

variable {dS : Nat → Nat → Nat → α} {b g : Nat} {L₀ : Nat → Memory α}

theorem copyRead_does (hrange : j.NoOverflow) (hg : g ≤ j.noGang) :
    j.Does (fun L => ∀ pe < j.noPe, Reading j dS b g pe (L₀ pe) (L pe)) (j.copyRead g)
      (fun L => ∀ pe < j.noPe, Copied j dS b g pe False (L₀ pe) (L pe)) := by
  refine Does.computeIf fun L hL pe hpe => ?_
  simp only [hpe, true_and]
  split_ifs with hpos
  · refine ⟨(hL pe hpe).retains.trans ((Retains.of_keeps (Memory.keeps_set _ _ _)).mono
      (by simp [readVars])), fun _ => ?_, False.elim, (hL pe hpe).rbuffer⟩
    rw [Memory.put_toArrays, Arrays.set_buffer_self, hrange.elm_eq]
    exact ((hL pe hpe).grbuffer hpos hg).copied _
  · exact ⟨(hL pe hpe).retains, fun hpos' => absurd hpos' hpos, False.elim, (hL pe hpe).rbuffer⟩

section Read

variable (h : j.Valid) (hdvd : j.ioMod .r ∣ j.gangPe .matrix1) (hwhole : j.Whole)
  (hrecords : ∀ pe < j.noPe, j.HasRecords pe (L₀ pe))
  (hfile : ∀ pe < j.noPe, ∀ g < j.noGang, j.Stored .matrix1 pe (b + g) (dS (b + g)) (L₀ pe).file)

include h hdvd hwhole hrecords hfile

theorem readBin_does :
    j.Does (fun L => ∀ pe < j.noPe, Copied j dS b g pe False (L₀ pe) (L pe)) (j.readBin b g)
      (fun L => ∀ pe < j.noPe, Copied j dS b g pe True (L₀ pe) (L pe)) := by
  refine Does.of_start fun L₁ hL₁ => ?_
  by_cases hlt : g < j.noGang
  · have hfile' : ∀ pe < j.noPe, j.Stored .matrix1 pe (b + g) (dS (b + g)) (L₁ pe).file := by
      intro pe hpe
      rw [(hL₁ pe hpe).retains.file]
      exact hfile pe hpe g hlt
    have hread := read_does h hdvd hwhole .grbuffer (b + g) (V := fun _ => dS (b + g))
      (fun pe hpe => (hL₁ pe hpe).retains.records (hrecords pe hpe)) hfile'
    refine (hread.conseq (fun L hL => hL) fun L₂ hL₂ pe hpe => ?_).of_eq fun pe _ => if_pos hlt
    obtain ⟨hretains, hpart⟩ := hL₂ pe hpe
    refine ⟨(hL₁ pe hpe).retains.trans (hretains.mono (by simp [readVars])), fun hpos => ?_,
      fun _ _ => hpart, fun hgang => ?_⟩
    · rw [hretains.buffer .gmbuffer (by decide)]
      exact (hL₁ pe hpe).gmbuffer hpos
    · rw [hretains.buffer .rbuffer (by decide)]
      exact (hL₁ pe hpe).rbuffer hgang
  · refine (Does.skip.conseq (fun L hL => hL) ?_).of_eq fun pe _ => if_neg hlt
    rintro _ rfl pe hpe
    exact { hL₁ pe hpe with grbuffer := fun _ hlt' => absurd hlt' hlt }

end Read

section Remap

variable (h : j.Valid) (hrange : j.NoOverflow) (hbuild : j.Computes R build)

include h hrange hbuild

theorem remapBin_does (hg : g ≤ j.noGang) :
    j.Does (fun L => ∀ pe < j.noPe, Copied j dS b g pe True (L₀ pe) (L pe)) (j.remapBin R build g)
      (fun L => ∀ pe < j.noPe, Reading j dS b (g + 1) pe (L₀ pe) (L pe)) := by
  refine Does.of_start fun L₂ hL₂ => ?_
  by_cases hpos : 0 < g
  · have hremap : j.Does (fun L => L = L₂) (j.remap .gmbuffer .rbuffer (g - 1) R build.remap)
        (fun L => ∀ pe < j.noPe,
          Remapped j (dS (b + g - 1)) .rbuffer (g - 1) pe (L₂ pe) (L pe)) :=
      remap_does h hrange (by omega) (by decide) (by decide) (by decide)
        (fun pe hpe => (hL₂ pe hpe).gmbuffer hpos) hbuild.pdgemr2d
    refine (hremap.conseq (fun L hL => hL) fun L₃ hL₃ pe hpe => ?_).of_eq fun pe _ => by
      rw [remapBin, if_pos hpos, if_neg (ne_true_of_eq_false hbuild.io)]
    have hremapped := hL₃ pe hpe
    refine ⟨(hL₂ pe hpe).retains.trans ((Retains.of_keeps hremapped.keeps).mono
      (by simp [readVars])), fun _ hlt => ?_, fun hlt => ?_⟩
    · rw [hremapped.keeps.buffer .grbuffer (by decide)]
      exact (hL₂ pe hpe).grbuffer trivial hlt
    · by_cases hgang : j.gangId pe = g - 1
      · rw [hgang, ← Nat.add_sub_assoc hpos]
        exact hremapped.part hgang
      · rw [hremapped.others hgang]
        exact (hL₂ pe hpe).rbuffer (by omega)
  · refine (Does.skip.conseq (fun L hL => hL) ?_).of_eq fun pe _ => if_neg hpos
    rintro _ rfl pe hpe
    refine ⟨(hL₂ pe hpe).retains, fun _ hlt => (hL₂ pe hpe).grbuffer trivial hlt, fun hlt => ?_⟩
    omega

variable (hdvd : j.ioMod .r ∣ j.gangPe .matrix1) (hwhole : j.Whole)
  (hrecords : ∀ pe < j.noPe, j.HasRecords pe (L₀ pe))
  (hfile : ∀ pe < j.noPe, ∀ g < j.noGang, j.Stored .matrix1 pe (b + g) (dS (b + g)) (L₀ pe).file)

include hdvd hwhole hrecords hfile

variable (dS) in
/-- **The bins of a pass**, one at every gang. -/
theorem readBins_does : j.Does (fun L => L = L₀) (j.readBins R build b)
    (fun L => ∀ pe < j.noPe, j.Retains pe readVars (L₀ pe) (L pe) ∧
      j.IsPart .matrix2 pe (dS (b + j.gangId pe)) ((L pe).buffer .rbuffer)) := by
  by_cases hone : j.noGang = 1
  · have hread := read_does h hdvd hwhole .rbuffer b (V := fun _ => dS b) hrecords
      fun pe hpe => hfile pe hpe 0 h.noGang
    refine (hread.conseq (fun L hL => hL) fun L hL pe hpe => ?_).of_eq fun pe _ => if_pos hone
    have hgang : j.gangId pe = 0 := by
      have hlt := h.gangId_lt hpe
      omega
    rw [hgang]
    exact ⟨(hL pe hpe).1.mono (by simp [readVars]), isPart_of_one hone hpe (hL pe hpe).2⟩
  · refine ((Does.rounds (fun g L => ∀ pe < j.noPe, Reading j dS b g pe (L₀ pe) (L pe))
      fun g hg => ?_).conseq ?_ fun L hL pe hpe => ?_).of_eq fun pe _ => if_neg hone
    · have hg := Nat.le_of_lt_succ hg
      exact (copyRead_does hrange hg).seq ((readBin_does h hdvd hwhole hrecords hfile).seq
        (remapBin_does h hrange hbuild hg))
    · rintro _ rfl pe hpe
      exact ⟨.refl _ _, fun hlt => absurd hlt (Nat.lt_irrefl 0),
        fun hlt => absurd hlt (Nat.not_lt_zero _)⟩
    · exact ⟨(hL pe hpe).retains, (hL pe hpe).rbuffer (Nat.succ_lt_succ (h.gangId_lt hpe))⟩

end Remap

end Reading

/-! ## The passes -/

section Passes

/-- The arrays that the passes change. -/
def solveVars : List Var := .dSdCb :: .wb :: .wbuffer :: readVars

/-- Process `pe` when the bins of `read` passes have been read and `written` ranks have been
written: the last bin that was read, the derivatives that are still to be read, and the products
that are in the file. -/
structure At (R : Library j α) (E : j.Square α) (dS : Nat → j.Square α) (read written pe : Nat)
    (s₀ s : Memory α) : Prop where
  buffer : ∀ v, v ∉ solveVars → s.buffer v = s₀.buffer v
  records : j.HasRecords pe s
  rbuffer : 0 < read → read ≤ j.noBin / j.noGang →
    j.IsPart .matrix2 pe (R.entries (dS ((read - 1) * j.noGang + j.gangId pe))) (s.buffer .rbuffer)
  todo : ∀ b, read * j.noGang ≤ b → b < j.noBin → j.Stored .matrix1 pe b (R.entries (dS b)) s.file
  done : ∀ c < written, c < j.noBin / j.noGang →
    j.Stored .matrix2 pe c (R.entries (R.pdgemm E (dS (c * j.noGang + j.gangId pe)))) s.file

/-- Process `pe` in pass `i`, when the array `v` holds its part of the matrix that belongs to the
bin of the gang. -/
structure Doing (R : Library j α) (E : j.Square α) (dS : Nat → j.Square α) (i read : Nat) (v : Var)
    (A : Nat → j.Square α) (pe : Nat) (s₀ s : Memory α) : Prop where
  state : At R E dS read (i - 1) pe s₀ s
  holds : 0 < i ∧ i ≤ j.noBin / j.noGang →
    j.IsPart .matrix2 pe (R.entries (A ((i - 1) * j.noGang + j.gangId pe))) (s.buffer v)

variable {E : j.Square α} {dS : Nat → j.Square α} {i written read pe : Nat} {s₀ s s' : Memory α}

/-- A pass that has only changed arrays. -/
theorem At.of_retains (hs : At R E dS read written pe s₀ s) {vs : List Var}
    (hretains : j.Retains pe vs s s') (hvs : vs ⊆ solveVars) (hrbuffer : .rbuffer ∉ vs) :
    At R E dS read written pe s₀ s' := by
  refine ⟨fun v hv => ?_, hretains.records hs.records, ?_, ?_, ?_⟩
  · rw [hretains.buffer v fun hmem => hv (hvs hmem), hs.buffer v hv]
  · rw [hretains.buffer _ hrbuffer]
    exact hs.rbuffer
  · rw [hretains.file]
    exact hs.todo
  · rw [hretains.file]
    exact hs.done

theorem At.set (hs : At R E dS read written pe s₀ s) {v : Var} (hv : [v] ⊆ solveVars)
    (hrbuffer : .rbuffer ∉ [v]) (d : Nat → α) :
    At R E dS read written pe s₀ (s.put (s.toArrays.set v d)) :=
  hs.of_retains (.of_keeps (Memory.keeps_set s v d)) hv hrbuffer

/-- The bins of the next pass have been read. -/
theorem At.read_next (hs : At R E dS read written pe s₀ s) (hretains : j.Retains pe readVars s s')
    (hrbuffer : j.IsPart .matrix2 pe (R.entries (dS (read * j.noGang + j.gangId pe)))
      (s'.buffer .rbuffer)) : At R E dS (read + 1) written pe s₀ s' := by
  refine ⟨fun v hv => ?_, hretains.records hs.records, fun _ _ => ?_, fun b hb => ?_, ?_⟩
  · rw [hretains.buffer v fun hmem =>
        hv (List.subset_append_right [Var.dSdCb, .wb, .wbuffer] _ hmem), hs.buffer v hv]
  · rw [Nat.add_sub_cancel]
    exact hrbuffer
  · rw [hretains.file]
    rw [Nat.succ_mul] at hb
    exact hs.todo b (by omega)
  · rw [hretains.file]
    exact hs.done

/-- There are no more bins. -/
theorem At.read_end (hs : At R E dS read written pe s₀ s) (hend : ¬ read < j.noBin / j.noGang) :
    At R E dS (read + 1) written pe s₀ s := by
  refine ⟨hs.buffer, hs.records, fun _ hle => absurd hle hend, fun b hb => ?_, hs.done⟩
  rw [Nat.succ_mul] at hb
  exact hs.todo b (by omega)

/-- The rank of the pass before the last read has been written. -/
theorem At.write_next (h : j.Valid) (hs : At R E dS read written pe s₀ s) (hread : written < read)
    {data : Var} (hdata : j.IsPart .matrix2 pe
      (R.entries (R.pdgemm E (dS (written * j.noGang + j.gangId pe)))) (s.buffer data)) :
    At R E dS read (written + 1) pe s₀ (j.written pe .matrix2 data written s) := by
  refine ⟨hs.buffer, hs.records, hs.rbuffer, fun b hb hlt n hn => ?_, fun c hc hlt => ?_⟩
  · -- the derivatives that are still needed are behind the rank
    have hafter : j.slot .matrix2 (written + 1) ≤ j.slot .matrix1 b :=
      calc (written + 1) * j.distance .matrix2 ≤ read * j.distance .matrix2 :=
            Nat.mul_le_mul_right _ hread
        _ = read * j.noGang * j.distance .matrix1 := by rw [distance_matrix2, Nat.mul_assoc]
        _ ≤ b * j.distance .matrix1 := Nat.mul_le_mul_right _ hb
    rw [written_of_ne h (.inr hafter) hn]
    exact hs.todo b hb hlt n hn
  · rcases Nat.lt_succ_iff_lt_or_eq.mp hc with hbefore | rfl
    · exact (hs.done c hbefore hlt).write_ne h (Nat.ne_of_lt hbefore) data
    · exact hdata.stored c

/-- There is nothing to write. -/
theorem At.write_end (hs : At R E dS read (i - 1) pe s₀ s)
    (hend : ¬ (0 < i ∧ i ≤ j.noBin / j.noGang)) : At R E dS read i pe s₀ s :=
  ⟨hs.buffer, hs.records, hs.rbuffer, hs.todo, fun c hc hlt => hs.done c (by omega) hlt⟩

theorem invD2_not_mem (j : Job) : j.invD2 ∉ .d :: .z :: solveVars := by
  unfold invD2
  split_ifs
  · decide
  · decide

section Steps

variable (h : j.Valid) (hrange : j.NoOverflow) {L₀ : Nat → Memory α}

include h

theorem Valid.pass_iff : (0 < i * j.noGang ∧ i * j.noGang ≤ j.noBin) ↔
    0 < i ∧ i ≤ j.noBin / j.noGang := by
  rw [Nat.le_div_iff_mul_le h.noGang]
  simp [h.noGang]

theorem Valid.pass_lt_iff : i * j.noGang < j.noBin ↔ i < j.noBin / j.noGang := by
  conv_lhs => rw [← Nat.div_mul_cancel h.gang_dvd_bin]
  exact Nat.mul_lt_mul_right h.noGang

include hrange

theorem copyBin_does (i : Nat) :
    j.Does (fun L => ∀ pe < j.noPe, At R E dS i (i - 1) pe (L₀ pe) (L pe))
      (j.copyBin (i * j.noGang))
      (fun L => ∀ pe < j.noPe, Doing R E dS i i .dSdCb dS pe (L₀ pe) (L pe)) := by
  refine Does.computeIf fun L hL pe hpe => ?_
  simp only [hpe, true_and, h.pass_iff]
  split_ifs with hp
  · refine ⟨(hL pe hpe).set (by simp [solveVars]) (by decide) _, fun _ => ?_⟩
    rw [Memory.put_toArrays, Arrays.set_buffer_self, hrange.elm_eq]
    exact ((hL pe hpe).rbuffer hp.1 hp.2).copied _
  · exact ⟨hL pe hpe, fun hp' => absurd hp' hp⟩

variable (hbuild : j.Computes R build)

include hbuild

theorem readPass_does (hr : j.ioMod .r ∣ j.gangPe .matrix1) (hwhole : j.Whole) (i : Nat) :
    j.Does (fun L => ∀ pe < j.noPe, Doing R E dS i i .dSdCb dS pe (L₀ pe) (L pe))
      (fun pe => if i * j.noGang < j.noBin then j.readBins R build (i * j.noGang) pe else [])
      (fun L => ∀ pe < j.noPe, Doing R E dS i (i + 1) .dSdCb dS pe (L₀ pe) (L pe)) := by
  refine Does.of_start fun L hL => ?_
  by_cases hlt : i * j.noGang < j.noBin
  · have hbins : (i + 1) * j.noGang ≤ j.noBin :=
      (Nat.le_div_iff_mul_le h.noGang).mp (h.pass_lt_iff.mp hlt)
    rw [Nat.succ_mul] at hbins
    have hbin : ∀ pe < j.noPe, ∀ g < j.noGang, j.Stored .matrix1 pe (i * j.noGang + g)
        (R.entries (dS (i * j.noGang + g))) (L pe).file :=
      fun pe hpe g hg => (hL pe hpe).state.todo _ (Nat.le_add_right _ _) (by omega)
    have hread := readBins_does (fun b => R.entries (dS b)) h hrange hbuild hr hwhole
      (fun pe hpe => (hL pe hpe).state.records) hbin
    refine (hread.conseq (fun L hL => hL) fun L' hL' pe hpe => ?_).of_eq fun pe _ => if_pos hlt
    refine ⟨(hL pe hpe).state.read_next (hL' pe hpe).1 (hL' pe hpe).2, ?_⟩
    rw [(hL' pe hpe).1.buffer .dSdCb (by decide)]
    exact (hL pe hpe).holds
  · refine (Does.skip.conseq (fun L hL => hL) ?_).of_eq fun pe _ => if_neg hlt
    rintro _ rfl pe hpe
    exact ⟨(hL pe hpe).state.read_end fun hi => hlt (h.pass_lt_iff.mpr hi), (hL pe hpe).holds⟩

omit hrange in
theorem solve_does (hE : ∀ pe < j.noPe, j.IsPart .matrix2 pe (R.entries E)
    ((L₀ pe).buffer j.invD2)) (i : Nat) :
    j.Does (fun L => ∀ pe < j.noPe, Doing R E dS i (i + 1) .dSdCb dS pe (L₀ pe) (L pe))
      (j.solve R build (i * j.noGang))
      (fun L => ∀ pe < j.noPe,
        Doing R E dS i (i + 1) .wb (fun b => R.pdgemm E (dS b)) pe (L₀ pe) (L pe)) := by
  by_cases hp : 0 < i ∧ i ≤ j.noBin / j.noGang
  · refine Does.of_eq (Does.routine (k := .matrix2) h (p := fun _ => True) (fun _ _ _ hp => hp)
      fun L hL pe hpe => ?_) fun pe _ => by
        rw [solve, if_pos ⟨hbuild.compute, h.pass_iff.mpr hp⟩,
          if_neg (ne_true_of_eq_false hbuild.io)]
    have hinv : j.toMatrix (j.gathered .matrix2 L pe j.invD2) = E :=
      h.toMatrix_gathered hpe fun q hq _ => by
        rw [(hL q hq).state.buffer _ fun hmem => j.invD2_not_mem (.tail _ (.tail _ hmem))]
        exact hE q hq
    have hdS : j.toMatrix (j.gathered .matrix2 L pe .dSdCb) =
        dS ((i - 1) * j.noGang + j.gangId pe) :=
      h.toMatrix_gathered hpe fun q hq hcomm => by
        rw [← Comm.gang.inj hcomm]
        exact (hL q hq).holds hp
    simp only [hpe, and_self, if_true, pdgemm, hinv, hdS]
    exact ⟨(hL pe hpe).state.set (by simp [solveVars]) (by decide) _,
      fun _ => isPart_storeMatrix _ _ _ _⟩
  · refine (Does.skip.conseq (fun L hL => hL) fun L hL pe hpe => ?_).of_eq fun pe _ =>
      if_neg fun hp' => hp (h.pass_iff.mp hp'.2)
    exact ⟨(hL pe hpe).state, fun hp' => absurd hp' hp⟩

omit hbuild in
theorem writeW_does (hw : j.ioMod .w ∣ j.gangPe .matrix2) (i : Nat) :
    j.Does (fun L => ∀ pe < j.noPe,
        Doing R E dS i (i + 1) .wb (fun b => R.pdgemm E (dS b)) pe (L₀ pe) (L pe))
      (j.writeW (i * j.noGang))
      (fun L => ∀ pe < j.noPe, At R E dS (i + 1) i pe (L₀ pe) (L pe)) := by
  by_cases hp : 0 < i * j.noGang ∧ i * j.noGang ≤ j.noBin
  · have hi := h.pass_iff.mp hp
    have hrank : (i * j.noGang - j.noGang) / j.noGang = i - 1 := by
      rw [← Nat.sub_one_mul, Nat.mul_div_cancel _ h.noGang]
    refine (Does.seq (J := fun L' => ∀ pe < j.noPe,
        Doing R E dS i (i + 1) .wbuffer (fun b => R.pdgemm E (dS b)) pe (L₀ pe) (L' pe))
      (Does.compute ?_) (Does.of_start fun L₁ hL₁ => (write_does h hw .wbuffer _).conseq
        (fun L hL => hL) fun L₂ hL₂ pe hpe => ?_)).of_eq fun pe _ => if_pos hp
    · intro L hL pe hpe
      simp only [if_pos hpe]
      refine ⟨(hL pe hpe).state.set (by simp [solveVars]) (by decide) _, fun _ => ?_⟩
      rw [Memory.put_toArrays, Arrays.set_buffer_self, hrange.elm_eq]
      exact ((hL pe hpe).holds hi).copied _
    · have hafter := (hL₁ pe hpe).state.write_next h (by omega) ((hL₁ pe hpe).holds hi)
      rw [Nat.sub_add_cancel hi.1] at hafter
      rw [hL₂ pe hpe, hrank]
      exact hafter
  · refine (Does.skip.conseq (fun L hL => hL) fun L hL pe hpe => ?_).of_eq fun pe _ => if_neg hp
    exact (hL pe hpe).state.write_end fun hi => hp (h.pass_iff.mpr hi)

/-- **One pass.** -/
theorem calcWPass_does (hr : j.ioMod .r ∣ j.gangPe .matrix1) (hw : j.ioMod .w ∣ j.gangPe .matrix2)
    (hwhole : j.Whole)
    (hE : ∀ pe < j.noPe, j.IsPart .matrix2 pe (R.entries E) ((L₀ pe).buffer j.invD2)) (i : Nat) :
    j.Does (fun L => ∀ pe < j.noPe, At R E dS i (i - 1) pe (L₀ pe) (L pe))
      (j.calcWPass R build (i * j.noGang))
      (fun L => ∀ pe < j.noPe, At R E dS (i + 1) i pe (L₀ pe) (L pe)) :=
  (copyBin_does h hrange i).seq ((readPass_does h hrange hbuild hr hwhole i).seq
    ((solve_does h hbuild hE i).seq (writeW_does h hrange hw i)))

end Steps

end Passes

/-! ## The whole function -/

section Whole

variable (h : j.Valid) (hrange : j.NoOverflow) (hbuild : j.Computes R build)
  {L₀ : Nat → Memory α} {E : j.Square α}
  (hE : ∀ pe < j.noPe, j.IsPart .matrix1 pe (R.entries E) ((L₀ pe).buffer .mspace))

include h hrange hbuild hE

/-- Every gang gets the inverse. -/
theorem invD2_does : j.Does (fun L => L = L₀) (fun pe => if 1 < j.noGang then
      j.remap .mspace .invD2 0 R build.remap pe ++ j.mpiBcast .invD2 (j.elm .matrix2) pe else [])
    (fun L => ∀ pe < j.noPe, Memory.Keeps [.invD2, .recvData1] (L₀ pe) (L pe) ∧
      j.IsPart .matrix2 pe (R.entries E) ((L pe).buffer j.invD2)) := by
  by_cases hmany : 1 < j.noGang
  · have hvar : j.invD2 = .invD2 := if_pos hmany
    have hfirst : ∀ pe, j.inGang 0 pe = j.gangMyPe pe .matrix2 := fun pe => by
      rw [inGang, Nat.zero_mul, Nat.zero_add]
    refine (Does.seq (remap_does h hrange h.noGang (by decide) (by decide) (by decide) hE
      hbuild.pdgemr2d) (Does.mpiBcast h (fun pe _ => ?_) fun L hL pe hpe => ?_)).of_eq
        fun pe _ => if_pos hmany
    · rw [← hfirst]
      exact h.elm_inGang 0 pe
    · simp only [if_pos hpe, hvar]
      refine ⟨(hL pe hpe).keeps.trans ((Memory.keeps_set _ _ _).mono (by simp)), fun n hn => ?_⟩
      have hsource := (hL _ (h.inGang_lt h.noGang pe)).part (h.gangId_inGang 0 pe) n
        (h.share_inGang 0 pe ▸ hn)
      rw [h.part_inGang, hfirst] at hsource
      rw [Memory.put_toArrays, Arrays.set_buffer_self, hrange.elm_eq, load_contents _ _ hn, hsource]
  · have hone : j.noGang = 1 := Nat.le_antisymm (Nat.le_of_not_lt hmany) h.noGang
    have hvar : j.invD2 = .mspace := if_neg hmany
    refine (Does.skip.conseq (fun L hL => hL) ?_).of_eq fun pe _ => if_neg hmany
    rintro _ rfl pe hpe
    rw [hvar]
    exact ⟨.refl _ _, isPart_of_one hone hpe (hE pe hpe)⟩

omit h hrange hbuild hE

/-- The data, a vector of ones. -/
def ones (R : Library j α) : j.Vec α := fun _ => R.one

/-- After `calc_W`. -/
structure Solved (R : Library j α) (E : j.Square α) (dS : Nat → j.Square α) (pe : Nat)
    (s₀ s : Memory α) : Prop where
  buffer : ∀ v, v ∉ .d :: .z :: .invD2 :: solveVars → s.buffer v = s₀.buffer v
  records : j.HasRecords pe s
  d : j.IsVector .matrix2 pe (R.coords (ones R)) (s.buffer .d)
  z : j.IsVector .matrix2 pe (R.coords (R.pdsymv E (ones R))) (s.buffer .z)
  file : ∀ c < j.noBin / j.noGang,
    j.Stored .matrix2 pe c (R.entries (R.pdgemm E (dS (c * j.noGang + j.gangId pe)))) s.file

/-- The inverse and the vectors before the passes. -/
structure Prepared (R : Library j α) (E : j.Square α) (pe : Nat) (s₀ s : Memory α) : Prop where
  keeps : Memory.Keeps [.z, .d, .invD2, .recvData1] s₀ s
  invD2 : j.IsPart .matrix2 pe (R.entries E) (s.buffer j.invD2)
  d : j.IsVector .matrix2 pe (R.coords (ones R)) (s.buffer .d)
  z : j.IsVector .matrix2 pe (R.coords (R.pdsymv E (ones R))) (s.buffer .z)

include h hrange hbuild hE

theorem solveData_does : j.Does (fun L => L = L₀) (j.solveData R build)
    (fun L => ∀ pe < j.noPe, Prepared R E pe (L₀ pe) (L pe)) := by
  have hd : j.invD2 ≠ .d := fun heq => j.invD2_not_mem (heq ▸ .head _)
  have hz : j.invD2 ≠ .z := fun heq => j.invD2_not_mem (heq ▸ .tail _ (.head _))
  refine Does.seq (invD2_does h hrange hbuild hE) (Does.seq (J := fun L => ∀ pe < j.noPe,
      Memory.Keeps [.d, .invD2, .recvData1] (L₀ pe) (L pe) ∧
      j.IsPart .matrix2 pe (R.entries E) ((L pe).buffer j.invD2) ∧
      j.IsVector .matrix2 pe (R.coords (ones R)) ((L pe).buffer .d))
    (Does.compute ?_) (Does.routine h (fun _ _ _ hp => hp) ?_))
  · intro L hL pe hpe
    simp only [if_pos hpe]
    refine ⟨(hL pe hpe).1.set _ _, ?_, fun _ n hn => ?_⟩
    · rw [Memory.put_toArrays, Arrays.set_buffer_of_ne _ hd]
      exact (hL pe hpe).2
    · rw [Memory.put_toArrays, Arrays.set_buffer_self, if_pos hn,
        coords_apply R _ (h.lt_myNoRow_iff.mp hn), ones]
  · intro L hL pe hpe
    have hinv := h.toMatrix_gathered hpe fun q hq _ => (hL q hq).2.1
    have hones := h.vector_gathered hpe fun q hq _ => (hL q hq).2.2
    simp only [hpe, and_self, if_true, pdsymv, hinv, hones]
    have hkeeps := keeps_storeVec (k := .matrix2) (R := R) (R.pdsymv E (ones R)) .z pe (L pe)
    refine ⟨((hL pe hpe).1.cons .z).trans (hkeeps.mono (by simp)), ?_, ?_,
      isVector_storeVec _ _ _ _⟩
    · rw [hkeeps.buffer _ (by simpa using hz)]
      exact (hL pe hpe).2.1
    · rw [hkeeps.buffer .d (by decide)]
      exact (hL pe hpe).2.2

/-- **The matrices `W`.** -/
theorem calcW_does (hr : j.ioMod .r ∣ j.gangPe .matrix1) (hw : j.ioMod .w ∣ j.gangPe .matrix2)
    (hwhole : j.Whole) (dS : Nat → j.Square α) (hrecords : ∀ pe < j.noPe, j.HasRecords pe (L₀ pe))
    (hfile : ∀ pe < j.noPe, ∀ b < j.noBin,
      j.Stored .matrix1 pe b (R.entries (dS b)) (L₀ pe).file) :
    j.Does (fun L => L = L₀) (j.calcW R build)
      (fun L => ∀ pe < j.noPe, Solved R E dS pe (L₀ pe) (L pe)) := by
  have hrounds : (j.noBin + j.noGang) / j.noGang + 1 = j.noBin / j.noGang + 2 := by
    rw [Nat.add_div_right _ h.noGang]
  refine Does.seq ((solveData_does h hrange hbuild hE).of_eq fun pe _ =>
    if_neg (ne_true_of_eq_false hbuild.io)) (Does.of_start fun L₁ hL₁ => ?_)
  rw [hrounds]
  refine ((Does.rounds (fun i L => ∀ pe < j.noPe, At R E dS i (i - 1) pe (L₁ pe) (L pe))
    fun i _ => calcWPass_does h hrange hbuild hr hw hwhole (fun pe hpe => (hL₁ pe hpe).invD2)
      i).seq Does.reportTime).conseq ?_ ?_
  · rintro _ rfl pe hpe
    have hkeeps := (hL₁ pe hpe).keeps
    refine ⟨fun _ _ => rfl, (hrecords pe hpe).of_eq hkeeps.globals,
      fun hlt => absurd hlt (Nat.lt_irrefl 0), fun b _ hb => ?_,
      fun c hc => absurd hc (Nat.not_lt_zero c)⟩
    rw [hkeeps.file]
    exact hfile pe hpe b hb
  · intro L hL pe hpe
    obtain ⟨hkeeps, -, hvector, hvector'⟩ := hL₁ pe hpe
    have hend := hL pe hpe
    refine ⟨fun v hv => ?_, hend.records, ?_, ?_, fun c hc => ?_⟩
    · have hsub : [Var.z, .d, .invD2, .recvData1] ⊆ .d :: .z :: .invD2 :: solveVars := by
        simp [solveVars, readVars]
      rw [hend.buffer v fun hmem => hv (.tail _ (.tail _ (.tail _ hmem))),
        hkeeps.buffer v fun hmem => hv (hsub hmem)]
    · rw [hend.buffer .d (by decide)]
      exact hvector
    · rw [hend.buffer .z (by decide)]
      exact hvector'
    · exact hend.done c (by omega) hc

end Whole

end Job

end CacheTrace.Madbench
