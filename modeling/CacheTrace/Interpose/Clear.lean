import CacheTrace.Interpose.Reaccess

/-!
# The label `1` and the bytes that are read again

The label `1` of a line says that the data of the access need not stay in the cache: nobody
accesses it again in the windows ahead. The labeller decides that by the logged offsets, and
the logged offset is the position *after* the call, so it is the end of the range that was
read. Two reads of one range that end at different positions do not look alike.

`clear_sound_iff` is about one process that opens every file at most once, closes none, seeks
and reads. It takes any set `S` of read calls and all runs whose logged reads are in `S`: the
label `1` is sound in all these runs if and only if reads of `S` that share a byte of a file
end at the same position.
-/

namespace CacheTrace.Interpose

open Log Label Transition Text

variable {F : Type}

/-! ## Runs of one reader -/

/-- The calls of process `p` that the runs below are made of. -/
def ReaderEvent (p : Nat) : Event F → Prop
  | .openFile q _ => q = p
  | .lseek q _ _ => q = p
  | .read q _ _ _ => q = p
  | _ => False

def openedFile : Event F → Option F
  | .openFile _ (.file f) => some f
  | _ => none

/-- Process `p` opens every regular file at most once, closes none, seeks and reads. -/
structure SingleReader (p : Nat) (es : List (Event F)) : Prop where
  events : ∀ e ∈ es, ReaderEvent p e
  opened : (es.filterMap openedFile).Nodup

/-- A call of `read` with the file position at `pos` that asks for `size` bytes and transfers
`count`. -/
structure ReadCall where
  pos : Nat
  size : Nat
  count : Nat
  deriving DecidableEq

/-- The call is possible on a file of `len` bytes, and it is logged. -/
structure ReadCall.Possible (c : ReadCall) (len : Nat) : Prop where
  size_pos : 0 < c.size
  size_lt : c.size < 2 ^ 64
  count_le : c.count ≤ c.size
  stop_lt : c.pos + c.count < 2 ^ 63
  fits : c.count ≤ len - c.pos

/-- The position after the call. -/
def ReadCall.stop (c : ReadCall) : Nat := c.pos + c.count

/-- Both calls transfer some byte. -/
def ReadCall.Meets (c c' : ReadCall) : Prop :=
  ∃ x, (c.pos ≤ x ∧ x < c.stop) ∧ (c'.pos ≤ x ∧ x < c'.stop)

/-- The read call of a logged access. -/
def Access.call (a : Access F) : ReadCall := ⟨a.start, a.record.bytes, a.count⟩

/-- The accesses transfer a common byte of one file. -/
def SharesByte (a b : Access F) : Prop := a.file = b.file ∧ a.call.Meets b.call

/-- The label `1` is sound: an access of window `i` whose line gets it shares no byte with the
accesses in the lookahead of the window. -/
def ClearSound (st : State F) : Prop :=
  ∀ i j l a, 1 ≤ i → j < 100 →
    (main config (readlines st.logText)).1[(i - 1) * 100 + j]? = some (l, ['1']) →
    st.log[i * 100 + j]? = some a →
    ∀ q b, (i + 1) * 100 ≤ q → q < (i + 1) * 100 + 2 * 100 → st.log[q]? = some b →
      ¬ SharesByte a b

/-! ## The label `1` of a log -/

theorem readlines_logText {st : State F} (h : ∀ a ∈ st.log, a.record.Valid) :
    readlines st.logText = st.lines ∧ HasAccess st.lines := by
  have hlines : st.lines = st.log.map fun a => entryLine a.record.entry :=
    List.map_congr_left fun a ha => (h a ha).line_eq
  rw [State.logText, hlines]
  exact ⟨readlines_entryLines _ _, hasAccess_entryLines _ _⟩

/-- A line of window `i` gets the label `1` when no line of the lookahead has its descriptor
and its offset. -/
theorem label_one_iff {st : State F} (h : ∀ a ∈ st.log, a.record.Valid) {i j : Nat} {a : Access F}
    {l : Text} (hi : 1 ≤ i) (hj : j < 100) (ha : st.log[i * 100 + j]? = some a) :
    (main config (readlines st.logText)).1[(i - 1) * 100 + j]? = some (l, ['1']) ↔
      i < nrWindows st.log.length ∧ l = logLine a.record ∧
      ∀ q b, (i + 1) * 100 ≤ q → q < (i + 1) * 100 + 2 * 100 → st.log[q]? = some b →
        ¬ (a.record.fd = b.record.fd ∧ a.record.offset = b.record.offset) := by
  obtain ⟨hread, haccess⟩ := readlines_logText h
  have hline : st.lines[i * 100 + j]? = some (logLine a.record) := by
    rw [State.lines, List.getElem?_map, ha]
    rfl
  have hone : labelOf config st.lines i (logLine a.record) = ['1'] ↔
      ∀ q b, (i + 1) * 100 ≤ q → q < (i + 1) * 100 + 2 * 100 → st.log[q]? = some b →
        ¬ (a.record.fd = b.record.fd ∧ a.record.offset = b.record.offset) := by
    have hva := h a (List.mem_of_getElem? ha)
    rw [labelOf_eq_one]
    constructor
    · intro hall q b hq hq' hb
      have hvb := h b (List.mem_of_getElem? hb)
      rw [← sameAccess_logLine hva hvb, hall (logLine b.record)]
      · exact Bool.false_ne_true
      · exact mem_lookaheadLines.mpr ⟨q, hq, hq', by rw [State.lines, List.getElem?_map, hb]; rfl⟩
    · intro hall l' hl'
      obtain ⟨q, hq, hq', hlq⟩ := mem_lookaheadLines.mp hl'
      rw [State.lines, List.getElem?_map] at hlq
      obtain ⟨b, hb, rfl⟩ := Option.map_eq_some_iff.mp hlq
      have hvb := h b (List.mem_of_getElem? hb)
      rw [← Bool.not_eq_true, sameAccess_logLine hva hvb]
      exact hall q b hq hq' hb
  rw [hread, main_getElem? haccess hi hj, hline, State.lines, List.length_map, ← hone]
  split_ifs with hiw
  · simp only [Option.map_some, Option.some.injEq, Prod.mk.injEq, hiw, true_and]
    constructor
    · rintro ⟨rfl, hl⟩
      exact ⟨rfl, hl⟩
    · rintro ⟨rfl, hl⟩
      exact ⟨rfl, hl⟩
  · simp [hiw]

/-! ## What a reader logs -/

/-- A logged read that went through a descriptor of the table `t`. -/
structure LoggedRead (len : F → Nat) (t : Table F) (a : Access F) : Prop where
  valid : a.record.Valid
  offset_eq : a.record.offset = a.call.stop
  possible : a.call.Possible (len a.file)
  through : ∃ fd : Nat, a.record.fd = fd ∧ targetOf t fd = some (.file a.file)

/-- The invariant of a single reader: every file that is open has one descriptor, and the
logged reads went through it. -/
structure Reads (len : F → Nat) (p : Nat) (es : List (Event F)) (st : State F) : Prop where
  size_eq : st.size = len
  opened : ∀ fd f, targetOf (st.table p) fd = some (.file f) → f ∈ es.filterMap openedFile
  unique : ∀ fd fd' f, targetOf (st.table p) fd = some (.file f) →
    targetOf (st.table p) fd' = some (.file f) → fd = fd'
  log : ∀ a ∈ st.log, LoggedRead len (st.table p) a

theorem reads_init (len : F → Nat) (p : Nat) : Reads len p [] (init len) := by
  have hdev : ∀ fd f, targetOf ((init len).table p) fd ≠ some (.file f) := by
    intro fd f h
    obtain ⟨d, hd, ht⟩ := Option.map_eq_some_iff.mp h
    have hmem : some d ∈ (init len).table p := List.mem_of_getElem? (Option.join_eq_some_iff.mp hd)
    have hd' := Option.some.inj (List.eq_of_mem_replicate hmem)
    rw [hd'] at ht
    cases ht
  exact ⟨rfl, fun fd f h => absurd h (hdev fd f), fun fd _ f h => absurd h (hdev fd f),
    by simp [init]⟩

/-- A step that leaves open what is open and logs the reads `new`. -/
theorem Reads.append {len : F → Nat} {p : Nat} {es : List (Event F)} {st st' : State F}
    {e : Event F} {new : List (Access F)} (h : Reads len p es st) (hsize : st'.size = st.size)
    (ht : targetOf (st'.table p) = targetOf (st.table p)) (hlog : st'.log = st.log ++ new)
    (hnew : ∀ a ∈ new, LoggedRead len (st.table p) a) : Reads len p (es ++ [e]) st' where
  size_eq := hsize.trans h.size_eq
  opened fd f hf := by
    rw [ht] at hf
    rw [List.filterMap_append]
    exact List.mem_append_left _ (h.opened fd f hf)
  unique := by
    rw [ht]
    exact h.unique
  log a ha := by
    have hold : LoggedRead len (st.table p) a := by
      rw [hlog] at ha
      rcases List.mem_append.mp ha with ha | ha
      · exact h.log a ha
      · exact hnew a ha
    exact ⟨hold.valid, hold.offset_eq, hold.possible, by simpa only [ht] using hold.through⟩

theorem Reads.openFile {len : F → Nat} {p : Nat} {es : List (Event F)} {st : State F}
    (h : Reads len p es st) (t : Target F)
    (hnew : ∀ f, t = .file f → f ∉ es.filterMap openedFile) :
    Reads len p (es ++ [.openFile p t])
      (st.setTable p (install (st.table p) (lowestFree (st.table p)) ⟨t, 0⟩)) where
  size_eq := h.size_eq
  opened fd f hf := by
    rw [State.setTable_self, targetOf_install] at hf
    rw [List.filterMap_append, List.mem_append]
    split_ifs at hf with hfd
    · obtain rfl : t = .file f := Option.some.inj hf
      exact Or.inr (by simp [openedFile])
    · exact Or.inl (h.opened fd f hf)
  unique fd fd' f hf hf' := by
    rw [State.setTable_self, targetOf_install] at hf hf'
    -- the new descriptor is the only one of its file, which was never opened before
    split_ifs at hf hf' with hfd hfd' hfd'
    · exact hfd.trans hfd'.symm
    · exact absurd (h.opened fd' f hf') (hnew f (Option.some.inj hf))
    · exact absurd (h.opened fd f hf) (hnew f (Option.some.inj hf'))
    · exact h.unique fd fd' f hf hf'
  log a ha := by
    have hold := h.log a ha
    obtain ⟨fd, hfd, hf⟩ := hold.through
    refine ⟨hold.valid, hold.offset_eq, hold.possible, fd, hfd, ?_⟩
    rw [State.setTable_self, targetOf_install, if_neg]
    · exact hf
    · rintro rfl
      rw [targetOf_lowestFree] at hf
      cases hf

/-- Logged reads of one file that share a byte only when they end at the same position: the
label `1` is sound. -/
theorem Reads.clearSound {len : F → Nat} {p : Nat} {es : List (Event F)} {st : State F}
    (h : Reads len p es st)
    (hS : ∀ a ∈ st.log, ∀ b ∈ st.log, SharesByte a b → a.call.stop = b.call.stop) :
    ClearSound st := by
  intro i j l a hi hj hone ha q b hq hq' hb hshare
  obtain ⟨-, -, hnone⟩ := (label_one_iff (fun a ha => (h.log a ha).valid) hi hj ha).mp hone
  have hla := h.log a (List.mem_of_getElem? ha)
  have hlb := h.log b (List.mem_of_getElem? hb)
  apply hnone q b hq hq' hb
  constructor
  · -- the file of both accesses has one descriptor
    obtain ⟨fd, hfd, hf⟩ := hla.through
    obtain ⟨fd', hfd', hf'⟩ := hlb.through
    rw [hfd, hfd', h.unique fd fd' a.file hf (hshare.1 ▸ hf')]
  · rw [hla.offset_eq, hlb.offset_eq,
      hS a (List.mem_of_getElem? ha) b (List.mem_of_getElem? hb) hshare]

variable [DecidableEq F]

theorem Reads.read {len : F → Nat} {p fd size k : Nat} {es : List (Event F)} {st : State F}
    {d : Desc F} {f : F} (h : Reads len p es st) (hd : lookup (st.table p) fd = some d)
    (ht : d.target = .file f) (hk : k ≤ size) (hbytes : size < 2 ^ 64) (hpos : d.pos + k < 2 ^ 63)
    (hfit : k ≤ st.size f - d.pos) :
    Reads len p (es ++ [.read p fd size k]) (afterTransfer st .read p fd d f size k) := by
  have hsize : (afterTransfer st .read p fd d f size k).size = st.size := by
    simp [afterTransfer, sizeAfter]
  have htarget : targetOf ((afterTransfer st .read p fd d f size k).table p) =
      targetOf (st.table p) := by
    funext fd'
    rw [table_afterTransfer, State.setTable_self, targetOf_setPos hd]
  rcases log_afterTransfer st ht hbytes hpos with hlog | ⟨r, hr, -, hb, rfl, hlog⟩
  · exact h.append hsize htarget (hlog.trans (List.append_nil _).symm) (by simp)
  · have hf : targetOf (st.table p) fd = some (.file f) := by rw [targetOf, hd, ← ht]; rfl
    refine h.append hsize htarget hlog ?_
    intro a ha
    rw [List.mem_singleton.mp ha]
    exact ⟨hr, rfl, ⟨hb, hbytes, hk, hpos, h.size_eq ▸ hfit⟩, fd, rfl, hf⟩

theorem reads_step {len : F → Nat} {p : Nat} {es : List (Event F)} {st st' : State F}
    {e : Event F} (h : Reads len p es st) (hreader : SingleReader p (es ++ [e]))
    (hstep : step st e = some st') : Reads len p (es ++ [e]) st' := by
  have hev : ReaderEvent p e := hreader.events e (by simp)
  cases e with
  | openFile q t =>
    obtain rfl : q = p := hev
    cases hstep
    apply h.openFile
    rintro f rfl hf
    have hnodup := hreader.opened
    rw [List.filterMap_append, List.nodup_append] at hnodup
    exact hnodup.2.2 f hf f (by simp [openedFile]) rfl
  | lseek q fd pos =>
    obtain rfl : q = p := hev
    obtain ⟨d, hd, -, rfl⟩ := lseek_eq_some hstep
    refine h.append rfl ?_ (List.append_nil _).symm (by simp)
    funext fd'
    rw [State.setTable_self, targetOf_setPos hd]
  | read q fd size k =>
    obtain rfl : q = p := hev
    obtain ⟨d, hd, ⟨-, rfl⟩ | ⟨f, ht, hk, hbytes, hpos, hfit, rfl⟩⟩ := transfer_eq_some hstep
    · exact h.append rfl rfl (List.append_nil _).symm (by simp)
    · exact h.read hd ht hk hbytes hpos (hfit rfl)
  | _ => cases hev

/-- In every run of a single reader. -/
theorem reads_run {len : F → Nat} {p : Nat} {es : List (Event F)} {st : State F}
    (hrun : run step (init len) es = some st) (hreader : SingleReader p es) :
    Reads len p es st := by
  have hfirst : ∀ es' e, SingleReader p (es' ++ [e] : List (Event F)) → SingleReader p es' := by
    intro es' e h
    refine ⟨fun e' he' => h.events e' (List.mem_append_left _ he'), ?_⟩
    have hnodup := h.opened
    rw [List.filterMap_append, List.nodup_append] at hnodup
    exact hnodup.1
  refine run_history (P := fun es st => SingleReader p es → Reads len p es st)
    (fun _ => reads_init len p) ?_ hrun (guarded_true _ _) hreader
  intro es' m e m' _ _ _ hm hlast hsingle
  exact reads_step (hm (hfirst es' e hsingle)) hsingle hlast

/-! ## A run with two given reads -/

/-- The access that the call leaves in the log. -/
def ReadCall.access (c : ReadCall) (p fd : Nat) (f : F) : Access F :=
  ⟨⟨.read, p, fd, (c.stop : Int), c.size⟩, f, c.pos, c.count⟩

def ReadCall.events (c : ReadCall) (p fd : Nat) : List (Event F) :=
  [.lseek p fd c.pos, .read p fd c.size c.count]

/-- A call that is possible can be made. -/
theorem run_readCall {st : State F} {p fd pos : Nat} {f : F} {c : ReadCall}
    (h : lookup (st.table p) fd = some ⟨.file f, pos⟩) (hfd : 2 < fd)
    (hc : c.Possible (st.size f)) :
    ∃ st', run step st (c.events p fd) = some st' ∧ st'.size = st.size ∧
      st'.log = st.log ++ [c.access p fd f] ∧
      lookup (st'.table p) fd = some ⟨.file f, c.stop⟩ := by
  let m := st.setTable p ((st.table p).set fd (some ⟨.file f, c.pos⟩))
  have hseek : step st (.lseek p fd c.pos) = some m := by
    have hpos : c.pos < 2 ^ 63 := lt_of_le_of_lt (Nat.le_add_right _ _) hc.stop_lt
    simp only [step, h]
    rw [if_pos hpos]
  have hlook : lookup (m.table p) fd = some ⟨.file f, c.pos⟩ := by
    rw [State.setTable_self, lookup_set_self h]
  obtain ⟨st', hread, hsize, htable, hlog⟩ := step_read_logged c.size c.count hlook rfl hfd
    hc.size_pos hc.size_lt hc.count_le hc.stop_lt hc.fits
  refine ⟨st', ?_, hsize, hlog, ?_⟩
  · rw [ReadCall.events, run_cons, hseek, Option.bind_some, run_singleton, hread]
  · rw [htable, State.setTable_self, lookup_set_self hlook]
    rfl

theorem run_readCalls {p fd : Nat} {f : F} (hfd : 2 < fd) (cs : List ReadCall) {st : State F}
    {pos : Nat} (h : lookup (st.table p) fd = some ⟨.file f, pos⟩)
    (hcs : ∀ c ∈ cs, c.Possible (st.size f)) :
    ∃ st', run step st (cs.flatMap fun c => c.events p fd) = some st' ∧
      st'.log = st.log ++ cs.map fun c => c.access p fd f := by
  induction cs generalizing st pos with
  | nil => exact ⟨st, rfl, by simp⟩
  | cons c cs ih =>
    obtain ⟨m, hm, hsize, hlog, hlook⟩ := run_readCall h hfd (hcs c List.mem_cons_self)
    obtain ⟨st', hst', hlog'⟩ := ih hlook fun c' hc' => by
      rw [hsize]
      exact hcs c' (List.mem_cons_of_mem _ hc')
    refine ⟨st', ?_, ?_⟩
    · rw [List.flatMap_cons]
      exact run_append.mpr ⟨m, hm, hst'⟩
    · rw [hlog', hlog, List.map_cons, List.append_assoc, List.singleton_append]

omit [DecidableEq F] in
theorem singleReader_readCalls (f : F) (cs : List ReadCall) :
    SingleReader 0 ([.openFile 0 (.file f)] ++ cs.flatMap fun c => c.events 0 3) := by
  constructor
  · intro e he
    rcases List.mem_append.mp he with he | he
    · rw [List.mem_singleton.mp he]
      rfl
    · obtain ⟨c, -, hc⟩ := List.mem_flatMap.mp he
      simp only [ReadCall.events, List.mem_cons, List.not_mem_nil, or_false] at hc
      rcases hc with rfl | rfl
      · rfl
      · rfl
  · have hnone : (cs.flatMap fun c => c.events 0 3).filterMap openedFile = ([] : List F) := by
      simp [List.filterMap_flatMap, ReadCall.events, openedFile]
    rw [List.filterMap_append, hnone]
    simp [openedFile]

/-- Calls that are possible on a file can be made by a single reader. -/
theorem exists_run_readCalls {len : F → Nat} {f : F} {cs : List ReadCall}
    (hcs : ∀ c ∈ cs, c.Possible (len f)) :
    ∃ es st, run step (init len) es = some st ∧ SingleReader 0 es ∧
      st.log = cs.map fun c => c.access 0 3 f := by
  obtain ⟨m, hopen, hlook, hsize, hnil⟩ :
      ∃ m, run step (init len) [.openFile 0 (.file f)] = some m ∧
        lookup (m.table 0) 3 = some ⟨.file f, 0⟩ ∧ m.size = len ∧ m.log = [] :=
    ⟨_, rfl, rfl, rfl, rfl⟩
  obtain ⟨st, hreads, hlog⟩ := run_readCalls (f := f) (by decide) cs hlook (hsize ▸ hcs)
  rw [hnil, List.nil_append] at hlog
  exact ⟨_, st, run_append.mpr ⟨m, hopen, hreads⟩, singleReader_readCalls f cs, hlog⟩

omit [DecidableEq F] in
/-- In a log of a hundred accesses `b`, then `a`, then a hundred accesses `b`, the line of `a` is
the first one of window 1, and the last `b` is its lookahead. -/
theorem not_clearSound {st : State F} (hvalid : ∀ a ∈ st.log, a.record.Valid) {a b : Access F}
    {n : Nat} (hn : n = 100) (hlog : st.log = List.replicate n b ++ a :: List.replicate n b)
    (hoffset : a.record.offset ≠ b.record.offset) (hshare : SharesByte a b) : ¬ ClearSound st := by
  intro hsound
  have ha : st.log[1 * 100 + 0]? = some a := by
    rw [show 1 * 100 + 0 = n by omega, hlog]
    simp
  have hlater : ∀ q, 200 ≤ q → ∀ b', st.log[q]? = some b' → b' = b := by
    intro q hq b' hb'
    rw [hlog, List.getElem?_append_right (by simp; omega), List.length_replicate,
      show q - n = q - n - 1 + 1 by omega, List.getElem?_cons_succ] at hb'
    exact List.eq_of_mem_replicate (List.mem_of_getElem? hb')
  have hlen : st.log.length = 2 * n + 1 := by
    rw [hlog, List.length_append, List.length_cons, List.length_replicate]
    omega
  have hone : (main config (readlines st.logText)).1[(1 - 1) * 100 + 0]? =
      some (logLine a.record, ['1']) := by
    refine (label_one_iff hvalid le_rfl (by decide) ha).mpr ⟨?_, rfl, ?_⟩
    · rw [nrWindows_eq, hlen]
      omega
    · intro q b' hq _ hb' hsame
      rw [hlater q hq b' hb'] at hsame
      exact hoffset hsame.2
  have hlast : st.log[200]? = some b := by
    rw [show 200 = n + (n - 1 + 1) by omega, hlog]
    simp [show n - 1 < n by omega]
  exact hsound 1 0 _ _ le_rfl (by decide) hone ha 200 _ le_rfl (by decide) hlast hshare

/-- Two reads with a common byte and different ends make a label `1` that is not sound. -/
theorem exists_unsound {len : F → Nat} {f : F} {x y : ReadCall} (hx : x.Possible (len f))
    (hy : y.Possible (len f)) (hmeets : x.Meets y) (hstop : x.stop ≠ y.stop) :
    ∃ es st, run step (init len) es = some st ∧ SingleReader 0 es ∧
      (∀ a ∈ st.log, a.file = f ∧ (a.call = x ∨ a.call = y)) ∧ ¬ ClearSound st := by
  obtain ⟨n, hn⟩ : ∃ n, n = 100 := ⟨_, rfl⟩
  let cs := List.replicate n y ++ x :: List.replicate n y
  have hmem : ∀ c ∈ cs, c = x ∨ c = y := by
    intro c hc
    simp only [cs, List.mem_append, List.mem_cons, List.mem_replicate] at hc
    rcases hc with ⟨-, hc⟩ | hc | ⟨-, hc⟩
    · exact Or.inr hc
    · exact Or.inl hc
    · exact Or.inr hc
  obtain ⟨es, st, hrun, hreader, hlog⟩ : ∃ es st, run step (init len) es = some st ∧
      SingleReader 0 es ∧ st.log = cs.map fun c => c.access 0 3 f := by
    refine exists_run_readCalls fun c hc => ?_
    rcases hmem c hc with rfl | rfl
    · exact hx
    · exact hy
  refine ⟨es, st, hrun, hreader, ?_, ?_⟩
  · intro a ha
    rw [hlog] at ha
    obtain ⟨c, hc, rfl⟩ := List.mem_map.mp ha
    exact ⟨rfl, hmem c hc⟩
  · refine not_clearSound (fun a ha => ((reads_run hrun hreader).log a ha).valid)
      (a := x.access 0 3 f) (b := y.access 0 3 f) hn ?_ ?_ ⟨rfl, hmeets⟩
    · rw [hlog]
      simp [cs]
    · intro hsame
      exact hstop (Int.ofNat.inj hsame)

/-! ## Soundness -/

/-- **When the label `1` is sound.** -/
theorem clear_sound_iff (len : F → Nat) (S : F → ReadCall → Prop) :
    (∀ p es st, run step (init len) es = some st → SingleReader p es →
      (∀ a ∈ st.log, S a.file a.call) → ClearSound st) ↔
    ∀ f c c', c.Possible (len f) → c'.Possible (len f) → S f c → S f c' → c.Meets c' →
      c.stop = c'.stop := by
  constructor
  · intro h f c c' hc hc' hS hS' hmeets
    by_contra hstop
    obtain ⟨es, st, hrun, hreader, hcalls, hunsound⟩ := exists_unsound hc hc' hmeets hstop
    refine hunsound (h 0 es st hrun hreader fun a ha => ?_)
    obtain ⟨rfl, ha | ha⟩ := hcalls a ha
    · rw [ha]
      exact hS
    · rw [ha]
      exact hS'
  · intro h p es st hrun hreader hS
    have hreads := reads_run hrun hreader
    refine hreads.clearSound fun a ha b hb hshare => ?_
    have hb' := hshare.1 ▸ (hreads.log b hb).possible
    exact h a.file a.call b.call (hreads.log a ha).possible hb' (hS a ha) (hshare.1 ▸ hS b hb)
      hshare.2

/-- Reads of the first 4096 and of the first 8192 bytes of a file end at different positions:
the first is labelled `1` although the second one reads its bytes again. -/
theorem clear_unsound_two_sizes :
    ¬ ∀ (p : Nat) (es : List (Event Nat)) (st : State Nat),
      run step (init fun _ => 8192) es = some st → SingleReader p es → ClearSound st := by
  intro h
  have hx : (⟨0, 4096, 4096⟩ : ReadCall).Possible 8192 := by constructor <;> decide
  have hy : (⟨0, 8192, 8192⟩ : ReadCall).Possible 8192 := by constructor <;> decide
  obtain ⟨es, st, hrun, hreader, -, hunsound⟩ := @exists_unsound Nat _ (fun _ => 8192) 0 _ _
    hx hy ⟨0, by decide, by decide⟩ (by decide)
  exact hunsound (h 0 es st hrun hreader)

end CacheTrace.Interpose
