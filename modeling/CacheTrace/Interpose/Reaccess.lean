import CacheTrace.Interpose.Kernel
import CacheTrace.Log.Format

/-!
# Re-access in the log and re-access of a file

The labeller takes two lines for accesses of the same data when their descriptors and
offsets agree. A descriptor is a number in the table of one process, the log does not name
the file, and the labeller ignores the process: two processes get the same number for
different files, a number is reused after `close`, and one file can have several numbers.

The test is right exactly as long as descriptors name files. `reaccess_iff` takes any set
`B` of pairs (descriptor, file) and all runs of any number of processes in which every
`open` returns a descriptor that `B` pairs with the file: the test is right in all these
runs if and only if `B` is one-to-one.
-/

namespace CacheTrace.Interpose

open Log Label Transition

variable {F : Type}

/-! ## Tables of devices -/

/-- A table with `n` devices open. -/
def devices (n : Nat) : Table F := List.replicate n (some ⟨.device, 0⟩)

theorem lowestFree_devices (n : Nat) : lowestFree (devices n : Table F) = n := by
  rw [lowestFree, devices, List.findIdx_eq_length.mpr]
  · simp
  · intro x hx
    rw [List.eq_of_mem_replicate hx]
    rfl

theorem install_devices (n : Nat) (d : Desc F) :
    install (devices n) n d = devices n ++ [some d] := by
  rw [install, if_neg]
  simp [devices]

/-! ## Descriptors and files of a run -/

/-- Every regular file is opened under a descriptor that `B` pairs with it. -/
def OpensIn (B : Nat → F → Prop) (st : State F) : Event F → Prop
  | .openFile p (.file f) => B (lowestFree (st.table p)) f
  | _ => True

/-- Open descriptors and logged accesses keep to the pairs of `B`. -/
structure Bound (B : Nat → F → Prop) (st : State F) : Prop where
  table : ∀ p fd f, targetOf (st.table p) fd = some (.file f) → 2 < fd → B fd f
  log : ∀ a ∈ st.log, a.record.Valid ∧ ∃ fd : Nat, 2 < fd ∧ a.record.fd = fd ∧ B fd a.file

theorem bound_init (B : Nat → F → Prop) (size : F → Nat) : Bound B (init size) where
  table p fd f h hfd := by
    obtain ⟨d, hd, -⟩ := Option.map_eq_some_iff.mp h
    have hlen := lookup_lt_length hd
    simp only [init, List.length_replicate] at hlen
    omega
  log a ha := by cases ha

theorem Bound.setTable {B : Nat → F → Prop} {st : State F} (h : Bound B st) {p : Nat}
    {t : Table F} (ht : ∀ fd f, targetOf t fd = some (.file f) → 2 < fd → B fd f) :
    Bound B (st.setTable p t) where
  table q fd f hd hfd := by
    by_cases hq : q = p
    · subst hq
      rw [State.setTable_self] at hd
      exact ht fd f hd hfd
    · rw [State.setTable_of_ne st hq] at hd
      exact h.table q fd f hd hfd
  log := h.log

theorem Bound.setPos {B : Nat → F → Prop} {st : State F} (h : Bound B st) {p fd : Nat}
    {d : Desc F} (hd : lookup (st.table p) fd = some d) (pos : Nat) :
    Bound B (st.setTable p ((st.table p).set fd (some ⟨d.target, pos⟩))) := by
  apply h.setTable
  intro fd' f hf hfd
  rw [targetOf_setPos hd] at hf
  exact h.table p fd' f hf hfd

variable [DecidableEq F]

theorem bound_step {B : Nat → F → Prop} {st st' : State F} {e : Event F} (hG : OpensIn B st e)
    (h : Bound B st) (hstep : step st e = some st') : Bound B st' := by
  rcases step_cases hstep with ⟨p, t, rfl, rfl⟩ | ⟨p, fd, d, rfl, hd, rfl⟩ |
      ⟨p, fd, pos, d, rfl, hd, rfl⟩ | ⟨type, p, fd, limit, bytes, k, htr⟩
  · apply h.setTable
    intro fd f hf hfd
    rw [targetOf_install] at hf
    split_ifs at hf with hne
    · obtain rfl : t = .file f := Option.some.inj hf
      rw [hne]
      exact hG
    · exact h.table p fd f hf hfd
  · apply h.setTable
    intro fd' f hf hfd
    rw [targetOf_close hd] at hf
    split_ifs at hf
    exact h.table p fd' f hf hfd
  · exact h.setPos hd pos
  · obtain ⟨d, hd, ⟨-, rfl⟩ | ⟨f, ht, -, hbytes, hpos, -, rfl⟩⟩ := transfer_eq_some htr
    · exact h
    · refine ⟨(h.setPos hd (d.pos + k)).table, ?_⟩
      rcases log_afterTransfer st ht hbytes hpos with hlog | ⟨r, hr, hfd, -, hrec, hlog⟩
      · rw [hlog]
        exact h.log
      · rw [hlog]
        intro a ha
        rcases List.mem_append.mp ha with ha | ha
        · exact h.log a ha
        · have hf : targetOf (st.table p) fd = some (.file f) := by rw [targetOf, hd, ← ht]; rfl
          rw [List.mem_singleton.mp ha]
          exact ⟨hr, fd, hfd, by rw [hrec], h.table p fd f hf hfd⟩

/-! ## Runs that log one access -/

theorem run_devices (st : State F) {p n : Nat} (h : st.table p = devices n) (m : Nat) :
    run step st (List.replicate m (.openFile p .device)) =
      some (st.setTable p (devices (n + m))) := by
  induction m generalizing st n with
  | zero =>
    have : st.setTable p (devices n) = st := by
      rw [← h, State.setTable, Function.update_eq_self]
    simp [this]
  | succ m ih =>
    have hopen : install (st.table p) (lowestFree (st.table p)) ⟨.device, 0⟩ = devices (n + 1) := by
      rw [h, lowestFree_devices, install_devices, devices, devices, List.replicate_succ']
    rw [List.replicate_succ, run_cons, step, hopen, Option.bind_some,
      ih (st.setTable p (devices (n + 1))) (st.setTable_self p _)]
    simp [State.setTable, Nat.add_assoc, Nat.add_comm 1 m]

/-- A process that has only its standard streams open can open `f` under any descriptor
`d > 2`, with devices below it, and log an access of offset `0`. -/
theorem run_open_read (B : Nat → F → Prop) (st : State F) {p d : Nat} {f : F}
    (h : st.table p = devices 3) (hd : 2 < d) (hB : B d f) :
    ∃ es st', run step st es = some st' ∧ Guarded step (OpensIn B) st es ∧
      st'.log = st.log ++ [⟨⟨.read, p, d, 0, 1⟩, f, 0, 0⟩] ∧
      ∀ q, q ≠ p → st'.table q = st.table q := by
  -- fill the table up to `d`, open the file, read at its beginning
  have hfill := run_devices st h (d - 3)
  rw [show 3 + (d - 3) = d by omega] at hfill
  have hopen : run step (st.setTable p (devices d)) [.openFile p (.file f)] =
      some (st.setTable p (devices d ++ [some ⟨.file f, 0⟩])) := by
    rw [run_singleton, step, State.setTable_self, lowestFree_devices, install_devices]
    simp [State.setTable]
  have hlook : lookup (devices d ++ [some (⟨.file f, 0⟩ : Desc F)]) d = some ⟨.file f, 0⟩ := by
    simp [lookup, devices]
  have hread : ∃ st', run step (st.setTable p (devices d ++ [some ⟨.file f, 0⟩])) [.read p d 1 0] =
      some st' ∧ st'.log = st.log ++ [⟨⟨.read, p, d, 0, 1⟩, f, 0, 0⟩] ∧
      ∀ q, q ≠ p → st'.table q = st.table q := by
    obtain ⟨st', hst', -, htable, hlog⟩ := step_read_logged (p := p) 1 0
      ((congrArg (lookup · d) (st.setTable_self p _)).trans hlook) rfl hd one_pos (by simp)
      (Nat.zero_le 1) (by simp) (Nat.zero_le _)
    refine ⟨st', (run_singleton _ _).trans hst', hlog, ?_⟩
    intro q hq
    rw [htable, State.setTable_of_ne _ hq, State.setTable_of_ne st hq]
  obtain ⟨st', hrun, hlog, hother⟩ := hread
  refine ⟨List.replicate (d - 3) (.openFile p .device) ++
      ([.openFile p (.file f)] ++ [.read p d 1 0]),
    st', run_append.mpr ⟨_, hfill, run_append.mpr ⟨_, hopen, hrun⟩⟩, ?_, hlog, hother⟩
  refine (guarded_append hfill).mpr ⟨?_, (guarded_append hopen).mpr ⟨?_, ?_⟩⟩
  · apply guarded_of_forall
    intro e he s
    rw [List.eq_of_mem_replicate he]
    trivial
  · refine ⟨?_, fun _ _ => trivial⟩
    rw [OpensIn, State.setTable_self, lowestFree_devices]
    exact hB
  · exact ⟨trivial, fun _ _ => trivial⟩

/-! ## The test of the labeller -/

/-- The test is right for the lines of `a` and `b`. -/
def TestRight (a b : Access F) : Prop :=
  sameAccess (logLine a.record) (logLine b.record) = true ↔
    a.file = b.file ∧ a.record.offset = b.record.offset

theorem sameAccess_logLine {r r' : Record} (h : r.Valid) (h' : r'.Valid) :
    sameAccess (logLine r) (logLine r') = true ↔ r.fd = r'.fd ∧ r.offset = r'.offset := by
  rw [h.line_eq, h'.line_eq]
  exact sameAccess_entryLine _ _

/-- **When the test is right.** In all runs that open files under descriptors given by `B`,
two log lines have equal descriptors and offsets exactly when they access the same file at
the same offset, if and only if `B` pairs every descriptor with at most one file and every
file with at most one descriptor. -/
theorem reaccess_iff (size : F → Nat) (B : Nat → F → Prop) :
    (∀ es st, run step (init size) es = some st → Guarded step (OpensIn B) (init size) es →
      ∀ a ∈ st.log, ∀ b ∈ st.log, TestRight a b) ↔
    ∀ d f d' f', 2 < d → 2 < d' → B d f → B d' f' → (d = d' ↔ f = f') := by
  constructor
  · intro h d f d' f' hd hd' hB hB'
    -- two processes log one access each at offset `0`
    obtain ⟨es, st, hrun, hG, hlog, hother⟩ := run_open_read B (init size) (p := 0) rfl hd hB
    obtain ⟨es', st', hrun', hG', hlog', -⟩ := run_open_read B st (p := 1)
      (by rw [hother 1 (by decide)]; rfl) hd' hB'
    have hmem : ∀ a, a ∈ st'.log ↔ a = ⟨⟨.read, (0 : Nat), d, 0, 1⟩, f, 0, 0⟩ ∨
        a = ⟨⟨.read, (1 : Nat), d', 0, 1⟩, f', 0, 0⟩ := by
      intro a
      rw [hlog', hlog]
      simp [init]
    have htest := h (es ++ es') st' (run_append.mpr ⟨st, hrun, hrun'⟩)
      ((guarded_append hrun).mpr ⟨hG, hG'⟩) _ ((hmem _).mpr (Or.inl rfl)) _
      ((hmem _).mpr (Or.inr rfl))
    have hvalid : ∀ (p fd : Nat), 2 < fd → (⟨.read, p, fd, 0, 1⟩ : Record).Valid := by
      intro p fd hfd
      constructor <;> dsimp only <;> omega
    rw [TestRight, sameAccess_logLine (hvalid 0 d hd) (hvalid 1 d' hd')] at htest
    simpa only [and_true, Int.natCast_inj] using htest
  · intro hB es st hrun hG a ha b hb
    have hbound : Bound B st := run_invariant (fun m e m' hGe hm hstep => bound_step hGe hm hstep)
      (bound_init B size) hrun hG
    obtain ⟨hva, d, hd, hda, hBa⟩ := hbound.log a ha
    obtain ⟨hvb, d', hd', hdb, hBb⟩ := hbound.log b hb
    have hpair := hB d a.file d' b.file hd hd' hBa hBb
    rw [TestRight, sameAccess_logLine hva hvb, hda, hdb, Int.natCast_inj, hpair]

/-- Two processes open different files, both get descriptor `3`, and each of them reads the
first 4096 bytes: the test takes the two lines for accesses of the same data. -/
theorem reaccess_two_processes :
    ¬ ∀ es (st : State Nat), run step (init fun _ => 8192) es = some st →
      ∀ a ∈ st.log, ∀ b ∈ st.log, TestRight a b := by
  intro h
  have hrun : ∃ st : State Nat, run step (init fun _ => 8192)
      [.openFile 0 (.file 0), .openFile 1 (.file 1), .read 0 3 4096 4096, .read 1 3 4096 4096] =
        some st ∧
      st.log = [⟨⟨.read, 0, 3, 4096, 4096⟩, 0, 0, 4096⟩, ⟨⟨.read, 1, 3, 4096, 4096⟩, 1, 0, 4096⟩] :=
    ⟨_, rfl, rfl⟩
  obtain ⟨st, hst, hlog⟩ := hrun
  have htest := h _ st hst ⟨⟨.read, 0, 3, 4096, 4096⟩, 0, 0, 4096⟩ (by simp [hlog])
    ⟨⟨.read, 1, 3, 4096, 4096⟩, 1, 0, 4096⟩ (by simp [hlog])
  have hsame : sameAccess (logLine ⟨.read, 0, 3, 4096, 4096⟩) (logLine ⟨.read, 1, 3, 4096, 4096⟩) =
      true := by decide
  exact absurd (htest.mp hsame).1 (by decide)

end CacheTrace.Interpose
