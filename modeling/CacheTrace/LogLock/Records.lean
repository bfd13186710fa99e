import CacheTrace.LogLock.Exclusion

/-!
# The records of agents that share the semaphore

All agents have opened one semaphore, none of them exits, and no call fails. The line of a
record reaches the log in any number of pieces between `fopen` and `fclose`.

The histories of a run are read off its events: the accepted calls (`issued`), the calls that
got the semaphore (`acquired`), those whose `write_log` returned (`written`) and those that
returned themselves (`returned`). The invariant is `Phase`: either nobody is between `get_sem`
and `post_sem` and the log holds the lines of all acquired calls, or one agent is, and the
piece of its line that has not been written is all that is missing.
-/

namespace CacheTrace.LogLock

open Log Transition Text

variable {A : Type}

/-! ## Histories -/

/-- The calls that pass the sanitization check, in the order they are made. -/
def issued (getpid : A → Int) (es : List (Event A)) : List (A × Record) :=
  es.filterMap fun
    | .call a c => (c.record (getpid a)).map fun r => (a, r)
    | _ => none

/-- The calls in the order of lock acquisition. -/
def acquired (es : List (Event A)) : List (A × Record) :=
  es.filterMap fun
    | .acquire a r => some (a, r)
    | _ => none

def written (es : List (Event A)) : List (A × Record) :=
  es.filterMap fun
    | .fclose a r => some (a, r)
    | _ => none

def returned (es : List (Event A)) : List (A × Record) :=
  es.filterMap fun
    | .post a r => some (a, r)
    | _ => none

theorem acquired_concat (es : List (Event A)) (e : Event A) :
    acquired (es ++ [e]) = acquired es ++ acquired [e] := List.filterMap_append

theorem written_concat (es : List (Event A)) (e : Event A) :
    written (es ++ [e]) = written es ++ written [e] := List.filterMap_append

theorem returned_concat (es : List (Event A)) (e : Event A) :
    returned (es ++ [e]) = returned es ++ returned [e] := List.filterMap_append

theorem issued_concat (getpid : A → Int) (es : List (Event A)) (e : Event A) :
    issued getpid (es ++ [e]) = issued getpid es ++ issued getpid [e] := List.filterMap_append

/-- The call that waits for the semaphore. -/
def pending (a : A) : Status → List (A × Record)
  | .live _ (.waiting r) => [(a, r)]
  | _ => []

def lines (calls : List (A × Record)) : Text := (calls.map fun x => logLine x.2).flatten

theorem lines_concat (calls : List (A × Record)) (a : A) (r : Record) :
    lines (calls ++ [(a, r)]) = lines calls ++ logLine r := by
  simp [lines]

/-! ## The invariant -/

def InWriteLog (st : State A) (a : A) : Prop :=
  ∃ s pc, st.proc a = .live s pc ∧ pc.inWriteLog = true

/-- The record that is being written. -/
def Pc.current : Pc → Option Record
  | .idle | .waiting _ => none
  | .opening r _ | .writing r _ _ | .posting r _ => some r

/-- What is missing in the log of the current line. -/
def Pc.missing : Pc → Text
  | .opening r _ => logLine r
  | .writing _ rest _ => rest
  | _ => []

inductive Phase (log₀ : Text) (es : List (Event A)) (st : State A) : Prop
  | free (hfree : ∀ a, ¬ InCritical st a) (hlog : st.log = log₀ ++ lines (acquired es))
    (hwritten : written es = acquired es) (hreturned : returned es = acquired es)
  | busy (a : A) (s : SemId) (pc : Pc) (r : Record) (hp : st.proc a = .live s pc)
    (hr : pc.current = some r) (hlog : st.log ++ pc.missing = log₀ ++ lines (acquired es))
    (hwritten : written es ++ (if pc.inWriteLog then [(a, r)] else []) = acquired es)
    (hreturned : returned es ++ [(a, r)] = acquired es)

theorem InWriteLog.critical {st : State A} {a : A} (h : InWriteLog st a) : InCritical st a := by
  obtain ⟨s, pc, hp, hpc⟩ := h
  refine ⟨s, pc, hp, ?_⟩
  cases pc with
  | idle | waiting | posting => cases hpc
  | opening | writing => rfl

theorem phase_shared (log₀ : Text) : Phase log₀ [] (shared log₀ : State A) := by
  refine .free ?_ (List.append_nil _).symm rfl rfl
  rintro a ⟨s, pc, ⟨⟩, hpc⟩
  cases hpc

theorem Pc.critical_of_current {pc : Pc} {r : Record} (h : pc.current = some r) :
    pc.critical = true := by
  cases pc with
  | idle | waiting => cases h
  | opening | writing | posting => rfl

/-- The one agent between `get_sem` and `post_sem` is the one of the phase. -/
theorem Phase.of_critical {log₀ : Text} {es : List (Event A)} {st : State A} (h : Phase log₀ es st)
    (hex : Exclusive st) {a : A} {s : SemId} {pc : Pc} (hp : st.proc a = .live s pc)
    (hpc : pc.critical = true) :
    ∃ r, pc.current = some r ∧ st.log ++ pc.missing = log₀ ++ lines (acquired es) ∧
      written es ++ (if pc.inWriteLog then [(a, r)] else []) = acquired es ∧
      returned es ++ [(a, r)] = acquired es := by
  cases h with
  | free hfree => exact absurd ⟨s, pc, hp, hpc⟩ (hfree a)
  | busy b s' pc' r hb hr hlog hwritten hreturned =>
    obtain rfl := hex b a ⟨s', pc', hb, Pc.critical_of_current hr⟩ ⟨s, pc, hp, hpc⟩
    rw [hp] at hb
    cases hb
    exact ⟨r, hr, hlog, hwritten, hreturned⟩

/-- Nobody is inside `write_log`: the log holds the lines of all acquired calls. -/
theorem Phase.of_not_inWriteLog {log₀ : Text} {es : List (Event A)} {st : State A}
    (h : Phase log₀ es st) (hnone : ∀ a, ¬ InWriteLog st a) :
    st.log = log₀ ++ lines (acquired es) ∧ written es = acquired es := by
  cases h with
  | free _ hlog hwritten => exact ⟨hlog, hwritten⟩
  | busy a s pc r hp hr hlog hwritten =>
    have hpc : pc.inWriteLog = false := by
      rw [← Bool.not_eq_true]
      exact fun hin => hnone a ⟨s, pc, hp, hin⟩
    cases pc with
    | idle | waiting => cases hr
    | opening | writing => cases hpc
    | posting r' held =>
      simp only [Pc.missing, List.append_nil] at hlog
      exact ⟨hlog, by simpa [Pc.inWriteLog] using hwritten⟩

/-- The agent between `get_sem` and `post_sem` goes on with its record. -/
theorem Phase.inside {log₀ : Text} {es : List (Event A)} {e : Event A} {st st' : State A} {a : A}
    {s : SemId} {pc pc' : Pc} (h : Phase log₀ es st) (hex : Exclusive st)
    (hp : st.proc a = .live s pc) (hpc : pc.critical = true) (hp' : st'.proc a = .live s pc')
    (hcurrent : pc'.current = pc.current) (hlog : st'.log ++ pc'.missing = st.log ++ pc.missing)
    (hacq : acquired [e] = []) (hret : returned [e] = [])
    (hwr : ∀ r, pc.current = some r → written [e] ++ (if pc'.inWriteLog then [(a, r)] else []) =
      if pc.inWriteLog then [(a, r)] else []) :
    Phase log₀ (es ++ [e]) st' := by
  obtain ⟨r, hr, hlog₀, hwritten, hreturned⟩ := h.of_critical hex hp hpc
  refine .busy a s pc' r hp' (hcurrent.trans hr) ?_ ?_ ?_
  · rw [hlog, hlog₀, acquired_concat, hacq, List.append_nil]
  · rw [written_concat, List.append_assoc, hwr r hr, hwritten, acquired_concat, hacq,
      List.append_nil]
  · rw [returned_concat, hret, List.append_nil, hreturned, acquired_concat, hacq, List.append_nil]

variable [DecidableEq A]

/-- Somebody outside the critical section moves, outside of it. -/
theorem Phase.outside {log₀ : Text} {es : List (Event A)} {e : Event A} {st st' : State A} {a : A}
    {s : SemId} {pc pc' : Pc} (h : Phase log₀ es st) (hp : st.proc a = .live s pc)
    (hpc : pc.critical = false) (hpc' : pc'.critical = false)
    (hproc : st'.proc = (st.setProc a (.live s pc')).proc) (hlog : st'.log = st.log)
    (hacq : acquired [e] = []) (hwr : written [e] = []) (hret : returned [e] = []) :
    Phase log₀ (es ++ [e]) st' := by
  have hacq' : acquired (es ++ [e]) = acquired es := by rw [acquired_concat, hacq, List.append_nil]
  have hwr' : written (es ++ [e]) = written es := by rw [written_concat, hwr, List.append_nil]
  have hret' : returned (es ++ [e]) = returned es := by rw [returned_concat, hret, List.append_nil]
  cases h with
  | free hfree hlog' hwritten hreturned =>
    refine .free ?_ (by rw [hlog, hlog', hacq']) (by rw [hwr', hacq', hwritten])
      (by rw [hret', hacq', hreturned])
    rintro b ⟨s', pc'', hb, hcr⟩
    rw [hproc] at hb
    by_cases hba : b = a
    · rw [hba, State.setProc_self] at hb
      cases hb
      rw [hpc'] at hcr
      cases hcr
    · rw [State.setProc_of_ne st hba] at hb
      exact hfree b ⟨s', pc'', hb, hcr⟩
  | busy b s' pc'' r hb hr hlog' hwritten hreturned =>
    have hba : b ≠ a := by
      rintro rfl
      rw [hp] at hb
      cases hb
      rw [Pc.critical_of_current hr] at hpc
      cases hpc
    refine .busy b s' pc'' r (by rw [hproc, State.setProc_of_ne st hba, hb]) hr ?_ ?_ ?_
    · rw [hlog, hlog', hacq']
    · rw [hwr', hwritten, hacq']
    · rw [hret', hreturned, hacq']

variable {getpid : A → Int}

/-- Every step of a handler keeps the phase. -/
theorem Phase.step {log₀ : Text} {es : List (Event A)} {e : Event A} {st st' : State A}
    (h : Phase log₀ es st) (hs : Sound st) (ht : Together st) (he : e.Logs)
    (hstep : Step getpid st e st') : Phase log₀ (es ++ [e]) st' := by
  have hex := ht.exclusive hs
  cases hstep with
  | start | interrupt | openFail | exit | kill => exact he.elim
  | call hp => exact h.outside hp rfl (critical_enter _ _) rfl rfl rfl rfl rfl
  | @acquire a r s hp hv =>
    cases h with
    | free hfree hlog hwritten hreturned =>
      have hacq : acquired (es ++ [.acquire a r]) = acquired es ++ [(a, r)] := acquired_concat ..
      refine .busy a s (.opening r true) r (State.setProc_self ..) rfl ?_ ?_ ?_
      · change st.log ++ logLine r = _
        rw [hacq, lines_concat, hlog, List.append_assoc]
      · rw [hacq, written_concat, hwritten, List.append_assoc]
        rfl
      · rw [hacq, returned_concat, hreturned, List.append_assoc]
        rfl
    | busy b s' pc r' hb hr =>
      -- somebody has the semaphore, so it is not free
      obtain ⟨s₀, hlive, -⟩ := ht
      obtain rfl : s' = s := (hlive b s' pc hb).trans (hlive a s _ hp).symm
      have := hs.value_eq_zero hb (Pc.critical_of_current hr)
      omega
  | fopen hp =>
    exact h.inside hex hp rfl (State.setProc_self ..) rfl rfl rfl rfl fun _ _ => rfl
  | @append a r n s rest held hp =>
    refine h.inside hex hp rfl (State.setProc_self ..) rfl ?_ rfl rfl fun _ _ => rfl
    change st.log ++ rest.take n ++ rest.drop n = st.log ++ rest
    rw [List.append_assoc, List.take_append_drop]
  | fclose hp =>
    refine h.inside hex hp rfl (State.setProc_self ..) rfl rfl rfl rfl ?_
    rintro r ⟨⟩
    rfl
  | @post a r s held hp =>
    obtain ⟨_, ⟨⟩, hlog, hwritten, hreturned⟩ := h.of_critical hex hp rfl
    have hacq : acquired (es ++ [.post a r]) = acquired es :=
      (acquired_concat ..).trans (List.append_nil _)
    refine .free ?_ ?_ ?_ ?_
    · rintro b ⟨s', pc', hb, hpc'⟩
      by_cases hba : b = a
      · rw [hba, State.setProc_self] at hb
        cases hb
        cases hpc'
      · rw [State.setProc_of_ne _ hba] at hb
        exact hba (hex b a ⟨s', pc', hb, hpc'⟩ ⟨s, _, hp, rfl⟩)
    · rw [hacq, ← hlog]
      exact (List.append_nil _).symm
    · rw [hacq, ← hwritten, written_concat]
      rfl
    · rw [hacq, ← hreturned, returned_concat]
      rfl

/-! ## The order of the calls of one agent -/

/-- The calls of every agent get the semaphore in the order it makes them. -/
def InOrder (getpid : A → Int) (es : List (Event A)) (st : State A) : Prop :=
  ∀ a, (acquired es).filter (fun x => x.1 = a) ++ pending a (st.proc a) =
    (issued getpid es).filter fun x => x.1 = a

theorem InOrder.step {es : List (Event A)} {e : Event A} {st st' : State A}
    (h : InOrder getpid es st) (he : e.Logs) (hstep : Step getpid st e st') :
    InOrder getpid (es ++ [e]) st' := by
  -- the move of `a` acquires the calls `hist` and issues the calls `hist'`
  have move : ∀ (a : A) (x : Status) (hist hist' : List (A × Record)),
      st'.proc = (st.setProc a x).proc → acquired [e] = hist → issued getpid [e] = hist' →
      (∀ y ∈ hist, y.1 = a) → (∀ y ∈ hist', y.1 = a) →
      hist ++ pending a x = pending a (st.proc a) ++ hist' → InOrder getpid (es ++ [e]) st' := by
    intro a x hist hist' hproc hacq hiss hmem hmem' hpend b
    rw [hproc, acquired_concat, hacq, issued_concat, hiss, List.filter_append, List.filter_append,
      ← h b]
    by_cases hb : b = a
    · subst hb
      have hall : ∀ l : List (A × Record), (∀ y ∈ l, y.1 = b) →
          l.filter (fun y => decide (y.1 = b)) = l := fun l hl =>
        List.filter_eq_self.mpr fun y hy => decide_eq_true (hl y hy)
      rw [State.setProc_self, hall hist hmem, hall hist' hmem', List.append_assoc, hpend,
        List.append_assoc]
    · have hnone : ∀ l : List (A × Record), (∀ y ∈ l, y.1 = a) →
          l.filter (fun y => decide (y.1 = b)) = [] := by
        intro l hl
        refine List.filter_eq_nil_iff.mpr fun y hy => ?_
        simpa [hl y hy] using Ne.symm hb
      rw [State.setProc_of_ne st hb, hnone hist hmem, hnone hist' hmem', List.append_nil,
        List.append_nil]
  cases hstep with
  | start | interrupt | openFail | exit | kill => exact he.elim
  | @call a c s hp =>
    rcases enter_cases (getpid a) c with ⟨hc, hent⟩ | ⟨r, hc, hent⟩
    · exact move a _ [] [] rfl rfl (by simp [issued, hc]) (by simp) (by simp)
        (by rw [hp, hent]; rfl)
    · exact move a _ [] [(a, r)] rfl rfl (by simp [issued, hc]) (by simp) (by simp)
        (by rw [hp, hent]; rfl)
  | @acquire a r s hp hv =>
    exact move a _ [(a, r)] [] rfl rfl rfl (by simp) (by simp) (by rw [hp]; rfl)
  | fopen hp | append hp | fclose hp | post hp =>
    exact move _ _ [] [] rfl rfl rfl (by simp) (by simp) (by rw [hp]; rfl)

/-! ## Finishing a call -/

/-- Agent `a` can run on to the end of its call, alone; it writes `rest`. -/
def Finishes (getpid : A → Int) (st : State A) (a : A) (s : SemId) (rest : Text) : Prop :=
  ∃ es st', run (step getpid) st es = some st' ∧ (∀ e ∈ es, e.Logs) ∧
    st'.proc = (st.setProc a (.live s .idle)).proc ∧ st'.value s = st.value s + 1 ∧
    st'.log = st.log ++ rest

/-- One more step of the agent before the end. -/
theorem Finishes.cons {st m : State A} {a : A} {s : SemId} {x : Status} {e : Event A}
    {rest rest' : Text} (h : Finishes getpid m a s rest) (hstep : step getpid st e = some m)
    (he : e.Logs) (hproc : m.proc = (st.setProc a x).proc) (hvalue : m.value = st.value)
    (hlog : m.log ++ rest = st.log ++ rest') : Finishes getpid st a s rest' := by
  obtain ⟨es, st', hrun, hes, hproc', hvalue', hlog'⟩ := h
  refine ⟨e :: es, st', ?_, List.forall_mem_cons.mpr ⟨he, hes⟩, ?_, by rw [hvalue', hvalue],
    hlog'.trans hlog⟩
  · rw [run_cons, hstep, Option.bind_some, hrun]
  · rw [hproc']
    simp only [State.setProc, hproc, Function.update_idem]

/-- An agent between `get_sem` and `post_sem` can write what is missing and post. -/
theorem finishes (getpid : A → Int) {st : State A} {a : A} {s : SemId} {pc : Pc}
    (hp : st.proc a = .live s pc) (hpc : pc.critical = true) :
    Finishes getpid st a s pc.missing := by
  -- backwards from `post`
  have posting : ∀ (m : State A) (r : Record) (held : Bool),
      m.proc a = .live s (.posting r held) → Finishes getpid m a s [] := by
    intro m r held hm
    exact ⟨[.post a r], _, (run_singleton _ _).trans (step_eq_some.mpr (.post hm)),
      by simp [Event.Logs], rfl, Function.update_self .., (List.append_nil _).symm⟩
  have closing : ∀ (m : State A) (r : Record) (held : Bool),
      m.proc a = .live s (.writing r [] held) → Finishes getpid m a s [] := by
    intro m r held hm
    exact (posting _ r held (State.setProc_self ..)).cons (step_eq_some.mpr (.fclose hm)) trivial
      rfl rfl rfl
  have writing : ∀ (m : State A) (r : Record) (rest : Text) (held : Bool),
      m.proc a = .live s (.writing r rest held) → Finishes getpid m a s rest := by
    intro m r rest held hm
    have happend := step_eq_some.mpr
      (Step.append hm : Step getpid m (.append a r rest.length) _)
    rw [List.drop_length, List.take_length] at happend
    exact (closing _ r held (State.setProc_self ..)).cons happend trivial rfl rfl
      (List.append_nil _)
  cases pc with
  | idle | waiting => cases hpc
  | posting r held => exact posting st r held hp
  | writing r rest held => exact writing st r rest held hp
  | opening r held =>
    exact (writing _ r _ held (State.setProc_self ..)).cons (step_eq_some.mpr (.fopen hp)) trivial
      rfl rfl rfl

/-! ## The log -/

/-- **No record is lost, torn, duplicated or reordered.** -/
theorem log_records (getpid : A → Int) (log₀ : Text) {es : List (Event A)} {st : State A}
    (hrun : run (step getpid) (shared log₀) es = some st) (hes : ∀ e ∈ es, e.Logs) :
    (∀ a b, InWriteLog st a → InWriteLog st b → a = b) ∧
    ((∀ a, ¬ InWriteLog st a) →
      st.log = log₀ ++ lines (written es) ∧ (∀ x ∈ written es, Complete (logLine x.2)) ∧
      written es = acquired es ∧
      ∀ a, (acquired es).filter (fun x => x.1 = a) ++ pending a (st.proc a) =
        (issued getpid es).filter fun x => x.1 = a) ∧
    ((∀ a, ¬ InCritical st a) → returned es = acquired es) := by
  obtain ⟨hs, ht, hphase, horder⟩ : Sound st ∧ Together st ∧ Phase log₀ es st ∧
      InOrder getpid es st := by
    refine run_history (G := fun _ e => e.Logs)
      (P := fun es st => Sound st ∧ Together st ∧ Phase log₀ es st ∧ InOrder getpid es st)
      ⟨sound_shared log₀, together_shared log₀, phase_shared log₀, fun _ => rfl⟩ ?_ hrun
      (guarded_of_forall (fun e he _ => hes e he) _)
    rintro es' m e m' - - he ⟨hs, ht, hphase, horder⟩ hlast
    have hstep := step_eq_some.mp hlast
    have hstart : ∀ a, e = .start a → Attaches m := by
      rintro a rfl
      exact he.elim
    exact ⟨hs.step he.not_interrupts hstep, ht.step hstart hstep, hphase.step hs ht he hstep,
      horder.step he hstep⟩
  refine ⟨fun a b ha hb => ?_, fun hnone => ?_, fun hnone => ?_⟩
  · exact ht.exclusive hs a b ha.critical hb.critical
  · obtain ⟨hlog, hwritten⟩ := hphase.of_not_inWriteLog hnone
    exact ⟨hwritten ▸ hlog, fun x _ => logLine_complete x.2, hwritten, horder⟩
  · cases hphase with
    | free _ _ _ hreturned => exact hreturned
    | busy a s pc r hp hr => exact absurd ⟨s, pc, hp, Pc.critical_of_current hr⟩ (hnone a)

def samplePid (a : Bool) : Int := if a then 8 else 7

/-- Two processes; the second one calls while the line of the first one is half written. -/
def sampleRun : List (Event Bool) :=
  let c : Call := ⟨.read, 3, 4096, 4096⟩
  let r : Bool → Record := fun a => ⟨.read, samplePid a, 3, 4096, 4096⟩
  [.call false c, .acquire false (r false), .fopen false (r false), .append false (r false) 4,
    .call true c, .append false (r false) 40, .fclose false (r false), .post false (r false),
    .acquire true (r true), .fopen true (r true), .append true (r true) 40, .fclose true (r true)]

theorem log_records_two_processes :
    ∃ st, run (step samplePid) (shared []) sampleRun = some st ∧ (∀ a, ¬ InWriteLog st a) ∧
      st.log = lines (written sampleRun) ∧ written sampleRun = acquired sampleRun := by
  obtain ⟨st, hrun, hfalse, htrue⟩ :
      ∃ st, run (step samplePid) (shared []) sampleRun = some st ∧
        st.proc false = .live 0 .idle ∧
        st.proc true = .live 0 (.posting ⟨.read, 8, 3, 4096, 4096⟩ true) := ⟨_, rfl, rfl, rfl⟩
  have hnone : ∀ a, ¬ InWriteLog st a := by
    rintro (_ | _) ⟨s, pc, hp, hpc⟩
    · rw [hfalse] at hp
      cases hp
      cases hpc
    · rw [htrue] at hp
      cases hp
      cases hpc
  have hrecords := log_records _ [] hrun (by simp [sampleRun, Event.Logs])
  obtain ⟨hlog, -, hwritten, -⟩ := hrecords.2.1 hnone
  exact ⟨st, hrun, hnone, hlog, hwritten⟩

end CacheTrace.LogLock
