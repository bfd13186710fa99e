import CacheTrace.Interpose.Kernel

/-!
# What the wrappers do to the program

After the real call, a wrapper makes library calls of its own: `fileno` for a stream, `fstat`,
`lseek` or `ftell`, and in the handler `sem_wait`, `fopen` and `sem_post`. Each of them may fail. A
failed call leaves an error number in `errno`, and some failures are reported on the standard
output of the program.
Nothing restores `errno`, and nothing stops a handler from waiting on the semaphore when the
constructor could not open it.

`Env` holds the results of the library calls during one wrapped call. `Wrapped.helpers` lists the
errors of those that are made, in order, and `messages` what is printed; `wrapper_effect` says that
this is all that the program sees of a wrapper.
-/

namespace CacheTrace.Interpose

open Log

/-- What the program and the library share. -/
structure World where
  errno : Int
  stdout : Text
  log : Text
  /-- `sem_open` has succeeded. -/
  mysemp : Bool
  /-- The number of calls of `sem_wait` without an open semaphore. -/
  strayWaits : Nat
  deriving DecidableEq

abbrev Lib := StateM World

/-- The cases of `st.st_mode & S_IFMT`. -/
inductive FileMode where
  | blk
  | chr
  | dir
  | fifo
  | lnk
  | reg
  | sock
  | unknown
  deriving DecidableEq

/-- The process, and the results of the library calls: a failed one has an error number. -/
structure Env where
  pid : Int
  /-- `fileno(stream)`, which fails for a stream without a descriptor. -/
  fileno : Except Int Int
  fstat : Except Int FileMode
  /-- `lseek(fd, 0, SEEK_CUR)` or `ftell(stream)`. -/
  pos : Except Int Nat
  semWait : Except Int Unit
  fopen : Except Int Unit
  semPost : Except Int Unit

/-- A library call that succeeds leaves `errno` alone. -/
def libcall {α : Type} : Except Int α → Lib (Option α)
  | .ok a => pure (some a)
  | .error e => do
    modify fun w => { w with errno := e }
    return none

def printf (text : Text) : Lib Unit := modify fun w => { w with stdout := w.stdout ++ text }

def openFailedText : Text := "Unable to open file\n".toList

/-- `"fd:%d unknown?\n"`. -/
def unknownText (fd : Int) : Text := "fd:".toList ++ Text.showInt fd ++ " unknown?\n".toList

section Code

variable (env : Env)

/-- The constructor `con`. -/
def con (strerror : Int → Text) (semOpen : Except Int Unit) : Lib Bool := do
  match ← libcall semOpen with
  | some _ =>
    modify fun w => { w with mysemp := true }
    return true
  | none =>
    modify fun w => { w with mysemp := false }
    printf ("sem_open() failed ".toList ++ strerror (← get).errno ++ ['\n'])
    return false

/-- `reg_fd`, with the message of its default case. -/
def regularFd (fd : Int) : Lib Bool := do
  if fd ≤ 2 then return false
  match ← libcall env.fstat with
  | some .reg => return true
  | some .unknown =>
    printf (unknownText fd)
    return false
  | _ => return false

/-- A failed `fileno` returns `-1`. -/
def fileno : Lib Int := return (← libcall env.fileno).getD (-1)

/-- `reg_file` -/
def regularFile : Lib Bool := do regularFd env (← fileno env)

def getSem : Lib Bool := do
  modify fun w => if w.mysemp then w else { w with strayWaits := w.strayWaits + 1 }
  return (← libcall env.semWait).isSome

/-- After a failed `sem_post` the function ends without a value. No caller looks at it. -/
def postSem : Lib (Option Bool) := return (← libcall env.semPost).map fun _ => true

def appendLog (r : Record) : Lib Bool := do
  let fp ← libcall env.fopen
  modify fun w => { w with
    log := (writeLog fp.isSome w.log r).log
    stdout := w.stdout ++ (writeLog fp.isSome w.log r).stdout }
  return (writeLog fp.isSome [] r).failed

/-- `handle_read` and `handle_write`, after the sanitization check. -/
def handle : Option Record → Lib Bool
  | none => return false
  | some r => do
    let _ ← getSem env
    let _ ← appendLog env r
    let _ ← postSem env
    return true

/-- The real call: its value, and `errno` as it leaves it. -/
structure Real where
  value : Int
  errno : Int

def Real.call (real : Real) : Lib Int := do
  modify fun w => { w with errno := real.errno }
  return real.value

/-- The body of the wrappers, with the descriptor and the test for a regular file. A failed
`lseek` or `ftell` returns `-1`. -/
def wrapper (descriptor : Lib Int) (regular : Lib Bool) (handler : Int → Int → Option Record)
    (real : Real) : Lib Int := do
  let amount ← real.call
  let fd ← descriptor
  if ← regular then
    let pos ← libcall env.pos
    let _ ← handle env (handler fd (pos.elim (-1) fun p => p))
  return amount

def read (fd : Int) (size : Nat) : Real → Lib Int :=
  wrapper env (return fd) (regularFd env fd) fun fd pos => handleRead env.pid fd pos size

def write (fd : Int) (size : Nat) : Real → Lib Int :=
  wrapper env (return fd) (regularFd env fd) fun fd pos => handleWrite env.pid fd pos size

def fread (size nmemb : Nat) : Real → Lib Int :=
  wrapper env (fileno env) (regularFile env) fun fd pos =>
    handleRead env.pid fd pos (streamBytes size nmemb)

def fwrite (size nmemb : Nat) : Real → Lib Int :=
  wrapper env (fileno env) (regularFile env) fun fd pos =>
    handleWrite env.pid fd pos (streamBytes size nmemb)

end Code

/-- A call of one of the four functions. -/
inductive Wrapped where
  | read (fd : Int) (size : Nat)
  | write (fd : Int) (size : Nat)
  | fread (size nmemb : Nat)
  | fwrite (size nmemb : Nat)

def Wrapped.run (env : Env) : Wrapped → Real → Lib Int
  | .read fd size => Interpose.read env fd size
  | .write fd size => Interpose.write env fd size
  | .fread size nmemb => Interpose.fread env size nmemb
  | .fwrite size nmemb => Interpose.fwrite env size nmemb

def Wrapped.type : Wrapped → AccessType
  | .read _ _ | .fread _ _ => .read
  | .write _ _ | .fwrite _ _ => .write

/-- The bytes that the handler gets. -/
def Wrapped.bytes : Wrapped → Nat
  | .read _ size | .write _ size => size
  | .fread size nmemb | .fwrite size nmemb => streamBytes size nmemb

/-- The descriptor that the handler gets. -/
def Wrapped.fd (env : Env) : Wrapped → Int
  | .read fd _ | .write fd _ => fd
  | .fread _ _ | .fwrite _ _ => env.fileno.toOption.getD (-1)

/-! ## The errors and messages of a call -/

/-- The error of a library call. -/
def errorOf {α : Type} : Except Int α → Option Int
  | .ok _ => none
  | .error e => some e

/-- `errno` after library calls with these errors. -/
def lastError (errno : Int) (errors : List (Option Int)) : Int :=
  errors.foldl (fun errno e => e.getD errno) errno

/-- Calls without errors leave `errno` alone. -/
theorem lastError_of_none {errors : List (Option Int)} (h : ∀ e ∈ errors, e = none) (errno : Int) :
    lastError errno errors = errno := by
  induction errors with
  | nil => rfl
  | cons e errors ih =>
    obtain ⟨rfl, hrest⟩ := List.forall_mem_cons.mp h
    exact ih hrest

theorem lastError_append (errno : Int) (errors errors' : List (Option Int)) :
    lastError errno (errors ++ errors') = lastError (lastError errno errors) errors' :=
  List.foldl_append

section Spec

variable (env : Env) (fd : Int)

/-- `reg_fd` returns true. -/
def Regular : Prop := 2 < fd ∧ env.fstat = .ok .reg

instance : Decidable (Regular env fd) := inferInstanceAs (Decidable (_ ∧ _))

/-- The call gets past the sanitization check. -/
def Logs (bytes : Nat) : Prop := Regular env fd ∧ errorOf env.pos = none ∧ 0 < bytes

instance (bytes : Nat) : Decidable (Logs env fd bytes) := inferInstanceAs (Decidable (_ ∧ _))

/-- The library calls of a wrapper on a descriptor by their errors, in order. -/
def helpers (bytes : Nat) : List (Option Int) :=
  (if 2 < fd then [errorOf env.fstat] else []) ++
    (if Regular env fd then [errorOf env.pos] else []) ++
    if Logs env fd bytes then [errorOf env.semWait, errorOf env.fopen, errorOf env.semPost] else []

/-- The calls of `fileno`: one by the wrapper, and one by `reg_file`. -/
def Wrapped.filenos : Wrapped → List (Option Int)
  | .read _ _ | .write _ _ => []
  | .fread _ _ | .fwrite _ _ => [errorOf env.fileno, errorOf env.fileno]

/-- The library calls of a wrapper. -/
def Wrapped.helpers (c : Wrapped) : List (Option Int) :=
  c.filenos env ++ Interpose.helpers env (c.fd env) c.bytes

/-- What `reg_fd` prints. -/
def unknownMessage : Text :=
  if 2 < fd ∧ env.fstat = .ok .unknown then unknownText fd else []

/-- What a wrapper prints. -/
def messages (bytes : Nat) : Text :=
  unknownMessage env fd ++
    if Logs env fd bytes ∧ errorOf env.fopen ≠ none then openFailedText else []

end Spec

/-! ## The functions -/

theorem bind_run {α β : Type} (m : Lib α) (f : α → Lib β) (w : World) :
    (m >>= f) w = f (m w).1 (m w).2 := rfl

section Functions

variable (env : Env)

theorem libcall_run {α : Type} (r : Except Int α) (w : World) :
    libcall r w = (r.toOption, { w with errno := lastError w.errno [errorOf r] }) := by
  cases r with
  | ok a => rfl
  | error e => rfl

theorem getSem_run (w : World) :
    (getSem env w).2 = { w with
      errno := lastError w.errno [errorOf env.semWait]
      strayWaits := w.strayWaits + if w.mysemp = false then 1 else 0 } := by
  have hwait : (getSem env w).2 = (libcall env.semWait
      (if w.mysemp then w else { w with strayWaits := w.strayWaits + 1 })).2 := rfl
  rw [hwait, libcall_run]
  cases h : w.mysemp with
  | true => simp [h]
  | false => simp

theorem appendLog_run (r : Record) (w : World) :
    (appendLog env r w).2 = { w with
      errno := lastError w.errno [errorOf env.fopen]
      log := (writeLog (errorOf env.fopen).isNone w.log r).log
      stdout := w.stdout ++
        if errorOf env.fopen ≠ none then openFailedText else [] } := by
  unfold appendLog
  cases env.fopen with
  | ok a => rfl
  | error e => rfl

theorem postSem_run (w : World) :
    (postSem env w).2 = { w with errno := lastError w.errno [errorOf env.semPost] } := by
  have hpost : (postSem env w).2 = (libcall env.semPost w).2 := rfl
  rw [hpost, libcall_run]

theorem handle_run (r : Record) (w : World) :
    (handle env (some r) w).2 = { w with
      errno := lastError w.errno [errorOf env.semWait, errorOf env.fopen, errorOf env.semPost]
      stdout := w.stdout ++
        if errorOf env.fopen ≠ none then openFailedText else []
      log := (writeLog (errorOf env.fopen).isNone w.log r).log
      strayWaits := w.strayWaits + if w.mysemp = false then 1 else 0 } := by
  have hseq : (handle env (some r) w).2 =
      (postSem env (appendLog env r (getSem env w).2).2).2 := rfl
  rw [hseq, getSem_run, appendLog_run, postSem_run]
  rfl

theorem regularFd_run (fd : Int) (w : World) :
    regularFd env fd w = (decide (Regular env fd), { w with
      errno := lastError w.errno (if 2 < fd then [errorOf env.fstat] else [])
      stdout := w.stdout ++ unknownMessage env fd }) := by
  obtain ⟨pid, fileno, fstat, pos, semWait, fopen, semPost⟩ := env
  unfold regularFd Regular unknownMessage
  by_cases hfd : 2 < fd
  · rw [if_neg (by omega)]
    simp only [hfd, true_and, if_true]
    cases fstat with
    | error e => simp [libcall, lastError, errorOf]; rfl
    | ok mode => cases mode <;> simp [libcall, printf, lastError, errorOf] <;> rfl
  · rw [if_pos (by omega)]
    simp only [hfd, false_and, if_false, decide_false, List.append_nil]
    rfl

/-- A failed `lseek` or `ftell` returns a negative position. -/
theorem position_neg_iff (r : Except Int Nat) :
    (r.toOption.elim (-1) fun p => (p : Int)) < 0 ↔ errorOf r ≠ none := by
  cases r with
  | error e => simp [Except.toOption, errorOf]
  | ok p => simp [Except.toOption, errorOf]

/-- The sanitization check leaves the calls that log. -/
theorem handleAccess_isSome (type : AccessType) {fd : Int} {bytes : Nat} (hreg : Regular env fd) :
    (handleAccess type env.pid fd (env.pos.toOption.elim (-1) fun p => (p : Int)) bytes).isSome ↔
      Logs env fd bytes := by
  have hfd := hreg.1
  have hpos := position_neg_iff env.pos
  unfold handleAccess Logs
  split_ifs with h
  · rw [hpos] at h
    simp only [Option.isSome_none, Bool.false_eq_true, false_iff, not_and, hreg, true_implies]
    intro hnone
    rcases h with h | h | h
    · exact absurd hnone h
    · omega
    · omega
  · simp only [not_or, hpos, ne_eq, not_not] at h
    simp only [Option.isSome_some, true_iff]
    exact ⟨hreg, h.1, by omega⟩

/-- What follows the check of the descriptor. -/
def afterCheck (handler : Int → Option Record) (regular : Bool) (amount : Int) :
    Lib Int := do
  if regular then
    let pos ← libcall env.pos
    let _ ← handle env (handler (pos.elim (-1) fun p => p))
  return amount

theorem fileno_run (w : World) :
    fileno env w = (env.fileno.toOption.getD (-1),
      { w with errno := lastError w.errno [errorOf env.fileno] }) := by
  have hcall : fileno env w = ((libcall env.fileno w).1.getD (-1), (libcall env.fileno w).2) := rfl
  rw [hcall, libcall_run]

/-- A call after the real one and the calls of `fileno`. -/
theorem Wrapped.run_eq (c : Wrapped) (real : Real) (w : World) :
    c.run env real w =
      (regularFd env (c.fd env) >>= fun regular => afterCheck env
        (fun pos => handleAccess c.type env.pid (c.fd env) pos c.bytes) regular real.value)
        { w with errno := lastError real.errno (c.filenos env) } := by
  cases c with
  | read fd size => rfl
  | write fd size => rfl
  | fread size nmemb =>
    have hstream : (Wrapped.fread size nmemb).run env real w =
        (regularFd env (fileno env (fileno env { w with errno := real.errno }).2).1 >>=
          fun regular => afterCheck env (fun pos => handleAccess .read env.pid
            (fileno env { w with errno := real.errno }).1 pos (streamBytes size nmemb)) regular
            real.value) (fileno env (fileno env { w with errno := real.errno }).2).2 := rfl
    rw [hstream, fileno_run, fileno_run]
    rfl
  | fwrite size nmemb =>
    have hstream : (Wrapped.fwrite size nmemb).run env real w =
        (regularFd env (fileno env (fileno env { w with errno := real.errno }).2).1 >>=
          fun regular => afterCheck env (fun pos => handleAccess .write env.pid
            (fileno env { w with errno := real.errno }).1 pos (streamBytes size nmemb)) regular
            real.value) (fileno env (fileno env { w with errno := real.errno }).2).2 := rfl
    rw [hstream, fileno_run, fileno_run]
    rfl

/-- A wrapper on anything else than a regular file. -/
theorem checked_of_not_regular {fd : Int} (hreg : ¬ Regular env fd) (handler : Int → Option Record)
    (amount : Int) (w : World) :
    (regularFd env fd >>= fun regular => afterCheck env handler regular amount) w =
      (amount, { w with
        errno := lastError w.errno (if 2 < fd then [errorOf env.fstat] else [])
        stdout := w.stdout ++ unknownMessage env fd }) := by
  rw [bind_run, regularFd_run, decide_eq_false hreg]
  rfl

/-- A wrapper on a regular file. -/
theorem checked_of_regular {fd : Int} (hreg : Regular env fd) (handler : Int → Option Record)
    (amount : Int) (w : World) :
    (regularFd env fd >>= fun regular => afterCheck env handler regular amount) w =
      (amount, (handle env (handler (env.pos.toOption.elim (-1) fun p => (p : Int))) { w with
        errno := lastError w.errno [errorOf env.fstat, errorOf env.pos]
        stdout := w.stdout ++ unknownMessage env fd }).2) := by
  have hrun : ∀ w', afterCheck env handler true amount w' =
      (amount, (handle env (handler ((libcall env.pos w').1.elim (-1) fun p => p))
        (libcall env.pos w').2).2) := fun _ => rfl
  rw [bind_run, regularFd_run, decide_eq_true hreg, hrun, libcall_run, if_pos hreg.1]
  rfl

theorem checked_run (type : AccessType) (fd : Int) (bytes : Nat) (amount : Int) (w : World) :
    ∃ log, (regularFd env fd >>= fun regular => afterCheck env
        (fun pos => handleAccess type env.pid fd pos bytes) regular amount) w =
      (amount, { w with
        errno := lastError w.errno (helpers env fd bytes)
        stdout := w.stdout ++ messages env fd bytes
        log := log
        strayWaits := w.strayWaits + if Logs env fd bytes ∧ w.mysemp = false then 1 else 0 }) := by
  by_cases hlogs : Logs env fd bytes
  · obtain ⟨r, hr⟩ := Option.isSome_iff_exists.mp
      ((handleAccess_isSome env type hlogs.1).mpr hlogs)
    refine ⟨(writeLog (errorOf env.fopen).isNone w.log r).log, ?_⟩
    rw [checked_of_regular env hlogs.1, hr, handle_run]
    simp only [helpers, messages, if_pos hlogs.1.1, if_pos hlogs.1, hlogs, true_and, if_true,
      List.append_assoc]
    rfl
  · refine ⟨w.log, ?_⟩
    by_cases hreg : Regular env fd
    · have hnone : handleAccess type env.pid fd
          (env.pos.toOption.elim (-1) fun p => (p : Int)) bytes = none := by
        rw [← Option.not_isSome_iff_eq_none, handleAccess_isSome env type hreg]
        exact hlogs
      rw [checked_of_regular env hreg, hnone]
      simp only [helpers, messages, if_pos hreg.1, if_pos hreg, hlogs, false_and,
        if_false, List.append_nil, Nat.add_zero]
      rfl
    · rw [checked_of_not_regular env hreg]
      simp only [helpers, messages, if_neg hreg, hlogs, false_and, if_false, List.append_nil,
        Nat.add_zero]

end Functions

theorem messages_eq_nil (env : Env) (fd : Int) (bytes : Nat) :
    messages env fd bytes = [] ↔ ¬ (2 < fd ∧ env.fstat = .ok .unknown) ∧
      ¬ (Logs env fd bytes ∧ errorOf env.fopen ≠ none) := by
  have hunknown : unknownText fd ≠ [] := by
    intro h
    exact absurd (List.append_eq_nil_iff.mp h).2 (by decide)
  have hopen : openFailedText ≠ [] := by decide
  unfold messages unknownMessage
  rw [List.append_eq_nil_iff, ite_eq_right_iff, ite_eq_right_iff]
  simp only [hunknown, hopen, imp_false]

/-- The world before the constructor. -/
def World.start : World := ⟨0, [], [], false, 0⟩

/-- A process 1 in which every library call succeeds. -/
def Env.fine : Env := ⟨1, .ok 3, .ok .reg, .ok 5, .ok (), .ok (), .ok ()⟩

end CacheTrace.Interpose
