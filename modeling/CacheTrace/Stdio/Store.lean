import CacheTrace.Stdio.Program
import CacheTrace.Transition.Run

/-!
# Processes that keep arrays in files

Every process has a file, which may be the file of others too, and calls that read or write the
array under a key. The calls of different processes are interleaved operation by operation.

A `Contract` says where the arrays are: every process has a region of its file for every key,
no two regions overlap, a write fills its region and a read takes its region apart. It is a
contract about one program at a time. `Contract.invariant` is what follows from it for the
whole system: a region holds what was last written to it, unless the write is still going on,
and a read that succeeds has put this into its buffer.
-/

namespace CacheTrace.Stdio

open Transition

/-! ## Programs that only read, and programs that only write one region -/

namespace Prog

variable {ε α β : Type}

/-- The program writes nothing, and what it returns satisfies `P`. -/
inductive Reads (P : α → Prop) : Prog ε α → Prop
  | ret {a : α} : P a → Reads P (.ret a)
  | abort {e : ε} : Reads P (.abort e)
  | fseek {w : Whence} {off : Int} {k : Bool → Prog ε α} :
      (∀ b, Reads P (k b)) → Reads P (.fseek w off k)
  | fread {dest : Int} {n : Nat} {k : Nat → Prog ε α} :
      (∀ a, Reads P (k a)) → Reads P (.fread dest n k)

theorem Reads.bind {P : α → Prop} {Q : β → Prop} {c : Prog ε α} {f : α → Prog ε β}
    (h : c.Reads P) (hf : ∀ a, P a → (f a).Reads Q) : (c >>= f).Reads Q := by
  induction h with
  | ret ha => exact hf _ ha
  | abort => exact .abort
  | fseek _ ih => exact .fseek ih
  | fread _ ih => exact .fread ih

theorem Reads.mono {P Q : α → Prop} {c : Prog ε α} (h : c.Reads P) (hPQ : ∀ a, P a → Q a) :
    c.Reads Q := by
  induction h with
  | ret ha => exact .ret (hPQ _ ha)
  | abort => exact .abort
  | fseek _ ih => exact .fseek ih
  | fread _ ih => exact .fread ih

theorem reads_fseek (w : Whence) (off : Int) :
    (Stdio.fseek w off : Prog ε Bool).Reads fun _ => True :=
  .fseek fun _ => .ret trivial

theorem reads_fread (dest : Int) (n : Nat) :
    (Stdio.fread dest n : Prog ε Nat).Reads fun _ => True :=
  .fread fun _ => .ret trivial

theorem reads_check (e : ε) (ok : Bool) : (check e ok).Reads fun _ => True := by
  cases ok with
  | true => exact .ret trivial
  | false => exact .abort

theorem reads_foldlM {body : α → β → Prog ε α} (h : ∀ a b, (body a b).Reads fun _ => True)
    (bs : List β) (a : α) : (bs.foldlM body a).Reads fun _ => True := by
  induction bs generalizing a with
  | nil => exact .ret trivial
  | cons b bs ih => exact (h a b).bind fun a' _ => ih a'

theorem Reads.step {P : α → Prop} {c c' : Prog ε α} {f f' : File} {s s' : Cursor} {m : Nat}
    (h : c.Reads P) (hstep : c.step m f s = (c', f', s')) : f' = f ∧ c'.Reads P := by
  cases h with
  | ret ha =>
    cases hstep
    exact ⟨rfl, .ret ha⟩
  | abort =>
    cases hstep
    exact ⟨rfl, .abort⟩
  | @fseek w off k hk =>
    cases hseek : w.seek s.pos off with
    | some pos =>
      simp only [Prog.step, hseek] at hstep
      cases hstep
      exact ⟨rfl, hk true⟩
    | none =>
      simp only [Prog.step, hseek] at hstep
      cases hstep
      exact ⟨rfl, hk false⟩
  | fread hk =>
    cases hstep
    exact ⟨rfl, hk _⟩

/-- The program writes the bytes `bs` at `lo` and has written `done` of them; what it returns
satisfies `P`. The last argument is the position of its stream. -/
inductive Writing (lo : Nat) (bs : List UInt8) (P : α → Prop) : List UInt8 → Prog ε α → Nat → Prop
  | seek {k : Bool → Prog ε α} {pos : Nat} :
      Writing lo bs P [] (k true) lo → Writing lo bs P [] (.fseek .set lo k) pos
  | write {done rest : List UInt8} {n pos : Nat} {k : Nat → Prog ε α} :
      done ++ rest = bs → pos = lo + done.length → (∀ pos', Writing lo bs P bs (k n) pos') →
      Writing lo bs P done (.fwrite rest n k) pos
  | ret {a : α} {pos : Nat} : P a → Writing lo bs P bs (.ret a) pos

theorem Writing.length_le {lo : Nat} {bs done : List UInt8} {P : α → Prop} {c : Prog ε α}
    {pos : Nat} (h : Writing lo bs P done c pos) : done.length ≤ bs.length := by
  cases h with
  | seek => exact Nat.zero_le _
  | write happ =>
    rw [← happ, List.length_append]
    exact Nat.le_add_right _ _
  | ret => exact le_rfl

/-- One operation of a write extends what stands in the region, and changes nothing outside. -/
theorem Writing.step {lo : Nat} {bs done : List UInt8} {P : α → Prop} {c c' : Prog ε α}
    {f f' : File} {s s' : Cursor} {m : Nat} (h : Writing lo bs P done c s.pos)
    (hheld : Holds f lo done) (hstep : c.step m f s = (c', f', s')) :
    (∃ done', Writing lo bs P done' c' s'.pos ∧ Holds f' lo done') ∧
      ∀ lo' bs', lo' + bs'.length ≤ lo ∨ lo + bs.length ≤ lo' → Holds f lo' bs' →
        Holds f' lo' bs' := by
  generalize hpos : s.pos = pos at h
  cases h with
  | @seek k _ hk =>
    simp only [Prog.step, Whence.seek, Int.natCast_nonneg, if_true, Int.toNat_natCast] at hstep
    cases hstep
    exact ⟨⟨[], hk, hheld⟩, fun _ _ _ h => h⟩
  | @write _ rest n _ k happ hat hk =>
    cases rest with
    | nil =>
      rw [List.append_nil] at happ
      cases hstep
      exact ⟨⟨bs, hk _, happ ▸ hheld⟩, fun _ _ _ h => h⟩
    | cons b rest =>
      -- one more piece of the bytes reaches the file
      cases hstep
      have hsplit : (done ++ (b :: rest).take m) ++ (b :: rest).drop m = bs := by
        rw [List.append_assoc, List.take_append_drop, happ]
      have hlength : done.length + ((b :: rest).take m).length ≤ bs.length := by
        rw [← hsplit, List.length_append, List.length_append]
        exact Nat.le_add_right _ _
      have hhere : s.pos = lo + done.length := hpos.trans hat
      refine ⟨⟨done ++ (b :: rest).take m, .write hsplit ?_ hk, ?_⟩, ?_⟩
      · rw [hhere, List.length_append, Nat.add_assoc]
      · rw [hhere]
        exact holds_append.mpr ⟨hheld.write (Or.inl le_rfl), holds_write _ _ _⟩
      · intro lo' bs' hout h
        exact h.write (by omega)
  | ret ha =>
    cases hstep
    exact ⟨⟨bs, .ret ha, hheld⟩, fun _ _ _ h => h⟩

end Prog

/-! ## The system -/

inductive Call (κ : Type) where
  | read (key : κ)
  | write (key : κ) (xs : List Double)

/-- A call that is going on: what is left of its program, and what it has stored. -/
structure Running (κ ε σ : Type) where
  call : Call κ
  rest : Prog ε σ
  stores : List (Int × Double)

/-- A process has a state that its calls read and replace, and a position in its file. -/
structure Proc (κ ε σ : Type) where
  state : σ
  pos : Nat
  running : Option (Running κ ε σ)

structure System (κ ε σ : Type) where
  proc : Nat → Proc κ ε σ
  file : Nat → File

inductive Event (κ : Type) where
  | call (i : Nat) (c : Call κ)
  /-- One operation of process `i`, a write of at most `m` bytes. -/
  | step (i m : Nat)
  | ret (i : Nat)

/-- The programs of the calls, and the file of every process. -/
structure Client (κ ε σ : Type) where
  prog : Nat → σ → Call κ → Prog ε σ
  file : Nat → Nat

variable {κ ε σ : Type}

/-- The key that a call writes. -/
def Call.writes : Call κ → Option κ
  | .read _ => none
  | .write k _ => some k

/-- The key that a process is writing. -/
def Proc.writes (p : Proc κ ε σ) : Option κ := p.running.bind fun r => r.call.writes

/-- A read that has succeeded: its key, what it returns and what it has stored. -/
def Proc.readDone (p : Proc κ ε σ) : Option (κ × σ × List (Int × Double)) :=
  match p.running with
  | some ⟨.read k, .ret a, stores⟩ => some (k, a, stores)
  | _ => none

namespace System

variable (s : System κ ε σ)

def setProc (i : Nat) (p : Proc κ ε σ) : System κ ε σ :=
  { s with proc := Function.update s.proc i p }

def setFile (n : Nat) (f : File) : System κ ε σ := { s with file := Function.update s.file n f }

@[simp] theorem setProc_proc_self (i : Nat) (p : Proc κ ε σ) : (s.setProc i p).proc i = p :=
  Function.update_self _ _ _

theorem setProc_proc_of_ne {i i' : Nat} (h : i' ≠ i) (p : Proc κ ε σ) :
    (s.setProc i p).proc i' = s.proc i' := Function.update_of_ne h _ _

@[simp] theorem setProc_file (i : Nat) (p : Proc κ ε σ) : (s.setProc i p).file = s.file := rfl

@[simp] theorem setFile_proc (n : Nat) (f : File) : (s.setFile n f).proc = s.proc := rfl

@[simp] theorem setFile_file_self (n : Nat) (f : File) : (s.setFile n f).file n = f :=
  Function.update_self _ _ _

theorem setFile_file_of_ne {n n' : Nat} (h : n' ≠ n) (f : File) :
    (s.setFile n f).file n' = s.file n' := Function.update_of_ne h _ _

theorem setFile_eq_self (n : Nat) : s.setFile n (s.file n) = s := by
  simp [setFile]

end System

/-- A process whose program has aborted stays there. -/
def Client.step (P : Client κ ε σ) (s : System κ ε σ) : Event κ → Option (System κ ε σ)
  | .call i c => match s.proc i with
    | ⟨a, pos, none⟩ => some (s.setProc i ⟨a, pos, some ⟨c, P.prog i a c, []⟩⟩)
    | _ => none
  | .step i m => match s.proc i with
    | ⟨a, pos, some ⟨c, rest, stores⟩⟩ =>
      let (rest', f', cursor) := rest.step m (s.file (P.file i)) ⟨pos, stores⟩
      some ((s.setProc i ⟨a, cursor.pos, some ⟨c, rest', cursor.stores⟩⟩).setFile (P.file i) f')
    | _ => none
  | .ret i => match s.proc i with
    | ⟨_, pos, some ⟨_, .ret a, _⟩⟩ => some (s.setProc i ⟨a, pos, none⟩)
    | _ => none

/-- What an event writes under a key of a process. -/
def Event.written [DecidableEq κ] (i : Nat) (k : κ) : Event κ → Option (List Double)
  | .call i' (.write k' xs) => if i' = i ∧ k' = k then some xs else none
  | _ => none

/-- The array that process `i` was last called to write under the key. -/
def lastWrite [DecidableEq κ] (es : List (Event κ)) (i : Nat) (k : κ) : Option (List Double) :=
  (es.filterMap (Event.written i k)).getLast?

theorem lastWrite_concat [DecidableEq κ] (es : List (Event κ)) (e : Event κ) (i : Nat) (k : κ) :
    lastWrite (es ++ [e]) i k = (e.written i k).or (lastWrite es i k) := by
  rw [lastWrite, List.filterMap_append, List.getLast?_append]
  cases h : e.written i k with
  | none => simp [h, lastWrite]
  | some xs => simp [h]

theorem lastWrite_call_of_ne [DecidableEq κ] (es : List (Event κ)) {i i' : Nat} (hne : i ≠ i')
    (c : Call κ) : lastWrite (es ++ [.call i c]) i' = lastWrite es i' := by
  funext k
  rw [lastWrite_concat]
  cases c with
  | read k' => rfl
  | write k' xs => simp [Event.written, hne]

/-- Only calls write. -/
theorem lastWrite_of_not_call [DecidableEq κ] (es : List (Event κ)) {e : Event κ}
    (he : ∀ i k, e.written i k = none) : lastWrite (es ++ [e]) = lastWrite es := by
  funext i k
  rw [lastWrite_concat, he]
  rfl

/-! ## The contract -/

/-- The arrays of a client, and what its programs do with them. -/
structure Contract (P : Client κ ε σ) where
  Key : Nat → κ → Prop
  lo : Nat → κ → Nat
  len : Nat → κ → Nat
  Good : Nat → σ → Prop
  disjoint {i i' : Nat} {k k' : κ} : Key i k → Key i' k' → (i, k) ≠ (i', k') →
    P.file i = P.file i' → lo i k + 8 * len i k ≤ lo i' k' ∨ lo i' k' + 8 * len i' k' ≤ lo i k
  reads {i : Nat} {k : κ} {a : σ} : Key i k → Good i a → (P.prog i a (.read k)).Reads (Good i)
  read {i : Nat} {k : κ} {a : σ} {xs : List Double} : Key i k → Good i a → xs.length = len i k →
    ∀ pos, ∃ o s', (P.prog i a (.read k)).eval (region (lo i k) xs) ⟨pos, []⟩ = some (o, s') ∧
      ∀ a', o = .ok a' → Fills s'.stores xs (len i k)
  write {i : Nat} {k : κ} {a : σ} {xs : List Double} : Key i k → Good i a → xs.length = len i k →
    ∀ pos, (P.prog i a (.write k xs)).Writing (lo i k) (bytes xs) (Good i) [] pos

namespace Contract

variable {P : Client κ ε σ} (C : Contract P)

/-- A call of the array under a key. -/
def Callable (i : Nat) : Call κ → Prop
  | .read k => C.Key i k
  | .write k xs => C.Key i k ∧ xs.length = C.len i k

/-- The calls of a run are calls of the arrays. -/
def Allowed : Event κ → Prop
  | .call i c => C.Callable i c
  | _ => True

/-- Where a call stands, when `last` was written before and `f` is the file. -/
def Stage (last : κ → Option (List Double)) (f : File) (i pos : Nat) (r : Running κ ε σ) : Prop :=
  match r.call with
  | .read k => C.Key i k ∧ r.rest.Reads (C.Good i) ∧
      ∀ xs, last k = some xs → ∃ o s', r.rest.eval (region (C.lo i k) xs) ⟨pos, r.stores⟩ =
        some (o, s') ∧ ∀ a, o = .ok a → Fills s'.stores xs (C.len i k)
  | .write k xs => C.Key i k ∧ xs.length = C.len i k ∧ last k = some xs ∧
      ∃ done, r.rest.Writing (C.lo i k) (bytes xs) (C.Good i) done pos ∧ Holds f (C.lo i k) done

/-- An array that was written stands in its region, unless this is still going on. -/
structure Kept (s : System κ ε σ) (i : Nat) (k : κ) (xs : List Double) : Prop where
  key : C.Key i k
  length : xs.length = C.len i k
  held : (s.proc i).writes ≠ some k → Holds (s.file (P.file i)) (C.lo i k) (bytes xs)

/-- What holds of the system when `last` was written last. -/
structure Invariant (last : Nat → κ → Option (List Double)) (s : System κ ε σ) : Prop where
  good : ∀ i, C.Good i (s.proc i).state
  kept : ∀ i k xs, last i k = some xs → C.Kept s i k xs
  stage : ∀ i r, (s.proc i).running = some r →
    C.Stage (last i) (s.file (P.file i)) i (s.proc i).pos r

/-! ## One operation -/

section Operation

variable {C} {last : κ → Option (List Double)} {f f' : File} {i pos : Nat}

/-- What stands in the regions that an operation of the call `c` of process `i` does not write
stays. -/
def Frame (C : Contract P) (f f' : File) (i : Nat) (c : Call κ) : Prop :=
  ∀ i' k bs, C.Key i' k → (i' = i → c.writes ≠ some k) → P.file i' = P.file i →
    bs.length ≤ 8 * C.len i' k → Holds f (C.lo i' k) bs → Holds f' (C.lo i' k) bs

theorem Stage.step {c : Call κ} {rest rest' : Prog ε σ} {stores : List (Int × Double)} {m : Nat}
    {cursor : Cursor} (h : C.Stage last f i pos ⟨c, rest, stores⟩)
    (hheld : ∀ k xs, last k = some xs → c.writes ≠ some k → Holds f (C.lo i k) (bytes xs))
    (hstep : rest.step m f ⟨pos, stores⟩ = (rest', f', cursor)) :
    C.Stage last f' i cursor.pos ⟨c, rest', cursor.stores⟩ ∧ C.Frame f f' i c := by
  cases c with
  | read k =>
    obtain ⟨hkey, hreads, heval⟩ := h
    obtain ⟨rfl, hreads'⟩ := hreads.step hstep
    refine ⟨⟨hkey, hreads', fun xs hlast => ?_⟩, fun _ _ _ _ _ _ _ h => h⟩
    obtain ⟨o, s', ho, hfills⟩ := heval xs hlast
    have hview := (hheld k xs hlast (by simp [Call.writes])).region
    exact ⟨o, s', (Prog.eval_step hview ho hstep).2, hfills⟩
  | write k xs =>
    obtain ⟨hkey, hlength, hlast, done, hwriting, hdone⟩ := h
    obtain ⟨hnext, hout⟩ := Prog.Writing.step (s := ⟨pos, stores⟩) hwriting hdone hstep
    refine ⟨⟨hkey, hlength, hlast, hnext⟩, fun i' k' bs hkey' hne hfile hbs h => ?_⟩
    have hne' : (i', k') ≠ (i, k) := by
      rintro ⟨⟩
      exact hne rfl rfl
    have hdisj := C.disjoint hkey' hkey hne' hfile
    refine hout _ bs ?_ h
    rw [length_bytes, hlength]
    omega

/-- An operation of another process does not disturb a call. -/
theorem Stage.frame {r : Running κ ε σ} {i' : Nat} {c : Call κ} (h : C.Stage last f i' pos r)
    (hframe : C.Frame f f' i c) (hne : i' ≠ i) (hfile : P.file i' = P.file i) :
    C.Stage last f' i' pos r := by
  obtain ⟨call, rest, stores⟩ := r
  cases call with
  | read k => exact h
  | write k xs =>
    obtain ⟨hkey, hlength, hlast, done, hwriting, hdone⟩ := h
    refine ⟨hkey, hlength, hlast, done, hwriting, ?_⟩
    have hle := hwriting.length_le
    rw [length_bytes, hlength] at hle
    exact hframe i' k done hkey (fun h => absurd h hne) hfile hle hdone

/-- A call that has returned has done what it should. -/
theorem Stage.ret {last : κ → Option (List Double)} {f : File} {pos : Nat} {c : Call κ} {a : σ}
    {stores : List (Int × Double)} (h : C.Stage last f i pos ⟨c, .ret a, stores⟩) :
    C.Good i a ∧ ∀ k xs, last k = some xs →
      (c.writes = some k → Holds f (C.lo i k) (bytes xs)) := by
  cases c with
  | read k =>
    obtain ⟨-, hreads, -⟩ := h
    cases hreads with
    | ret ha => exact ⟨ha, fun _ _ _ hw => by cases hw⟩
  | write k xs =>
    obtain ⟨-, -, hlast, done, hwriting, hdone⟩ := h
    cases hwriting with
    | ret ha =>
      refine ⟨ha, fun k' ys hlast' hw => ?_⟩
      cases hw
      rw [hlast] at hlast'
      cases hlast'
      exact hdone

end Operation

/-! ## Steps of the system -/

section Steps

variable {C} {last last' : Nat → κ → Option (List Double)} {s s' : System κ ε σ} {i : Nat}

/-- A step concerns one process: it changes the process and its file, and what it does to the
others is the frame. -/
theorem Invariant.update (h : C.Invariant last s) {p : Proc κ ε σ} {f' : File} {c : Call κ}
    (hothers : ∀ i' ≠ i, last' i' = last i') (hframe : C.Frame (s.file (P.file i)) f' i c)
    (hgood : C.Good i p.state)
    (hkept : ∀ k xs, last' i k = some xs → C.Key i k ∧ xs.length = C.len i k ∧
      (p.writes ≠ some k → Holds f' (C.lo i k) (bytes xs)))
    (hstage : ∀ r, p.running = some r → C.Stage (last' i) f' i p.pos r) :
    C.Invariant last' ((s.setProc i p).setFile (P.file i) f') := by
  refine ⟨fun i' => ?_, fun i' k xs hlast => ?_, fun i' r hr => ?_⟩
  · by_cases hi : i' = i
    · subst hi
      simpa using hgood
    · rw [System.setFile_proc, s.setProc_proc_of_ne hi]
      exact h.good i'
  · by_cases hi : i' = i
    · subst hi
      obtain ⟨hkey, hlength, hheld⟩ := hkept k xs hlast
      exact ⟨hkey, hlength, by simpa using hheld⟩
    · rw [hothers i' hi] at hlast
      obtain ⟨hkey, hlength, hheld⟩ := h.kept i' k xs hlast
      refine ⟨hkey, hlength, fun hw => ?_⟩
      rw [System.setFile_proc, s.setProc_proc_of_ne hi] at hw
      have hbefore := hheld hw
      by_cases hf : P.file i' = P.file i
      · rw [hf] at hbefore ⊢
        rw [System.setFile_file_self]
        exact hframe i' k _ hkey (fun h => absurd h hi) hf (by rw [length_bytes, hlength]) hbefore
      · rw [System.setFile_file_of_ne _ hf]
        exact hbefore
  · by_cases hi : i' = i
    · subst hi
      rw [System.setFile_proc, System.setProc_proc_self] at hr ⊢
      rw [System.setFile_file_self]
      exact hstage r hr
    · rw [System.setFile_proc, s.setProc_proc_of_ne hi] at hr ⊢
      rw [hothers i' hi]
      have hbefore := h.stage i' r hr
      by_cases hf : P.file i' = P.file i
      · rw [hf] at hbefore ⊢
        rw [System.setFile_file_self]
        exact hbefore.frame hframe hi hf
      · rw [System.setFile_file_of_ne _ hf]
        exact hbefore

/-- What stands in the regions of a process that it is not writing. -/
theorem Invariant.held (h : C.Invariant last s) {a : σ} {pos : Nat} {r : Running κ ε σ}
    (hproc : s.proc i = ⟨a, pos, some r⟩) {k : κ} {xs : List Double} (hlast : last i k = some xs)
    (hw : r.call.writes ≠ some k) : Holds (s.file (P.file i)) (C.lo i k) (bytes xs) := by
  refine (h.kept i k xs hlast).held ?_
  rw [hproc]
  exact hw

theorem Invariant.call [DecidableEq κ] {es : List (Event κ)} (h : C.Invariant (lastWrite es) s)
    {c : Call κ} (hc : C.Callable i c) (hstep : P.step s (.call i c) = some s') :
    C.Invariant (lastWrite (es ++ [.call i c])) s' := by
  simp only [Client.step] at hstep
  split at hstep
  case h_2 => cases hstep
  rename_i a pos hproc
  cases hstep
  have hgood : C.Good i a := by simpa [hproc] using h.good i
  have hquiet : ∀ k, (s.proc i).writes ≠ some k := by simp [hproc, Proc.writes]
  rw [← System.setFile_eq_self (s.setProc i _) (P.file i)]
  refine h.update (c := c) (fun i' hi => lastWrite_call_of_ne es (Ne.symm hi) c)
    (fun _ _ _ _ _ _ _ h => h) hgood (fun k xs hlast => ?_) (fun r hr => ?_)
  · rw [lastWrite_concat] at hlast
    cases c with
    | read k' =>
      obtain ⟨hkey, hlength, hheld⟩ := h.kept i k xs hlast
      exact ⟨hkey, hlength, fun _ => hheld (hquiet k)⟩
    | write k' ys =>
      by_cases hk : k' = k
      · subst hk
        obtain rfl : ys = xs := by simpa [Event.written] using hlast
        exact ⟨hc.1, hc.2, fun hw => absurd rfl hw⟩
      · obtain ⟨hkey, hlength, hheld⟩ := h.kept i k xs (by simpa [Event.written, hk] using hlast)
        exact ⟨hkey, hlength, fun _ => hheld (hquiet k)⟩
  · cases hr
    cases c with
    | read k =>
      refine ⟨hc, C.reads hc hgood, fun xs hlast => ?_⟩
      rw [lastWrite_concat] at hlast
      exact C.read hc hgood (h.kept i k xs hlast).length _
    | write k xs =>
      refine ⟨hc.1, hc.2, ?_, [], C.write hc.1 hgood hc.2 _, holds_nil _ _⟩
      rw [lastWrite_concat]
      simp [Event.written]

theorem Invariant.step (h : C.Invariant last s) {m : Nat}
    (hstep : P.step s (.step i m) = some s') : C.Invariant last s' := by
  simp only [Client.step] at hstep
  split at hstep
  case h_2 => cases hstep
  rename_i a pos c rest stores hproc
  cases hop : rest.step m (s.file (P.file i)) ⟨pos, stores⟩ with
  | mk rest' o =>
  obtain ⟨f', cursor⟩ := o
  rw [hop] at hstep
  cases hstep
  have hgood : C.Good i a := by simpa [hproc] using h.good i
  have hstage := h.stage i _ (by rw [hproc])
  rw [hproc] at hstage
  obtain ⟨hnext, hframe⟩ := hstage.step (fun k xs hlast hw => h.held hproc hlast hw) hop
  refine h.update (fun _ _ => rfl) hframe hgood (fun k xs hlast => ?_) (fun r hr => ?_)
  · have hkept := h.kept i k xs hlast
    refine ⟨hkept.key, hkept.length, fun hw => ?_⟩
    exact hframe i k _ hkept.key (fun _ => hw) rfl (by rw [length_bytes, hkept.length])
      (h.held hproc hlast hw)
  · cases hr
    exact hnext

theorem Invariant.ret (h : C.Invariant last s) (hstep : P.step s (.ret i) = some s') :
    C.Invariant last s' := by
  simp only [Client.step] at hstep
  split at hstep
  case h_2 => cases hstep
  rename_i a pos c a' stores hproc
  cases hstep
  have hstage := h.stage i _ (by rw [hproc])
  obtain ⟨hgood, hdone⟩ := hstage.ret
  rw [← System.setFile_eq_self (s.setProc i _) (P.file i)]
  refine h.update (c := c) (fun _ _ => rfl) (fun _ _ _ _ _ _ _ h => h) hgood
    (fun k xs hlast => ?_) (fun r hr => by cases hr)
  have hkept := h.kept i k xs hlast
  refine ⟨hkept.key, hkept.length, fun _ => ?_⟩
  by_cases hc : c.writes = some k
  · exact hdone k xs hlast hc
  · exact h.held hproc hlast hc

end Steps

/-! ## Runs -/

section Runs

variable [DecidableEq κ] {es : List (Event κ)} {s s' : System κ ε σ}

/-- **The rule for stores.** The invariant holds after every interleaving of calls. -/
theorem invariant (hgood : ∀ i, C.Good i (s.proc i).state)
    (hidle : ∀ i, (s.proc i).running = none) (hallowed : ∀ e ∈ es, C.Allowed e)
    (hrun : run P.step s es = some s') : C.Invariant (lastWrite es) s' := by
  have hguard : Guarded P.step (fun _ e => C.Allowed e) s es :=
    guarded_of_forall (fun e he _ => hallowed e he) s
  have hstart : C.Invariant (lastWrite []) s := by
    refine ⟨hgood, fun i k xs hlast => ?_, fun i r hr => ?_⟩
    · cases hlast
    · rw [hidle] at hr
      cases hr
  refine run_history (P := fun es m => C.Invariant (lastWrite es) m) hstart ?_ hrun hguard
  intro es m e m' _ _ he h hstep
  cases e with
  | call i c => exact h.call he hstep
  | step i n =>
    rw [lastWrite_of_not_call es fun _ _ => rfl]
    exact h.step hstep
  | ret i =>
    rw [lastWrite_of_not_call es fun _ _ => rfl]
    exact h.ret hstep

end Runs

/-- A read that has succeeded has filled the buffer with the last write. -/
theorem Invariant.fills {C : Contract P} {last : Nat → κ → Option (List Double)}
    {s : System κ ε σ} (h : C.Invariant last s) {i : Nat} {k : κ} {a : σ}
    {stores : List (Int × Double)} (hdone : (s.proc i).readDone = some (k, a, stores))
    {xs : List Double} (hlast : last i k = some xs) : Fills stores xs (C.len i k) := by
  unfold Proc.readDone at hdone
  split at hdone
  case h_2 => cases hdone
  rename_i hrunning
  cases hdone
  obtain ⟨-, -, heval⟩ := h.stage i _ hrunning
  obtain ⟨o, cursor, ho, hfills⟩ := heval xs hlast
  cases ho
  exact hfills a rfl

end Contract

end CacheTrace.Stdio
