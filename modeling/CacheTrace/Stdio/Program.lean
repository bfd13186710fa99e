import CacheTrace.Stdio.File
import Mathlib.Data.Finset.Card
import Mathlib.Algebra.Ring.Int.Defs
import Mathlib.Algebra.Ring.CharZero

/-!
# Programs on a stream

A `Prog` is what a C function does on one `FILE *`: seeks, reads of doubles into a buffer,
writes, and checks that abort. It has three meanings. `exec` runs it alone on a file. `step`
performs one operation, so that the programs of several processes can be interleaved on one
file; there a write reaches the file in any number of pieces. `eval` runs it against a view
and is defined only as long as the view covers everything that is read.

`eval` is what proofs compute with: whatever else happens to the file, the program ends as
`eval` says, as long as the view stays true (`exec_of_eval`, `eval_step`).
-/

namespace CacheTrace.Stdio

inductive Whence where
  | set
  | cur

/-- The position that `fseek` goes to, `none` when it is negative and the call fails. -/
def Whence.seek (pos : Nat) (off : Int) : Whence → Option Nat
  | .set => if 0 ≤ off then some off.toNat else none
  | .cur => if 0 ≤ pos + off then some (pos + off).toNat else none

inductive Prog (ε α : Type) where
  | ret (a : α)
  /-- A failed check with the error `e`. -/
  | abort (e : ε)
  | fseek (whence : Whence) (off : Int) (k : Bool → Prog ε α)
  /-- Read `n` doubles into the buffer from index `dest` on. -/
  | fread (dest : Int) (n : Nat) (k : Nat → Prog ε α)
  /-- Write the bytes `bs`, which are left of a call that returns `n`. -/
  | fwrite (bs : List UInt8) (n : Nat) (k : Nat → Prog ε α)

namespace Prog

variable {ε α β : Type}

protected def bind : Prog ε α → (α → Prog ε β) → Prog ε β
  | ret a, f => f a
  | abort e, _ => abort e
  | fseek w off k, f => fseek w off fun b => (k b).bind f
  | fread dest n k, f => fread dest n fun m => (k m).bind f
  | fwrite bs n k, f => fwrite bs n fun m => (k m).bind f

instance : Monad (Prog ε) where
  pure := ret
  bind := Prog.bind

end Prog

open Prog

section Operations

variable {ε : Type}

def fseek (whence : Whence) (off : Int) : Prog ε Bool := .fseek whence off .ret

def fread (dest : Int) (n : Nat) : Prog ε Nat := .fread dest n .ret

def fwrite (xs : List Double) : Prog ε Nat := .fwrite (bytes xs) xs.length .ret

def check (e : ε) (ok : Bool) : Prog ε Unit := if ok then .ret () else .abort e

end Operations

/-- Where a program stands: the position of its stream, and what it has stored in its buffer
so far, index by index. -/
structure Cursor where
  pos : Nat
  stores : List (Int × Double)

/-- The stores of a read into the buffer from index `dest` on. -/
def storesAt (dest : Int) (xs : List Double) : List (Int × Double) :=
  xs.mapIdx fun j x => (dest + j, x)

@[simp] theorem length_storesAt (dest : Int) (xs : List Double) :
    (storesAt dest xs).length = xs.length := by
  simp [storesAt]

theorem mem_storesAt {dest : Int} {xs : List Double} {st : Int × Double} :
    st ∈ storesAt dest xs ↔ ∃ (j : Nat) (x : Double), xs[j]? = some x ∧ st = (dest + j, x) := by
  rw [storesAt, List.mem_iff_getElem?]
  simp only [List.getElem?_mapIdx, Option.map_eq_some_iff]
  constructor
  · rintro ⟨j, x, hx, rfl⟩
    exact ⟨j, x, hx, rfl⟩
  · rintro ⟨j, x, hx, rfl⟩
    exact ⟨j, x, hx, rfl⟩

def Cursor.load (s : Cursor) (dest : Int) (xs : List Double) : Cursor :=
  ⟨s.pos + 8 * xs.length, s.stores ++ storesAt dest xs⟩

namespace Prog

variable {ε α β : Type}

/-! ## Running alone -/

def exec : Prog ε α → File → Cursor → Except ε α × File × Cursor
  | ret a, f, s => (.ok a, f, s)
  | abort e, f, s => (.error e, f, s)
  | fseek w off k, f, s => match w.seek s.pos off with
    | some pos => (k true).exec f { s with pos }
    | none => (k false).exec f s
  | fread dest n k, f, s =>
    let xs := f.read s.pos n
    (k xs.length).exec f (s.load dest xs)
  | fwrite bs n k, f, s => (k n).exec (f.write s.pos bs) { s with pos := s.pos + bs.length }

/-- What a program that succeeds has done. -/
theorem exec_bind_ok {c : Prog ε α} {k : α → Prog ε β} {f f' : File} {s s' : Cursor} {b : β}
    (h : (c >>= k).exec f s = (.ok b, f', s')) :
    ∃ a f₁ s₁, c.exec f s = (.ok a, f₁, s₁) ∧ (k a).exec f₁ s₁ = (.ok b, f', s') := by
  change (c.bind k).exec f s = _ at h
  induction c generalizing f s with
  | ret a => exact ⟨a, f, s, rfl, h⟩
  | abort e => cases h
  | fseek w off c ih =>
    simp only [Prog.bind, exec] at h ⊢
    split at h
    · exact ih _ h
    · exact ih _ h
  | fread dest n c ih => exact ih _ h
  | fwrite bs n c ih => exact ih _ h

/-! ## Running against a view -/

def eval (v : View) : Prog ε α → Cursor → Option (Except ε α × Cursor)
  | ret a, s => some (.ok a, s)
  | abort e, s => some (.error e, s)
  | fseek w off k, s => match w.seek s.pos off with
    | some pos => (k true).eval v { s with pos }
    | none => (k false).eval v s
  | fread dest n k, s => match v.read s.pos n with
    | some xs => (k n).eval v (s.load dest xs)
    | none => none
  | fwrite _ _ _, _ => none

/-- A program that reads only what its view covers runs on the file as against the view. -/
theorem exec_of_eval {v : View} {f : File} (hv : v.Of f) {c : Prog ε α} {s s' : Cursor}
    {r : Except ε α} (h : c.eval v s = some (r, s')) : c.exec f s = (r, f, s') := by
  induction c generalizing s with
  | ret a =>
    cases h
    rfl
  | abort e =>
    cases h
    rfl
  | fseek w off k ih =>
    simp only [eval] at h
    simp only [exec]
    split at h
    · exact ih _ h
    · exact ih _ h
  | fread dest n k ih =>
    simp only [eval] at h
    split at h
    · rename_i xs hxs
      simp only [exec, hv.read hxs, View.length_read hxs]
      exact ih _ h
    · cases h
  | fwrite bs n k ih => cases h

theorem eval_bind (v : View) (c : Prog ε α) (f : α → Prog ε β) (s : Cursor) :
    (c >>= f).eval v s = (c.eval v s).bind fun o => match o.1 with
      | .ok a => (f a).eval v o.2
      | .error e => some (.error e, o.2) := by
  change (c.bind f).eval v s = _
  induction c generalizing s with
  | ret a => rfl
  | abort e => rfl
  | fseek w off k ih =>
    simp only [Prog.bind, eval]
    split
    · exact ih _ _
    · exact ih _ _
  | fread dest n k ih =>
    simp only [Prog.bind, eval]
    split
    · exact ih _ _
    · rfl
  | fwrite bs n k ih => rfl

@[simp] theorem eval_pure (v : View) (a : α) (s : Cursor) :
    (pure a : Prog ε α).eval v s = some (.ok a, s) := rfl

theorem eval_bind_ok {v : View} {c : Prog ε α} {f : α → Prog ε β} {s s' : Cursor} {a : α}
    (h : c.eval v s = some (.ok a, s')) : (c >>= f).eval v s = (f a).eval v s' := by
  rw [eval_bind, h]
  rfl

theorem eval_bind_error {v : View} {c : Prog ε α} {f : α → Prog ε β} {s s' : Cursor} {e : ε}
    (h : c.eval v s = some (.error e, s')) : (c >>= f).eval v s = some (.error e, s') := by
  rw [eval_bind, h]
  rfl

theorem eval_fseek {v : View} {w : Whence} {off : Int} {s : Cursor} {pos : Nat}
    (h : w.seek s.pos off = some pos) :
    (Stdio.fseek w off : Prog ε Bool).eval v s = some (.ok true, { s with pos }) := by
  simp only [Stdio.fseek, eval, h]

theorem eval_fread {v : View} {dest : Int} {n : Nat} {s : Cursor} {xs : List Double}
    (h : v.read s.pos n = some xs) :
    (Stdio.fread dest n : Prog ε Nat).eval v s = some (.ok n, s.load dest xs) := by
  simp only [Stdio.fread, eval, h]

theorem eval_check_true (v : View) (e : ε) (s : Cursor) :
    (check e true).eval v s = some (.ok (), s) := rfl

/-- A check that fails ends the program. -/
theorem eval_check_false (v : View) (e : ε) (s : Cursor) :
    (check e false).eval v s = some (.error e, s) := rfl

/-- **The loop rule.** A loop whose rounds lead from one point of a sequence to the next ends
in the last point of the sequence. -/
theorem eval_foldlM_range {v : View} {σ : Type} {body : σ → Nat → Prog ε σ} (acc : Nat → σ)
    (cursor : Nat → Cursor) {m : Nat}
    (h : ∀ j < m, (body (acc j) j).eval v (cursor j) = some (.ok (acc (j + 1)), cursor (j + 1))) :
    ((List.range m).foldlM body (acc 0)).eval v (cursor 0) = some (.ok (acc m), cursor m) := by
  have hfrom : ∀ n a, a + n = m →
      ((List.range' a n).foldlM body (acc a)).eval v (cursor a) = some (.ok (acc m), cursor m) := by
    intro n
    induction n with
    | zero =>
      intro a ha
      rw [← ha]
      rfl
    | succ n ih =>
      intro a ha
      rw [List.range'_succ, List.foldlM_cons, eval_bind_ok (h a (by omega))]
      exact ih (a + 1) (by omega)
  rw [List.range_eq_range']
  exact hfrom m 0 (by omega)

/-! ## Running step by step -/

/-- One operation of the program. A write puts at most `m` of its bytes into the file. -/
def step (m : Nat) : Prog ε α → File → Cursor → Prog ε α × File × Cursor
  | ret a, f, s => (ret a, f, s)
  | abort e, f, s => (abort e, f, s)
  | fseek w off k, f, s => match w.seek s.pos off with
    | some pos => (k true, f, { s with pos })
    | none => (k false, f, s)
  | fread dest n k, f, s =>
    let xs := f.read s.pos n
    (k xs.length, f, s.load dest xs)
  | fwrite [] n k, f, s => (k n, f, s)
  | fwrite (b :: bs) n k, f, s =>
    let chunk := (b :: bs).take m
    (fwrite ((b :: bs).drop m) n k, f.write s.pos chunk, { s with pos := s.pos + chunk.length })

/-- A step does not change how the program ends. -/
theorem eval_step {v : View} {f f' : File} (hv : v.Of f) {c c' : Prog ε α} {s s' : Cursor}
    {m : Nat} {o : Except ε α × Cursor} (h : c.eval v s = some o)
    (hstep : c.step m f s = (c', f', s')) : f' = f ∧ c'.eval v s' = some o := by
  cases c with
  | ret a =>
    cases hstep
    exact ⟨rfl, h⟩
  | abort e =>
    cases hstep
    exact ⟨rfl, h⟩
  | fseek w off k =>
    cases hseek : w.seek s.pos off with
    | some pos =>
      simp only [eval, hseek] at h
      simp only [step, hseek] at hstep
      cases hstep
      exact ⟨rfl, h⟩
    | none =>
      simp only [eval, hseek] at h
      simp only [step, hseek] at hstep
      cases hstep
      exact ⟨rfl, h⟩
  | fread dest n k =>
    simp only [eval] at h
    split at h
    · rename_i xs hxs
      simp only [step, hv.read hxs, View.length_read hxs] at hstep
      cases hstep
      exact ⟨rfl, h⟩
    · cases h
  | fwrite bs n k => cases h

end Prog

/-! ## Buffers -/

/-- The buffer after the stores. -/
def afterStores (buffer : Int → Double) (stores : List (Int × Double)) : Int → Double :=
  stores.foldl (fun b st => Function.update b st.1 st.2) buffer

/-- The stores put the first `n` elements of `xs` into their places, each of them once, and
nothing else. -/
structure Fills (stores : List (Int × Double)) (xs : List Double) (n : Nat) : Prop where
  value : ∀ st ∈ stores, ∃ k < n, st.1 = k ∧ xs[k]? = some st.2
  nodup : (stores.map Prod.fst).Nodup
  all : ∀ k < n, (k : Int) ∈ stores.map Prod.fst

theorem afterStores_of_not_mem {buffer : Int → Double} {stores : List (Int × Double)} {k : Int}
    (h : k ∉ stores.map Prod.fst) : afterStores buffer stores k = buffer k := by
  induction stores generalizing buffer with
  | nil => rfl
  | cons st stores ih =>
    rw [List.map_cons, List.mem_cons, not_or] at h
    rw [afterStores, List.foldl_cons]
    exact (ih h.2).trans (Function.update_of_ne h.1 _ _)

theorem afterStores_of_mem {buffer : Int → Double} {stores : List (Int × Double)} {k : Int}
    {x : Double} (hnodup : (stores.map Prod.fst).Nodup) (h : (k, x) ∈ stores) :
    afterStores buffer stores k = x := by
  induction stores generalizing buffer with
  | nil => cases h
  | cons st stores ih =>
    rw [List.map_cons, List.nodup_cons] at hnodup
    rw [afterStores, List.foldl_cons]
    rcases List.mem_cons.mp h with rfl | hmem
    · exact (afterStores_of_not_mem hnodup.1).trans (Function.update_self _ _ _)
    · exact ih hnodup.2 hmem

/-- The elements of the buffer that are filled. -/
theorem Fills.afterStores_eq {stores : List (Int × Double)} {xs : List Double} {n : Nat}
    (h : Fills stores xs n) (buffer : Int → Double) {k : Nat} (hk : k < n) :
    xs[k]? = some (afterStores buffer stores k) := by
  obtain ⟨⟨i, x⟩, hmem, rfl⟩ := List.mem_map.mp (h.all k hk)
  obtain ⟨j, -, hj, hx⟩ := h.value _ hmem
  have hkj : k = j := Int.ofNat.inj hj
  rw [afterStores_of_mem h.nodup hmem, hkj, hx]

/-- The elements of the buffer that are left alone. -/
theorem Fills.afterStores_of_ge {stores : List (Int × Double)} {xs : List Double} {n : Nat}
    (h : Fills stores xs n) (buffer : Int → Double) {k : Int} (hk : k < 0 ∨ n ≤ k) :
    afterStores buffer stores k = buffer k := by
  apply afterStores_of_not_mem
  intro hmem
  obtain ⟨st, hst, rfl⟩ := List.mem_map.mp hmem
  obtain ⟨j, hj, hji, -⟩ := h.value st hst
  omega

/-- Stores of the same elements have the same effect. -/
theorem Fills.afterStores_congr {stores stores' : List (Int × Double)} {xs : List Double} {n : Nat}
    (h : Fills stores xs n) (h' : Fills stores' xs n) (buffer : Int → Double) :
    afterStores buffer stores = afterStores buffer stores' := by
  funext k
  by_cases hk : k < 0 ∨ n ≤ k
  · rw [h.afterStores_of_ge buffer hk, h'.afterStores_of_ge buffer hk]
  · obtain ⟨j, rfl⟩ := Int.eq_ofNat_of_zero_le (show 0 ≤ k by omega)
    have hj : j < n := by omega
    exact Option.some.inj ((h.afterStores_eq buffer hj).symm.trans (h'.afterStores_eq buffer hj))

/-- The effect of the stores tells how many elements they fill. -/
theorem Fills.eq_of_afterStores {stores stores' : List (Int × Double)} {xs : List Double}
    {n n' : Nat} (h : Fills stores xs n) (h' : Fills stores' xs n')
    (heq : ∀ buffer, afterStores buffer stores = afterStores buffer stores') : n = n' := by
  have hle : ∀ {st st' : List (Int × Double)} {a a' : Nat}, Fills st xs a → Fills st' xs a' →
      (∀ buffer, afterStores buffer st = afterStores buffer st') → a' ≤ a := by
    intro st st' a a' hst hst' hsame
    by_contra hlt
    -- element `a` is left alone by the one and filled by the other, whatever was there before
    have hkeep : ∀ buffer : Int → Double, xs[a]? = some (buffer a) := by
      intro buffer
      rw [hst'.afterStores_eq buffer (by omega), ← hsame,
        hst.afterStores_of_ge buffer (Or.inr le_rfl)]
    have hzero := hkeep fun _ _ => 0
    rw [hkeep fun _ _ => 1] at hzero
    have hbyte := congrFun (Option.some.inj hzero) 0
    exact absurd hbyte (by decide)
  exact le_antisymm (hle h' h fun buffer => (heq buffer).symm) (hle h h' heq)

/-- Stores that reach every place and are no more than the places reach each of them once. -/
theorem Fills.of_length {stores : List (Int × Double)} {xs : List Double} {n : Nat}
    (hvalue : ∀ st ∈ stores, ∃ k < n, st.1 = k ∧ xs[k]? = some st.2)
    (hall : ∀ k < n, (k : Int) ∈ stores.map Prod.fst) (hlength : stores.length ≤ n) :
    Fills stores xs n := by
  refine ⟨hvalue, ?_, hall⟩
  have hsub : (Finset.range n).map Nat.castEmbedding ⊆ (stores.map Prod.fst).toFinset := by
    intro k hk
    obtain ⟨j, hj, rfl⟩ := Finset.mem_map.mp hk
    exact List.mem_toFinset.mpr (hall j (Finset.mem_range.mp hj))
  have hcard := Finset.card_le_card hsub
  rw [Finset.card_map, Finset.card_range] at hcard
  apply Multiset.coe_nodup.mp
  apply Multiset.toFinset_card_eq_card_iff_nodup.mp
  have hle := List.toFinset_card_le (stores.map Prod.fst)
  rw [List.length_map] at hle
  rw [Multiset.coe_card, List.length_map]
  change (stores.map Prod.fst).toFinset.card = _
  omega

end CacheTrace.Stdio
