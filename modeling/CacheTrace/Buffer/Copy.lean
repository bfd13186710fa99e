import Mathlib.Data.List.Basic
import Mathlib.Data.List.Range
import Mathlib.Logic.Basic

/-!
# Copies between buffers

A buffer gives an element at every index. A program that fills a buffer piece by piece, in any
order, is described by what it writes where: `Writes target S d d'` says that the buffer `d'` has
the elements of `target` at the indices `S` and those of `d` elsewhere. Such descriptions add up
(`Writes.trans`), also over the rounds of a loop (`writes_foldl_range`).
-/

namespace CacheTrace.Buffer

variable {α : Type}

/-- Copy `len` elements of `d1` from index `n` on to `d2`, from index `offset` on. -/
def memcpy (d2 : Nat → α) (offset : Nat) (d1 : Nat → α) (n len : Nat) : Nat → α :=
  fun x => if offset ≤ x ∧ x < offset + len then d1 (n + (x - offset)) else d2 x

theorem memcpy_add (d2 d1 : Nat → α) (offset n : Nat) {len x : Nat} (hx : x < len) :
    memcpy d2 offset d1 n len (offset + x) = d1 (n + x) := by
  rw [memcpy, if_pos ⟨Nat.le_add_right _ _, Nat.add_lt_add_left hx _⟩, Nat.add_sub_cancel_left]

/-- A message of elements is stored from the beginning of a buffer on. -/
def load (xs : List α) (d : Nat → α) : Nat → α := fun x => xs.getD x (d x)

/-- The first `n` elements of a buffer. -/
def contents (d : Nat → α) (n : Nat) : List α := (List.range n).map d

theorem load_contents (d d' : Nat → α) {n x : Nat} (hx : x < n) :
    load (contents d n) d' x = d x := by
  simp [load, contents, List.getD, hx]

/-- From `d` to `d'`, the elements of `target` are written at the indices `S`, and nothing else
changes. -/
structure Writes (target : Nat → α) (S : Nat → Prop) (d d' : Nat → α) : Prop where
  written : ∀ x, S x → d' x = target x
  kept : ∀ x, ¬ S x → d' x = d x

namespace Writes

variable {target : Nat → α} {S S' : Nat → Prop} {d d' d'' : Nat → α}

theorem nothing (d : Nat → α) : Writes target (fun _ => False) d d :=
  ⟨fun _ h => h.elim, fun _ _ => rfl⟩

theorem trans (h : Writes target S d d') (h' : Writes target S' d' d'') :
    Writes target (fun x => S x ∨ S' x) d d'' := by
  constructor
  · intro x hx
    by_cases hx' : S' x
    · exact h'.written x hx'
    · rw [h'.kept x hx']
      exact h.written x (hx.resolve_right hx')
  · intro x hx
    rw [not_or] at hx
    rw [h'.kept x hx.2, h.kept x hx.1]

theorem congr (h : Writes target S d d') (hS : ∀ x, S' x ↔ S x) : Writes target S' d d' :=
  ⟨fun x hx => h.written x ((hS x).mp hx), fun x hx => h.kept x fun h' => hx ((hS x).mpr h')⟩

theorem memcpy {d1 : Nat → α} {offset n len : Nat}
    (h : ∀ y < len, target (offset + y) = d1 (n + y)) :
    Writes target (fun x => offset ≤ x ∧ x < offset + len) d (memcpy d offset d1 n len) := by
  constructor
  · rintro x ⟨hle, hlt⟩
    have hx := h (x - offset) (by omega)
    rw [Nat.add_sub_cancel' hle] at hx
    rw [Buffer.memcpy, if_pos ⟨hle, hlt⟩, hx]
  · intro x hx
    rw [Buffer.memcpy, if_neg hx]

end Writes

/-- **The rule for loops.** When round `k` leads from a state with `I k` to one with `I (k + 1)`
and writes at the indices `S k`, all rounds together write at all these indices. -/
theorem writes_foldl_range {σ : Type} {target : Nat → α} {body : σ → Nat → σ} (buffer : σ → Nat → α)
    (I : Nat → σ → Prop) (S : Nat → Nat → Prop) {m : Nat}
    (hbody : ∀ k < m, ∀ s, I k s → I (k + 1) (body s k) ∧
      Writes target (S k) (buffer s) (buffer (body s k))) {s : σ} (hs : I 0 s) :
    I m ((List.range m).foldl body s) ∧ Writes target (fun x => ∃ k < m, S k x) (buffer s)
      (buffer ((List.range m).foldl body s)) := by
  induction m with
  | zero => exact ⟨hs, (Writes.nothing _).congr fun x => by simp⟩
  | succ m ih =>
    obtain ⟨hI, hwrites⟩ := ih fun k hk => hbody k (Nat.lt_succ_of_lt hk)
    rw [List.range_succ, List.foldl_concat]
    obtain ⟨hI', hwrites'⟩ := hbody m (Nat.lt_succ_self m) _ hI
    refine ⟨hI', (hwrites.trans hwrites').congr fun x => ?_⟩
    constructor
    · rintro ⟨k, hk, hx⟩
      rcases Nat.lt_or_eq_of_le (Nat.le_of_lt_succ hk) with hlt | rfl
      · exact .inl ⟨k, hlt, hx⟩
      · exact .inr hx
    · rintro (⟨k, hk, hx⟩ | hx)
      · exact ⟨k, Nat.lt_succ_of_lt hk, hx⟩
      · exact ⟨m, Nat.lt_succ_self m, hx⟩

end CacheTrace.Buffer
