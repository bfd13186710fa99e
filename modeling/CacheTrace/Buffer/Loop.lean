import CacheTrace.Cyclic.Distribution
import Mathlib.Data.List.Range

/-!
# Loops over the elements of a buffer

Two nested loops go through a matrix that is stored column by column, and a counter gives the index
of the element. When the body only changes what belongs to that element, every element has been
changed once, by its own body (`columns_get`).
-/

namespace CacheTrace.Buffer

open Cyclic

variable {σ β : Type}

/-- The loops over columns and rows, with the counter. -/
def columns (rows cols : Nat) (body : Nat → Nat → Nat → σ → σ) (s : σ) : σ :=
  ((List.range cols).foldl (fun p c =>
    (List.range rows).foldl (fun p r => (p.1 + 1, body c r p.1 p.2)) p) (0, s)).2

variable {rows : Nat} {body : Nat → Nat → Nat → σ → σ}

/-- One column. -/
theorem foldl_rows (c n m : Nat) (s : σ) :
    (List.range m).foldl (fun p r => (p.1 + 1, body c r p.1 p.2)) (n, s) =
      (n + m, (List.range m).foldl (fun s r => body c r (n + r) s) s) := by
  induction m with
  | zero => rfl
  | succ m ih =>
    simp only [List.range_succ, List.foldl_append, ih, List.foldl_cons, List.foldl_nil,
      Nat.add_assoc]

/-- The counter is the index of the element. -/
theorem foldl_columns (cols : Nat) (s : σ) :
    (List.range cols).foldl (fun p c =>
      (List.range rows).foldl (fun p r => (p.1 + 1, body c r p.1 p.2)) p) (0, s) =
      (cols * rows, (List.range (cols * rows)).foldl
        (fun s n => body (n / rows) (n % rows) n s) s) := by
  induction cols with
  | zero => simp
  | succ cols ih =>
    rw [List.range_succ, List.foldl_append, ih, List.foldl_cons, List.foldl_nil, foldl_rows,
      Nat.succ_mul, List.range_add, List.foldl_append, List.foldl_map]
    congr 1
    refine List.foldl_ext _ _ _ fun s r hr => ?_
    have hr : r < rows := List.mem_range.mp hr
    rw [mul_add_div (Nat.zero_lt_of_lt hr) hr, mul_add_mod hr]

theorem columns_eq (cols : Nat) (s : σ) : columns rows cols body s =
    (List.range (cols * rows)).foldl (fun s n => body (n / rows) (n % rows) n s) s := by
  rw [columns, foldl_columns]

/-- What every body keeps. -/
theorem columns_invariant {I : σ → Prop} (hbody : ∀ c r n s, I s → I (body c r n s)) (cols : Nat)
    {s : σ} (hs : I s) : I (columns rows cols body s) := by
  rw [columns_eq]
  exact List.foldlRecOn _ _ hs fun s hs n _ => hbody _ _ _ s hs

/-- **The rule for loops over elements.** -/
theorem columns_get (get : σ → Nat → β) {f : Nat → Nat → β → β}
    (hbody : ∀ c r n s m, get (body c r n s) m = if m = n then f r c (get s n) else get s m)
    (cols : Nat) (s : σ) (m : Nat) : get (columns rows cols body s) m =
      if m < cols * rows then f (m % rows) (m / rows) (get s m) else get s m := by
  rw [columns_eq]
  induction cols * rows with
  | zero => simp
  | succ N ih =>
    rw [List.range_succ, List.foldl_append, List.foldl_cons, List.foldl_nil, hbody]
    by_cases heq : m = N
    · subst heq
      rw [if_neg (Nat.lt_irrefl m)] at ih
      rw [if_pos rfl, if_pos (Nat.lt_succ_self m), ih]
    · have hiff : m < N + 1 ↔ m < N := by omega
      rw [if_neg heq, ih]
      simp only [hiff]

end CacheTrace.Buffer
