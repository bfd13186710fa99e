import Mathlib.Data.List.OfFn
import Mathlib.Data.List.TakeDrop

/-!
# Files of bytes and the doubles in them

A file has a size and a byte at every position below it; a write beyond the end fills the gap
with zeros. A double is a group of eight bytes, at any position.

A `View` is a partial knowledge of a file: it gives the doubles at some positions. What a
program reads at positions that its view covers does not depend on the rest of the file.
`Holds f lo bs` says that the bytes `bs` stand in the file from position `lo` on. A write makes
it true of what it writes (`holds_write`) and keeps it in every place it does not touch
(`Holds.write`).
-/

namespace CacheTrace.Stdio

/-- A double is known by its eight bytes. -/
abbrev Double := Fin 8 → UInt8

structure File where
  size : Nat
  byte : Nat → UInt8

def File.empty : File := ⟨0, fun _ => 0⟩

/-- Write bytes from position `pos` on. -/
def File.write (f : File) (pos : Nat) (bs : List UInt8) : File where
  size := if bs = [] then f.size else max f.size (pos + bs.length)
  byte q :=
    if pos ≤ q then
      match bs[q - pos]? with
      | some b => b
      | none => if q < f.size then f.byte q else 0
    else if q < f.size then f.byte q else 0

/-- The bytes of a list of doubles. -/
def bytes (xs : List Double) : List UInt8 := xs.flatMap List.ofFn

@[simp] theorem bytes_cons (x : Double) (xs : List Double) :
    bytes (x :: xs) = List.ofFn x ++ bytes xs := rfl

@[simp] theorem length_bytes (xs : List Double) : (bytes xs).length = 8 * xs.length := by
  induction xs with
  | nil => rfl
  | cons x xs ih =>
    rw [bytes_cons, List.length_append, List.length_ofFn, ih, List.length_cons]
    omega

theorem bytes_getElem? (xs : List Double) (k : Nat) (i : Fin 8) :
    (bytes xs)[8 * k + i]? = xs[k]?.map fun x => x i := by
  induction xs generalizing k with
  | nil => simp [bytes]
  | cons x xs ih =>
    rw [bytes_cons, List.getElem?_append, List.length_ofFn]
    cases k with
    | zero =>
      rw [if_pos (by omega), Nat.mul_zero, Nat.zero_add, List.getElem?_ofFn, dif_pos i.isLt]
      rfl
    | succ k =>
      rw [if_neg (by omega), show 8 * (k + 1) + (i : Nat) - 8 = 8 * k + i by omega, ih]
      rfl

/-! ## Bytes in their places -/

/-- The bytes `bs` stand in the file from position `lo` on. -/
def Holds (f : File) (lo : Nat) (bs : List UInt8) : Prop :=
  ∀ q b, bs[q]? = some b → lo + q < f.size ∧ f.byte (lo + q) = b

theorem holds_nil (f : File) (lo : Nat) : Holds f lo [] := by
  intro q b h
  simp at h

theorem holds_append {f : File} {lo : Nat} {bs cs : List UInt8} :
    Holds f lo (bs ++ cs) ↔ Holds f lo bs ∧ Holds f (lo + bs.length) cs := by
  constructor
  · intro h
    refine ⟨fun q b hq => h q b ?_, fun q b hq => ?_⟩
    · rw [List.getElem?_append_left (List.getElem?_eq_some_iff.mp hq).1]
      exact hq
    · have hq' : (bs ++ cs)[bs.length + q]? = some b := by
        rw [List.getElem?_append_right (by omega), Nat.add_sub_cancel_left]
        exact hq
      have hbyte := h _ _ hq'
      rw [← Nat.add_assoc] at hbyte
      exact hbyte
  · rintro ⟨hb, hc⟩ q b hq
    rw [List.getElem?_append] at hq
    split_ifs at hq with hlt
    · exact hb q b hq
    · have hbyte := hc _ _ hq
      rw [show lo + bs.length + (q - bs.length) = lo + q by omega] at hbyte
      exact hbyte

/-- Doubles stand in a file when each of them does. -/
theorem holds_bytes {f : File} {lo : Nat} {xs : List Double} : Holds f lo (bytes xs) ↔
    ∀ k x, xs[k]? = some x → Holds f (lo + 8 * k) (bytes [x]) := by
  induction xs generalizing lo with
  | nil =>
    simp only [List.getElem?_nil, reduceCtorEq, false_implies, implies_true, iff_true]
    exact holds_nil f lo
  | cons y ys ih =>
    rw [bytes_cons, holds_append, List.length_ofFn, ih]
    constructor
    · rintro ⟨hy, hys⟩ k x hx
      cases k with
      | zero =>
        cases hx
        simpa [bytes] using hy
      | succ k =>
        rw [show lo + 8 * (k + 1) = lo + 8 + 8 * k by omega]
        exact hys k x hx
    · intro h
      refine ⟨by simpa [bytes] using h 0 y rfl, fun k x hx => ?_⟩
      rw [show lo + 8 + 8 * k = lo + 8 * (k + 1) by omega]
      exact h (k + 1) x hx

theorem holds_write (f : File) (lo : Nat) (bs : List UInt8) : Holds (f.write lo bs) lo bs := by
  intro q b hq
  have hlt : q < bs.length := (List.getElem?_eq_some_iff.mp hq).1
  have hne : bs ≠ [] := by
    rintro rfl
    simp at hlt
  constructor
  · simp only [File.write, if_neg hne]
    omega
  · simp only [File.write]
    rw [if_pos (by omega), Nat.add_sub_cancel_left, hq]

theorem File.size_le_write (f : File) (pos : Nat) (bs : List UInt8) :
    f.size ≤ (f.write pos bs).size := by
  simp only [File.write]
  split_ifs <;> omega

/-- A byte of the file outside the written range stays. -/
theorem File.byte_write {f : File} {pos q : Nat} {bs : List UInt8} (hq : q < f.size)
    (hout : q < pos ∨ pos + bs.length ≤ q) : (f.write pos bs).byte q = f.byte q := by
  simp only [File.write]
  split_ifs with hle
  · rw [List.getElem?_eq_none (by omega)]
  · rfl

/-- **The frame rule.** What stands outside the written range stays. -/
theorem Holds.write {f : File} {lo pos : Nat} {bs cs : List UInt8} (h : Holds f lo bs)
    (hout : lo + bs.length ≤ pos ∨ pos + cs.length ≤ lo) : Holds (f.write pos cs) lo bs := by
  intro q b hq
  have hlt : q < bs.length := (List.getElem?_eq_some_iff.mp hq).1
  obtain ⟨hsize, hbyte⟩ := h q b hq
  refine ⟨hsize.trans_le (f.size_le_write pos cs), ?_⟩
  rw [File.byte_write hsize (by omega), hbyte]

/-! ## Views -/

/-- What is known of a file: the doubles at some positions. -/
abbrev View := Nat → Option Double

def File.view (f : File) : View := fun pos =>
  if pos + 8 ≤ f.size then some fun i => f.byte (pos + i) else none

/-- The doubles `xs` from position `lo` on, and nothing else. -/
def region (lo : Nat) (xs : List Double) : View := fun pos =>
  if lo ≤ pos ∧ (pos - lo) % 8 = 0 then xs[(pos - lo) / 8]? else none

/-- All that `v` knows is true of the file. -/
def View.Of (v : View) (f : File) : Prop := ∀ pos x, v pos = some x → f.view pos = some x

theorem region_at (lo : Nat) (xs : List Double) (k : Nat) : region lo xs (lo + 8 * k) = xs[k]? := by
  rw [region, if_pos (by omega)]
  congr 1
  omega

theorem Holds.region {f : File} {lo : Nat} {xs : List Double} (h : Holds f lo (bytes xs)) :
    (region lo xs).Of f := by
  intro pos x hx
  unfold Stdio.region at hx
  split_ifs at hx with hpos
  have hbyte (i : Fin 8) : lo + (8 * ((pos - lo) / 8) + i) < f.size ∧
      f.byte (lo + (8 * ((pos - lo) / 8) + i)) = x i := by
    apply h
    rw [bytes_getElem?, hx]
    rfl
  have hadd (i : Nat) : lo + (8 * ((pos - lo) / 8) + i) = pos + i := by omega
  have hend := (hbyte 7).1
  rw [hadd] at hend
  rw [File.view, if_pos (show pos + 8 ≤ f.size from hend)]
  congr 1
  funext i
  rw [← (hbyte i).2, hadd]

/-- What a file shows at a position stands there. -/
theorem view_eq_some {f : File} {pos : Nat} {x : Double} :
    f.view pos = some x ↔ Holds f pos (bytes [x]) := by
  constructor
  · intro h q b hq
    rw [File.view, Option.ite_none_right_eq_some, Option.some.injEq] at h
    obtain ⟨hsize, rfl⟩ := h
    rw [show bytes [_] = List.ofFn _ from List.append_nil _] at hq
    obtain ⟨hlt, rfl⟩ := List.getElem?_eq_some_iff.mp hq
    rw [List.length_ofFn] at hlt
    exact ⟨by omega, by rw [List.getElem_ofFn]⟩
  · intro h
    exact h.region pos x (region_at pos [x] 0)

/-- The doubles of a file from position `lo` on, as far as the file goes. -/
def File.doubles (f : File) (lo n : Nat) : List Double :=
  (List.range n).map fun k i => f.byte (lo + 8 * k + i)

@[simp] theorem File.length_doubles (f : File) (lo n : Nat) : (f.doubles lo n).length = n := by
  simp [File.doubles]

theorem File.region_doubles {f : File} {lo n : Nat} (h : lo + 8 * n ≤ f.size) :
    (region lo (f.doubles lo n)).Of f := by
  intro pos x hx
  unfold Stdio.region at hx
  split_ifs at hx with hpos
  obtain ⟨hk, hget⟩ := List.getElem?_eq_some_iff.mp hx
  rw [File.length_doubles] at hk
  rw [File.view, if_pos (by omega), ← hget]
  simp only [File.doubles, List.getElem_map, List.getElem_range, Option.some.injEq]
  funext i
  congr 1
  omega

/-- What `fread` finds: at most `n` doubles from position `pos` on. -/
def File.read (f : File) (pos n : Nat) : List Double :=
  f.doubles pos (min n ((f.size - pos) / 8))

/-- The doubles that a view gives from position `pos` on, when it covers all of them. -/
def View.read (v : View) : Nat → Nat → Option (List Double)
  | _, 0 => some []
  | pos, n + 1 => (v pos).bind fun x => (v.read (pos + 8) n).map (x :: ·)

theorem View.length_read {v : View} {pos n : Nat} {xs : List Double}
    (h : v.read pos n = some xs) : xs.length = n := by
  induction n generalizing pos xs with
  | zero =>
    cases h
    rfl
  | succ n ih =>
    obtain ⟨x, -, hrest⟩ := Option.bind_eq_some_iff.mp h
    obtain ⟨ys, hys, rfl⟩ := Option.map_eq_some_iff.mp hrest
    rw [List.length_cons, ih hys]

theorem View.read_eq_some {v : View} {pos : Nat} {xs : List Double}
    (h : ∀ k x, xs[k]? = some x → v (pos + 8 * k) = some x) :
    v.read pos xs.length = some xs := by
  induction xs generalizing pos with
  | nil => rfl
  | cons x xs ih =>
    have hx : v pos = some x := h 0 x rfl
    have hxs : v.read (pos + 8) xs.length = some xs := by
      apply ih
      intro k y hy
      rw [show pos + 8 + 8 * k = pos + 8 * (k + 1) by omega]
      exact h (k + 1) y hy
    rw [List.length_cons, View.read, hx, hxs]
    rfl

theorem File.view_doubles {f : File} {pos n : Nat} {xs : List Double}
    (h : f.view.read pos n = some xs) : f.doubles pos n = xs ∧ (n = 0 ∨ pos + 8 * n ≤ f.size) := by
  induction n generalizing pos xs with
  | zero =>
    cases h
    exact ⟨rfl, Or.inl rfl⟩
  | succ n ih =>
    obtain ⟨x, hx, hrest⟩ := Option.bind_eq_some_iff.mp h
    obtain ⟨ys, hys, rfl⟩ := Option.map_eq_some_iff.mp hrest
    obtain ⟨hd, hsize⟩ := ih hys
    unfold File.view at hx
    split_ifs at hx with hfirst
    refine ⟨?_, Or.inr (by omega)⟩
    rw [File.doubles, List.range_succ_eq_map, List.map_cons, List.map_map, ← hd,
      ← Option.some.inj hx]
    congr 1
    apply List.map_congr_left
    intro k _
    funext i
    simp only [Function.comp_apply]
    congr 1
    omega

theorem View.Of.view_read {v : View} {f : File} (hv : v.Of f) {pos n : Nat} {xs : List Double}
    (h : v.read pos n = some xs) : f.view.read pos n = some xs := by
  induction n generalizing pos xs with
  | zero => exact h
  | succ n ih =>
    obtain ⟨x, hx, hrest⟩ := Option.bind_eq_some_iff.mp h
    obtain ⟨ys, hys, rfl⟩ := Option.map_eq_some_iff.mp hrest
    rw [View.read, hv _ _ hx, Option.bind_some, ih hys]
    rfl

/-- A read that the view covers is not short. -/
theorem View.Of.read {v : View} {f : File} (hv : v.Of f) {pos n : Nat} {xs : List Double}
    (h : v.read pos n = some xs) : f.read pos n = xs := by
  obtain ⟨hd, hsize⟩ := File.view_doubles (hv.view_read h)
  rw [File.read, Nat.min_eq_left (by omega), hd]

theorem region_read (lo : Nat) {k n : Nat} {xs : List Double} (h : k + n ≤ xs.length) :
    (region lo xs).read (lo + 8 * k) n = some ((xs.drop k).take n) := by
  have hlen : ((xs.drop k).take n).length = n := by
    rw [List.length_take, List.length_drop]
    omega
  conv_lhs => rw [← hlen]
  apply View.read_eq_some
  intro j x hj
  rw [show lo + 8 * k + 8 * j = lo + 8 * (k + j) by omega, region_at]
  rw [List.getElem?_take] at hj
  split_ifs at hj
  rw [List.getElem?_drop] at hj
  exact hj

theorem Holds.read {f : File} {lo : Nat} {xs : List Double} (h : Holds f lo (bytes xs)) :
    f.read lo xs.length = xs := by
  have hread := region_read lo (k := 0) (Nat.zero_add xs.length).le
  rw [Nat.mul_zero, Nat.add_zero, List.drop_zero, List.take_length] at hread
  exact h.region.read hread

end CacheTrace.Stdio
