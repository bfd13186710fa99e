import Mathlib.Data.Int.Order.Basic

/-!
# Decimal numerals as character lists

Text is a list of characters throughout: the contents of a file, one line of it, one
field of a line. This module prints an integer in decimal (`showInt`, the `%d` of a
format string or the `str` of an integer) and reads a decimal numeral back (`readInt`:
an optional sign and at least one digit, nothing else).

Reading is a left inverse of printing (`readInt_showInt`), so printing is injective. A text
that reads as a number contains no character but digits and signs (`mem_of_readInt`), so it
never contains a separator of a record format.
-/

namespace CacheTrace

abbrev Text := List Char

end CacheTrace

namespace CacheTrace.Text

/-! ## Printing -/

/-- The decimal numeral of a natural number, most significant digit first. -/
def showNat (n : Nat) : Text := Nat.toDigits 10 n

/-- The decimal numeral of an integer, with a minus sign for a negative one. -/
def showInt : Int → Text
  | .ofNat n => showNat n
  | .negSucc n => '-' :: showNat (n + 1)

theorem showInt_natCast (n : Nat) : showInt (n : Int) = showNat n := rfl

theorem showNat_ne_nil (n : Nat) : showNat n ≠ [] := Nat.toDigits_ne_nil

theorem isDigit_of_mem_showNat {n : Nat} {c : Char} (h : c ∈ showNat n) : c.isDigit = true :=
  Nat.isDigit_of_mem_toDigits (by decide) (by decide) h

/-! ## Reading -/

/-- The value of a nonempty digit string, `none` for any other text. -/
def readNat (t : Text) : Option Nat :=
  if t ≠ [] ∧ t.all Char.isDigit = true then some (Nat.ofDigitChars 10 t 0) else none

/-- The value of an optionally signed digit string. -/
def readInt : Text → Option Int
  | '-' :: t => (readNat t).map fun n : Nat => -(n : Int)
  | '+' :: t => (readNat t).map Int.ofNat
  | t => (readNat t).map Int.ofNat

theorem readNat_showNat (n : Nat) : readNat (showNat n) = some n := by
  have hall : (showNat n).all Char.isDigit = true :=
    List.all_eq_true.mpr fun c hc => isDigit_of_mem_showNat hc
  rw [readNat, if_pos ⟨showNat_ne_nil n, hall⟩]
  exact congrArg some Nat.ofDigitChars_ten_toDigits

/-- Without a sign in front, reading an integer is reading a digit string. -/
theorem readInt_of_head {t : Text} (hm : t.head? ≠ some '-') (hp : t.head? ≠ some '+') :
    readInt t = (readNat t).map Int.ofNat := by
  unfold readInt
  split
  · exact absurd rfl hm
  · exact absurd rfl hp
  · rfl

theorem showNat_head {n : Nat} {c : Char} (hc : c.isDigit = false) :
    (showNat n).head? ≠ some c := by
  intro h
  have hd := isDigit_of_mem_showNat (List.mem_of_head? h)
  rw [hc] at hd
  cases hd

/-- **Reading undoes printing.** -/
theorem readInt_showInt (z : Int) : readInt (showInt z) = some z := by
  cases z with
  | ofNat n =>
    have h := readInt_of_head (t := showNat n) (showNat_head (by decide))
      (showNat_head (by decide))
    rw [readNat_showNat] at h
    exact h
  | negSucc n =>
    change (readNat (showNat (n + 1))).map (fun n : Nat => -(n : Int)) = _
    rw [readNat_showNat]
    rfl

theorem showInt_injective : Function.Injective showInt := by
  intro a b h
  have hab := congrArg readInt h
  rw [readInt_showInt, readInt_showInt] at hab
  exact Option.some.inj hab

theorem showInt_inj {a b : Int} : showInt a = showInt b ↔ a = b :=
  showInt_injective.eq_iff

/-- A text that reads as a number contains only digits and signs. -/
theorem mem_of_readNat {t : Text} {n : Nat} (h : readNat t = some n) {c : Char} (hc : c ∈ t) :
    c.isDigit = true := by
  unfold readNat at h
  split at h
  · rename_i ht
    exact List.all_eq_true.mp ht.2 c hc
  · cases h

theorem mem_of_readInt {t : Text} {z : Int} (h : readInt t = some z) {c : Char} (hc : c ∈ t) :
    c = '-' ∨ c = '+' ∨ c.isDigit = true := by
  unfold readInt at h
  split at h
  · obtain ⟨n, hn, -⟩ := Option.map_eq_some_iff.mp h
    rcases List.mem_cons.mp hc with rfl | hc
    · exact Or.inl rfl
    · exact Or.inr (Or.inr (mem_of_readNat hn hc))
  · obtain ⟨n, hn, -⟩ := Option.map_eq_some_iff.mp h
    rcases List.mem_cons.mp hc with rfl | hc
    · exact Or.inr (Or.inl rfl)
    · exact Or.inr (Or.inr (mem_of_readNat hn hc))
  · obtain ⟨n, hn, -⟩ := Option.map_eq_some_iff.mp h
    exact Or.inr (Or.inr (mem_of_readNat hn hc))

/-- Hence no numeral, canonical or not, contains another character. -/
theorem not_mem_of_readInt {t : Text} {z : Int} (h : readInt t = some z) {c : Char}
    (hm : c ≠ '-') (hp : c ≠ '+') (hd : c.isDigit = false) : c ∉ t := by
  intro hc
  rcases mem_of_readInt h hc with h' | h' | h'
  · exact hm h'
  · exact hp h'
  · rw [hd] at h'
    cases h'

end CacheTrace.Text
