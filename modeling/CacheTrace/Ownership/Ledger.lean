import Mathlib.Logic.Function.Basic

/-!
# Who holds which lock

A ledger gives every lock a number of free permits and every agent the lock it holds, if any.
An agent takes a permit or gives one back; in a balanced ledger every lock has one permit,
which is free or held by one agent. `Balanced.step` says that the two moves keep the balance,
so a system whose steps move its ledger in these ways has mutual exclusion.
-/

namespace CacheTrace.Ownership

structure Ledger (K A : Type) where
  value : K → Nat
  holder : A → Option K

namespace Ledger

variable {K A : Type}

structure Balanced (l : Ledger K A) : Prop where
  value_le : ∀ k, l.value k ≤ 1
  value_eq_zero : ∀ k, l.value k = 0 ↔ ∃ a, l.holder a = some k
  unique : ∀ a b k, l.holder a = some k → l.holder b = some k → a = b

theorem balanced_free {value : K → Nat} (h : ∀ k, value k = 1) :
    Balanced (⟨value, fun _ => none⟩ : Ledger K A) where
  value_le k := Nat.le_of_eq (h k)
  value_eq_zero k := by simp [h k]
  unique a b k ha := by cases ha

theorem Balanced.value_eq_one {l : Ledger K A} (h : l.Balanced) {k : K}
    (hk : ∀ a, l.holder a ≠ some k) : l.value k = 1 := by
  have hne : l.value k ≠ 0 := by
    intro h0
    obtain ⟨a, ha⟩ := (h.value_eq_zero k).mp h0
    exact hk a ha
  have := h.value_le k
  omega

variable [DecidableEq K] [DecidableEq A]

/-- Agent `a` takes a permit of lock `k`. -/
def take (l : Ledger K A) (a : A) (k : K) : Ledger K A :=
  ⟨Function.update l.value k (l.value k - 1), Function.update l.holder a (some k)⟩

/-- Agent `a` gives back the permit of lock `k`. -/
def give (l : Ledger K A) (a : A) (k : K) : Ledger K A :=
  ⟨Function.update l.value k (l.value k + 1), Function.update l.holder a none⟩

theorem Balanced.take {l : Ledger K A} (h : l.Balanced) {a : A} {k : K}
    (ha : l.holder a = none) (hk : 0 < l.value k) : (l.take a k).Balanced := by
  have hfree : ∀ b, l.holder b ≠ some k := by
    intro b hb
    have := (h.value_eq_zero k).mpr ⟨b, hb⟩
    omega
  have hother : ∀ b k', (l.take a k).holder b = some k' →
      (b = a ∧ k' = k) ∨ (b ≠ a ∧ l.holder b = some k') := by
    intro b k' hb
    by_cases hab : b = a
    · subst hab
      simp only [Ledger.take, Function.update_self] at hb
      exact Or.inl ⟨rfl, (Option.some.inj hb).symm⟩
    · simp only [Ledger.take, Function.update_of_ne hab] at hb
      exact Or.inr ⟨hab, hb⟩
  refine ⟨fun k' => ?_, fun k' => ?_, fun b c k' hb hc => ?_⟩
  · by_cases hkk : k' = k
    · subst hkk
      have := h.value_le k'
      simp only [Ledger.take, Function.update_self]
      omega
    · simpa only [Ledger.take, Function.update_of_ne hkk] using h.value_le k'
  · by_cases hkk : k' = k
    · subst hkk
      have hle := h.value_le k'
      have hzero : (l.take a k').value k' = 0 := by
        simp only [Ledger.take, Function.update_self]
        omega
      exact iff_of_true hzero ⟨a, by simp [Ledger.take]⟩
    · simp only [Ledger.take, Function.update_of_ne hkk, h.value_eq_zero k']
      constructor
      · rintro ⟨b, hb⟩
        have hba : b ≠ a := by
          rintro rfl
          rw [ha] at hb
          cases hb
        exact ⟨b, by rw [Function.update_of_ne hba, hb]⟩
      · rintro ⟨b, hb⟩
        rcases hother b k' hb with ⟨-, hk'⟩ | ⟨-, hb'⟩
        · exact absurd hk' hkk
        · exact ⟨b, hb'⟩
  · rcases hother b k' hb with ⟨rfl, rfl⟩ | ⟨-, hb'⟩
    · rcases hother c k' hc with ⟨rfl, -⟩ | ⟨-, hc'⟩
      · rfl
      · exact absurd hc' (hfree c)
    · rcases hother c k' hc with ⟨rfl, rfl⟩ | ⟨-, hc'⟩
      · exact absurd hb' (hfree b)
      · exact h.unique b c k' hb' hc'

theorem Balanced.give {l : Ledger K A} (h : l.Balanced) {a : A} {k : K}
    (ha : l.holder a = some k) : (l.give a k).Balanced := by
  have hzero : l.value k = 0 := (h.value_eq_zero k).mpr ⟨a, ha⟩
  have hother : ∀ b k', (l.give a k).holder b = some k' ↔ b ≠ a ∧ l.holder b = some k' := by
    intro b k'
    by_cases hab : b = a
    · simp [Ledger.give, hab]
    · simp [Ledger.give, hab]
  refine ⟨fun k' => ?_, fun k' => ?_, fun b c k' hb hc => ?_⟩
  · by_cases hkk : k' = k
    · subst hkk
      simp [Ledger.give, hzero]
    · simpa only [Ledger.give, Function.update_of_ne hkk] using h.value_le k'
  · simp only [hother]
    by_cases hkk : k' = k
    · subst hkk
      refine iff_of_false (by simp [Ledger.give]) ?_
      rintro ⟨b, hba, hb⟩
      exact hba (h.unique b a k' hb ha)
    · simp only [Ledger.give, Function.update_of_ne hkk, h.value_eq_zero k']
      constructor
      · rintro ⟨b, hb⟩
        refine ⟨b, ?_, hb⟩
        rintro rfl
        exact hkk (Option.some.inj (hb.symm.trans ha))
      · rintro ⟨b, -, hb⟩
        exact ⟨b, hb⟩
  · exact h.unique b c k' ((hother b k').mp hb).2 ((hother c k').mp hc).2

/-- What a step of a system may do to its ledger. -/
inductive Step (l : Ledger K A) : Ledger K A → Prop
  | stay : Step l l
  | take {a : A} {k : K} (ha : l.holder a = none) (hk : 0 < l.value k) : Step l (l.take a k)
  | give {a : A} {k : K} (ha : l.holder a = some k) : Step l (l.give a k)

theorem Balanced.step {l l' : Ledger K A} (h : l.Balanced) (hstep : Step l l') : l'.Balanced := by
  cases hstep with
  | stay => exact h
  | take ha hk => exact h.take ha hk
  | give ha => exact h.give ha

end Ledger

end CacheTrace.Ownership
