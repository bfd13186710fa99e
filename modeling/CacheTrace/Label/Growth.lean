import CacheTrace.Label.Semantics

/-!
# Labels of a growing trace

A trace is labelled again after more lines were appended to it. The windows that were
written before are written again in the same places, and their lookahead slices only grow:
a label `0` stays, and a label `1` can only become `0` in a window whose lookahead slice
was cut off at the end of the shorter trace (`main_grow`).
-/

namespace CacheTrace.Label

open Text

variable {cfg : Config}

theorem drop_prefix_append {α : Type} (t s : List α) (a : Nat) : t.drop a <+: (t ++ s).drop a := by
  rw [List.drop_append]
  exact List.prefix_append _ _

theorem lookaheadLines_grow (t s : List Text) (i : Nat) :
    lookaheadLines cfg t i <+: lookaheadLines cfg (t ++ s) i :=
  (drop_prefix_append t s _).take _

/-- A lookahead slice that ends inside the trace does not grow. -/
theorem lookaheadLines_append {t : List Text} (s : List Text) {i : Nat}
    (hfull : (i + 1) * cfg.window + cfg.lookahead * cfg.window ≤ t.length) :
    lookaheadLines cfg (t ++ s) i = lookaheadLines cfg t i := by
  refine (List.IsPrefix.eq_of_length (lookaheadLines_grow t s i) ?_).symm
  simp only [lookaheadLines, List.length_take, List.length_drop, List.length_append]
  omega

theorem labelOf_append_zero {t : List Text} (s : List Text) {i : Nat} {l : Text}
    (h : labelOf cfg t i l = ['0']) : labelOf cfg (t ++ s) i l = ['0'] := by
  obtain ⟨b, hb, hsame⟩ := labelOf_eq_zero.mp h
  exact labelOf_eq_zero.mpr ⟨b, (lookaheadLines_grow t s i).subset hb, hsame⟩

theorem labelOf_append {t : List Text} (s : List Text) {i : Nat} (l : Text)
    (hfull : (i + 1) * cfg.window + cfg.lookahead * cfg.window ≤ t.length) :
    labelOf cfg (t ++ s) i l = labelOf cfg t i l := by
  unfold labelOf
  rw [lookaheadLines_append s hfull]

theorem nrWindows_mono {m n : Nat} (h : m ≤ n) : nrWindows m ≤ nrWindows n := by
  rw [nrWindows_eq, nrWindows_eq]
  exact Nat.div_le_div_right (by omega)

/-- **Stability of labels.** `t` is labelled, then `t ++ s`. -/
theorem main_grow (t s : List Text) (hfields : ∀ l ∈ t ++ s, 5 ≤ (split delim l).length) :
    (main config t).2 = none ∧ (main config (t ++ s)).2 = none ∧
      (main config t).1.map Prod.fst <+: (main config (t ++ s)).1.map Prod.fst ∧
      ∀ k a b, (main config t).1[k]? = some a → (main config (t ++ s)).1[k]? = some b →
        (a.2 = ['0'] → b.2 = ['0']) ∧
        (a.2 = ['1'] → b.2 = ['0'] → ∃ i j, j < 100 ∧ k + 100 = i * 100 + j ∧
          t[i * 100 + j]? = some a.1 ∧ (i + 1) * 100 + 200 > t.length) := by
  have hts : HasAccess (t ++ s) := fun l hl => (by decide : 4 ≤ 5).trans (hfields l hl)
  have ht : HasAccess t := fun l hl => hts l (List.mem_append_left s hl)
  have hfit := nrWindows_mul_le t.length
  have hfit' := nrWindows_mul_le (t ++ s).length
  rw [main_config_eq ht, main_config_eq hts]
  refine ⟨rfl, rfl, ?_, ?_⟩
  · rw [emitted_lines hfit, emitted_lines hfit']
    have hcount : nrWindows t.length - 1 ≤ nrWindows (t ++ s).length - 1 :=
      Nat.sub_le_sub_right (nrWindows_mono (by simp)) 1
    exact ((drop_prefix_append t s _).take _).trans
      (List.take_prefix_take_left (Nat.mul_le_mul_right _ hcount))
  · intro k a b ha hb
    -- both runs write line `100 + k` of the trace, labelled in the same window
    have hk := (List.getElem?_eq_some_iff.mp ha).1
    have hk' := (List.getElem?_eq_some_iff.mp hb).1
    rw [emitted_getElem? hfit hk] at ha
    rw [emitted_getElem? hfit' hk'] at hb
    obtain ⟨l, hl, rfl⟩ := Option.map_eq_some_iff.mp ha
    obtain ⟨l', hl', rfl⟩ := Option.map_eq_some_iff.mp hb
    have hline : l' = l := by
      rw [List.getElem?_append_left (List.getElem?_eq_some_iff.mp hl).1, hl] at hl'
      exact (Option.some.inj hl').symm
    subst hline
    refine ⟨labelOf_append_zero s, ?_⟩
    intro h1 h0
    refine ⟨1 + k / 100, k % 100, Nat.mod_lt _ (by decide), by omega, ?_, ?_⟩
    · rw [show (1 + k / 100) * 100 + k % 100 = config.window + k by
        change _ = 100 + k
        omega]
      exact hl
    · by_contra hfull
      dsimp only at h1 h0
      have hslice : (1 + k / config.window + 1) * config.window +
          config.lookahead * config.window ≤ t.length := by
        change (1 + k / 100 + 1) * 100 + 2 * 100 ≤ t.length
        omega
      rw [labelOf_append s l' hslice, h1] at h0
      cases h0

theorem main_grow_replicate :
    (main config (List.replicate 300 sampleLine)).1.map Prod.fst <+:
      (main config (List.replicate 300 sampleLine ++ List.replicate 50 sampleLine)).1.map
        Prod.fst := by
  have hfields : ∀ l ∈ List.replicate 300 sampleLine ++ List.replicate 50 sampleLine,
      5 ≤ (split delim l).length := by
    intro l hl
    obtain rfl : l = sampleLine := by
      rcases List.mem_append.mp hl with hl | hl
      · exact List.eq_of_mem_replicate hl
      · exact List.eq_of_mem_replicate hl
    decide
  exact (main_grow _ _ hfields).2.2.1

end CacheTrace.Label
