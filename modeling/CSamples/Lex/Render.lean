import Mathlib.Data.List.Chain

/-!
# `Lex.Render` — tokens written down with blanks between them

A text made of the texts of tokens, in order, with any number of blanks before, between and behind them. It
is the side of a scanner's specification that says what was put into the text; which neighbours need a blank
between them is a relation on tokens that the scanner's proof brings.

## Contents
- `Renders`, with `Renders.append` and `Renders.cut`; `Renders.head` and `Renders.mem`: where the symbols of a text come from.
- `isChain_join`: sequences joined by an element that may stand next to any.
-/

namespace CSamples
namespace Lex

variable {α τ : Type}

/-- The texts of the tokens `ts`, and blanks before, between and behind them. -/
inductive Renders (blank : α → Bool) : List (τ × List α) → List α → Prop
  | nil : Renders blank [] []
  | blank {b : α} {ts : List (τ × List α)} {w : List α} (hb : blank b = true) (h : Renders blank ts w) :
      Renders blank ts (b :: w)
  | token (t : τ) (u : List α) {ts : List (τ × List α)} {w : List α} (h : Renders blank ts w) :
      Renders blank ((t, u) :: ts) (u ++ w)

theorem Renders.append {blank : α → Bool} {ts us : List (τ × List α)} {v w : List α} (h : Renders blank ts v)
    (h' : Renders blank us w) : Renders blank (ts ++ us) (v ++ w) := by
  induction h with
  | nil => exact h'
  | blank hb _ ih => exact .blank hb ih
  | token t u _ ih =>
      rw [List.append_assoc]
      exact .token t u ih

/-- A text cut in two: between two tokens, or in one. -/
theorem Renders.cut {blank : α → Bool} {ts : List (τ × List α)} {v v' : List α} (h : Renders blank ts (v ++ v')) :
    (∃ ps qs, ts = ps ++ qs ∧ Renders blank ps v ∧ Renders blank qs v') ∨
    ∃ ps t u u' qs, ts = ps ++ (t, u) :: qs ∧ u' <+: u ∧ u' ≠ [] ∧ u' ≠ u ∧ Renders blank (ps ++ [(t, u')]) v := by
  generalize hw : v ++ v' = w at h
  induction h generalizing v with
  | nil =>
      obtain ⟨rfl, rfl⟩ := List.append_eq_nil_iff.mp hw
      exact .inl ⟨[], [], rfl, .nil, .nil⟩
  | @blank b ts w hb h ih =>
      rcases List.append_eq_cons_iff.mp hw with ⟨rfl, rfl⟩ | ⟨v, rfl, rfl⟩
      · exact .inl ⟨[], ts, rfl, .nil, .blank hb h⟩
      · rcases ih rfl with ⟨ps, qs, hts, hps, hqs⟩ | ⟨ps, t, u, u', qs, hts, hpre, hne, hlt, hps⟩
        · exact .inl ⟨ps, qs, hts, .blank hb hps, hqs⟩
        · exact .inr ⟨ps, t, u, u', qs, hts, hpre, hne, hlt, .blank hb hps⟩
  | @token t u ts w h ih =>
      rcases List.append_eq_append_iff.mp hw with ⟨c, rfl, rfl⟩ | ⟨c, rfl, rfl⟩
      · -- the cut is in the first token, or at one of its ends
        by_cases hne : v = []
        · subst hne
          exact .inl ⟨[], (t, c) :: ts, rfl, .nil, .token t c h⟩
        · have hone : Renders blank [(t, v)] (v ++ []) := .token t v .nil
          rw [List.append_nil] at hone
          by_cases hc : c = []
          · subst hc
            exact .inl ⟨[(t, v)], ts, by rw [List.append_nil]; rfl, hone, h⟩
          · refine .inr ⟨[], t, v ++ c, v, ts, rfl, List.prefix_append v c, hne, fun heq => hc ?_, hone⟩
            exact List.self_eq_append_right.mp heq
      · rcases ih rfl with ⟨ps, qs, hts, hps, hqs⟩ | ⟨ps, t', u', u'', qs, hts, hpre, hne, hlt, hps⟩
        · exact .inl ⟨(t, u) :: ps, qs, by rw [hts]; rfl, .token t u hps, hqs⟩
        · exact .inr ⟨(t, u) :: ps, t', u', u'', qs, by rw [hts]; rfl, hpre, hne, hlt, .token t u hps⟩

/-- What a text starts with: a blank, or the first token. -/
theorem Renders.head {blank : α → Bool} {ts : List (τ × List α)} {w : List α} (h : Renders blank ts w)
    (hne : ∀ x ∈ ts, x.2 ≠ []) : ∀ b ∈ w.head?, blank b = true ∨ ∃ x ∈ ts.head?, b ∈ x.2.head? := by
  intro b hb
  cases h with
  | nil => exact absurd hb (by simp)
  | blank hbl _ =>
      obtain rfl := Option.some.inj hb
      exact .inl hbl
  | token t u _ =>
      obtain ⟨a, u, rfl⟩ := List.exists_cons_of_ne_nil (hne (t, u) (List.mem_cons_self ..))
      exact .inr ⟨_, rfl, hb⟩

/-- The symbols of a text. -/
theorem Renders.mem {blank : α → Bool} {ts : List (τ × List α)} {w : List α} (h : Renders blank ts w) {b : α}
    (hb : blank b = false) : b ∈ w ↔ ∃ x ∈ ts, b ∈ x.2 := by
  induction h with
  | nil => simp
  | @blank c ts w hc _ ih =>
      have hne : b ≠ c := by
        rintro rfl
        rw [hb] at hc
        exact absurd hc (by decide)
      rw [List.mem_cons, ih]
      exact or_iff_right hne
  | token t u _ ih =>
      rw [List.mem_append, ih]
      simp

/-- Chains on both sides of an element that may stand next to any. -/
theorem isChain_join {R : α → α → Prop} {a : α} (ha : ∀ b, R a b ∧ R b a) {u v : List α}
    (hu : u.IsChain R) (hv : v.IsChain R) : (u ++ a :: v).IsChain R := by
  refine List.isChain_append.mpr ⟨hu, List.isChain_cons.mpr ⟨fun b _ => (ha b).1, hv⟩, ?_⟩
  intro b _ c hc
  obtain rfl : a = c := Option.some.inj hc
  exact (ha b).2

end Lex
end CSamples
