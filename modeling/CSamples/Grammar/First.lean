import CSamples.Grammar.Yield

/-!
# `Grammar.First` — what a sentential form can begin with

`Begins g a s`: the terminal `a` can come first in what `s` derives. It is defined by the structure of `s`, and
`begins_iff_derives` says that it is about derivations. No word has to come out of the rest: the rest of the form
may hold nonterminals that derive no word at all.
-/

namespace CSamples
namespace Grammar

variable {T : Type} {g : ContextFreeGrammar T}

/-- `a` begins a form that `s` derives. -/
inductive Begins (g : ContextFreeGrammar T) (a : T) : List (Symbol T g.NT) → Prop
  | terminal (s : List (Symbol T g.NT)) : Begins g a (.terminal a :: s)
  | rule {r : ContextFreeRule T g.NT} (hr : r ∈ g.rules) (h : Begins g a r.output) (s : List (Symbol T g.NT)) :
      Begins g a (.nonterminal r.input :: s)
  | skip {x : g.NT} {s : List (Symbol T g.NT)} (hx : Yields g [.nonterminal x] []) (h : Begins g a s) :
      Begins g a (.nonterminal x :: s)

/-- What derives the empty word. -/
theorem yields_nil_iff_derives {s : List (Symbol T g.NT)} : Yields g s [] ↔ g.Derives s [] := yields_iff_derives

theorem yields_append_nil {s t : List (Symbol T g.NT)} :
    Yields g (s ++ t) [] ↔ Yields g s [] ∧ Yields g t [] := by
  rw [yields_append]
  constructor
  · rintro ⟨u, v, huv, hu, hv⟩
    obtain ⟨rfl, rfl⟩ := List.nil_eq_append_iff.mp huv
    exact ⟨hu, hv⟩
  · rintro ⟨hs, ht⟩
    exact ⟨[], [], rfl, hs, ht⟩

/-- A terminal does not vanish. -/
theorem yields_terminal_nil {a : T} {s : List (Symbol T g.NT)} : ¬ Yields g (.terminal a :: s) [] := by
  intro h
  generalize hw : ([] : List T) = w at h
  cases h
  exact absurd hw.symm (List.cons_ne_nil _ _)

theorem begins_nil (a : T) : ¬ Begins g a [] := by
  intro h
  cases h

theorem begins_terminal {a b : T} {s : List (Symbol T g.NT)} : Begins g a (.terminal b :: s) ↔ b = a := by
  constructor
  · intro h
    cases h
    rfl
  · rintro rfl
    exact .terminal s

/-- A form begins with what its first part begins with, or its second one if the first can vanish. -/
theorem begins_append {a : T} {s t : List (Symbol T g.NT)} :
    Begins g a (s ++ t) ↔ Begins g a s ∨ (Yields g s [] ∧ Begins g a t) := by
  constructor
  · intro h
    induction s with
    | nil => exact .inr ⟨.nil, h⟩
    | cons x s ih =>
        cases h with
        | terminal => exact .inl (.terminal s)
        | rule hr h => exact .inl (.rule hr h s)
        | skip hx h =>
            rcases ih h with h | ⟨hs, h⟩
            · exact .inl (.skip hx h)
            · exact .inr ⟨yields_append_nil (s := [_]).mpr ⟨hx, hs⟩, h⟩
  · intro h
    rcases h with h | ⟨hs, h⟩
    · induction h with
      | terminal s => exact .terminal (s ++ t)
      | rule hr h s _ => exact .rule hr h (s ++ t)
      | skip hx _ ih => exact .skip hx ih
    · induction s with
      | nil => exact h
      | cons x s ih =>
          obtain ⟨hx, hrest⟩ := yields_append_nil (s := [x]).mp hs
          cases x with
          | terminal b => exact absurd hx yields_terminal_nil
          | nonterminal n => exact .skip hx (ih hrest)

/-- **Beginnings and derivations.** -/
theorem begins_iff_derives {a : T} {s : List (Symbol T g.NT)} :
    Begins g a s ↔ ∃ u, g.Derives s (.terminal a :: u) := by
  constructor
  · intro h
    induction h with
    | terminal s => exact ⟨s, .refl _⟩
    | @rule r hr _ s ih =>
        obtain ⟨u, hu⟩ := ih
        have hrule : g.Produces [.nonterminal r.input] r.output := ⟨r, hr, ContextFreeRule.Rewrites.input_output⟩
        exact ⟨u ++ s, (hrule.trans_derives hu).append_right s⟩
    | @skip x s hx _ ih =>
        obtain ⟨u, hu⟩ := ih
        exact ⟨u, ((yields_nil_iff_derives.mp hx).append_right s).trans hu⟩
  · rintro ⟨u, h⟩
    -- every rewriting step is undone
    generalize ht : Symbol.terminal a :: u = t at h
    induction h using Relation.ReflTransGen.head_induction_on with
    | refl => exact ht ▸ .terminal u
    | head hstep _ ih =>
        obtain ⟨r, hr, hrw⟩ := hstep
        obtain ⟨p, q, rfl, rfl⟩ := hrw.exists_parts
        rw [begins_append, begins_append] at ih
        rw [begins_append, begins_append]
        rcases ih with (h | ⟨hp, h⟩) | ⟨h, hq⟩
        · exact .inl (.inl h)
        · exact .inl (.inr ⟨hp, .rule hr h []⟩)
        · obtain ⟨hp, hout⟩ := yields_append_nil.mp h
          exact .inr ⟨yields_append_nil.mpr ⟨hp, .rule hr hout⟩, hq⟩

end Grammar
end CSamples
