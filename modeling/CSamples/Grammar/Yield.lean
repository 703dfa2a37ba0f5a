import Mathlib.Computability.ContextFreeGrammar

/-!
# `Grammar.Yield` — what a sentential form yields

The words a string of symbols derives, by structure: `Yields g s w` splits `w` among the symbols of `s`. It is
the derivation relation of a context-free grammar (`yields_iff_derives`) without its rewriting order, so that
proofs about all words of a grammar are inductions on it. `Yields.fold` is the induction over parse trees.
-/

namespace CSamples
namespace Grammar

variable {T : Type} {g : ContextFreeGrammar T}

/-- A word that a string of symbols yields. -/
inductive Yields (g : ContextFreeGrammar T) : List (Symbol T g.NT) → List T → Prop
  | nil : Yields g [] []
  | terminal (a : T) {s : List (Symbol T g.NT)} {w : List T} (h : Yields g s w) :
      Yields g (.terminal a :: s) (a :: w)
  | nonterminal {r : ContextFreeRule T g.NT} (hr : r ∈ g.rules) {s : List (Symbol T g.NT)} {u w : List T}
      (hu : Yields g r.output u) (h : Yields g s w) : Yields g (.nonterminal r.input :: s) (u ++ w)

/-! ## Structure -/

theorem Yields.append {s t : List (Symbol T g.NT)} {u w : List T} (hu : Yields g s u) (hw : Yields g t w) :
    Yields g (s ++ t) (u ++ w) := by
  induction hu with
  | nil => exact hw
  | terminal a _ ih => exact .terminal a ih
  | nonterminal hr hu _ _ ih =>
      rw [List.append_assoc]
      exact .nonterminal hr hu ih

theorem yields_append {s t : List (Symbol T g.NT)} {w : List T} :
    Yields g (s ++ t) w ↔ ∃ u v, w = u ++ v ∧ Yields g s u ∧ Yields g t v := by
  constructor
  · intro h
    induction s generalizing w with
    | nil => exact ⟨[], w, rfl, .nil, h⟩
    | cons x s ih =>
        cases h with
        | terminal a h =>
            obtain ⟨u, v, rfl, hu, hv⟩ := ih h
            exact ⟨a :: u, v, rfl, .terminal a hu, hv⟩
        | @nonterminal r hr _ u₁ _ hu₁ h =>
            obtain ⟨u, v, rfl, hu, hv⟩ := ih h
            exact ⟨u₁ ++ u, v, (List.append_assoc ..).symm, .nonterminal hr hu₁ hu, hv⟩
  · rintro ⟨u, v, rfl, hu, hv⟩
    exact hu.append hv

theorem yields_nil {w : List T} : Yields g [] w ↔ w = [] := by
  constructor
  · intro h
    cases h
    rfl
  · rintro rfl
    exact .nil

/-- One rule. -/
theorem Yields.rule {r : ContextFreeRule T g.NT} (hr : r ∈ g.rules) {u : List T} (hu : Yields g r.output u) :
    Yields g [.nonterminal r.input] u := by
  have h := Yields.nonterminal hr hu .nil
  rwa [List.append_nil] at h

theorem yields_terminals (w : List T) : Yields g (w.map .terminal) w := by
  induction w with
  | nil => exact .nil
  | cons a w ih => exact .terminal a ih

/-- **Yields and derivations.** -/
theorem yields_iff_derives {s : List (Symbol T g.NT)} {w : List T} :
    Yields g s w ↔ g.Derives s (w.map .terminal) := by
  constructor
  · intro h
    induction h with
    | nil => exact .refl _
    | terminal a _ ih => exact ih.append_left [.terminal a]
    | @nonterminal r hr s u w _ _ ihu ih =>
        have hrule : g.Produces [.nonterminal r.input] r.output := ⟨r, hr, ContextFreeRule.Rewrites.input_output⟩
        rw [List.map_append]
        exact ((hrule.trans_derives ihu).append_right s).trans (ih.append_left _)
  · intro h
    -- every rewriting step is undone
    induction h using Relation.ReflTransGen.head_induction_on with
    | refl => exact yields_terminals w
    | head hstep _ ih =>
        obtain ⟨r, hr, hrw⟩ := hstep
        obtain ⟨p, q, rfl, rfl⟩ := hrw.exists_parts
        obtain ⟨u, v, rfl, hu, hv⟩ := yields_append.mp ih
        obtain ⟨u₁, u₂, rfl, hu₁, hu₂⟩ := yields_append.mp hu
        exact (hu₁.append (.rule hr hu₂)).append hv

theorem mem_language_iff_yields {w : List T} : w ∈ g.language ↔ Yields g [.nonterminal g.initial] w :=
  yields_iff_derives.symm

/-! ## Induction over parse trees -/

/-- A word split among symbols, the parts of nonterminals satisfying `Q`. -/
inductive Parts {N : Type} (Q : N → List T → Prop) : List (Symbol T N) → List T → Prop
  | nil : Parts Q [] []
  | terminal (a : T) {s : List (Symbol T N)} {w : List T} (h : Parts Q s w) : Parts Q (.terminal a :: s) (a :: w)
  | nonterminal {x : N} {s : List (Symbol T N)} {u w : List T} (hu : Q x u) (h : Parts Q s w) :
      Parts Q (.nonterminal x :: s) (u ++ w)

/-- **Induction over parse trees**: what every rule carries from the parts to the whole. -/
theorem Yields.fold {Q : g.NT → List T → Prop} (hrule : ∀ r ∈ g.rules, ∀ w, Parts Q r.output w → Q r.input w)
    {s : List (Symbol T g.NT)} {w : List T} (h : Yields g s w) : Parts Q s w := by
  induction h with
  | nil => exact .nil
  | terminal a _ ih => exact .terminal a ih
  | nonterminal hr _ _ ihu ih => exact .nonterminal (hrule _ hr _ ihu) ih

theorem Parts.single {N : Type} {Q : N → List T → Prop} {x : N} {w : List T} (h : Parts Q [.nonterminal x] w) :
    Q x w := by
  cases h with
  | nonterminal hu h =>
      cases h
      rwa [List.append_nil]

end Grammar
end CSamples
