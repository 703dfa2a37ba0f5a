import CSamples.Grammar.First
import Mathlib.Data.Fintype.Card

/-!
# `LemonC.Struct` — grammars as `lemon.c` holds them

The data structures of `tools/lemon.c` (the `struct.h` part) for a grammar whose file has been read: terminals `τ`
(the end marker `$` has index 0 and is `none` where lookaheads are meant), nonterminals `ν`, rules with their numbers.
Sets (`set.c`) are finite sets.

## Contents
- `Rule`, `Lemon`: a multiterminal is the list of its constituents, which is what `same_symbol` compares.
- `Lemon.cfg`: the grammar in the sense of formal languages, every multiterminal spelled out.
- `nested`: a small grammar, on which results are tried out.
-/

namespace CSamples
namespace LemonC

/-! ## Sets -/

section
variable {α : Type} [DecidableEq α]

/-- `SetUnion`: true if the first set changes. `SetAdd` is the same with a single element. -/
def setUnion (s1 s2 : Finset α) : Finset α × Bool := (s1 ∪ s2, decide (¬ s2 ⊆ s1))

end

/-! ## Symbols and rules -/

/-- `enum e_assoc` -/
inductive Assoc where
  | left | right | none | unk
  deriving DecidableEq, Repr

/-- A place for a token: a TERMINAL, or a MULTITERMINAL with its `subsym`, of which there is at least one. -/
inductive Term (τ : Type) where
  | terminal (t : τ)
  | multiterminal (subsym0 : τ) (subsym : List τ)
  deriving DecidableEq, Repr

/-- The tokens that fit the place. -/
def Term.tokens {τ : Type} : Term τ → List τ
  | .terminal t                   => [t]
  | .multiterminal subsym0 subsym => subsym0 :: subsym

theorem Term.tokens_ne_nil {τ : Type} (k : Term τ) : k.tokens ≠ [] := by
  cases k <;> exact List.cons_ne_nil _ _

/-- A symbol on the right-hand side of a rule. -/
abbrev Sym (τ ν : Type) := Symbol (Term τ) ν

/-- `struct rule`, what the tables depend on. `precsym` is what the rule has between brackets in the grammar file,
    `index` its number in the file and `iRule` its number in the tables. -/
structure Rule (τ ν : Type) where
  lhs      : ν
  rhs      : List (Sym τ ν)
  ruleline : Nat
  line     : Nat
  noCode   : Bool
  precsym  : Option τ
  index    : Nat
  iRule    : Nat
  deriving DecidableEq

/-- `nrhs` -/
def Rule.nrhs {τ ν : Type} (rp : Rule τ ν) : Nat := rp.rhs.length

/-- `struct lemon` when the grammar has been read. `rule` is in the order of `iRule`, and `rulesOf` are the lists that
    hang on the nonterminals (`sp->rule`, linked by `nextlhs`); `start` is the name that `%start_symbol` gives, with the
    nonterminal of that name if there is one. -/
structure Lemon (τ ν : Type) where
  rule      : List (Rule τ ν)
  rulesOf   : ν → List (Rule τ ν)
  startRule : Rule τ ν
  start     : Option (String × Option ν)
  name      : ν → String
  prec      : τ → Int
  assoc     : τ → Assoc
  errsym    : Option ν
  wildcard  : Option τ
  filename  : String
  index_inj : ∀ rp ∈ rule, ∀ rp' ∈ rule, rp.index = rp'.index → rp = rp'
  mem_rulesOf : ∀ n rp, rp ∈ rulesOf n ↔ rp ∈ rule ∧ rp.lhs = n
  startRule_mem : startRule ∈ rule

variable {τ ν : Type}

/-- The start symbol, as `FindStates` and `FindActions` determine it. -/
def Lemon.sp (lemp : Lemon τ ν) : ν :=
  match lemp.start with
  | some (_, some n) => n
  | _                => lemp.startRule.lhs

/-- `lhsStart`, which `FindStates` sets. -/
def Lemon.lhsStart [DecidableEq ν] (lemp : Lemon τ ν) (rp : Rule τ ν) : Bool := rp.lhs = lemp.sp

/-! ## The grammar -/

/-- A symbol of a rule fits a symbol that stands for a single token or a nonterminal. -/
def Fits : Sym τ ν → Symbol τ ν → Prop
  | .terminal k, .terminal t       => t ∈ k.tokens
  | .nonterminal n, .nonterminal m => n = m
  | _, _                           => False

@[simp] theorem fits_terminal {k : Term τ} {x : Symbol τ ν} :
    Fits (.terminal k : Sym τ ν) x ↔ ∃ t ∈ k.tokens, x = .terminal t := by
  cases x <;> simp [Fits]

@[simp] theorem fits_nonterminal {n : ν} {x : Symbol τ ν} :
    Fits (.nonterminal n : Sym τ ν) x ↔ x = .nonterminal n := by
  cases x <;> simp [Fits, eq_comm]

/-- Everything that a right-hand side can be read as. -/
def spellings : List (Sym τ ν) → List (List (Symbol τ ν))
  | []                  => [[]]
  | .terminal k :: xs    => k.tokens.flatMap (fun t => (spellings xs).map (.terminal t :: ·))
  | .nonterminal n :: xs => (spellings xs).map (.nonterminal n :: ·)

theorem mem_spellings {xs : List (Sym τ ν)} {s : List (Symbol τ ν)} :
    s ∈ spellings xs ↔ List.Forall₂ Fits xs s := by
  induction xs generalizing s with
  | nil => simp [spellings]
  | cons x xs ih =>
      cases x with
      | terminal k =>
          simp only [spellings, List.mem_flatMap, List.mem_map, ih]
          constructor
          · rintro ⟨t, ht, s, hs, rfl⟩
            exact .cons ht hs
          · intro h
            cases h with
            | cons hx hs =>
                obtain ⟨t, ht, rfl⟩ := fits_terminal.mp hx
                exact ⟨t, ht, _, hs, rfl⟩
      | nonterminal n =>
          simp only [spellings, List.mem_map, ih]
          constructor
          · rintro ⟨s, hs, rfl⟩
            exact .cons rfl hs
          · intro h
            cases h with
            | cons hx hs =>
                obtain rfl := fits_nonterminal.mp hx
                exact ⟨_, hs, rfl⟩

variable [DecidableEq τ] [DecidableEq ν]

/-- The grammar of the file. -/
abbrev Lemon.cfg (lemp : Lemon τ ν) : ContextFreeGrammar τ where
  NT      := ν
  initial := lemp.sp
  rules   := (lemp.rule.flatMap (fun rp => (spellings rp.rhs).map (⟨rp.lhs, ·⟩))).toFinset

theorem Lemon.mem_rules {lemp : Lemon τ ν} {r : ContextFreeRule τ ν} :
    r ∈ lemp.cfg.rules ↔ ∃ rp ∈ lemp.rule, rp.lhs = r.input ∧ List.Forall₂ Fits rp.rhs r.output := by
  obtain ⟨n, s⟩ := r
  refine (List.mem_toFinset (l := lemp.rule.flatMap _)).trans ?_
  simp only [List.mem_flatMap, List.mem_map]
  constructor
  · rintro ⟨rp, hrp, s', hs, heq⟩
    obtain ⟨rfl, rfl⟩ := ContextFreeRule.mk.inj heq
    exact ⟨rp, hrp, rfl, mem_spellings.mp hs⟩
  · rintro ⟨rp, hrp, rfl, hs⟩
    exact ⟨rp, hrp, s, mem_spellings.mpr hs, rfl⟩

/-! ## An example -/

/-- Two tokens. -/
inductive Bracket where
  | opening | closing
  deriving DecidableEq, Repr

/-- Two nonterminals. -/
inductive Nest where
  | file | nest
  deriving DecidableEq, Repr

instance : Fintype Bracket := ⟨{.opening, .closing}, fun x => by cases x <;> decide⟩

instance : Fintype Nest := ⟨{.file, .nest}, fun x => by cases x <;> decide⟩

/-- The rule in line `i + 1`, with code. -/
def nestedRule (i : Nat) (lhs : Nest) (rhs : List (Sym Bracket Nest)) : Rule Bracket Nest where
  lhs      := lhs
  rhs      := rhs
  ruleline := i + 1
  line     := i + 1
  noCode   := false
  precsym  := none
  index    := i
  iRule    := i

/-- `file ::= nest. nest ::= OPENING nest CLOSING. nest ::= .` -/
def nestedRules : List (Rule Bracket Nest) :=
  [nestedRule 0 .file [.nonterminal .nest],
    nestedRule 1 .nest [.terminal (.terminal .opening), .nonterminal .nest, .terminal (.terminal .closing)],
    nestedRule 2 .nest []]

/-- Brackets in brackets. -/
def nested : Lemon Bracket Nest where
  rule      := nestedRules
  rulesOf   := fun n => nestedRules.filter (fun rp => rp.lhs = n)
  startRule := nestedRule 0 .file [.nonterminal .nest]
  start     := none
  name      := fun
    | .file => "file"
    | .nest => "nest"
  prec      := fun _ => -1
  assoc     := fun _ => .unk
  errsym    := none
  wildcard  := none
  filename  := "nested.y"
  index_inj := by decide
  mem_rulesOf := by
    intro n rp
    rw [List.mem_filter, decide_eq_true_eq]
  startRule_mem := .head _

end LemonC
end CSamples
