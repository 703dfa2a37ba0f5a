import CSamples.Lemon.Language
import Mathlib.Tactic.DeriveFintype

/-!
# `Tokenizer.Parser` — the JSON parser of the tokenizer

The tables that the generator makes of `tokenizer/parser/parser.y`. The grammar has no reduce actions, so
that tokens carry no values here.

A state is listed with its kernel items. A state that reduces by one rule reduces by it for every lookahead
(the start rule excepted); a shift to a state that can only reduce is a shift-reduce, and where the rule has
a single nonterminal on its right, the goto is that of its left-hand side: `lines ::= array` and
`value ::= array`, and the same of `object`, are never reduced.

## Contents
- `Terminal`, `NonTerminal`, `Rule`, `State` and the tables `action` and `goto`; `parser`.
- `grammar`, the grammar file as a context-free grammar.
-/

namespace CSamples
namespace Tokenizer

open Lemon (Action StateNo Generated)

/-! ## Symbols and rules -/

/-- `TOKEN_O_BEGIN` to `TOKEN_NULL` -/
inductive Terminal where
  | oBegin | oEnd | comma | string | colon | aBegin | aEnd | number | true | false | null
  deriving DecidableEq, Repr

inductive NonTerminal where
  | input | lines | object | members | pair | array | elements | value
  deriving DecidableEq, Repr

/-- The scalars of `value`. -/
inductive Scalar where
  | string | number | true | false | null
  deriving DecidableEq, Repr

instance : Fintype Scalar := ⟨{.string, .number, .true, .false, .null}, fun c => by cases c <;> decide⟩

inductive Rule where
  /-- `input ::= lines .` -/
  | input
  /-- `lines ::= array .` -/
  | linesArray
  /-- `lines ::= object .` -/
  | linesObject
  /-- `object ::= O_BEGIN O_END .` -/
  | objectEmpty
  /-- `object ::= O_BEGIN members O_END .` -/
  | object
  /-- `members ::= pair .` -/
  | membersLast
  /-- `members ::= pair COMMA members .` -/
  | members
  /-- `pair ::= STRING COLON value .` -/
  | pair
  /-- `array ::= A_BEGIN A_END .` -/
  | arrayEmpty
  /-- `array ::= A_BEGIN elements A_END .` -/
  | array
  /-- `elements ::= value .` -/
  | elementsLast
  /-- `elements ::= value COMMA elements .` -/
  | elements
  /-- `value ::= STRING .`, `NUMBER`, `TRUE`, `FALSE`, `NULL` -/
  | scalar (c : Scalar)
  /-- `value ::= object .` -/
  | valueObject
  /-- `value ::= array .` -/
  | valueArray
  deriving DecidableEq, Repr, Fintype

def Scalar.terminal : Scalar → Terminal
  | .string => .string
  | .number => .number
  | .true   => .true
  | .false  => .false
  | .null   => .null

def lhs : Rule → NonTerminal
  | .input => .input
  | .linesArray => .lines
  | .linesObject => .lines
  | .objectEmpty => .object
  | .object => .object
  | .membersLast => .members
  | .members => .members
  | .pair => .pair
  | .arrayEmpty => .array
  | .array => .array
  | .elementsLast => .elements
  | .elements => .elements
  | .scalar _ => .value
  | .valueObject => .value
  | .valueArray => .value

def rhs : Rule → List (Symbol Terminal NonTerminal)
  | .input => [.nonterminal .lines]
  | .linesArray => [.nonterminal .array]
  | .linesObject => [.nonterminal .object]
  | .objectEmpty => [.terminal .oBegin, .terminal .oEnd]
  | .object => [.terminal .oBegin, .nonterminal .members, .terminal .oEnd]
  | .membersLast => [.nonterminal .pair]
  | .members => [.nonterminal .pair, .terminal .comma, .nonterminal .members]
  | .pair => [.terminal .string, .terminal .colon, .nonterminal .value]
  | .arrayEmpty => [.terminal .aBegin, .terminal .aEnd]
  | .array => [.terminal .aBegin, .nonterminal .elements, .terminal .aEnd]
  | .elementsLast => [.nonterminal .value]
  | .elements => [.nonterminal .value, .terminal .comma, .nonterminal .elements]
  | .scalar c => [.terminal c.terminal]
  | .valueObject => [.nonterminal .object]
  | .valueArray => [.nonterminal .array]

/-! ## Tables -/

inductive State where
  /-- `input ::= . lines` -/
  | start
  /-- `input ::= lines .` -/
  | lines
  /-- `array ::= A_BEGIN . A_END`, `array ::= A_BEGIN . elements A_END` -/
  | aBegin
  /-- `array ::= A_BEGIN elements . A_END` -/
  | elements
  /-- `elements ::= value .`, `elements ::= value . COMMA elements` -/
  | value
  /-- `elements ::= value COMMA . elements` -/
  | valueComma
  /-- `object ::= O_BEGIN . O_END`, `object ::= O_BEGIN . members O_END` -/
  | oBegin
  /-- `object ::= O_BEGIN members . O_END` -/
  | members
  /-- `members ::= pair .`, `members ::= pair . COMMA members` -/
  | pair
  /-- `members ::= pair COMMA . members` -/
  | pairComma
  /-- `pair ::= STRING . COLON value` -/
  | string
  /-- `pair ::= STRING COLON . value` -/
  | colon
  deriving DecidableEq, Repr

/-- What begins a value, where one is awaited. -/
def valueAction : Option Terminal → Action State Rule
  | some .aBegin => .shift .aBegin
  | some .oBegin => .shift .oBegin
  | some .string => .shiftReduce (.scalar .string)
  | some .number => .shiftReduce (.scalar .number)
  | some .true   => .shiftReduce (.scalar .true)
  | some .false  => .shiftReduce (.scalar .false)
  | some .null   => .shiftReduce (.scalar .null)
  | _            => .error

/-- `yy_action`, by state and lookahead; `none` is the end marker. -/
def action : State → Option Terminal → Action State Rule
  | .start, some .aBegin   => .shift .aBegin
  | .start, some .oBegin   => .shift .oBegin
  | .start, _              => .error
  | .lines, none           => .reduce .input
  | .lines, some _         => .error
  | .aBegin, some .aEnd    => .shiftReduce .arrayEmpty
  | .aBegin, t             => valueAction t
  | .elements, some .aEnd  => .shiftReduce .array
  | .elements, _           => .error
  | .value, some .comma    => .shift .valueComma
  | .value, _              => .reduce .elementsLast
  | .valueComma, t         => valueAction t
  | .oBegin, some .oEnd    => .shiftReduce .objectEmpty
  | .oBegin, some .string  => .shift .string
  | .oBegin, _             => .error
  | .members, some .oEnd   => .shiftReduce .object
  | .members, _            => .error
  | .pair, some .comma     => .shift .pairComma
  | .pair, _               => .reduce .membersLast
  | .pairComma, some .string => .shift .string
  | .pairComma, _          => .error
  | .string, some .colon   => .shift .colon
  | .string, _             => .error
  | .colon, t              => valueAction t

/-- `yy_action`, by state and nonterminal. -/
def goto : State → NonTerminal → Option (StateNo State Rule)
  | .start, .input         => some .accept
  | .start, .lines         => some (.state .lines)
  | .start, .array         => some (.state .lines)
  | .start, .object        => some (.state .lines)
  | .aBegin, .elements     => some (.state .elements)
  | .aBegin, .value        => some (.state .value)
  | .aBegin, .array        => some (.state .value)
  | .aBegin, .object       => some (.state .value)
  | .valueComma, .elements => some (.reduce .elements)
  | .valueComma, .value    => some (.state .value)
  | .valueComma, .array    => some (.state .value)
  | .valueComma, .object   => some (.state .value)
  | .oBegin, .members      => some (.state .members)
  | .oBegin, .pair         => some (.state .pair)
  | .pairComma, .members   => some (.reduce .members)
  | .pairComma, .pair      => some (.state .pair)
  | .colon, .value         => some (.reduce .pair)
  | .colon, .array         => some (.reduce .pair)
  | .colon, .object        => some (.reduce .pair)
  | _, _                   => none

/-! ## The parser -/

/-- Reductions that can follow one another without a shift: by rule. -/
def ruleRank : Rule → Nat
  | .input | .membersLast | .elementsLast => 1
  | .linesArray | .linesObject | .scalar _ | .valueObject | .valueArray => 2
  | _ => 0

def rank : StateNo State Rule → Nat
  | .state .lines | .state .value | .state .pair => 1
  | .state _  => 0
  | .reduce r => ruleRank r
  | .accept   => 0

theorem ruleRank_lt (r : Rule) : ruleRank r < 3 := by
  unfold ruleRank
  split <;> decide

theorem rank_lt (e : StateNo State Rule) : rank e < 3 * 3 := by
  cases e with
  | state q => cases q <;> decide
  | reduce r => exact Nat.lt_trans (ruleRank_lt r) (by decide)
  | accept => decide

theorem valueAction_ne_reduce (t : Option Terminal) (r : Rule) : valueAction t ≠ .reduce r := by
  unfold valueAction
  split <;> exact nofun

/-- The states that reduce on a lookahead. -/
theorem state_of_reduce {q : State} {t : Option Terminal} {r : Rule} (h : action q t = .reduce r) :
    q = .lines ∧ t = none ∧ r = .input ∨ q = .value ∧ t ≠ some .comma ∧ r = .elementsLast ∨
      q = .pair ∧ t ≠ some .comma ∧ r = .membersLast := by
  unfold action at h
  split at h
  all_goals first
    | exact absurd h (valueAction_ne_reduce _ _)
    | (cases h <;> simp_all)

theorem action_ne_accept (q : State) (t : Option Terminal) : action q t ≠ .accept := by
  have hvalue : ∀ t, valueAction t ≠ .accept := by
    intro t
    unfold valueAction
    split <;> exact nofun
  unfold action
  split <;> first | exact hvalue _ | (intro h; cases h)

/-- The rank of what is pushed for a nonterminal. -/
def gotoRank : NonTerminal → Nat
  | .input | .members | .elements => 0
  | _ => 1

theorem rank_of_goto {q : State} {x : NonTerminal} {s : StateNo State Rule} (h : goto q x = some s) :
    rank s ≤ gotoRank x := by
  unfold goto at h
  split at h <;> cases h <;> decide

theorem rank_goto (q : State) (r : Rule) (s e : StateNo State Rule) (hgoto : goto q (lhs r) = some s)
    (hred : Lemon.CanReduce action e r) : rank s + 3 < rank e + 3 * (rhs r).length := by
  have hs := rank_of_goto hgoto
  have he : rank e = ruleRank r := by
    cases e with
    | state q =>
        obtain ⟨t, ht⟩ := hred
        rcases state_of_reduce ht with ⟨rfl, -, rfl⟩ | ⟨rfl, -, rfl⟩ | ⟨rfl, -, rfl⟩ <;> rfl
    | reduce r' => rw [show r' = r from hred]; rfl
    | accept => exact hred.elim
  have hrule : gotoRank (lhs r) + 3 < ruleRank r + 3 * (rhs r).length := by
    cases r with
    | scalar c =>
        show 1 + 3 < 2 + 3
        decide
    | _ => decide
  omega

/-- The parser generated from `parser.y`. -/
def parser : Generated Terminal NonTerminal State Rule Unit Empty where
  start     := .start
  lhs       := lhs
  rhs       := rhs
  action    := action
  goto      := goto
  sem       := fun _ _ => ((), [])
  rank      := rank
  rankBound := 3
  rank_lt   := rank_lt
  rank_goto := rank_goto

/-- The grammar, with `%start_symbol input`. -/
abbrev grammar : ContextFreeGrammar Terminal := parser.grammar .input

end Tokenizer
end CSamples
