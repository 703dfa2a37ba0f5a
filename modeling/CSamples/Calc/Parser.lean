import CSamples.C.Int
import CSamples.Lemon.Engine

/-!
# `Calc.Parser` — the parser of the calculator

The tables that the generator makes of `calc/parser/parser.y`, and its reduce actions.

A state is listed with its kernel items. The conflicts of `expr ::= expr op expr` are resolved by the
declared precedences; a state that reduces by one rule reduces by it for every other lookahead (the start
rule excepted); a shift to a state that can only reduce is a shift-reduce.

## Contents
- `Op`, `Terminal`, `NonTerminal`, `Rule`, `State` and the tables `action` and `goto`.
- `sem`, the reduce actions on `Token` values; `Out`, what they print and the undefined operations they
  execute.
- `parser`.
-/

namespace CSamples
namespace Calc

/-! ## Symbols and rules -/

/-- The binary operators. -/
inductive Op where
  | plus | minus | times | divide | mod | exp
  deriving DecidableEq, Repr

/-- `TOKEN_PLUS` to `TOKEN_EXP`, `TOKEN_NUM`, `TOKEN_LRB`, `TOKEN_RRB`, `TOKEN_NEWLINE` -/
inductive Terminal where
  | op (o : Op)
  | num | lrb | rrb | newline
  deriving DecidableEq, Repr

/-- `in` is called `input` here. -/
inductive NonTerminal where
  | main | input | state | expr
  deriving DecidableEq, Repr

inductive Rule where
  /-- `main ::= in.` -/
  | mainIn
  /-- `in ::= .` -/
  | inNil
  /-- `in ::= in state NEWLINE.` -/
  | inLine
  /-- `state ::= expr(A).` -/
  | stateExpr
  /-- `expr(A) ::= expr(B) op expr(C).` -/
  | exprOp (o : Op)
  /-- `expr(A) ::= NUM(B).` -/
  | exprNum
  /-- `expr(A) ::= LRB expr(B) RRB.` -/
  | exprBracket
  deriving DecidableEq, Repr

def lhs : Rule → NonTerminal
  | .mainIn => .main
  | .inNil => .input
  | .inLine => .input
  | .stateExpr => .state
  | .exprOp _ => .expr
  | .exprNum => .expr
  | .exprBracket => .expr

def rhs : Rule → List (Symbol Terminal NonTerminal)
  | .mainIn => [.nonterminal .input]
  | .inNil => []
  | .inLine => [.nonterminal .input, .nonterminal .state, .terminal .newline]
  | .stateExpr => [.nonterminal .expr]
  | .exprOp o => [.nonterminal .expr, .terminal (.op o), .nonterminal .expr]
  | .exprNum => [.terminal .num]
  | .exprBracket => [.terminal .lrb, .nonterminal .expr, .terminal .rrb]

/-! ## Tables -/

/-- `%left PLUS MINUS.`, `%left TIMES DIVIDE MOD.`, `%right EXP.`, from the lowest. -/
def Op.level : Op → Nat
  | .plus => 1
  | .minus => 1
  | .times => 2
  | .divide => 2
  | .mod => 2
  | .exp => 3

/-- The associativity of a level. -/
def rightAssoc (level : Nat) : Bool := level == 3

/-- In the conflict between reducing `expr op expr` and shifting the next operator, a rule of higher
    precedence is reduced, and one of the same precedence when it is left associative. -/
def reduces (rule next : Op) : Bool :=
  next.level < rule.level || (next.level == rule.level && !rightAssoc rule.level)

inductive State where
  /-- `main ::= . in` -/
  | start
  /-- `main ::= in .`, `in ::= in . state NEWLINE` -/
  | input
  /-- `in ::= in state . NEWLINE` -/
  | state
  /-- `state ::= expr .`, `expr ::= expr . op expr` -/
  | expr
  /-- `expr ::= LRB . expr RRB` -/
  | lrb
  /-- `expr ::= LRB expr . RRB`, `expr ::= expr . op expr` -/
  | bracket
  /-- `expr ::= expr op . expr` -/
  | op (o : Op)
  /-- `expr ::= expr op expr .`, `expr ::= expr . op expr` -/
  | operand (o : Op)
  deriving DecidableEq, Repr

open Lemon (Action StateNo Generated)

/-- `yy_action`, by state and lookahead; `none` is the end marker. -/
def action : State → Option Terminal → Action State Rule
  | .start, _                     => .reduce .inNil
  | .input, none                  => .reduce .mainIn
  | .input, some .num             => .shiftReduce .exprNum
  | .input, some .lrb             => .shift .lrb
  | .input, some _                => .error
  | .state, some .newline         => .shiftReduce .inLine
  | .state, _                     => .error
  | .expr, some (.op o)           => .shift (.op o)
  | .expr, _                      => .reduce .stateExpr
  | .lrb, some .num               => .shiftReduce .exprNum
  | .lrb, some .lrb               => .shift .lrb
  | .lrb, _                       => .error
  | .bracket, some (.op o)        => .shift (.op o)
  | .bracket, some .rrb           => .shiftReduce .exprBracket
  | .bracket, _                   => .error
  | .op _, some .num              => .shiftReduce .exprNum
  | .op _, some .lrb              => .shift .lrb
  | .op _, _                      => .error
  | .operand o, some (.op next)   => if reduces o next then .reduce (.exprOp o) else .shift (.op next)
  | .operand o, _                 => .reduce (.exprOp o)

/-- `yy_action`, by state and nonterminal. -/
def goto : State → NonTerminal → Option (StateNo State Rule)
  | .start, .main  => some .accept
  | .start, .input => some (.state .input)
  | .input, .state => some (.state .state)
  | .input, .expr  => some (.state .expr)
  | .lrb, .expr    => some (.state .bracket)
  | .op o, .expr   => some (.state (.operand o))
  | _, _           => none

/-! ## Reduce actions -/

/-- `Token`; `none` is a field that nothing was assigned to. -/
structure Token where
  value : Option Int
  n     : Option UInt32
  deriving DecidableEq, Repr

/-- What the reduce actions do besides assigning: the printed result, the message about a division by
    zero, and the execution of an operation that C leaves undefined. -/
inductive Out where
  | result (n : Option UInt32) (value : Option Int)
  | divideByZero
  | undefined
  deriving DecidableEq, Repr

/-- `yylhsminor`: the left-hand side value before the action assigns to it. -/
def unassigned : Token := ⟨none, none⟩

/-- An operation on two `int` operands. -/
def operate (f : Int → Int → Option Int) (b c : Option Int) : Option Int :=
  b.bind (fun x => c.bind (f x))

/-- `B.n+1 + C.n+1` -/
def sumN (b c : Token) : Option UInt32 := b.n.bind (fun x => c.n.map (fun y => x + 1 + y + 1))

/-- A value that was computed. -/
def computed (value : Option Int) (n : Option UInt32) : Token × List Out :=
  (⟨value, n⟩, if value.isNone then [.undefined] else [])

/-- `expr(A) ::= expr(B) op expr(C).`; `pow` is the library function followed by the conversion to
    `int`. -/
def exprOp (pow : Int → Int → Option Int) (b c : Token) : Op → Token × List Out
  | .minus => computed (operate C.sub b.value c.value) (sumN b c)
  | .plus => computed (operate C.add b.value c.value) (sumN b c)
  | .times => computed (operate C.mul b.value c.value) (sumN b c)
  | .exp => computed (operate pow b.value c.value) (sumN b c)
  | .divide =>
      match c.value with
      | none => (unassigned, [.undefined])
      | some y =>
          if y ≠ 0 then computed (operate C.div b.value c.value) (sumN b c)
          else (unassigned, [.divideByZero])
  | .mod => computed (operate C.mod b.value c.value) none

/-- The reduce actions. A rule without one leaves the value of its first symbol in place; `expr(A)` of
    `LRB expr(B) RRB` is the slot of `LRB`. -/
def sem (pow : Int → Int → Option Int) : Rule → List Token → Token × List Out
  | .stateExpr, [a] => (a, [.result a.n a.value])
  | .exprOp o, [b, _, c] => exprOp pow b c o
  | .exprNum, [b] => (⟨b.value, b.n.map (· + 1)⟩, [])
  | .exprBracket, [lrb, b, _] => (⟨b.value, lrb.n⟩, [])
  | .inLine, [a, _, _] => (a, [])
  | .mainIn, [a] => (a, [])
  | _, _ => (unassigned, [])

/-! ## The parser -/

/-- Reductions that can follow one another without a shift. -/
def rank : StateNo State Rule → Nat
  | .state .start      => 6
  | .state .input      => 1
  | .state .expr       => 1
  | .state _           => 0
  | .reduce .inNil     => 6
  | .reduce .mainIn    => 1
  | .reduce .stateExpr => 1
  | .reduce .exprNum   => 2
  | .reduce _          => 0
  | .accept            => 0

theorem rank_lt (e : StateNo State Rule) : rank e < 3 * 4 := by
  unfold rank
  split <;> decide

/-- The state in which a rule without further symbols to its left is reduced on a lookahead. -/
theorem state_of_reduce {q : State} {t : Option Terminal} {r : Rule} (h : action q t = .reduce r) :
    q = .start ∧ r = .inNil ∨ q = .input ∧ r = .mainIn ∨ q = .expr ∧ r = .stateExpr ∨
      ∃ o, q = .operand o ∧ r = .exprOp o := by
  unfold action at h
  split at h
  all_goals first
    | (obtain rfl := Lemon.Action.reduce.inj h; simp)
    | (split at h
       · obtain rfl := Lemon.Action.reduce.inj h
         simp
       · simp at h)
    | simp at h

theorem rank_goto (q : State) (r : Rule) (s e : StateNo State Rule) (hgoto : goto q (lhs r) = some s)
    (hred : Lemon.CanReduce action e r) : rank s + 4 < rank e + 4 * (rhs r).length := by
  -- the rank of the new top, by the nonterminal
  have hs : rank s ≤ 1 := by
    unfold goto at hgoto
    split at hgoto <;> first | (obtain rfl := Option.some.inj hgoto; simp [rank]) | simp at hgoto
  have he : ∀ q t, action q t = .reduce r → rank (.state q) = rank (.reduce r) := by
    intro q t h
    rcases state_of_reduce h with ⟨rfl, rfl⟩ | ⟨rfl, rfl⟩ | ⟨rfl, rfl⟩ | ⟨o, rfl, rfl⟩ <;> rfl
  have hre : rank e = rank (.reduce r) := by
    cases e with
    | state q' =>
        obtain ⟨t, ht⟩ := hred
        exact he q' t ht
    | reduce r' => rw [show r' = r from hred]
    | accept => exact hred.elim
  rw [hre]
  cases r with
  | inNil =>
      show rank s + 4 < 6 + 0
      omega
  | exprNum =>
      show rank s + 4 < 2 + 4
      omega
  | mainIn =>
      have hs0 : rank s = 0 := by
        cases q <;> simp only [lhs, goto, Option.some.injEq, reduceCtorEq] at hgoto
        rw [← hgoto]
        rfl
      show rank s + 4 < 1 + 4
      omega
  | stateExpr =>
      have hs0 : rank s = 0 := by
        cases q <;> simp only [lhs, goto, Option.some.injEq, reduceCtorEq] at hgoto
        rw [← hgoto]
        rfl
      show rank s + 4 < 1 + 4
      omega
  | inLine | exprOp o | exprBracket =>
      show rank s + 4 < 0 + 12
      omega

/-- The parser generated from `parser.y`. -/
def parser (pow : Int → Int → Option Int) : Generated Terminal NonTerminal State Rule Token Out where
  start     := .start
  lhs       := lhs
  rhs       := rhs
  action    := action
  goto      := goto
  sem       := sem pow
  rank      := rank
  rankBound := 4
  rank_lt   := rank_lt
  rank_goto := rank_goto

end Calc
end CSamples
