import CSamples.Calc.Lines
import CSamples.Lemon.Semantics

/-!
# `Calc.Operands` — what the reduce actions of the calculator compute with

An action runs on operands that earlier actions left behind, so whether it stays within what C defines is a
question about the expressions that the operands stand for. Those expressions do not depend on any value: they
are what the parser's tables build when trees take the place of the values.

## Contents
- `Lexeme`: the tokens fed to the parser. A token that is no literal brings no value.
- `Expr`, `build`, `reductions`: the expressions, and the reductions some tokens lead to.
- `Expr.Defined`, `Expr.Counted`: the value, and the count `n`, come from literals alone.
- `parser_defined_iff`: when no action executes an undefined operation and nothing unassigned is printed.
-/

namespace CSamples
namespace Calc

open Lemon

/-! ## Expressions -/

/-- A token, with the value and the count of a literal. -/
inductive Lexeme where
  | literal (value : Int) (n : UInt32)
  | op (o : Op)
  | lrb | rrb | newline
  deriving DecidableEq, Repr

/-- The token as the parser gets it. What it holds beside a literal's fields no action assigned. -/
def Lexeme.token : Lexeme → Terminal × Token
  | .literal value n => (.num, ⟨some value, some n⟩)
  | .op o            => (.op o, unassigned)
  | .lrb             => (.lrb, unassigned)
  | .rrb             => (.rrb, unassigned)
  | .newline         => (.newline, unassigned)

/-- What a value on the parser's stack comes from. -/
inductive Expr where
  | token (x : Lexeme)
  | num (b : Expr)
  | op (o : Op) (b c : Expr)
  | bracket (lrb b : Expr)
  | unassigned
  deriving DecidableEq, Repr

/-- A reduction by `expr ::= expr op expr` or by `state ::= expr`. -/
inductive Reduction where
  | operate (o : Op) (b c : Expr)
  | print (a : Expr)
  deriving DecidableEq, Repr

/-- The reduce actions on expressions. -/
def build : Rule → List Expr → Expr × List Reduction
  | .stateExpr, [a] => (a, [.print a])
  | .exprOp o, [b, _, c] => (.op o b c, [.operate o b c])
  | .exprNum, [b] => (.num b, [])
  | .exprBracket, [lrb, b, _] => (.bracket lrb b, [])
  | .inLine, [a, _, _] => (a, [])
  | .mainIn, [a] => (a, [])
  | _, _ => (.unassigned, [])

/-- The tables of the calculator, with expressions for values. -/
def builder : Generated Terminal NonTerminal State Rule Expr Reduction :=
  (parser (fun _ _ => none)).withSem build

/-- The reductions among the events of a run. -/
def reduced : List (Event Terminal Reduction) → List Reduction :=
  List.filterMap (fun e => match e with | .user r => some r | _ => none)

/-- The reductions that some tokens lead to. -/
def reductions (xs : List Lexeme) : List Reduction :=
  match run builder yyStackDepth (feed (xs.map (fun x => (x.token.1, .token x)))) init with
  | some (_, es) => reduced es
  | none         => []

/-! ## Values -/

variable (pow : Int → Int → Option Int)

/-- The fields that the actions assign. -/
def Expr.assigned : Expr → Token
  | .token x       => x.token.2
  | .num b         => ⟨b.assigned.value, b.assigned.n.map (· + 1)⟩
  | .op o b c      => (exprOp pow b.assigned c.assigned o).1
  | .bracket lrb b => ⟨b.assigned.value, lrb.assigned.n⟩
  | .unassigned    => Calc.unassigned

/-- What the action of a reduction does besides assigning. -/
def Reduction.outs : Reduction → List Out
  | .operate o b c => (exprOp pow (b.assigned pow) (c.assigned pow) o).2
  | .print a       => [.result (a.assigned pow).n (a.assigned pow).value]

/-- The actions of the parser compute the fields of the expressions. -/
theorem maps_build : Maps (parser pow) build (Expr.assigned pow) (Reduction.outs pow) := by
  intro r ws
  show sem pow r (ws.map _) = _
  rcases ws with _ | ⟨a, _ | ⟨b, _ | ⟨c, _ | ⟨d, ws⟩⟩⟩⟩ <;> cases r
  case cons.cons.cons.nil.exprOp o => exact Prod.ext rfl (List.append_nil _).symm
  all_goals rfl

/-- The exact result of an operation. -/
def exactOp : Op → Int → Int → Int
  | .plus, x, y   => x + y
  | .minus, x, y  => x - y
  | .times, x, y  => x * y
  | .divide, x, y => x.tdiv y
  | .mod, x, y    => x.tmod y
  | .exp, x, y    => (pow x y).getD 0

/-- C defines the operation on these operands: the divisor is not zero, and the result is an `int`, the
    quotient's in the case of `%`. -/
def Op.Fits : Op → Int → Int → Prop
  | .plus, x, y   => C.InInt (x + y)
  | .minus, x, y  => C.InInt (x - y)
  | .times, x, y  => C.InInt (x * y)
  | .divide, x, y => y ≠ 0 ∧ C.InInt (x.tdiv y)
  | .mod, x, y    => y ≠ 0 ∧ C.InInt (x.tdiv y)
  | .exp, x, y    => (pow x y).isSome = true

instance : (o : Op) → (x y : Int) → Decidable (Op.Fits pow o x y)
  | .plus, x, y   => inferInstanceAs (Decidable (C.InInt (x + y)))
  | .minus, x, y  => inferInstanceAs (Decidable (C.InInt (x - y)))
  | .times, x, y  => inferInstanceAs (Decidable (C.InInt (x * y)))
  | .divide, x, y => inferInstanceAs (Decidable (y ≠ 0 ∧ C.InInt (x.tdiv y)))
  | .mod, x, y    => inferInstanceAs (Decidable (y ≠ 0 ∧ C.InInt (x.tdiv y)))
  | .exp, x, y    => inferInstanceAs (Decidable ((pow x y).isSome = true))

/-- The exact value of an expression. -/
def Expr.exact : Expr → Int
  | .token (.literal value _) => value
  | .token _       => 0
  | .num b         => b.exact
  | .op o b c      => exactOp pow o b.exact c.exact
  | .bracket _ b   => b.exact
  | .unassigned    => 0

/-- An expression of literals in which C defines every operation. -/
def Expr.Defined : Expr → Prop
  | .token (.literal _ _) => True
  | .token _     => False
  | .num b       => b.Defined
  | .op o b c    => b.Defined ∧ c.Defined ∧ Op.Fits pow o (b.exact pow) (c.exact pow)
  | .bracket _ b => b.Defined
  | .unassigned  => False

/-- An expression whose count is assigned on all the way from the literals: `%` does not assign it, nor does a
    division by zero, and the count of a bracket is what `LRB` brings. -/
def Expr.Counted : Expr → Prop
  | .token (.literal _ _) => True
  | .token _       => False
  | .num b         => b.Counted
  | .op o b c      =>
      b.Counted ∧ c.Counted ∧ o ≠ .mod ∧ (o = .divide → c.Defined pow ∧ c.exact pow ≠ 0)
  | .bracket lrb _ => lrb.Counted
  | .unassigned    => False

/-- The operands of an action are defined and so is its operation, or it is the guarded division by zero; what
    is printed is defined and counted. -/
def Reduction.Sound : Reduction → Prop
  | .operate o b c =>
      (b.Defined pow ∧ c.Defined pow ∧ Op.Fits pow o (b.exact pow) (c.exact pow)) ∨
        (o = .divide ∧ c.Defined pow ∧ c.exact pow = 0)
  | .print a => a.Defined pow ∧ a.Counted pow

variable {pow}

/-- An operation, by whether C defines it. -/
theorem opValue_some (o : Op) (x y : Int) :
    opValue pow o (some x) (some y) = if Op.Fits pow o x y then some (exactOp pow o x y) else none := by
  cases o with
  | plus => rfl
  | minus => rfl
  | times => rfl
  | divide =>
      show C.div x y = _
      unfold C.div C.toInt Op.Fits exactOp
      by_cases hy : y = 0
      · simp [hy]
      · simp [hy]
  | mod =>
      show C.mod x y = _
      unfold C.mod C.toInt Op.Fits exactOp
      by_cases hy : y = 0
      · simp [hy]
      · by_cases hq : C.InInt (x.tdiv y) <;> simp [hy, hq]
  | exp =>
      show pow x y = _
      by_cases hfits : Op.Fits pow .exp x y
      · obtain ⟨z, hz⟩ := Option.isSome_iff_exists.mp hfits
        rw [if_pos hfits, exactOp, hz]
        rfl
      · rw [if_neg hfits]
        exact Option.not_isSome_iff_eq_none.mp hfits

/-- An operation on operands of which one was not computed. -/
theorem opValue_none {o : Op} {x y : Option Int} (h : x = none ∨ y = none) : opValue pow o x y = none := by
  rcases h with rfl | rfl
  · cases o <;> rfl
  · cases o <;> exact operate_none_right _ _

theorem defined_op {o : Op} {b c : Expr} (h : (Expr.op o b c).Defined pow) :
    b.Defined pow ∧ c.Defined pow ∧ Op.Fits pow o (b.exact pow) (c.exact pow) := h

/-- **The value is assigned in the defined expressions**, and it is their exact value. -/
theorem value_assigned (a : Expr) :
    (a.Defined pow → (a.assigned pow).value = some (a.exact pow)) ∧
      (¬ a.Defined pow → (a.assigned pow).value = none) := by
  induction a with
  | token x =>
      cases x with
      | literal value n => exact ⟨fun _ => rfl, fun h => absurd trivial h⟩
      | op o => exact ⟨False.elim, fun _ => rfl⟩
      | lrb => exact ⟨False.elim, fun _ => rfl⟩
      | rrb => exact ⟨False.elim, fun _ => rfl⟩
      | newline => exact ⟨False.elim, fun _ => rfl⟩
  | num b ih => exact ih
  | bracket lrb b _ ih => exact ih
  | unassigned => exact ⟨False.elim, fun _ => rfl⟩
  | op o b c ihb ihc =>
      have hvalue : ((Expr.op o b c).assigned pow).value
          = opValue pow o (b.assigned pow).value (c.assigned pow).value := exprOp_value pow _ _ o
      rw [hvalue]
      constructor
      · intro h
        obtain ⟨hb, hc, hfits⟩ := defined_op h
        rw [ihb.1 hb, ihc.1 hc, opValue_some, if_pos hfits]
        rfl
      · intro h
        by_cases hb : b.Defined pow
        · by_cases hc : c.Defined pow
          · have hfits : ¬ Op.Fits pow o (b.exact pow) (c.exact pow) := fun hf => h ⟨hb, hc, hf⟩
            rw [ihb.1 hb, ihc.1 hc, opValue_some, if_neg hfits]
          · exact opValue_none (.inr (ihc.2 hc))
        · exact opValue_none (.inl (ihb.2 hb))

theorem value_isSome_iff (a : Expr) : (a.assigned pow).value.isSome = true ↔ a.Defined pow := by
  constructor
  · intro h
    by_contra hdef
    rw [(value_assigned a).2 hdef] at h
    exact absurd h (by decide)
  · intro h
    rw [(value_assigned a).1 h]
    rfl

theorem sumN_isSome (b c : Token) : (sumN b c).isSome = true ↔ b.n.isSome = true ∧ c.n.isSome = true := by
  unfold sumN
  cases b.n <;> cases c.n <;> simp

theorem value_eq_zero_iff (a : Expr) : (a.assigned pow).value = some 0 ↔ a.Defined pow ∧ a.exact pow = 0 := by
  by_cases h : a.Defined pow
  · rw [(value_assigned a).1 h]
    simp [h]
  · rw [(value_assigned a).2 h]
    simp [h]

/-- **The count is assigned in the counted expressions.** -/
theorem n_isSome_iff (a : Expr) : (a.assigned pow).n.isSome = true ↔ a.Counted pow := by
  induction a with
  | token x => cases x <;> simp [Expr.assigned, Expr.Counted, Lexeme.token, Calc.unassigned]
  | num b ih =>
      rw [Expr.Counted, ← ih, Expr.assigned]
      cases (b.assigned pow).n <;> simp
  | bracket lrb b ih _ => exact ih
  | unassigned => simp [Expr.assigned, Expr.Counted, Calc.unassigned]
  | op o b c ihb ihc =>
      have hsum := sumN_isSome (b.assigned pow) (c.assigned pow)
      rw [ihb, ihc] at hsum
      rw [Expr.Counted, Expr.assigned]
      cases o with
      | mod => simp [exprOp, computed]
      | divide =>
          unfold exprOp
          by_cases hc : c.Defined pow
          · rw [(value_assigned c).1 hc]
            by_cases hzero : c.exact pow = 0
            · simp [hzero, Calc.unassigned]
            · simp [hzero, hc, computed, hsum]
          · rw [(value_assigned c).2 hc]
            simp [hc, Calc.unassigned]
      | plus => simp [exprOp, computed, hsum]
      | minus => simp [exprOp, computed, hsum]
      | times => simp [exprOp, computed, hsum]
      | exp => simp [exprOp, computed, hsum]

/-! ## Reductions -/

theorem undefined_mem_computed (value : Option Int) (n : Option UInt32) :
    Out.undefined ∈ (computed value n).2 ↔ value = none := by
  cases value <;> simp [computed]

/-- The action of an operator executes an undefined operation, when it gives no value; but a division by zero
    is guarded. -/
theorem undefined_mem_exprOp (b c : Token) (o : Op) :
    Out.undefined ∈ (exprOp pow b c o).2 ↔ opValue pow o b.value c.value = none ∧ ¬ (o = .divide ∧ c.value = some 0) := by
  cases o with
  | divide =>
      unfold exprOp
      cases hc : c.value with
      | none => simp [opValue, operate_none_right]
      | some y =>
          by_cases hy : y = 0
          · simp [hy]
          · simp [hy, undefined_mem_computed, opValue]
  | _ => simp [exprOp, opValue, undefined_mem_computed]

theorem result_not_mem_exprOp (b c : Token) (o : Op) (n : Option UInt32) (value : Option Int) :
    Out.result n value ∉ (exprOp pow b c o).2 := by
  have hcomputed : ∀ v m, Out.result n value ∉ (computed v m).2 := by
    intro v m
    cases v <;> simp [computed]
  cases o with
  | divide =>
      unfold exprOp
      cases c.value with
      | none => simp
      | some y => by_cases hy : y = 0 <;> simp [hy, hcomputed]
  | _ => exact hcomputed _ _

/-- Nothing undefined is executed, and nothing unassigned printed. -/
def Clean (os : List Out) : Prop :=
  Out.undefined ∉ os ∧ ∀ n value, Out.result n value ∈ os → n.isSome = true ∧ value.isSome = true

/-- **One action** is clean on sound operands only. -/
theorem clean_outs_iff (r : Reduction) : Clean (r.outs pow) ↔ r.Sound pow := by
  cases r with
  | print a =>
      rw [Reduction.Sound, ← value_isSome_iff, ← n_isSome_iff]
      simp [Clean, Reduction.outs, and_comm]
  | operate o b c =>
      have hout : ∀ n value, Out.result n value ∉ (exprOp pow (b.assigned pow) (c.assigned pow) o).2 :=
        fun n value => result_not_mem_exprOp _ _ o n value
      have hclean : Clean ((Reduction.operate o b c).outs pow) ↔
          Out.undefined ∉ (exprOp pow (b.assigned pow) (c.assigned pow) o).2 :=
        ⟨fun h => h.1, fun h => ⟨h, fun n value hmem => absurd hmem (hout n value)⟩⟩
      have hnone : opValue pow o (b.assigned pow).value (c.assigned pow).value = none ↔ ¬ (Expr.op o b c).Defined pow := by
        rw [← value_isSome_iff, Expr.assigned, exprOp_value, Option.not_isSome_iff_eq_none]
      rw [hclean, undefined_mem_exprOp, hnone, value_eq_zero_iff, Classical.not_and_iff_not_or_not,
        Classical.not_not, Classical.not_not]
      exact Iff.rfl

/-! ## Runs -/

/-- What the actions do in a run. -/
def outs : List (Event Terminal Out) → List Out :=
  List.filterMap (fun e => match e with | .user o => some o | _ => none)

theorem outs_append (es fs : List (Event Terminal Out)) : outs (es ++ fs) = outs es ++ outs fs :=
  List.filterMap_append

theorem outs_user (os : List Out) : outs (os.map .user) = os := by
  unfold outs
  rw [List.filterMap_map]
  exact List.filterMap_some

/-- The actions of a run are those of its reductions. -/
theorem outs_expand (es : List (Event Terminal Reduction)) :
    outs (es.flatMap (Event.expand (Reduction.outs pow))) = (reduced es).flatMap (Reduction.outs pow) := by
  induction es with
  | nil => rfl
  | cons e es ih =>
      rw [List.flatMap_cons, outs_append, ih]
      cases e with
      | user r =>
          show outs ((r.outs pow).map .user) ++ _ = r.outs pow ++ _
          rw [outs_user]
          rfl
      | stackOverflow => rfl
      | syntaxError t => rfl
      | parseFailure => rfl
      | parseAccept => rfl

theorem clean_flatMap_iff (rs : List Reduction) :
    Clean (rs.flatMap (Reduction.outs pow)) ↔ ∀ r ∈ rs, Clean (r.outs pow) := by
  unfold Clean
  simp only [List.mem_flatMap, not_exists, not_and]
  constructor
  · intro h r hr
    exact ⟨h.1 r hr, fun n value hmem => h.2 n value ⟨r, hr, hmem⟩⟩
  · intro h
    refine ⟨fun r hr => (h r hr).1, ?_⟩
    rintro n value ⟨r, hr, hmem⟩
    exact (h r hr).2 n value hmem

/-- A run of the parser and the reductions its tokens lead to. -/
theorem run_reductions (pow : Int → Int → Option Int) (xs : List Lexeme) :
    ∃ p es, run (parser pow) yyStackDepth (feed (xs.map Lexeme.token)) init = some (p, es) ∧
      outs es = (reductions xs).flatMap (Reduction.outs pow) := by
  have hmap := run_map (maps_build pow) yyStackDepth (feed (xs.map (fun x => (x.token.1, .token x)))) init
  have hfeed : (feed (xs.map (fun x => (x.token.1, Expr.token x)))).map (fun t => (t.1, t.2.assigned pow))
      = feed (xs.map Lexeme.token) := by
    simp [feed, Expr.assigned, Function.comp_def]
  rw [hfeed] at hmap
  obtain ⟨p, es, hrun, -⟩ := @run_steps pow yyStackDepth deep_yyStackDepth (xs.map Lexeme.token) _ init .empty
  refine ⟨p, es, hrun, ?_⟩
  have hmap' : some (p, es) = Option.map _ (run builder yyStackDepth _ init) := hrun.symm.trans hmap
  unfold reductions
  cases hbuild : run builder yyStackDepth (feed (xs.map (fun x => (x.token.1, .token x)))) init with
  | none =>
      rw [hbuild] at hmap'
      exact absurd hmap' (by simp)
  | some y =>
      rw [hbuild, Option.map_some] at hmap'
      obtain ⟨-, rfl⟩ := Prod.mk.inj (Option.some.inj hmap')
      exact outs_expand y.2

/-- **When the actions stay within C**, for any sequence of tokens: no action executes an undefined operation and
    nothing unassigned is printed, if and only if every reduction the tokens lead to is sound. -/
theorem parser_defined_iff (pow : Int → Int → Option Int) (xs : List Lexeme) :
    ∃ p es, run (parser pow) yyStackDepth (feed (xs.map Lexeme.token)) init = some (p, es) ∧
      (Clean (outs es) ↔ ∀ r ∈ reductions xs, r.Sound pow) := by
  obtain ⟨p, es, hrun, houts⟩ := run_reductions pow xs
  refine ⟨p, es, hrun, ?_⟩
  rw [houts, clean_flatMap_iff]
  exact forall₂_congr fun r _ => clean_outs_iff r

/-- `1 / 0 NEWLINE` prints a value that no action assigned, `5 % 0` executes the remainder by zero, and
    `2147483647 + 1` the addition that overflows. -/
theorem parser_undefined :
    (run (parser (fun _ _ => none)) yyStackDepth
        (feed ([.literal 1 0, .op .divide, .literal 0 0, .newline].map Lexeme.token)) init).map (fun r => outs r.2)
      = some [.divideByZero, .result none none] ∧
    (run (parser (fun _ _ => none)) yyStackDepth
        (feed ([.literal 5 0, .op .mod, .literal 0 0, .newline].map Lexeme.token)) init).map (fun r => outs r.2)
      = some [.undefined, .result none none] ∧
    (run (parser (fun _ _ => none)) yyStackDepth
        (feed ([.literal 2147483647 0, .op .plus, .literal 1 0, .newline].map Lexeme.token)) init).map
        (fun r => outs r.2)
      = some [.undefined, .result (some 4) none] ∧
    ¬ Clean [.divideByZero, .result none none] ∧ ¬ Clean [.undefined, .result none none] ∧
      ¬ Clean [.undefined, .result (some 4) none] := by
  refine ⟨by decide +kernel, by decide +kernel, by decide +kernel, ?_, ?_, ?_⟩ <;> simp [Clean]

end Calc
end CSamples
