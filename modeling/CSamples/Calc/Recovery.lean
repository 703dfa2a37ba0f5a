import CSamples.Calc.Parser
import CSamples.Lemon.Precedence

/-!
# `Calc.Recovery` — the calculator's parser as a machine on expression trees

What the generated parser does with any sequence of tokens, in terms of the expressions it builds: an
operator-precedence machine for the current line, and what becomes of a token that cannot go on. Such a
token is thrown away; but in front of it, everything behind the innermost open bracket is joined, and at the
outermost level the line's result is printed and the rest of the line is skipped. A stack overflow drops the
line so far.

## Contents
- `Machine`, `step`: the machine, with the number of stack entries the parser needs.
- `Lazy`: the parser's stacks that stand for a state of the machine. Reductions are delayed to the next
  call, so there are several.
- `parse_step` and `run_steps`: one call, and any number of them.
-/

namespace CSamples
namespace Calc

open Lemon Lemon.Precedence

/-! ## The machine -/

abbrev Tree := Precedence.Tree Token Op
abbrev Item := Precedence.Item Token Op

def levels : Levels Op := ⟨Op.level, rightAssoc⟩

/-- The value `exprOp` assigns. -/
def opValue (pow : Int → Int → Option Int) : Op → Option Int → Option Int → Option Int
  | .minus  => operate C.sub
  | .plus   => operate C.add
  | .times  => operate C.mul
  | .exp    => operate pow
  | .divide => operate C.div
  | .mod    => operate C.mod

/-- The value of an expression; `none` when its evaluation meets an undefined operation, a division by
    zero or a literal without a value. -/
def eval (pow : Int → Int → Option Int) : Tree → Option Int
  | .leaf a     => a.value
  | .node o l r => opValue pow o (eval pow l) (eval pow r)

theorem exprOp_value (pow : Int → Int → Option Int) (b c : Token) (o : Op) :
    (exprOp pow b c o).1.value = opValue pow o b.value c.value := by
  cases o with
  | divide =>
      unfold exprOp opValue operate
      cases c.value with
      | none => cases b.value <;> rfl
      | some y =>
          by_cases hy : y = 0
          · subst hy
            cases b.value <;> rfl
          · simp only [ne_eq, hy, not_false_eq_true, if_true, computed]
  | _ => rfl

/-- The state of the current line: being read, or printed already and skipped up to its NEWLINE. -/
inductive Machine where
  | line (m : Precedence.Machine Token Op)
  | skip
  deriving DecidableEq

/-- What can be seen of a call: a printed result, or an overflow. -/
inductive Seen (β : Type) where
  | printed (v : β)
  | overflow
  deriving DecidableEq, Repr

def Seen.map {β γ : Type} (f : β → γ) : Seen β → Seen γ
  | .printed v => .printed (f v)
  | .overflow  => .overflow

/-- The stack entries that items take, `in` included. -/
def height : List Item → Nat
  | []             => 1
  | .bracket :: K  => height K + 1
  | .pend _ _ :: K => height K + 2

/-- There is room for one more behind `n` entries. -/
def room (depth : Option Nat) (n : Nat) : Bool :=
  match depth with
  | none   => true
  | some d => n + 1 < d

/-- Push behind `n` entries. -/
def push (depth : Option Nat) (n : Nat) (m : Precedence.Machine Token Op) : Machine × List (Seen Tree) :=
  if room depth n then (.line m, []) else (.line (.operand []), [.overflow])

/-- A token that is not an operator, behind the operand `t` that is joined with everything up to the
    innermost open bracket. -/
def finish (depth : Option Nat) (a : Terminal) : List Item × Tree → Machine × List (Seen Tree)
  | (.bracket :: K, t) =>
      if a = .rrb then push depth (height (.bracket :: K) + 1) (.operator K t)
      else (.line (.operator (.bracket :: K) t), [])
  | (_, t) => (if a = .newline then .line (.operand []) else .skip, [.printed t])

/-- One token. -/
def step (depth : Option Nat) (x : Terminal × Token) : Machine → Machine × List (Seen Tree)
  | .skip => (if x.1 = .newline then .line (.operand []) else .skip, [])
  | .line (.operand K) =>
      match x.1 with
      | .num => push depth (height K) (.operator K (.leaf x.2))
      | .lrb => push depth (height K) (.operand (.bracket :: K))
      | _    => (.line (.operand K), [])
  | .line (.operator K t) =>
      match x.1 with
      | .op o =>
          let y := collapse (levels.joins o) K t
          push depth (height y.1 + 1) (.operand (.pend y.2 o :: y.1))
      | a => finish depth a (collapseAll K t)

/-- A sequence of tokens. -/
def steps (depth : Option Nat) : List (Terminal × Token) → Machine → Machine × List (Seen Tree)
  | [], m      => (m, [])
  | x :: xs, m =>
      let y := step depth x m
      let z := steps depth xs y.1
      (z.1, y.2 ++ z.2)

theorem steps_append (depth : Option Nat) (xs ys : List (Terminal × Token)) (m : Machine) :
    steps depth (xs ++ ys) m =
      ((steps depth ys (steps depth xs m).1).1, (steps depth xs m).2 ++ (steps depth ys (steps depth xs m).1).2) := by
  induction xs generalizing m with
  | nil => rfl
  | cons x xs ih =>
      rw [List.cons_append, steps, ih, steps]
      simp

/-! ## Expressions without a value -/

/-- The trees that items hold. -/
def heldItems : List Item → List Tree
  | []             => []
  | .bracket :: K  => heldItems K
  | .pend t _ :: K => t :: heldItems K

/-- The trees that the machine holds. -/
def Machine.held : Machine → List Tree
  | .line (.operand K)    => heldItems K
  | .line (.operator K t) => t :: heldItems K
  | .skip                 => []

/-- One of the trees has no value. -/
def Dead (pow : Int → Int → Option Int) (l : List Tree) : Prop := ∃ t ∈ l, eval pow t = none

/-- After some tokens a tree without a value is held or was printed, or the stack overflowed. -/
def DeadAfter (pow : Int → Int → Option Int) (y : Machine × List (Seen Tree)) : Prop :=
  Dead pow y.1.held ∨ (∃ t, Seen.printed t ∈ y.2 ∧ eval pow t = none) ∨ Seen.overflow ∈ y.2

theorem operate_none_right (f : Int → Int → Option Int) (b : Option Int) : operate f b none = none := by
  cases b <;> rfl

/-- An operand without a value leaves none. -/
theorem eval_node_none {pow : Int → Int → Option Int} {o : Op} {l r : Tree}
    (h : eval pow l = none ∨ eval pow r = none) : eval pow (.node o l r) = none := by
  unfold eval
  rcases h with h | h
  · rw [h]
    cases o <;> rfl
  · rw [h]
    cases o <;> exact operate_none_right _ _

theorem dead_collapse {pow : Int → Int → Option Int} (q : Op → Bool) (K : List Item) (t : Tree)
    (h : Dead pow (t :: heldItems K)) :
    Dead pow ((collapse q K t).2 :: heldItems (collapse q K t).1) := by
  induction K generalizing t with
  | nil => exact h
  | cons i K ih =>
      cases i with
      | bracket => exact h
      | pend l o =>
          rw [collapse_pend]
          split
          · apply ih
            obtain ⟨t', ht', hnone⟩ := h
            rcases List.mem_cons.mp ht' with rfl | ht'
            · exact ⟨_, List.mem_cons_self .., eval_node_none (.inr hnone)⟩
            · rcases List.mem_cons.mp ht' with rfl | ht'
              · exact ⟨_, List.mem_cons_self .., eval_node_none (.inl hnone)⟩
              · exact ⟨t', List.mem_cons_of_mem _ ht', hnone⟩
          · exact h

/-- An operand without a value, joined. -/
theorem eval_collapse_none {pow : Int → Int → Option Int} (q : Op → Bool) (K : List Item) {t : Tree}
    (h : eval pow t = none) : eval pow (collapse q K t).2 = none := by
  induction K generalizing t with
  | nil => exact h
  | cons i K ih =>
      cases i with
      | bracket => exact h
      | pend l o =>
          rw [collapse_pend]
          split
          · exact ih (eval_node_none (.inr h))
          · exact h

theorem deadAfter_push {pow : Int → Int → Option Int} {depth : Option Nat} {n : Nat}
    {m : Precedence.Machine Token Op} (h : Dead pow (Machine.line m).held) :
    DeadAfter pow (push depth n m) := by
  unfold push
  split
  · exact .inl h
  · exact .inr (.inr (List.mem_singleton.mpr rfl))

theorem deadAfter_finish {pow : Int → Int → Option Int} {depth : Option Nat} {a : Terminal} {K : List Item}
    {t : Tree} (hdead : Dead pow ((collapseAll K t).2 :: heldItems (collapseAll K t).1)) :
    DeadAfter pow (finish depth a (collapseAll K t)) := by
  rcases collapseAll_cases K t with ⟨t', heq⟩ | ⟨K', t', heq⟩
  · rw [heq] at hdead ⊢
    obtain ⟨u, hu, hnone⟩ := hdead
    obtain rfl := List.mem_singleton.mp hu
    exact .inr (.inl ⟨u, List.mem_singleton.mpr rfl, hnone⟩)
  · rw [heq] at hdead ⊢
    show DeadAfter pow (if a = .rrb then push depth _ (.operator K' t') else (.line (.operator (.bracket :: K') t'), []))
    split
    · exact deadAfter_push hdead
    · exact .inl hdead

theorem Dead.cons {pow : Int → Int → Option Int} {l : List Tree} (h : Dead pow l) (t : Tree) :
    Dead pow (t :: l) := by
  obtain ⟨u, hu, hnone⟩ := h
  exact ⟨u, List.mem_cons_of_mem t hu, hnone⟩

/-- **A tree without a value is not forgotten**: it is held on, in a larger tree perhaps, or printed. -/
theorem deadAfter_step {pow : Int → Int → Option Int} (depth : Option Nat) (x : Terminal × Token) {m : Machine}
    (h : Dead pow m.held) : DeadAfter pow (step depth x m) := by
  obtain ⟨a, v⟩ := x
  match m with
  | .skip =>
      obtain ⟨t, ht, -⟩ := h
      exact absurd ht List.not_mem_nil
  | .line (.operand K) =>
      cases a with
      | num => exact @deadAfter_push _ _ _ (.operator K (.leaf v)) (Dead.cons h _)
      | lrb => exact @deadAfter_push _ _ _ (.operand (.bracket :: K)) h
      | _ => exact .inl h
  | .line (.operator K t) =>
      cases a with
      | op o => exact deadAfter_push (dead_collapse (levels.joins o) K t h)
      | _ => exact deadAfter_finish (dead_collapse _ K t h)

theorem DeadAfter.append_left {pow : Int → Int → Option Int} {m : Machine} {zs : List (Seen Tree)}
    (h : DeadAfter pow (m, zs)) (ys : List (Seen Tree)) : DeadAfter pow (m, ys ++ zs) := by
  rcases h with h | ⟨t, ht, hnone⟩ | h
  · exact .inl h
  · exact .inr (.inl ⟨t, List.mem_append_right _ ht, hnone⟩)
  · exact .inr (.inr (List.mem_append_right _ h))

theorem deadAfter_steps {pow : Int → Int → Option Int} (depth : Option Nat) (xs : List (Terminal × Token))
    {m : Machine} {ys : List (Seen Tree)} (h : DeadAfter pow (m, ys)) :
    DeadAfter pow ((steps depth xs m).1, ys ++ (steps depth xs m).2) := by
  induction xs generalizing m ys with
  | nil =>
      show DeadAfter pow (m, ys ++ [])
      rw [List.append_nil]
      exact h
  | cons x xs ih =>
      rcases h with h | ⟨t, ht, hnone⟩ | h
      · exact (ih (deadAfter_step depth x h)).append_left ys
      · exact .inr (.inl ⟨t, List.mem_append_left _ ht, hnone⟩)
      · exact .inr (.inr (List.mem_append_left _ h))

/-! ## The stacks of the parser -/

abbrev Entry := Lemon.Entry Terminal NonTerminal State Rule Token
abbrev LR := Lemon.Parser Terminal NonTerminal State Rule Token

/-- The state behind the items, in front of an operand. -/
def under : List Item → State
  | []             => .input
  | .bracket :: _  => .lrb
  | .pend _ o :: _ => .op o

/-- The state behind the items and an operand. -/
def above : List Item → State
  | []             => .expr
  | .bracket :: _  => .bracket
  | .pend _ o :: _ => .operand o

theorem goto_under (K : List Item) : goto (under K) .expr = some (.state (above K)) := by
  cases K with
  | nil => rfl
  | cons i K => cases i <;> rfl

/-- An operand on the stack. -/
def operandEntry (K : List Item) (v : Token) : Entry := ⟨.state (above K), .nonterminal .expr, v⟩

/-- The entries of the items. -/
inductive Rep (pow : Int → Int → Option Int) : List Item → List Entry → Prop
  | nil (v : Token) : Rep pow [] [⟨.state .input, .nonterminal .input, v⟩]
  | bracket (v : Token) {K : List Item} {S : List Entry} (h : Rep pow K S) :
      Rep pow (.bracket :: K) (⟨.state .lrb, .terminal .lrb, v⟩ :: S)
  | pend (o : Op) (v w : Token) {t : Tree} {K : List Item} {S : List Entry} (h : Rep pow K S)
      (hv : v.value = eval pow t) :
      Rep pow (.pend t o :: K) (⟨.state (.op o), .terminal (.op o), w⟩ :: operandEntry K v :: S)

variable {pow : Int → Int → Option Int} {depth : Option Nat}

theorem Rep.top {K : List Item} {S : List Entry} (h : Rep pow K S) :
    Lemon.top (parser pow) S = .state (under K) := by
  cases h <;> rfl

theorem Rep.length {K : List Item} {S : List Entry} (h : Rep pow K S) : S.length = height K := by
  induction h with
  | nil v => rfl
  | bracket v _ ih => rw [List.length_cons, ih]; rfl
  | pend o v w _ _ ih => rw [List.length_cons, List.length_cons, ih]; rfl

/-- Stacks without a delayed reduction. -/
inductive Settled (pow : Int → Int → Option Int) : Machine → List Entry → Prop
  | operand {K : List Item} {S : List Entry} (h : Rep pow K S) : Settled pow (.line (.operand K)) S
  | operator {K : List Item} {S : List Entry} {t : Tree} (v : Token) (h : Rep pow K S)
      (hv : v.value = eval pow t) : Settled pow (.line (.operator K t)) (operandEntry K v :: S)
  | skip (v w : Token) :
      Settled pow .skip [⟨.state .state, .nonterminal .state, v⟩, ⟨.state .input, .nonterminal .input, w⟩]

/-- All stacks: `in ::= .`, `in ::= in state NEWLINE.`, `expr ::= NUM.` and `expr ::= LRB expr RRB.` are
    reduced in the next call. -/
inductive Lazy (pow : Int → Int → Option Int) : Machine → List Entry → Prop
  | settled {m : Machine} {S : List Entry} (h : Settled pow m S) : Lazy pow m S
  | empty : Lazy pow (.line (.operand [])) []
  | newline (u v w : Token) : Lazy pow (.line (.operand []))
      [⟨.reduce .inLine, .terminal .newline, u⟩, ⟨.state .state, .nonterminal .state, v⟩,
        ⟨.state .input, .nonterminal .input, w⟩]
  | num {K : List Item} {S : List Entry} (v : Token) (h : Rep pow K S) :
      Lazy pow (.line (.operator K (.leaf v))) (⟨.reduce .exprNum, .terminal .num, v⟩ :: S)
  | rrb {K : List Item} {S : List Entry} {t : Tree} (u v w : Token) (h : Rep pow K S)
      (hv : v.value = eval pow t) :
      Lazy pow (.line (.operator K t))
        (⟨.reduce .exprBracket, .terminal .rrb, u⟩ :: operandEntry (.bracket :: K) v ::
          ⟨.state .lrb, .terminal .lrb, w⟩ :: S)

/-! ## What can be seen -/

def visible : Event Terminal Out → Option (Seen (Option Int))
  | .user (.result _ v) => some (.printed v)
  | .stackOverflow      => some .overflow
  | _                   => none

/-- The printed results and the overflows, in order. -/
def seen (es : List (Event Terminal Out)) : List (Seen (Option Int)) := es.filterMap visible

theorem seen_append (es fs : List (Event Terminal Out)) : seen (es ++ fs) = seen es ++ seen fs :=
  List.filterMap_append

theorem seen_computed (value : Option Int) (n : Option UInt32) :
    seen ((computed value n).2.map .user) = [] := by
  cases value <;> rfl

/-- Evaluating an operator prints nothing to the output. -/
theorem seen_exprOp (b c : Token) (o : Op) : seen ((exprOp pow b c o).2.map .user) = [] := by
  cases o with
  | divide =>
      unfold exprOp
      cases c.value with
      | none => rfl
      | some y =>
          by_cases hy : y = 0
          · subst hy
            rfl
          · simp only [ne_eq, hy, not_false_eq_true, if_true, seen_computed]
  | _ => exact seen_computed _ _

theorem seen_discard (a : Terminal) (p : LR) : seen (Lemon.discard (some a) p).2 = [] := by
  unfold Lemon.discard
  split <;> rfl

/-- An undefined operation is executed. -/
def Undefined (es : List (Event Terminal Out)) : Prop := Event.user Out.undefined ∈ es

theorem undefined_append {es fs : List (Event Terminal Out)} :
    Undefined (es ++ fs) ↔ Undefined es ∨ Undefined fs :=
  List.mem_append

theorem not_undefined_nil : ¬ Undefined [] := List.not_mem_nil

theorem undefined_computed {value : Option Int} {n : Option UInt32}
    (h : Undefined ((computed value n).2.map .user)) : value = none := by
  cases value with
  | none => rfl
  | some v => exact absurd h not_undefined_nil

/-- An undefined operation gives no value. -/
theorem undefined_exprOp {pow : Int → Int → Option Int} {b c : Token} {o : Op}
    (h : Undefined ((exprOp pow b c o).2.map .user)) : (exprOp pow b c o).1.value = none := by
  cases o with
  | divide =>
      unfold exprOp at h ⊢
      cases hc : c.value with
      | none => rfl
      | some y =>
          simp only [hc] at h ⊢
          split at h
          · next hy =>
              rw [if_pos hy]
              exact undefined_computed h
          · next hy =>
              rw [if_neg hy]
              rfl
  | _ => exact undefined_computed h

theorem not_undefined_discard (a : Terminal) (p : LR) : ¬ Undefined (Lemon.discard (some a) p).2 := by
  unfold Lemon.discard
  split <;> simp [Undefined]

/-- With token `x` the parser comes from one stack to another and nothing can be seen; an undefined
    operation is executed only if `dead`. -/
def Reaches (pow : Int → Int → Option Int) (depth : Option Nat) (x : Terminal × Token) (p p' : LR)
    (dead : Prop) : Prop :=
  ∃ es, Leads (parser pow) depth (some x.1) x.2 p p' es ∧ seen es = [] ∧ (Undefined es → dead)

theorem Reaches.refl (x : Terminal × Token) (p : LR) (dead : Prop) : Reaches pow depth x p p dead :=
  ⟨[], Leads.refl _ _ _ _, rfl, fun h => absurd h not_undefined_nil⟩

theorem Reaches.trans {x : Terminal × Token} {p₁ p₂ p₃ : LR} {dead : Prop} (h : Reaches pow depth x p₁ p₂ dead)
    (h' : Reaches pow depth x p₂ p₃ dead) : Reaches pow depth x p₁ p₃ dead := by
  obtain ⟨es, hl, hs, hu⟩ := h
  obtain ⟨fs, hl', hs', hu'⟩ := h'
  refine ⟨es ++ fs, hl.trans hl', by rw [seen_append, hs, hs']; rfl, ?_⟩
  intro hundef
  exact (undefined_append.mp hundef).elim hu hu'

/-! ## Delayed reductions -/

/-- The depth leaves room for a line. -/
def Deep (depth : Option Nat) : Prop := ∀ d ∈ depth, 4 ≤ d

theorem not_full {S : List Entry} (h : room depth S.length = true) : full depth S = false := by
  cases depth with
  | none => rfl
  | some d =>
      have hlt : S.length + 1 < d := of_decide_eq_true h
      exact decide_eq_false (by omega)

theorem is_full {S : List Entry} (h : room depth S.length = false) : full depth S = true := by
  cases depth with
  | none => exact absurd h (by simp [room])
  | some d =>
      have hlt : ¬ S.length + 1 < d := of_decide_eq_false h
      exact decide_eq_true (by omega)

theorem room_of_le (hd : Deep depth) {n : Nat} (hn : n ≤ 2) : room depth n = true := by
  cases depth with
  | none => rfl
  | some d =>
      have h4 : 4 ≤ d := hd d rfl
      exact decide_eq_true (by omega)

/-- The delayed reductions are made first, whatever the token is. -/
theorem settle (hd : Deep depth) {m : Machine} {p : LR} (h : Lazy pow m p.stack) (x : Terminal × Token) :
    ∃ p', Reaches pow depth x p p' False ∧ Settled pow m p'.stack := by
  obtain ⟨S, errcnt, peak⟩ := p
  cases h with
  | settled h => exact ⟨_, Reaches.refl x _ _, h⟩
  | empty =>
      refine ⟨_, ⟨_, leads_reduce Rule.inNil [] [] rfl rfl rfl rfl rfl ?_, rfl, not_undefined_nil⟩, .operand (.nil unassigned)⟩
      intro _
      exact not_full (room_of_le hd (Nat.zero_le 2))
  | newline u v w =>
      refine ⟨_, ⟨_, leads_reduce Rule.inLine [_, _, _] [] rfl rfl rfl rfl rfl ?_, rfl, not_undefined_nil⟩, .operand (.nil w)⟩
      exact fun h => (List.cons_ne_nil _ _ h).elim
  | @num K S v h =>
      refine ⟨_, ⟨_, leads_reduce Rule.exprNum [_] S rfl rfl rfl h.top (goto_under K) ?_, rfl, not_undefined_nil⟩,
        .operator ⟨v.value, v.n.map (· + 1)⟩ h rfl⟩
      exact fun h => (List.cons_ne_nil _ _ h).elim
  | @rrb K S t u v w h hv =>
      refine ⟨_, ⟨_, leads_reduce Rule.exprBracket [_, _, _] S rfl rfl rfl h.top (goto_under K) ?_, rfl, not_undefined_nil⟩,
        .operator ⟨v.value, w.n⟩ h hv⟩
      exact fun h => (List.cons_ne_nil _ _ h).elim

/-! ## Reductions by precedence -/

/-- A token in front of which the pending operators that `q` picks are reduced. -/
def Picks (a : Terminal) (q : Op → Bool) : Prop := ∀ o, q o = true → action (.operand o) (some a) = .reduce (.exprOp o)

/-- **The pending operators are reduced** as the machine joins them. -/
theorem reach_collapse (x : Terminal × Token) {q : Op → Bool} (hq : Picks x.1 q) (K : List Item) {t : Tree}
    {v : Token} {S : List Entry} {p : LR} (hp : p.stack = operandEntry K v :: S) (h : Rep pow K S)
    (hv : v.value = eval pow t) :
    ∃ p' v' S', Reaches pow depth x p p' (eval pow (collapse q K t).2 = none) ∧
      p'.stack = operandEntry (collapse q K t).1 v' :: S' ∧ Rep pow (collapse q K t).1 S' ∧ v'.value = eval pow (collapse q K t).2 := by
  induction K generalizing t v S p with
  | nil => exact ⟨p, v, S, Reaches.refl x p _, hp, h, hv⟩
  | cons i K ih =>
      cases i with
      | bracket => exact ⟨p, v, S, Reaches.refl x p _, hp, h, hv⟩
      | pend l o =>
          by_cases ho : q o = true
          · cases h with
            | @pend _ vl w _ _ S h hl =>
                -- `expr op expr` is on top
                have hfind : findShiftAction (parser pow) (some x.1) (Lemon.top (parser pow) p.stack)
                    = .reduce (.exprOp o) := by
                  rw [hp]
                  exact hq o ho
                have hlead : Leads (parser pow) depth (some x.1) x.2 p _ _ :=
                  leads_reduce (Rule.exprOp o) [_, _, _] S hfind hp rfl h.top (goto_under K)
                    (fun h => (List.cons_ne_nil _ _ h).elim)
                have hval : (exprOp pow vl v o).1.value = eval pow (.node o l t) := by
                  rw [exprOp_value, hl, hv]
                  rfl
                have hnext : (p.push S (operandEntry K (exprOp pow vl v o).1)).stack
                    = operandEntry K (exprOp pow vl v o).1 :: S := rfl
                obtain ⟨p', v', S', hr, hp', h', hv'⟩ := ih hnext h hval
                rw [collapse_pend, if_pos ho]
                refine ⟨p', v', S', .trans ⟨_, hlead, seen_exprOp vl v o, ?_⟩ hr, hp', h', hv'⟩
                intro hundef
                have hnone : (exprOp pow vl v o).1.value = none := undefined_exprOp hundef
                rw [hnone] at hval
                exact eval_collapse_none q K hval.symm
          · rw [collapse_pend, if_neg ho]
            exact ⟨p, v, _, Reaches.refl x p _, hp, h, hv⟩

/-! ## One call -/

/-- What a call must come to: the machine's next state, what can be seen of it evaluated, and no undefined
    operation but in a tree without a value. -/
def Simulates (pow : Int → Int → Option Int) (depth : Option Nat) (x : Terminal × Token) (p : LR)
    (y : Machine × List (Seen Tree)) : Prop :=
  ∃ p' es, parse (parser pow) depth (some x.1) x.2 p = some (p', es) ∧ Lazy pow y.1 p'.stack ∧
    seen es = y.2.map (Seen.map (eval pow)) ∧ (Undefined es → DeadAfter pow y)

theorem Simulates.of_reaches {x : Terminal × Token} {p p' : LR} {y : Machine × List (Seen Tree)} {dead : Prop}
    (h : Reaches pow depth x p p' dead) (hdead : dead → DeadAfter pow y) (h' : Simulates pow depth x p' y) :
    Simulates pow depth x p y := by
  obtain ⟨es, hl, hs, hu⟩ := h
  obtain ⟨p'', fs, hp, hz, hs', hu'⟩ := h'
  refine ⟨p'', es ++ fs, ?_, hz, ?_, ?_⟩
  · rw [hl, hp]
    rfl
  · rw [seen_append, hs, hs', List.nil_append]
  · intro hundef
    exact (undefined_append.mp hundef).elim (fun h => hdead (hu h)) hu'

/-- A token that is shifted, or overflows the stack. -/
theorem simulates_push {x : Terminal × Token} {p : LR} {n : Nat} {m : Precedence.Machine Token Op}
    (s : StateNo State Rule) (hn : p.stack.length = n)
    (hs : Shifts (parser pow) (some x.1) (Lemon.top (parser pow) p.stack) s)
    (hlazy : Lazy pow (.line m) (⟨s, .terminal x.1, x.2⟩ :: p.stack)) :
    Simulates pow depth x p (push depth n m) := by
  subst hn
  unfold push
  cases hroom : room depth p.stack.length with
  | true => exact ⟨_, _, parse_done (turn_shift s hs (not_full hroom)), hlazy, rfl, fun h => absurd h not_undefined_nil⟩
  | false =>
      refine ⟨_, _, parse_done (turn_overflow s hs (is_full hroom)), Lazy.empty, rfl, ?_⟩
      exact fun _ => .inr (.inr (List.mem_singleton.mpr rfl))

/-- A token that is discarded. -/
theorem simulates_discard {x : Terminal × Token} {p : LR} {m : Machine}
    (hfind : findShiftAction (parser pow) (some x.1) (Lemon.top (parser pow) p.stack) = .error)
    (hm : Settled pow m p.stack) : Simulates pow depth x p (m, []) :=
  ⟨_, _, parse_done (turn_discard hfind rfl), .settled hm, seen_discard x.1 p,
    fun h => absurd h (not_undefined_discard x.1 p)⟩

/-- The states that wait for an operand differ in front of the end marker only. -/
theorem action_under (K : List Item) (a : Terminal) : action (under K) (some a) = action .lrb (some a) := by
  cases K with
  | nil => cases a <;> rfl
  | cons i K => cases i <;> cases a <;> rfl

/-- Waiting for an operand. -/
theorem simulates_operand (x : Terminal × Token) {p : LR} {K : List Item} (h : Rep pow K p.stack) :
    Simulates pow depth x p (step depth x (.line (.operand K))) := by
  obtain ⟨a, v⟩ := x
  have hact : findShiftAction (parser pow) (some a) (Lemon.top (parser pow) p.stack) = action .lrb (some a) := by
    rw [h.top]
    exact action_under K a
  cases a with
  | num => exact simulates_push (.reduce .exprNum) h.length hact (.num v h)
  | lrb => exact simulates_push (.state .lrb) h.length hact (.settled (.operand (.bracket v h)))
  | op o => exact simulates_discard hact (.operand h)
  | rrb => exact simulates_discard hact (.operand h)
  | newline => exact simulates_discard hact (.operand h)

/-- An operand in front of an operator. -/
theorem simulates_op (o : Op) (w : Token) {p : LR} {K : List Item} {S : List Entry} {t : Tree} {v : Token}
    (hp : p.stack = operandEntry K v :: S) (h : Rep pow K S) (hv : v.value = eval pow t) :
    Simulates pow depth (.op o, w) p (step depth (.op o, w) (.line (.operator K t))) := by
  have hpicks : Picks (.op o) (levels.joins o) := fun o' ho' => by
    show (if reduces o' o then Action.reduce (Rule.exprOp o') else Action.shift (State.op o)) = _
    rw [if_pos]
    exact ho'
  obtain ⟨p', v', S', hr, hp', h', hv'⟩ := reach_collapse (.op o, w) hpicks K hp h hv
  set K' := (collapse (levels.joins o) K t).1
  set t' := (collapse (levels.joins o) K t).2
  refine .of_reaches hr (fun h => deadAfter_push ⟨_, List.mem_cons_self .., h⟩)
    (simulates_push (.state (.op o)) ?_ ?_ ?_)
  · rw [hp', List.length_cons, h'.length]
  · -- the pending operator that is left on top is not reduced
    rw [hp']
    show action (above K') (some (.op o)) = .shift (.op o)
    have hstop : Stops (levels.joins o) K' := stops_collapse _ K t
    cases hK'' : K' with
    | nil => rfl
    | cons i K'' =>
        cases i with
        | bracket => rfl
        | pend l o' =>
            rw [hK''] at hstop
            show (if reduces o' o then Action.reduce (Rule.exprOp o') else Action.shift (State.op o)) = _
            rw [if_neg]
            exact Bool.eq_false_iff.mp hstop
  · rw [hp']
    exact .settled (.operand (.pend o v' w h' hv'))

/-- The line's result is printed in front of a token that is not an operator. -/
theorem simulates_print {a : Terminal} (w : Token) {p : LR} {S : List Entry} {t : Tree} {v : Token}
    (hd : Deep depth) (ha : ∀ o, a ≠ .op o) (hp : p.stack = operandEntry [] v :: S) (h : Rep pow [] S)
    (hv : v.value = eval pow t) :
    Simulates pow depth (a, w) p (if a = .newline then .line (.operand []) else .skip, [.printed t]) := by
  cases h with
  | nil u =>
      have hfind : findShiftAction (parser pow) (some a) (Lemon.top (parser pow) p.stack) = .reduce .stateExpr := by
        rw [hp]
        cases a with
        | op o => exact absurd rfl (ha o)
        | _ => rfl
      let p₁ := p.push [(⟨.state .input, .nonterminal .input, u⟩ : Entry)] ⟨.state .state, .nonterminal .state, v⟩
      have hreduce := @leads_reduce _ _ _ _ _ _ (parser pow) Rule.stateExpr [_] [_] depth _ w _ _ _ hfind hp rfl rfl rfl
        (fun h => (List.cons_ne_nil _ _ h).elim)
      have hlead : Leads (parser pow) depth (some a) w p p₁ [.user (.result v.n v.value)] := hreduce
      -- NEWLINE is shifted, any other token is discarded
      have hnext : Simulates pow depth (a, w) p₁ (if a = .newline then .line (.operand []) else .skip, []) := by
        by_cases hn : a = .newline
        · subst hn
          have hs : Shifts (parser pow) (some .newline) (Lemon.top (parser pow) p₁.stack) (.reduce .inLine) := rfl
          have hroom : full depth p₁.stack = false := not_full (room_of_le hd (Nat.le_refl 2))
          exact ⟨_, _, parse_done (turn_shift _ hs hroom), .newline w v u, rfl, fun h => absurd h not_undefined_nil⟩
        · rw [if_neg hn]
          apply simulates_discard _ (.skip v u)
          cases a with
          | newline => exact absurd rfl hn
          | _ => rfl
      obtain ⟨p₂, es, hparse, hlazy, hes, hu⟩ := hnext
      refine ⟨p₂, .user (.result v.n v.value) :: es, ?_, hlazy, ?_, ?_⟩
      · rw [hlead, hparse]
        rfl
      · show Seen.printed v.value :: seen es = _
        rw [hes, hv]
        rfl
      · intro hundef
        have hrest : Undefined es := by simpa [Undefined] using hundef
        exact (hu hrest).append_left [.printed t]

/-- An operand in front of a token that is not an operator. -/
theorem simulates_finish {a : Terminal} (w : Token) {p : LR} {K : List Item} {S : List Entry} {t : Tree}
    {v : Token} (hd : Deep depth) (ha : ∀ o, a ≠ .op o) (hp : p.stack = operandEntry K v :: S)
    (h : Rep pow K S) (hv : v.value = eval pow t) :
    Simulates pow depth (a, w) p (finish depth a (collapseAll K t)) := by
  have hpicks : Picks a (fun _ => true) := fun o' _ => by
    cases a with
    | op o => exact absurd rfl (ha o)
    | _ => rfl
  obtain ⟨p', v', S', hr, hp', h', hv'⟩ := reach_collapse (a, w) hpicks K hp h hv
  refine .of_reaches hr (fun h => deadAfter_finish ⟨_, List.mem_cons_self .., h⟩) ?_
  rcases collapseAll_cases K t with ⟨t', heq⟩ | ⟨K', t', heq⟩
  · -- no bracket is open
    rw [show collapse (fun _ => true) K t = _ from heq] at hp' h' hv'
    rw [heq]
    exact simulates_print w hd ha hp' h' hv'
  · -- behind an open bracket only its end is shifted, every other token is thrown away
    rw [show collapse (fun _ => true) K t = _ from heq] at hp' h' hv'
    rw [heq]
    have htop : Lemon.top (parser pow) p'.stack = .state .bracket := by
      rw [hp']
      rfl
    by_cases hrrb : a = .rrb
    · subst hrrb
      show Simulates pow depth (.rrb, w) p' (push depth (height (.bracket :: K') + 1) (.operator K' t'))
      refine simulates_push (.reduce .exprBracket) ?_ ?_ ?_
      · rw [hp', List.length_cons, h'.length]
      · rw [htop]
        rfl
      · cases h' with
        | bracket u h'' =>
            rw [hp']
            exact .rrb w v' u h'' hv'
    · show Simulates pow depth (a, w) p' (if a = .rrb then _ else (.line (.operator (.bracket :: K') t'), []))
      rw [if_neg hrrb]
      apply simulates_discard
      · rw [htop]
        cases a with
        | op o => exact absurd rfl (ha o)
        | rrb => exact absurd rfl hrrb
        | _ => rfl
      · rw [hp']
        exact .operator v' h' hv'

/-- The line is skipped up to its NEWLINE. -/
theorem simulates_skip (x : Terminal × Token) {p : LR} (hd : Deep depth) (h : Settled pow .skip p.stack) :
    Simulates pow depth x p (step depth x .skip) := by
  obtain ⟨a, w⟩ := x
  obtain ⟨S, errcnt, peak⟩ := p
  cases h with
  | skip v u =>
      by_cases hn : a = .newline
      · subst hn
        have hroom : room depth 2 = true := room_of_le hd (Nat.le_refl 2)
        exact ⟨_, _, parse_done (turn_shift (.reduce Rule.inLine) rfl (not_full hroom)), .newline w v u, rfl,
          fun h => absurd h not_undefined_nil⟩
      · show Simulates pow depth (a, w) _ (if a = .newline then .line (.operand []) else .skip, [])
        rw [if_neg hn]
        refine simulates_discard ?_ (.skip v u)
        cases a with
        | newline => exact absurd rfl hn
        | _ => rfl

/-- **One call of the parser is one step of the machine.** -/
theorem parse_step (hd : Deep depth) (x : Terminal × Token) {m : Machine} {p : LR} (h : Lazy pow m p.stack) :
    Simulates pow depth x p (step depth x m) := by
  obtain ⟨p', hr, hs⟩ := settle hd h x
  refine .of_reaches hr False.elim ?_
  clear h hr
  obtain ⟨a, w⟩ := x
  obtain ⟨S, errcnt, peak⟩ := p'
  cases hs with
  | operand h => exact simulates_operand (a, w) h
  | operator v h hv =>
      cases a with
      | op o => exact simulates_op o w rfl h hv
      | num => exact simulates_finish w hd (fun o => Terminal.noConfusion) rfl h hv
      | lrb => exact simulates_finish w hd (fun o => Terminal.noConfusion) rfl h hv
      | rrb => exact simulates_finish w hd (fun o => Terminal.noConfusion) rfl h hv
      | newline => exact simulates_finish w hd (fun o => Terminal.noConfusion) rfl h hv
  | skip v u => exact simulates_skip (a, w) hd (.skip v u)

/-! ## Whole runs -/

/-- **The parser is the machine**, over any sequence of tokens from any state of it. -/
theorem run_steps (hd : Deep depth) (xs : List (Terminal × Token)) {m : Machine} {p : LR}
    (h : Lazy pow m p.stack) :
    ∃ p' es, run (parser pow) depth (feed xs) p = some (p', es) ∧ Lazy pow (steps depth xs m).1 p'.stack ∧
      seen es = (steps depth xs m).2.map (Seen.map (eval pow)) ∧
      (Undefined es → DeadAfter pow (steps depth xs m)) := by
  induction xs generalizing m p with
  | nil => exact ⟨p, [], rfl, h, rfl, fun h => absurd h not_undefined_nil⟩
  | cons x xs ih =>
      obtain ⟨p₁, es₁, h₁, hl₁, hs₁, hu₁⟩ := parse_step hd x h
      obtain ⟨p₂, es₂, h₂, hl₂, hs₂, hu₂⟩ := ih hl₁
      refine ⟨p₂, es₁ ++ es₂, ?_, hl₂, ?_, ?_⟩
      · show (parse (parser pow) depth (some x.1) x.2 p).bind _ = _
        rw [h₁, Option.bind_some]
        show (run (parser pow) depth (feed xs) p₁).map _ = _
        rw [h₂]
        rfl
      · rw [seen_append, hs₁, hs₂, steps, List.map_append]
      · intro hundef
        rcases undefined_append.mp hundef with hundef | hundef
        · exact deadAfter_steps depth xs (hu₁ hundef)
        · exact (hu₂ hundef).append_left _

end Calc
end CSamples
