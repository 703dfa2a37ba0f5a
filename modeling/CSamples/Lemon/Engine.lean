import Mathlib.Computability.ContextFreeGrammar

/-!
# `Lemon.Engine` — the parser engine of `lempar.c`

`Parse` of `tools/lempar.c` for a grammar without an error symbol, over any tables the generator makes:
reductions until a shift, an acceptance or an error; a syntax error discards the token and keeps the stack;
an overflow empties the stack and the token is lost.

## Contents
- **Model.** `Generated` (what the generator makes of a grammar file), `Parser`, one `turn` of the loop and
  `parse`. The bottom entry of the stack is implicit.
- **Termination.** The tables carry a rank that bounds consecutive reductions; `parse_again` and
  `parse_done` are the loop without its bound.
- **Depth.** `run_depth`: a stack that is never needed beyond its depth behaves like an unbounded one.
  `entriesNeeded` is the depth that some tokens need.
-/

namespace CSamples
namespace Lemon

/-! ## Tables -/

/-- An entry of the action table. -/
inductive Action (σ ρ : Type) where
  | shift (q : σ)
  | shiftReduce (r : ρ)
  | reduce (r : ρ)
  | accept
  | error
  deriving DecidableEq, Repr

/-- What `stateno` of a stack entry holds: a state, or an action taken whatever the lookahead is. -/
inductive StateNo (σ ρ : Type) where
  | state (q : σ)
  | reduce (r : ρ)
  | accept
  deriving DecidableEq, Repr

/-- A state number from which rule `r` can be reduced. -/
def CanReduce {τ σ ρ : Type} (action : σ → Option τ → Action σ ρ) (e : StateNo σ ρ) (r : ρ) : Prop :=
  match e with
  | .state q  => ∃ t, action q t = .reduce r
  | .reduce s => s = r
  | .accept   => False

/-- What the generator makes of a grammar file: terminals `τ` (the end marker is `none`), nonterminals `ν`,
    states `σ`, rules `ρ`; semantic values `V` and the observable effects `ω` of the reduce actions. The
    rank is not part of the tables: it is the reason why their reductions come to an end. -/
structure Generated (τ ν σ ρ V ω : Type) where
  start     : σ
  lhs       : ρ → ν
  rhs       : ρ → List (Symbol τ ν)
  action    : σ → Option τ → Action σ ρ
  goto      : σ → ν → Option (StateNo σ ρ)
  sem       : ρ → List V → V × List ω
  rank      : StateNo σ ρ → Nat
  rankBound : Nat
  rank_lt   : ∀ e, rank e < 3 * rankBound
  rank_goto : ∀ q r s e, goto q (lhs r) = some s → CanReduce action e r →
    rank s + rankBound < rank e + rankBound * (rhs r).length

/-- A stack entry. -/
structure Entry (τ ν σ ρ V : Type) where
  stateno : StateNo σ ρ
  major   : Symbol τ ν
  minor   : V

/-- The parser: the entries above the bottom one, top first, and `yyerrcnt`. `peak` is the most entries
    held so far. -/
structure Parser (τ ν σ ρ V : Type) where
  stack    : List (Entry τ ν σ ρ V)
  yyerrcnt : Int32
  peak     : Nat

/-- What a call of `Parse` does besides changing the parser. -/
inductive Event (τ ω : Type) where
  | user (o : ω)
  | stackOverflow
  | syntaxError (t : Option τ)
  | parseFailure
  | parseAccept
  deriving DecidableEq, Repr

/-- `ParseInit` -/
def init {τ ν σ ρ V : Type} : Parser τ ν σ ρ V := ⟨[], -1, 0⟩

variable {τ ν σ ρ V ω : Type} (G : Generated τ ν σ ρ V ω)

/-! ## The engine -/

/-- `yytos->stateno` of a stack. -/
def top : List (Entry τ ν σ ρ V) → StateNo σ ρ
  | []     => .state G.start
  | e :: _ => e.stateno

/-- `yy_find_shift_action` -/
def findShiftAction (t : Option τ) : StateNo σ ρ → Action σ ρ
  | .state q  => G.action q t
  | .reduce r => .reduce r
  | .accept   => .accept

/-- No entry can be pushed: `depth` is `YYSTACKDEPTH`, the bottom entry counts; `none` is the stack that
    grows on demand. -/
def full (depth : Option Nat) (stack : List (Entry τ ν σ ρ V)) : Bool :=
  match depth with
  | none   => false
  | some d => d ≤ stack.length + 1

/-- Push an entry. -/
def Parser.push (p : Parser τ ν σ ρ V) (below : List (Entry τ ν σ ρ V)) (e : Entry τ ν σ ρ V) :
    Parser τ ν σ ρ V :=
  { p with stack := e :: below, peak := max p.peak (below.length + 1) }

/-- `yy_reduce`: `none` when the stack is too small or an assertion on the tables fails. -/
def reduce (r : ρ) (p : Parser τ ν σ ρ V) : Option (Parser τ ν σ ρ V × List ω) :=
  let n := (G.rhs r).length
  if p.stack.length < n then none
  else match top G (p.stack.drop n) with
    | .state q =>
        match G.goto q (G.lhs r) with
        | some s =>
            let (v, os) := G.sem r ((p.stack.take n).reverse.map (·.minor))
            some (p.push (p.stack.drop n) ⟨s, .nonterminal (G.lhs r), v⟩, os)
        | none => none
    | _ => none

/-- `yy_shift`, with the decrement of `yyerrcnt` that follows it. The end marker is never shifted. -/
def shift (depth : Option Nat) (s : StateNo σ ρ) (t : Option τ) (v : V) (p : Parser τ ν σ ρ V) :
    Option (Parser τ ν σ ρ V × List (Event τ ω)) :=
  match t with
  | none   => none
  | some a =>
      if full depth p.stack then some ({ p with stack := [], yyerrcnt := p.yyerrcnt - 1 }, [.stackOverflow])
      else some ({ p.push p.stack ⟨s, .terminal a, v⟩ with yyerrcnt := p.yyerrcnt - 1 }, [])

/-- A syntax error without an error symbol: report it unless one was reported lately, throw the token away;
    at the end marker the parse fails. -/
def discard (t : Option τ) (p : Parser τ ν σ ρ V) : Parser τ ν σ ρ V × List (Event τ ω) :=
  let es := if p.yyerrcnt ≤ 0 then [Event.syntaxError t] else []
  match t with
  | some _ => ({ p with yyerrcnt := 3 }, es)
  | none   => ({ p with stack := [], yyerrcnt := -1 }, es ++ [.parseFailure])

/-- How a turn of the loop in `Parse` ends. -/
inductive Turn (τ ν σ ρ V ω : Type) where
  | again (p : Parser τ ν σ ρ V) (es : List (Event τ ω))
  | done (p : Parser τ ν σ ρ V) (es : List (Event τ ω))

/-- One turn of the loop in `Parse`. -/
def turn (depth : Option Nat) (t : Option τ) (v : V) (p : Parser τ ν σ ρ V) : Option (Turn τ ν σ ρ V ω) :=
  match findShiftAction G t (top G p.stack) with
  | .reduce r =>
      if (G.rhs r).isEmpty && full depth p.stack then some (.done { p with stack := [] } [.stackOverflow])
      else (reduce G r p).map (fun x => .again x.1 (x.2.map .user))
  | .shift q => (shift depth (.state q) t v p).map (fun x => .done x.1 x.2)
  | .shiftReduce r => (shift depth (.reduce r) t v p).map (fun x => .done x.1 x.2)
  | .accept => some (.done { p with stack := p.stack.tail, yyerrcnt := -1 } [.parseAccept])
  | .error => (some (discard t p)).map (fun x => .done x.1 x.2)

/-- The loop, with a bound on its turns. -/
def loop (depth : Option Nat) (t : Option τ) (v : V) :
    Nat → Parser τ ν σ ρ V → Option (Parser τ ν σ ρ V × List (Event τ ω))
  | 0, _   => none
  | n+1, p =>
      match turn G depth t v p with
      | none => none
      | some (.done p es) => some (p, es)
      | some (.again p es) => (loop depth t v n p).map (fun x => (x.1, es ++ x.2))

/-- A bound on the turns of a call. -/
def turns (p : Parser τ ν σ ρ V) : Nat := G.rankBound * (p.stack.length + 3)

/-- `Parse`: one call with a token and its value. -/
def parse (depth : Option Nat) (t : Option τ) (v : V) (p : Parser τ ν σ ρ V) :
    Option (Parser τ ν σ ρ V × List (Event τ ω)) :=
  loop G depth t v (turns G p) p

/-- Successive calls. -/
def run (depth : Option Nat) : List (Option τ × V) → Parser τ ν σ ρ V →
    Option (Parser τ ν σ ρ V × List (Event τ ω))
  | [], p           => some (p, [])
  | (t, v) :: ts, p =>
      (parse G depth t v p).bind (fun x => (run depth ts x.1).map (fun y => (y.1, x.2 ++ y.2)))

/-- Tokens as `Parse` is given them, without an end marker. -/
def feed (xs : List (τ × V)) : List (Option τ × V) := xs.map (fun x => (some x.1, x.2))

/-! ## Termination -/

variable {G}

/-- What decreases from turn to turn. -/
def measure (G : Generated τ ν σ ρ V ω) (p : Parser τ ν σ ρ V) : Nat :=
  G.rankBound * p.stack.length + G.rank (top G p.stack)

theorem measure_lt_turns (p : Parser τ ν σ ρ V) : measure G p < turns G p := by
  have h := G.rank_lt (top G p.stack)
  unfold measure turns
  rw [Nat.mul_add]
  omega

/-- What a reduction does to the stack. -/
theorem reduce_eq_some {r : ρ} {p p' : Parser τ ν σ ρ V} {os : List ω} (h : reduce G r p = some (p', os)) :
    (G.rhs r).length ≤ p.stack.length ∧
    ∃ q s, top G (p.stack.drop (G.rhs r).length) = .state q ∧ G.goto q (G.lhs r) = some s ∧
      os = (G.sem r ((p.stack.take (G.rhs r).length).reverse.map (·.minor))).2 ∧
      p' = p.push (p.stack.drop (G.rhs r).length)
        ⟨s, .nonterminal (G.lhs r), (G.sem r ((p.stack.take (G.rhs r).length).reverse.map (·.minor))).1⟩ := by
  unfold reduce at h
  simp only at h
  split at h
  · exact absurd h (by simp)
  · next hlen =>
      refine ⟨Nat.le_of_not_lt hlen, ?_⟩
      split at h
      · next q hq =>
          split at h
          · next s hs =>
              obtain ⟨rfl, rfl⟩ := Prod.mk.inj (Option.some.inj h)
              exact ⟨q, s, hq, hs, rfl, rfl⟩
          · exact absurd h (by simp)
      · exact absurd h (by simp)

/-- The turns that go on are reductions. -/
theorem turn_again {depth : Option Nat} {t : Option τ} {v : V} {p p' : Parser τ ν σ ρ V}
    {es : List (Event τ ω)} (h : turn G depth t v p = some (.again p' es)) :
    ∃ r os, findShiftAction G t (top G p.stack) = .reduce r ∧ reduce G r p = some (p', os) ∧
      es = os.map .user := by
  unfold turn at h
  split at h
  · next r hr =>
      split at h
      · simp at h
      · obtain ⟨⟨p1, os⟩, hx, heq⟩ := Option.map_eq_some_iff.mp h
        simp only [Turn.again.injEq] at heq
        obtain ⟨rfl, rfl⟩ := heq
        exact ⟨r, os, hr, hx, rfl⟩
  · obtain ⟨x, -, heq⟩ := Option.map_eq_some_iff.mp h
    simp at heq
  · obtain ⟨x, -, heq⟩ := Option.map_eq_some_iff.mp h
    simp at heq
  · simp at h
  · obtain ⟨x, -, heq⟩ := Option.map_eq_some_iff.mp h
    simp at heq

theorem canReduce_of_findShiftAction {t : Option τ} {e : StateNo σ ρ} {r : ρ}
    (h : findShiftAction G t e = .reduce r) : CanReduce G.action e r := by
  cases e with
  | state q => exact ⟨t, h⟩
  | reduce s => exact Action.reduce.inj h
  | accept => exact absurd h (by simp [findShiftAction])

/-- Every reduction decreases the measure. -/
theorem measure_turn {depth : Option Nat} {t : Option τ} {v : V} {p p' : Parser τ ν σ ρ V}
    {es : List (Event τ ω)} (h : turn G depth t v p = some (.again p' es)) : measure G p' < measure G p := by
  obtain ⟨r, os, hfind, hred, -⟩ := turn_again h
  obtain ⟨hlen, q, s, -, hgoto, -, rfl⟩ := reduce_eq_some hred
  have hrank := G.rank_goto q r s _ hgoto (canReduce_of_findShiftAction hfind)
  unfold measure
  show G.rankBound * ((p.stack.drop (G.rhs r).length).length + 1) + G.rank s < _
  have hsplit : p.stack.length = (p.stack.drop (G.rhs r).length).length + (G.rhs r).length := by
    rw [List.length_drop]
    omega
  rw [hsplit, Nat.mul_add, Nat.mul_add, Nat.mul_one]
  omega

/-- Beyond the measure, the bound on the turns does not matter. -/
theorem loop_eq_loop {depth : Option Nat} {t : Option τ} {v : V} (n m : Nat) (p : Parser τ ν σ ρ V)
    (hn : measure G p < n) (hm : measure G p < m) : loop G depth t v n p = loop G depth t v m p := by
  induction n generalizing m p with
  | zero => exact absurd hn (Nat.not_lt_zero _)
  | succ n ih =>
      obtain ⟨m, rfl⟩ : ∃ m', m = m' + 1 := ⟨m - 1, by omega⟩
      unfold loop
      cases hturn : turn G depth t v p with
      | none => rfl
      | some x =>
          cases x with
          | done p' es => rfl
          | again p' es =>
              have hlt := measure_turn hturn
              show (loop G depth t v n p').map _ = (loop G depth t v m p').map _
              rw [ih m p' (by omega) (by omega)]

/-- **The loop without its bound**: a reduction goes on with the same token. -/
theorem parse_again {depth : Option Nat} {t : Option τ} {v : V} {p p' : Parser τ ν σ ρ V}
    {es : List (Event τ ω)} (h : turn G depth t v p = some (.again p' es)) :
    parse G depth t v p = (parse G depth t v p').map (fun x => (x.1, es ++ x.2)) := by
  have hlt := measure_turn h
  have hp := @measure_lt_turns _ _ _ _ _ _ G p
  obtain ⟨n, hn⟩ : ∃ n, turns G p = n + 1 := ⟨turns G p - 1, by omega⟩
  unfold parse
  rw [hn, loop, h]
  show (loop G depth t v n p').map _ = _
  rw [loop_eq_loop n (turns G p') p' (by omega) (measure_lt_turns p')]

/-- A turn that ends the call. -/
theorem parse_done {depth : Option Nat} {t : Option τ} {v : V} {p p' : Parser τ ν σ ρ V}
    {es : List (Event τ ω)} (h : turn G depth t v p = some (.done p' es)) :
    parse G depth t v p = some (p', es) := by
  have hp := @measure_lt_turns _ _ _ _ _ _ G p
  obtain ⟨n, hn⟩ : ∃ n, turns G p = n + 1 := ⟨turns G p - 1, by omega⟩
  unfold parse
  rw [hn, loop, h]

/-- **Induction along a call.** A property of parsers that every turn carries backwards from the result
    holds of the parser the call started with. -/
theorem parse_induction {depth : Option Nat} {t : Option τ} {v : V}
    {P : Parser τ ν σ ρ V → Parser τ ν σ ρ V → List (Event τ ω) → Prop}
    (hdone : ∀ p p' es, turn G depth t v p = some (.done p' es) → P p p' es)
    (hagain : ∀ p p₁ p' es es', turn G depth t v p = some (.again p₁ es) → P p₁ p' es' → P p p' (es ++ es'))
    {p p' : Parser τ ν σ ρ V} {es : List (Event τ ω)} (h : parse G depth t v p = some (p', es)) :
    P p p' es := by
  have hloop : ∀ n p p' es, loop G depth t v n p = some (p', es) → P p p' es := by
    intro n
    induction n with
    | zero =>
        intro p p' es h
        exact absurd h (by simp [loop])
    | succ n ih =>
        intro p p' es h
        unfold loop at h
        cases hturn : turn G depth t v p with
        | none => rw [hturn] at h; exact absurd h (by simp)
        | some x =>
            rw [hturn] at h
            cases x with
            | done p₁ es₁ =>
                obtain ⟨rfl, rfl⟩ := Prod.mk.inj (Option.some.inj h)
                exact hdone _ _ _ hturn
            | again p₁ es₁ =>
                obtain ⟨⟨p₂, es₂⟩, hx, heq⟩ := Option.map_eq_some_iff.mp h
                obtain ⟨rfl, rfl⟩ := Prod.mk.inj heq
                exact hagain _ _ _ _ _ hturn (ih _ _ _ hx)
  exact hloop _ _ _ _ h

theorem run_append {depth : Option Nat} (ts us : List (Option τ × V)) (p : Parser τ ν σ ρ V) :
    run G depth (ts ++ us) p =
      (run G depth ts p).bind (fun x => (run G depth us x.1).map (fun y => (y.1, x.2 ++ y.2))) := by
  induction ts generalizing p with
  | nil =>
      rw [List.nil_append, run, Option.bind_some]
      simp
  | cons t ts ih =>
      rw [List.cons_append, run, run]
      cases parse G depth t.1 t.2 p with
      | none => rfl
      | some x =>
          rw [Option.bind_some, Option.bind_some, ih]
          cases run G depth ts x.1 with
          | none => rfl
          | some y =>
              rw [Option.bind_some, Option.map_some, Option.bind_some]
              cases run G depth us y.1 with
              | none => rfl
              | some z => simp

/-! ## Rules for calls -/

/-- With token `t` the loop comes from `p` to `p'`; `es` happens on the way. -/
def Leads (G : Generated τ ν σ ρ V ω) (depth : Option Nat) (t : Option τ) (v : V) (p p' : Parser τ ν σ ρ V)
    (es : List (Event τ ω)) : Prop :=
  parse G depth t v p = (parse G depth t v p').map (fun x => (x.1, es ++ x.2))

theorem Leads.refl (depth : Option Nat) (t : Option τ) (v : V) (p : Parser τ ν σ ρ V) :
    Leads G depth t v p p [] := by
  unfold Leads
  cases parse G depth t v p <;> rfl

theorem Leads.trans {depth : Option Nat} {t : Option τ} {v : V} {p₁ p₂ p₃ : Parser τ ν σ ρ V}
    {es fs : List (Event τ ω)} (h : Leads G depth t v p₁ p₂ es) (h' : Leads G depth t v p₂ p₃ fs) :
    Leads G depth t v p₁ p₃ (es ++ fs) := by
  unfold Leads at *
  rw [h, h']
  cases parse G depth t v p₃ with
  | none => rfl
  | some x => simp

theorem Leads.done {depth : Option Nat} {t : Option τ} {v : V} {p₁ p₂ p₃ : Parser τ ν σ ρ V}
    {es fs : List (Event τ ω)} (h : Leads G depth t v p₁ p₂ es)
    (h' : turn G depth t v p₂ = some (.done p₃ fs)) : parse G depth t v p₁ = some (p₃, es ++ fs) := by
  rw [h, parse_done h']
  rfl

/-- A reduction: the entries of the right-hand side are on top, behind them a state with a goto. -/
theorem leads_reduce (r : ρ) (popped below : List (Entry τ ν σ ρ V)) {depth : Option Nat} {t : Option τ}
    {v : V} {p : Parser τ ν σ ρ V} {q : σ} {s : StateNo σ ρ}
    (hfind : findShiftAction G t (top G p.stack) = .reduce r) (hstack : p.stack = popped ++ below)
    (hlen : popped.length = (G.rhs r).length) (htop : top G below = .state q)
    (hgoto : G.goto q (G.lhs r) = some s) (hroom : G.rhs r = [] → full depth p.stack = false) :
    Leads G depth t v p
      (p.push below ⟨s, .nonterminal (G.lhs r), (G.sem r (popped.reverse.map (·.minor))).1⟩)
      ((G.sem r (popped.reverse.map (·.minor))).2.map .user) := by
  apply parse_again
  have hnfull : ((G.rhs r).isEmpty && full depth p.stack) = false := by
    cases hrhs : G.rhs r with
    | nil => rw [hroom hrhs, Bool.and_false]
    | cons a l => rfl
  have htake : p.stack.take (G.rhs r).length = popped := by
    rw [hstack, ← hlen, List.take_left]
  have hdrop : p.stack.drop (G.rhs r).length = below := by
    rw [hstack, ← hlen, List.drop_left]
  have hle : ¬ p.stack.length < (G.rhs r).length := by
    rw [hstack, ← hlen, List.length_append]
    omega
  simp only [turn, hfind, hnfull, Bool.false_eq_true, if_false, reduce, if_neg hle, hdrop, htop, hgoto, htake,
    Option.map_some]

/-- In state `e` the token is shifted, and `s` is the new state. -/
def Shifts (G : Generated τ ν σ ρ V ω) (t : Option τ) (e : StateNo σ ρ) : StateNo σ ρ → Prop
  | .state q  => findShiftAction G t e = .shift q
  | .reduce r => findShiftAction G t e = .shiftReduce r
  | .accept   => False

/-- A shift, with room for an entry. -/
theorem turn_shift (s : StateNo σ ρ) {depth : Option Nat} {a : τ} {v : V} {p : Parser τ ν σ ρ V}
    (hs : Shifts G (some a) (top G p.stack) s) (hroom : full depth p.stack = false) :
    turn G depth (some a) v p =
      some (.done { p.push p.stack ⟨s, .terminal a, v⟩ with yyerrcnt := p.yyerrcnt - 1 } []) := by
  cases s with
  | state q =>
      have hfind : findShiftAction G (some a) (top G p.stack) = .shift q := hs
      simp only [turn, hfind, shift, hroom, Bool.false_eq_true, if_false, Option.map_some]
  | reduce r =>
      have hfind : findShiftAction G (some a) (top G p.stack) = .shiftReduce r := hs
      simp only [turn, hfind, shift, hroom, Bool.false_eq_true, if_false, Option.map_some]
  | accept => exact hs.elim

/-- A shift without room: the stack is emptied and the token is lost. -/
theorem turn_overflow (s : StateNo σ ρ) {depth : Option Nat} {a : τ} {v : V} {p : Parser τ ν σ ρ V}
    (hs : Shifts G (some a) (top G p.stack) s) (hroom : full depth p.stack = true) :
    turn G depth (some a) v p =
      some (.done { p with stack := [], yyerrcnt := p.yyerrcnt - 1 } [.stackOverflow]) := by
  cases s with
  | state q =>
      have hfind : findShiftAction G (some a) (top G p.stack) = .shift q := hs
      simp only [turn, hfind, shift, hroom, if_true, Option.map_some]
  | reduce r =>
      have hfind : findShiftAction G (some a) (top G p.stack) = .shiftReduce r := hs
      simp only [turn, hfind, shift, hroom, if_true, Option.map_some]
  | accept => exact hs.elim

/-- A syntax error. -/
theorem turn_discard {depth : Option Nat} {t : Option τ} {v : V} {p p' : Parser τ ν σ ρ V}
    {es : List (Event τ ω)} (hfind : findShiftAction G t (top G p.stack) = .error)
    (h : discard t p = (p', es)) : turn G depth t v p = some (.done p' es) := by
  simp only [turn, hfind, h, Option.map_some]

/-! ## Depth -/

theorem peak_turn_again {depth : Option Nat} {t : Option τ} {v : V} {p p' : Parser τ ν σ ρ V}
    {es : List (Event τ ω)} (h : turn G depth t v p = some (.again p' es)) : p.peak ≤ p'.peak := by
  obtain ⟨r, os, -, hred, -⟩ := turn_again h
  obtain ⟨-, q, s, -, -, -, rfl⟩ := reduce_eq_some hred
  exact Nat.le_max_left _ _

theorem discard_peak (t : Option τ) (p : Parser τ ν σ ρ V) : (@discard τ ν σ ρ V ω t p).1.peak = p.peak := by
  cases t <;> rfl

theorem shift_none {s : StateNo σ ρ} {t : Option τ} {v : V} {p p' : Parser τ ν σ ρ V}
    {es : List (Event τ ω)} (h : shift none s t v p = some (p', es)) :
    p.peak ≤ p'.peak ∧ ∀ d, p'.peak < d → shift (some d) s t v p = some (p', es) := by
  cases t with
  | none => exact absurd h (by simp [shift])
  | some a =>
      have hnone : @shift τ ν σ ρ V ω none s (some a) v p
          = some ({ p.push p.stack ⟨s, .terminal a, v⟩ with yyerrcnt := p.yyerrcnt - 1 }, []) := rfl
      rw [hnone] at h
      obtain ⟨rfl, rfl⟩ := Prod.mk.inj (Option.some.inj h)
      refine ⟨Nat.le_max_left _ _, ?_⟩
      intro d hd
      have hlen : p.stack.length + 1 ≤ max p.peak (p.stack.length + 1) := Nat.le_max_right _ _
      have hfull : full (some d) p.stack = false := by
        unfold full
        exact decide_eq_false (Nat.not_le.mpr (Nat.lt_of_le_of_lt hlen hd))
      unfold shift
      rw [hfull]
      rfl

/-- A turn that keeps below the depth is the turn of the unbounded stack. -/
theorem turn_depth {t : Option τ} {v : V} {p : Parser τ ν σ ρ V} {x : Turn τ ν σ ρ V ω} {d : Nat}
    (h : turn G none t v p = some x)
    (hd : match x with | .again p' _ => p'.peak < d | .done p' _ => p'.peak < d) :
    turn G (some d) t v p = some x := by
  unfold turn at h ⊢
  split at h
  · next r hr =>
      rw [if_neg (by simp [full])] at h
      obtain ⟨⟨p1, os⟩, hx, rfl⟩ := Option.map_eq_some_iff.mp h
      have hnfull : ((G.rhs r).isEmpty && full (some d) p.stack) = false := by
        cases hrhs : G.rhs r with
        | cons a l => rfl
        | nil =>
            obtain ⟨-, q, s, -, -, -, rfl⟩ := reduce_eq_some hx
            have hpeak : max p.peak ((p.stack.drop (G.rhs r).length).length + 1) < d := hd
            rw [hrhs] at hpeak
            simp only [List.length_nil, List.drop_zero] at hpeak
            simp only [List.isEmpty_nil, Bool.true_and, full, decide_eq_false_iff_not]
            omega
      rw [hnfull, hx]
      rfl
  · obtain ⟨⟨p1, es⟩, hx, rfl⟩ := Option.map_eq_some_iff.mp h
    rw [(shift_none hx).2 d hd]
    rfl
  · obtain ⟨⟨p1, es⟩, hx, rfl⟩ := Option.map_eq_some_iff.mp h
    rw [(shift_none hx).2 d hd]
    rfl
  · exact h
  · exact h

theorem peak_turn_done {t : Option τ} {v : V} {p p' : Parser τ ν σ ρ V} {es : List (Event τ ω)}
    (h : turn G none t v p = some (.done p' es)) : p.peak ≤ p'.peak := by
  unfold turn at h
  split at h
  · rw [if_neg (by simp [full])] at h
    obtain ⟨x, -, heq⟩ := Option.map_eq_some_iff.mp h
    simp at heq
  · obtain ⟨⟨p1, es1⟩, hx, heq⟩ := Option.map_eq_some_iff.mp h
    obtain ⟨rfl, rfl⟩ := Turn.done.inj heq
    exact (shift_none hx).1
  · obtain ⟨⟨p1, es1⟩, hx, heq⟩ := Option.map_eq_some_iff.mp h
    obtain ⟨rfl, rfl⟩ := Turn.done.inj heq
    exact (shift_none hx).1
  · obtain ⟨rfl, rfl⟩ := Turn.done.inj (Option.some.inj h)
    exact Nat.le_refl _
  · rw [Option.map_some] at h
    obtain ⟨rfl, rfl⟩ := Turn.done.inj (Option.some.inj h)
    exact Nat.le_of_eq (discard_peak t p).symm

/-- One call: the peak grows, and below the depth the depth does not matter. -/
theorem parse_depth {t : Option τ} {v : V} {p p' : Parser τ ν σ ρ V} {es : List (Event τ ω)}
    (h : parse G none t v p = some (p', es)) :
    p.peak ≤ p'.peak ∧ ∀ d, p'.peak < d → parse G (some d) t v p = some (p', es) := by
  refine parse_induction
    (P := fun p p' es => p.peak ≤ p'.peak ∧ ∀ d, p'.peak < d → parse G (some d) t v p = some (p', es))
    ?_ ?_ h
  · intro p p' es hturn
    exact ⟨peak_turn_done hturn, fun d hd => parse_done (turn_depth hturn hd)⟩
  · intro p p₁ p' es es' hturn ih
    refine ⟨Nat.le_trans (peak_turn_again hturn) ih.1, ?_⟩
    intro d hd
    rw [parse_again (turn_depth hturn (Nat.lt_of_le_of_lt ih.1 hd)), ih.2 d hd]
    rfl

/-- **A stack that is never needed beyond its depth behaves like an unbounded one.** -/
theorem run_depth (ts : List (Option τ × V)) {p p' : Parser τ ν σ ρ V} {es : List (Event τ ω)}
    (h : run G none ts p = some (p', es)) :
    p.peak ≤ p'.peak ∧ ∀ d, p'.peak < d → run G (some d) ts p = some (p', es) := by
  induction ts generalizing p es with
  | nil =>
      obtain ⟨rfl, rfl⟩ := Prod.mk.inj (Option.some.inj h)
      exact ⟨Nat.le_refl _, fun d _ => rfl⟩
  | cons t ts ih =>
      obtain ⟨x, hx, hrest⟩ := Option.bind_eq_some_iff.mp h
      obtain ⟨y, hy, heq⟩ := Option.map_eq_some_iff.mp hrest
      obtain ⟨rfl, rfl⟩ := Prod.mk.inj heq
      obtain ⟨hle, hdepth⟩ := parse_depth hx
      obtain ⟨hle', hdepth'⟩ := ih hy
      refine ⟨Nat.le_trans hle hle', ?_⟩
      intro d hd
      rw [run, hdepth d (Nat.lt_of_le_of_lt hle' hd), Option.bind_some, hdepth' d hd]
      rfl

theorem overflow_not_mem_shift {s : StateNo σ ρ} {t : Option τ} {v : V} {p p' : Parser τ ν σ ρ V}
    {es : List (Event τ ω)} (h : shift none s t v p = some (p', es)) : Event.stackOverflow ∉ es := by
  cases t with
  | none => exact absurd h (by simp [shift])
  | some a =>
      obtain ⟨-, rfl⟩ := Prod.mk.inj (Option.some.inj h)
      exact List.not_mem_nil

theorem overflow_not_mem_turn {t : Option τ} {v : V} {p : Parser τ ν σ ρ V} {x : Turn τ ν σ ρ V ω}
    (h : turn G none t v p = some x) :
    match x with | .again _ es => Event.stackOverflow ∉ es | .done _ es => Event.stackOverflow ∉ es := by
  unfold turn at h
  split at h
  · rw [if_neg (by simp [full])] at h
    obtain ⟨x, -, rfl⟩ := Option.map_eq_some_iff.mp h
    simp
  · obtain ⟨x, hx, rfl⟩ := Option.map_eq_some_iff.mp h
    exact overflow_not_mem_shift hx
  · obtain ⟨x, hx, rfl⟩ := Option.map_eq_some_iff.mp h
    exact overflow_not_mem_shift hx
  · obtain rfl := Option.some.inj h
    simp
  · obtain rfl := Option.some.inj h
    cases t with
    | none => by_cases hc : p.yyerrcnt ≤ 0 <;> simp [discard, hc]
    | some a => by_cases hc : p.yyerrcnt ≤ 0 <;> simp [discard, hc]

/-- A stack that grows on demand does not overflow. -/
theorem overflow_not_mem_run (ts : List (Option τ × V)) {p p' : Parser τ ν σ ρ V} {es : List (Event τ ω)}
    (h : run G none ts p = some (p', es)) : Event.stackOverflow ∉ es := by
  induction ts generalizing p es with
  | nil =>
      obtain ⟨-, rfl⟩ := Prod.mk.inj (Option.some.inj h)
      exact List.not_mem_nil
  | cons t ts ih =>
      obtain ⟨x, hx, hrest⟩ := Option.bind_eq_some_iff.mp h
      obtain ⟨y, hy, heq⟩ := Option.map_eq_some_iff.mp hrest
      obtain ⟨rfl, rfl⟩ := Prod.mk.inj heq
      have hparse : Event.stackOverflow ∉ x.2 := by
        refine parse_induction (P := fun _ _ es => Event.stackOverflow ∉ es) ?_ ?_ hx
        · intro p p' es hturn
          exact overflow_not_mem_turn hturn
        · intro p p₁ p' es es' hturn ih hmem
          exact (List.mem_append.mp hmem).elim (overflow_not_mem_turn hturn) ih
      intro hmem
      exact (List.mem_append.mp hmem).elim hparse (ih hy)

/-- The most entries a stack that grows on demand holds at a time, with the bottom one. -/
def entriesNeeded (G : Generated τ ν σ ρ V ω) (ts : List (Option τ × V)) : Nat :=
  match run G none ts init with
  | some (p, _) => p.peak + 1
  | none        => 0

/-- The same from the start, by the entries the tokens need. -/
theorem run_of_entriesNeeded {ts : List (Option τ × V)} {p : Parser τ ν σ ρ V} {es : List (Event τ ω)} {d : Nat}
    (h : run G none ts init = some (p, es)) (hd : entriesNeeded G ts ≤ d) :
    run G (some d) ts init = some (p, es) := by
  apply (run_depth ts h).2 d
  unfold entriesNeeded at hd
  rw [h] at hd
  exact hd

end Lemon
end CSamples
