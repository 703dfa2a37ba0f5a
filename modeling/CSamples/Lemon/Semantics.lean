import CSamples.Lemon.Engine

/-!
# `Lemon.Semantics` — the same tables with other reduce actions

What the parser does depends on the tokens, never on the values that its reduce actions compute. So two parsers
with the same tables stay in step; and where the actions of one are the image of the other's, so are their
runs. With trees for values this separates what is reduced from what is computed on the way.

## Contents
- `Generated.withSem`: other reduce actions.
- `Maps`: the actions are the image of others.
- `run_map`: then the runs are.
-/

namespace CSamples
namespace Lemon

variable {τ ν σ ρ V ω W χ : Type}

/-- The tables with other reduce actions. -/
def Generated.withSem (G : Generated τ ν σ ρ V ω) (sem : ρ → List W → W × List χ) : Generated τ ν σ ρ W χ where
  start     := G.start
  lhs       := G.lhs
  rhs       := G.rhs
  action    := G.action
  goto      := G.goto
  sem       := sem
  rank      := G.rank
  rankBound := G.rankBound
  rank_lt   := G.rank_lt
  rank_goto := G.rank_goto

def Entry.map (f : W → V) (e : Entry τ ν σ ρ W) : Entry τ ν σ ρ V := ⟨e.stateno, e.major, f e.minor⟩

def Parser.map (f : W → V) (p : Parser τ ν σ ρ W) : Parser τ ν σ ρ V :=
  ⟨p.stack.map (Entry.map f), p.yyerrcnt, p.peak⟩

/-- An event, with other effects in the place of each effect. -/
def Event.expand (g : χ → List ω) : Event τ χ → List (Event τ ω)
  | .user o        => (g o).map .user
  | .stackOverflow => [.stackOverflow]
  | .syntaxError t => [.syntaxError t]
  | .parseFailure  => [.parseFailure]
  | .parseAccept   => [.parseAccept]

/-- The reduce actions of `G` are the image of `sem`. -/
def Maps (G : Generated τ ν σ ρ V ω) (sem : ρ → List W → W × List χ) (f : W → V) (g : χ → List ω) : Prop :=
  ∀ r ws, G.sem r (ws.map f) = (f (sem r ws).1, (sem r ws).2.flatMap g)

variable {G : Generated τ ν σ ρ V ω} {sem : ρ → List W → W × List χ} {f : W → V} {g : χ → List ω}

theorem top_map (S : List (Entry τ ν σ ρ W)) : top G (S.map (Entry.map f)) = top (G.withSem sem) S := by
  cases S <;> rfl

theorem findShiftAction_withSem (t : Option τ) (e : StateNo σ ρ) :
    findShiftAction G t e = findShiftAction (G.withSem sem) t e := by
  cases e <;> rfl

theorem full_map (depth : Option Nat) (S : List (Entry τ ν σ ρ W)) :
    full depth (S.map (@Entry.map _ ν σ ρ V W f)) = @full τ ν σ ρ W depth S := by
  cases depth with
  | none => rfl
  | some d =>
      unfold full
      rw [List.length_map]

theorem expand_user (os : List χ) :
    (os.map .user).flatMap (Event.expand g) = ((os.flatMap g).map .user : List (Event τ ω)) := by
  induction os with
  | nil => rfl
  | cons o os ih =>
      rw [List.map_cons, List.flatMap_cons, ih, List.flatMap_cons, List.map_append]
      rfl

theorem push_map (p : Parser τ ν σ ρ W) (below : List (Entry τ ν σ ρ W)) (e : Entry τ ν σ ρ W) :
    (p.push below e).map f = (p.map f).push (below.map (Entry.map f)) (e.map f) := by
  simp [Parser.push, Parser.map]

/-- Both parsers reduce by the same rule. -/
theorem reduce_map (h : Maps G sem f g) (r : ρ) (p : Parser τ ν σ ρ W) :
    reduce G r (p.map f) = (reduce (G.withSem sem) r p).map (fun x => (x.1.map f, x.2.flatMap g)) := by
  have hvalues : (((p.map f).stack).take (G.rhs r).length).reverse.map (·.minor)
      = ((p.stack.take (G.rhs r).length).reverse.map (·.minor)).map f := by
    show ((p.stack.map (Entry.map f)).take _).reverse.map _ = _
    rw [← List.map_take, ← List.map_reverse, List.map_map, List.map_map]
    rfl
  have hbelow : (p.map f).stack.drop (G.rhs r).length = (p.stack.drop (G.rhs r).length).map (Entry.map f) := by
    show (p.stack.map (Entry.map f)).drop _ = _
    rw [List.map_drop]
  have hlength : (p.map f).stack.length = p.stack.length := List.length_map _
  have hsem := h r ((p.stack.take (G.rhs r).length).reverse.map (·.minor))
  have hrhs : (G.withSem sem).rhs r = G.rhs r := rfl
  have hlhs : (G.withSem sem).lhs r = G.lhs r := rfl
  have hgoto : (G.withSem sem).goto = G.goto := rfl
  have hact : (G.withSem sem).sem = sem := rfl
  simp only [reduce, hlength, hbelow, hvalues, hsem, @top_map _ _ _ _ _ _ _ _ G sem f, hrhs, hlhs, hgoto]
  by_cases hlen : p.stack.length < (G.rhs r).length
  · rw [if_pos hlen, if_pos hlen]
    rfl
  · rw [if_neg hlen, if_neg hlen]
    cases top (G.withSem sem) (p.stack.drop (G.rhs r).length) with
    | state q =>
        cases hs : G.goto q (G.lhs r) with
        | none => simp only [hs, Option.map_none]
        | some s => simp only [hs, Option.map_some, push_map, Entry.map, hact]
    | reduce q => rfl
    | accept => rfl

theorem shift_map (depth : Option Nat) (s : StateNo σ ρ) (t : Option τ) (w : W) (p : Parser τ ν σ ρ W) :
    shift depth s t (f w) (p.map f) =
      (@shift _ _ _ _ _ χ depth s t w p).map (fun x => (x.1.map f, x.2.flatMap (Event.expand g))) := by
  cases t with
  | none => rfl
  | some a =>
      have hfull : full depth (p.map f).stack = full depth p.stack := full_map depth p.stack
      unfold shift
      rw [hfull]
      cases full depth p.stack with
      | true => rfl
      | false =>
          simp only [Bool.false_eq_true, if_false, Option.map_some, Parser.map, Parser.push, List.map_cons,
            List.length_map, Entry.map, List.flatMap_nil]

theorem discard_map (t : Option τ) (p : Parser τ ν σ ρ W) :
    discard t (p.map f) =
      ((@discard _ _ _ _ _ χ t p).1.map f, (discard t p).2.flatMap (Event.expand g)) := by
  have herr : (p.map f).yyerrcnt = p.yyerrcnt := rfl
  unfold discard
  rw [herr]
  cases t <;> by_cases hc : p.yyerrcnt ≤ 0 <;> simp [hc, Parser.map, Event.expand]

/-- The image of a turn. -/
def Turn.map (f : W → V) (g : χ → List ω) : Turn τ ν σ ρ W χ → Turn τ ν σ ρ V ω
  | .again p es => .again (p.map f) (es.flatMap (Event.expand g))
  | .done p es  => .done (p.map f) (es.flatMap (Event.expand g))

theorem turn_map (h : Maps G sem f g) (depth : Option Nat) (t : Option τ) (w : W) (p : Parser τ ν σ ρ W) :
    turn G depth t (f w) (p.map f) = (turn (G.withSem sem) depth t w p).map (Turn.map f g) := by
  have hfind : findShiftAction G t (top G (p.map f).stack)
      = findShiftAction (G.withSem sem) t (top (G.withSem sem) p.stack) := by
    rw [← findShiftAction_withSem, ← top_map]
    rfl
  have hfull : full depth (p.map f).stack = full depth p.stack := full_map depth p.stack
  unfold turn
  rw [hfind]
  cases findShiftAction (G.withSem sem) t (top (G.withSem sem) p.stack) with
  | reduce r =>
      have hrhs : (G.withSem sem).rhs r = G.rhs r := rfl
      simp only [hfull, hrhs, reduce_map h]
      by_cases hover : ((G.rhs r).isEmpty && full depth p.stack) = true
      · rw [if_pos hover, if_pos hover]
        rfl
      · rw [if_neg hover, if_neg hover, Option.map_map, Option.map_map]
        congr 1
        funext x
        simp only [Function.comp_apply, Turn.map, expand_user]
  | shift q =>
      simp only [@shift_map _ _ _ _ _ _ _ _ f g, Option.map_map]
      rfl
  | shiftReduce r =>
      simp only [@shift_map _ _ _ _ _ _ _ _ f g, Option.map_map]
      rfl
  | accept =>
      simp only [Option.map_some, Turn.map, Parser.map, List.map_tail, List.flatMap_singleton, Event.expand]
  | error =>
      simp only [@discard_map _ _ _ _ _ _ _ _ f g, Option.map_some, Turn.map]

theorem loop_map (h : Maps G sem f g) (depth : Option Nat) (t : Option τ) (w : W) (n : Nat)
    (p : Parser τ ν σ ρ W) :
    loop G depth t (f w) n (p.map f) =
      (loop (G.withSem sem) depth t w n p).map (fun x => (x.1.map f, x.2.flatMap (Event.expand g))) := by
  induction n generalizing p with
  | zero => rfl
  | succ n ih =>
      unfold loop
      rw [turn_map h]
      cases turn (G.withSem sem) depth t w p with
      | none => rfl
      | some x =>
          cases x with
          | done p' es => rfl
          | again p' es =>
              simp only [Option.map_some, Turn.map, ih, Option.map_map]
              congr 1
              funext x
              simp only [Function.comp_apply, List.flatMap_append]

theorem parse_map (h : Maps G sem f g) (depth : Option Nat) (t : Option τ) (w : W) (p : Parser τ ν σ ρ W) :
    parse G depth t (f w) (p.map f) =
      (parse (G.withSem sem) depth t w p).map (fun x => (x.1.map f, x.2.flatMap (Event.expand g))) := by
  have hturns : turns G (p.map f) = turns (G.withSem sem) p := by
    show G.rankBound * ((p.stack.map _).length + 3) = G.rankBound * (p.stack.length + 3)
    rw [List.length_map]
  unfold parse
  rw [hturns, loop_map h]

/-- **Parsers in step**: from the image of a parser, the images of the tokens lead to the image of what they
    lead to there. -/
theorem run_map (h : Maps G sem f g) (depth : Option Nat) (ts : List (Option τ × W)) (p : Parser τ ν σ ρ W) :
    run G depth (ts.map (fun t => (t.1, f t.2))) (p.map f) =
      (run (G.withSem sem) depth ts p).map (fun x => (x.1.map f, x.2.flatMap (Event.expand g))) := by
  induction ts generalizing p with
  | nil => rfl
  | cons t ts ih =>
      rw [List.map_cons, run, run, parse_map h]
      cases parse (G.withSem sem) depth t.1 t.2 p with
      | none => rfl
      | some x =>
          simp only [Option.map_some, Option.bind_some, ih, Option.map_map]
          congr 1
          funext y
          simp only [Function.comp_apply, List.flatMap_append]

end Lemon
end CSamples
