import CSamples.Grammar.Yield
import Mathlib.Logic.Relation

/-!
# `LR.Machine` — shift-reduce parsing by tables

A parser of any LR kind as a machine: a stack of states, each with the symbol it was entered by, an action for the
state on top and the next token, and a goto after a reduction. What the tables are made of is left open, and so is what
the places of a rule are: `Rules.fits` says which symbols a place takes.

## Contents
- `Rules`, rules of a grammar with places; `Tables`, `step`, `run` and `Accepts`.
- `Enters` and `Linked`: neighbours on a stack follow one another by the tables.
-/

namespace CSamples
namespace LR

open Grammar

/-! ## Rules and tables -/

/-- The rules of a grammar over tokens `τ` and nonterminals `ν`; a right-hand side is a list of places `κ`. -/
structure Rules (τ ν ρ κ : Type) where
  rule : Set ρ
  lhs  : ρ → ν
  rhs  : ρ → List κ
  fits : κ → Symbol τ ν → Prop

/-- The rules are those of a context-free grammar, place by place. -/
def Rules.Describes {τ ρ κ : Type} {g : ContextFreeGrammar τ} (R : Rules τ g.NT ρ κ) : Prop :=
  ∀ n s, (⟨n, s⟩ : ContextFreeRule τ g.NT) ∈ g.rules ↔ ∃ r ∈ R.rule, R.lhs r = n ∧ List.Forall₂ R.fits (R.rhs r) s

/-- What to do with the state on top and the next token. -/
inductive Act (σ ρ : Type) where
  | shift (q : σ)
  | reduce (r : ρ)
  | accept
  | error
  deriving DecidableEq, Repr

/-- The tables of a parser with states `σ`; the end of the input is the token `none`. -/
structure Tables (τ ν ρ σ : Type) where
  start  : σ
  lhs    : ρ → ν
  nrhs   : ρ → Nat
  action : σ → Option τ → Act σ ρ
  goto   : σ → ν → Option σ

variable {τ ν ρ σ : Type}

/-! ## The machine -/

/-- The states above the first one, top first, each with the symbol that led to it. -/
abbrev Stack (τ ν σ : Type) := List (σ × Symbol τ ν)

/-- The state on top. -/
def top (T : Tables τ ν ρ σ) : Stack τ ν σ → σ
  | []     => T.start
  | e :: _ => e.1

/-- How a step ends. -/
inductive Outcome (τ ν σ : Type) where
  | next (st : Stack τ ν σ) (w : List τ)
  | accepted (rest : List τ)
  | failed
  deriving DecidableEq

/-- One step, with the input `w` left. -/
def step (T : Tables τ ν ρ σ) (st : Stack τ ν σ) (w : List τ) : Outcome τ ν σ :=
  match T.action (top T st) w.head? with
  | .shift q =>
      match w with
      | a :: w' => .next ((q, .terminal a) :: st) w'
      | []      => .failed
  | .reduce r =>
      if st.length < T.nrhs r then .failed
      else
        match T.goto (top T (st.drop (T.nrhs r))) (T.lhs r) with
        | some q => .next ((q, .nonterminal (T.lhs r)) :: st.drop (T.nrhs r)) w
        | none   => .failed
  | .accept => .accepted w
  | .error  => .failed

/-- Any number of steps. -/
abbrev Steps (T : Tables τ ν ρ σ) : Stack τ ν σ × List τ → Stack τ ν σ × List τ → Prop :=
  Relation.ReflTransGen (fun c c' => step T c.1 c.2 = .next c'.1 c'.2)

/-- At most so many steps. -/
def run (T : Tables τ ν ρ σ) : Nat → Stack τ ν σ → List τ → Outcome τ ν σ
  | 0, st, w     => .next st w
  | n + 1, st, w =>
      match step T st w with
      | .next st' w' => run T n st' w'
      | o            => o

/-- From the start, the machine comes to accept in front of `rest`. -/
def AcceptsBefore (T : Tables τ ν ρ σ) (w rest : List τ) : Prop :=
  ∃ st w', Steps T ([], w) (st, w') ∧ step T st w' = .accepted rest

/-- The machine accepts the whole word. -/
def Accepts (T : Tables τ ν ρ σ) (w : List τ) : Prop := AcceptsBefore T w []

variable {T : Tables τ ν ρ σ}

theorem Steps.cons {st st₁ : Stack τ ν σ} {w w₁ : List τ} {c : Stack τ ν σ × List τ} (h : step T st w = .next st₁ w₁)
    (hs : Steps T (st₁, w₁) c) : Steps T (st, w) c := Relation.ReflTransGen.head h hs

/-- What a run accepts, the machine accepts. -/
theorem steps_of_run {n : Nat} {st : Stack τ ν σ} {w rest : List τ} (h : run T n st w = .accepted rest) :
    ∃ st' w', Steps T (st, w) (st', w') ∧ step T st' w' = .accepted rest := by
  induction n generalizing st w with
  | zero => exact absurd h (by simp [run])
  | succ n ih =>
      rw [run] at h
      split at h
      · next st₁ w₁ hstep =>
          obtain ⟨st', w', hsteps, hacc⟩ := ih h
          exact ⟨st', w', .cons hstep hsteps, hacc⟩
      · exact ⟨st, w, .refl, h⟩

theorem acceptsBefore_of_run {n : Nat} {w rest : List τ} (h : run T n [] w = .accepted rest) : AcceptsBefore T w rest :=
  steps_of_run h

/-! ## What a step does -/

theorem step_shift {st : Stack τ ν σ} {a : τ} {w : List τ} {q : σ} (h : T.action (top T st) (some a) = .shift q) :
    step T st (a :: w) = .next ((q, .terminal a) :: st) w := by
  unfold step
  rw [List.head?_cons, h]

theorem step_reduce {st : Stack τ ν σ} {w : List τ} {r : ρ} {q : σ} (h : T.action (top T st) w.head? = .reduce r)
    (hlen : T.nrhs r ≤ st.length) (hgoto : T.goto (top T (st.drop (T.nrhs r))) (T.lhs r) = some q) :
    step T st w = .next ((q, .nonterminal (T.lhs r)) :: st.drop (T.nrhs r)) w := by
  unfold step
  rw [h]
  simp only
  rw [if_neg (by omega), hgoto]

theorem step_accept {st : Stack τ ν σ} {w : List τ} (h : T.action (top T st) w.head? = .accept) :
    step T st w = .accepted w := by
  unfold step
  rw [h]

/-- A step that goes on is a shift or a reduction. -/
theorem step_next {st st' : Stack τ ν σ} {w w' : List τ} (h : step T st w = .next st' w') :
    (∃ q a, T.action (top T st) (some a) = .shift q ∧ w = a :: w' ∧ st' = (q, .terminal a) :: st) ∨
    (∃ r q, T.action (top T st) w.head? = .reduce r ∧ T.nrhs r ≤ st.length ∧
      T.goto (top T (st.drop (T.nrhs r))) (T.lhs r) = some q ∧ w' = w ∧
      st' = (q, .nonterminal (T.lhs r)) :: st.drop (T.nrhs r)) := by
  unfold step at h
  split at h
  · next q hq =>
      cases w with
      | nil => exact absurd h (by simp)
      | cons a w =>
          obtain ⟨rfl, rfl⟩ := Outcome.next.inj h
          exact .inl ⟨q, a, hq, rfl, rfl⟩
  · next r hr =>
      split at h
      · exact absurd h (by simp)
      · next hlen =>
          split at h
          · next q hq =>
              obtain ⟨rfl, rfl⟩ := Outcome.next.inj h
              exact .inr ⟨r, q, hr, Nat.le_of_not_lt hlen, hq, rfl, rfl⟩
          · exact absurd h (by simp)
  · exact absurd h (by simp)
  · exact absurd h (by simp)

theorem step_accepted {st : Stack τ ν σ} {w rest : List τ} (h : step T st w = .accepted rest) :
    T.action (top T st) w.head? = .accept ∧ rest = w := by
  unfold step at h
  split at h
  · cases w <;> exact absurd h (by simp)
  · split at h
    · exact absurd h (by simp)
    · split at h <;> exact absurd h (by simp)
  · next hacc => exact ⟨hacc, (Outcome.accepted.inj h).symm⟩
  · exact absurd h (by simp)

/-! ## Stacks that the tables build -/

/-- The tables lead from one state to another by a symbol. -/
def Enters (T : Tables τ ν ρ σ) (q : σ) : Symbol τ ν → σ → Prop
  | .terminal a, q'    => T.action q (some a) = .shift q'
  | .nonterminal n, q' => T.goto q n = some q'

/-- Every state is entered from the one below it. -/
inductive Linked (T : Tables τ ν ρ σ) : Stack τ ν σ → Prop
  | nil : Linked T []
  | cons {q : σ} {y : Symbol τ ν} {st : Stack τ ν σ} (hy : Enters T (top T st) y q) (h : Linked T st) :
      Linked T ((q, y) :: st)

/-- The states that can be on top. -/
def Entered (T : Tables τ ν ρ σ) (q : σ) : Prop := q = T.start ∨ ∃ p y, Enters T p y q

theorem Linked.entered {st : Stack τ ν σ} (h : Linked T st) : Entered T (top T st) := by
  cases h with
  | nil => exact .inl rfl
  | cons hy _ => exact .inr ⟨_, _, hy⟩

theorem Linked.drop {st : Stack τ ν σ} (h : Linked T st) (n : Nat) : Linked T (st.drop n) := by
  induction h generalizing n with
  | nil =>
      rw [List.drop_nil]
      exact .nil
  | cons hy h ih =>
      cases n with
      | zero => exact .cons hy h
      | succ n => exact ih n

theorem linked_step {st st' : Stack τ ν σ} {w w' : List τ} (h : Linked T st) (hstep : step T st w = .next st' w') :
    Linked T st' := by
  obtain ⟨q, a, hq, -, rfl⟩ | ⟨r, q, -, -, hq, -, rfl⟩ := step_next hstep
  · exact .cons hq h
  · exact .cons hq (h.drop _)

end LR
end CSamples
