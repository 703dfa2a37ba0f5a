import CSamples.LR.Machine

/-!
# `LR.Complete` — tables that accept everything right

Items with lookaheads say what a machine must be able to do: read what comes next, start on the rules of a nonterminal
that comes next, reduce a rule that has been read in front of a token that may follow. Tables that can do all this
(`Complete`) accept the language (`complete`): the machine follows the parse tree.

A rule with one place may be left out of the run, if its place and its left-hand side lead to the same state (`Skips`).
-/

namespace CSamples
namespace LR

open Grammar

variable {τ ρ κ σ : Type} {g : ContextFreeGrammar τ} {R : Rules τ g.NT ρ κ} {T : Tables τ g.NT ρ σ}

/-- The only place of the rule leads to where its left-hand side leads. -/
structure Skips (R : Rules τ g.NT ρ κ) (T : Tables τ g.NT ρ σ) (q : σ) (r : ρ) (d : Nat) (q' : σ) : Prop where
  start  : d = 0
  length : (R.rhs r).length = 1
  enter  : Enters T q (.nonterminal (R.lhs r)) q'

/-- What must hold of tables, with `la q r d a` for "in the state `q`, the first `d` places of `r` have been read, and
    the rule may be followed by `a`". -/
structure Complete (R : Rules τ g.NT ρ κ) (T : Tables τ g.NT ρ σ) (la : σ → ρ → Nat → Option τ → Prop) : Prop where
  lhs     : ∀ r, T.lhs r = R.lhs r
  nrhs    : ∀ r, T.nrhs r = (R.rhs r).length
  start   : ∀ r ∈ R.rule, R.lhs r = g.initial → la T.start r 0 none
  closure : ∀ q r d a x n, la q r d a → (R.rhs r)[d]? = some x → R.fits x (.nonterminal n) →
    ∀ r' ∈ R.rule, R.lhs r' = n → ∀ ys v, List.Forall₂ R.fits ((R.rhs r).drop (d + 1)) ys → Yields g ys v →
      la q r' 0 (v.head?.or a)
  advance : ∀ q r d a x y, la q r d a → (R.rhs r)[d]? = some x → R.fits x y →
    ∃ q', Enters T q y q' ∧ (la q' r (d + 1) a ∨ Skips R T q r d q')
  reduce  : ∀ q r a, la q r (R.rhs r).length a → T.action q a = .reduce r
  accept  : ∃ q, T.goto T.start g.initial = some q ∧ T.action q none = .accept

variable {la : σ → ρ → Nat → Option τ → Prop}

theorem drop_eq_cons {x : κ} {xs : List κ} {l : List κ} {d : Nat} (h : l.drop d = x :: xs) :
    l[d]? = some x ∧ l.drop (d + 1) = xs := by
  constructor
  · rw [← List.head?_drop, h, List.head?_cons]
  · rw [List.drop_add_one_eq_tail_drop, h, List.tail_cons]

/-- A transition has one target. -/
theorem Enters.unique {ν : Type} {T : Tables τ ν ρ σ} {q q₁ q₂ : σ} {y : Symbol τ ν} (h₁ : Enters T q y q₁)
    (h₂ : Enters T q y q₂) : q₁ = q₂ := by
  cases y with
  | terminal a =>
      have h₁ : T.action q (some a) = .shift q₁ := h₁
      exact Act.shift.inj (h₁.symm.trans h₂)
  | nonterminal n =>
      have h₁ : T.goto q n = some q₁ := h₁
      exact Option.some.inj (h₁.symm.trans h₂)

/-- The machine has read `ys` as the places of `r` from `d` on: it stands behind them, or the rule has been left out. -/
def Arrives (R : Rules τ g.NT ρ κ) (T : Tables τ g.NT ρ σ) (la : σ → ρ → Nat → Option τ → Prop) (q : σ) (r : ρ) (d : Nat)
    (a : Option τ) (ys : List (Symbol τ g.NT)) (q' : σ) : Prop :=
  la q' r (d + ys.length) a ∨ (ys.length = 1 ∧ Skips R T q r d q')

/-- A rule that has been read is reduced, or has been left out; either way its left-hand side is on the stack. -/
theorem reduces (h : Complete R T la) {st st₁ : Stack τ g.NT σ} {w : List τ} {r : ρ} {ys : List (Symbol τ g.NT)}
    (hrhs : (R.rhs r).length = ys.length) (hlen : st₁.length = ys.length)
    (harr : Arrives R T la (top T st) r 0 w.head? ys (top T (st₁ ++ st))) {q : σ}
    (henter : Enters T (top T st) (.nonterminal (R.lhs r)) q) : ∃ y, Steps T (st₁ ++ st, w) ((q, y) :: st, w) := by
  rcases harr with hlast | ⟨hone, hskip⟩
  · rw [Nat.zero_add, ← hrhs] at hlast
    have hn : T.nrhs r = st₁.length := by
      rw [h.nrhs, hlen, hrhs]
    have hbelow : (st₁ ++ st).drop (T.nrhs r) = st := by
      rw [hn, List.drop_left]
    have hred := step_reduce (q := q) (h.reduce _ r _ hlast) (by rw [hn, List.length_append]; omega) (by
      rw [hbelow, h.lhs]
      exact henter)
    rw [hbelow] at hred
    exact ⟨_, Steps.cons hred .refl⟩
  · obtain ⟨⟨q₁, y⟩, rfl⟩ := List.length_eq_one_iff.mp (hlen.trans hone)
    obtain rfl : q₁ = q := hskip.enter.unique henter
    exact ⟨y, .refl⟩

/-- The first symbol has been read and the transition over it has been made: what is left is the rest of the rule, if
    the rule has not been left out. -/
theorem arrives_cons {r : ρ} {d : Nat} {ys : List (Symbol τ g.NT)} {y z : Symbol τ g.NT} {v w tail : List τ}
    {st : Stack τ g.NT σ} {q : σ} (hw : Yields g ys w) (hrest : List.Forall₂ R.fits ((R.rhs r).drop (d + 1)) ys)
    (hadv : la q r (d + 1) tail.head? ∨ Skips R T (top T st) r d q)
    (hread : Steps T (st, v ++ (w ++ tail)) ((q, z) :: st, w ++ tail))
    (hlater : la q r (d + 1) tail.head? → ∃ st', Steps T ((q, z) :: st, w ++ tail) (st' ++ (q, z) :: st, tail) ∧
      st'.length = ys.length ∧ Arrives R T la q r (d + 1) tail.head? ys (top T (st' ++ (q, z) :: st))) :
    ∃ st', Steps T (st, (v ++ w) ++ tail) (st' ++ st, tail) ∧ st'.length = (y :: ys).length ∧
      Arrives R T la (top T st) r d tail.head? (y :: ys) (top T (st' ++ st)) := by
  rw [List.append_assoc]
  rcases hadv with hla | hskip
  · obtain ⟨st', hsteps, hlen, harr⟩ := hlater hla
    refine ⟨st' ++ [(q, z)], ?_, ?_, ?_⟩
    · rw [List.append_assoc]
      exact hread.trans hsteps
    · rw [List.length_append, hlen, List.length_singleton, List.length_cons]
    · rw [List.append_assoc]
      rcases harr with hlast | ⟨-, hskip⟩
      · refine .inl ?_
        rw [List.length_cons, Nat.add_comm ys.length 1, ← Nat.add_assoc]
        exact hlast
      · exact absurd hskip.start (Nat.succ_ne_zero d)
  · -- there was one place only
    have hlen : ys.length = 0 := by
      have h₁ := hrest.length_eq
      have h₂ := hskip.length
      have h₃ := hskip.start
      rw [List.length_drop] at h₁
      omega
    obtain rfl := List.eq_nil_of_length_eq_zero hlen
    cases hw
    exact ⟨[(q, z)], hread, rfl, .inr ⟨rfl, hskip⟩⟩

/-- **The machine follows the parse tree**: in a state that stands in the middle of a rule, it reads what the rest of
    the rule yields, and then stands at the end of the rule. -/
theorem follows (hR : R.Describes) (h : Complete R T la) {ys : List (Symbol τ g.NT)} {w : List τ} (hw : Yields g ys w)
    (st : Stack τ g.NT σ) (tail : List τ) (r : ρ) (d : Nat) (hrest : List.Forall₂ R.fits ((R.rhs r).drop d) ys)
    (hla : la (top T st) r d tail.head?) :
    ∃ st', Steps T (st, w ++ tail) (st' ++ st, tail) ∧ st'.length = ys.length ∧
      Arrives R T la (top T st) r d tail.head? ys (top T (st' ++ st)) := by
  induction hw generalizing st tail r d with
  | nil => exact ⟨[], .refl, rfl, .inl hla⟩
  | @terminal a s w hs ih =>
      generalize hxs : (R.rhs r).drop d = xs at hrest
      cases hrest with
      | @cons x _ xs _ hfit hrest =>
          obtain ⟨hx, hdrop⟩ := drop_eq_cons hxs
          obtain ⟨q, henter, hadv⟩ := h.advance _ r d _ x _ hla hx hfit
          have hrest' := hdrop ▸ hrest
          exact arrives_cons (v := [a]) hs hrest' hadv (.cons (step_shift henter) .refl)
            (ih ((q, .terminal a) :: st) tail r (d + 1) hrest')
  | @nonterminal r₀ hr₀ s u w _ hw ihu ih =>
      generalize hxs : (R.rhs r).drop d = xs at hrest
      cases hrest with
      | @cons x _ xs _ hfit hrest =>
          obtain ⟨hx, hdrop⟩ := drop_eq_cons hxs
          obtain ⟨q, henter, hadv⟩ := h.advance _ r d _ x _ hla hx hfit
          -- the rule of the nonterminal is read first, in front of what the rest yields
          obtain ⟨r', hr', hlhs, hrhs⟩ := (hR r₀.input r₀.output).mp hr₀
          have hinner := h.closure _ r d _ x r₀.input hla hx hfit r' hr' hlhs s w (hdrop ▸ hrest) hw
          have hhead : w.head?.or tail.head? = (w ++ tail).head? := by
            cases w <;> rfl
          rw [hhead] at hinner
          obtain ⟨st₁, hsteps₁, hlen₁, harr₁⟩ := ihu st (w ++ tail) r' 0 (by rwa [List.drop_zero]) hinner
          obtain ⟨z, hsteps₂⟩ := reduces h hrhs.length_eq hlen₁ harr₁ (hlhs.symm ▸ henter)
          have hrest' := hdrop ▸ hrest
          exact arrives_cons hw hrest' hadv (hsteps₁.trans hsteps₂) (ih ((q, z) :: st) tail r (d + 1) hrest')

/-- **Completeness.** The machine accepts every word of the language. -/
theorem complete (hR : R.Describes) (h : Complete R T la) {w : List τ} (hw : w ∈ g.language) : Accepts T w := by
  have hyields := mem_language_iff_yields.mp hw
  generalize hs : [Symbol.nonterminal g.initial] = s at hyields
  cases hyields with
  | nil => exact absurd hs (by simp)
  | terminal => exact absurd hs (by simp)
  | @nonterminal r₀ hr₀ s u v hu hv =>
      obtain ⟨hsym, rfl⟩ := List.cons.inj hs
      have hstart : g.initial = r₀.input := Symbol.nonterminal.inj hsym
      cases hv
      obtain ⟨r, hr, hlhs, hrhs⟩ := (hR r₀.input r₀.output).mp hr₀
      obtain ⟨st, hsteps, hlen, harr⟩ := follows hR h hu [] [] r 0
        (by rwa [List.drop_zero]) (h.start r hr (hlhs.trans hstart.symm))
      obtain ⟨q, hgoto, haccept⟩ := h.accept
      rw [hstart, ← hlhs] at hgoto
      obtain ⟨y, hsteps'⟩ := reduces h hrhs.length_eq hlen harr hgoto
      exact ⟨_, [], hsteps.trans hsteps', step_accept haccept⟩

end LR
end CSamples
