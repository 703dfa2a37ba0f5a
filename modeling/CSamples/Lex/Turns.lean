import CSamples.Lex.Reader
import Mathlib.Computability.StateTransition

/-!
# `Lex.Turns` — a generated scanner, one symbol after the other

`Reader.run` is a whole match. Here its loop is a machine with a state between any two symbols, which goes on with the
next match: what holds in every state a scanner reaches is said about the points that this machine reaches.

## Contents
- **The machine.** `Point`; `turn`, once around the loop; `step`, which starts the next match where one is over.
- **Runs.** `run_succ`, `run_reaches`: a run of `Reader.run` is a path of the machine. `step_cases` says what one step
  does, and `step_keeps` what it keeps.
- **Dense rules.** Where every beginning of a match is a match, the longest match is all that was read, or all but the
  last symbol: `munch_of_stops`. `Follows` is what a point knows of it.
-/

namespace CSamples
namespace Lex

open StateTransition

variable {σ α τ : Type}

/-! ## The machine -/

/-- Between two symbols of a match: where the automaton is, the symbols that were read, the last rule that accepted in
    front of the last of them, and the source. -/
structure Point (σ α τ : Type) where
  rules : Rules α τ
  read  : List α
  best  : Option τ
  src   : σ

/-- In front of a match. -/
def Point.start (rs : Rules α τ) (s : σ) : Point σ α τ := ⟨rs, [], none, s⟩

namespace Reader

variable (R : Reader σ α)

/-- The source at the check for more: with the marker set, where a rule accepts. -/
def marked (p : Point σ α τ) : σ := if (accepting p.rules).isSome then R.mark p.src else p.src

/-- Once around the loop of `run`: to the next point, or out of the loop with its result. -/
def turn (p : Point σ α τ) : Option (Point σ α τ ⊕ (Option τ × σ)) :=
  let best := (accepting p.rules).or p.best
  if p.rules.canStep then
    (R.more p.read (R.marked p)).bind (fun x =>
      if x.1 then (R.next x.2).map (fun y => .inl ⟨p.rules.deriv y.1, p.read ++ [y.1], best, y.2⟩)
      else some (.inr (if R.fallback then R.finish best x.2 else (none, x.2))))
  else some (.inr (R.finish best (R.marked p)))

/-- One match after the other: `again` is what is done in front of the next one, if there is one. -/
def step (rs : Rules α τ) (again : Option τ × σ → Option σ) (p : Point σ α τ) : Option (Point σ α τ) :=
  (R.turn p).bind (fun x =>
    match x with
    | .inl q => some q
    | .inr y => (again y).map (Point.start rs))

variable {R}

/-! ## Runs -/

/-- `run` goes around the loop. -/
theorem run_succ (n : Nat) (p : Point σ α τ) :
    R.run (n + 1) p.rules p.read p.best p.src = (R.turn p).bind (fun x =>
      match x with
      | .inl q => R.run n q.rules q.read q.best q.src
      | .inr y => some y) := by
  conv_lhs => unfold run
  unfold turn marked
  simp only
  by_cases hgo : p.rules.canStep = true
  · rw [if_pos hgo, if_pos hgo, Option.bind_assoc]
    congr 1
    funext x
    by_cases hmore : x.1 = true
    · rw [if_pos hmore, if_pos hmore, Option.bind_map]
      rfl
    · rw [if_neg hmore, if_neg hmore]
      rfl
  · rw [if_neg hgo, if_neg hgo]
    rfl

/-- A turn that stays in the match. -/
theorem step_of_inl {rs : Rules α τ} {again : Option τ × σ → Option σ} {p q : Point σ α τ}
    (h : R.turn p = some (.inl q)) : R.step rs again p = some q := by
  unfold step
  rw [h]
  rfl

/-- A turn that leaves it. -/
theorem step_of_inr {rs : Rules α τ} {again : Option τ × σ → Option σ} {p : Point σ α τ} {y : Option τ × σ} {s : σ}
    (h : R.turn p = some (.inr y)) (hagain : again y = some s) : R.step rs again p = some (.start rs s) := by
  unfold step
  rw [h, Option.bind_some]
  simp only
  rw [hagain]
  rfl

/-- **A run is a path** to the point where the loop is left. -/
theorem run_reaches {rs : Rules α τ} {again : Option τ × σ → Option σ} {n : Nat} {p : Point σ α τ} {y : Option τ × σ}
    (h : R.run n p.rules p.read p.best p.src = some y) :
    ∃ q, Reaches (R.step rs again) p q ∧ R.turn q = some (.inr y) := by
  induction n generalizing p with
  | zero => exact absurd h nofun
  | succ n ih =>
      rw [run_succ] at h
      obtain ⟨x, hx, h⟩ := Option.bind_eq_some_iff.mp h
      cases x with
      | inl q =>
          obtain ⟨q', hq', hend⟩ := ih h
          exact ⟨q', Relation.ReflTransGen.head (step_of_inl hx) hq', hend⟩
      | inr z =>
          obtain rfl := Option.some.inj h
          exact ⟨p, Relation.ReflTransGen.refl, hx⟩

/-- One step, by how the turn ends. -/
theorem step_cases {rs : Rules α τ} {again : Option τ × σ → Option σ} {p q : Point σ α τ}
    (h : R.step rs again p = some q) :
    R.turn p = some (.inl q) ∨ ∃ y s, R.turn p = some (.inr y) ∧ again y = some s ∧ q = .start rs s := by
  obtain ⟨x, hx, h⟩ := Option.bind_eq_some_iff.mp h
  cases x with
  | inl q' =>
      obtain rfl := Option.some.inj h
      exact .inl hx
  | inr y =>
      obtain ⟨s, hs, rfl⟩ := Option.map_eq_some_iff.mp h
      exact .inr ⟨y, s, hx, hs, rfl⟩

/-- A turn that reads a symbol. -/
theorem turn_of_next {p : Point σ α τ} {s t : σ} {a : α} (hgo : p.rules.canStep = true)
    (hmore : R.more p.read (R.marked p) = some (true, s)) (hnext : R.next s = some (a, t)) :
    R.turn p = some (.inl ⟨p.rules.deriv a, p.read ++ [a], (accepting p.rules).or p.best, t⟩) := by
  unfold turn
  simp only
  rw [if_pos hgo, hmore, Option.bind_some, if_pos rfl, hnext]
  rfl

/-- What the operations and `again` keep is kept by a step. -/
theorem step_keeps {P : σ → Prop} {rs : Rules α τ} {again : Option τ × σ → Option σ}
    (hmore : ∀ {u s b s'}, R.more u s = some (b, s') → P s → P s')
    (hnext : ∀ {s a s'}, R.next s = some (a, s') → P s → P s') (hmark : ∀ {s}, P s → P (R.mark s))
    (hrestore : ∀ {s}, P s → P (R.restore s)) (hagain : ∀ {y s}, again y = some s → P y.2 → P s) {p q : Point σ α τ}
    (hstep : R.step rs again p = some q) (h : P p.src) : P q.src := by
  have hmarked : P (R.marked p) := by
    unfold marked
    split
    · exact hmark h
    · exact h
  have hfinish : ∀ {best : Option τ} {s : σ}, P s → P (R.finish best s).2 := by
    intro best s hs
    show P (if best.isSome then R.restore s else s)
    split
    · exact hrestore hs
    · exact hs
  obtain ⟨x, hx, hstep⟩ := Option.bind_eq_some_iff.mp hstep
  unfold turn at hx
  simp only at hx
  have hleft : ∀ y, x = .inr y → P y.2 → P q.src := by
    rintro y rfl hy
    obtain ⟨s, hs, rfl⟩ := Option.map_eq_some_iff.mp hstep
    exact hagain hs hy
  split at hx
  · obtain ⟨⟨more, s⟩, hs, hx⟩ := Option.bind_eq_some_iff.mp hx
    have hs' := hmore hs hmarked
    split at hx
    · obtain ⟨⟨a, s'⟩, hnext', rfl⟩ := Option.map_eq_some_iff.mp hx
      obtain rfl := Option.some.inj hstep
      exact hnext hnext' hs'
    · refine hleft _ (Option.some.inj hx).symm ?_
      split
      · exact hfinish hs'
      · exact hs'
  · exact hleft _ (Option.some.inj hx).symm (hfinish hmarked)

/-- What holds from a point on holds in it and from the next one on. -/
theorem forall_reaches_iff {f : σ → Option σ} {P : σ → Prop} {p : σ} :
    (∀ q, Reaches f p q → P q) ↔ P p ∧ ∀ p', f p = some p' → ∀ q, Reaches f p' q → P q := by
  constructor
  · intro h
    exact ⟨h p Relation.ReflTransGen.refl, fun p' hp' q hq => h q (Relation.ReflTransGen.head hp' hq)⟩
  · rintro ⟨hp, hnext⟩ q hq
    rcases Relation.ReflTransGen.cases_head hq with rfl | ⟨p', hp', hq⟩
    · exact hp
    · exact hnext p' hp' q hq

end Reader

/-! ## Dense rules -/

/-- Nothing is matched by no symbols, and every other beginning of a match is a match. -/
structure Rules.Dense (rs : Rules α τ) : Prop where
  nil : accepting rs = none
  one : ∀ a, ruleOf rs [a] ≠ none
  go  : ∀ u, u ≠ [] → (rs.after u).canStep = true → ruleOf rs u ≠ none

/-- **The automaton stops** behind the longest match, or one symbol behind it. -/
theorem munch_of_stops {rs : Rules α τ} (h : rs.Dense) {u : List α} {a : α} (hgo : (rs.after u).canStep = true)
    (hstop : (rs.after (u ++ [a])).canStep = false) :
    ∃ t n, (ruleOf rs (u ++ [a])).or (ruleOf rs u) = some t ∧
      n + 1 = (if (ruleOf rs (u ++ [a])).isSome then u.length + 1 else u.length) ∧
      ∀ v, munch rs (u ++ [a] ++ v) = some (t, n + 1) := by
  cases hall : ruleOf rs (u ++ [a]) with
  | some t =>
      refine ⟨t, u.length, rfl, rfl, ?_⟩
      intro v
      have hmunch := munch_of_stuck hall hstop v
      rwa [List.length_append, List.length_singleton] at hmunch
  | none =>
      have hu : u ≠ [] := by
        rintro rfl
        exact h.one a hall
      obtain ⟨t, ht⟩ := Option.ne_none_iff_exists'.mp (h.go u hu hgo)
      have hpos := List.length_pos_iff.mpr hu
      refine ⟨t, u.length - 1, ht, ?_, ?_⟩
      · show u.length - 1 + 1 = u.length
        omega
      · intro v
        rw [munch_append_of_not_canStep hstop, munch_eq_some_iff, Nat.sub_add_cancel hpos]
        refine ⟨by simp, by rw [List.take_left]; exact ht, ?_⟩
        intro m hm hle
        rw [List.length_append, List.length_singleton] at hle
        rw [List.take_of_length_le (by rw [List.length_append, List.length_singleton]; omega)]
        exact hall

/-- What a point knows of its match: behind `u` and a last symbol, that the automaton went on behind `u`, and the rule
    that matches `u`. -/
structure Follows (rs : Rules α τ) (p : Point σ α τ) : Prop where
  rules : p.rules = rs.after p.read
  start : p.read = [] → p.best = none
  last  : ∀ u a, p.read = u ++ [a] → (rs.after u).canStep = true ∧ p.best = ruleOf rs u

theorem follows_start (rs : Rules α τ) (s : σ) : Follows rs (.start rs s) where
  rules := rfl
  start := fun _ => rfl
  last  := fun u a h => absurd h.symm (List.concat_ne_nil a u)

variable {R : Reader σ α} {rs : Rules α τ} {p q : Point σ α τ}

/-- The rule that accepts here. -/
theorem Follows.accepting (h : Follows rs p) : accepting p.rules = ruleOf rs p.read := by
  rw [h.rules]
  rfl

/-- A turn that stays in the match reads a symbol. -/
theorem Follows.inl (hd : rs.Dense) (h : Follows rs p) (hturn : R.turn p = some (.inl q)) :
    p.rules.canStep = true ∧ ∃ s a, R.more p.read (R.marked p) = some (true, s) ∧ R.next s = some (a, q.src) ∧
      q.read = p.read ++ [a] ∧ Follows rs q := by
  unfold Reader.turn at hturn
  simp only at hturn
  by_cases hgo : p.rules.canStep = true
  · rw [if_pos hgo] at hturn
    obtain ⟨⟨more, s⟩, hmore, hturn⟩ := Option.bind_eq_some_iff.mp hturn
    cases more with
    | false => exact absurd (Option.some.inj hturn) nofun
    | true =>
        obtain ⟨⟨a, s'⟩, hnext, hq⟩ := Option.map_eq_some_iff.mp hturn
        obtain rfl := Sum.inl.inj hq
        refine ⟨hgo, s, a, hmore, hnext, rfl, ?_, ?_, ?_⟩
        · show p.rules.deriv a = rs.after (p.read ++ [a])
          rw [h.rules, Rules.after, Rules.after, List.foldl_append]
          rfl
        · intro hnil
          exact absurd hnil (List.concat_ne_nil a p.read)
        · intro u b hu
          obtain ⟨rfl, -⟩ := List.append_inj' hu rfl
          refine ⟨h.rules ▸ hgo, ?_⟩
          show (Lex.accepting p.rules).or p.best = ruleOf rs p.read
          rw [h.accepting]
          by_cases hread : p.read = []
          · rw [h.start hread, Option.or_none]
          · obtain ⟨t, ht⟩ := Option.ne_none_iff_exists'.mp (hd.go _ hread (h.rules ▸ hgo))
            rw [ht]
            rfl
  · rw [if_neg hgo] at hturn
    exact absurd (Option.some.inj hturn) nofun

/-- A turn that leaves the match has found the longest one. -/
theorem Follows.inr (hd : rs.Dense) (h : Follows rs p) (hstop : p.rules.canStep = false) (hread : p.read ≠ []) :
    ∃ t n, R.turn p = some (.inr (some t, R.restore (R.marked p))) ∧
      n + 1 = (if (ruleOf rs p.read).isSome then p.read.length else p.read.length - 1) ∧
      ∀ v, munch rs (p.read ++ v) = some (t, n + 1) := by
  obtain ⟨u, a, hu⟩ := List.eq_nil_or_concat p.read |>.resolve_left hread
  rw [List.concat_eq_append] at hu
  obtain ⟨hgo, hbest⟩ := h.last u a hu
  have hstop' : (rs.after (u ++ [a])).canStep = false := by
    rw [← hu, ← h.rules]
    exact hstop
  obtain ⟨t, n, ht, hn, hmunch⟩ := munch_of_stops hd hgo hstop'
  refine ⟨t, n, ?_, ?_, ?_⟩
  · unfold Reader.turn
    simp only
    rw [if_neg (by rw [hstop]; exact Bool.false_ne_true), h.accepting, hbest, hu, ht]
    rfl
  · rw [hu, List.length_append, List.length_singleton]
    exact hn
  · rw [hu]
    exact hmunch

end Lex
end CSamples
