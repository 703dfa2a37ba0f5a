import CSamples.Lex.Regex

/-!
# `Lex.Munch` — longest match, first rule on ties

The meaning of one block of scanner rules: `munch rules w` is the tag of the rule that matches the longest
prefix of `w`, the earliest such rule when several do, with the length of that prefix. It is computed the
way the generated automaton does it — one derivative of every rule per symbol, the last accepting point
remembered, no further symbol looked at once no rule can step — and `munch_eq_some_iff` gives it its
declarative meaning. `lexemes` repeats it over a whole input.
-/

namespace CSamples
namespace Lex

open Regex

/-- A block of rules, in the order of the source; `τ` names the actions. -/
abbrev Rules (α τ : Type) := List (Regex α × τ)

variable {α τ : Type}

/-- The first rule that accepts here. -/
def accepting : Rules α τ → Option τ
  | []           => none
  | (r, t) :: rs => if r.nullable then some t else accepting rs

/-- One symbol read: every rule moves to its derivative. -/
def Rules.deriv (a : α) (rs : Rules α τ) : Rules α τ := rs.map (fun x => (x.1.deriv a, x.2))

/-- Some rule can still consume a symbol. -/
def Rules.canStep (rs : Rules α τ) : Bool := rs.any (fun x => x.1.canStep)

/-- The first rule that matches exactly `u`. -/
def ruleOf (rs : Rules α τ) (u : List α) : Option τ := accepting (u.foldl (fun rs a => rs.deriv a) rs)

/-- The automaton's loop: `best` is the last accepting point passed, `n` the symbols read. -/
def munchFrom : List α → Rules α τ → Option (τ × Nat) → Nat → Option (τ × Nat)
  | [], rs, best, n => ((accepting rs).map (fun t => (t, n))).or best
  | a :: w, rs, best, n =>
      let best' := ((accepting rs).map (fun t => (t, n))).or best
      if rs.canStep then munchFrom w (rs.deriv a) best' (n + 1) else best'

/-- The longest match of a block of rules at the front of `w`. -/
def munch (rs : Rules α τ) (w : List α) : Option (τ × Nat) := munchFrom w rs none 0

/-! ## `ruleOf` -/

@[simp] theorem ruleOf_nil (rs : Rules α τ) : ruleOf rs [] = accepting rs := rfl

theorem ruleOf_cons (rs : Rules α τ) (a : α) (u : List α) :
    ruleOf rs (a :: u) = ruleOf (rs.deriv a) u := rfl

theorem accepting_eq_none {rs : Rules α τ} : accepting rs = none ↔ ∀ x ∈ rs, [] ∉ x.1.lang := by
  induction rs with
  | nil => simp [accepting]
  | cons x rs ih =>
      obtain ⟨r, t⟩ := x
      unfold accepting
      by_cases h : r.nullable = true
      · simp [h, nullable_iff.mp h]
      · have hr : [] ∉ r.lang := fun hm => h (nullable_iff.mpr hm)
        simp [h, ih, hr]

/-- No rule matches `u`. -/
theorem ruleOf_eq_none {rs : Rules α τ} {u : List α} : ruleOf rs u = none ↔ ∀ x ∈ rs, u ∉ x.1.lang := by
  induction u generalizing rs with
  | nil => exact accepting_eq_none
  | cons a u ih =>
      rw [ruleOf_cons, ih]
      unfold Rules.deriv
      rw [List.forall_mem_map]
      exact forall₂_congr (fun x _ => not_congr mem_lang_deriv)

/-- The rule that is chosen matches. -/
theorem mem_of_ruleOf {rs : Rules α τ} {u : List α} {t : τ} (h : ruleOf rs u = some t) :
    ∃ r, (r, t) ∈ rs ∧ u ∈ r.lang := by
  induction u generalizing rs with
  | nil =>
      rw [ruleOf_nil] at h
      induction rs with
      | nil => exact absurd h (by simp [accepting])
      | cons x rs ih =>
          obtain ⟨r, t'⟩ := x
          unfold accepting at h
          by_cases hr : r.nullable = true
          · rw [if_pos hr] at h
            obtain rfl := Option.some.inj h
            exact ⟨r, List.mem_cons_self .., nullable_iff.mp hr⟩
          · rw [if_neg hr] at h
            obtain ⟨r', hmem, hr'⟩ := ih h
            exact ⟨r', List.mem_cons_of_mem _ hmem, hr'⟩
  | cons a u ih =>
      obtain ⟨r, hmem, hu⟩ := ih h
      obtain ⟨x, hx, heq⟩ := List.mem_map.mp hmem
      obtain ⟨rfl, rfl⟩ := Prod.mk.inj heq
      exact ⟨x.1, hx, mem_lang_deriv.mp hu⟩

/-- The head rule matches `u`. -/
theorem ruleOf_of_mem {r : Regex α} {t : τ} {rs : Rules α τ} {u : List α} (h : u ∈ r.lang) :
    ruleOf ((r, t) :: rs) u = some t := by
  induction u generalizing r rs with
  | nil => simp [ruleOf, accepting, nullable_iff.mpr h]
  | cons a u ih => exact ih (mem_lang_deriv.mpr h)

/-- The head rule does not match `u`: the next ones decide. -/
theorem ruleOf_of_not_mem {r : Regex α} {t : τ} {rs : Rules α τ} {u : List α} (h : u ∉ r.lang) :
    ruleOf ((r, t) :: rs) u = ruleOf rs u := by
  induction u generalizing r rs with
  | nil =>
      have hn : r.nullable = false := by
        simpa using fun hm => h (nullable_iff.mp hm)
      simp [ruleOf, accepting, hn]
  | cons a u ih => exact ih (fun hm => h (mem_lang_deriv.mp hm))

/-- Rules in front that do not match. -/
theorem ruleOf_append_of_not_mem {rs : Rules α τ} {u : List α} (h : ∀ x ∈ rs, u ∉ x.1.lang) (ss : Rules α τ) :
    ruleOf (rs ++ ss) u = ruleOf ss u := by
  induction rs with
  | nil => rfl
  | cons x rs ih =>
      rw [List.cons_append, ruleOf_of_not_mem (h x (List.mem_cons_self ..))]
      exact ih (fun y hy => h y (List.mem_cons_of_mem x hy))

/-- Rules in front with one action, of which one matches. -/
theorem ruleOf_append_of_mem {rs : Rules α τ} {u : List α} {t : τ} (ht : ∀ x ∈ rs, x.2 = t)
    (h : ∃ x ∈ rs, u ∈ x.1.lang) (ss : Rules α τ) : ruleOf (rs ++ ss) u = some t := by
  induction rs with
  | nil =>
      obtain ⟨x, hx, -⟩ := h
      exact absurd hx List.not_mem_nil
  | cons x rs ih =>
      obtain ⟨r, a⟩ := x
      by_cases hu : u ∈ r.lang
      · rw [List.cons_append, ruleOf_of_mem hu]
        exact congrArg some (ht (r, a) (List.mem_cons_self ..))
      · rw [List.cons_append, ruleOf_of_not_mem hu]
        obtain ⟨y, hy, hmem⟩ := h
        rcases List.mem_cons.mp hy with rfl | hy
        · exact absurd hmem hu
        · exact ih (fun y hy => ht y (List.mem_cons_of_mem _ hy)) ⟨y, hy, hmem⟩

/-- Nothing longer matches once no rule can step. -/
theorem ruleOf_cons_of_not_canStep {rs : Rules α τ} (h : rs.canStep = false) (a : α) (u : List α) :
    ruleOf rs (a :: u) = none := by
  rw [ruleOf_eq_none]
  intro x hx
  have hall := List.any_eq_false.mp h x hx
  exact not_cons_mem_of_not_canStep (by simpa using hall) a u

/-- The rules behind the symbols `u`. -/
def Rules.after (rs : Rules α τ) (u : List α) : Rules α τ := u.foldl (fun rs a => rs.deriv a) rs

theorem mem_after {rs : Rules α τ} {u : List α} {x : Regex α × τ} (h : x ∈ rs.after u) :
    ∃ y ∈ rs, ∀ w, w ∈ x.1.lang ↔ u ++ w ∈ y.1.lang := by
  induction u generalizing rs with
  | nil => exact ⟨x, h, fun w => Iff.rfl⟩
  | cons a u ih =>
      obtain ⟨y, hy, hlang⟩ := ih h
      obtain ⟨z, hz, rfl⟩ := List.mem_map.mp hy
      exact ⟨z, hz, fun w => (hlang w).trans mem_lang_deriv⟩

theorem exists_mem_after {rs : Rules α τ} {y : Regex α × τ} (h : y ∈ rs) (u : List α) :
    ∃ x ∈ rs.after u, ∀ w, w ∈ x.1.lang ↔ u ++ w ∈ y.1.lang := by
  induction u generalizing rs y with
  | nil => exact ⟨y, h, fun w => Iff.rfl⟩
  | cons a u ih =>
      obtain ⟨x, hx, hlang⟩ := ih (List.mem_map_of_mem h : _ ∈ rs.deriv a)
      exact ⟨x, hx, fun w => (hlang w).trans mem_lang_deriv⟩

theorem live_after {rs : Rules α τ} (h : ∀ x ∈ rs, x.1.Live) (u : List α) : ∀ x ∈ rs.after u, x.1.Live := by
  induction u generalizing rs with
  | nil => exact h
  | cons a u ih =>
      refine ih ?_
      intro x hx
      obtain ⟨y, hy, rfl⟩ := List.mem_map.mp hx
      exact live_deriv (h y hy) a

/-- **The generated code looks at another symbol** behind `u` exactly if a rule matches more than `u`. -/
theorem canStep_after_iff {rs : Rules α τ} (h : ∀ x ∈ rs, x.1.Live) {u : List α} :
    (rs.after u).canStep = true ↔ ∃ x ∈ rs, ∃ a w, u ++ a :: w ∈ x.1.lang := by
  constructor
  · intro hc
    obtain ⟨x, hx, hstep⟩ := List.any_eq_true.mp hc
    obtain ⟨a, w, hw⟩ := exists_cons_mem_of_canStep (live_after h u x hx) hstep
    obtain ⟨y, hy, hlang⟩ := mem_after hx
    exact ⟨y, hy, a, w, (hlang _).mp hw⟩
  · rintro ⟨y, hy, a, w, hw⟩
    obtain ⟨x, hx, hlang⟩ := exists_mem_after hy u
    refine List.any_eq_true.mpr ⟨x, hx, ?_⟩
    by_contra hc
    exact not_cons_mem_of_not_canStep (by simpa using hc) a w ((hlang _).mpr hw)

/-! ## The declarative meaning -/

/-- `n` symbols of `w` are matched by rule `t` first, and no longer prefix is matched at all. -/
structure Longest (rs : Rules α τ) (w : List α) (t : τ) (n : Nat) : Prop where
  le      : n ≤ w.length
  rule    : ruleOf rs (w.take n) = some t
  longest : ∀ m, n < m → m ≤ w.length → ruleOf rs (w.take m) = none

/-- The longest match is unique. -/
theorem Longest.unique {rs : Rules α τ} {w : List α} {t t' : τ} {n n' : Nat}
    (h : Longest rs w t n) (h' : Longest rs w t' n') : t = t' ∧ n = n' := by
  have hn : n = n' := by
    rcases Nat.lt_trichotomy n n' with hlt | heq | hlt
    · exact absurd (h.longest n' hlt h'.le) (by simp [h'.rule])
    · exact heq
    · exact absurd (h'.longest n hlt h.le) (by simp [h.rule])
  subst hn
  exact ⟨Option.some.inj (h.rule.symm.trans h'.rule), rfl⟩

/-- The loop either finds a match in what is left, or returns the best it came with. -/
private theorem munchFrom_spec (w : List α) (rs : Rules α τ) (best : Option (τ × Nat)) (n : Nat) :
    (∃ t k, munchFrom w rs best n = some (t, n + k) ∧ Longest rs w t k) ∨
    (munchFrom w rs best n = best ∧ ∀ m, m ≤ w.length → ruleOf rs (w.take m) = none) := by
  induction w generalizing rs best n with
  | nil =>
      unfold munchFrom
      cases h : accepting rs with
      | none =>
          refine Or.inr ⟨rfl, ?_⟩
          intro m _
          simpa using h
      | some t =>
          refine Or.inl ⟨t, 0, rfl, ⟨Nat.le_refl _, by simpa using h, ?_⟩⟩
          intro m h1 h2
          simp at h2
          omega
  | cons a w ih =>
      -- nothing beyond the empty prefix matches when the automaton stops here
      have hstop : rs.canStep = false → ∀ m, 0 < m → ruleOf rs ((a :: w).take m) = none := by
        intro hc m hm
        obtain ⟨m, rfl⟩ : ∃ m', m = m' + 1 := ⟨m - 1, by omega⟩
        rw [List.take_succ_cons]
        exact ruleOf_cons_of_not_canStep hc a _
      unfold munchFrom
      cases hc : rs.canStep with
      | false =>
          simp only [Bool.false_eq_true, if_false]
          cases h : accepting rs with
          | none =>
              refine Or.inr ⟨rfl, ?_⟩
              intro m _
              rcases Nat.eq_zero_or_pos m with rfl | hm
              · simpa using h
              · exact hstop hc m hm
          | some t =>
              exact Or.inl ⟨t, 0, rfl, ⟨Nat.zero_le _, by simpa using h, fun m h1 _ => hstop hc m h1⟩⟩
      | true =>
          simp only [if_true]
          rcases ih (rs.deriv a) (((accepting rs).map (fun t => (t, n))).or best) (n + 1) with
            ⟨t, k, heq, hl⟩ | ⟨heq, hnone⟩
          · refine Or.inl ⟨t, k + 1, by rw [heq]; simp [Nat.add_assoc, Nat.add_comm 1 k], ?_⟩
            refine ⟨by simpa using hl.le, by simpa [ruleOf_cons] using hl.rule, ?_⟩
            intro m h1 h2
            obtain ⟨m, rfl⟩ : ∃ m', m = m' + 1 := ⟨m - 1, by omega⟩
            rw [List.take_succ_cons, ruleOf_cons]
            exact hl.longest m (by omega) (by simpa using h2)
          · have htail : ∀ m, 0 < m → m ≤ (a :: w).length → ruleOf rs ((a :: w).take m) = none := by
              intro m hm hle
              obtain ⟨m, rfl⟩ : ∃ m', m = m' + 1 := ⟨m - 1, by omega⟩
              rw [List.take_succ_cons, ruleOf_cons]
              exact hnone m (by simpa using hle)
            rw [heq]
            cases h : accepting rs with
            | none =>
                refine Or.inr ⟨rfl, ?_⟩
                intro m hle
                rcases Nat.eq_zero_or_pos m with rfl | hm
                · simpa using h
                · exact htail m hm hle
            | some t =>
                exact Or.inl ⟨t, 0, rfl, ⟨Nat.zero_le _, by simpa using h, htail⟩⟩

/-- **`munch` is the longest match, the first rule on ties.** -/
theorem munch_eq_some_iff {rs : Rules α τ} {w : List α} {t : τ} {n : Nat} :
    munch rs w = some (t, n) ↔ Longest rs w t n := by
  rcases munchFrom_spec w rs none 0 with ⟨t', k, heq, hl⟩ | ⟨heq, hnone⟩
  · rw [munch, heq, Nat.zero_add]
    constructor
    · intro h
      obtain ⟨rfl, rfl⟩ := Prod.mk.inj (Option.some.inj h)
      exact hl
    · intro h
      obtain ⟨rfl, rfl⟩ := hl.unique h
      rfl
  · rw [munch, heq]
    refine ⟨fun h => absurd h (by simp), fun h => ?_⟩
    exact absurd (hnone n h.le) (by simp [h.rule])

/-- No prefix of `w` is matched by any rule. -/
theorem munch_eq_none_iff {rs : Rules α τ} {w : List α} :
    munch rs w = none ↔ ∀ m, m ≤ w.length → ruleOf rs (w.take m) = none := by
  rcases munchFrom_spec w rs none 0 with ⟨t', k, heq, hl⟩ | ⟨heq, hnone⟩
  · rw [munch, heq]
    refine ⟨fun h => absurd h (by simp), fun h => ?_⟩
    exact absurd (h k hl.le) (by simp [hl.rule])
  · rw [munch, heq]
    exact ⟨fun _ => hnone, fun _ => rfl⟩

theorem munch_length_le {rs : Rules α τ} {w : List α} {t : τ} {n : Nat} (h : munch rs w = some (t, n)) :
    n ≤ w.length :=
  (munch_eq_some_iff.mp h).le

/-- What a match gives stands behind one of the rules. -/
theorem mem_of_munch {rs : Rules α τ} {w : List α} {t : τ} {n : Nat} (h : munch rs w = some (t, n)) :
    t ∈ rs.map Prod.snd := by
  obtain ⟨r, hr, -⟩ := mem_of_ruleOf (munch_eq_some_iff.mp h).rule
  exact List.mem_map_of_mem hr

/-- The text of a match is a word of one of the rules. -/
theorem mem_lang_of_munch {rs : Rules α τ} {w : List α} {t : τ} {n : Nat} (h : munch rs w = some (t, n)) :
    ∃ r, (r, t) ∈ rs ∧ w.take n ∈ r.lang :=
  mem_of_ruleOf (munch_eq_some_iff.mp h).rule

/-- A match is at least as long as any word of the rules in front. -/
theorem length_le_of_munch {rs : Rules α τ} {u v : List α} {t : τ} {n : Nat} (h : munch rs (u ++ v) = some (t, n))
    {x : Regex α × τ} (hx : x ∈ rs) (hu : u ∈ x.1.lang) : u.length ≤ n := by
  by_contra hlt
  have hnone := (munch_eq_some_iff.mp h).longest u.length (Nat.lt_of_not_le hlt) (by simp)
  rw [List.take_left] at hnone
  exact ruleOf_eq_none.mp hnone x hx hu

/-- The match of a prefix `u` that ends where no rule can go on, in the form a scanner proof uses it:
    rule `t` is the first to match `u`, and no rule matches `u` followed by more of the input. -/
theorem munch_append {rs : Rules α τ} {u v : List α} {t : τ} (hu : ruleOf rs u = some t)
    (hv : ∀ x ∈ rs, ∀ p, p ≠ [] → p <+: v → u ++ p ∉ x.1.lang) :
    munch rs (u ++ v) = some (t, u.length) := by
  rw [munch_eq_some_iff]
  refine ⟨by simp, by simpa using hu, ?_⟩
  intro m h1 h2
  rw [ruleOf_eq_none]
  intro x hx
  rw [List.take_append, List.take_of_length_le (by omega)]
  refine hv x hx _ ?_ (List.take_prefix _ _)
  rw [List.length_append] at h2
  intro hnil
  have hlen := congrArg List.length hnil
  rw [List.length_take, List.length_nil] at hlen
  omega

/-- The match of a prefix behind which no rule can step. -/
theorem munch_of_stuck {rs : Rules α τ} {u : List α} {t : τ} (hu : ruleOf rs u = some t)
    (hstuck : Rules.canStep (u.foldl (fun rs a => rs.deriv a) rs) = false) (v : List α) :
    munch rs (u ++ v) = some (t, u.length) := by
  apply munch_append hu
  intro x hx p hp _
  obtain ⟨a, p, rfl⟩ := List.exists_cons_of_ne_nil hp
  have hnone : ruleOf rs (u ++ a :: p) = none := by
    rw [ruleOf, List.foldl_append]
    exact ruleOf_cons_of_not_canStep hstuck a p
  exact ruleOf_eq_none.mp hnone x hx

/-- Where every symbol is matched and nothing is matched by no symbols, a match is never empty. -/
theorem munch_pos {rs : Rules α τ} (hnil : accepting rs = none) (hany : ∀ a, ruleOf rs [a] ≠ none) {w : List α}
    (hw : w ≠ []) : ∃ t n, munch rs w = some (t, n + 1) := by
  obtain ⟨a, w, rfl⟩ := List.exists_cons_of_ne_nil hw
  cases h : munch rs (a :: w) with
  | none => exact absurd (munch_eq_none_iff.mp h 1 (by simp)) (hany a)
  | some x =>
      obtain ⟨t, n⟩ := x
      cases n with
      | zero =>
          have hrule := (munch_eq_some_iff.mp h).rule
          rw [List.take_zero, ruleOf_nil, hnil] at hrule
          exact absurd hrule (by simp)
      | succ n => exact ⟨t, n, rfl⟩

theorem munch_nil {rs : Rules α τ} (hnil : accepting rs = none) : munch rs [] = none := by
  unfold munch munchFrom
  rw [hnil]
  rfl

/-! ## How far a match looks -/

/-- The symbols that are looked at: all up to the one behind which no rule can step. -/
def reach : Rules α τ → List α → Nat
  | _, []      => 0
  | rs, a :: w => if rs.canStep then reach (rs.deriv a) w + 1 else 0

private theorem munchFrom_take {rs : Rules α τ} {w : List α} {n : Nat} (h : reach rs w ≤ n)
    (best : Option (τ × Nat)) (k : Nat) : munchFrom (w.take n) rs best k = munchFrom w rs best k := by
  induction w generalizing rs n best k with
  | nil => rw [List.take_nil]
  | cons a w ih =>
      unfold reach at h
      cases hc : rs.canStep with
      | false =>
          -- the match has stopped in front of `a`, whether `a` is there or not
          cases n with
          | zero => simp [munchFrom, hc]
          | succ n => simp [munchFrom, hc]
      | true =>
          rw [hc, if_pos rfl] at h
          obtain ⟨n, rfl⟩ : ∃ m, n = m + 1 := ⟨n - 1, by omega⟩
          simp only [List.take_succ_cons, munchFrom, hc, if_true]
          exact ih (Nat.le_of_succ_le_succ h) _ _

/-- Nothing is looked at behind symbols behind which no rule can step. -/
theorem reach_le {rs : Rules α τ} {u v : List α} (h : (rs.after u).canStep = false) : reach rs (u ++ v) ≤ u.length := by
  induction u generalizing rs with
  | nil =>
      cases v with
      | nil => exact Nat.le_refl _
      | cons a v =>
          have hstuck : rs.canStep = false := h
          show (if rs.canStep = true then reach (rs.deriv a) v + 1 else 0) ≤ 0
          rw [hstuck, if_neg Bool.false_ne_true]
  | cons a u ih =>
      show (if rs.canStep = true then reach (rs.deriv a) (u ++ v) + 1 else 0) ≤ u.length + 1
      split
      · exact Nat.succ_le_succ (ih h)
      · exact Nat.zero_le _

/-- What is behind the symbols that are looked at makes no difference. -/
theorem munch_take {rs : Rules α τ} {w : List α} {n : Nat} (h : reach rs w ≤ n) :
    munch rs (w.take n) = munch rs w :=
  munchFrom_take h none 0

theorem munch_append_of_not_canStep {rs : Rules α τ} {u : List α} (h : (rs.after u).canStep = false) (v : List α) :
    munch rs (u ++ v) = munch rs u := by
  have htake := munch_take (reach_le h : reach rs (u ++ v) ≤ u.length)
  rwa [List.take_left, eq_comm] at htake

/-! ## One rule -/

/-- The longest prefix that `r` matches. -/
def longestPrefix (r : Regex α) (w : List α) : Option (List α) := (munch [(r, ())] w).map (fun x => w.take x.2)

theorem ruleOf_singleton {r : Regex α} {u : List α} : ruleOf [(r, ())] u = some () ↔ u ∈ r.lang := by
  constructor
  · intro h
    obtain ⟨s, hs, hu⟩ := mem_of_ruleOf h
    obtain rfl : s = r := (Prod.mk.inj (List.mem_singleton.mp hs)).1
    exact hu
  · exact ruleOf_of_mem

theorem longestPrefix_eq_some_iff {r : Regex α} {w p : List α} :
    longestPrefix r w = some p ↔ p <+: w ∧ p ∈ r.lang ∧ ∀ q, q <+: w → q ∈ r.lang → q.length ≤ p.length := by
  constructor
  · intro h
    obtain ⟨⟨t, n⟩, hm, rfl⟩ := Option.map_eq_some_iff.mp h
    obtain ⟨hle, hrule, -⟩ := munch_eq_some_iff.mp hm
    refine ⟨List.take_prefix _ _, ruleOf_singleton.mp hrule, ?_⟩
    rintro q ⟨v, rfl⟩ hq
    rw [List.length_take, Nat.min_eq_left hle]
    exact length_le_of_munch hm (List.mem_singleton.mpr rfl) hq
  · rintro ⟨⟨v, rfl⟩, hp, hlongest⟩
    have hm : munch [(r, ())] (p ++ v) = some ((), p.length) := by
      apply munch_append (ruleOf_singleton.mpr hp)
      intro x hx q hq hqv hmem
      obtain rfl := List.mem_singleton.mp hx
      have hlen := hlongest (p ++ q) ((List.prefix_append_right_inj p).mpr hqv) hmem
      have hpos := List.length_pos_of_ne_nil hq
      rw [List.length_append] at hlen
      omega
    rw [longestPrefix, hm, Option.map_some, List.take_left]

theorem longestPrefix_eq_none_iff {r : Regex α} {w : List α} :
    longestPrefix r w = none ↔ ∀ q, q <+: w → q ∉ r.lang := by
  rw [longestPrefix, Option.map_eq_none_iff, munch_eq_none_iff]
  constructor
  · rintro h q ⟨v, rfl⟩ hq
    have hnone := h q.length (by simp)
    rw [List.take_left] at hnone
    exact ruleOf_eq_none.mp hnone _ (List.mem_singleton.mpr rfl) hq
  · intro h m _
    rw [ruleOf_eq_none]
    intro x hx
    obtain rfl := List.mem_singleton.mp hx
    exact h _ (List.take_prefix _ _)

/-- Two rules that match the same prefixes. -/
theorem longestPrefix_congr {r s : Regex α} {w : List α} (h : ∀ p, p <+: w → (p ∈ r.lang ↔ p ∈ s.lang)) :
    longestPrefix r w = longestPrefix s w := by
  cases hs : longestPrefix s w with
  | none =>
      rw [longestPrefix_eq_none_iff] at hs ⊢
      intro q hq hmem
      exact hs q hq ((h q hq).mp hmem)
  | some p =>
      obtain ⟨hp, hmem, hlongest⟩ := longestPrefix_eq_some_iff.mp hs
      exact longestPrefix_eq_some_iff.mpr ⟨hp, (h p hp).mpr hmem, fun q hq hr => hlongest q hq ((h q hq).mp hr)⟩

/-! ## Scanning a whole input -/

/-- The matches of a block of rules one after the other, with their texts, as long as there is one. -/
def lexemes (rs : Rules α τ) (w : List α) : List (τ × List α) :=
  match _h : munch rs w with
  | some (t, n + 1) => (t, w.take (n + 1)) :: lexemes rs (w.drop (n + 1))
  | _               => []
  termination_by w.length
  decreasing_by
    have hle : n + 1 ≤ w.length := munch_length_le (by assumption)
    rw [List.length_drop]
    omega

theorem lexemes_nil (rs : Rules α τ) : lexemes rs [] = [] := by
  rw [lexemes]
  split
  · next h => exact absurd (munch_length_le h) (Nat.not_succ_le_zero _)
  · rfl

theorem lexemes_of_munch {rs : Rules α τ} {w : List α} {t : τ} {n : Nat} (h : munch rs w = some (t, n + 1)) :
    lexemes rs w = (t, w.take (n + 1)) :: lexemes rs (w.drop (n + 1)) := by
  rw [lexemes]
  split
  · next t' n' h' =>
      obtain ⟨rfl, hn⟩ := Prod.mk.inj (Option.some.inj (h.symm.trans h'))
      obtain rfl := Nat.succ.inj hn
      rfl
  · next hno => exact absurd h (hno t n)

/-- Every lexeme is a word of a rule. -/
theorem mem_lexemes {rs : Rules α τ} {w : List α} {x : τ × List α} (h : x ∈ lexemes rs w) :
    ∃ r, (r, x.1) ∈ rs ∧ x.2 ∈ r.lang := by
  induction hlen : w.length using Nat.strong_induction_on generalizing w with
  | _ len ih =>
      rw [lexemes] at h
      split at h
      · next t n hm =>
          have hle := munch_length_le hm
          rcases List.mem_cons.mp h with rfl | h
          · exact mem_lang_of_munch hm
          · exact ih _ (by rw [List.length_drop]; omega) h rfl
      · exact absurd h List.not_mem_nil

theorem length_le_of_mem_lexemes {rs : Rules α τ} {w : List α} {x : τ × List α} (h : x ∈ lexemes rs w) :
    x.2.length ≤ w.length := by
  induction hlen : w.length using Nat.strong_induction_on generalizing w with
  | _ len ih =>
      rw [lexemes] at h
      split at h
      · next t n hm =>
          have hle := munch_length_le hm
          rcases List.mem_cons.mp h with rfl | h
          · exact hlen ▸ List.length_take_le' ..
          · have hdrop : (w.drop (n + 1)).length < len := by
              rw [List.length_drop]
              omega
            exact Nat.le_of_lt (Nat.lt_of_le_of_lt (ih _ hdrop h rfl) hdrop)
      · exact absurd h List.not_mem_nil

/-- Where some rule matches in front of everything, the lexemes are all of the input. -/
theorem flatten_lexemes {rs : Rules α τ} (hpos : ∀ w, w ≠ [] → ∃ t n, munch rs w = some (t, n + 1)) (w : List α) :
    ((lexemes rs w).map Prod.snd).flatten = w := by
  induction hlen : w.length using Nat.strong_induction_on generalizing w with
  | _ len ih =>
      by_cases hw : w = []
      · rw [hw, lexemes_nil]
        rfl
      · obtain ⟨t, n, hm⟩ := hpos w hw
        have hle := munch_length_le hm
        rw [lexemes_of_munch hm, List.map_cons, List.flatten_cons, ih _ (by rw [List.length_drop]; omega) _ rfl]
        exact List.take_append_drop _ w

/-- The last one is at the end. -/
theorem suffix_of_getLast?_lexemes {rs : Rules α τ} (hpos : ∀ w, w ≠ [] → ∃ t n, munch rs w = some (t, n + 1))
    {w : List α} {x : τ × List α} (h : (lexemes rs w).getLast? = some x) : x.2 <:+ w := by
  obtain ⟨l, hl⟩ := List.getLast?_eq_some_iff.mp h
  have hflat := flatten_lexemes hpos w
  rw [hl, List.map_append, List.flatten_append, List.map_singleton, List.flatten_singleton] at hflat
  exact ⟨_, hflat⟩

/-- A match `u` in front of `v`. -/
theorem lexemes_append {rs : Rules α τ} {u v : List α} {t : τ} (hu : u ≠ [])
    (h : munch rs (u ++ v) = some (t, u.length)) : lexemes rs (u ++ v) = (t, u) :: lexemes rs v := by
  obtain ⟨a, u', rfl⟩ := List.exists_cons_of_ne_nil hu
  rw [lexemes_of_munch h, ← List.length_cons, List.take_left, List.drop_left]

/-- More input behind `u` that no rule reaches from within `u`. -/
theorem munch_extend {rs : Rules α τ} {u v : List α} {t : τ} {n : Nat} (h : munch rs u = some (t, n))
    (hv : ∀ x ∈ rs, ∀ p, p ≠ [] → p <+: v → u ++ p ∉ x.1.lang) : munch rs (u ++ v) = some (t, n) := by
  obtain ⟨hle, hrule, hlongest⟩ := munch_eq_some_iff.mp h
  rw [munch_eq_some_iff]
  refine ⟨Nat.le_trans hle (by simp), ?_, ?_⟩
  · rw [List.take_append_of_le_length hle]
    exact hrule
  · intro m hm hmv
    by_cases hmu : m ≤ u.length
    · rw [List.take_append_of_le_length hmu]
      exact hlongest m hm hmu
    · -- the match would reach into `v`
      rw [ruleOf_eq_none]
      intro x hx
      rw [List.take_append, List.take_of_length_le (by omega)]
      refine hv x hx _ ?_ (List.take_prefix _ _)
      rw [List.length_append] at hmv
      intro hnil
      have hlen := congrArg List.length hnil
      rw [List.length_take, List.length_nil] at hlen
      omega

/-- **A cut that no match crosses**: what is on either side is scanned on its own. -/
theorem lexemes_append_of_cut {rs : Rules α τ} (hpos : ∀ w, w ≠ [] → ∃ t n, munch rs w = some (t, n + 1))
    {u v : List α} (hcut : ∀ w, w <:+ u → w ≠ [] → ∀ x ∈ rs, ∀ p, p ≠ [] → p <+: v → w ++ p ∉ x.1.lang) :
    lexemes rs (u ++ v) = lexemes rs u ++ lexemes rs v := by
  induction hlen : u.length using Nat.strong_induction_on generalizing u with
  | _ len ih =>
      by_cases hu : u = []
      · subst hu
        rw [List.nil_append, lexemes_nil, List.nil_append]
      · obtain ⟨t, n, hm⟩ := hpos u hu
        have hle := munch_length_le hm
        have hcut' : ∀ w, w <:+ u.drop (n + 1) → w ≠ [] → ∀ x ∈ rs, ∀ p, p ≠ [] → p <+: v → w ++ p ∉ x.1.lang :=
          fun w hw => hcut w (hw.trans (List.drop_suffix _ _))
        have hext := munch_extend hm (hcut u (List.suffix_refl u) hu)
        rw [lexemes_of_munch hext, lexemes_of_munch hm, List.take_append_of_le_length hle,
          List.drop_append_of_le_length hle, ih _ (by rw [List.length_drop]; omega) hcut' rfl]
        rfl

/-- A match within `u` does not need what is behind it. -/
theorem munch_of_append {rs : Rules α τ} {u v : List α} {t : τ} {n : Nat} (h : munch rs (u ++ v) = some (t, n))
    (hn : n ≤ u.length) : munch rs u = some (t, n) := by
  obtain ⟨-, hrule, hlongest⟩ := munch_eq_some_iff.mp h
  rw [List.take_append_of_le_length hn] at hrule
  refine munch_eq_some_iff.mpr ⟨hn, hrule, ?_⟩
  intro m hm hmu
  have hm' := hlongest m hm (by rw [List.length_append]; omega)
  rwa [List.take_append_of_le_length hmu] at hm'

/-- **A cut anywhere**: the lexemes in front of it are the same up to the one that crosses it, of which `r` is the part
    in front. -/
theorem lexemes_cut {rs : Rules α τ} (hpos : ∀ w, w ≠ [] → ∃ t n, munch rs w = some (t, n + 1)) (u v : List α) :
    ∃ ls r, lexemes rs (u ++ v) = ls ++ lexemes rs (r ++ v) ∧ lexemes rs u = ls ++ lexemes rs r ∧
      (r = [] ∨ ∃ t n, munch rs (r ++ v) = some (t, n) ∧ r.length < n) := by
  induction hlen : u.length using Nat.strong_induction_on generalizing u with
  | _ len ih =>
      by_cases hu : u = []
      · exact ⟨[], u, rfl, rfl, .inl hu⟩
      · obtain ⟨t, n, hm⟩ := hpos (u ++ v) (List.append_ne_nil_of_left_ne_nil hu v)
        by_cases hn : n + 1 ≤ u.length
        · obtain ⟨ls, r, hboth, hleft, hr⟩ := ih (u.drop (n + 1)).length (by rw [List.length_drop]; omega) _ rfl
          refine ⟨(t, u.take (n + 1)) :: ls, r, ?_, ?_, hr⟩
          · rw [lexemes_of_munch hm, List.take_append_of_le_length hn, List.drop_append_of_le_length hn, hboth]
            rfl
          · rw [lexemes_of_munch (munch_of_append hm hn), hleft]
            rfl
        · exact ⟨[], u, rfl, rfl, .inr ⟨t, n + 1, hm, by omega⟩⟩

/-- Where some rule matches, scanning goes on. -/
theorem lexemes_ne_nil {rs : Rules α τ} {w : List α} {t : τ} {n : Nat} (h : munch rs w = some (t, n + 1)) :
    lexemes rs w ≠ [] := by
  rw [lexemes_of_munch h]
  exact List.cons_ne_nil _ _

end Lex
end CSamples
