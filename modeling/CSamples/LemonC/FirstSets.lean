import CSamples.Fixpoint.Passes
import CSamples.LemonC.Struct
import Mathlib.Algebra.BigOperators.Group.Finset.Basic
import Mathlib.Algebra.Order.BigOperators.Group.Finset

/-!
# `LemonC.FirstSets` — `FindFirstSets`

Which nonterminals can vanish, and what each of them can begin with: two loops over all rules until nothing changes.

## Contents
- **Model.** `lambdaStep` and `firstStep`, what the two loops do for one rule; `findFirstSets`.
- **Spec.** `Opens` and `Vanishes` say of a right-hand side what it begins with and whether it can vanish;
  `findFirstSets_spec`: the loops end, and the sets are exactly these.
-/

namespace CSamples
namespace LemonC

open Grammar Fixpoint

variable {τ ν : Type} [DecidableEq τ] [DecidableEq ν]

/-! ## The loops -/

/-- The fields `lambda` and `firstset` of all nonterminals. -/
structure FirstSets (τ ν : Type) where
  lambda   : ν → Bool
  firstset : ν → Finset τ

/-- `sp->lambda`, false for everything but nonterminals. -/
def lambdaOf (lambda : ν → Bool) : Sym τ ν → Bool
  | .terminal _    => false
  | .nonterminal n => lambda n

/-- The first loop, for one rule. -/
def lambdaStep (rp : Rule τ ν) (lambda : ν → Bool) : (ν → Bool) × Bool :=
  if lambda rp.lhs then (lambda, false)
  else if rp.rhs.all (lambdaOf lambda) then (Function.update lambda rp.lhs true, true)
  else (lambda, false)

/-- `SetUnion(s1->firstset, …)` -/
def firstUnion (firstset : ν → Finset τ) (s1 : ν) (s : Finset τ) : (ν → Finset τ) × Bool :=
  (Function.update firstset s1 (setUnion (firstset s1) s).1, (setUnion (firstset s1) s).2)

/-- The second loop, along the right-hand side of a rule of `s1`. -/
def firstScan (lambda : ν → Bool) (s1 : ν) : List (Sym τ ν) → (ν → Finset τ) → (ν → Finset τ) × Bool
  | [], firstset                       => (firstset, false)
  | .terminal k :: _, firstset         => firstUnion firstset s1 k.tokens.toFinset
  | .nonterminal s2 :: rest, firstset  =>
      if s1 = s2 then if lambda s1 then firstScan lambda s1 rest firstset else (firstset, false)
      else
        let x := firstUnion firstset s1 (firstset s2)
        if lambda s2 then ((firstScan lambda s1 rest x.1).1, x.2 || (firstScan lambda s1 rest x.1).2) else x

/-- The second loop, for one rule. -/
def firstStep (lambda : ν → Bool) (rp : Rule τ ν) (firstset : ν → Finset τ) : (ν → Finset τ) × Bool :=
  firstScan lambda rp.lhs rp.rhs firstset

/-- `FindFirstSets`. The loops are bounded by what they can add. -/
def findFirstSets [Fintype τ] [Fintype ν] (lemp : Lemon τ ν) : Option (FirstSets τ ν) :=
  (doWhile (sweep lambdaStep lemp.rule) (Fintype.card ν + 1) (fun _ => false)).bind (fun lambda =>
    (doWhile (sweep (firstStep lambda) lemp.rule) (Fintype.card ν * Fintype.card τ + 1) (fun _ => ∅)).map
      (fun firstset => ⟨lambda, firstset⟩))

/-- What the symbols of a list begin with by the sets found, up to the first that does not vanish. -/
def FirstSets.firstOf (fs : FirstSets τ ν) : List (Sym τ ν) → Finset τ
  | []                     => ∅
  | .terminal k :: _       => k.tokens.toFinset
  | .nonterminal n :: rest => if fs.lambda n then fs.firstset n ∪ fs.firstOf rest else fs.firstset n

/-- All symbols of a list vanish by the sets found. -/
def FirstSets.vanish (fs : FirstSets τ ν) (xs : List (Sym τ ν)) : Bool := xs.all (lambdaOf fs.lambda)

/-! ## Right-hand sides -/

/-- The right-hand side can be read as something that `a` begins. -/
def Opens (lemp : Lemon τ ν) (a : τ) (xs : List (Sym τ ν)) : Prop :=
  ∃ s, List.Forall₂ Fits xs s ∧ Begins lemp.cfg a s

/-- The right-hand side can be read as something that derives the empty word. -/
def Vanishes (lemp : Lemon τ ν) (xs : List (Sym τ ν)) : Prop :=
  ∃ s, List.Forall₂ Fits xs s ∧ Yields lemp.cfg s []

variable {lemp : Lemon τ ν}

omit [DecidableEq τ] [DecidableEq ν] in
theorem exists_fits (xs : List (Sym τ ν)) : ∃ s, List.Forall₂ Fits xs s := by
  induction xs with
  | nil => exact ⟨[], .nil⟩
  | cons x xs ih =>
      obtain ⟨s, hs⟩ := ih
      cases x with
      | terminal k =>
          obtain ⟨t, ht⟩ := List.exists_mem_of_ne_nil _ k.tokens_ne_nil
          exact ⟨.terminal t :: s, .cons ht hs⟩
      | nonterminal n => exact ⟨.nonterminal n :: s, .cons rfl hs⟩

theorem opens_nil (a : τ) : ¬ Opens lemp a [] := by
  rintro ⟨s, hs, h⟩
  cases hs
  exact begins_nil (g := lemp.cfg) a h

theorem opens_terminal {a : τ} {k : Term τ} {xs : List (Sym τ ν)} :
    Opens lemp a (.terminal k :: xs) ↔ a ∈ k.tokens := by
  constructor
  · rintro ⟨s, hs, h⟩
    cases hs with
    | cons hx hs =>
        obtain ⟨t, ht, rfl⟩ := fits_terminal.mp hx
        obtain rfl := (begins_terminal (g := lemp.cfg)).mp h
        exact ht
  · intro ha
    obtain ⟨s, hs⟩ := exists_fits xs
    exact ⟨.terminal a :: s, .cons ha hs, begins_terminal.mpr rfl⟩

theorem opens_nonterminal {a : τ} {n : ν} {xs : List (Sym τ ν)} :
    Opens lemp a (.nonterminal n :: xs) ↔
      Begins lemp.cfg a [.nonterminal n] ∨ (Yields lemp.cfg [.nonterminal n] [] ∧ Opens lemp a xs) := by
  constructor
  · rintro ⟨s, hs, h⟩
    cases hs with
    | @cons _ y _ s hx hs =>
        obtain rfl := fits_nonterminal.mp hx
        rcases (begins_append (g := lemp.cfg) (s := [.nonterminal n])).mp h with h | ⟨hn, h⟩
        · exact .inl h
        · exact .inr ⟨hn, s, hs, h⟩
  · rintro (h | ⟨hn, s, hs, h⟩)
    · obtain ⟨s, hs⟩ := exists_fits xs
      exact ⟨.nonterminal n :: s, .cons rfl hs, begins_append.mpr (.inl h)⟩
    · exact ⟨.nonterminal n :: s, .cons rfl hs, .skip hn h⟩

theorem vanishes_nil : Vanishes lemp [] := ⟨[], .nil, .nil⟩

theorem vanishes_terminal {k : Term τ} {xs : List (Sym τ ν)} : ¬ Vanishes lemp (.terminal k :: xs) := by
  rintro ⟨s, hs, h⟩
  cases hs with
  | cons hx hs =>
      obtain ⟨t, -, rfl⟩ := fits_terminal.mp hx
      exact yields_terminal_nil (g := lemp.cfg) h

theorem vanishes_nonterminal {n : ν} {xs : List (Sym τ ν)} :
    Vanishes lemp (.nonterminal n :: xs) ↔ Yields lemp.cfg [.nonterminal n] [] ∧ Vanishes lemp xs := by
  constructor
  · rintro ⟨s, hs, h⟩
    cases hs with
    | @cons _ y _ s hx hs =>
        obtain rfl := fits_nonterminal.mp hx
        obtain ⟨hn, h⟩ := (yields_append_nil (g := lemp.cfg) (s := [.nonterminal n])).mp h
        exact ⟨hn, s, hs, h⟩
  · rintro ⟨hn, s, hs, h⟩
    exact ⟨.nonterminal n :: s, .cons rfl hs, yields_append_nil.mpr ⟨hn, h⟩⟩

/-- A rule whose right-hand side vanishes makes its left-hand side vanish. -/
theorem yields_nil_of_vanishes {rp : Rule τ ν} (hrp : rp ∈ lemp.rule) (h : Vanishes lemp rp.rhs) :
    Yields lemp.cfg [.nonterminal rp.lhs] [] := by
  obtain ⟨s, hs, h⟩ := h
  have hr : (⟨rp.lhs, s⟩ : ContextFreeRule τ ν) ∈ lemp.cfg.rules := Lemon.mem_rules.mpr ⟨rp, hrp, rfl, hs⟩
  exact .rule hr h

theorem begins_of_opens {rp : Rule τ ν} (hrp : rp ∈ lemp.rule) {a : τ} (h : Opens lemp a rp.rhs) :
    Begins lemp.cfg a [.nonterminal rp.lhs] := by
  obtain ⟨s, hs, h⟩ := h
  have hr : (⟨rp.lhs, s⟩ : ContextFreeRule τ ν) ∈ lemp.cfg.rules := Lemon.mem_rules.mpr ⟨rp, hrp, rfl, hs⟩
  exact .rule hr h []

/-! ## The first loop -/

/-- `lambda` holds of nothing that does not vanish. -/
def LambdaSound (lemp : Lemon τ ν) (lambda : ν → Bool) : Prop :=
  ∀ n, lambda n = true → Yields lemp.cfg [.nonterminal n] []

theorem vanishes_of_all {lambda : ν → Bool} (h : LambdaSound lemp lambda) {xs : List (Sym τ ν)}
    (hxs : xs.all (lambdaOf lambda) = true) : Vanishes lemp xs := by
  induction xs with
  | nil => exact vanishes_nil
  | cons x xs ih =>
      obtain ⟨hx, hrest⟩ := Bool.and_eq_true_iff.mp hxs
      cases x with
      | terminal k => exact absurd hx Bool.false_ne_true
      | nonterminal n => exact vanishes_nonterminal.mpr ⟨h n hx, ih hrest⟩

omit [DecidableEq τ] in
/-- What the first loop does for a rule. -/
theorem lambdaStep_cases (rp : Rule τ ν) (lambda : ν → Bool) :
    (lambdaStep rp lambda = (lambda, false) ∧ (rp.rhs.all (lambdaOf lambda) = true → lambda rp.lhs = true)) ∨
    (lambdaStep rp lambda = (Function.update lambda rp.lhs true, true) ∧ lambda rp.lhs = false ∧
      rp.rhs.all (lambdaOf lambda) = true) := by
  unfold lambdaStep
  by_cases hl : lambda rp.lhs = true
  · rw [if_pos hl]
    exact .inl ⟨rfl, fun _ => hl⟩
  · rw [if_neg hl]
    by_cases hall : rp.rhs.all (lambdaOf lambda) = true
    · rw [if_pos hall]
      exact .inr ⟨rfl, Bool.eq_false_iff.mpr hl, hall⟩
    · rw [if_neg hall]
      exact .inl ⟨rfl, fun h => absurd h hall⟩

theorem lambdaStep_sound {rp : Rule τ ν} (hrp : rp ∈ lemp.rule) {lambda : ν → Bool} (h : LambdaSound lemp lambda) :
    LambdaSound lemp (lambdaStep rp lambda).1 := by
  obtain ⟨heq, -⟩ | ⟨heq, -, hall⟩ := lambdaStep_cases rp lambda
  · rw [heq]
    exact h
  · rw [heq]
    intro n hn
    by_cases hlhs : n = rp.lhs
    · subst hlhs
      exact yields_nil_of_vanishes hrp (vanishes_of_all h hall)
    · exact h n ((Function.update_of_ne hlhs true lambda).symm.trans hn)

/-- Where the first loop has nothing to do, everything that vanishes is known. -/
theorem lambda_of_yields {lambda : ν → Bool}
    (hstable : ∀ rp ∈ lemp.rule, rp.rhs.all (lambdaOf lambda) = true → lambda rp.lhs = true)
    {s : List (Symbol τ lemp.cfg.NT)} (h : Yields lemp.cfg s []) {xs : List (Sym τ ν)} (hxs : List.Forall₂ Fits xs s) :
    xs.all (lambdaOf lambda) = true := by
  generalize hw : ([] : List τ) = w at h
  induction h generalizing xs with
  | nil =>
      cases hxs
      rfl
  | terminal a _ _ => exact absurd hw.symm (List.cons_ne_nil _ _)
  | @nonterminal r hr s u v _ _ ihu ih =>
      obtain ⟨rfl, rfl⟩ := List.nil_eq_append_iff.mp hw
      cases hxs with
      | @cons x _ xs _ hx hrest =>
          obtain ⟨rp, hrp, hlhs, hrhs⟩ := Lemon.mem_rules.mp hr
          have hn : lambda r.input = true := hlhs ▸ hstable rp hrp (ihu hrhs rfl)
          cases x with
          | terminal k =>
              obtain ⟨t, -, ht⟩ := fits_terminal.mp hx
              cases ht
          | nonterminal n =>
              cases fits_nonterminal.mp hx
              exact Bool.and_eq_true_iff.mpr ⟨hn, ih hrest rfl⟩

/-- The nonterminals known to vanish. -/
def lambdaCount [Fintype ν] (lambda : ν → Bool) : Nat := (Finset.univ.filter (fun n => lambda n = true)).card

theorem lambdaCount_lt [Fintype ν] {lambda : ν → Bool} {n : ν} (h : lambda n = false) :
    lambdaCount lambda < lambdaCount (Function.update lambda n true) := by
  refine Finset.card_lt_card ⟨fun m hm => ?_, fun hsub => ?_⟩
  · simp only [Finset.mem_filter, Finset.mem_univ, true_and] at hm ⊢
    by_cases hmn : m = n
    · rw [hmn, Function.update_self]
    · rw [Function.update_of_ne hmn]
      exact hm
  · have hn := hsub (Finset.mem_filter.mpr ⟨Finset.mem_univ n, Function.update_self n true lambda⟩)
    rw [Finset.mem_filter, h] at hn
    exact absurd hn.2 Bool.false_ne_true

/-- **The first loop ends with what vanishes.** -/
theorem lambda_loop [Fintype ν] (lemp : Lemon τ ν) :
    ∃ lambda, doWhile (sweep lambdaStep lemp.rule) (Fintype.card ν + 1) (fun _ => false) = some lambda ∧
      ∀ n, lambda n = true ↔ Yields lemp.cfg [.nonterminal n] [] := by
  obtain ⟨lambda, hrun, hsound, hstill⟩ := doWhile_sweep (I := LambdaSound lemp) (μ := lambdaCount)
    (N := Fintype.card ν) (l := lemp.rule) (f := lambdaStep) (n := Fintype.card ν + 1)
    (fun rp hrp lambda h => lambdaStep_sound hrp h)
    (fun rp _ lambda h => by
      obtain ⟨heq, -⟩ | ⟨heq, -⟩ := lambdaStep_cases rp lambda
      · rw [heq]
      · rw [heq] at h
        exact absurd h.symm Bool.false_ne_true)
    (fun rp _ lambda _ h => by
      obtain ⟨heq, -⟩ | ⟨heq, hfalse, -⟩ := lambdaStep_cases rp lambda
      · rw [heq] at h
        exact absurd h Bool.false_ne_true
      · rw [heq]
        exact lambdaCount_lt hfalse)
    (fun lambda _ => Finset.card_le_univ _)
    (fun n h => absurd h Bool.false_ne_true) (Nat.lt_succ_self _)
  refine ⟨lambda, hrun, fun n => ⟨hsound n, fun h => ?_⟩⟩
  have hstable : ∀ rp ∈ lemp.rule, rp.rhs.all (lambdaOf lambda) = true → lambda rp.lhs = true := by
    intro rp hrp hall
    obtain ⟨-, himp⟩ | ⟨heq, -⟩ := lambdaStep_cases rp lambda
    · exact himp hall
    · have hno := hstill rp hrp
      rw [heq] at hno
      exact absurd hno.symm Bool.false_ne_true
  have hall : [Symbol.nonterminal n].all (lambdaOf lambda) = true := lambda_of_yields hstable h (.cons rfl .nil)
  simpa [lambdaOf] using hall

/-! ## The second loop -/

/-- The sets hold nothing that does not begin something. -/
def FirstSound (lemp : Lemon τ ν) (firstset : ν → Finset τ) : Prop :=
  ∀ n, ∀ a ∈ firstset n, Begins lemp.cfg a [.nonterminal n]

omit [DecidableEq τ] [DecidableEq ν] in
/-- A right-hand side that begins with a nonterminal, part by part. -/
theorem FirstSets.mem_firstOf_nonterminal [DecidableEq τ] {fs : FirstSets τ ν} {a : τ} {n : ν}
    {xs : List (Sym τ ν)} :
    a ∈ fs.firstOf (.nonterminal n :: xs) ↔ a ∈ fs.firstset n ∨ (fs.lambda n = true ∧ a ∈ fs.firstOf xs) := by
  rw [FirstSets.firstOf]
  by_cases hl : fs.lambda n = true
  · rw [if_pos hl, Finset.mem_union]
    exact or_congr_right (and_iff_right hl).symm
  · rw [if_neg hl]
    exact ⟨.inl, fun h => h.elim id (fun h => absurd h.1 hl)⟩

theorem firstUnion_self (firstset : ν → Finset τ) (s1 : ν) (s : Finset τ) :
    (firstUnion firstset s1 s).1 s1 = firstset s1 ∪ s := Function.update_self ..

theorem firstUnion_other (firstset : ν → Finset τ) {s1 n : ν} (hn : n ≠ s1) (s : Finset τ) :
    (firstUnion firstset s1 s).1 n = firstset n := Function.update_of_ne hn ..

theorem firstUnion_sound {firstset : ν → Finset τ} (h : FirstSound lemp firstset) {s1 : ν} {s : Finset τ}
    (hs : ∀ a ∈ s, Begins lemp.cfg a [.nonterminal s1]) : FirstSound lemp (firstUnion firstset s1 s).1 := by
  intro n a ha
  by_cases hn : n = s1
  · subst hn
    rw [firstUnion_self, Finset.mem_union] at ha
    exact ha.elim (h n a) (hs a)
  · rw [firstUnion_other firstset hn] at ha
    exact h n a ha

/-- The scan adds what the rest of the rule begins with, if that is what its left-hand side begins with. -/
theorem firstScan_sound {lambda : ν → Bool} (hl : LambdaSound lemp lambda) {s1 : ν} {xs : List (Sym τ ν)}
    (hxs : ∀ a, Opens lemp a xs → Begins lemp.cfg a [.nonterminal s1]) {firstset : ν → Finset τ}
    (h : FirstSound lemp firstset) : FirstSound lemp (firstScan lambda s1 xs firstset).1 := by
  induction xs generalizing firstset with
  | nil => exact h
  | cons x xs ih =>
      cases x with
      | terminal k => exact firstUnion_sound h (fun a ha => hxs a (opens_terminal.mpr (List.mem_toFinset.mp ha)))
      | nonterminal s2 =>
          rw [firstScan]
          have hrest : lambda s2 = true → ∀ a, Opens lemp a xs → Begins lemp.cfg a [.nonterminal s1] :=
            fun hlam a ha => hxs a (opens_nonterminal.mpr (.inr ⟨hl s2 hlam, ha⟩))
          have hunion : FirstSound lemp (firstUnion firstset s1 (firstset s2)).1 :=
            firstUnion_sound h (fun a ha => hxs a (opens_nonterminal.mpr (.inl (h s2 a ha))))
          by_cases heq : s1 = s2
          · rw [if_pos heq]
            by_cases hlam : lambda s1 = true
            · rw [if_pos hlam]
              exact ih (hrest (heq ▸ hlam)) h
            · rw [if_neg hlam]
              exact h
          · rw [if_neg heq]
            by_cases hlam : lambda s2 = true
            · rw [if_pos hlam]
              exact ih (hrest hlam) hunion
            · rw [if_neg hlam]
              exact hunion

/-- How much all sets hold together. -/
def firstCount [Fintype ν] (firstset : ν → Finset τ) : Nat := ∑ n, (firstset n).card

/-- Adding to a set: nothing changes and there was nothing to add, or something new came in. -/
theorem firstUnion_cases [Fintype ν] (firstset : ν → Finset τ) (s1 : ν) (s : Finset τ) :
    (firstUnion firstset s1 s = (firstset, false) ∧ s ⊆ firstset s1) ∨
    ((firstUnion firstset s1 s).2 = true ∧ firstCount firstset < firstCount (firstUnion firstset s1 s).1) := by
  by_cases hsub : s ⊆ firstset s1
  · refine .inl ⟨?_, hsub⟩
    simp [firstUnion, setUnion, Finset.union_eq_left.mpr hsub, hsub]
  · refine .inr ⟨by simp [firstUnion, setUnion, hsub], ?_⟩
    refine Finset.sum_lt_sum (fun n _ => ?_) ⟨s1, Finset.mem_univ s1, ?_⟩
    · by_cases hn : n = s1
      · subst hn
        rw [firstUnion_self]
        exact Finset.card_le_card Finset.subset_union_left
      · rw [firstUnion_other firstset hn]
    · rw [firstUnion_self]
      refine Finset.card_lt_card ⟨Finset.subset_union_left, fun h => hsub ?_⟩
      exact fun a ha => h (Finset.mem_union_right _ ha)

/-- The scan of a rule: nothing changes and the set holds what the rule begins with, or something new came in. -/
theorem firstScan_cases [Fintype ν] (lambda : ν → Bool) (s1 : ν) (xs : List (Sym τ ν)) (firstset : ν → Finset τ) :
    (firstScan lambda s1 xs firstset = (firstset, false) ∧ (⟨lambda, firstset⟩ : FirstSets τ ν).firstOf xs ⊆ firstset s1) ∨
    ((firstScan lambda s1 xs firstset).2 = true ∧
      firstCount firstset < firstCount (firstScan lambda s1 xs firstset).1) := by
  induction xs generalizing firstset with
  | nil => exact .inl ⟨rfl, Finset.empty_subset _⟩
  | cons x xs ih =>
      cases x with
      | terminal k => exact firstUnion_cases firstset s1 _
      | nonterminal s2 =>
          rw [firstScan, FirstSets.firstOf]
          by_cases heq : s1 = s2
          · subst heq
            rw [if_pos rfl]
            by_cases hlam : lambda s1 = true
            · rw [if_pos hlam, if_pos hlam]
              rcases ih firstset with ⟨hsame, hsub⟩ | hmore
              · exact .inl ⟨hsame, Finset.union_subset (Finset.Subset.refl _) hsub⟩
              · exact .inr hmore
            · rw [if_neg hlam, if_neg hlam]
              exact .inl ⟨rfl, Finset.Subset.refl _⟩
          · rw [if_neg heq]
            by_cases hlam : lambda s2 = true
            · rw [if_pos hlam, if_pos hlam]
              rcases firstUnion_cases firstset s1 (firstset s2) with ⟨hsame, hsub⟩ | ⟨hp, hlt⟩
              · rw [hsame]
                rcases ih firstset with ⟨hsame', hsub'⟩ | ⟨hp', hlt'⟩
                · rw [hsame']
                  exact .inl ⟨rfl, Finset.union_subset hsub hsub'⟩
                · exact .inr ⟨hp', hlt'⟩
              · refine .inr ⟨by simp only [hp, Bool.true_or], ?_⟩
                rcases ih (firstUnion firstset s1 (firstset s2)).1 with ⟨hsame', -⟩ | ⟨-, hlt'⟩
                · simp only [hsame']
                  exact hlt
                · exact hlt.trans hlt'
            · rw [if_neg hlam, if_neg hlam]
              exact firstUnion_cases firstset s1 (firstset s2)

/-- Where the second loop has nothing to do, everything that begins a form is known. -/
theorem mem_firstOf_of_begins {fs : FirstSets τ ν} (hl : ∀ n, Yields lemp.cfg [.nonterminal n] [] → fs.lambda n = true)
    (hstable : ∀ rp ∈ lemp.rule, fs.firstOf rp.rhs ⊆ fs.firstset rp.lhs) {a : τ} {s : List (Symbol τ lemp.cfg.NT)}
    (h : Begins lemp.cfg a s) {xs : List (Sym τ ν)} (hxs : List.Forall₂ Fits xs s) : a ∈ fs.firstOf xs := by
  induction h generalizing xs with
  | terminal s =>
      cases hxs with
      | @cons x _ xs _ hx _ =>
          cases x with
          | terminal k => exact List.mem_toFinset.mpr hx
          | nonterminal n => exact absurd hx id
  | @rule r hr _ s ih =>
      cases hxs with
      | @cons x _ xs _ hx _ =>
          cases x with
          | terminal k => exact absurd hx id
          | nonterminal n =>
              obtain rfl : n = r.input := hx
              obtain ⟨rp, hrp, hlhs, hrhs⟩ := Lemon.mem_rules.mp hr
              have ha : a ∈ fs.firstset r.input := hlhs ▸ hstable rp hrp (ih hrhs)
              exact FirstSets.mem_firstOf_nonterminal.mpr (.inl ha)
  | @skip m s hm _ ih =>
      cases hxs with
      | @cons x _ xs _ hx hrest =>
          cases x with
          | terminal k => exact absurd hx id
          | nonterminal n =>
              obtain rfl : n = m := hx
              exact FirstSets.mem_firstOf_nonterminal.mpr (.inr ⟨hl n hm, ih hrest⟩)

/-- The sets say exactly what the nonterminals derive. -/
structure FirstSets.Exact (fs : FirstSets τ ν) (lemp : Lemon τ ν) : Prop where
  lambda   : ∀ n, fs.lambda n = true ↔ Yields lemp.cfg [.nonterminal n] []
  firstset : ∀ n a, a ∈ fs.firstset n ↔ Begins lemp.cfg a [.nonterminal n]

/-- **The loops end with exact sets.** -/
theorem findFirstSets_exact [Fintype τ] [Fintype ν] (lemp : Lemon τ ν) :
    ∃ fs, findFirstSets lemp = some fs ∧ fs.Exact lemp := by
  obtain ⟨lambda, hrun, hlambda⟩ := lambda_loop lemp
  have hl : LambdaSound lemp lambda := fun n hn => (hlambda n).mp hn
  obtain ⟨firstset, hrun', hsound, hstill⟩ := doWhile_sweep (I := FirstSound lemp) (μ := firstCount)
    (N := Fintype.card ν * Fintype.card τ) (l := lemp.rule) (f := firstStep lambda)
    (n := Fintype.card ν * Fintype.card τ + 1)
    (fun rp hrp firstset h => firstScan_sound hl (fun a ha => begins_of_opens hrp ha) h)
    (fun rp _ firstset h => by
      rcases firstScan_cases lambda rp.lhs rp.rhs firstset with ⟨heq, -⟩ | ⟨hp, -⟩
      · rw [firstStep, heq]
      · exact absurd (hp.symm.trans h) Bool.false_ne_true.symm)
    (fun rp _ firstset _ h => by
      rcases firstScan_cases lambda rp.lhs rp.rhs firstset with ⟨heq, -⟩ | ⟨-, hlt⟩
      · rw [firstStep, heq] at h
        exact absurd h Bool.false_ne_true
      · exact hlt)
    (fun firstset _ => Finset.sum_le_card_nsmul Finset.univ _ _ (fun n _ => Finset.card_le_univ _))
    (s := fun _ => ∅) (fun n a ha => absurd ha (Finset.notMem_empty a)) (Nat.lt_succ_self _)
  refine ⟨⟨lambda, firstset⟩, ?_, hlambda, fun n a => ⟨hsound n a, fun h => ?_⟩⟩
  · rw [findFirstSets, hrun, Option.bind_some, hrun', Option.map_some]
  have hstable : ∀ rp ∈ lemp.rule, (⟨lambda, firstset⟩ : FirstSets τ ν).firstOf rp.rhs ⊆ firstset rp.lhs := by
    intro rp hrp
    rcases firstScan_cases lambda rp.lhs rp.rhs firstset with ⟨-, hsub⟩ | ⟨hp, -⟩
    · exact hsub
    · exact absurd (hp.symm.trans (hstill rp hrp)) Bool.false_ne_true.symm
  have ha : a ∈ (⟨lambda, firstset⟩ : FirstSets τ ν).firstOf [.nonterminal n] :=
    mem_firstOf_of_begins (fun n hn => (hlambda n).mpr hn) hstable h (.cons rfl .nil)
  rcases FirstSets.mem_firstOf_nonterminal.mp ha with ha | ⟨-, ha⟩
  · exact ha
  · exact absurd ha (Finset.notMem_empty a)

/-- **`FindFirstSets` ends, and finds what derivations say**: `lambda` holds of the nonterminals that derive the empty
    string, and a first set holds the terminals that can begin a form derived from the nonterminal. -/
theorem findFirstSets_spec [Fintype τ] [Fintype ν] (lemp : Lemon τ ν) :
    ∃ fs, findFirstSets lemp = some fs ∧
      (∀ n, fs.lambda n = true ↔ lemp.cfg.Derives [.nonterminal n] []) ∧
      (∀ n a, a ∈ fs.firstset n ↔ ∃ u, lemp.cfg.Derives [.nonterminal n] (.terminal a :: u)) := by
  obtain ⟨fs, hrun, hlambda, hfirst⟩ := findFirstSets_exact lemp
  refine ⟨fs, hrun, fun n => ?_, fun n a => ?_⟩
  · rw [hlambda n, yields_nil_iff_derives]
  · rw [hfirst n a, begins_iff_derives]

/-! ## Right-hand sides by the sets found -/

theorem FirstSets.Exact.vanish_iff {fs : FirstSets τ ν} (h : fs.Exact lemp) (xs : List (Sym τ ν)) :
    fs.vanish xs = true ↔ Vanishes lemp xs := by
  refine ⟨vanishes_of_all (fun n hn => (h.lambda n).mp hn), fun hv => ?_⟩
  induction xs with
  | nil => rfl
  | cons x xs ih =>
      cases x with
      | terminal k => exact absurd hv vanishes_terminal
      | nonterminal n =>
          obtain ⟨hn, hrest⟩ := vanishes_nonterminal.mp hv
          exact Bool.and_eq_true_iff.mpr ⟨(h.lambda n).mpr hn, ih hrest⟩

theorem FirstSets.Exact.mem_firstOf_iff {fs : FirstSets τ ν} (h : fs.Exact lemp) {a : τ} (xs : List (Sym τ ν)) :
    a ∈ fs.firstOf xs ↔ Opens lemp a xs := by
  induction xs with
  | nil => exact ⟨fun ha => absurd ha (Finset.notMem_empty a), fun ha => absurd ha (opens_nil a)⟩
  | cons x xs ih =>
      cases x with
      | terminal k => rw [opens_terminal, FirstSets.firstOf, List.mem_toFinset]
      | nonterminal n => rw [opens_nonterminal, FirstSets.mem_firstOf_nonterminal, h.firstset, h.lambda, ih]

end LemonC
end CSamples
