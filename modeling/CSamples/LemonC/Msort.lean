import CSamples.LemonC.Struct
import CSamples.Sort.Bins

/-!
# `LemonC.Msort` — the sorts of `lemon.c`, and the numbers of the rules

`msort`, which sorts configurations and actions, and `Rule_sort` are the same sort with bins, 30 of them and 32.

## Contents
- `msort_spec`: what `msort` sorts, and how long a list may be.
- `numberRules`, the numbering of the rules in `main`; `mainRules_spec`: after the sort every rule stands at its number,
  and the rules with code come first.
-/

namespace CSamples
namespace LemonC

open List

variable {α : Type}

/-! ## `msort` -/

/-- `merge`: on a tie, from the first list. -/
def merge (cmp : α → α → Int) (a b : List α) : List α := Bins.merge (fun x y => cmp x y ≤ 0) a b

/-- `msort`, with `LISTSIZE` bins -/
def msort (cmp : α → α → Int) (l : List α) : List α :=
  Bins.sort (fun ep set => merge cmp ep set) (fun set ep => merge cmp set ep) 30 l

/-- `cmp` compares like an order. -/
structure Compares (cmp : α → α → Int) : Prop where
  total : ∀ a b, cmp a b ≤ 0 ∨ cmp b a ≤ 0
  trans : ∀ a b c, cmp a b ≤ 0 → cmp b c ≤ 0 → cmp a c ≤ 0

theorem merge_perm (cmp : α → α → Int) (a b : List α) : merge cmp a b ~ a ++ b := Bins.merge_perm _ a b

theorem Compares.merge_sorted {cmp : α → α → Int} (h : Compares cmp) {a b : List α}
    (ha : a.Pairwise (fun x y => cmp x y ≤ 0)) (hb : b.Pairwise (fun x y => cmp x y ≤ 0)) :
    (merge cmp a b).Pairwise (fun x y => cmp x y ≤ 0) := by
  refine Bins.merge_sorted h.trans (fun x y htest => ?_) (fun x y htest => ?_) ha hb
  · exact of_decide_eq_true htest
  · exact (h.total x y).resolve_left (of_decide_eq_false htest)

/-- **`msort` sorts, and keeps all elements exactly if there are less than `2 ^ 30` of them.** -/
theorem msort_spec {cmp : α → α → Int} (h : Compares cmp) (l : List α) :
    (msort cmp l).Pairwise (fun x y => cmp x y ≤ 0) ∧ (msort cmp l ~ l ↔ l.length < 2 ^ 30) := by
  refine ⟨Bins.sort_sorted ?_ ?_ 30 l, Bins.sort_perm_iff (merge_perm cmp) (merge_perm cmp) l⟩
  · exact fun a b ha hb => h.merge_sorted ha hb
  · exact fun a b ha hb => h.merge_sorted ha hb

theorem msort_perm (cmp : α → α → Int) {l : List α} (hl : l.length < 2 ^ 30) : msort cmp l ~ l :=
  (Bins.sort_perm_iff (merge_perm cmp) (merge_perm cmp) l).mpr hl

/-! ## The rules -/

variable {τ ν : Type}

/-- `Rule_merge` -/
def ruleMerge (pA pB : List (Rule τ ν)) : List (Rule τ ν) := Bins.merge (fun a b => a.iRule < b.iRule) pA pB

/-- `Rule_sort`. The last loop merges empty lists too, which changes nothing. -/
def ruleSort (rp : List (Rule τ ν)) : List (Rule τ ν) :=
  Bins.sort (fun rp x => ruleMerge x rp) (fun x rp => ruleMerge x rp) 32 rp

/-- The first loop of `main` over the rules: those with code get the numbers from `i` on. -/
def numberCode : List (Rule τ ν) → Nat → List (Rule τ ν × Int) × Nat
  | [], i       => ([], i)
  | rp :: rs, i =>
      if rp.noCode then ((rp, -1) :: (numberCode rs i).1, (numberCode rs i).2)
      else ((rp, i) :: (numberCode rs (i + 1)).1, (numberCode rs (i + 1)).2)

/-- The second loop: the others get the numbers behind. -/
def numberRest : List (Rule τ ν × Int) → Nat → List (Rule τ ν)
  | [], _            => []
  | (rp, k) :: rs, i =>
      if k < 0 then { rp with iRule := i } :: numberRest rs (i + 1)
      else { rp with iRule := k.toNat } :: numberRest rs i

/-- `nruleWithAction` -/
def nruleWithAction (rs : List (Rule τ ν)) : Nat := (numberCode rs 0).2

/-- The rules with their numbers, in the order of the file. -/
def numberRules (rs : List (Rule τ ν)) : List (Rule τ ν) := numberRest (numberCode rs 0).1 (nruleWithAction rs)

/-- `lem.rule` after the numbering: `Rule_sort(lem.rule)`. -/
def mainRules (rs : List (Rule τ ν)) : List (Rule τ ν) := ruleSort (numberRules rs)

/-! ## The numbering -/

theorem numberCode_snd (rs : List (Rule τ ν)) (i : Nat) :
    (numberCode rs i).2 = i + rs.countP (fun rp => !rp.noCode) := by
  fun_induction numberCode rs i with
  | case1 => rfl
  | case2 rp rs i h ih => simp [ih, h]
  | case3 rp rs i h ih =>
      simp only [ih]
      rw [List.countP_cons_of_pos (by simpa using h)]
      omega

/-- A rule with another number. -/
def Rule.numbered (rp : Rule τ ν) (i : Nat) : Rule τ ν := { rp with iRule := i }

/-- What the two loops do, in one: two counters, one for the rules with code and one for the others. -/
theorem numberRest_numberCode (rs : List (Rule τ ν)) (i j : Nat) :
    (numberRest (numberCode rs i).1 j).map Rule.iRule ~
        List.range' i (rs.countP (fun rp => !rp.noCode)) ++ List.range' j (rs.countP (fun rp => rp.noCode)) ∧
      List.Forall₂ (fun rp rp' => rp' = rp.numbered rp'.iRule ∧ (rp.noCode = true → j ≤ rp'.iRule) ∧
        (rp.noCode = false → rp'.iRule < i + rs.countP (fun rp => !rp.noCode)))
        rs (numberRest (numberCode rs i).1 j) := by
  induction rs generalizing i j with
  | nil => exact ⟨.refl _, .nil⟩
  | cons rp rs ih =>
      cases hcode : rp.noCode with
      | true =>
          obtain ⟨hperm, hall⟩ := ih i (j + 1)
          rw [numberCode, if_pos hcode, numberRest, if_pos (by decide)]
          rw [List.countP_cons_of_neg (by simp [hcode]), List.countP_cons_of_pos (by simpa using hcode)]
          refine ⟨?_, .cons ⟨rfl, fun _ => Nat.le_refl j, fun h => ?_⟩
            (hall.imp fun a b hab => ⟨hab.1, fun h => Nat.le_of_succ_le (hab.2.1 h), hab.2.2⟩)⟩
          · rw [List.map_cons, List.range'_succ]
            exact (hperm.cons j).trans List.perm_middle.symm
          · exact absurd (hcode.symm.trans h) (by decide)
      | false =>
          obtain ⟨hperm, hall⟩ := ih (i + 1) j
          rw [numberCode, if_neg (by rw [hcode]; decide), numberRest, if_neg (by omega)]
          rw [List.countP_cons_of_pos (by simp [hcode]), List.countP_cons_of_neg (by simp [hcode])]
          refine ⟨?_, .cons ⟨rfl, fun h => ?_, fun _ => ?_⟩ (hall.imp fun a b hab => ⟨hab.1, hab.2.1, fun h => ?_⟩)⟩
          · rw [List.map_cons, List.range'_succ]
            exact hperm.cons i
          · exact absurd (hcode.symm.trans h) (by decide)
          · simp only [Int.toNat_natCast]
            omega
          · have := hab.2.2 h
            omega

theorem ruleMerge_perm (a b : List (Rule τ ν)) : ruleMerge a b ~ a ++ b := Bins.merge_perm _ a b

theorem ruleMerge_sorted {a b : List (Rule τ ν)} (ha : a.Pairwise (fun x y => x.iRule ≤ y.iRule))
    (hb : b.Pairwise (fun x y => x.iRule ≤ y.iRule)) : (ruleMerge a b).Pairwise (fun x y => x.iRule ≤ y.iRule) := by
  refine Bins.merge_sorted (R := fun (x y : Rule τ ν) => x.iRule ≤ y.iRule) (fun _ _ _ h h' => Nat.le_trans h h')
    (fun x y htest => ?_) (fun x y htest => ?_) ha hb
  · exact Nat.le_of_lt (of_decide_eq_true htest)
  · exact Nat.le_of_not_lt (of_decide_eq_false htest)

/-- **The rules in the tables.** The rule at place `i` has the number `i`. They are the rules of the file, the same but
    for the number, and those with code come first. -/
theorem mainRules_spec (rs : List (Rule τ ν)) (hrs : rs.length < 2 ^ 32) :
    (mainRules rs).map Rule.iRule = List.range rs.length ∧
      ∃ rs', rs' ~ mainRules rs ∧ List.Forall₂
        (fun rp rp' => rp' = rp.numbered rp'.iRule ∧ (rp'.iRule < nruleWithAction rs ↔ rp.noCode = false)) rs rs' := by
  obtain ⟨hrange, hall⟩ := numberRest_numberCode rs 0 (nruleWithAction rs)
  change (numberRules rs).map Rule.iRule ~ _ at hrange
  change List.Forall₂ _ rs (numberRules rs) at hall
  have hlen : (numberRules rs).length = rs.length := hall.length_eq.symm
  have hn : nruleWithAction rs = 0 + rs.countP (fun rp => !rp.noCode) := numberCode_snd rs 0
  have hsum : rs.countP (fun rp => !rp.noCode) + rs.countP (fun rp => rp.noCode) = rs.length := by
    have h := (List.length_eq_countP_add_countP (fun rp => !rp.noCode) (l := rs)).symm
    simpa using h
  have hperm : mainRules rs ~ numberRules rs := by
    refine (Bins.sort_perm_iff (fun a b => ?_) ruleMerge_perm _).mpr (by rw [hlen]; exact hrs)
    exact (ruleMerge_perm b a).trans List.perm_append_comm
  have hsorted : (mainRules rs).Pairwise (fun x y => x.iRule ≤ y.iRule) :=
    Bins.sort_sorted (fun _ _ ha hb => ruleMerge_sorted hb ha) (fun _ _ ha hb => ruleMerge_sorted ha hb) 32 _
  refine ⟨?_, numberRules rs, hperm.symm, hall.imp fun rp rp' h => ⟨h.1, ?_⟩⟩
  · rw [hn, List.range'_append_1, hsum, ← List.range_eq_range'] at hrange
    refine List.Perm.eq_of_pairwise (fun a b _ _ => Nat.le_antisymm) ?_ ?_ ((hperm.map _).trans hrange)
    · exact List.pairwise_map.mpr hsorted
    · exact List.pairwise_le_range
  · obtain ⟨-, hno, hcode⟩ := h
    rw [← hn] at hcode
    constructor
    · intro hlt
      refine Bool.eq_false_iff.mpr fun h => ?_
      have := hno h
      omega
    · exact hcode

theorem mainRules_nested : (mainRules nestedRules).map Rule.iRule = [0, 1, 2] :=
  (mainRules_spec nestedRules (by decide)).1

end LemonC
end CSamples
