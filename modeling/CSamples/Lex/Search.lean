import CSamples.Lex.Munch

/-!
# `Lex.Search` — the leftmost longest match

`search r w` is where a regular expression is found in `w` by the POSIX rule: the leftmost place where it
matches, and the longest match there.
-/

namespace CSamples
namespace Lex

open Regex

variable {α : Type}

/-- Position and length of the leftmost longest match. -/
def search (r : Regex α) : List α → Option (Nat × Nat)
  | [] => (munch [(r, ())] []).map fun x => (0, x.2)
  | a :: w =>
      match munch [(r, ())] (a :: w) with
      | some x => some (0, x.2)
      | none   => (search r w).map fun x => (x.1 + 1, x.2)

/-- `x` is matched between `u` and `v`, nowhere further left, and nothing longer is matched there. -/
structure Found (r : Regex α) (u x v : List α) : Prop where
  mem      : x ∈ r.lang
  leftmost : ∀ u' x' v', u' ++ x' ++ v' = u ++ x ++ v → x' ∈ r.lang → u.length ≤ u'.length
  longest  : ∀ x' v', x' ++ v' = x ++ v → x' ∈ r.lang → x'.length ≤ x.length

theorem ruleOf_one {r : Regex α} {w : List α} : ruleOf [(r, ())] w = none ↔ w ∉ r.lang := by
  simp [ruleOf_eq_none]

/-- A match at the front. -/
theorem found_of_munch {r : Regex α} {w : List α} {n : Nat} (h : munch [(r, ())] w = some ((), n)) :
    n ≤ w.length ∧ Found r [] (w.take n) (w.drop n) := by
  obtain ⟨hle, hrule, hlong⟩ := munch_eq_some_iff.mp h
  obtain ⟨r', hr', hmem⟩ := mem_of_ruleOf hrule
  obtain rfl : r' = r := by simpa using hr'
  refine ⟨hle, hmem, fun _ _ _ _ _ => Nat.zero_le _, ?_⟩
  intro x' v' hw hx'
  rw [List.take_append_drop] at hw
  rw [List.length_take, Nat.min_eq_left hle]
  by_contra hlt
  have hnone := hlong x'.length (by omega) (by rw [← hw]; simp)
  rw [← hw, List.take_left] at hnone
  exact ruleOf_one.mp hnone hx'

/-- No match at the front. -/
theorem not_mem_of_munch {r : Regex α} {w : List α} (h : munch [(r, ())] w = none) {x v : List α}
    (hw : x ++ v = w) : x ∉ r.lang := by
  have hnone := munch_eq_none_iff.mp h x.length (by rw [← hw]; simp)
  rw [← hw, List.take_left] at hnone
  exact ruleOf_one.mp hnone

/-- **What is found.** -/
theorem search_eq_some {r : Regex α} {w : List α} {i n : Nat} (h : search r w = some (i, n)) :
    ∃ u x v, w = u ++ x ++ v ∧ i = u.length ∧ n = x.length ∧ Found r u x v := by
  induction w generalizing i with
  | nil =>
      obtain ⟨⟨⟨⟩, m⟩, hm, hi⟩ := Option.map_eq_some_iff.mp h
      obtain ⟨rfl, rfl⟩ := Prod.mk.inj hi
      obtain ⟨hle, hfound⟩ := found_of_munch hm
      obtain rfl : m = 0 := by simpa using hle
      exact ⟨[], [], [], rfl, rfl, rfl, hfound⟩
  | cons a w ih =>
      unfold search at h
      cases hm : munch [(r, ())] (a :: w) with
      | some x =>
          obtain ⟨⟨⟩, m⟩ := x
          rw [hm] at h
          obtain ⟨rfl, rfl⟩ := Prod.mk.inj (Option.some.inj h)
          obtain ⟨hle, hfound⟩ := found_of_munch hm
          refine ⟨[], (a :: w).take m, (a :: w).drop m, by simp, rfl, ?_, hfound⟩
          rw [List.length_take, Nat.min_eq_left hle]
      | none =>
          rw [hm] at h
          obtain ⟨⟨j, m⟩, hj, hi⟩ := Option.map_eq_some_iff.mp h
          obtain ⟨rfl, rfl⟩ := Prod.mk.inj hi
          obtain ⟨u, x, v, rfl, rfl, rfl, hfound⟩ := ih hj
          refine ⟨a :: u, x, v, rfl, rfl, rfl, hfound.mem, ?_, hfound.longest⟩
          intro u' x' v' hw hx'
          cases u' with
          | nil => exact absurd hx' (not_mem_of_munch hm hw)
          | cons b u' =>
              simp only [List.cons_append, List.cons.injEq] at hw
              simpa using hfound.leftmost u' x' v' hw.2 hx'

/-- Nothing is found. -/
theorem search_eq_none {r : Regex α} {w : List α} (h : search r w = none) {u x v : List α}
    (hw : w = u ++ x ++ v) : x ∉ r.lang := by
  induction w generalizing u with
  | nil =>
      obtain ⟨rfl, rfl, rfl⟩ : u = [] ∧ x = [] ∧ v = [] := by simpa [and_assoc] using hw.symm
      have hnone : munch [(r, ())] [] = none := Option.map_eq_none_iff.mp h
      exact not_mem_of_munch hnone rfl
  | cons a w ih =>
      unfold search at h
      cases hm : munch [(r, ())] (a :: w) with
      | some y => simp [hm] at h
      | none =>
          rw [hm] at h
          cases u with
          | nil => exact not_mem_of_munch hm hw.symm
          | cons b u =>
              simp only [List.cons_append, List.cons.injEq] at hw
              exact ih (Option.map_eq_none_iff.mp h) hw.2

end Lex
end CSamples
