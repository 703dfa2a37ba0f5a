import Mathlib.Data.List.Basic

/-!
# `Text.Lines` — cutting a stream at a separator

`lines sep w` are the segments of `w` that a separator ends, without it; `rest sep w` is what follows the
last separator. `lines_append`/`rest_append` are the facts a receiver that keeps only the unfinished
segment between two reads relies on: nothing before it matters any more.
-/

namespace CSamples
namespace Text

variable {α : Type} [DecidableEq α]

/-- The segments ended by `sep`, in order. -/
def lines (sep : α) : List α → List (List α)
  | []     => []
  | a :: w =>
      if a = sep then [] :: lines sep w
      else match lines sep w with
        | []      => []
        | l :: ls => (a :: l) :: ls

/-- The symbols after the last `sep`. -/
def rest (sep : α) : List α → List α
  | []     => []
  | a :: w => if sep ∈ a :: w then rest sep w else a :: w

variable {sep : α}

@[simp] theorem lines_nil : lines sep [] = [] := rfl
@[simp] theorem rest_nil : rest sep [] = [] := rfl

@[simp] theorem lines_sep_cons (w : List α) : lines sep (sep :: w) = [] :: lines sep w := by
  simp [lines]

@[simp] theorem rest_sep_cons (w : List α) : rest sep (sep :: w) = rest sep w := by
  simp [rest]

theorem lines_eq_nil_iff {w : List α} : lines sep w = [] ↔ sep ∉ w := by
  induction w with
  | nil => simp
  | cons a w ih =>
      unfold lines
      by_cases ha : a = sep
      · simp [ha]
      · rw [if_neg ha]
        have hiff : sep ∉ a :: w ↔ sep ∉ w := by simp [Ne.symm ha]
        rw [hiff, ← ih]
        split
        · next h => simp [h]
        · next h => simp [h]

theorem rest_of_not_mem {w : List α} (h : sep ∉ w) : rest sep w = w := by
  cases w with
  | nil => rfl
  | cons a w => rw [rest, if_neg h]

theorem sep_not_mem_rest (w : List α) : sep ∉ rest sep w := by
  induction w with
  | nil => simp
  | cons a w ih =>
      unfold rest
      by_cases h : sep ∈ a :: w
      · rw [if_pos h]
        exact ih
      · rw [if_neg h]
        exact h

/-- What remains after the last separator is a suffix. -/
theorem rest_suffix (w : List α) : rest sep w <:+ w := by
  induction w with
  | nil => exact List.suffix_refl _
  | cons a w ih =>
      unfold rest
      by_cases h : sep ∈ a :: w
      · rw [if_pos h]
        exact ih.trans (List.suffix_cons a w)
      · exact (if_neg h).symm ▸ List.suffix_refl (a :: w)

/-- **Only the unfinished segment matters for the segments to come.** -/
theorem lines_append (u v : List α) : lines sep (u ++ v) = lines sep u ++ lines sep (rest sep u ++ v) := by
  induction u with
  | nil => simp
  | cons a u ih =>
      by_cases ha : a = sep
      · subst ha
        simp [ih]
      · by_cases hu : sep ∈ u
        · -- the head of `u`'s first segment grows by `a`
          obtain ⟨l, ls, hl⟩ : ∃ l ls, lines sep u = l :: ls := by
            cases h : lines sep u with
            | nil => exact absurd hu (lines_eq_nil_iff.mp h)
            | cons l ls => exact ⟨l, ls, rfl⟩
          have hr : rest sep (a :: u) = rest sep u := by
            rw [rest, if_pos (List.mem_cons_of_mem a hu)]
          rw [hr, List.cons_append, lines, if_neg ha, ih, lines, if_neg ha, hl]
          rfl
        · have hau : sep ∉ a :: u := by simp [Ne.symm ha, hu]
          rw [lines_eq_nil_iff.mpr hau, rest_of_not_mem hau, List.nil_append]

/-- **The unfinished segment of a longer stream comes from the unfinished segment so far.** -/
theorem rest_append (u v : List α) : rest sep (u ++ v) = rest sep (rest sep u ++ v) := by
  induction u with
  | nil => rfl
  | cons a u ih =>
      by_cases hau : sep ∈ a :: u
      · have hmem : sep ∈ a :: (u ++ v) := by
          rw [← List.cons_append]
          exact List.mem_append_left v hau
        rw [List.cons_append, rest, if_pos hmem, ih, rest, if_pos hau]
      · rw [rest_of_not_mem hau]

theorem mem_lines_of_rest {u v l : List α} (h : l ∈ lines sep (rest sep u ++ v)) : l ∈ lines sep (u ++ v) := by
  rw [lines_append]
  exact List.mem_append_right _ h

theorem mem_lines_append {u v l : List α} (h : l ∈ lines sep u) : l ∈ lines sep (u ++ v) := by
  rw [lines_append]
  exact List.mem_append_left _ h

/-- A segment without the separator, then the separator. -/
theorem lines_segment {u : List α} (hu : sep ∉ u) (v : List α) :
    lines sep (u ++ sep :: v) = u :: lines sep v := by
  induction u with
  | nil => simp
  | cons a u ih =>
      have ha : a ≠ sep := fun h => hu (by simp [h])
      have hu' : sep ∉ u := fun h => hu (List.mem_cons_of_mem a h)
      rw [List.cons_append, lines, if_neg ha, ih hu']

theorem rest_segment (u v : List α) : rest sep (u ++ sep :: v) = rest sep v := by
  induction u with
  | nil => simp
  | cons a u ih => rw [List.cons_append, rest, if_pos (by simp), ih]

/-- Segments hold no separator. -/
theorem sep_not_mem_of_mem_lines {w l : List α} (h : l ∈ lines sep w) : sep ∉ l := by
  induction w generalizing l with
  | nil => simp at h
  | cons a w ih =>
      unfold lines at h
      by_cases ha : a = sep
      · rw [if_pos ha] at h
        rcases List.mem_cons.mp h with rfl | h
        · simp
        · exact ih h
      · rw [if_neg ha] at h
        cases hw : lines sep w with
        | nil => simp [hw] at h
        | cons m ms =>
            rw [hw] at h ih
            rcases List.mem_cons.mp h with rfl | h
            · have hm := ih (List.mem_cons_self ..)
              simp [Ne.symm ha, hm]
            · exact ih (List.mem_cons_of_mem _ h)

/-- **Nothing is lost**: the segments with their separators, and the rest, are the stream. -/
theorem unlines_append_rest (w : List α) :
    (lines sep w).flatMap (· ++ [sep]) ++ rest sep w = w := by
  induction w with
  | nil => rfl
  | cons a w ih =>
      by_cases ha : a = sep
      · subst ha
        simp [ih]
      · by_cases hw : sep ∈ w
        · have hr : rest sep (a :: w) = rest sep w := by
            rw [rest, if_pos (List.mem_cons_of_mem a hw)]
          rw [hr, lines, if_neg ha]
          cases hl : lines sep w with
          | nil => exact absurd hw (lines_eq_nil_iff.mp hl)
          | cons l ls =>
              rw [hl] at ih
              simpa using ih
        · have haw : sep ∉ a :: w := by simp [Ne.symm ha, hw]
          rw [lines_eq_nil_iff.mpr haw, rest_of_not_mem haw]
          rfl

/-- A segment stands in the stream, its separator behind it. -/
theorem infix_of_mem_lines {w l : List α} (h : l ∈ lines sep w) : l ++ [sep] <:+: w := by
  have hflat : ∀ ls : List (List α), l ∈ ls → l ++ [sep] <:+: ls.flatMap (· ++ [sep]) := by
    intro ls hl
    obtain ⟨xs, ys, hls⟩ := List.append_of_mem hl
    refine ⟨xs.flatMap (· ++ [sep]), ys.flatMap (· ++ [sep]), ?_⟩
    rw [hls, List.flatMap_append, List.flatMap_cons, List.append_assoc]
  rw [← @unlines_append_rest _ _ sep w]
  exact (hflat _ h).trans (List.prefix_append _ _).isInfix

example : lines 0 [1, 2, 0, 0, 3] = [[1, 2], []] ∧ rest 0 [1, 2, 0, 0, 3] = [3] := by decide

end Text
end CSamples
