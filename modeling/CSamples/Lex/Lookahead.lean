import Mathlib.Data.List.Basic

/-!
# `Lex.Lookahead` — scanners that need `k` symbols to start a token

A scanner that refuses to start a token while fewer than `k` symbols are left, keeps those for later and
starts again in front of them when more input has come. Its tokens are at most `k` symbols long, so each is
decided by symbols that are there: what it makes of a stream does not depend on where the stream was cut.

## Contents
- `Lookahead`: the token function with the bounds it must keep; `scan`, its outputs over a whole input, and
  `rest`, the symbols it keeps.
- `scan_append` and `rest_append`: more input is scanned from the kept symbols on.
-/

namespace CSamples
namespace Lex

/-- A token function: the output for a token and the token's length, from `need` symbols. -/
structure Lookahead (α β : Type) where
  need  : Nat
  token : List α → β × Nat
  pos   : ∀ w, 0 < (token w).2
  le    : ∀ w, (token w).2 ≤ need
  prefixed : ∀ u v, need ≤ u.length → token (u ++ v) = token u

namespace Lookahead

variable {α β : Type}

theorem need_pos (L : Lookahead α β) : 0 < L.need := Nat.lt_of_lt_of_le (L.pos []) (L.le [])

/-- The outputs for the tokens of `w`. -/
def scan (L : Lookahead α β) (w : List α) : List β :=
  if w.length < L.need then [] else (L.token w).1 :: scan L (w.drop (L.token w).2)
  termination_by w.length
  decreasing_by
    have := L.pos w
    have := L.need_pos
    rw [List.length_drop]
    omega

/-- The symbols that are kept for later. -/
def rest (L : Lookahead α β) (w : List α) : List α :=
  if w.length < L.need then w else rest L (w.drop (L.token w).2)
  termination_by w.length
  decreasing_by
    have := L.pos w
    have := L.need_pos
    rw [List.length_drop]
    omega

theorem scan_of_lt {L : Lookahead α β} {w : List α} (h : w.length < L.need) : L.scan w = [] := by
  rw [scan, if_pos h]

theorem rest_of_lt {L : Lookahead α β} {w : List α} (h : w.length < L.need) : L.rest w = w := by
  rw [rest, if_pos h]

theorem scan_of_le {L : Lookahead α β} {w : List α} (h : L.need ≤ w.length) :
    L.scan w = (L.token w).1 :: L.scan (w.drop (L.token w).2) := by
  rw [scan, if_neg (Nat.not_lt.mpr h)]

theorem rest_of_le {L : Lookahead α β} {w : List α} (h : L.need ≤ w.length) :
    L.rest w = L.rest (w.drop (L.token w).2) := by
  rw [rest, if_neg (Nat.not_lt.mpr h)]

/-- Fewer than `need` symbols are kept. -/
theorem rest_length_lt (L : Lookahead α β) (w : List α) : (L.rest w).length < L.need := by
  induction w using rest.induct (L := L) with
  | case1 w h => rw [rest_of_lt h]; exact h
  | case2 w h ih => rw [rest_of_le (Nat.not_lt.mp h)]; exact ih

/-- Behind a token nothing changes when more input comes. -/
theorem drop_token_append {L : Lookahead α β} {u v : List α} (h : L.need ≤ u.length) :
    (u ++ v).drop (L.token (u ++ v)).2 = u.drop (L.token u).2 ++ v := by
  rw [L.prefixed u v h, List.drop_append_of_le_length (Nat.le_trans (L.le u) h)]

/-- **More input**: what was kept is scanned again, with what came. -/
theorem scan_append (L : Lookahead α β) (u v : List α) :
    L.scan (u ++ v) = L.scan u ++ L.scan (L.rest u ++ v) := by
  induction u using rest.induct (L := L) with
  | case1 u h => rw [scan_of_lt h, rest_of_lt h, List.nil_append]
  | case2 u h ih =>
      have hle := Nat.not_lt.mp h
      have hle' : L.need ≤ (u ++ v).length := by
        rw [List.length_append]
        exact Nat.le_add_right_of_le hle
      rw [scan_of_le hle, rest_of_le hle, scan_of_le hle', drop_token_append hle, ih, L.prefixed u v hle]
      rfl

theorem rest_append (L : Lookahead α β) (u v : List α) : L.rest (u ++ v) = L.rest (L.rest u ++ v) := by
  induction u using rest.induct (L := L) with
  | case1 u h => rw [rest_of_lt h]
  | case2 u h ih =>
      have hle := Nat.not_lt.mp h
      have hle' : L.need ≤ (u ++ v).length := by
        rw [List.length_append]
        exact Nat.le_add_right_of_le hle
      rw [rest_of_le hle, rest_of_le hle', drop_token_append hle, ih]

end Lookahead
end Lex
end CSamples
