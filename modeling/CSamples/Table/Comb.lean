import Mathlib.Data.List.Basic
import Mathlib.Data.List.Nodup
import Mathlib.Logic.Function.Basic

/-!
# `Table.Comb` — rows that share one table

Row displacement: many sparse rows are laid over one table of cells, each at an offset of its own, and every cell
records the column that it was written for. A row is read back at its offset: a cell counts only if its column is the
one asked for.

## Contents
- `get`, `put` and `rowGet`: read a column of a row, lay a row down, look a column up in the row itself.
- `get_put_self`: a row laid where nothing can be read is read back. `get_put_other`: no other offset sees it, if the
  cells were empty.
-/

namespace CSamples
namespace Comb

variable {α : Type}

/-- The cells: the column a cell is for, and its value. -/
abbrev Cells (α : Type) := Int → Option (Int × α)

/-- Read the column `x` of the row at offset `o`. -/
def get (c : Cells α) (o x : Int) : Option α := (c (o + x)).bind (fun e => if e.1 = x then some e.2 else none)

/-- Lay a row down at offset `o`. -/
def put (o : Int) : List (Int × α) → Cells α → Cells α
  | [], c        => c
  | e :: row, c  => put o row (Function.update c (o + e.1) (some e))

/-- The column `x` of a row. Of several entries for a column the last one counts. -/
def rowGet : List (Int × α) → Int → Option α
  | [], _        => none
  | e :: row, x  => (rowGet row x).or (if e.1 = x then some e.2 else none)

/-! ## Reading -/

theorem get_eq_some {c : Cells α} {o x : Int} {a : α} : get c o x = some a ↔ c (o + x) = some (x, a) := by
  unfold get
  constructor
  · intro h
    obtain ⟨e, he, hif⟩ := Option.bind_eq_some_iff.mp h
    split at hif
    · next hx =>
        obtain rfl := Option.some.inj hif
        rw [he, ← hx]
    · exact absurd hif (by simp)
  · intro h
    rw [h, Option.bind_some, if_pos rfl]

theorem rowGet_eq_none {row : List (Int × α)} {x : Int} : rowGet row x = none ↔ ∀ e ∈ row, e.1 ≠ x := by
  induction row with
  | nil => simp [rowGet]
  | cons e row ih => simp [rowGet, ih, and_comm]

theorem mem_of_rowGet {row : List (Int × α)} {x : Int} {a : α} (h : rowGet row x = some a) : (x, a) ∈ row := by
  induction row with
  | nil => exact absurd h (by simp [rowGet])
  | cons e row ih =>
      rw [rowGet] at h
      rcases Option.or_eq_some_iff.mp h with h | ⟨-, h⟩
      · exact List.mem_cons_of_mem e (ih h)
      · split at h
        · next hx =>
            obtain rfl := Option.some.inj h
            subst hx
            exact List.mem_cons_self
        · exact absurd h (by simp)

/-! ## Laying a row down -/

/-- The cell of a column holds the row's last entry for it. -/
theorem put_apply (o x : Int) (row : List (Int × α)) (c : Cells α) :
    put o row c (o + x) = ((rowGet row x).map (fun a => (x, a))).or (c (o + x)) := by
  induction row generalizing c with
  | nil => rfl
  | cons e row ih =>
      rw [put, ih, rowGet]
      cases rowGet row x with
      | some a => rfl
      | none =>
          simp only [Option.map_none, Option.none_or]
          by_cases hx : e.1 = x
          · subst hx
            rw [Function.update_self, if_pos rfl]
            rfl
          · rw [Function.update_of_ne (by omega), if_neg hx]
            rfl

/-- **A row is read back** at an offset where nothing could be read before. -/
theorem get_put_self {c : Cells α} {o : Int} (hfree : ∀ x, get c o x = none) (row : List (Int × α)) (x : Int) :
    get (put o row c) o x = rowGet row x := by
  unfold get
  rw [put_apply]
  cases hget : rowGet row x with
  | some a => simp
  | none => exact hfree x

/-- **Other offsets do not see the row**, if its cells were empty. -/
theorem get_put_other {c : Cells α} {o o' : Int} (ho : o' ≠ o) {row : List (Int × α)}
    (hempty : ∀ e ∈ row, c (o + e.1) = none) (x : Int) : get (put o row c) o' x = get c o' x := by
  unfold get
  have hcell := put_apply o (o' + x - o) row c
  rw [show o + (o' + x - o) = o' + x by omega] at hcell
  rw [hcell]
  cases hget : rowGet row (o' + x - o) with
  | none => rfl
  | some a =>
      have he := hempty _ (mem_of_rowGet hget)
      rw [show o + (o' + x - o) = o' + x by omega] at he
      rw [he, Option.map_some, Option.some_or, Option.bind_some, if_neg (by simp only; omega)]
      rfl

/-- A row laid over itself changes nothing. -/
theorem put_of_same {c : Cells α} {o : Int} {row : List (Int × α)} (hsame : ∀ e ∈ row, c (o + e.1) = some e) :
    put o row c = c := by
  induction row with
  | nil => rfl
  | cons e row ih =>
      have hupd : Function.update c (o + e.1) (some e) = c := by
        rw [← hsame e List.mem_cons_self]
        exact Function.update_eq_self _ c
      rw [put, hupd]
      exact ih (fun e' he' => hsame e' (List.mem_cons_of_mem e he'))

end Comb
end CSamples
