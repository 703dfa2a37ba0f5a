import Mathlib.Data.Nat.Basic
import Mathlib.Data.List.Basic

/-!
# `Numeral.Horner` — numerals read from the left

The number that digits denote in a base, and the loop that computes it in an accumulator of bounded size: modulo
`M + 1`, with a flag that a step which exceeds `M` sets and no step clears.

## Contents
- `horner`, with its order: it grows with its digits, and never falls below what it started with.
- `exceeds_iff`: the test by division that a step can make without exceeding `M` itself.
- `bounded_spec`: the flag and the accumulator at the end.
-/

namespace CSamples
namespace Numeral

/-- The number that digits denote, behind digits that denote `n`. -/
def horner (base n : Nat) : List Nat → Nat
  | []      => n
  | d :: ds => horner base (n * base + d) ds

variable {M base : Nat}

theorem horner_append (n : Nat) (ds es : List Nat) : horner base n (ds ++ es) = horner base (horner base n ds) es := by
  induction ds generalizing n with
  | nil => rfl
  | cons d ds ih => exact ih _

theorem le_horner (hbase : 1 ≤ base) (n : Nat) (ds : List Nat) : n ≤ horner base n ds := by
  induction ds generalizing n with
  | nil => exact Nat.le_refl n
  | cons d ds ih =>
      calc n ≤ n * base := Nat.le_mul_of_pos_right n hbase
        _ ≤ n * base + d := Nat.le_add_right _ _
        _ ≤ horner base (n * base + d) ds := ih _

/-- Larger digits denote a larger number. -/
theorem horner_le {ds es : List Nat} (h : List.Forall₂ (· ≤ ·) ds es) {n m : Nat} (hnm : n ≤ m) :
    horner base n ds ≤ horner base m es := by
  induction h generalizing n m with
  | nil => exact hnm
  | cons hd _ ih => exact ih (Nat.add_le_add (Nat.mul_le_mul_right base hnm) hd)

/-- A larger start is still larger at the end. -/
theorem horner_lt (hbase : 1 ≤ base) {ds es : List Nat} (h : List.Forall₂ (· ≤ ·) ds es) {n m : Nat} (hnm : n < m) :
    horner base n ds < horner base m es := by
  induction h generalizing n m with
  | nil => exact hnm
  | cons hd _ ih =>
      refine ih (Nat.add_lt_add_of_lt_of_le ?_ hd)
      exact Nat.mul_lt_mul_of_pos_right hnm hbase

/-- **A step exceeds `M`** exactly when the accumulator exceeds this quotient. -/
theorem exceeds_iff (hbase : 1 ≤ base) {n d : Nat} (hd : d ≤ M) : (M - d) / base < n ↔ M < n * base + d := by
  rw [Nat.div_lt_iff_lt_mul hbase]
  omega

/-- The loop with the accumulator modulo `M + 1` and the flag. -/
def bounded (M base : Nat) : List Nat → Nat × Bool → Nat × Bool
  | [], x      => x
  | d :: ds, x => bounded M base ds ((x.1 * base + d) % (M + 1), x.2 || decide ((M - d) / base < x.1))

/-- The flag stays set. -/
theorem bounded_true (ds : List Nat) (n : Nat) : (bounded M base ds (n, true)).2 = true := by
  induction ds generalizing n with
  | nil => rfl
  | cons d ds ih =>
      rw [bounded, Bool.true_or]
      exact ih _

/-- **The loop is exact**: the flag tells whether the number exceeds `M`, and where it does not the accumulator is the
    number. -/
theorem bounded_spec (hbase : 1 ≤ base) {ds : List Nat} (hds : ∀ d ∈ ds, d ≤ M) {n : Nat} (hn : n ≤ M) :
    ((bounded M base ds (n, false)).2 = true ↔ M < horner base n ds) ∧
      (horner base n ds ≤ M → (bounded M base ds (n, false)).1 = horner base n ds) := by
  induction ds generalizing n with
  | nil => exact ⟨iff_of_false Bool.false_ne_true (Nat.not_lt.mpr hn), fun _ => rfl⟩
  | cons d ds ih =>
      have hexceeds := exceeds_iff hbase (n := n) (hds d (List.mem_cons_self ..))
      rw [bounded, horner, Bool.false_or]
      by_cases hover : M < n * base + d
      · -- set here, for good
        have hgt : M < horner base (n * base + d) ds := Nat.lt_of_lt_of_le hover (le_horner hbase _ ds)
        rw [decide_eq_true (hexceeds.mpr hover)]
        exact ⟨iff_of_true (bounded_true ds _) hgt, fun hle => absurd hgt (Nat.not_lt.mpr hle)⟩
      · have hle : n * base + d ≤ M := Nat.not_lt.mp hover
        rw [decide_eq_false (mt hexceeds.mp hover), Nat.mod_eq_of_lt (Nat.lt_succ_of_le hle)]
        exact ih (fun e he => hds e (List.mem_cons_of_mem d he)) hle

end Numeral
end CSamples
