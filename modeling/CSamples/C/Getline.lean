import Mathlib.Data.List.Basic

/-!
# `C.Getline` — the buffers of `getline`

`getline(&ptr, &n, fp)` trusts `n`, the stated size of the buffer `ptr`. Without a buffer it allocates one, with one
that is stated too small it grows it, and it updates `n`; with any other it changes neither.

## Contents
- `Getline`: the sizes an implementation chooses; `Getline.call`, what a call does to `ptr` and `n`.
- `GetlineCall`: what a call was given and what it wrote. `call_backed` and `written_le`: a call on a backed size leaves
  one and writes within the buffer.
-/

namespace CSamples
namespace C

/-- The sizes that an implementation chooses: in a call with a number, for a stated size (0 without a buffer) that is
    too small for what is needed; and whether it allocates at the end of the file. -/
structure Getline where
  size      : Nat → Nat → Nat → Nat
  eofAllocs : Bool
  need_le   : ∀ k n need, need ≤ size k n need

/-- The bytes allocated for `ptr`, none for `NULL`, and `n`, behind call number `k`: for a line that needs so many
    bytes with its NUL, or at the end of the file. -/
def Getline.call (g : Getline) (k : Nat) (ptr : Option Nat) (n : Nat) : Option Nat → Option Nat × Nat
  | none =>
      match ptr with
      | none   => if g.eofAllocs then (some (g.size k 0 1), g.size k 0 1) else (none, n)
      | some a => (some a, n)
  | some need =>
      match ptr with
      | none   => (some (g.size k 0 need), g.size k 0 need)
      | some a => if need ≤ n then (some a, n) else (some (g.size k n need), g.size k n need)

/-- What a call was given, the bytes it wrote and the buffer it wrote them to. -/
structure GetlineCall where
  allocated : Option Nat
  stated    : Nat
  written   : Nat
  buffer    : Option Nat
  deriving DecidableEq, Repr

/-- The stated size is at most the allocated one. -/
def Backed (ptr : Option Nat) (n : Nat) : Prop := ∀ a ∈ ptr, n ≤ a

instance (ptr : Option Nat) (n : Nat) : Decidable (Backed ptr n) := inferInstanceAs (Decidable (∀ a ∈ ptr, n ≤ a))

/-- The call as it is recorded. -/
def Getline.record (g : Getline) (k : Nat) (ptr : Option Nat) (n : Nat) (need : Option Nat) : GetlineCall :=
  ⟨ptr, n, need.getD 0, (g.call k ptr n need).1⟩

/-- Any number of calls on one buffer. -/
def Getline.calls (g : Getline) : Nat → Option Nat → Nat → List (Option Nat) → Option Nat × Nat
  | _, ptr, n, []            => (ptr, n)
  | k, ptr, n, need :: needs =>
      let r := g.call k ptr n need
      g.calls (k + 1) r.1 r.2 needs

theorem backed_none (n : Nat) : Backed none n := fun _ h => absurd h (by simp)

theorem backed_some {a n : Nat} : Backed (some a) n ↔ n ≤ a := by simp [Backed]

theorem call_fits (g : Getline) (k : Nat) {n need : Nat} (h : need ≤ n) (a : Nat) :
    g.call k (some a) n (some need) = (some a, n) := if_pos h

theorem call_grows (g : Getline) (k : Nat) {n need : Nat} (h : ¬need ≤ n) (a : Nat) :
    g.call k (some a) n (some need) = (some (g.size k n need), g.size k n need) := if_neg h

/-- **A call on a backed size** leaves one. -/
theorem call_backed {g : Getline} (k : Nat) {ptr : Option Nat} {n : Nat} (need : Option Nat) (h : Backed ptr n) :
    Backed (g.call k ptr n need).1 (g.call k ptr n need).2 := by
  cases ptr with
  | none =>
      cases need with
      | none =>
          unfold Getline.call
          split_ifs
          · exact backed_some.mpr (Nat.le_refl _)
          · exact h
      | some need => exact backed_some.mpr (Nat.le_refl _)
  | some a =>
      cases need with
      | none => exact h
      | some need =>
          by_cases hfits : need ≤ n
          · rw [call_fits g k hfits]
            exact h
          · rw [call_grows g k hfits]
            exact backed_some.mpr (Nat.le_refl _)

/-- It writes within its buffer. -/
theorem written_le {g : Getline} (k : Nat) {ptr : Option Nat} {n : Nat} (need : Option Nat) (h : Backed ptr n) :
    Backed (g.record k ptr n need).buffer (g.record k ptr n need).written := by
  cases need with
  | none => exact fun _ _ => Nat.zero_le _
  | some need =>
      show Backed (g.call k ptr n (some need)).1 need
      cases ptr with
      | none => exact backed_some.mpr (g.need_le k 0 need)
      | some a =>
          by_cases hfits : need ≤ n
          · rw [call_fits g k hfits]
            exact backed_some.mpr (Nat.le_trans hfits (backed_some.mp h))
          · rw [call_grows g k hfits]
            exact backed_some.mpr (g.need_le k n need)

end C
end CSamples
