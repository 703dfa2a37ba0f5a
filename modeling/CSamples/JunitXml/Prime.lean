import Mathlib.Data.Nat.Prime.Basic
import Mathlib.Tactic.Ring
import Mathlib.Tactic.Linarith

/-!
# `JunitXml.Prime` — `is_prime`

`is_prime` of `junit_xml/pytest/prime.py` divides an odd number by the odd numbers up to its root. The invariant of
the loop is that the least factor of the number has not been passed.

## Contents
- **Model.** `isPrime` and its loop, which ends because the square of the divisor grows.
- **The loop.** One round for each way the divisor can turn out, and `divisorLoop_iff` from them by induction.
- `isPrime_iff`: it decides primality.
-/

namespace CSamples
namespace JunitXml

/-! ## The model -/

/-- The square of the divisor gets nearer to the number: the loop ends. -/
theorem square_grows {n : Int} {i : Nat} (h : (i * i : Int) ≤ n) :
    (n + 1 - ((i + 2 : Nat) : Int) * ((i + 2 : Nat) : Int)).toNat < (n + 1 - (i : Int) * i).toNat := by
  have hpos : (0 : Int) ≤ i := Int.natCast_nonneg i
  have hsquare : ((i + 2 : Nat) : Int) * ((i + 2 : Nat) : Int) = i * i + 4 * i + 4 := by
    push_cast
    ring
  rw [hsquare]
  omega

/-- `while i * i <= n: ...`, from the divisor `i` on. -/
def divisorLoop (n : Int) (i : Nat) : Bool :=
  if (i * i : Int) ≤ n then
    if n % i = 0 then false
    else divisorLoop n (i + 2)
  else true
  termination_by (n + 1 - (i : Int) * i).toNat
  decreasing_by exact square_grows ‹_›

/-- `is_prime` -/
def isPrime (n : Int) : Bool :=
  if n ≤ 1 then false
  else if n = 2 then true
  else if n % 2 = 0 then false
  else divisorLoop n 3

/-! ## The loop -/

variable {n i : Nat}

/-- Past the root, a number whose least factor has not been met is prime. -/
theorem prime_of_root_passed (hn : 1 < n) (hle : i ≤ n.minFac) (hroot : n < i * i) : n.Prime := by
  by_contra hprime
  have hfactor : n.minFac ^ 2 ≤ n := Nat.minFac_sq_le_self (by omega) hprime
  have hsquare : i * i ≤ n.minFac ^ 2 := by
    rw [pow_two]
    exact Nat.mul_le_mul hle hle
  omega

/-- A divisor up to the root is a proper one. -/
theorem not_prime_of_divisor (hi : 1 < i) (hroot : i * i ≤ n) (hdvd : i ∣ n) : ¬ n.Prime := by
  intro hprime
  rcases (Nat.dvd_prime hprime).mp hdvd with h | h
  · omega
  · subst h
    have : i * 1 < i * i := Nat.mul_lt_mul_of_pos_left hi (by omega)
    omega

/-- The step: where an odd divisor does not divide an odd number, the least factor is at or above the next one. -/
theorem minFac_of_not_dvd (hn : n % 2 = 1) (hi : i % 2 = 1) (hle : i ≤ n.minFac) (hdvd : ¬ i ∣ n) :
    i + 2 ≤ n.minFac := by
  have hfactor : n.minFac ∣ n := n.minFac_dvd
  have hne : n.minFac ≠ i := by
    intro h
    exact hdvd (h ▸ hfactor)
  have hodd : n.minFac % 2 = 1 := by
    by_contra heven
    have h2 : 2 ∣ n := (Nat.dvd_of_mod_eq_zero (by omega)).trans hfactor
    omega
  omega

/-- **The loop** decides whether an odd number is prime, from any odd divisor that is not above its least factor. -/
theorem divisorLoop_iff (hone : 1 < n) (hn : n % 2 = 1) (h3 : 1 < i) (hi : i % 2 = 1) (hle : i ≤ n.minFac) :
    divisorLoop n i = true ↔ n.Prime := by
  -- On the loop's own recursion: the least factor is never passed.
  induction i using divisorLoop.induct (n : Int) with
  | case1 i hroot hmod =>
    have hdvd : i ∣ n := by
      have := Int.dvd_of_emod_eq_zero hmod
      exact_mod_cast this
    have hroot' : i * i ≤ n := by exact_mod_cast hroot
    rw [divisorLoop, if_pos hroot, if_pos hmod]
    simp only [Bool.false_eq_true, false_iff]
    exact not_prime_of_divisor h3 hroot' hdvd
  | case2 i hroot hmod ih =>
    have hdvd : ¬ i ∣ n := by
      intro h
      apply hmod
      exact Int.emod_eq_zero_of_dvd (by exact_mod_cast h)
    rw [divisorLoop, if_pos hroot, if_neg hmod]
    apply ih (by omega) (by omega)
    exact minFac_of_not_dvd hn hi hle hdvd
  | case3 i hroot =>
    have hroot' : n < i * i := by
      have := lt_of_not_ge hroot
      exact_mod_cast this
    rw [divisorLoop, if_neg hroot]
    simp only [true_iff]
    exact prime_of_root_passed hone hle hroot'

/-! ## The result -/

/-- The least factor of an odd number is at least three. -/
theorem three_le_minFac (hone : 1 < n) (hn : n % 2 = 1) : 3 ≤ n.minFac := by
  have hpos : 0 < n.minFac := n.minFac_pos
  have hone' : n.minFac ≠ 1 := by
    intro h
    have := Nat.minFac_eq_one_iff.mp h
    omega
  have htwo : n.minFac ≠ 2 := by
    intro h
    have := (Nat.minFac_eq_two_iff n).mp h
    omega
  omega

/-- **`is_prime` decides primality**: it ends for every integer, and it returns true for the prime numbers only. -/
theorem isPrime_iff (n : Int) : isPrime n = true ↔ ∃ p : Nat, p.Prime ∧ n = p := by
  unfold isPrime
  split_ifs with hone htwo heven
  · -- Up to one there is no prime.
    simp only [false_iff, not_exists, not_and]
    intro p hp h
    have := hp.two_le
    omega
  · simp only [true_iff]
    exact ⟨2, Nat.prime_two, htwo⟩
  · -- Two is the only even prime.
    simp only [false_iff, not_exists, not_and]
    intro p hp h
    rcases hp.eq_two_or_odd with h2 | hodd
    · subst h2
      exact htwo h
    · omega
  · lift n to Nat using by omega
    have hn : 1 < n := by omega
    rw [divisorLoop_iff hn (by omega) (by omega) rfl (three_le_minFac hn (by omega))]
    constructor
    · intro hp
      exact ⟨n, hp, rfl⟩
    · rintro ⟨p, hp, h⟩
      rwa [Int.natCast_inj.mp h]

/-- The square of a prime is the last number its divisor is tried on. -/
example : isPrime 9 = false ∧ isPrime 11 = true := by
  simp [isPrime, divisorLoop]

end JunitXml
end CSamples
