import CSamples.C.Memory
import Mathlib.Tactic.Ring

/-!
# `C.Int` — arithmetic on `int`

The operators of C on 32-bit `int`, and `atoi`. An operation that C leaves undefined (overflow, division by
zero, a numeral out of range) gives `none`.
-/

namespace CSamples
namespace C

/-- The values of `int`. -/
def InInt (x : Int) : Prop := -2147483648 ≤ x ∧ x ≤ 2147483647

instance (x : Int) : Decidable (InInt x) := inferInstanceAs (Decidable (_ ∧ _))

/-- A result that must be an `int`. -/
def toInt (x : Int) : Option Int := if InInt x then some x else none

def add (x y : Int) : Option Int := toInt (x + y)
def sub (x y : Int) : Option Int := toInt (x - y)
def mul (x y : Int) : Option Int := toInt (x * y)

/-- `/` truncates. -/
def div (x y : Int) : Option Int := if y = 0 then none else toInt (x.tdiv y)

/-- `%` has the sign of the dividend, and is undefined where `/` is. -/
def mod (x y : Int) : Option Int := if y = 0 then none else (toInt (x.tdiv y)).map (fun _ => x.tmod y)

/-- Truncating division overflows only when it negates the smallest `int`. -/
theorem inInt_tdiv {x y : Int} (hx : InInt x) (hmin : ¬ (x = -2147483648 ∧ y = -1)) : InInt (x.tdiv y) := by
  have habs : (x.tdiv y).natAbs = x.natAbs / y.natAbs := Int.natAbs_tdiv x y
  obtain ⟨hlo, hhi⟩ := hx
  unfold InInt
  by_cases hneg : y = -1
  · subst hneg
    rw [Int.tdiv_neg, Int.tdiv_one]
    omega
  · by_cases hone : y = 1
    · subst hone
      rw [Int.tdiv_one]
      exact ⟨hlo, hhi⟩
    · have hle : (x.tdiv y).natAbs ≤ x.natAbs / 2 := by
        rw [habs]
        by_cases hzero : y = 0
        · subst hzero
          simp
        · exact Nat.div_le_div_left (by omega) (by omega)
      omega

/-! ## Numerals -/

/-- `isspace` in the C locale. -/
def isSpace (b : UInt8) : Bool := b == 0x20 || (0x09 ≤ b && b ≤ 0x0D)

def isDigit (b : UInt8) : Bool := ch '0' ≤ b && b ≤ ch '9'

/-- The number that digits stand for, behind digits that stand for `n`. -/
def digitsFrom (n : Nat) : List UInt8 → Nat
  | []      => n
  | b :: bs => digitsFrom (10 * n + (b.toNat - 48)) bs

/-- The number that digits stand for. -/
def decimal (bs : List UInt8) : Nat := digitsFrom 0 bs

/-- `atoi` on the bytes of a string: white space, a sign, digits. -/
def atoi (s : List UInt8) : Option Int :=
  match s.dropWhile isSpace with
  | []      => some 0
  | b :: bs =>
      if b = ch '-' then toInt (-(decimal (bs.takeWhile isDigit) : Int))
      else if b = ch '+' then toInt (decimal (bs.takeWhile isDigit))
      else toInt (decimal ((b :: bs).takeWhile isDigit))

theorem digitsFrom_ge (bs : List UInt8) (n : Nat) : n * 10 ^ bs.length ≤ digitsFrom n bs := by
  induction bs generalizing n with
  | nil =>
      show n * 10 ^ 0 ≤ n
      omega
  | cons b bs ih =>
      have hstep : n * 10 ^ (bs.length + 1) = 10 * n * 10 ^ bs.length := by ring
      have hmul : 10 * n * 10 ^ bs.length ≤ (10 * n + (b.toNat - 48)) * 10 ^ bs.length :=
        Nat.mul_le_mul_right _ (Nat.le_add_right _ _)
      rw [List.length_cons, hstep]
      exact Nat.le_trans hmul (ih _)

/-- The digits of an `int` that start with no zero are ten at most. -/
theorem length_le_of_inInt {b : UInt8} {bs : List UInt8} (hb : ch '1' ≤ b) (h : InInt (decimal (b :: bs))) :
    bs.length < 10 := by
  have hone : 1 ≤ 10 * 0 + (b.toNat - 48) := by
    have hb' : (ch '1').toNat ≤ b.toNat := UInt8.le_iff_toNat_le.mp hb
    have h49 : (ch '1').toNat = 49 := rfl
    omega
  have hle : 10 ^ bs.length ≤ decimal (b :: bs) := by
    calc 10 ^ bs.length = 1 * 10 ^ bs.length := (Nat.one_mul _).symm
      _ ≤ (10 * 0 + (b.toNat - 48)) * 10 ^ bs.length := Nat.mul_le_mul_right _ hone
      _ ≤ decimal (b :: bs) := digitsFrom_ge bs _
  by_contra hlen
  have hpow : 10 ^ 10 ≤ 10 ^ bs.length := Nat.pow_le_pow_right (by omega) (by omega)
  have hten : (10 : Nat) ^ 10 = 10000000000 := by norm_num
  have hmax := h.2
  omega

theorem takeWhile_isDigit {bs : List UInt8} (h : ∀ c ∈ bs, isDigit c = true) : bs.takeWhile isDigit = bs := by
  rw [← List.append_nil bs, List.takeWhile_append_of_pos h]
  rfl

/-- `atoi` of digits. -/
theorem atoi_digits {b : UInt8} {bs : List UInt8} (h : ∀ c ∈ b :: bs, isDigit c = true) :
    atoi (b :: bs) = toInt (decimal (b :: bs)) := by
  have hb := h b (List.mem_cons_self ..)
  have hspace : isSpace b = false := by
    revert hb
    simp only [isDigit, isSpace, Bool.and_eq_true, decide_eq_true_eq, UInt8.le_iff_toNat_le, beq_eq_false_iff_ne,
      Bool.or_eq_false_iff, Bool.and_eq_false_iff, decide_eq_false_iff_not, ne_eq, ← UInt8.toNat_inj]
    simp [ch]
    omega
  have hminus : b ≠ ch '-' := by
    rintro rfl
    exact absurd hb (by decide)
  have hplus : b ≠ ch '+' := by
    rintro rfl
    exact absurd hb (by decide)
  unfold atoi
  rw [List.dropWhile_cons_of_neg (by rw [hspace]; exact Bool.false_ne_true)]
  show (if b = ch '-' then _ else if b = ch '+' then _ else _) = _
  rw [if_neg hminus, if_neg hplus, takeWhile_isDigit h]

end C
end CSamples
