import CSamples.C.Int
import CSamples.Numeral.Horner

/-!
# `AnyParser.Util` — `is_digits`

`is_digits` of `any_parser/scanner/util.c` computes the number that the digits from `start` to `end` denote, in an
`unsigned long` of `w` bits. The value of a digit is its distance from `'0'`, which is wrong for the letters of base 16;
the test for overflow is exact on those values.

## Contents
- **Model.** `digitLoop` and `isDigits`.
- **Specification.** `digitValue` and `denoted`.
- `digitLoop_eq`: the loop is the bounded one of `Numeral.Horner`, over the distances.
- `isDigits_iff`: when the result is right.
-/

namespace CSamples
namespace AnyParser

open C Numeral

/-! ## The model -/

/-- Conversion to `unsigned long`. -/
def toUlong (w : Nat) (x : Int) : Nat := (x % 2 ^ w).toNat

def ULONG_MAX (w : Nat) : Nat := 2 ^ w - 1

/-- What a call leaves: its result, `*val` unless `val` is `NULL`, and the message on `stderr`. -/
structure IsDigits where
  ret : Nat
  val : Option Nat
  log : List String
  deriving DecidableEq, Repr

/-- `while(start < end){ ... }`, with `sum` and `ret`; `none` when it divides by zero. -/
def digitLoop (w : Nat) (base : Int) : List UInt8 → Nat → Nat → Option (Nat × Nat)
  | [], sum, ret      => some (sum, ret)
  | b :: bs, sum, ret =>
      let d : Int := b.toNat - 48
      if toUlong w base = 0 then none
      else
        let ret := if toUlong w (ULONG_MAX w - d) / toUlong w base < sum then 1 else ret
        digitLoop w base bs (toUlong w (sum * base + d)) ret

/-- `is_digits` on the bytes from `start` to `end`; `hasVal` is `val != NULL`. -/
def isDigits (w : Nat) (s : List UInt8) (base : Int) (hasVal : Bool) : Option IsDigits :=
  let log := if base = 8 ∨ base = 10 ∨ base = 16 then []
    else ["ERROR : invalid base number, " ++ toString base ++ "\n"]
  (digitLoop w base s 0 0).map (fun x => ⟨x.2, if hasVal then some x.1 else none, log⟩)

/-! ## The specification -/

def isLower (b : UInt8) : Bool := ch 'a' ≤ b && b ≤ ch 'f'
def isUpper (b : UInt8) : Bool := ch 'A' ≤ b && b ≤ ch 'F'

/-- The value of a digit of base 16 or less. -/
def digitValue (b : UInt8) : Nat :=
  if isDigit b then b.toNat - 48 else if isLower b then b.toNat - 97 + 10 else b.toNat - 65 + 10

/-- A digit of the base. -/
def ValidDigit (base : Nat) (b : UInt8) : Prop :=
  (isDigit b = true ∨ isLower b = true ∨ isUpper b = true) ∧ digitValue b < base

/-- The number denoted. -/
def denoted (base : Nat) (s : List UInt8) : Nat := horner base 0 (s.map digitValue)

/-- The result says whether the number exceeds `ULONG_MAX`; where it does not, it is stored. -/
def Exact (w base : Nat) (s : List UInt8) (r : IsDigits) : Prop :=
  (r.ret = 1 ↔ ULONG_MAX w < denoted base s) ∧ (denoted base s ≤ ULONG_MAX w → r.ret = 0 ∧ r.val = some (denoted base s))

/-! ## The loop -/

/-- The value that the loop takes a digit for. -/
def distance (b : UInt8) : Nat := b.toNat - 48

theorem toUlong_natCast (w n : Nat) : toUlong w n = n % (ULONG_MAX w + 1) := by
  have hpow : ULONG_MAX w + 1 = 2 ^ w := Nat.sub_add_cancel Nat.one_le_two_pow
  unfold toUlong
  rw [hpow]
  norm_cast

/-- **The loop is exact on the distances**, as `bounded_spec` has it. -/
theorem digitLoop_eq {w base : Nat} (hbase : 1 ≤ base) (hw : base ≤ ULONG_MAX w) {s : List UInt8}
    (hs : ∀ b ∈ s, 48 ≤ b.toNat ∧ distance b ≤ ULONG_MAX w) (n : Nat) (ret : Bool) :
    digitLoop w base s n ret.toNat =
      some ((bounded (ULONG_MAX w) base (s.map distance) (n, ret)).1,
        (bounded (ULONG_MAX w) base (s.map distance) (n, ret)).2.toNat) := by
  induction s generalizing n ret with
  | nil => rfl
  | cons b s ih =>
      obtain ⟨hb, hd⟩ := hs b (List.mem_cons_self ..)
      have hdist : ((b.toNat : Int) - 48) = (distance b : Int) := by
        unfold distance
        omega
      have hub : toUlong w base = base := by
        rw [toUlong_natCast, Nat.mod_eq_of_lt (Nat.lt_succ_of_le hw)]
      have hroom : toUlong w ((ULONG_MAX w : Int) - distance b) = ULONG_MAX w - distance b := by
        rw [← Nat.cast_sub hd, toUlong_natCast, Nat.mod_eq_of_lt (by omega)]
      have hsum : toUlong w ((n : Int) * base + distance b) = (n * base + distance b) % (ULONG_MAX w + 1) := by
        rw [← toUlong_natCast]
        norm_cast
      have hret : (if (ULONG_MAX w - distance b) / base < n then 1 else ret.toNat)
          = (ret || decide ((ULONG_MAX w - distance b) / base < n)).toNat := by
        by_cases h : (ULONG_MAX w - distance b) / base < n
        · simp [h]
        · simp [h]
      rw [digitLoop, hdist]
      simp only [hub, hroom, hsum, hret, if_neg (Nat.ne_of_gt hbase)]
      exact ih (fun c hc => hs c (List.mem_cons_of_mem b hc)) _ _

/-! ## Digits and their distances -/

theorem le_distance {b : UInt8} {base : Nat} (h : ValidDigit base b) :
    48 ≤ b.toNat ∧ distance b ≤ 54 ∧ digitValue b ≤ distance b ∧ (isDigit b = false → digitValue b < distance b) := by
  obtain ⟨h, -⟩ := h
  unfold digitValue distance
  simp only [isDigit, isLower, isUpper, ch, Bool.and_eq_true, decide_eq_true_eq, UInt8.le_iff_toNat_le,
    Bool.and_eq_false_iff, decide_eq_false_iff_not] at h ⊢
  simp at h ⊢
  split_ifs <;> omega

/-- The number that the loop computes. -/
def computed (base : Nat) (s : List UInt8) : Nat := horner base 0 (s.map distance)

theorem forall₂_digitValue {base : Nat} {s : List UInt8} (hs : ∀ b ∈ s, ValidDigit base b) :
    List.Forall₂ (· ≤ ·) (s.map digitValue) (s.map distance) := by
  induction s with
  | nil => exact .nil
  | cons b s ih =>
      have hle := (le_distance (hs b (List.mem_cons_self ..))).2.2.1
      exact .cons hle (ih fun c hc => hs c (List.mem_cons_of_mem b hc))

/-- Without a letter it is the number denoted. -/
theorem computed_eq {s : List UInt8} (base : Nat) (h : ∀ b ∈ s, isDigit b = true) : computed base s = denoted base s := by
  unfold computed denoted
  congr 1
  apply List.map_congr_left
  intro b hb
  unfold distance digitValue
  rw [if_pos (h b hb)]

theorem denoted_le {base : Nat} {s : List UInt8} (hs : ∀ b ∈ s, ValidDigit base b) :
    denoted base s ≤ computed base s :=
  horner_le (forall₂_digitValue hs) (Nat.le_refl 0)

/-- With a letter it is larger. -/
theorem denoted_lt {base : Nat} (hbase : 1 ≤ base) {s : List UInt8} (hs : ∀ b ∈ s, ValidDigit base b) {b : UInt8}
    (hb : b ∈ s) (hletter : isDigit b = false) : denoted base s < computed base s := by
  obtain ⟨u, v, rfl⟩ := List.append_of_mem hb
  have hu : ∀ c ∈ u, ValidDigit base c := fun c hc => hs c (List.mem_append_left _ hc)
  have hv : ∀ c ∈ v, ValidDigit base c := fun c hc => hs c (List.mem_append_right _ (List.mem_cons_of_mem b hc))
  have hlt : digitValue b < distance b := (le_distance (hs b hb)).2.2.2 hletter
  unfold denoted computed
  rw [List.map_append, List.map_append, List.map_cons, List.map_cons, horner_append, horner_append, horner, horner]
  refine horner_lt hbase (forall₂_digitValue hv) (Nat.add_lt_add_of_le_of_lt ?_ hlt)
  exact Nat.mul_le_mul_right base (denoted_le hu)

/-! ## The result -/

/-- **What a call returns** on digits: it is exact on the number that the loop computes. -/
theorem isDigits_spec {w base : Nat} (hw : 32 ≤ w) (hbase : base = 8 ∨ base = 10 ∨ base = 16) {s : List UInt8}
    (hs : ∀ b ∈ s, ValidDigit base b) :
    ∃ r, isDigits w s base true = some r ∧ (r.ret = 1 ↔ ULONG_MAX w < computed base s) ∧
      (computed base s ≤ ULONG_MAX w → r.ret = 0 ∧ r.val = some (computed base s)) := by
  have hmax : 54 ≤ ULONG_MAX w := by
    have hpow : 2 ^ 32 ≤ 2 ^ w := Nat.pow_le_pow_right (by decide) hw
    unfold ULONG_MAX
    omega
  have hs' : ∀ b ∈ s, 48 ≤ b.toNat ∧ distance b ≤ ULONG_MAX w :=
    fun b hb => ⟨(le_distance (hs b hb)).1, Nat.le_trans (le_distance (hs b hb)).2.1 hmax⟩
  have hloop := @digitLoop_eq w base (by omega) (by omega) s hs' 0 false
  have hds : ∀ d ∈ s.map distance, d ≤ ULONG_MAX w := by
    intro d hd
    obtain ⟨b, hb, rfl⟩ := List.mem_map.mp hd
    exact (hs' b hb).2
  obtain ⟨hflag, hval⟩ := @bounded_spec (ULONG_MAX w) base (by omega) _ hds 0 (Nat.zero_le _)
  have hlog : isDigits w s base true = _ := congrArg (Option.map _) hloop
  refine ⟨_, hlog, ?_, ?_⟩
  · show Bool.toNat _ = 1 ↔ _
    rw [Bool.toNat_eq_one]
    exact hflag
  · intro hle
    have hunset : (bounded (ULONG_MAX w) base (s.map distance) (0, false)).2 = false :=
      Bool.eq_false_iff.mpr (mt hflag.mp (Nat.not_lt.mpr hle))
    exact ⟨congrArg Bool.toNat hunset, congrArg some (hval hle)⟩

/-- **`is_digits` on the digits of a base**: it returns 1 exactly when the number denoted exceeds `ULONG_MAX`, and
    otherwise 0 with the number in `*val`, if and only if no digit is a letter or the number exceeds `ULONG_MAX`. -/
theorem isDigits_iff {w base : Nat} (hw : 32 ≤ w) (hbase : base = 8 ∨ base = 10 ∨ base = 16) {s : List UInt8}
    (hs : ∀ b ∈ s, ValidDigit base b) :
    (∃ r, isDigits w s base true = some r ∧ Exact w base s r) ↔
      (∀ b ∈ s, isDigit b = true) ∨ ULONG_MAX w < denoted base s := by
  obtain ⟨r, hr, hret, hval⟩ := isDigits_spec hw hbase hs
  constructor
  · rintro ⟨r', hr', hret', hval'⟩
    obtain rfl := Option.some.inj (hr'.symm.trans hr)
    by_contra hnot
    rw [not_or] at hnot
    obtain ⟨hletter, hsmall⟩ := hnot
    simp only [not_forall, Bool.not_eq_true] at hletter
    obtain ⟨b, hb, hletter⟩ := hletter
    have hlt := denoted_lt (by omega) hs hb hletter
    obtain ⟨hzero, hstored⟩ := hval' (Nat.not_lt.mp hsmall)
    -- neither the flag is set nor is another number stored
    have hle : computed base s ≤ ULONG_MAX w := by
      by_contra hover
      rw [hret.mpr (Nat.not_le.mp hover)] at hzero
      exact absurd hzero (by decide)
    rw [(hval hle).2] at hstored
    exact Nat.ne_of_gt hlt (Option.some.inj hstored)
  · rintro (hdigits | hbig)
    · have heq := computed_eq base hdigits
      rw [heq] at hret hval
      exact ⟨r, hr, hret, hval⟩
    · have hcomputed := Nat.lt_of_lt_of_le hbig (denoted_le hs)
      exact ⟨r, hr, iff_of_true (hret.mpr hcomputed) hbig, fun hle => absurd hbig (Nat.not_lt.mpr hle)⟩

/-- `377` in base 8. -/
theorem isDigits_iff_octal : ∃ r, isDigits 64 [ch '3', ch '7', ch '7'] (8 : Nat) true = some r ∧
    Exact 64 8 [ch '3', ch '7', ch '7'] r :=
  (@isDigits_iff 64 8 (by decide) (by decide) [ch '3', ch '7', ch '7'] (by
    simp only [List.forall_mem_cons, List.not_mem_nil, false_imp_iff, implies_true, and_true]
    unfold ValidDigit
    decide)).mpr (.inl (List.all_eq_true.mp (by decide)))

/-- The value of `ff` in base 16 is 255, and 918 is stored. -/
theorem isDigits_letters :
    isDigits 64 [ch 'f', ch 'f'] 16 true = some ⟨0, some 918, []⟩ ∧ denoted 16 [ch 'f', ch 'f'] = 255 ∧
      255 ≤ ULONG_MAX 64 := by
  decide +kernel

end AnyParser
end CSamples
