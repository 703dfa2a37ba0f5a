import CSamples.AnyParser.Scanner

/-!
# `AnyParser.Constants` — integer constants

The integer constants of C99 are words of the three `I_CONSTANT` rules for numbers, which stand in front of `dec`
and `wd`; the rule for floating constants goes beyond a digit string only where a dot follows.

## Contents
- **Specification.** `integerConstant`, by the grammar of C99.
- `mem_rules_digit`: what the rules match that starts with a digit.
- `call_integerConstant`: the scanner on an integer constant.
-/

namespace CSamples
namespace AnyParser

open C CSamples.Lex CSamples.Scanner

/-! ## The constants of C99 -/

/-- `decimal-constant: nonzero-digit | decimal-constant digit` -/
def decimalConstant : Regex UInt8 := .seq (.cls isNonZero) (.star (.cls isDigit))

/-- `octal-constant: 0 | octal-constant octal-digit` -/
def octalConstant : Regex UInt8 := .seq (.word [ch '0']) (.star (.cls isOct))

/-- `hexadecimal-constant: hexadecimal-prefix hexadecimal-digit | hexadecimal-constant hexadecimal-digit` -/
def hexadecimalConstant : Regex UInt8 :=
  .seq (.alt (.word [ch '0', ch 'x']) (.word [ch '0', ch 'X'])) (.plus (.cls isHex))

/-- `long-suffix: one of l L` -/
def cLongSuffix : Regex UInt8 := .alt (.word [ch 'l']) (.word [ch 'L'])

/-- `long-long-suffix: one of ll LL` -/
def cLongLongSuffix : Regex UInt8 := .alt (.word [ch 'l', ch 'l']) (.word [ch 'L', ch 'L'])

/-- `unsigned-suffix: one of u U` -/
def cUnsignedSuffix : Regex UInt8 := .alt (.word [ch 'u']) (.word [ch 'U'])

/-- `integer-suffix`, with its four shapes. -/
def integerSuffix : Regex UInt8 :=
  .alt (.seq cUnsignedSuffix (.opt cLongSuffix)) (.alt (.seq cUnsignedSuffix cLongLongSuffix)
    (.alt (.seq cLongSuffix (.opt cUnsignedSuffix)) (.seq cLongLongSuffix (.opt cUnsignedSuffix))))

/-- `integer-constant` -/
def integerConstant : Regex UInt8 :=
  .seq (.alt decimalConstant (.alt octalConstant hexadecimalConstant)) (.opt integerSuffix)

/-! ## They are words of the rules -/

theorem mem_oneOf {bs w : List UInt8} : w ∈ (oneOf bs).lang ↔ ∃ b ∈ bs, w = [b] := by
  simp [oneOf, Regex.mem_cls]

theorem unsignedSuffix_le {w : List UInt8} (h : w ∈ cUnsignedSuffix.lang) : w ∈ unsignedSuffix.lang := by
  rcases Regex.mem_alt.mp h with h | h <;> exact mem_oneOf.mpr ⟨_, by simp, Regex.mem_word.mp h⟩

theorem longSuffix_le {w : List UInt8} (h : w ∈ cLongSuffix.lang ∨ w ∈ cLongLongSuffix.lang) :
    w ∈ longSuffix.lang := by
  rcases h with h | h
  · refine .inl ?_
    rcases Regex.mem_alt.mp h with h | h <;> exact mem_oneOf.mpr ⟨_, by simp, Regex.mem_word.mp h⟩
  · exact .inr h

theorem opt_le {r r' : Regex UInt8} (h : ∀ w, w ∈ r.lang → w ∈ r'.lang) {w : List UInt8} (hw : w ∈ (Regex.opt r).lang) :
    w ∈ (Regex.opt r').lang :=
  (Regex.mem_opt.mp hw).elim (fun hw => .inl (h w hw)) .inr

theorem is_le {w : List UInt8} (h : w ∈ integerSuffix.lang) : w ∈ is.lang := by
  rcases h with ⟨u, hu, l, hl, rfl⟩ | ⟨u, hu, l, hl, rfl⟩ | ⟨l, hl, u, hu, rfl⟩ | ⟨l, hl, u, hu, rfl⟩
  · exact .inl ⟨u, unsignedSuffix_le hu, l, opt_le (fun _ h => longSuffix_le (.inl h)) hl, rfl⟩
  · exact .inl ⟨u, unsignedSuffix_le hu, l, .inl (longSuffix_le (.inr hl)), rfl⟩
  · exact .inr ⟨l, longSuffix_le (.inl hl), u, opt_le (fun _ h => unsignedSuffix_le h) hu, rfl⟩
  · exact .inr ⟨l, longSuffix_le (.inr hl), u, opt_le (fun _ h => unsignedSuffix_le h) hu, rfl⟩

/-- The rules for integer constants, in their order. -/
def integerRules : List (Regex UInt8) :=
  [.seq hp (.seq (.plus (.cls isHex)) (.opt is)), .seq (.cls isNonZero) (.seq digits (.opt is)),
    .seq (.word [ch '0']) (.seq digits (.opt is))]

theorem isDigit_of_isOct {b : UInt8} (h : isOct b = true) : isDigit b = true := by
  simp only [isOct, isDigit, ch, Bool.and_eq_true, decide_eq_true_eq, UInt8.le_iff_toNat_le] at *
  simp at *
  omega

theorem isDigit_of_isNonZero {b : UInt8} (h : isNonZero b = true) : isDigit b = true := by
  simp only [isNonZero, isDigit, ch, Bool.and_eq_true, decide_eq_true_eq, UInt8.le_iff_toNat_le] at *
  simp at *
  omega

theorem integerConstant_le {w : List UInt8} (h : w ∈ integerConstant.lang) : ∃ r ∈ integerRules, w ∈ r.lang := by
  obtain ⟨u, hu, s, hs, rfl⟩ := h
  have hs' := opt_le (fun _ => is_le) hs
  rcases hu with ⟨a, ha, b, hb, rfl⟩ | ⟨a, ha, b, hb, rfl⟩ | ⟨a, ha, b, hb, rfl⟩
  · refine ⟨_, List.mem_cons_of_mem _ (List.mem_cons_self ..), a, ha, b ++ s, ⟨b, hb, s, hs', rfl⟩, ?_⟩
    exact (List.append_assoc a b s).symm
  · refine ⟨_, List.mem_cons_of_mem _ (List.mem_cons_of_mem _ (List.mem_cons_self ..)), a, ha, b ++ s,
      ⟨b, ?_, s, hs', rfl⟩, (List.append_assoc a b s).symm⟩
    exact Regex.mem_star_cls.mpr (fun c hc => isDigit_of_isOct (Regex.mem_star_cls.mp hb c hc))
  · refine ⟨_, List.mem_cons_self .., a, ?_, b ++ s, ⟨b, hb, s, hs', rfl⟩, (List.append_assoc a b s).symm⟩
    rcases Regex.mem_alt.mp ha with ha | ha
    · exact ⟨[ch '0'], Regex.mem_word.mpr rfl, [ch 'x'], mem_oneOf.mpr ⟨_, by simp, rfl⟩, (Regex.mem_word.mp ha).symm⟩
    · exact ⟨[ch '0'], Regex.mem_word.mpr rfl, [ch 'X'], mem_oneOf.mpr ⟨_, by simp, rfl⟩, (Regex.mem_word.mp ha).symm⟩

/-! ## What starts with a digit -/

theorem isAlpha_of_isDigit {b : UInt8} (h : isDigit b = true) : isAlpha b = true := by
  rw [isAlpha, h, Bool.or_true]

theorem isAlpha_of_isHex {b : UInt8} (h : isHex b = true) : isAlpha b = true := by
  simp only [isHex, isAlpha, isDigit, ch, Bool.and_eq_true, Bool.or_eq_true, beq_iff_eq, decide_eq_true_eq,
    UInt8.le_iff_toNat_le, ← UInt8.toNat_inj] at *
  simp at *
  omega

/-- What holds of each of the 256 bytes. -/
theorem forall_byte {P : UInt8 → Prop} (h : ∀ n ∈ List.range 256, P (UInt8.ofNat n)) (b : UInt8) : P b := by
  have hb := h b.toNat (List.mem_range.mpr b.toNat_lt)
  rwa [UInt8.ofNat_toNat] at hb

/-- The rules in front of those for integer constants match nothing that starts with a digit, nor does that for
    blanks. -/
theorem not_mem_of_isDigit {d : UInt8} (hd : isDigit d = true) {x : Regex UInt8 × Action}
    (hx : x ∈ rules.take 10 ∨ x.1 = ws) (w : List UInt8) : d :: w ∉ x.1.lang := by
  have hempty : ∀ d : UInt8, isDigit d = true →
      (∀ x ∈ rules.take 10, (x.1.deriv d).isEmpty = true) ∧ (ws.deriv d).isEmpty = true :=
    forall_byte (by decide +kernel)
  have hderiv : (x.1.deriv d).isEmpty = true := by
    rcases hx with hx | hx
    · exact (hempty d hd).1 x hx
    · rw [hx]
      exact (hempty d hd).2
  intro h
  exact Regex.not_mem_of_isEmpty hderiv w (Regex.mem_lang_deriv.mpr h)

theorem over_oneOf {bs : List UInt8} {p : UInt8 → Bool} (h : bs.all p = true) : Regex.Over p (oneOf bs) := by
  intro b hb
  exact List.all_eq_true.mp h b (List.contains_iff_mem.mp hb)

theorem over_word {bs : List UInt8} {p : UInt8 → Bool} (h : bs.all p = true) : Regex.Over p (.word bs) :=
  Regex.over_word (List.all_eq_true.mp h)

theorem over_is : Regex.Over isAlpha is := by
  have hu : Regex.Over isAlpha unsignedSuffix := over_oneOf (by decide)
  have hl : Regex.Over isAlpha longSuffix := ⟨over_oneOf (by decide), over_word (by decide), over_word (by decide)⟩
  exact ⟨⟨hu, hl, trivial⟩, hl, hu, trivial⟩

theorem over_integerRules {r : Regex UInt8} (hr : r ∈ integerRules) : Regex.Over isAlpha r := by
  have hdigit : ∀ b : UInt8, isDigit b = true → isAlpha b = true := fun b hb => isAlpha_of_isDigit hb
  have hhex : ∀ b : UInt8, isHex b = true → isAlpha b = true := fun b hb => isAlpha_of_isHex hb
  have hnz : ∀ b : UInt8, isNonZero b = true → isAlpha b = true :=
    fun b hb => isAlpha_of_isDigit (isDigit_of_isNonZero hb)
  have hzero : Regex.Over isAlpha (.word [ch '0']) := over_word (by decide)
  have hx : Regex.Over isAlpha (oneOf [ch 'x', ch 'X']) := over_oneOf (by decide)
  simp only [integerRules, List.mem_cons, List.not_mem_nil, or_false] at hr
  rcases hr with rfl | rfl | rfl
  · exact ⟨⟨hzero, hx⟩, ⟨hhex, hhex⟩, over_is, trivial⟩
  · exact ⟨hnz, hdigit, over_is, trivial⟩
  · exact ⟨hzero, hdigit, over_is, trivial⟩

/-- **What the rules match that starts with a digit**: letters, digits and underscores; a floating constant; or
    the digit alone. -/
theorem mem_rules_digit {x : Regex UInt8 × Action} (hx : x ∈ rules) {d : UInt8} (hd : isDigit d = true)
    {w : List UInt8} (hw : d :: w ∈ x.1.lang) :
    (∀ b ∈ d :: w, isAlpha b = true) ∨ d :: w ∈ fConstant.lang ∨ w = [] := by
  have hsplit : x ∈ rules.take 10 ++ rules.drop 10 := by
    rw [List.take_append_drop]
    exact hx
  rcases List.mem_append.mp hsplit with hx | hx
  · exact absurd hw (not_mem_of_isDigit hd (.inl hx) w)
  · simp only [rules, List.drop_succ_cons, List.drop_zero, List.mem_cons, List.not_mem_nil, or_false] at hx
    rcases hx with rfl | rfl | rfl | rfl | rfl | rfl | rfl | rfl | rfl
    · exact .inl (Regex.mem_of_over (over_integerRules (by simp [integerRules])) hw)
    · exact .inl (Regex.mem_of_over (over_integerRules (by simp [integerRules])) hw)
    · exact .inl (Regex.mem_of_over (over_integerRules (by simp [integerRules])) hw)
    · exact .inr (.inl hw)
    · refine .inl (Regex.mem_of_over ?_ hw)
      have hclass : Regex.Over isAlpha (.alt (.cls isDigit) (.cls isNonZero)) :=
        ⟨fun b hb => isAlpha_of_isDigit hb, fun b hb => isAlpha_of_isDigit (isDigit_of_isNonZero hb)⟩
      exact ⟨hclass, hclass⟩
    · exact .inl (Regex.mem_plus_cls.mp hw).2
    · exact absurd hw (@not_mem_of_isDigit d hd (ws, .ret .unknown) (.inr rfl) w)
    · obtain ⟨b, -, hb⟩ := Regex.mem_cls.mp hw
      exact .inr (.inr (List.cons.inj hb).2)
    · obtain ⟨b, -, hb⟩ := Regex.mem_cls.mp hw
      exact .inr (.inr (List.cons.inj hb).2)

/-- In a floating constant only digits stand in front of the dot. -/
theorem not_mem_fConstant {w p : List UInt8} {b : UInt8} (hw : ch '.' ∉ w) (hb : b ≠ ch '.') (hd : isDigit b = false) :
    w ++ b :: p ∉ fConstant.lang := by
  rintro ⟨ds, hds, _, ⟨s, hs, t, -, rfl⟩, heq⟩
  rw [Regex.mem_word.mp hs] at heq
  have hdigits := Regex.mem_star_cls.mp hds
  have hsplit : ds ++ ch '.' :: t = w ++ b :: p := heq
  rcases List.append_eq_append_iff.mp hsplit with ⟨q, hq, htail⟩ | ⟨q, hq, htail⟩
  · -- the dot would stand in `w`, or be `b`
    cases q with
    | nil => exact hb (List.cons.inj htail).1.symm
    | cons c q =>
        apply hw
        rw [hq, (List.cons.inj htail).1]
        exact List.mem_append_right _ (List.mem_cons_self ..)
  · cases q with
    | nil => exact hb (List.cons.inj htail).1
    | cons c q =>
        -- `b` would be one of the digits
        have hc : b = c := (List.cons.inj htail).1
        have hmem : c ∈ ds := by
          rw [hq]
          exact List.mem_append_right _ (List.mem_cons_self ..)
        rw [hc, hdigits c hmem] at hd
        exact absurd hd (by decide)

/-! ## The scanner on an integer constant -/

theorem head_integerRules {r : Regex UInt8} (hr : r ∈ integerRules) {w : List UInt8} (hw : w ∈ r.lang) :
    ∃ d v, isDigit d = true ∧ w = d :: v := by
  simp only [integerRules, List.mem_cons, List.not_mem_nil, or_false] at hr
  rcases hr with rfl | rfl | rfl
  · obtain ⟨_, ⟨z, hz, x, -, rfl⟩, t, -, rfl⟩ := hw
    rw [Regex.mem_word.mp hz]
    exact ⟨ch '0', x ++ t, by decide, rfl⟩
  · obtain ⟨_, ⟨b, hb, rfl⟩, t, -, rfl⟩ := hw
    exact ⟨b, t, isDigit_of_isNonZero hb, rfl⟩
  · obtain ⟨z, hz, t, -, rfl⟩ := hw
    rw [Regex.mem_word.mp hz]
    exact ⟨ch '0', t, by decide, rfl⟩

/-- The first rule that matches is one of those for integer constants. -/
theorem ruleOf_integer {r : Regex UInt8} (hr : r ∈ integerRules) {w : List UInt8} (hw : w ∈ r.lang) :
    ruleOf rules w = some (.ret (.token .iConstant)) := by
  obtain ⟨d, v, hd, rfl⟩ := head_integerRules hr hw
  have hfront : ∀ x ∈ rules.take 10, d :: v ∉ x.1.lang := fun x hx => not_mem_of_isDigit hd (.inl hx) v
  have hrules : rules = rules.take 10 ++
      (integerRules.map (fun r => (r, .ret (.token .iConstant))) ++ rules.drop 13) := rfl
  rw [hrules, ruleOf_append_of_not_mem hfront]
  refine ruleOf_append_of_mem (by simp) ?_ _
  exact ⟨_, List.mem_map_of_mem hr, hw⟩

/-- **An integer constant** in front of a byte that is no letter, digit, underscore or dot: from any state of the
    buffer, the call returns it whole as one `I_CONSTANT`. -/
theorem call_integerConstant {c u v : List UInt8} {b : UInt8} {s : Input} (hc : c ∈ integerConstant.lang)
    (hlen : c.length ≤ BUFSIZE) (hb : isAlpha b = false) (hdot : b ≠ ch '.') (hs : Blocks.At u (c ++ b :: v) s)
    (n : Nat) :
    ∃ s', blocks.call (n + 1) .std s = some ([], (.token .iConstant, c), s') ∧ Blocks.At c (b :: v) s' := by
  obtain ⟨r, hr, hmem⟩ := integerConstant_le hc
  have halpha := Regex.mem_of_over (over_integerRules hr) hmem
  obtain ⟨d, w, hd, rfl⟩ := head_integerRules hr hmem
  refine Blocks.call_word hs (List.cons_ne_nil _ _) hlen (ruleOf_integer hr hmem) ?_ n
  intro x hx p hp hpv hlong
  obtain ⟨e, p, rfl⟩ := List.exists_cons_of_ne_nil hp
  obtain ⟨q, hq⟩ := hpv
  obtain rfl : e = b := (List.cons.inj hq).1
  rcases mem_rules_digit hx hd hlong with hall | hfloat | hone
  · rw [hall e (by simp)] at hb
    exact absurd hb (by decide)
  · have hdigit : isDigit e = false := by
      by_contra hdig
      rw [isAlpha_of_isDigit (by simpa using hdig)] at hb
      exact absurd hb (by decide)
    refine @not_mem_fConstant (d :: w) p e ?_ hdot hdigit hfloat
    intro hmem
    exact absurd (halpha _ hmem) (by decide)
  · exact absurd hone (by simp)

/-- `0x1FuL;` -/
theorem call_integerConstant_hex :
    ∃ s', blocks.call 1 .std (inputInit (fun _ => 0) [ch '0', ch 'x', ch '1', ch 'F', ch 'u', ch 'L', ch ';']) =
        some ([], (.token .iConstant, [ch '0', ch 'x', ch '1', ch 'F', ch 'u', ch 'L']), s') ∧
      Blocks.At [ch '0', ch 'x', ch '1', ch 'F', ch 'u', ch 'L'] [ch ';'] s' := by
  have hmem : [ch '0', ch 'x', ch '1', ch 'F', ch 'u', ch 'L'] ∈ integerConstant.lang :=
    ruleOf_singleton.mp (by decide +kernel)
  exact @call_integerConstant _ [] [] (ch ';') _ hmem (by decide) (by decide) (by decide)
    ⟨holds_inputInit _ _, rfl⟩ 0

end AnyParser
end CSamples
