import CSamples.Tokenizer.Json

/-!
# `Tokenizer.Numbers` — the rule `NUMBER` and the numbers of JSON

`INT` allows any digits behind a minus sign. Apart from that the four shapes of the rule are the numbers of JSON.

## Contents
- `mem_number_iff`: the shapes, in one.
- `number_iff`: the words that are a number of the one only.
- `longestPrefix_number_iff`: when the longest matches are the same.
-/

namespace CSamples
namespace Tokenizer
namespace Json

open C CSamples.Lex

/-- A negative integer part with a zero too many. -/
def Superfluous (w : List UInt8) : Prop := ∃ d v, isDigit d = true ∧ w = ch '-' :: ch '0' :: d :: v

/-- A number is an integer part, and a fraction and an exponent where there are any. -/
theorem mem_number_iff {w : List UInt8} :
    w ∈ Tokenizer.number.lang ↔
      ∃ i ∈ Tokenizer.int.lang, ∃ f ∈ (Regex.opt frac).lang, ∃ e ∈ (Regex.opt exp).lang, w = i ++ (f ++ e) := by
  constructor
  · intro h
    simp only [Tokenizer.number, Regex.mem_alt] at h
    rcases h with h | h | h | h
    · exact ⟨w, h, [], Regex.mem_opt.mpr (.inr rfl), [], Regex.mem_opt.mpr (.inr rfl), by simp⟩
    · obtain ⟨i, hi, f, hf, rfl⟩ := h
      exact ⟨i, hi, f, Regex.mem_opt.mpr (.inl hf), [], Regex.mem_opt.mpr (.inr rfl), by simp⟩
    · obtain ⟨i, hi, e, he, rfl⟩ := h
      exact ⟨i, hi, [], Regex.mem_opt.mpr (.inr rfl), e, Regex.mem_opt.mpr (.inl he), rfl⟩
    · obtain ⟨i, hi, _, ⟨f, hf, e, he, rfl⟩, rfl⟩ := h
      exact ⟨i, hi, f, Regex.mem_opt.mpr (.inl hf), e, Regex.mem_opt.mpr (.inl he), rfl⟩
  · rintro ⟨i, hi, f, hf, e, he, rfl⟩
    simp only [Tokenizer.number, Regex.mem_alt]
    rcases Regex.mem_opt.mp hf with hf | rfl
    · rcases Regex.mem_opt.mp he with he | rfl
      · exact .inr (.inr (.inr ⟨i, hi, _, ⟨f, hf, e, he, rfl⟩, rfl⟩))
      · exact .inr (.inl ⟨i, hi, f, hf, by simp⟩)
    · rcases Regex.mem_opt.mp he with he | rfl
      · exact .inr (.inr (.inl ⟨i, hi, e, he, rfl⟩))
      · exact .inl (by simpa using hi)

/-- An integer part without a superfluous zero is one of JSON. -/
theorem int_iff {i : List UInt8} :
    i ∈ Tokenizer.int.lang → i ∈ (Regex.seq (.opt (.word [ch '-'])) int).lang ∨ Superfluous i := by
  have hpositive : ∀ {b : UInt8} {ds : List UInt8}, isDigit19 b = true → (∀ c ∈ ds, isDigit c = true) →
      b :: ds ∈ int.lang :=
    fun hb hds => .inr ⟨[_], Regex.mem_cls.mpr ⟨_, hb, rfl⟩, _, Regex.mem_star_cls.mpr hds, rfl⟩
  have hminus : ∀ {j : List UInt8}, j ∈ int.lang → ch '-' :: j ∈ (Regex.seq (.opt (.word [ch '-'])) int).lang :=
    fun hj => ⟨[ch '-'], Regex.mem_opt.mpr (.inl (Regex.mem_word.mpr rfl)), _, hj, rfl⟩
  have hplain : ∀ {j : List UInt8}, j ∈ int.lang → j ∈ (Regex.seq (.opt (.word [ch '-'])) int).lang :=
    fun hj => ⟨[], Regex.mem_opt.mpr (.inr rfl), _, hj, rfl⟩
  -- a digit is zero or starts a positive number
  have hdigit : ∀ {b : UInt8}, isDigit b = true → b = ch '0' ∨ isDigit19 b = true := by
    intro b
    simp only [isDigit, isDigit19, Bool.and_eq_true, decide_eq_true_eq, ch, UInt8.le_iff_toNat_le, ← UInt8.toNat_inj]
    simp
    omega
  intro h
  simp only [Tokenizer.int, Regex.mem_alt] at h
  rcases h with h | h | h | h
  · obtain ⟨b, hb, rfl⟩ := Regex.mem_cls.mp h
    rcases hdigit hb with rfl | hb
    · exact .inl (hplain (.inl (Regex.mem_word.mpr rfl)))
    · exact .inl (hplain (hpositive hb (by simp)))
  · obtain ⟨_, ⟨b, hb, rfl⟩, ds, hds, rfl⟩ := h
    exact .inl (hplain (hpositive hb (Regex.mem_plus_cls.mp hds).2))
  · obtain ⟨s, hs, ds, hds, rfl⟩ := h
    rw [Regex.mem_word.mp hs]
    obtain ⟨hne, hall⟩ := Regex.mem_plus_cls.mp hds
    obtain ⟨b, ds, rfl⟩ := List.exists_cons_of_ne_nil hne
    have hall' : ∀ c ∈ ds, isDigit c = true := fun c hc => hall c (List.mem_cons_of_mem _ hc)
    rcases hdigit (hall b (List.mem_cons_self ..)) with rfl | hb
    · cases ds with
      | nil => exact .inl (hminus (.inl (Regex.mem_word.mpr rfl)))
      | cons d ds => exact .inr ⟨d, ds, hall' d (List.mem_cons_self ..), rfl⟩
    · exact .inl (hminus (hpositive hb hall'))
  · obtain ⟨s, hs, _, ⟨_, ⟨b, hb, rfl⟩, ds, hds, rfl⟩, rfl⟩ := h
    rw [Regex.mem_word.mp hs]
    exact .inl (hminus (hpositive hb (Regex.mem_plus_cls.mp hds).2))

/-- **The numbers of the rule** are those of JSON, where there is no superfluous zero. -/
theorem number_iff {w : List UInt8} (h : ¬ Superfluous w) : w ∈ Tokenizer.number.lang ↔ w ∈ number.lang := by
  refine ⟨?_, number_le⟩
  intro hw
  obtain ⟨i, hi, f, hf, e, he, rfl⟩ := mem_number_iff.mp hw
  rcases int_iff hi with ⟨s, hs, j, hj, rfl⟩ | ⟨d, v, hd, rfl⟩
  · rw [List.append_assoc]
    exact ⟨s, hs, _, ⟨j, hj, _, ⟨f, hf, e, he, rfl⟩, rfl⟩, rfl⟩
  · exact absurd ⟨d, v ++ (f ++ e), hd, by simp⟩ h

/-- A number of JSON has no superfluous zero. -/
theorem not_superfluous {w : List UInt8} (hw : w ∈ number.lang) : ¬ Superfluous w := by
  rintro ⟨d, v, hd, rfl⟩
  obtain ⟨s, hs, _, ⟨i, hi, _, ⟨f, hf, e, he, rfl⟩, rfl⟩, heq⟩ := hw
  -- neither a fraction nor an exponent starts with a digit
  have hfe : ∀ b ∈ (f ++ e).head?, isDigit b = false := by
    intro b hb
    rcases Regex.mem_opt.mp hf with hf | rfl
    · obtain ⟨_, ⟨c, hc, rfl⟩, ds, -, rfl⟩ := hf
      obtain rfl : c = b := Option.some.inj hb
      rw [eq_of_beq hc]
      decide
    · rcases Regex.mem_opt.mp he with he | rfl
      · obtain ⟨_, ⟨c, hc, rfl⟩, r, -, rfl⟩ := he
        obtain rfl : c = b := Option.some.inj hb
        rcases Bool.or_eq_true_iff.mp hc with hc | hc <;> rw [eq_of_beq hc] <;> decide
      · exact absurd hb (by simp)
  rcases Regex.mem_opt.mp hs with hs | rfl
  · -- behind the sign the integer part is the zero alone
    rw [Regex.mem_word.mp hs] at heq
    have hrest : i ++ (f ++ e) = ch '0' :: d :: v := (List.cons.inj heq).2
    rcases Regex.mem_alt.mp hi with hi | ⟨_, ⟨b, hb, rfl⟩, ds, -, rfl⟩
    · rw [Regex.mem_word.mp hi] at hrest
      have htail : f ++ e = d :: v := (List.cons.inj hrest).2
      have hhead := hfe d (by rw [htail]; rfl)
      rw [hd] at hhead
      exact absurd hhead (by decide)
    · rw [(List.cons.inj hrest).1] at hb
      exact absurd hb (by decide)
  · -- without a sign it does not start with one
    have hrest : i ++ (f ++ e) = ch '-' :: ch '0' :: d :: v := heq
    rcases Regex.mem_alt.mp hi with hi | ⟨_, ⟨b, hb, rfl⟩, ds, -, rfl⟩
    · rw [Regex.mem_word.mp hi] at hrest
      exact absurd (List.cons.inj hrest).1 (by decide)
    · rw [(List.cons.inj hrest).1] at hb
      exact absurd hb (by decide)

/-- **The rule `NUMBER` and JSON**: their longest matches are the same, or there is none of either, if and only if
    the input does not start with a minus sign, a zero and another digit. -/
theorem longestPrefix_number_iff (w : List UInt8) :
    longestPrefix Tokenizer.number w = longestPrefix number w ↔ ¬ Superfluous w := by
  constructor
  · rintro h ⟨d, v, hd, rfl⟩
    have hmem : [ch '-', ch '0', d] ∈ Tokenizer.number.lang := by
      refine .inl (.inr (.inr (.inl ⟨[ch '-'], Regex.mem_word.mpr rfl, [ch '0', d], ?_, rfl⟩)))
      exact Regex.mem_plus_cls.mpr ⟨List.cons_ne_nil _ _, by simp [hd, show isDigit (ch '0') = true by decide]⟩
    have hprefix : [ch '-', ch '0', d] <+: ch '-' :: ch '0' :: d :: v := ⟨v, rfl⟩
    cases hp : longestPrefix Tokenizer.number (ch '-' :: ch '0' :: d :: v) with
    | none => exact absurd hmem (longestPrefix_eq_none_iff.mp hp _ hprefix)
    | some p =>
        obtain ⟨hpw, -, hlongest⟩ := longestPrefix_eq_some_iff.mp hp
        have hlen := hlongest _ hprefix hmem
        -- the longest match takes in the digit, so it is no number of JSON
        obtain ⟨q, rfl⟩ := List.prefix_of_prefix_length_le hprefix hpw hlen
        have hjson := longestPrefix_eq_some_iff.mp (h.symm.trans hp)
        exact not_superfluous hjson.2.1 ⟨d, q, hd, rfl⟩
  · intro h
    apply longestPrefix_congr
    intro p hp
    apply number_iff
    rintro ⟨d, v, hd, rfl⟩
    obtain ⟨q, rfl⟩ := hp
    exact h ⟨d, v ++ q, hd, rfl⟩

/-- Of `-012` the rule takes all, where the number of JSON is `-0`. -/
theorem longestPrefix_superfluous :
    longestPrefix Tokenizer.number [ch '-', ch '0', ch '1', ch '2'] = some [ch '-', ch '0', ch '1', ch '2'] ∧
      longestPrefix number [ch '-', ch '0', ch '1', ch '2'] = some [ch '-', ch '0'] := by
  constructor <;> decide +kernel

end Json
end Tokenizer
end CSamples
