import CSamples.Tokenizer.Scanner
import Mathlib.Data.List.Chain

/-!
# `Tokenizer.Lexemes` — which rule of the tokenizer wins

What the matches of the rules look like, by their first byte, and from it the longest match in front of what may
follow: a number, a string, a run of blanks. Then the results of the scanner, token by token.

## Contents
- `mem_rules`, `mem_rules_number`, `mem_rules_string`: the possible matches.
- `munch_number`, `munch_string`, `munch_string_longer`, `munch_blank`.
- `scanned_token`, `scanned_eol`, `scanned_blank`: one step of `scanned`.
-/

namespace CSamples
namespace Tokenizer

open C CSamples.Lex CSamples.Scanner

/-! ## The rule that wins -/

/-- What a match of any rule looks like. -/
theorem mem_rules {x : Regex UInt8 × Action} (hx : x ∈ rules) {w : List UInt8} (hw : w ∈ x.1.lang) :
    w ∈ number.lang ∨ w ∈ string.lang ∨ (∀ b ∈ w, isBlank b = true) ∨
      w ∈ [[ch '/', ch '*'], [ch '/', ch '/'], [ch 't', ch 'r', ch 'u', ch 'e'],
        [ch 'f', ch 'a', ch 'l', ch 's', ch 'e'], [ch 'n', ch 'u', ch 'l', ch 'l']] ∨ ∃ b, w = [b] := by
  simp only [rules, List.mem_cons, List.not_mem_nil, or_false] at hx
  rcases hx with rfl | rfl | rfl | rfl | rfl | rfl | rfl | rfl | rfl | rfl | rfl | rfl | rfl | rfl | rfl | rfl | rfl | rfl
  · exact .inr (.inr (.inr (.inl (by simp [Regex.mem_word.mp hw]))))
  · exact .inr (.inr (.inr (.inr ⟨_, Regex.mem_word.mp hw⟩)))
  · exact .inr (.inr (.inr (.inl (by simp [Regex.mem_word.mp hw]))))
  · obtain ⟨b, -, rfl⟩ := Regex.mem_cls.mp hw
    exact .inr (.inr (.inr (.inr ⟨b, rfl⟩)))
  · exact .inr (.inr (.inr (.inr ⟨_, Regex.mem_word.mp hw⟩)))
  · exact .inr (.inl hw)
  · exact .inl hw
  · exact .inr (.inr (.inr (.inl (by simp [Regex.mem_word.mp hw]))))
  · exact .inr (.inr (.inr (.inl (by simp [Regex.mem_word.mp hw]))))
  · exact .inr (.inr (.inr (.inl (by simp [Regex.mem_word.mp hw]))))
  · exact .inr (.inr (.inr (.inr ⟨_, Regex.mem_word.mp hw⟩)))
  · exact .inr (.inr (.inr (.inr ⟨_, Regex.mem_word.mp hw⟩)))
  · exact .inr (.inr (.inr (.inr ⟨_, Regex.mem_word.mp hw⟩)))
  · exact .inr (.inr (.inr (.inr ⟨_, Regex.mem_word.mp hw⟩)))
  · exact .inr (.inr (.inr (.inr ⟨_, Regex.mem_word.mp hw⟩)))
  · exact .inr (.inr (.inr (.inr ⟨_, Regex.mem_word.mp hw⟩)))
  · refine .inr (.inr (.inl (Regex.mem_of_over ?_ hw)))
    simp [Regex.plus, Regex.Over]
  · obtain ⟨b, -, rfl⟩ := Regex.mem_cls.mp hw
    exact .inr (.inr (.inr (.inr ⟨b, rfl⟩)))

/-- The bytes of numbers. -/
def isNumberByte (b : UInt8) : Bool :=
  isDigit b || b == ch '-' || b == ch '+' || b == ch '.' || b == ch 'E' || b == ch 'e'

theorem isDigit_of_isDigit19 {b : UInt8} (h : isDigit19 b = true) : isDigit b = true := by
  simp only [isDigit19, isDigit, Bool.and_eq_true, decide_eq_true_eq] at h ⊢
  exact ⟨UInt8.le_trans (by decide) h.1, h.2⟩

theorem over_number : Regex.Over isNumberByte number := by
  have hdigit : ∀ b, isDigit b = true → isNumberByte b = true := by
    intro b hb
    simp [isNumberByte, hb]
  have hdigit19 : ∀ b, isDigit19 b = true → isNumberByte b = true := fun b hb => hdigit b (isDigit_of_isDigit19 hb)
  have hdigits : Regex.Over isNumberByte digits := ⟨hdigit, hdigit⟩
  have hminus : Regex.Over isNumberByte (.word [ch '-']) := Regex.over_word (by decide +kernel)
  have hint : Regex.Over isNumberByte int :=
    ⟨hdigit, ⟨hdigit19, hdigits⟩, ⟨hminus, hdigits⟩, hminus, hdigit19, hdigits⟩
  have hfrac : Regex.Over isNumberByte frac := by
    refine ⟨?_, hdigits⟩
    intro b hb
    simp only [isNumberByte, hb, Bool.or_true, Bool.true_or]
  have hexp : Regex.Over isNumberByte exp := by
    refine ⟨?_, ⟨?_, trivial⟩, hdigits⟩
    · intro b hb
      rcases Bool.or_eq_true_iff.mp hb with hb | hb <;> simp only [isNumberByte, hb, Bool.or_true, Bool.true_or]
    · intro b hb
      rcases Bool.or_eq_true_iff.mp hb with hb | hb <;> simp only [isNumberByte, hb, Bool.or_true, Bool.true_or]
  exact ⟨hint, ⟨hint, hfrac⟩, ⟨hint, hexp⟩, hint, hfrac, hexp⟩

/-- What a number starts with. -/
def isNumberStart (b : UInt8) : Bool := isDigit b || b == ch '-'

theorem ne_of_isNumberStart {b c : UInt8} (hb : isNumberStart b = true) (hc : isNumberStart c = false) : b ≠ c := by
  rintro rfl
  rw [hc] at hb
  exact absurd hb (by decide)

theorem head_int {w : List UInt8} (hw : w ∈ int.lang) : ∃ b v, w = b :: v ∧ isNumberStart b = true := by
  have hminus : ∀ {u v : List UInt8}, u ∈ (Regex.word [ch '-']).lang → ∃ b t, u ++ v = b :: t ∧ isNumberStart b = true := by
    intro u v hu
    rw [Regex.mem_word.mp hu]
    exact ⟨ch '-', v, rfl, by decide⟩
  simp only [int, Regex.mem_alt] at hw
  rcases hw with hw | hw | hw | hw
  · obtain ⟨b, hb, rfl⟩ := Regex.mem_cls.mp hw
    exact ⟨b, [], rfl, by simp [isNumberStart, hb]⟩
  · obtain ⟨_, ⟨b, hb, rfl⟩, v, -, rfl⟩ := Regex.mem_seq.mp hw
    exact ⟨b, v, rfl, by simp [isNumberStart, isDigit_of_isDigit19 hb]⟩
  · obtain ⟨u, hu, v, -, rfl⟩ := Regex.mem_seq.mp hw
    exact hminus hu
  · obtain ⟨u, hu, v, -, rfl⟩ := Regex.mem_seq.mp hw
    exact hminus hu

theorem head_number {w : List UInt8} (hw : w ∈ number.lang) : ∃ b v, w = b :: v ∧ isNumberStart b = true := by
  have hseq : ∀ {r : Regex UInt8}, w ∈ (Regex.seq int r).lang → ∃ b v, w = b :: v ∧ isNumberStart b = true := by
    intro r h
    obtain ⟨u, hu, v, -, rfl⟩ := Regex.mem_seq.mp h
    obtain ⟨b, t, rfl, hb⟩ := head_int hu
    exact ⟨b, t ++ v, rfl, hb⟩
  simp only [number, Regex.mem_alt] at hw
  rcases hw with hw | hw | hw | hw
  · exact head_int hw
  · exact hseq hw
  · exact hseq hw
  · exact hseq hw

/-- Neighbours in a number: a minus does not follow a digit. -/
def NoMinus (a b : UInt8) : Prop := isDigit a = true → b ≠ ch '-'

/-- The shape of a number and of its parts: no minus behind a digit, and a digit at the end. -/
structure Shape (w : List UInt8) : Prop where
  chain : w.IsChain NoMinus
  last  : ∃ v d, w = v ++ [d] ∧ isDigit d = true

theorem Shape.cons {w : List UInt8} (h : Shape w) {c : UInt8} (hc : isDigit c = true → ∀ b ∈ w.head?, b ≠ ch '-') :
    Shape (c :: w) := by
  refine ⟨List.isChain_cons.mpr ⟨fun b hb hd => hc hd b hb, h.chain⟩, ?_⟩
  obtain ⟨v, d, rfl, hd⟩ := h.last
  exact ⟨c :: v, d, rfl, hd⟩

theorem Shape.append {u v : List UInt8} (hu : Shape u) (hv : Shape v) (hhead : ∀ b ∈ v.head?, b ≠ ch '-') :
    Shape (u ++ v) := by
  refine ⟨List.isChain_append.mpr ⟨hu.chain, hv.chain, fun _ _ b hb _ => hhead b hb⟩, ?_⟩
  obtain ⟨w, d, rfl, hd⟩ := hv.last
  exact ⟨u ++ w, d, (List.append_assoc ..).symm, hd⟩

theorem shape_digits {w : List UInt8} (hw : w ∈ digits.lang) : Shape w ∧ ∀ b ∈ w.head?, b ≠ ch '-' := by
  obtain ⟨hne, hall⟩ := Regex.mem_plus_cls.mp hw
  have hminus : ∀ b ∈ w, b ≠ ch '-' := by
    rintro b hb rfl
    exact absurd (hall _ hb) (by decide)
  refine ⟨⟨?_, w.dropLast, w.getLast hne, (List.dropLast_append_getLast hne).symm, hall _ (List.getLast_mem hne)⟩,
    fun b hb => hminus b (List.mem_of_mem_head? hb)⟩
  have hpair : w.Pairwise NoMinus := List.pairwise_of_forall_mem_list (fun _ _ b hb _ => hminus b hb)
  exact hpair.isChain

theorem shape_int {w : List UInt8} (hw : w ∈ int.lang) : Shape w := by
  have hsign : ∀ {u v : List UInt8}, u ∈ (Regex.word [ch '-']).lang → Shape v → Shape (u ++ v) := by
    intro u v hu hv
    rw [Regex.mem_word.mp hu]
    exact hv.cons (fun h => absurd h (by decide))
  have hrun : ∀ {w : List UInt8}, w ∈ (Regex.seq (.cls isDigit19) digits).lang → Shape w := by
    intro w hw
    obtain ⟨_, ⟨b, -, rfl⟩, ds, hds, rfl⟩ := Regex.mem_seq.mp hw
    exact (shape_digits hds).1.cons (fun _ => (shape_digits hds).2)
  simp only [int, Regex.mem_alt] at hw
  rcases hw with hw | hw | hw | hw
  · obtain ⟨b, hb, rfl⟩ := Regex.mem_cls.mp hw
    exact ⟨List.isChain_singleton _, [], b, rfl, hb⟩
  · exact hrun hw
  · obtain ⟨u, hu, v, hv, rfl⟩ := Regex.mem_seq.mp hw
    exact hsign hu (shape_digits hv).1
  · obtain ⟨u, hu, v, hv, rfl⟩ := Regex.mem_seq.mp hw
    exact hsign hu (hrun hv)

theorem shape_frac {w : List UInt8} (hw : w ∈ frac.lang) : Shape w ∧ ∀ b ∈ w.head?, b ≠ ch '-' := by
  obtain ⟨_, ⟨b, hb, rfl⟩, ds, hds, rfl⟩ := Regex.mem_seq.mp hw
  obtain rfl := eq_of_beq hb
  refine ⟨(shape_digits hds).1.cons (fun h => absurd h (by decide)), ?_⟩
  intro c hc
  obtain rfl := Option.some.inj hc
  decide

theorem shape_exp {w : List UInt8} (hw : w ∈ exp.lang) : Shape w ∧ ∀ b ∈ w.head?, b ≠ ch '-' := by
  obtain ⟨_, ⟨e, he, rfl⟩, _, ⟨sign, hsign, ds, hds, rfl⟩, rfl⟩ := Regex.mem_seq.mp hw
  have he' : e = ch 'E' ∨ e = ch 'e' := by simpa using he
  have hrest : Shape (sign ++ ds) := by
    rcases Regex.mem_opt.mp hsign with ⟨b, hb, rfl⟩ | rfl
    · refine (shape_digits hds).1.cons (fun h => ?_)
      have hb' : b = ch '+' ∨ b = ch '-' := by simpa using hb
      rcases hb' with rfl | rfl <;> exact absurd h (by decide)
    · exact (shape_digits hds).1
  constructor
  · refine hrest.cons (fun h => ?_)
    rcases he' with rfl | rfl <;> exact absurd h (by decide)
  · intro c hc
    obtain rfl := Option.some.inj hc
    rcases he' with rfl | rfl <;> decide

theorem shape_number {w : List UInt8} (hw : w ∈ number.lang) : Shape w := by
  simp only [number, Regex.mem_alt] at hw
  rcases hw with hw | hw | hw | hw
  · exact shape_int hw
  · obtain ⟨i, hi, f, hf, rfl⟩ := Regex.mem_seq.mp hw
    exact (shape_int hi).append (shape_frac hf).1 (shape_frac hf).2
  · obtain ⟨i, hi, e, he, rfl⟩ := Regex.mem_seq.mp hw
    exact (shape_int hi).append (shape_exp he).1 (shape_exp he).2
  · obtain ⟨i, hi, _, ⟨f, hf, e, he, rfl⟩, rfl⟩ := Regex.mem_seq.mp hw
    rw [← List.append_assoc]
    exact ((shape_int hi).append (shape_frac hf).1 (shape_frac hf).2).append (shape_exp he).1 (shape_exp he).2

theorem mem_string {w : List UInt8} : w ∈ string.lang ↔ ∃ m, w = dblQuote :: (m ++ [dblQuote]) := by
  unfold string
  simp only [Regex.mem_seq, Regex.mem_cls, Regex.mem_star_cls]
  constructor
  · rintro ⟨_, ⟨q, hq, rfl⟩, _, ⟨m, -, _, ⟨q', hq', rfl⟩, rfl⟩, rfl⟩
    exact ⟨m, by rw [eq_of_beq hq, eq_of_beq hq']; rfl⟩
  · rintro ⟨m, rfl⟩
    exact ⟨[dblQuote], ⟨dblQuote, by decide, rfl⟩, m ++ [dblQuote], ⟨m, by simp, [dblQuote], ⟨dblQuote, by decide, rfl⟩, rfl⟩, rfl⟩

theorem eq_of_isBlank {b : UInt8} (h : isBlank b = true) : b = 0x20 ∨ b = 0x09 ∨ b = 0x0B := by
  simpa [isBlank, or_assoc] using h

/-- A match that starts as a number does is a number, or that byte alone. -/
theorem mem_rules_number {x : Regex UInt8 × Action} (hx : x ∈ rules) {b : UInt8} {w : List UInt8}
    (hb : isNumberStart b = true) (hw : b :: w ∈ x.1.lang) : b :: w ∈ number.lang ∨ w = [] := by
  rcases mem_rules hx hw with h | h | h | h | ⟨c, h⟩
  · exact .inl h
  · obtain ⟨m, heq⟩ := mem_string.mp h
    exact absurd (List.cons.inj heq).1 (ne_of_isNumberStart hb (by decide))
  · rcases eq_of_isBlank (h b (List.mem_cons_self ..)) with rfl | rfl | rfl <;> exact absurd hb (by decide)
  · simp only [List.mem_cons, List.not_mem_nil, or_false] at h
    rcases h with h | h | h | h | h
    all_goals exact absurd (List.cons.inj h).1 (ne_of_isNumberStart hb (by decide))
  · exact .inr (List.cons.inj h).2

/-- A match that starts with a quote is a string, or the quote alone. -/
theorem mem_rules_string {x : Regex UInt8 × Action} (hx : x ∈ rules) {w : List UInt8}
    (hw : dblQuote :: w ∈ x.1.lang) : dblQuote :: w ∈ string.lang ∨ w = [] := by
  rcases mem_rules hx hw with h | h | h | h | ⟨c, h⟩
  · obtain ⟨b, v, heq, hb⟩ := head_number h
    rw [← (List.cons.inj heq).1] at hb
    exact absurd hb (by decide)
  · exact .inl h
  · exact absurd (h dblQuote (List.mem_cons_self ..)) (by decide)
  · simp only [List.mem_cons, List.not_mem_nil, or_false] at h
    rcases h with h | h | h | h | h
    all_goals exact absurd (List.cons.inj h).1 (by decide)
  · exact .inr (List.cons.inj h).2

/-- What starts with none of these bytes is no comment, no line end and no NUL: the rules behind them decide. -/
theorem ruleOf_behind {b : UInt8} (hb : b ∉ [ch '/', ch '#', 0x0D, 0x0A, 0]) (w : List UInt8) :
    ruleOf rules (b :: w) = ruleOf (rules.drop 5) (b :: w) := by
  have hword : ∀ c ∈ [ch '/', ch '#', 0x0D, 0x0A, 0], ∀ cs, b :: w ∉ (Regex.word (c :: cs)).lang := by
    intro c hc cs hmem
    obtain rfl := (List.cons.inj (Regex.mem_word.mp hmem)).1
    exact hb hc
  have heol : b :: w ∉ (Regex.cls isEol).lang := by
    intro hmem
    obtain ⟨c, hc, heq⟩ := Regex.mem_cls.mp hmem
    obtain ⟨rfl, -⟩ := List.cons.inj heq
    have hend : b = 0x0D ∨ b = 0x0A := by simpa [isEol] using hc
    rcases hend with rfl | rfl
    · exact hb (by simp)
    · exact hb (by simp)
  rw [rules, ruleOf_of_not_mem (hword _ (by simp) _), ruleOf_of_not_mem (hword _ (by simp) _),
    ruleOf_of_not_mem (hword _ (by simp) _), ruleOf_of_not_mem heol, ruleOf_of_not_mem (hword _ (by simp) _)]
  rfl

/-- The first rule to match a number. -/
theorem ruleOf_number {u : List UInt8} (hu : u ∈ number.lang) : ruleOf rules u = some (.ret (.token .number)) := by
  obtain ⟨b, w, rfl, hb⟩ := head_number hu
  have hother : ∀ c ∈ [ch '/', ch '#', 0x0D, 0x0A, 0], isNumberStart c = false := by
    simp only [List.forall_mem_cons]
    exact ⟨rfl, rfl, rfl, rfl, rfl, fun c hc => absurd hc List.not_mem_nil⟩
  have hstring : b :: w ∉ string.lang := by
    intro h
    obtain ⟨m, heq⟩ := mem_string.mp h
    exact ne_of_isNumberStart hb (by decide) (List.cons.inj heq).1
  rw [ruleOf_behind (fun hmem => ne_of_isNumberStart hb (hother b hmem) rfl)]
  exact (ruleOf_of_not_mem hstring).trans (ruleOf_of_mem hu)

/-- The first rule to match a string. -/
theorem ruleOf_string {u : List UInt8} (hu : u ∈ string.lang) : ruleOf rules u = some (.ret (.token .string)) := by
  obtain ⟨m, rfl⟩ := mem_string.mp hu
  rw [ruleOf_behind (by decide)]
  exact ruleOf_of_mem hu

/-- **A number** ends where no byte of a number follows, or the minus of the next one. -/
theorem munch_number {u v : List UInt8} (hu : u ∈ number.lang)
    (hv : ∀ b ∈ v.head?, isNumberByte b = false ∨ b = ch '-') :
    munch rules (u ++ v) = some (.ret (.token .number), u.length) := by
  apply munch_append (ruleOf_number hu)
  intro x hx p hp hpv hmem
  obtain ⟨w, d, hd, hdig⟩ := (shape_number hu).last
  obtain ⟨b, t, rfl, hb⟩ := head_number hu
  obtain ⟨c, p, rfl⟩ := List.exists_cons_of_ne_nil hp
  rcases mem_rules_number hx hb hmem with h | h
  · -- the number would go on with `c`
    have hhead : c ∈ v.head? := by
      obtain ⟨q, rfl⟩ := hpv
      rfl
    rcases hv c hhead with hc | rfl
    · have hc' := Regex.mem_of_over over_number h c (by simp)
      rw [hc] at hc'
      exact absurd hc' (by decide)
    · have hchain : (b :: t ++ ch '-' :: p).IsChain NoMinus := (shape_number h).chain
      rw [hd, List.append_assoc] at hchain
      exact (List.isChain_append.mp hchain).2.1.rel hdig rfl
  · exact absurd h (by simp)

/-- **A string** ends at the last quote in sight: here it is the string's own. -/
theorem munch_string {u v : List UInt8} (hu : u ∈ string.lang) (hv : dblQuote ∉ v) :
    munch rules (u ++ v) = some (.ret (.token .string), u.length) := by
  apply munch_append (ruleOf_string hu)
  intro x hx p hp hpv hmem
  obtain ⟨m, rfl⟩ := mem_string.mp hu
  rcases mem_rules_string hx hmem with h | h
  · -- the last byte of the longer match would be a quote of `v`
    obtain ⟨m', heq⟩ := mem_string.mp h
    have htail : (m ++ [dblQuote]) ++ p = m' ++ [dblQuote] := (List.cons.inj heq).2
    have hlast := congrArg List.getLast? htail
    rw [List.getLast?_append_of_ne_nil _ hp, List.getLast?_concat] at hlast
    exact hv (hpv.subset (List.mem_of_getLast? hlast))
  · exact absurd h (by simp)

/-- **A string that another quote follows** does not end where it should. -/
theorem munch_string_longer {u v : List UInt8} (hu : u ∈ string.lang) (hv : dblQuote ∈ v) :
    ∃ n, u.length < n ∧ munch rules (u ++ v) = some (.ret (.token .string), n) := by
  obtain ⟨v₁, v₂, rfl⟩ := List.append_of_mem hv
  obtain ⟨m, rfl⟩ := mem_string.mp hu
  -- the match up to the later quote
  have hlater : ∃ k, (dblQuote :: (m ++ [dblQuote])).length < k ∧
      k ≤ (dblQuote :: (m ++ [dblQuote]) ++ (v₁ ++ dblQuote :: v₂)).length ∧
      (dblQuote :: (m ++ [dblQuote]) ++ (v₁ ++ dblQuote :: v₂)).take k ∈ string.lang := by
    refine ⟨(dblQuote :: (m ++ [dblQuote])).length + (v₁.length + 1), by omega, by simp; omega, ?_⟩
    rw [List.take_length_add_append, List.take_length_add_append]
    exact mem_string.mpr ⟨m ++ [dblQuote] ++ v₁, by simp⟩
  obtain ⟨k, hk, hkle, hmem⟩ := hlater
  cases hmunch : munch rules (dblQuote :: (m ++ [dblQuote]) ++ (v₁ ++ dblQuote :: v₂)) with
  | none =>
      have hnone := munch_eq_none_iff.mp hmunch k hkle
      rw [ruleOf_string hmem] at hnone
      exact absurd hnone (by simp)
  | some x =>
      obtain ⟨t, n⟩ := x
      have hlong := munch_eq_some_iff.mp hmunch
      have hn : k ≤ n := by
        by_contra hlt
        have hnone := hlong.longest k (by omega) hkle
        rw [ruleOf_string hmem] at hnone
        exact absurd hnone (by simp)
      refine ⟨n, by omega, ?_⟩
      -- the longest match starts with a quote and is more than that
      obtain ⟨n, rfl⟩ : ∃ j, n = j + 1 := ⟨n - 1, by simp at hk; omega⟩
      have hrule := hlong.rule
      have hsome : ¬ ∀ x ∈ rules, (dblQuote :: ((m ++ [dblQuote]) ++ (v₁ ++ dblQuote :: v₂)).take n) ∉ x.1.lang := by
        intro hno
        rw [← ruleOf_eq_none] at hno
        exact absurd (hrule.symm.trans hno) (by simp)
      push Not at hsome
      obtain ⟨y, hy, hw⟩ := hsome
      rcases mem_rules_string hy hw with h | h
      · have ht := hrule.symm.trans (ruleOf_string h)
        rw [Option.some.inj ht]
      · have hlen := congrArg List.length h
        rw [List.length_take] at hlen
        simp at hlen hk hkle
        omega

/-- **A run of blanks.** -/
theorem munch_blank {u v : List UInt8} (hu : u ≠ []) (hall : ∀ b ∈ u, isBlank b = true)
    (hv : ∀ b ∈ v.head?, isBlank b = false) : munch rules (u ++ v) = some (.goto none .std, u.length) := by
  obtain ⟨a, u, rfl⟩ := List.exists_cons_of_ne_nil hu
  have ha := hall a (List.mem_cons_self ..)
  have hne : ∀ c, isBlank c = false → a ≠ c := by
    rintro c hc rfl
    rw [hc] at ha
    exact absurd ha (by decide)
  have hword : ∀ {c : UInt8} {cs : List UInt8}, isBlank c = false → a :: u ∉ (Regex.word (c :: cs)).lang :=
    fun hc h => hne _ hc (List.cons.inj (Regex.mem_word.mp h)).1
  have hfront : a ∉ [ch '/', ch '#', 0x0D, 0x0A, 0] := by
    intro hmem
    have hother : ∀ c ∈ [ch '/', ch '#', 0x0D, 0x0A, 0], isBlank c = false := by
      simp only [List.forall_mem_cons]
      exact ⟨rfl, rfl, rfl, rfl, rfl, fun c hc => absurd hc List.not_mem_nil⟩
    exact hne a (hother a hmem) rfl
  have hstring : ∀ p, a :: u ++ p ∉ string.lang := by
    intro p h
    obtain ⟨m, heq⟩ := mem_string.mp h
    exact hne _ (by decide) (List.cons.inj heq).1
  have hnumber : ∀ p, a :: u ++ p ∉ number.lang := by
    intro p h
    obtain ⟨b, w, heq, hb⟩ := head_number h
    rw [← (List.cons.inj heq).1] at hb
    rcases eq_of_isBlank ha with rfl | rfl | rfl <;> exact absurd hb (by decide)
  apply munch_append
  · have hs := hstring []
    have hn := hnumber []
    rw [List.append_nil] at hs hn
    rw [ruleOf_behind hfront, rules]
    simp only [List.drop_succ_cons, List.drop_zero]
    rw [ruleOf_of_not_mem hs, ruleOf_of_not_mem hn, ruleOf_of_not_mem (hword (by decide)),
      ruleOf_of_not_mem (hword (by decide)), ruleOf_of_not_mem (hword (by decide)),
      ruleOf_of_not_mem (hword (by decide)), ruleOf_of_not_mem (hword (by decide)),
      ruleOf_of_not_mem (hword (by decide)), ruleOf_of_not_mem (hword (by decide)),
      ruleOf_of_not_mem (hword (by decide)), ruleOf_of_not_mem (hword (by decide))]
    refine ruleOf_of_mem (Regex.mem_seq.mpr ⟨a :: u, Regex.mem_plus_cls.mpr ⟨hu, hall⟩, [], ?_, List.append_nil _⟩)
    exact Regex.nil_mem_star
  · intro x hx p hp hpv hmem
    obtain ⟨c, p, rfl⟩ := List.exists_cons_of_ne_nil hp
    have hhead : c ∈ v.head? := by
      obtain ⟨q, rfl⟩ := hpv
      rfl
    rcases mem_rules hx hmem with h | h | h | h | ⟨d, h⟩
    · exact hnumber _ h
    · exact hstring _ h
    · -- the run would go on with `c`
      have hblank := h c (by simp)
      rw [hv c hhead] at hblank
      exact absurd hblank (by decide)
    · simp only [List.mem_cons, List.not_mem_nil, or_false] at h
      rcases h with h | h | h | h | h
      all_goals exact hne _ (by decide) (List.cons.inj h).1
    · exact absurd (congrArg List.length h) (by simp)

/-! ## The results, token by token -/

theorem scanned_nil : scanned [] = [(.eof, [])] := Blocks.events_end rfl

/-- A token whose text fits in the buffer. -/
theorem scanned_token {t : Terminal} {u v : List UInt8} (hu : u ≠ []) (hlen : u.length ≤ BUFSIZE)
    (h : ∀ v', v' <+: v → munch rules (u ++ v') = some (.ret (.token t), u.length)) :
    scanned (u ++ v) = (.token t, u) :: scanned v := by
  obtain ⟨b, w, rfl⟩ := List.exists_cons_of_ne_nil hu
  have hm : munch (blocks.block .std) (Blocks.window (some BUFSIZE) (blocks.token .std []) (b :: w ++ v))
      = some (.ret (.token t), w.length + 1) := by
    show munch rules ((b :: w ++ v).take (BUFSIZE - 0)) = _
    rw [Nat.sub_zero, List.take_append, List.take_of_length_le hlen]
    exact h _ (List.take_prefix _ _)
  unfold scanned
  rw [Blocks.events_ret hm, ← @List.length_cons _ b, List.take_left, List.drop_left]
  rfl

/-- A match that goes on at `std`. -/
theorem scanned_skip {w : List UInt8} {n : Nat} (h : munch rules (w.take BUFSIZE) = some (.goto none .std, n + 1)) :
    scanned w = scanned (w.drop (n + 1)) := by
  have hm : munch (blocks.block .std) (Blocks.window (some BUFSIZE) (blocks.token .std []) w)
      = some (.goto none .std, n + 1) := h
  unfold scanned
  rw [Blocks.events_goto hm]
  exact Blocks.events_std blocks _ _ _

/-- A line end is skipped. -/
theorem scanned_eol {b : UInt8} (hb : isEol b = true) (w : List UInt8) : scanned (b :: w) = scanned w := by
  refine @scanned_skip (b :: w) 0 ?_
  have hb' : b = 0x0D ∨ b = 0x0A := by simpa [isEol] using hb
  rcases hb' with rfl | rfl
  · exact @munch_of_stuck _ _ rules [0x0D] _ (by decide +kernel) (by decide +kernel) (w.take 4095)
  · exact @munch_of_stuck _ _ rules [0x0A] _ (by decide +kernel) (by decide +kernel) (w.take 4095)

/-- A run of blanks that the match takes as a whole. -/
theorem scanned_run {r v : List UInt8} (hr : r ≠ []) (hall : ∀ b ∈ r, isBlank b = true) (hlen : r.length ≤ BUFSIZE)
    (hv : ∀ b ∈ (v.take (BUFSIZE - r.length)).head?, isBlank b = false) : scanned (r ++ v) = scanned v := by
  obtain ⟨a, r, rfl⟩ := List.exists_cons_of_ne_nil hr
  have hm : munch rules ((a :: r ++ v).take BUFSIZE) = some (.goto none .std, r.length + 1) := by
    rw [List.take_append, List.take_of_length_le hlen]
    exact munch_blank hr hall hv
  rw [scanned_skip hm, ← @List.length_cons _ a, List.drop_left]

/-- Blanks that fill the window are skipped, whatever is behind them. -/
theorem scanned_window {r v : List UInt8} (hr : ∀ c ∈ r, isBlank c = true) (hlen : r.length = BUFSIZE) :
    scanned (r ++ v) = scanned v := by
  refine scanned_run ?_ hr (Nat.le_of_eq hlen) ?_
  · rintro rfl
    exact absurd hlen (by decide)
  · rw [hlen, Nat.sub_self, List.take_zero]
    simp

/-- A blank in front of a run that ends in the window: both runs end where the blanks end. -/
theorem scanned_blank_short {b : UInt8} (hb : isBlank b = true) {w : List UInt8}
    (hlt : (w.takeWhile isBlank).length < BUFSIZE) : scanned (b :: w) = scanned w := by
  have hsplit : w = w.takeWhile isBlank ++ w.dropWhile isBlank := (List.takeWhile_append_dropWhile).symm
  have hrun : ∀ c ∈ w.takeWhile isBlank, isBlank c = true := List.all_eq_true.mp List.all_takeWhile
  have hrest : ∀ k, ∀ c ∈ ((w.dropWhile isBlank).take k).head?, isBlank c = false := by
    intro k c hc
    have hnot := List.head?_dropWhile_not isBlank w
    rw [List.head?_take] at hc
    by_cases hk : k = 0
    · rw [if_pos hk] at hc
      exact absurd hc (by simp)
    · rw [if_neg hk] at hc
      rw [Option.mem_def.mp hc] at hnot
      exact hnot
  have hcons : scanned (b :: w) = scanned (w.dropWhile isBlank) := by
    conv_lhs => rw [hsplit, ← List.cons_append]
    refine scanned_run (List.cons_ne_nil _ _) ?_ hlt (hrest _)
    intro c hc
    rcases List.mem_cons.mp hc with rfl | hc
    · exact hb
    · exact hrun c hc
  rw [hcons]
  by_cases hnil : w.takeWhile isBlank = []
  · conv_rhs => rw [hsplit, hnil, List.nil_append]
  · conv_rhs => rw [hsplit]
    exact (scanned_run hnil hrun (Nat.le_of_lt hlt) (hrest _)).symm

/-- A blank in front of a run that fills the window: without it the window ends one blank later. -/
theorem scanned_blank_long {b : UInt8} (hb : isBlank b = true) {w : List UInt8}
    (hge : BUFSIZE ≤ (w.takeWhile isBlank).length) :
    ∃ c v, isBlank c = true ∧ v.length < w.length ∧ scanned (b :: w) = scanned (c :: v) ∧ scanned w = scanned v := by
  have hpre : w.takeWhile isBlank <+: w := List.takeWhile_prefix isBlank
  have hlen : BUFSIZE ≤ w.length := Nat.le_trans hge hpre.length_le
  have hpos : BUFSIZE - 1 < w.length := Nat.lt_of_lt_of_le (by decide) hlen
  have h0 : 0 < BUFSIZE := by decide
  have hrun : ∀ c ∈ w.take BUFSIZE, isBlank c = true := by
    intro c hc
    rw [← List.takeWhile_append_dropWhile (p := isBlank) (l := w), List.take_append_of_le_length hge] at hc
    exact List.all_eq_true.mp List.all_takeWhile c (List.mem_of_mem_take hc)
  have hw : scanned w = scanned (w.drop BUFSIZE) := by
    have h := @scanned_window _ (w.drop BUFSIZE) hrun (List.length_take_of_le hlen)
    rwa [List.take_append_drop] at h
  have hbw : scanned (b :: w) = scanned (w.drop (BUFSIZE - 1)) := by
    have h := @scanned_window (b :: w.take (BUFSIZE - 1)) (w.drop (BUFSIZE - 1)) ?_ ?_
    · rwa [List.cons_append, List.take_append_drop] at h
    · intro c hc
      rcases List.mem_cons.mp hc with rfl | hc
      · exact hb
      · exact hrun c ((List.take_prefix_take_left (Nat.sub_le BUFSIZE 1)).subset hc)
    · rw [List.length_cons, List.length_take]
      omega
  refine ⟨w[BUFSIZE - 1], w.drop BUFSIZE, ?_, ?_, ?_, hw⟩
  · refine hrun _ (@List.mem_of_getElem? _ _ (BUFSIZE - 1) _ ?_)
    rw [List.getElem?_take_of_lt (by decide), List.getElem?_eq_getElem hpos]
  · rw [List.length_drop]
    omega
  · rw [hbw, List.drop_eq_getElem_cons hpos]
    rfl

/-- A blank is skipped, however long the run is that it starts. -/
theorem scanned_blank {b : UInt8} (hb : isBlank b = true) (w : List UInt8) : scanned (b :: w) = scanned w := by
  induction hn : w.length using Nat.strong_induction_on generalizing b w with
  | _ n ih =>
      rcases Nat.lt_or_ge (w.takeWhile isBlank).length BUFSIZE with hlt | hge
      · exact scanned_blank_short hb hlt
      · obtain ⟨c, v, hc, hlt, hbw, hw⟩ := scanned_blank_long hb hge
        rw [hbw, hw]
        exact ih v.length (hn ▸ hlt) hc v rfl

end Tokenizer
end CSamples
