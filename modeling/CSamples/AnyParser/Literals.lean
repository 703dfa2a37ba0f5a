import CSamples.AnyParser.Constants

/-!
# `AnyParser.Literals` — string literals and character constants

The rule for strings ends at the first double quote, whatever stands in front of it. Of the three rules for character
constants one ends at the first quote, and `ES` knows no escaped backslash. So a literal with an escaped quote of
its own kind inside is cut short, unless it is a character constant made of the escapes of `ES`.

## Contents
- **Specification.** `Literal`, by the grammar of C.
- `Literal.Whole`: the literals without such a quote.
- `call_literal_iff`: the scanner returns a literal whole if and only if it is one of these.
-/

namespace CSamples
namespace AnyParser

open C CSamples.Lex CSamples.Scanner

/-! ## The literals of C -/

def backslash : UInt8 := 0x5C
def newLine : UInt8 := 0x0A

/-- `simple-escape-sequence` -/
def simpleEscape : Regex UInt8 :=
  .seq (.word [backslash])
    (oneOf [quote, dblQuote, ch '?', backslash, ch 'a', ch 'b', ch 'f', ch 'n', ch 'r', ch 't', ch 'v'])

/-- `octal-escape-sequence`: one to three octal digits. -/
def octalEscape : Regex UInt8 :=
  .seq (.word [backslash]) (.seq (.cls isOct) (.opt (.seq (.cls isOct) (.opt (.cls isOct)))))

/-- `hexadecimal-escape-sequence` -/
def hexadecimalEscape : Regex UInt8 := .seq (.word [backslash, ch 'x']) (.plus (.cls isHex))

/-- `hex-quad` -/
def hexQuad : Regex UInt8 := .seq (.cls isHex) (.seq (.cls isHex) (.seq (.cls isHex) (.cls isHex)))

/-- `universal-character-name` -/
def universalName : Regex UInt8 :=
  .alt (.seq (.word [backslash, ch 'u']) hexQuad) (.seq (.word [backslash, ch 'U']) (.seq hexQuad hexQuad))

/-- `escape-sequence`, and the universal character names that may stand for a character. -/
def escape : Regex UInt8 := .alt simpleEscape (.alt octalEscape (.alt hexadecimalEscape universalName))

/-- A character of a literal between quotes `q`: any one except the quote, a backslash and a newline, or an escape. -/
def character (q : UInt8) : Regex UInt8 := .alt (.cls (fun b => b != q && b != backslash && b != newLine)) escape

/-- `encoding-prefix` of a string literal. -/
def stringPrefix : Regex UInt8 := .alt (.word [ch 'u', ch '8']) (oneOf [ch 'u', ch 'U', ch 'L'])

/-- The prefixes of a character constant. -/
def characterPrefix : Regex UInt8 := oneOf [ch 'u', ch 'U', ch 'L']

/-- A `string-literal`, or a `character-constant`. -/
inductive Literal where
  | string (front body : List UInt8) (hfront : front ∈ (Regex.opt stringPrefix).lang)
      (hbody : body ∈ (Regex.star (character dblQuote)).lang)
  | character (front body : List UInt8) (hfront : front ∈ (Regex.opt characterPrefix).lang)
      (hbody : body ∈ (Regex.plus (character quote)).lang)

/-- The bytes of a literal. -/
def Literal.text : Literal → List UInt8
  | .string front body _ _    => front ++ dblQuote :: (body ++ [dblQuote])
  | .character front body _ _ => front ++ quote :: (body ++ [quote])

/-- What the scanner is to return for it. -/
def Literal.terminal : Literal → Terminal
  | .string _ _ _ _    => .stringLiteral
  | .character _ _ _ _ => .iConstant

/-- There is no quote of the literal's own kind between its quotes; or it is a character constant, made of the
    escapes of `ES`. -/
def Literal.Whole : Literal → Prop
  | .string _ body _ _    => dblQuote ∉ body
  | .character _ body _ _ => quote ∉ body ∨ body ∈ (Regex.plus es).lang

/-! ## Quotes -/

/-- The first quote splits a text in one way. -/
theorem eq_of_first {q : UInt8} {u u' v v' : List UInt8} (hu : q ∉ u) (hu' : q ∉ u') (h : u ++ q :: v = u' ++ q :: v') :
    u = u' ∧ v = v' := by
  rcases List.append_eq_append_iff.mp h with ⟨w, hw, htail⟩ | ⟨w, hw, htail⟩
  · cases w with
    | nil => exact ⟨by simpa using hw.symm, (List.cons.inj htail).2⟩
    | cons c w =>
        refine absurd ?_ hu'
        rw [hw, (List.cons.inj htail).1]
        exact List.mem_append_right _ (List.mem_cons_self ..)
  · cases w with
    | nil => exact ⟨by simpa using hw, (List.cons.inj htail).2.symm⟩
    | cons c w =>
        refine absurd ?_ hu
        rw [hw, (List.cons.inj htail).1]
        exact List.mem_append_right _ (List.mem_cons_self ..)

/-- A prefix holds no quote. -/
theorem quote_not_mem_front {front : List UInt8} (h : front ∈ (Regex.opt sp).lang) :
    quote ∉ front ∧ dblQuote ∉ front := by
  have hover : Regex.Over isAlpha (.opt sp) := ⟨⟨over_word (by decide), over_oneOf (by decide)⟩, trivial⟩
  have halpha := Regex.mem_of_over hover h
  exact ⟨fun hq => absurd (halpha _ hq) (by decide), fun hq => absurd (halpha _ hq) (by decide)⟩

theorem cp_le {front : List UInt8} (h : front ∈ (Regex.opt cp).lang) : front ∈ (Regex.opt sp).lang :=
  opt_le (fun _ h => Regex.mem_alt.mpr (.inr h)) h

/-- The words of the rule for strings, with any prefix. -/
theorem mem_stringLiteral_iff {front body : List UInt8} (hfront : front ∈ (Regex.opt sp).lang) :
    front ++ dblQuote :: body ∈ stringLiteral.lang ↔ ∃ m, dblQuote ∉ m ∧ body = m ++ [dblQuote] := by
  constructor
  · rintro ⟨f, hf, _, ⟨o, ho, _, ⟨m, hm, c, hc, rfl⟩, rfl⟩, heq⟩
    rw [Regex.mem_word.mp ho, Regex.mem_word.mp hc] at heq
    have heq' : f ++ dblQuote :: (m ++ [dblQuote]) = front ++ dblQuote :: body := heq
    have hquotes := eq_of_first (quote_not_mem_front hf).2 (quote_not_mem_front hfront).2 heq'
    refine ⟨m, ?_, hquotes.2.symm⟩
    intro hmem
    have hne := Regex.mem_star_cls.mp hm _ hmem
    exact absurd hne (by decide)
  · rintro ⟨m, hm, rfl⟩
    refine ⟨front, hfront, _, ⟨[dblQuote], Regex.mem_word.mpr rfl, _, ⟨m, ?_, [dblQuote], Regex.mem_word.mpr rfl, rfl⟩, rfl⟩, rfl⟩
    apply Regex.mem_star_cls.mpr
    intro b hb
    have hne : b ≠ dblQuote := by
      rintro rfl
      exact hm hb
    simpa using hne

/-- The words of a rule for character constants, with any prefix. -/
theorem mem_quoted_iff {front body : List UInt8} {r : Regex UInt8} (hfront : front ∈ (Regex.opt cp).lang) :
    front ++ quote :: body ∈ (quoted r).lang ↔ ∃ m ∈ r.lang, body = m ++ [quote] := by
  constructor
  · rintro ⟨f, hf, _, ⟨o, ho, _, ⟨m, hm, c, hc, rfl⟩, rfl⟩, heq⟩
    rw [Regex.mem_word.mp ho, Regex.mem_word.mp hc] at heq
    have heq' : f ++ quote :: (m ++ [quote]) = front ++ quote :: body := heq
    have hquotes := eq_of_first (quote_not_mem_front (cp_le hf)).1 (quote_not_mem_front (cp_le hfront)).1 heq'
    exact ⟨m, hm, hquotes.2.symm⟩
  · rintro ⟨m, hm, rfl⟩
    exact ⟨front, hfront, _, ⟨[quote], Regex.mem_word.mpr rfl, _, ⟨m, hm, [quote], Regex.mem_word.mpr rfl, rfl⟩, rfl⟩, rfl⟩

/-! ## The rules that match -/

/-- The prefixes, one by one. -/
def fronts : List (List UInt8) := [[], [ch 'u', ch '8'], [ch 'u'], [ch 'U'], [ch 'L']]

theorem mem_fronts {front : List UInt8} (h : front ∈ (Regex.opt sp).lang) : front ∈ fronts := by
  rcases Regex.mem_opt.mp h with h | rfl
  · rcases Regex.mem_alt.mp h with h | h
    · rw [Regex.mem_word.mp h]
      decide
    · obtain ⟨b, hb, rfl⟩ := mem_oneOf.mp h
      simp only [List.mem_cons, List.not_mem_nil, or_false] at hb
      rcases hb with rfl | rfl | rfl <;> decide
  · decide

theorem not_mem_of_derivs {r : Regex UInt8} {q : UInt8} (h : ∀ front ∈ fronts, (r.derivs (front ++ [q])).isEmpty = true)
    {front : List UInt8} (hfront : front ∈ (Regex.opt sp).lang) (v : List UInt8) : front ++ q :: v ∉ r.lang := by
  intro hmem
  refine Regex.not_mem_of_isEmpty (h front (mem_fronts hfront)) v ?_
  rw [Regex.mem_lang_derivs, List.append_assoc]
  exact hmem

/-- The rules that no string literal starts like, and those that no character constant starts like. -/
theorem derivs_isEmpty :
    (∀ x ∈ rules.take 6 ++ (rules.drop 7).take 10, ∀ front ∈ fronts,
      (x.1.derivs (front ++ [dblQuote])).isEmpty = true) ∧
    ∀ x ∈ rules.take 5 ++ (rules.drop 6).take 2 ++ (rules.drop 10).take 7, ∀ front ∈ fronts,
      (x.1.derivs (front ++ [quote])).isEmpty = true := by
  decide +kernel

/-- What a rule matches that starts like a string literal: up to the next double quote, or the quote alone. -/
theorem mem_rules_string {x : Regex UInt8 × Action} (hx : x ∈ rules) {front v : List UInt8}
    (hfront : front ∈ (Regex.opt sp).lang) (h : front ++ dblQuote :: v ∈ x.1.lang) :
    (∃ m, dblQuote ∉ m ∧ v = m ++ [dblQuote]) ∨ v = [] := by
  have hothers := derivs_isEmpty.1
  have hrules : rules = rules.take 6 ++ (stringLiteral, .ret (.token .stringLiteral)) ::
      ((rules.drop 7).take 10 ++ [(any, .ret (.token .any)), (any, .ret .unknown)]) := rfl
  rw [hrules] at hx
  have hany : front ++ dblQuote :: v ∈ any.lang → v = [] := by
    intro h
    obtain ⟨b, -, hb⟩ := Regex.mem_cls.mp h
    have hlen := congrArg List.length hb
    simp only [List.length_append, List.length_cons, List.length_nil] at hlen
    exact List.length_eq_zero_iff.mp (by omega)
  rcases List.mem_append.mp hx with hx | hx
  · exact absurd h (not_mem_of_derivs (hothers x (List.mem_append_left _ hx)) hfront v)
  · rcases List.mem_cons.mp hx with rfl | hx
    · exact .inl ((mem_stringLiteral_iff hfront).mp h)
    · rcases List.mem_append.mp hx with hx | hx
      · exact absurd h (not_mem_of_derivs (hothers x (List.mem_append_right _ hx)) hfront v)
      · simp only [List.mem_cons, List.not_mem_nil, or_false] at hx
        rcases hx with rfl | rfl
        · exact .inr (hany h)
        · exact .inr (hany h)

/-- What a rule matches that starts like a character constant: escapes of `ES` up to a quote, anything up to the next
    quote, or the quote alone. -/
theorem mem_rules_character {x : Regex UInt8 × Action} (hx : x ∈ rules) {front v : List UInt8}
    (hfront : front ∈ (Regex.opt cp).lang) (h : front ++ quote :: v ∈ x.1.lang) :
    (∃ m ∈ (Regex.plus es).lang, v = m ++ [quote]) ∨ (∃ m, quote ∉ m ∧ v = m ++ [quote]) ∨ v = [] := by
  have hothers := derivs_isEmpty.2
  have hrules : rules = rules.take 5 ++ (backslashes, .ret (.token .iConstant)) :: ((rules.drop 6).take 2 ++
      (quoted (.plus es), .ret (.token .iConstant)) ::
      (quoted (.plus (.cls (fun b => b != quote))), .ret (.token .iConstant)) ::
      ((rules.drop 10).take 7 ++ [(any, .ret (.token .any)), (any, .ret .unknown)])) := rfl
  rw [hrules] at hx
  have hany : front ++ quote :: v ∈ any.lang → v = [] := by
    intro h
    obtain ⟨b, -, hb⟩ := Regex.mem_cls.mp h
    have hlen := congrArg List.length hb
    simp only [List.length_append, List.length_cons, List.length_nil] at hlen
    exact List.length_eq_zero_iff.mp (by omega)
  rcases List.mem_append.mp hx with hx | hx
  · exact absurd h (not_mem_of_derivs (hothers x (List.mem_append_left _ (List.mem_append_left _ hx))) (cp_le hfront) v)
  rcases List.mem_cons.mp hx with rfl | hx
  · -- two backslashes between quotes
    have heq : front ++ quote :: v = [] ++ quote :: [0x5C, 0x5C, quote] := Regex.mem_word.mp h
    have hv := (eq_of_first (quote_not_mem_front (cp_le hfront)).1 List.not_mem_nil heq).2
    exact .inr (.inl ⟨[0x5C, 0x5C], by decide, hv⟩)
  rcases List.mem_append.mp hx with hx | hx
  · exact absurd h (not_mem_of_derivs (hothers x (List.mem_append_left _ (List.mem_append_right _ hx))) (cp_le hfront) v)
  rcases List.mem_cons.mp hx with rfl | hx
  · exact .inl ((mem_quoted_iff hfront).mp h)
  rcases List.mem_cons.mp hx with rfl | hx
  · obtain ⟨m, hm, hv⟩ := (mem_quoted_iff hfront).mp h
    refine .inr (.inl ⟨m, ?_, hv⟩)
    intro hq
    exact absurd ((Regex.mem_plus_cls.mp hm).2 quote hq) (by decide)
  rcases List.mem_append.mp hx with hx | hx
  · exact absurd h (not_mem_of_derivs (hothers x (List.mem_append_right _ hx)) (cp_le hfront) v)
  · simp only [List.mem_cons, List.not_mem_nil, or_false] at hx
    rcases hx with rfl | rfl
    · exact .inr (.inr (hany h))
    · exact .inr (.inr (hany h))

/-- The first rule that matches a string literal without a double quote inside. -/
theorem ruleOf_string {front body : List UInt8} (hfront : front ∈ (Regex.opt sp).lang) (hbody : dblQuote ∉ body) :
    ruleOf rules (front ++ dblQuote :: (body ++ [dblQuote])) = some (.ret (.token .stringLiteral)) := by
  have hempty : ∀ x ∈ rules.take 6, ∀ front ∈ fronts, (x.1.derivs (front ++ [dblQuote])).isEmpty = true :=
    fun x hx => derivs_isEmpty.1 x (List.mem_append_left _ hx)
  have hrules : rules = rules.take 6 ++ (stringLiteral, .ret (.token .stringLiteral)) :: rules.drop 7 := rfl
  rw [hrules, ruleOf_append_of_not_mem (fun x hx => not_mem_of_derivs (hempty x hx) hfront _)]
  exact ruleOf_of_mem ((mem_stringLiteral_iff hfront).mpr ⟨body, hbody, rfl⟩)

/-- The first rule that matches a character constant of the escapes of `ES`, or without a quote inside. -/
theorem ruleOf_character {front body : List UInt8} (hfront : front ∈ (Regex.opt cp).lang) (hne : body ≠ [])
    (hbody : quote ∉ body ∨ body ∈ (Regex.plus es).lang) :
    ruleOf rules (front ++ quote :: (body ++ [quote])) = some (.ret (.token .iConstant)) := by
  have hempty : ∀ x ∈ rules.take 5 ++ (rules.drop 6).take 2, ∀ front ∈ fronts,
      (x.1.derivs (front ++ [quote])).isEmpty = true :=
    fun x hx => derivs_isEmpty.2 x (List.mem_append_left _ hx)
  have hfront' : ∀ x ∈ rules.take 5 ++ (rules.drop 6).take 2, front ++ quote :: (body ++ [quote]) ∉ x.1.lang :=
    fun x hx => not_mem_of_derivs (hempty x hx) (cp_le hfront) _
  have hrules : rules = rules.take 5 ++ (backslashes, .ret (.token .iConstant)) :: ((rules.drop 6).take 2 ++
      ([(quoted (.plus es), .ret (.token .iConstant)),
        (quoted (.plus (.cls (fun b => b != quote))), .ret (.token .iConstant))] ++ rules.drop 10)) := rfl
  rw [hrules, ruleOf_append_of_not_mem (fun x hx => hfront' x (List.mem_append_left _ hx))]
  by_cases hb : front ++ quote :: (body ++ [quote]) ∈ backslashes.lang
  · exact ruleOf_of_mem hb
  · rw [ruleOf_of_not_mem hb, ruleOf_append_of_not_mem (fun x hx => hfront' x (List.mem_append_right _ hx))]
    refine ruleOf_append_of_mem (by simp) ?_ _
    rcases hbody with hq | hes
    · refine ⟨_, List.mem_cons_of_mem _ (List.mem_cons_self ..), (mem_quoted_iff hfront).mpr ⟨body, ?_, rfl⟩⟩
      refine Regex.mem_plus_cls.mpr ⟨hne, fun b hb => ?_⟩
      have hne : b ≠ quote := by
        rintro rfl
        exact hq hb
      simpa using hne
    · exact ⟨_, List.mem_cons_self .., (mem_quoted_iff hfront).mpr ⟨body, hes, rfl⟩⟩

/-! ## The scanner on a literal -/

/-- A quote behind the first word, and more behind it. -/
theorem mem_of_append_eq {q : UInt8} {u m p : List UInt8} (hp : p ≠ []) (h : u ++ [q] ++ p = m ++ [q]) : q ∈ m := by
  have hlen := congrArg List.length h
  have hpos := List.length_pos_of_ne_nil hp
  simp only [List.length_append, List.length_singleton] at hlen
  have hprefix : u ++ [q] <+: m := by
    refine List.prefix_of_prefix_length_le ⟨p, h⟩ ⟨[q], rfl⟩ ?_
    rw [List.length_append, List.length_singleton]
    omega
  exact hprefix.subset (List.mem_append_right _ (List.mem_singleton_self q))

theorem isSpace_of_isEscHex {b : UInt8} (h : isEscHex b = true) : isSpace b = false := by
  simp only [isEscHex, isSpace, isDigit, ch, Bool.and_eq_true, Bool.or_eq_true, beq_eq_false_iff_ne,
    Bool.or_eq_false_iff, Bool.and_eq_false_iff, decide_eq_false_iff_not, ne_eq, decide_eq_true_eq,
    UInt8.le_iff_toNat_le, ← UInt8.toNat_inj] at *
  simp at *
  omega

/-- No space in the escapes of `ES`. -/
theorem isSpace_of_mem_es {m : List UInt8} (h : m ∈ (Regex.plus es).lang) {b : UInt8} (hb : b ∈ m) :
    isSpace b = false := by
  have hhex : ∀ b : UInt8, isEscHex b = true → (!isSpace b) = true := by
    intro b hb
    rw [isSpace_of_isEscHex hb]
    rfl
  have hoct : ∀ b : UInt8, isOct b = true → (!isSpace b) = true := by
    intro b hb
    apply hhex b
    rw [isEscHex, isDigit_of_isOct hb, Bool.or_true]
  have hes : Regex.Over (fun b => !isSpace b) es :=
    ⟨over_word (by decide), over_oneOf (by decide), ⟨hoct, ⟨hoct, hoct, trivial⟩, trivial⟩, over_word (by decide),
      hhex, hhex⟩
  have hover : Regex.Over (fun b => !isSpace b) (.plus es) := ⟨hes, hes⟩
  simpa using Regex.mem_of_over hover h b hb

theorem stringPrefix_le {front : List UInt8} (h : front ∈ (Regex.opt stringPrefix).lang) :
    front ∈ (Regex.opt sp).lang := h

theorem characterPrefix_le {front : List UInt8} (h : front ∈ (Regex.opt characterPrefix).lang) :
    front ∈ (Regex.opt cp).lang := h

theorem body_ne_nil {q : UInt8} {body : List UInt8} (h : body ∈ (Regex.plus (character q)).lang) : body ≠ [] := by
  rintro rfl
  have hnull : (Regex.plus (character q)).nullable = true := Regex.nullable_iff.mpr h
  exact Bool.false_ne_true hnull

/-- A literal is not empty, and begins with none of the bytes that an action starts with which goes on. -/
theorem head_text (l : Literal) : ∃ b ∈ [quote, dblQuote, ch 'u', ch 'U', ch 'L'], ∃ v, l.text = b :: v := by
  have hhead : ∀ {front v : List UInt8} {q : UInt8}, front ∈ (Regex.opt sp).lang → q ∈ [quote, dblQuote] →
      ∃ b ∈ [quote, dblQuote, ch 'u', ch 'U', ch 'L'], ∃ w, front ++ q :: v = b :: w := by
    intro front v q hfront hq
    have hmem := mem_fronts hfront
    simp only [fronts, List.mem_cons, List.not_mem_nil, or_false] at hmem hq
    rcases hmem with rfl | rfl | rfl | rfl | rfl
    · exact ⟨q, by rcases hq with rfl | rfl <;> decide, v, rfl⟩
    · exact ⟨ch 'u', by decide, _, rfl⟩
    · exact ⟨ch 'u', by decide, _, rfl⟩
    · exact ⟨ch 'U', by decide, _, rfl⟩
    · exact ⟨ch 'L', by decide, _, rfl⟩
  cases l with
  | string front body hfront hbody => exact hhead (stringPrefix_le hfront) (by decide)
  | character front body hfront hbody => exact hhead (cp_le (characterPrefix_le hfront)) (by decide)

/-- What the actions of the rules return. -/
def returns : List Action :=
  [.ret (.token .iConstant), .ret (.token .stringLiteral), .ret (.token .backslash), .ret (.token .fConstant),
    .ret (.token .dec), .ret (.token .wd), .ret (.token .any), .ret .unknown, .ret .eof]

/-- In front of a literal the first match returns: the actions that go on are for comments, line ends and blanks. -/
theorem munch_text_ne_goto (l : Literal) (v : List UInt8) (e : Option Scanned) (label : Label) (k : Nat) :
    munch rules ((l.text ++ v).take BUFSIZE) ≠ some (.goto e label, k) := by
  have hrules : ∀ b ∈ [quote, dblQuote, ch 'u', ch 'U', ch 'L'], ∀ x ∈ rules,
      x.2 ∈ returns ∨ (x.1.deriv b).isEmpty = true := by decide +kernel
  obtain ⟨b, hb, w, htext⟩ := head_text l
  intro hm
  obtain ⟨r, hr, hmem⟩ := mem_lang_of_munch hm
  rcases hrules b hb _ hr with h | h
  · simp [returns] at h
  · -- the match is a word of this rule that starts with `b`, or is empty
    have htake : (l.text ++ v).take BUFSIZE = b :: (w ++ v).take (BUFSIZE - 1) := by
      rw [htext]
      rfl
    rw [htake] at hmem
    cases k with
    | zero => exact absurd hmem (accepting_eq_none.mp (blocks.nonempty .std) _ hr)
    | succ k => exact Regex.not_mem_of_isEmpty h _ (Regex.mem_lang_deriv.mpr hmem)

theorem text_ne_nil (l : Literal) : l.text ≠ [] := by
  obtain ⟨b, -, v, h⟩ := head_text l
  rw [h]
  exact List.cons_ne_nil _ _

/-- **Where a whole literal ends**: the rule for it matches, and nothing that goes beyond does. -/
theorem munch_whole {l : Literal} (h : l.Whole) {b : UInt8} (hb : isSpace b = true) {v : List UInt8} :
    ruleOf rules l.text = some (.ret (.token l.terminal)) ∧
      ∀ x ∈ rules, ∀ p, p ≠ [] → p <+: b :: v → l.text ++ p ∉ x.1.lang := by
  cases l with
  | string front body hfront hbody =>
      refine ⟨ruleOf_string (stringPrefix_le hfront) h, ?_⟩
      intro x hx p hp _ hmem
      have hmem' : front ++ dblQuote :: (body ++ [dblQuote] ++ p) ∈ x.1.lang := by
        simpa [Literal.text] using hmem
      rcases mem_rules_string hx (stringPrefix_le hfront) hmem' with ⟨m, hm, heq⟩ | hnil
      · exact hm (mem_of_append_eq hp heq)
      · exact absurd hnil (by simp)
  | character front body hfront hbody =>
      refine ⟨ruleOf_character (characterPrefix_le hfront) (body_ne_nil hbody) h, ?_⟩
      intro x hx p hp hpv hmem
      have hmem' : front ++ quote :: (body ++ [quote] ++ p) ∈ x.1.lang := by
        simpa [Literal.text] using hmem
      obtain ⟨c, p, rfl⟩ := List.exists_cons_of_ne_nil hp
      obtain ⟨q, hq⟩ := hpv
      obtain rfl : c = b := (List.cons.inj hq).1
      rcases mem_rules_character hx (characterPrefix_le hfront) hmem' with ⟨m, hm, heq⟩ | ⟨m, hm, heq⟩ | hnil
      · -- the space behind the constant would be one of the escapes, or the quote at the end
        have hc : c ∈ m ++ [quote] := by
          rw [← heq]
          exact List.mem_append_right _ (List.mem_cons_self ..)
        rcases List.mem_append.mp hc with hc | hc
        · rw [isSpace_of_mem_es hm hc] at hb
          exact absurd hb (by decide)
        · rw [List.mem_singleton.mp hc] at hb
          exact absurd hb (by decide)
      · exact hm (mem_of_append_eq (List.cons_ne_nil _ _) heq)
      · exact absurd hnil (by simp)

/-- A literal that some rule matches is whole. -/
theorem whole_of_ruleOf {l : Literal} {a : Action} (h : ruleOf rules l.text = some a) : l.Whole := by
  obtain ⟨r, hr, hmem⟩ := mem_of_ruleOf h
  cases l with
  | string front body hfront hbody =>
      rcases mem_rules_string hr (stringPrefix_le hfront) hmem with ⟨m, hm, heq⟩ | hnil
      · rw [Literal.Whole, List.append_cancel_right heq]
        exact hm
      · exact absurd hnil (by simp)
  | character front body hfront hbody =>
      rcases mem_rules_character hr (characterPrefix_le hfront) hmem with ⟨m, hm, heq⟩ | ⟨m, hm, heq⟩ | hnil
      · rw [Literal.Whole, List.append_cancel_right heq]
        exact .inr hm
      · rw [Literal.Whole, List.append_cancel_right heq]
        exact .inl hm
      · exact absurd hnil (by simp)

/-- **Literals in front of a space**: from any state of the buffer, the call returns the literal as one token of its
    kind if and only if it has no quote of its own kind inside, or is a character constant of the escapes of `ES`. -/
theorem call_literal_iff (l : Literal) {u v : List UInt8} {b : UInt8} {s : Input} (hlen : l.text.length ≤ BUFSIZE)
    (hb : isSpace b = true) (hs : Blocks.At u (l.text ++ b :: v) s) (n : Nat) :
    (∃ s', blocks.call (n + 1) .std s = some ([], (.token l.terminal, l.text), s') ∧ Blocks.At l.text (b :: v) s') ↔
      l.Whole := by
  constructor
  · rintro ⟨s', hcall, -⟩
    exact whole_of_ruleOf (Blocks.ruleOf_of_call hs (text_ne_nil l) (munch_text_ne_goto l _) hcall)
  · intro h
    obtain ⟨hrule, hlongest⟩ := @munch_whole l h b hb v
    exact Blocks.call_word hs (text_ne_nil l) hlen hrule hlongest n

/-- `u"a"` in front of a blank. -/
theorem call_literal_iff_string :
    ∃ s', blocks.call 1 .std (inputInit (fun _ => 0) [ch 'u', dblQuote, ch 'a', dblQuote, 0x20]) =
        some ([], (.token .stringLiteral, [ch 'u', dblQuote, ch 'a', dblQuote]), s') ∧
      Blocks.At [ch 'u', dblQuote, ch 'a', dblQuote] [0x20] s' := by
  have hbody : [ch 'a'] ∈ (Regex.star (character dblQuote)).lang := ruleOf_singleton.mp (by decide +kernel)
  have hfront : [ch 'u'] ∈ (Regex.opt stringPrefix).lang := ruleOf_singleton.mp (by decide +kernel)
  exact (@call_literal_iff (.string [ch 'u'] [ch 'a'] hfront hbody) [] [] 0x20 _
    (show [ch 'u', dblQuote, ch 'a', dblQuote].length ≤ BUFSIZE by decide) (by decide) ⟨holds_inputInit _ _, rfl⟩ 0).mpr
    (show dblQuote ∉ [ch 'a'] by decide)

/-- Of `"a\"b"` the scanner returns `"a\"`, and of `'\\\''` it returns `'\\\'`. -/
theorem call_escaped_quotes :
    (∃ l : Literal, l.text = [dblQuote, ch 'a', backslash, dblQuote, ch 'b', dblQuote]) ∧
    (blocks.call 1 .std (inputInit (fun _ => 0)
        [dblQuote, ch 'a', backslash, dblQuote, ch 'b', dblQuote, 0x20])).map (fun y => (y.1, y.2.1)) =
      some ([], (.token .stringLiteral, [dblQuote, ch 'a', backslash, dblQuote])) ∧
    (∃ l : Literal, l.text = [quote, backslash, backslash, backslash, quote, quote]) ∧
    (blocks.call 1 .std (inputInit (fun _ => 0)
        [quote, backslash, backslash, backslash, quote, quote, 0x20])).map (fun y => (y.1, y.2.1)) =
      some ([], (.token .iConstant, [quote, backslash, backslash, backslash, quote])) := by
  refine ⟨?_, by decide +kernel, ?_, by decide +kernel⟩
  · exact ⟨.string [] [ch 'a', backslash, dblQuote, ch 'b'] (ruleOf_singleton.mp (by decide +kernel))
      (ruleOf_singleton.mp (by decide +kernel)), rfl⟩
  · exact ⟨.character [] [backslash, backslash, backslash, quote] (ruleOf_singleton.mp (by decide +kernel))
      (ruleOf_singleton.mp (by decide +kernel)), rfl⟩

end AnyParser
end CSamples
