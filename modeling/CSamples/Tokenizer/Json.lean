import CSamples.Lex.Render
import CSamples.Tokenizer.Lexemes

/-!
# `Tokenizer.Json` — JSON texts and what the scanner makes of them

The grammar of RFC 8259 over the bytes of a text, and the scanner on such texts. The rule for strings takes
everything up to the last quote in sight, so that a second string literal is lost in the first.

## Contents
- **Specification.** `texts`, the texts of the tokens; `Derives`, the values; `Text`, a JSON text with an array or
  an object at the top.
- `isChain_json`: no two numbers are neighbours.
- `scanAll_json_iff`: the scanner finds the tokens of a text if and only if it has at most one string.
-/

namespace CSamples
namespace Tokenizer
namespace Json

open C CSamples.Lex CSamples.Scanner

/-! ## JSON texts -/

/-- `int = zero / ( digit1-9 *DIGIT )` -/
def int : Regex UInt8 := .alt (.word [ch '0']) (.seq (.cls isDigit19) (.star (.cls isDigit)))

/-- `number = [ minus ] int [ frac ] [ exp ]` -/
def number : Regex UInt8 := .seq (.opt (.word [ch '-'])) (.seq int (.seq (.opt frac) (.opt exp)))

def backslash : UInt8 := 0x5C

/-- `unescaped = %x20-21 / %x23-5B / %x5D-10FFFF`; characters from U+0080 on are bytes from 0x80 on. -/
def isUnescaped (b : UInt8) : Bool := 0x20 ≤ b && b != dblQuote && b != backslash

def isEscaped (b : UInt8) : Bool :=
  b ∈ [dblQuote, backslash, ch '/', ch 'b', ch 'f', ch 'n', ch 'r', ch 't']

def isHexDigit (b : UInt8) : Bool :=
  isDigit b || (ch 'a' ≤ b && b ≤ ch 'f') || (ch 'A' ≤ b && b ≤ ch 'F')

/-- `char`: an unescaped character, or an escape. -/
def char : Regex UInt8 :=
  .alt (.cls isUnescaped) (.seq (.word [backslash]) (.alt (.cls isEscaped)
    (.seq (.word [ch 'u']) (.seq (.cls isHexDigit) (.seq (.cls isHexDigit) (.seq (.cls isHexDigit) (.cls isHexDigit)))))))

/-- `string = quotation-mark *char quotation-mark` -/
def string : Regex UInt8 := .seq (.word [dblQuote]) (.seq (.star char) (.word [dblQuote]))

/-- The texts of the tokens. -/
def texts : Terminal → Regex UInt8
  | .oBegin => .word [ch '{']
  | .oEnd   => .word [ch '}']
  | .comma  => .word [ch ',']
  | .string => string
  | .colon  => .word [ch ':']
  | .aBegin => .word [ch '[']
  | .aEnd   => .word [ch ']']
  | .number => number
  | .true   => .word [ch 't', ch 'r', ch 'u', ch 'e']
  | .false  => .word [ch 'f', ch 'a', ch 'l', ch 's', ch 'e']
  | .null   => .word [ch 'n', ch 'u', ch 'l', ch 'l']

/-- Space, tab, line feed and carriage return. -/
def isWs (b : UInt8) : Bool := b == 0x20 || b == 0x09 || b == 0x0A || b == 0x0D

/-- A token with its text. -/
abbrev Tok := Terminal × List UInt8

def oBegin : Tok := (.oBegin, [ch '{'])
def oEnd : Tok := (.oEnd, [ch '}'])
def aBegin : Tok := (.aBegin, [ch '['])
def aEnd : Tok := (.aEnd, [ch ']'])
def comma : Tok := (.comma, [ch ','])
def colon : Tok := (.colon, [ch ':'])

/-- What a sequence of tokens is. -/
inductive Part where
  | value | array | elements | object | members
  deriving DecidableEq, Repr

/-- The values of the grammar and their parts. -/
inductive Derives : Part → List Tok → Prop
  | scalar (c : Scalar) {u : List UInt8} (hu : u ∈ (texts c.terminal).lang) : Derives .value [(c.terminal, u)]
  | arrayValue {ts : List Tok} (h : Derives .array ts) : Derives .value ts
  | objectValue {ts : List Tok} (h : Derives .object ts) : Derives .value ts
  | emptyArray : Derives .array [aBegin, aEnd]
  | array {ts : List Tok} (h : Derives .elements ts) : Derives .array (aBegin :: ts ++ [aEnd])
  | lastElement {ts : List Tok} (h : Derives .value ts) : Derives .elements ts
  | element {ts us : List Tok} (h : Derives .value ts) (h' : Derives .elements us) : Derives .elements (ts ++ comma :: us)
  | emptyObject : Derives .object [oBegin, oEnd]
  | object {ts : List Tok} (h : Derives .members ts) : Derives .object (oBegin :: ts ++ [oEnd])
  | lastMember {u : List UInt8} {ts : List Tok} (hu : u ∈ string.lang) (h : Derives .value ts) :
      Derives .members ((.string, u) :: colon :: ts)
  | member {u : List UInt8} {ts us : List Tok} (hu : u ∈ string.lang) (h : Derives .value ts)
      (h' : Derives .members us) : Derives .members (((.string, u) :: colon :: ts) ++ comma :: us)

/-- A JSON text that fits in the buffer: an array or an object, with whitespace between its tokens. -/
structure Text where
  toks    : List Tok
  text    : List UInt8
  json    : Derives .array toks ∨ Derives .object toks
  renders : Renders isWs toks text
  fits    : text.length ≤ BUFSIZE

/-! ## Its tokens -/

/-- Not both are numbers. -/
def Apart (x y : Tok) : Prop := x.1 = .number → y.1 ≠ .number

theorem apart_of_ne {x : Tok} (hx : x.1 ≠ .number) (y : Tok) : Apart x y ∧ Apart y x :=
  ⟨fun h => absurd h hx, fun _ => hx⟩

/-- No two numbers are neighbours. -/
theorem isChain_json {p : Part} {ts : List Tok} (h : Derives p ts) : ts.IsChain Apart := by
  have hbrackets : ∀ {x y : Tok} {ts : List Tok}, x.1 ≠ .number → y.1 ≠ .number → ts.IsChain Apart →
      (x :: ts ++ [y]).IsChain Apart := by
    intro x y ts hx hy hts
    have hleft : (x :: ts).IsChain Apart := isChain_join (apart_of_ne hx) .nil hts
    exact isChain_join (apart_of_ne hy) hleft .nil
  have hmember : ∀ {u : List UInt8} {ts : List Tok}, ts.IsChain Apart →
      ((Terminal.string, u) :: colon :: ts).IsChain Apart := by
    intro u ts hts
    exact @isChain_join _ _ colon (apart_of_ne (by decide)) [(.string, u)] ts (List.isChain_singleton _) hts
  induction h with
  | scalar c _ => exact List.isChain_singleton _
  | arrayValue _ ih => exact ih
  | objectValue _ ih => exact ih
  | emptyArray => exact hbrackets (by decide) (by decide) .nil
  | array _ ih => exact hbrackets (by decide) (by decide) ih
  | lastElement _ ih => exact ih
  | element _ _ ih ih' => exact isChain_join (apart_of_ne (by decide)) ih ih'
  | emptyObject => exact hbrackets (by decide) (by decide) .nil
  | object _ ih => exact hbrackets (by decide) (by decide) ih
  | lastMember _ _ ih => exact hmember ih
  | member _ _ _ ih ih' => exact isChain_join (apart_of_ne (by decide)) (hmember ih) ih'

/-- Every token has one of its texts. -/
theorem mem_texts {p : Part} {ts : List Tok} (h : Derives p ts) : ∀ x ∈ ts, x.2 ∈ (texts x.1).lang := by
  have hpunct : ∀ x ∈ [oBegin, oEnd, aBegin, aEnd, comma, colon], x.2 ∈ (texts x.1).lang := by
    intro x hx
    simp only [List.mem_cons, List.not_mem_nil, or_false] at hx
    rcases hx with rfl | rfl | rfl | rfl | rfl | rfl <;> exact Regex.mem_word.mpr rfl
  have hbrackets : ∀ {x y : Tok} {ts : List Tok}, x ∈ [oBegin, oEnd, aBegin, aEnd, comma, colon] →
      y ∈ [oBegin, oEnd, aBegin, aEnd, comma, colon] → (∀ z ∈ ts, z.2 ∈ (texts z.1).lang) →
      ∀ z ∈ x :: ts ++ [y], z.2 ∈ (texts z.1).lang := by
    intro x y ts hx hy hts
    refine List.forall_mem_append.mpr ⟨List.forall_mem_cons.mpr ⟨hpunct x hx, hts⟩, ?_⟩
    exact List.forall_mem_singleton.mpr (hpunct y hy)
  have hmember : ∀ {u : List UInt8} {ts : List Tok}, u ∈ string.lang → (∀ z ∈ ts, z.2 ∈ (texts z.1).lang) →
      ∀ z ∈ ((Terminal.string, u) :: colon :: ts : List Tok), z.2 ∈ (texts z.1).lang := by
    intro u ts hu hts
    exact List.forall_mem_cons.mpr ⟨hu, List.forall_mem_cons.mpr ⟨hpunct colon (by simp), hts⟩⟩
  induction h with
  | scalar c hu => exact List.forall_mem_singleton.mpr hu
  | arrayValue _ ih => exact ih
  | objectValue _ ih => exact ih
  | emptyArray => exact @hbrackets aBegin aEnd [] (by simp) (by simp) (by simp)
  | array _ ih => exact @hbrackets aBegin aEnd _ (by simp) (by simp) ih
  | lastElement _ ih => exact ih
  | element _ _ ih ih' =>
      exact List.forall_mem_append.mpr ⟨ih, List.forall_mem_cons.mpr ⟨hpunct comma (by simp), ih'⟩⟩
  | emptyObject => exact @hbrackets oBegin oEnd [] (by simp) (by simp) (by simp)
  | object _ ih => exact @hbrackets oBegin oEnd _ (by simp) (by simp) ih
  | lastMember hu _ ih => exact hmember hu ih
  | member hu _ _ ih ih' =>
      exact List.forall_mem_append.mpr ⟨hmember hu ih, List.forall_mem_cons.mpr ⟨hpunct comma (by simp), ih'⟩⟩

/-- The numbers of the grammar are numbers of the scanner. -/
theorem number_le {u : List UInt8} (hu : u ∈ number.lang) : u ∈ Tokenizer.number.lang := by
  have hdigits : ∀ {ds : List UInt8}, (∀ b ∈ ds, isDigit b = true) → ds ≠ [] → ds ∈ digits.lang :=
    fun hds hne => Regex.mem_plus_cls.mpr ⟨hne, hds⟩
  -- the integer part, with its sign
  have hint : ∀ {sign i : List UInt8}, sign ∈ (Regex.opt (.word [ch '-'])).lang → i ∈ int.lang →
      sign ++ i ∈ Tokenizer.int.lang := by
    intro sign i hsign hi
    -- a nonempty run of digits, one digit or without a leading zero
    have hi' : (∃ b, isDigit b = true ∧ i = [b]) ∨
        ∃ b ds, isDigit19 b = true ∧ (∀ c ∈ ds, isDigit c = true) ∧ ds ≠ [] ∧ i = b :: ds := by
      rcases Regex.mem_alt.mp hi with h | h
      · exact .inl ⟨ch '0', by decide, Regex.mem_word.mp h⟩
      · obtain ⟨_, ⟨b, hb, rfl⟩, ds, hds, rfl⟩ := Regex.mem_seq.mp h
        have hds' := Regex.mem_star_cls.mp hds
        by_cases hne : ds = []
        · exact .inl ⟨b, isDigit_of_isDigit19 hb, by rw [hne]; rfl⟩
        · exact .inr ⟨b, ds, hb, hds', hne, rfl⟩
    have hrun : i ∈ digits.lang := by
      rcases hi' with ⟨b, hb, rfl⟩ | ⟨b, ds, hb, hds, -, rfl⟩
      · exact hdigits (by simpa using hb) (by simp)
      · refine hdigits ?_ (List.cons_ne_nil _ _)
        intro c hc
        rcases List.mem_cons.mp hc with rfl | hc
        · exact isDigit_of_isDigit19 hb
        · exact hds c hc
    unfold Tokenizer.int
    simp only [Regex.mem_alt]
    rcases Regex.mem_opt.mp hsign with h | rfl
    · exact .inr (.inr (.inl (Regex.mem_seq.mpr ⟨sign, h, i, hrun, rfl⟩)))
    · rcases hi' with ⟨b, hb, rfl⟩ | ⟨b, ds, hb, hds, hne, rfl⟩
      · exact .inl (Regex.mem_cls.mpr ⟨b, hb, rfl⟩)
      · refine .inr (.inl (Regex.mem_seq.mpr ⟨[b], Regex.mem_cls.mpr ⟨b, hb, rfl⟩, ds, hdigits hds hne, rfl⟩))
  obtain ⟨sign, hsign, _, ⟨i, hi, _, ⟨f, hf, e, he, rfl⟩, rfl⟩, rfl⟩ := hu
  have hsi := hint hsign hi
  unfold Tokenizer.number
  simp only [Regex.mem_alt]
  rw [← List.append_assoc]
  rcases Regex.mem_opt.mp hf with hf | rfl
  · rcases Regex.mem_opt.mp he with he | rfl
    · exact .inr (.inr (.inr (Regex.mem_seq.mpr ⟨_, hsi, _, Regex.mem_seq.mpr ⟨f, hf, e, he, rfl⟩, rfl⟩)))
    · refine .inr (.inl (Regex.mem_seq.mpr ⟨_, hsi, f, hf, ?_⟩))
      simp
  · rcases Regex.mem_opt.mp he with he | rfl
    · exact .inr (.inr (.inl (Regex.mem_seq.mpr ⟨_, hsi, e, he, rfl⟩)))
    · refine .inl ?_
      simpa using hsi

/-- The strings of the grammar are strings of the scanner. -/
theorem string_le {u : List UInt8} (hu : u ∈ string.lang) : u ∈ Tokenizer.string.lang := by
  obtain ⟨_, hq, _, ⟨m, -, _, hq', rfl⟩, rfl⟩ := hu
  rw [Regex.mem_word.mp hq, Regex.mem_word.mp hq']
  exact Tokenizer.mem_string.mpr ⟨m, rfl⟩

/-! ## The scanner on a text -/

/-- What the driver should get: the tokens of the text, and then `EOF`. -/
def expected (ts : List Tok) : List (Event Scanned) := ts.map (fun x => (.token x.1, x.2)) ++ [(.eof, [])]

/-- The strings of a sequence of tokens. -/
def strings (ts : List Tok) : Nat := ts.countP (fun x => x.1 == .string)

/-- The rule for a token that is neither a string nor a number. -/
theorem munch_texts {t : Terminal} {u : List UInt8} (hs : t ≠ .string) (hn : t ≠ .number)
    (hu : u ∈ (texts t).lang) (v : List UInt8) : munch rules (u ++ v) = some (.ret (.token t), u.length) := by
  cases t with
  | string => exact absurd rfl hs
  | number => exact absurd rfl hn
  | _ =>
      rw [Regex.mem_word.mp hu]
      exact munch_of_stuck (by decide +kernel) (by decide +kernel) v

/-- The first byte of a token that is not a number is not a byte of numbers. -/
theorem isNumberByte_head {t : Terminal} {u : List UInt8} (hn : t ≠ .number) (hu : u ∈ (texts t).lang) :
    ∀ b ∈ u.head?, isNumberByte b = false := by
  intro b hb
  cases t with
  | number => exact absurd rfl hn
  | string =>
      obtain ⟨m, rfl⟩ := mem_string.mp (string_le hu)
      obtain rfl := Option.some.inj hb
      decide
  | _ =>
      rw [Regex.mem_word.mp hu] at hb
      obtain rfl := Option.some.inj hb
      decide

theorem texts_ne_nil {t : Terminal} {u : List UInt8} (hu : u ∈ (texts t).lang) : u ≠ [] := by
  rintro rfl
  cases t with
  | number =>
      obtain ⟨b, v, h, -⟩ := head_number (number_le hu)
      exact absurd h (by simp)
  | string =>
      obtain ⟨m, h⟩ := mem_string.mp (string_le hu)
      exact absurd h (by simp)
  | _ => exact absurd (Regex.mem_word.mp hu) (by simp)

/-- Quotes are in strings only. -/
theorem quote_mem {t : Terminal} {u : List UInt8} (hu : u ∈ (texts t).lang) : dblQuote ∈ u ↔ t = .string := by
  cases t with
  | number =>
      refine iff_of_false ?_ (by decide)
      intro h
      exact absurd (Regex.mem_of_over over_number (number_le hu) _ h) (by decide)
  | string =>
      obtain ⟨m, rfl⟩ := mem_string.mp (string_le hu)
      exact iff_of_true (List.mem_cons_self ..) rfl
  | _ =>
      rw [Regex.mem_word.mp hu]
      decide

/-- Whether a string follows. -/
theorem quote_mem_renders {ts : List Tok} {w : List UInt8} (h : Renders isWs ts w)
    (htexts : ∀ x ∈ ts, x.2 ∈ (texts x.1).lang) : dblQuote ∈ w ↔ 0 < strings ts := by
  rw [h.mem (by decide), strings, List.countP_pos_iff]
  refine exists_congr fun x => and_congr_right fun hx => ?_
  rw [quote_mem (htexts x hx), beq_iff_eq]

theorem eq_of_isWs {b : UInt8} (hb : isWs b = true) : b = 0x20 ∨ b = 0x09 ∨ b = 0x0A ∨ b = 0x0D := by
  simpa [isWs, or_assoc] using hb

/-- Whitespace is skipped, as a blank or as a line end. -/
theorem scanned_ws {b : UInt8} (hb : isWs b = true) (w : List UInt8) : scanned (b :: w) = scanned w := by
  rcases eq_of_isWs hb with rfl | rfl | rfl | rfl
  · exact scanned_blank (by decide) w
  · exact scanned_blank (by decide) w
  · exact scanned_eol (by decide) w
  · exact scanned_eol (by decide) w

/-- A string with a quote behind it is not found: it takes in what is up to the last quote. -/
theorem scanned_string_ne {u w : List UInt8} (hu : u ∈ Tokenizer.string.lang) (hq : dblQuote ∈ w)
    (hlen : u.length + w.length ≤ BUFSIZE) (es : List (Event Scanned)) :
    scanned (u ++ w) ≠ (.token .string, u) :: es := by
  obtain ⟨n, hn, hm⟩ := munch_string_longer hu hq
  obtain ⟨n, rfl⟩ : ∃ k, n = k + 1 := ⟨n - 1, by omega⟩
  have hwindow : munch (blocks.block .std) (Blocks.window (some BUFSIZE) (blocks.token .std []) (u ++ w))
      = some (.ret (.token .string), n + 1) := by
    show munch rules ((u ++ w).take (BUFSIZE - 0)) = _
    rw [Nat.sub_zero, List.take_of_length_le (by rw [List.length_append]; exact hlen)]
    exact hm
  intro heq
  unfold scanned at heq
  rw [Blocks.events_ret hwindow] at heq
  have htext : (u ++ w).take (n + 1) = u := (Prod.mk.inj (List.cons.inj heq).1).2
  have htake := congrArg List.length htext
  rw [List.length_take, Nat.min_eq_left (munch_length_le hm)] at htake
  omega

/-- Every other token is found, however much of what is behind it is in sight. -/
theorem munch_token {t : Terminal} {u w : List UInt8} {ts : List Tok} (hu : u ∈ (texts t).lang) (hs : t ≠ .string)
    (h : Renders isWs ts w) (htexts : ∀ x ∈ ts, x.2 ∈ (texts x.1).lang) (hhead : ∀ x ∈ ts.head?, Apart (t, u) x)
    {v : List UInt8} (hv : v <+: w) : munch rules (u ++ v) = some (.ret (.token t), u.length) := by
  by_cases hn : t = .number
  · subst hn
    refine munch_number (number_le hu) ?_
    intro b hb
    left
    have hb' : b ∈ w.head? := by
      obtain ⟨q, rfl⟩ := hv
      cases v with
      | nil => exact absurd hb (by simp)
      | cons c v => exact hb
    -- behind a number there is a blank or another token, which is no number
    rcases h.head (fun x hx => texts_ne_nil (htexts x hx)) b hb' with hblank | ⟨x, hx, hbx⟩
    · rcases eq_of_isWs hblank with rfl | rfl | rfl | rfl <;> decide
    · exact isNumberByte_head (hhead x hx rfl) (htexts x (List.mem_of_mem_head? hx)) b hbx
  · exact munch_texts hs hn hu v

/-- **The scanner on the tokens of a text**: it finds them as long as at most one is a string. -/
theorem scanned_renders_iff {ts : List Tok} {w : List UInt8} (h : Renders isWs ts w)
    (htexts : ∀ x ∈ ts, x.2 ∈ (texts x.1).lang) (hts : ts.IsChain Apart) (hlen : w.length ≤ BUFSIZE) :
    scanned w = expected ts ↔ strings ts ≤ 1 := by
  induction h with
  | nil => exact iff_of_true scanned_nil (by decide)
  | @blank b ts w hb _ ih =>
      rw [scanned_ws hb w]
      exact ih htexts hts (Nat.le_of_succ_le hlen)
  | @token t u ts w h ih =>
      have hu : u ∈ (texts t).lang := htexts (t, u) (List.mem_cons_self ..)
      have hne := texts_ne_nil hu
      have htexts' : ∀ x ∈ ts, x.2 ∈ (texts x.1).lang := fun x hx => htexts x (List.mem_cons_of_mem _ hx)
      obtain ⟨hhead, hts'⟩ := List.isChain_cons.mp hts
      rw [List.length_append] at hlen
      have hih := ih htexts' hts' (by omega)
      -- the token is found: the rest decides
      have hfound : (∀ v, v <+: w → munch rules (u ++ v) = some (.ret (.token t), u.length)) →
          (scanned (u ++ w) = expected ((t, u) :: ts) ↔ strings ts ≤ 1) := by
        intro hm
        rw [scanned_token hne (by omega) hm]
        show (.token t, u) :: scanned w = (.token t, u) :: expected ts ↔ _
        rw [List.cons_inj_right, hih]
      by_cases hs : t = .string
      · subst hs
        have hcount : strings ((.string, u) :: ts) = strings ts + 1 := by simp [strings]
        by_cases hq : dblQuote ∈ w
        · -- a second string: the first one takes it in
          have hpos := (quote_mem_renders h htexts').mp hq
          exact iff_of_false (scanned_string_ne (string_le hu) hq hlen _) (by omega)
        · have hzero : strings ts = 0 := by
            have := mt (quote_mem_renders h htexts').mpr hq
            omega
          rw [hfound (fun v hv => munch_string (string_le hu) (fun hmem => hq (hv.subset hmem)))]
          omega
      · have hcount : strings ((t, u) :: ts) = strings ts := by simp [strings, hs]
        rw [hfound (fun v hv => munch_token hu hs h htexts' hhead hv), hcount]

/-- **JSON texts and the scanner**: the tokens of a text that fits in the buffer are found, one by one and then
    `EOF`, if and only if at most one of them is a string. -/
theorem scanAll_json_iff (buf : Fin (BUFSIZE + 1) → UInt8) (t : Text) :
    scanAll buf t.text = some (expected t.toks) ↔ strings t.toks ≤ 1 := by
  have htexts : ∀ x ∈ t.toks, x.2 ∈ (texts x.1).lang := t.json.elim mem_texts mem_texts
  have hts : t.toks.IsChain Apart := t.json.elim isChain_json isChain_json
  rw [scanAll_eq, Option.some.injEq]
  exact scanned_renders_iff t.renders htexts hts t.fits

/-- `{"a":"b"}` -/
def object : Text where
  toks := [oBegin, (.string, [dblQuote, ch 'a', dblQuote]), colon, (.string, [dblQuote, ch 'b', dblQuote]), oEnd]
  text := [ch '{', dblQuote, ch 'a', dblQuote, ch ':', dblQuote, ch 'b', dblQuote, ch '}']
  json := by
    have hstring : ∀ b, isUnescaped b = true → [dblQuote, b, dblQuote] ∈ string.lang := by
      intro b hb
      have hchar : [b] ∈ (Regex.star char).lang :=
        Regex.append_mem_star (Regex.mem_alt.mpr (.inl (Regex.mem_cls.mpr ⟨b, hb, rfl⟩))) Regex.nil_mem_star
      exact Regex.mem_seq.mpr ⟨[dblQuote], Regex.mem_word.mpr rfl, [b, dblQuote],
        Regex.mem_seq.mpr ⟨[b], hchar, [dblQuote], Regex.mem_word.mpr rfl, rfl⟩, rfl⟩
    exact .inr (.object (.lastMember (hstring _ (by decide)) (.scalar .string (hstring _ (by decide)))))
  renders := .token Terminal.oBegin [ch '{'] (.token Terminal.string [dblQuote, ch 'a', dblQuote]
    (.token Terminal.colon [ch ':'] (.token Terminal.string [dblQuote, ch 'b', dblQuote]
      (.token Terminal.oEnd [ch '}'] .nil))))
  fits := by decide

/-- Its two strings are taken for one. -/
theorem scanAll_object : scanAll (fun _ => 0) object.text ≠ some (expected object.toks) := by
  decide +kernel

end Json
end Tokenizer
end CSamples
