import CSamples.C.Int
import CSamples.Scanner.Blocks
import CSamples.Tokenizer.Parser

/-!
# `Tokenizer.Scanner` — the scanner of the tokenizer

The rules of `tokenizer/scanner/scanner.re` and of the three `comment_*.re` it includes, as blocks over the input
buffer.

## Contents
- **Rules.** `number` and `rules`; `commentC` and `lineComment`.
- **Model.** `blocks`, and `scanAll`, the calls of the driver.
- `scanAll_eq`: the calls compute `scanned`, what the rules make of the file, for every file.
-/

namespace CSamples
namespace Tokenizer

open C CSamples.Lex CSamples.Scanner

/-! ## The rules -/

/-- The labels that actions go to. -/
inductive Label where
  | std | commentC | commentPerl | commentCxx
  deriving DecidableEq, Repr

/-- Results of `Scanner_Scan`. `eof` and `unknown` are both `-1`; `exit` leaves the program. -/
inductive Scanned where
  | token (t : Terminal)
  | eof
  | unknown
  | exit
  deriving DecidableEq, Repr

abbrev Action := Act Label Scanned

def isDigit19 (b : UInt8) : Bool := ch '1' ≤ b && b ≤ ch '9'

/-- Space, tab and vertical tab. -/
def isBlank (b : UInt8) : Bool := b == 0x20 || b == 0x09 || b == 0x0B

/-- `eol = ([\r\n]|[\n])` -/
def isEol (b : UInt8) : Bool := (b == 0x0D || b == 0x0A) || b == 0x0A

def dblQuote : UInt8 := 0x22

/-- `DIGITS = DIGIT+` -/
def digits : Regex UInt8 := .plus (.cls isDigit)

/-- `INT = DIGIT | DIGIT1TO9 DIGITS | "-" DIGITS | "-" DIGIT1TO9 DIGITS` -/
def int : Regex UInt8 :=
  .alt (.cls isDigit) (.alt (.seq (.cls isDigit19) digits)
    (.alt (.seq (.word [ch '-']) digits) (.seq (.word [ch '-']) (.seq (.cls isDigit19) digits))))

/-- `FRAC = [.] DIGITS` -/
def frac : Regex UInt8 := .seq (.cls (fun b => b == ch '.')) digits

/-- `EXP = [Ee][+-]? DIGITS` -/
def exp : Regex UInt8 :=
  .seq (.cls (fun b => b == ch 'E' || b == ch 'e')) (.seq (.opt (.cls (fun b => b == ch '+' || b == ch '-'))) digits)

/-- `NUMBER = INT | INT FRAC | INT EXP | INT FRAC EXP` -/
def number : Regex UInt8 := .alt int (.alt (.seq int frac) (.alt (.seq int exp) (.seq int (.seq frac exp))))

/-- `DBL_QUOTE ANY* DBL_QUOTE` -/
def string : Regex UInt8 :=
  .seq (.cls (fun b => b == dblQuote)) (.seq (.star (.cls (fun _ => true))) (.cls (fun b => b == dblQuote)))

/-- The default rule `*`. -/
def default : Regex UInt8 := .cls (fun _ => true)

/-- The block at `std`. -/
def rules : Rules UInt8 Action :=
  [(.word [ch '/', ch '*'], .goto none .commentC),
   (.word [ch '#'], .goto none .commentPerl),
   (.word [ch '/', ch '/'], .goto none .commentCxx),
   (.cls isEol, .goto none .std),
   (.word [0], .ret .eof),
   (string, .ret (.token .string)),
   (number, .ret (.token .number)),
   (.word [ch 't', ch 'r', ch 'u', ch 'e'], .ret (.token .true)),
   (.word [ch 'f', ch 'a', ch 'l', ch 's', ch 'e'], .ret (.token .false)),
   (.word [ch 'n', ch 'u', ch 'l', ch 'l'], .ret (.token .null)),
   (.word [ch '{'], .ret (.token .oBegin)),
   (.word [ch '}'], .ret (.token .oEnd)),
   (.word [ch '['], .ret (.token .aBegin)),
   (.word [ch ']'], .ret (.token .aEnd)),
   (.word [ch ','], .ret (.token .comma)),
   (.word [ch ':'], .ret (.token .colon)),
   (.plus (.plus (.cls isBlank)), .goto none .std),
   (default, .ret .unknown)]

/-- `comment_c.re` -/
def commentC : Rules UInt8 Action :=
  [(.word [ch '*', ch '/'], .goto none .std),
   (.word [0], .ret .exit),
   (default, .goto none .commentC)]

/-- `comment_perl.re` and `comment_cxx.re`, with their own label `l`. -/
def lineComment (l : Label) : Rules UInt8 Action :=
  [(.cls isEol, .goto none .std),
   (.word [0], .goto none .std),
   (default, .goto none l)]

/-! ## The model -/

def block : Label → Rules UInt8 Action
  | .std         => rules
  | .commentC    => commentC
  | .commentPerl => lineComment .commentPerl
  | .commentCxx  => lineComment .commentCxx

theorem default_mem_block (l : Label) : ∃ a, (default, a) ∈ block l := by
  cases l
  · exact ⟨.ret .unknown, by simp [block, rules]⟩
  · exact ⟨.goto none .commentC, by simp [block, commentC]⟩
  · exact ⟨.goto none .commentPerl, by simp [block, lineComment]⟩
  · exact ⟨.goto none .commentCxx, by simp [block, lineComment]⟩

/-- `Scanner_Scan` is `blocks.call` at `std`. What it prints to `out` is left out. -/
def blocks : Blocks Label Scanned where
  std    := .std
  block  := block
  atEnd  := fun l => if l = .std then .eof else .exit
  final  := fun e => match e with
    | .token _ => false
    | _        => true
  atEnd_final := fun l => by cases l <;> rfl
  nonempty := fun l => by cases l <;> rfl
  any := fun l a hnone => by
    obtain ⟨act, hmem⟩ := default_mem_block l
    exact ruleOf_eq_none.mp hnone _ hmem (Regex.mem_cls.mpr ⟨a, rfl, rfl⟩)

/-- The results of the driver's calls on a file, up to the first negative one or the end of the program. One
    turn more than the file has bytes is enough for every loop. -/
def scanAll (buf : Fin (BUFSIZE + 1) → UInt8) (file : List UInt8) : Option (List (Event Scanned)) :=
  blocks.run (file.length + 1) (inputInit buf file)

/-- What the rules make of the bytes of a file. -/
def scanned (file : List UInt8) : List (Event Scanned) := blocks.events (some BUFSIZE) .std [] file

/-- **The results of the calls**, for every file. -/
theorem scanAll_eq (buf : Fin (BUFSIZE + 1) → UInt8) (file : List UInt8) :
    scanAll buf file = some (scanned file) :=
  blocks.run_eq_events buf file (Nat.lt_succ_self _)

end Tokenizer
end CSamples
