import CSamples.C.Int
import CSamples.Scanner.Blocks

/-!
# `AnyParser.Scanner` — the scanner of `any_parser`

The rules of `any_parser/scanner/any_scanner.re`, as blocks over the input buffer. Line ends and blanks are echoed
and never returned; comments are skipped.

## Contents
- **Rules.** One definition for each name of the `re2c` block that a rule uses; `rules`, `commentC`, `lineComment`.
- **Model.** `blocks`, and `scanAll`, the calls of the driver.
- `scanAll_eq`: the calls compute what the rules make of the file through a window of `BUFSIZE` bytes.
- `scanAll_unbounded`: where no match looks that far, the window makes no difference.
-/

namespace CSamples
namespace AnyParser

open C CSamples.Lex CSamples.Scanner

/-! ## The rules -/

/-- The token ids, in the order of `parser.y`. -/
inductive Terminal where
  | eol | dec | wd | any | iConstant | fConstant | backslash | dbs | stringLiteral
  deriving DecidableEq, Repr

/-- The labels that actions go to. -/
inductive Label where
  | std | commentC | commentPerl | commentCxx
  deriving DecidableEq, Repr

/-- What `AnyScanner_Scan` returns, or prints on its way. `eof` and `unknown` are both `-1`; `exit` leaves the
    program; `blank` and `eol` are only printed. -/
inductive Scanned where
  | token (t : Terminal)
  | blank
  | eol
  | eof
  | unknown
  | exit
  deriving DecidableEq, Repr

abbrev Action := Act Label Scanned

/-- A class of single bytes. -/
def oneOf (bs : List UInt8) : Regex UInt8 := .cls (fun b => bs.contains b)

def quote : UInt8 := 0x27

def dblQuote : UInt8 := 0x22

/-- `eol = ([\r\n]|[\n])` -/
def eol : Regex UInt8 := .alt (oneOf [0x0D, 0x0A]) (oneOf [0x0A])

/-- `ws = [ \t\v]+` -/
def ws : Regex UInt8 := .plus (oneOf [0x20, 0x09, 0x0B])

/-- `O = [0-7]` -/
def isOct (b : UInt8) : Bool := ch '0' ≤ b && b ≤ ch '7'

/-- `NZ = [1-9]` -/
def isNonZero (b : UInt8) : Bool := ch '1' ≤ b && b ≤ ch '9'

/-- `A = [a-zA-Z_0-9]` -/
def isAlpha (b : UInt8) : Bool :=
  (ch 'a' ≤ b && b ≤ ch 'z') || (ch 'A' ≤ b && b ≤ ch 'Z') || b == ch '_' || isDigit b

/-- `H = [a-fA-F0-9]` -/
def isHex (b : UInt8) : Bool := (ch 'a' ≤ b && b ≤ ch 'f') || (ch 'A' ≤ b && b ≤ ch 'F') || isDigit b

/-- `[a-FA-F0-9]`, in `ES`: `re2c` turns the range `a-F` round. -/
def isEscHex (b : UInt8) : Bool := (ch 'F' ≤ b && b ≤ ch 'a') || (ch 'A' ≤ b && b ≤ ch 'F') || isDigit b

/-- `D*` -/
def digits : Regex UInt8 := .star (.cls isDigit)

/-- `HP = "0" [xX]` -/
def hp : Regex UInt8 := .seq (.word [ch '0']) (oneOf [ch 'x', ch 'X'])

/-- `E = [Ee][+-]?D+` -/
def exp : Regex UInt8 :=
  .seq (oneOf [ch 'E', ch 'e']) (.seq (.opt (oneOf [ch '+', ch '-'])) (.plus (.cls isDigit)))

/-- `FS = ("f"|"F"|"l"|"L")` -/
def fs : Regex UInt8 := oneOf [ch 'f', ch 'F', ch 'l', ch 'L']

def unsignedSuffix : Regex UInt8 := oneOf [ch 'u', ch 'U']

/-- `("l"|"L"|"ll"|"LL")` -/
def longSuffix : Regex UInt8 :=
  .alt (oneOf [ch 'l', ch 'L']) (.alt (.word [ch 'l', ch 'l']) (.word [ch 'L', ch 'L']))

/-- `IS = ((("u"|"U")("l"|"L"|"ll"|"LL")?)|(("l"|"L"|"ll"|"LL")("u"|"U")?))` -/
def is : Regex UInt8 :=
  .alt (.seq unsignedSuffix (.opt longSuffix)) (.seq longSuffix (.opt unsignedSuffix))

/-- `CP = ("u"|"U"|"L")` -/
def cp : Regex UInt8 := oneOf [ch 'u', ch 'U', ch 'L']

/-- `SP = ("u8"|"u"|"U"|"L")` -/
def sp : Regex UInt8 := .alt (.word [ch 'u', ch '8']) cp

/-- `ES = "\\" ( [\'"?abfnrtv] | [0-7]{1,3} | "x" [a-FA-F0-9]+)` -/
def es : Regex UInt8 :=
  .seq (.word [0x5C]) (.alt
    (oneOf [quote, dblQuote, ch '?', ch 'a', ch 'b', ch 'f', ch 'n', ch 'r', ch 't', ch 'v'])
    (.alt (.seq (.cls isOct) (.opt (.seq (.cls isOct) (.opt (.cls isOct)))))
      (.seq (.word [ch 'x']) (.plus (.cls isEscHex)))))

/-- `"'\\\\'"`: two backslashes between quotes. -/
def backslashes : Regex UInt8 := .word [quote, 0x5C, 0x5C, quote]

/-- `SP? "\"" ([^"])* "\""` -/
def stringLiteral : Regex UInt8 :=
  .seq (.opt sp) (.seq (.word [dblQuote]) (.seq (.star (.cls (fun b => b != dblQuote))) (.word [dblQuote])))

/-- `CP? "'" r "'"` -/
def quoted (r : Regex UInt8) : Regex UInt8 :=
  .seq (.opt cp) (.seq (.word [quote]) (.seq r (.word [quote])))

/-- `D* "." D+ E? FS?` -/
def fConstant : Regex UInt8 :=
  .seq digits (.seq (.word [ch '.']) (.seq (.plus (.cls isDigit)) (.seq (.opt exp) (.opt fs))))

/-- `any = [^]`, and the default rule `*`. -/
def any : Regex UInt8 := .cls (fun _ => true)

/-- The block at `std`. The default rule stands first in the source and is the last to be taken. -/
def rules : Rules UInt8 Action :=
  [(.word [ch '/', ch '*'], .goto none .commentC),
   (.word [ch '#'], .goto none .commentPerl),
   (.word [ch '/', ch '/'], .goto none .commentCxx),
   (eol, .goto (some .eol) .std),
   (.word [0], .ret .eof),
   (backslashes, .ret (.token .iConstant)),
   (stringLiteral, .ret (.token .stringLiteral)),
   (.word [0x5C], .ret (.token .backslash)),
   (quoted (.plus es), .ret (.token .iConstant)),
   (quoted (.plus (.cls (fun b => b != quote))), .ret (.token .iConstant)),
   (.seq hp (.seq (.plus (.cls isHex)) (.opt is)), .ret (.token .iConstant)),
   (.seq (.cls isNonZero) (.seq digits (.opt is)), .ret (.token .iConstant)),
   (.seq (.word [ch '0']) (.seq digits (.opt is)), .ret (.token .iConstant)),
   (fConstant, .ret (.token .fConstant)),
   (.plus (.alt (.cls isDigit) (.cls isNonZero)), .ret (.token .dec)),
   (.plus (.cls isAlpha), .ret (.token .wd)),
   (ws, .goto (some .blank) .std),
   (any, .ret (.token .any)),
   (any, .ret .unknown)]

def commentC : Rules UInt8 Action :=
  [(.word [ch '*', ch '/'], .goto none .std),
   (.word [0], .ret .exit),
   (any, .goto none .commentC)]

/-- The blocks at `comment_perl` and `comment_cxx`, with their own label `l`. -/
def lineComment (l : Label) : Rules UInt8 Action :=
  [(eol, .goto (some .eol) .std),
   (.word [0], .ret .exit),
   (any, .goto none l)]

/-! ## The model -/

def block : Label → Rules UInt8 Action
  | .std         => rules
  | .commentC    => commentC
  | .commentPerl => lineComment .commentPerl
  | .commentCxx  => lineComment .commentCxx

theorem any_mem_block (l : Label) : ∃ a, (any, a) ∈ block l := by
  cases l
  · exact ⟨.ret (.token .any), by simp [block, rules]⟩
  · exact ⟨.goto none .commentC, by simp [block, commentC]⟩
  · exact ⟨.goto none .commentPerl, by simp [block, lineComment]⟩
  · exact ⟨.goto none .commentCxx, by simp [block, lineComment]⟩

/-- `AnyScanner_Scan` is `blocks.call` at `std`. -/
def blocks : Blocks Label Scanned where
  std    := .std
  block  := block
  atEnd  := fun l => if l = .std then .eof else .exit
  final  := fun e => match e with
    | .eof | .unknown | .exit => true
    | _                       => false
  atEnd_final := fun l => by cases l <;> rfl
  nonempty := fun l => by cases l <;> rfl
  any := fun l a hnone => by
    obtain ⟨act, hmem⟩ := any_mem_block l
    exact ruleOf_eq_none.mp hnone _ hmem (Regex.mem_cls.mpr ⟨a, rfl, rfl⟩)

/-- What the driver's calls print and return on a file, up to the first negative result or the end of the
    program. One turn more than the file has bytes is enough for every loop. -/
def scanAll (buf : Fin (BUFSIZE + 1) → UInt8) (file : List UInt8) : Option (List (Event Scanned)) :=
  blocks.run (file.length + 1) (inputInit buf file)

/-- What the rules make of the bytes of a file when all of them are in sight. -/
def scanned (file : List UInt8) : List (Event Scanned) := blocks.events none .std [] file

/-- How far the matches of a scan look, from `tok` on. -/
def extents (file : List UInt8) : List Nat := blocks.extents .std [] file

/-- The calls see `BUFSIZE` bytes from `tok` on. -/
theorem scanAll_eq (buf : Fin (BUFSIZE + 1) → UInt8) (file : List UInt8) :
    scanAll buf file = some (blocks.events (some BUFSIZE) .std [] file) :=
  blocks.run_eq_events buf file (Nat.lt_succ_self _)

/-- **Refilling the buffer changes nothing**: where no lexeme, run or comment takes `BUFSIZE` bytes with what is
    looked at to decide it, the calls give what the rules make of the whole file. -/
theorem scanAll_unbounded (buf : Fin (BUFSIZE + 1) → UInt8) {file : List UInt8}
    (h : ∀ k ∈ extents file, k < BUFSIZE) : scanAll buf file = some (scanned file) := by
  have hle : ∀ k ∈ blocks.extents .std [] file, k ≤ BUFSIZE := fun k hk => Nat.le_of_lt (h k hk)
  rw [scanAll_eq, blocks.events_none hle]
  rfl

/-- A word at the end of a line, which is looked at one byte further, and then the line end. -/
theorem extents_word : extents [ch 'a', ch 'b', 0x0A] = [3, 1] := by
  have hword : munch (block .std) [ch 'a', ch 'b', 0x0A] = some (.ret (.token .wd), 2) := by decide +kernel
  have hline : munch (block .std) [0x0A] = some (.goto (some .eol) .std, 1) := by decide +kernel
  have hend : blocks.extents .std [0x0A] [] = [] := by
    unfold Blocks.extents
    split
    · next h => exact absurd (munch_length_le h) (by simp)
    · next h => exact absurd (munch_length_le h) (by simp)
    · rfl
  unfold extents
  rw [Blocks.extents_ret hword, if_neg (by decide)]
  show _ :: blocks.extents .std [] [0x0A] = _
  rw [Blocks.extents_goto hline]
  show _ :: _ :: blocks.extents .std [0x0A] [] = _
  rw [hend]
  decide +kernel

theorem scanAll_unbounded_word :
    scanAll (fun _ => 0) [ch 'a', ch 'b', 0x0A] = some (scanned [ch 'a', ch 'b', 0x0A]) :=
  scanAll_unbounded _ (by rw [extents_word]; decide)

end AnyParser
end CSamples
