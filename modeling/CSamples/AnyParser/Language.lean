import CSamples.AnyParser.Scanner
import CSamples.Grammar.Yield
import Mathlib.Tactic.DeriveFintype

/-!
# `AnyParser.Language` — the grammar of `any_parser` and its scanner

`any_parser/parser/parser.y` describes documents of lines, each with a token `EOL` at its end. The scanner prints
`(EOL)` at the end of a line and goes on, so that the parser is never given that token.

## Contents
- **Grammar.** `Rule`, `grammar`; `Document`, the documents it describes.
- `mem_language_iff`: the grammar derives the documents and nothing else.
- **Scanner.** `tokens`, the token ids that the driver gives the parser; `eol_not_mem_tokens`.
- `tokens_not_derivable`: they are not a word of the grammar, whatever the file is.
-/

namespace CSamples
namespace AnyParser

open C CSamples.Lex CSamples.Scanner Grammar

/-! ## The grammar -/

/-- The tokens of which a line is made. -/
inductive Kind where
  | wd | dec | any | iConstant | fConstant | dbs | backslash | stringLiteral
  deriving DecidableEq, Repr

instance : Fintype Kind :=
  ⟨{.wd, .dec, .any, .iConstant, .fConstant, .dbs, .backslash, .stringLiteral}, fun k => by cases k <;> decide⟩

def Kind.terminal : Kind → Terminal
  | .wd            => .wd
  | .dec           => .dec
  | .any           => .any
  | .iConstant     => .iConstant
  | .fConstant     => .fConstant
  | .dbs           => .dbs
  | .backslash     => .backslash
  | .stringLiteral => .stringLiteral

/-- `kind k` is `wd`, `dec` and so on. -/
inductive NonTerminal where
  | input | lines | line
  | kind (k : Kind)
  deriving DecidableEq, Repr

inductive Rule where
  /-- `input ::= lines .` -/
  | input
  /-- `lines ::= EOL .` -/
  | linesEol
  /-- `lines ::= line EOL .` -/
  | linesLine
  /-- `lines ::= lines line EOL .` -/
  | lines
  /-- `line ::= wd .` and so on -/
  | lineFirst (k : Kind)
  /-- `line ::= line wd .` and so on -/
  | line (k : Kind)
  /-- `wd ::= WD .` and so on -/
  | kind (k : Kind)
  deriving DecidableEq, Repr, Fintype

def lhs : Rule → NonTerminal
  | .input       => .input
  | .linesEol    => .lines
  | .linesLine   => .lines
  | .lines       => .lines
  | .lineFirst _ => .line
  | .line _      => .line
  | .kind k      => .kind k

def rhs : Rule → List (Symbol Terminal NonTerminal)
  | .input       => [.nonterminal .lines]
  | .linesEol    => [.terminal .eol]
  | .linesLine   => [.nonterminal .line, .terminal .eol]
  | .lines       => [.nonterminal .lines, .nonterminal .line, .terminal .eol]
  | .lineFirst k => [.nonterminal (.kind k)]
  | .line k      => [.nonterminal .line, .nonterminal (.kind k)]
  | .kind k      => [.terminal k.terminal]

/-- `%start_symbol input` -/
abbrev grammar : ContextFreeGrammar Terminal where
  NT      := NonTerminal
  initial := .input
  rules   := Finset.univ.image (fun r => ⟨lhs r, rhs r⟩)

/-! ## The documents it describes -/

/-- A line that is not blank. -/
def IsLine (u : List Terminal) : Prop := u ≠ [] ∧ Terminal.eol ∉ u

/-- Lines with a token `EOL` behind each. Only the first one may be blank. -/
inductive Document : List Terminal → Prop
  | blank : Document [.eol]
  | line {u : List Terminal} (hu : IsLine u) : Document (u ++ [.eol])
  | more {w u : List Terminal} (hw : Document w) (hu : IsLine u) : Document (w ++ (u ++ [.eol]))

theorem Document.eol_mem {w : List Terminal} (h : Document w) : Terminal.eol ∈ w := by
  cases h with
  | blank => exact List.mem_singleton_self _
  | line _ => exact List.mem_append_right _ (List.mem_singleton_self _)
  | more _ _ => exact List.mem_append_right _ (List.mem_append_right _ (List.mem_singleton_self _))

theorem Kind.exists_terminal {t : Terminal} (h : t ≠ .eol) : ∃ k : Kind, k.terminal = t := by
  cases t with
  | eol => exact absurd rfl h
  | dec => exact ⟨.dec, rfl⟩
  | wd => exact ⟨.wd, rfl⟩
  | any => exact ⟨.any, rfl⟩
  | iConstant => exact ⟨.iConstant, rfl⟩
  | fConstant => exact ⟨.fConstant, rfl⟩
  | backslash => exact ⟨.backslash, rfl⟩
  | dbs => exact ⟨.dbs, rfl⟩
  | stringLiteral => exact ⟨.stringLiteral, rfl⟩

theorem isLine_terminal (k : Kind) : IsLine [k.terminal] :=
  ⟨List.cons_ne_nil _ _, by cases k <;> decide⟩

theorem IsLine.append {u v : List Terminal} (hu : IsLine u) (hv : IsLine v) : IsLine (u ++ v) :=
  ⟨List.append_ne_nil_of_left_ne_nil hu.1 _, fun h => (List.mem_append.mp h).elim hu.2 hv.2⟩

/-- What the symbols of the grammar stand for. -/
def Means : NonTerminal → List Terminal → Prop
  | .input, w  => Document w
  | .lines, w  => Document w
  | .line, w   => IsLine w
  | .kind k, w => w = [k.terminal]

/-- One rule: its parts make what its left-hand side stands for. -/
theorem means_rule (r : Rule) {w : List Terminal} (h : Parts Means (rhs r) w) : Means (lhs r) w := by
  cases r with
  | input => exact h.single
  | linesEol =>
      cases h with
      | terminal _ h =>
          cases h
          exact .blank
  | linesLine =>
      cases h with
      | nonterminal hu h =>
      cases h with
      | terminal _ h =>
          cases h
          exact .line hu
  | lines =>
      cases h with
      | nonterminal hw h =>
      cases h with
      | nonterminal hu h =>
      cases h with
      | terminal _ h =>
          cases h
          exact .more hw hu
  | lineFirst k =>
      obtain rfl : w = [k.terminal] := h.single
      exact isLine_terminal k
  | line k =>
      cases h with
      | nonterminal hu h =>
          obtain rfl : _ = [k.terminal] := h.single
          exact IsLine.append hu (isLine_terminal k)
  | kind k =>
      cases h with
      | terminal _ h =>
          cases h
          rfl

theorem yields_rule (r : Rule) {u : List Terminal} (h : Yields grammar (rhs r) u) :
    Yields grammar [.nonterminal (lhs r)] u := by
  have hmem : (⟨lhs r, rhs r⟩ : ContextFreeRule Terminal NonTerminal) ∈ grammar.rules :=
    Finset.mem_image_of_mem _ (Finset.mem_univ r)
  exact Yields.rule hmem h

theorem yields_kind (k : Kind) : Yields grammar [.nonterminal (.kind k)] [k.terminal] :=
  yields_rule (.kind k) (.terminal _ .nil)

/-- A line is derived from left to right. -/
theorem yields_line {u : List Terminal} (h : IsLine u) : Yields grammar [.nonterminal .line] u := by
  induction u using List.reverseRecOn with
  | nil => exact absurd rfl h.1
  | append_singleton u t ih =>
      have hfree : Terminal.eol ∉ u := fun hu => h.2 (List.mem_append_left _ hu)
      have ht : t ≠ .eol := by
        rintro rfl
        exact h.2 (List.mem_append_right _ (List.mem_singleton_self _))
      obtain ⟨k, rfl⟩ := Kind.exists_terminal ht
      cases u with
      | nil => exact yields_rule (.lineFirst k) (yields_kind k)
      | cons a u =>
          have hline := ih ⟨List.cons_ne_nil a u, hfree⟩
          exact yields_rule (.line k) (hline.append (yields_kind k))

theorem yields_lines {w : List Terminal} (h : Document w) : Yields grammar [.nonterminal .lines] w := by
  have heol : Yields grammar [.terminal .eol] [.eol] := .terminal _ .nil
  induction h with
  | blank => exact yields_rule .linesEol heol
  | line hu => exact yields_rule .linesLine ((yields_line hu).append heol)
  | more _ hu ih => exact yields_rule .lines (ih.append ((yields_line hu).append heol))

/-- **The language of the grammar.** -/
theorem mem_language_iff {w : List Terminal} : w ∈ grammar.language ↔ Document w := by
  rw [mem_language_iff_yields]
  constructor
  · intro h
    refine (Yields.fold (Q := Means) ?_ h).single
    intro r hr u hparts
    obtain ⟨r, -, rfl⟩ := Finset.mem_image.mp hr
    exact means_rule r hparts
  · intro h
    exact yields_rule .input (yields_lines h)

/-! ## What the scanner gives the parser -/

/-- The token ids among what a scan prints and returns. -/
def tokens (es : List (Event Scanned)) : List Terminal :=
  es.filterMap (fun x => match x.1 with
    | .token t => some t
    | _        => none)

theorem mem_tokens {es : List (Event Scanned)} {t : Terminal} :
    t ∈ tokens es ↔ ∃ u, (Scanned.token t, u) ∈ es := by
  unfold tokens
  rw [List.mem_filterMap]
  constructor
  · rintro ⟨⟨e, u⟩, hmem, he⟩
    cases e with
    | token t' =>
        obtain rfl : t' = t := Option.some.inj he
        exact ⟨u, hmem⟩
    | blank | eol | eof | unknown | exit => exact nomatch he
  · rintro ⟨u, hmem⟩
    exact ⟨_, hmem, rfl⟩

/-- No action of the scanner returns `EOL`. -/
theorem not_emits_eol : ¬ blocks.Emits (.token .eol) := by
  rintro (⟨l, hl⟩ | ⟨l, a, ha, hemits⟩)
  · cases l <;> exact nomatch hl
  · revert a
    cases l <;> decide

theorem eol_not_mem_tokens (limit : Option Nat) (l : Label) (u v : List UInt8) :
    Terminal.eol ∉ tokens (blocks.events limit l u v) := by
  intro h
  obtain ⟨w, hw⟩ := mem_tokens.mp h
  exact not_emits_eol (Blocks.emits_of_mem_events hw)

/-- **The scanner and the grammar never agree**: the tokens of a file are not a word of the grammar, whether or
    not the file is made of lines. -/
theorem tokens_not_derivable (buf : Fin (BUFSIZE + 1) → UInt8) (file : List UInt8) :
    ∃ es, scanAll buf file = some es ∧ tokens es ∉ grammar.language := by
  refine ⟨_, scanAll_eq buf file, ?_⟩
  intro h
  exact eol_not_mem_tokens _ _ _ _ (mem_language_iff.mp h).eol_mem

/-- A file of one line with one word. -/
theorem tokens_word_line :
    (scanAll (fun _ => 0) [ch 'a', ch 'b', 0x0A]).map tokens = some [.wd] ∧ [.wd] ∉ grammar.language := by
  refine ⟨by decide +kernel, ?_⟩
  intro h
  exact absurd (mem_language_iff.mp h).eol_mem (by decide)

end AnyParser
end CSamples
