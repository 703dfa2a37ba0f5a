import CSamples.AnyParser.Language
import CSamples.C.Fgets
import CSamples.Lemon.Language

/-!
# `AnyParser.Main` — the driver of `any_parser`

The loop of `any_parser/example/example.c` over one file, built with the parser: every token goes to the parser, and a
negative result ends the loop. The parser is given no end marker, and as the scanner never returns `EOL` it reads one
line that does not end, whatever the tokens are.

## Contents
- **Tables.** `action` and `goto`, which the generator makes of `any_parser/parser/parser.y`; `parser`.
- **Model.** `drive` and `main`.
- `parse_kind`: the parser reads every token that the scanner returns.
- `main_isSome`: the program, for every file.
-/

namespace CSamples
namespace AnyParser

open C CSamples.Lex CSamples.Scanner
open Lemon (Action StateNo Generated parse)

/-! ## The tables -/

inductive State where
  /-- `input ::= . lines` -/
  | start
  /-- `lines ::= line . EOL`, `line ::= line . wd` and so on -/
  | line
  /-- `input ::= lines .`, `lines ::= lines . line EOL` -/
  | lines
  /-- `lines ::= lines line . EOL`, `line ::= line . wd` and so on -/
  | linesLine
  deriving DecidableEq, Repr

/-- The kind of a token; `none` for `EOL`. -/
def Terminal.kind : Terminal → Option Kind
  | .eol           => none
  | .wd            => some .wd
  | .dec           => some .dec
  | .any           => some .any
  | .iConstant     => some .iConstant
  | .fConstant     => some .fConstant
  | .dbs           => some .dbs
  | .backslash     => some .backslash
  | .stringLiteral => some .stringLiteral

/-- `EOL` by `r`, and what begins or continues a line. -/
def lineAction (r : Rule) : Option Terminal → Lemon.Action State Rule
  | none   => .error
  | some t => match t.kind with
    | none   => .shiftReduce r
    | some k => .shiftReduce (.kind k)

/-- `yy_action`, by state and lookahead; `none` is the end marker. -/
def action : State → Option Terminal → Lemon.Action State Rule
  | .start, t        => lineAction .linesEol t
  | .line, t         => lineAction .linesLine t
  | .lines, none     => .reduce .input
  | .lines, some t   => match t.kind with
    | none   => .error
    | some k => .shiftReduce (.kind k)
  | .linesLine, t    => lineAction .lines t

/-- `yy_action`, by state and nonterminal. The gotos of `wd`, `dec` and so on where a line begins are those of `line`:
    `line ::= wd` and so on are never reduced. -/
def goto : State → NonTerminal → Option (StateNo State Rule)
  | .start, .input       => some .accept
  | .start, .lines       => some (.state .lines)
  | .start, .line        => some (.state .line)
  | .start, .kind _      => some (.state .line)
  | .line, .kind k       => some (.reduce (.line k))
  | .lines, .line        => some (.state .linesLine)
  | .lines, .kind _      => some (.state .linesLine)
  | .linesLine, .kind k  => some (.reduce (.line k))
  | _, _                 => none

/-- Reductions that can follow one another without a shift: by rule. -/
def ruleRank : Rule → Nat
  | .input | .lines => 1
  | .line _         => 0
  | _               => 2

def rank : StateNo State Rule → Nat
  | .state .lines => 1
  | .state _      => 0
  | .reduce r     => ruleRank r
  | .accept       => 0

theorem rank_lt (e : StateNo State Rule) : rank e < 3 * 3 := by
  cases e with
  | state q => cases q <;> decide
  | reduce r => cases r <;> simp [rank, ruleRank]
  | accept => decide

theorem lineAction_ne_reduce (r r' : Rule) (t : Option Terminal) : lineAction r t ≠ .reduce r' := by
  unfold lineAction
  split
  · intro h
    cases h
  · split <;> (intro h; cases h)

/-- One state reduces on a lookahead. -/
theorem state_of_reduce {q : State} {t : Option Terminal} {r : Rule} (h : action q t = .reduce r) :
    q = .lines ∧ r = .input := by
  cases q with
  | start => exact absurd h (lineAction_ne_reduce _ _ t)
  | line => exact absurd h (lineAction_ne_reduce _ _ t)
  | linesLine => exact absurd h (lineAction_ne_reduce _ _ t)
  | lines =>
      cases t with
      | none => exact ⟨rfl, (Lemon.Action.reduce.inj h).symm⟩
      | some t =>
          have hne : ∀ o : Option Kind, (match o with
              | none => Lemon.Action.error
              | some k => Lemon.Action.shiftReduce (Rule.kind k) : Lemon.Action State Rule) ≠ .reduce r := by
            intro o
            cases o <;> (intro h; cases h)
          exact absurd h (hne t.kind)

theorem rank_goto (q : State) (r : Rule) (s e : StateNo State Rule) (hgoto : goto q (lhs r) = some s)
    (hred : Lemon.CanReduce action e r) : rank s + 3 < rank e + 3 * (rhs r).length := by
  have he : rank e = ruleRank r := by
    cases e with
    | state q =>
        obtain ⟨t, ht⟩ := hred
        obtain ⟨rfl, rfl⟩ := state_of_reduce ht
        rfl
    | reduce r' => exact congrArg ruleRank hred
    | accept => exact hred.elim
  rw [he]
  cases r <;> cases q <;> cases hgoto <;> simp [rank, ruleRank, rhs]

/-- The parser generated from `parser.y`, which has no reduce actions. -/
def parser : Generated Terminal NonTerminal State Rule Unit Empty where
  start     := .start
  lhs       := lhs
  rhs       := rhs
  action    := action
  goto      := goto
  sem       := fun _ _ => ((), [])
  rank      := rank
  rankBound := 3
  rank_lt   := rank_lt
  rank_goto := rank_goto

/-! ## The model -/

abbrev LR := Lemon.Parser Terminal NonTerminal State Rule Unit

/-- The default of `YYSTACKDEPTH`. -/
def yyStackDepth : Nat := 100

/-- The size of `buf`. -/
def bufSize : Nat := 256

/-- `sprintf(buf, "%.*s", …)` stays in `buf`: it copies up to the first NUL, and adds one. -/
def fitsBuf (text : List UInt8) : Bool := (stringOf text).length < bufSize

/-- `%syntax_error`, which leaves the program. -/
def isSyntaxError : Lemon.Event Terminal Empty → Bool
  | .syntaxError _ => true
  | _              => false

/-- The loop: the status with which the program leaves, 0 where it goes on to the next file. `none` is a text that
    overflows `buf`. -/
def drive : Nat → Input → LR → Option Nat
  | 0, _, _ => none
  | n + 1, s, p =>
      (blocks.call (n + 1) blocks.std s).bind (fun x =>
        match x.2.1.1 with
        | .token t =>
            if fitsBuf x.2.1.2 then
              (parse parser (some yyStackDepth) (some t) () p).bind (fun y =>
                if y.2.any isSyntaxError then some 1 else drive n x.2.2 y.1)
            else none
        | .exit => some 1
        | _     => some 0)

/-- The program on one file. -/
def main (buf : Fin (BUFSIZE + 1) → UInt8) (file : List UInt8) : Option Nat :=
  drive (file.length + 1) (inputInit buf file) Lemon.init

/-! ## The parser reads every token -/

/-- Nothing, or a line whose last token is still to be reduced. -/
inductive InLine : List (Lemon.Entry Terminal NonTerminal State Rule Unit) → Prop
  | start : InLine []
  | first (k : Kind) : InLine [⟨.reduce (.kind k), .terminal k.terminal, ()⟩]
  | more (k : Kind) (m : Symbol Terminal NonTerminal) :
      InLine [⟨.reduce (.kind k), .terminal k.terminal, ()⟩, ⟨.state .line, m, ()⟩]

theorem kind_terminal (k : Kind) : k.terminal.kind = some k := by
  cases k <;> rfl

theorem lineAction_kind (r : Rule) (k : Kind) : lineAction r (some k.terminal) = .shiftReduce (.kind k) := by
  show (match k.terminal.kind with
    | none   => Lemon.Action.shiftReduce r
    | some k => Lemon.Action.shiftReduce (Rule.kind k)) = _
  rw [kind_terminal]

/-- A token where a line begins or goes on is pushed. -/
theorem parse_push {S : List (Lemon.Entry Terminal NonTerminal State Rule Unit)} {q : State}
    (htop : Lemon.top parser S = .state q) (hq : q = .start ∨ q = .line) (hS : S.length ≤ 1) (k : Kind) (c : Int32)
    (n : Nat) :
    parse parser (some yyStackDepth) (some k.terminal) () ⟨S, c, n⟩ =
      some (⟨⟨.reduce (.kind k), .terminal k.terminal, ()⟩ :: S, c - 1, max n (S.length + 1)⟩, []) := by
  have hfull : Lemon.full (some yyStackDepth) S = false := by
    simp [Lemon.full, yyStackDepth]
    omega
  have hshifts : Lemon.Shifts parser (some k.terminal) (Lemon.top parser S) (.reduce (Rule.kind k)) := by
    rw [htop]
    rcases hq with rfl | rfl <;> exact lineAction_kind _ k
  exact Lemon.parse_done (Lemon.turn_shift (.reduce (Rule.kind k)) hshifts hfull)

/-- **Every token that is not `EOL` is read**, without an error. -/
theorem parse_kind {p : LR} (hp : InLine p.stack) (k : Kind) :
    ∃ p', parse parser (some yyStackDepth) (some k.terminal) () p = some (p', []) ∧ InLine p'.stack := by
  obtain ⟨S, c, n⟩ := p
  cases hp with
  | start => exact ⟨_, @parse_push [] .start rfl (.inl rfl) (Nat.zero_le _) k c n, .first k⟩
  | first j =>
      -- `wd ::= WD` and so on, which begins a line
      have hkind : Lemon.turn parser (some yyStackDepth) (some k.terminal) ()
          ⟨[⟨.reduce (.kind j), .terminal j.terminal, ()⟩], c, n⟩ =
          some (.again ⟨[⟨.state .line, .nonterminal (.kind j), ()⟩], c, max n 1⟩ []) := rfl
      have hpush := @parse_push [⟨.state .line, .nonterminal (.kind j), ()⟩] .line rfl (.inr rfl) (Nat.le_refl _)
        k c (max n 1)
      have hparse := Lemon.parse_again hkind
      rw [hpush] at hparse
      exact ⟨_, hparse, .more k _⟩
  | more j m =>
      -- the same, and then `line ::= line wd` and so on
      have hkind : Lemon.turn parser (some yyStackDepth) (some k.terminal) ()
          ⟨[⟨.reduce (.kind j), .terminal j.terminal, ()⟩, ⟨.state .line, m, ()⟩], c, n⟩ =
          some (.again ⟨[⟨.reduce (.line j), .nonterminal (.kind j), ()⟩, ⟨.state .line, m, ()⟩], c, max n 2⟩ []) := rfl
      have hline : Lemon.turn parser (some yyStackDepth) (some k.terminal) ()
          ⟨[⟨.reduce (.line j), .nonterminal (.kind j), ()⟩, ⟨.state .line, m, ()⟩], c, max n 2⟩ =
          some (.again ⟨[⟨.state .line, .nonterminal .line, ()⟩], c, max (max n 2) 1⟩ []) := rfl
      have hpush := @parse_push [⟨.state .line, .nonterminal .line, ()⟩] .line rfl (.inr rfl) (Nat.le_refl _) k c
        (max (max n 2) 1)
      have hparse := Lemon.parse_again hkind
      rw [Lemon.parse_again hline, hpush] at hparse
      exact ⟨_, hparse, .more k _⟩

/-! ## The program -/

theorem not_returns_printed {e : Scanned} (h : e = .blank ∨ e = .eol) : ¬ blocks.Returns e := by
  rintro (⟨l, hl⟩ | ⟨l, hl⟩)
  · rcases h with rfl | rfl <;> cases l <;> exact absurd hl (by decide)
  · rcases h with rfl | rfl <;> cases l <;> simp [blocks, block, rules, commentC, lineComment] at hl

/-- The texts fit if that of the next token does and those behind it do. -/
theorem fits_token {es vs : List (Event Scanned)} (hes : ∀ t text, (Scanned.token t, text) ∉ es) {t : Terminal}
    {text : List UInt8} :
    (∀ t' text', (Scanned.token t', text') ∈ es ++ (.token t, text) :: vs → fitsBuf text' = true) ↔
      fitsBuf text = true ∧ ∀ t' text', (Scanned.token t', text') ∈ vs → fitsBuf text' = true := by
  constructor
  · intro hall
    exact ⟨hall t text (List.mem_append_right _ (List.mem_cons_self ..)), fun t' text' hmem =>
      hall t' text' (List.mem_append_right _ (List.mem_cons_of_mem _ hmem))⟩
  · rintro ⟨hfit, hall⟩ t' text' hmem
    rcases List.mem_append.mp hmem with hmem | hmem
    · exact absurd hmem (hes t' text')
    · rcases List.mem_cons.mp hmem with heq | hmem
      · rw [(Prod.mk.inj heq).2]
        exact hfit
      · exact hall t' text' hmem

/-- **The loop leaves `buf` alone** exactly if the texts of all tokens fit. -/
theorem drive_isSome {u v : List UInt8} {s : Input} {p : LR} {n : Nat} (h : Blocks.At u v s) (hn : v.length < n)
    (hp : InLine p.stack) :
    (drive n s p).isSome = true ↔
      ∀ t text, (Scanned.token t, text) ∈ blocks.events (some BUFSIZE) blocks.std [] v → fitsBuf text = true := by
  induction n generalizing u v s p with
  | zero => exact absurd hn (Nat.not_lt_zero _)
  | succ n ih =>
      obtain ⟨es, ⟨e, text⟩, s', hcall, hprints, hres⟩ := @Blocks.call_spec _ _ _ blocks blocks.std _ _ _ _ h hn
      have hes : ∀ t text, (Scanned.token t, text) ∉ es := by
        intro t text hmem
        obtain ⟨l, l', hl⟩ := hprints _ hmem
        revert hl
        cases l <;> simp [blocks, block, rules, commentC, lineComment]
      rw [blocks.events_std, blocks.left_std] at hres
      unfold drive
      rw [hcall, Option.bind_some]
      rcases hres with ⟨hfinal, hev, -⟩ | ⟨hfinal, u', v', h', hlen, hev, -⟩
      · -- the last result is no token
        have hnone : ∀ t text, (Scanned.token t, text) ∉ blocks.events (some BUFSIZE) blocks.std [] v := by
          intro t text' hmem
          rw [hev] at hmem
          rcases List.mem_append.mp hmem with hmem | hmem
          · exact hes t text' hmem
          · obtain ⟨rfl, -⟩ := Prod.mk.inj (List.mem_singleton.mp hmem)
            exact Bool.noConfusion hfinal
        cases e with
        | token t => exact Bool.noConfusion hfinal
        | blank => exact Bool.noConfusion hfinal
        | eol => exact Bool.noConfusion hfinal
        | exit | eof | unknown => exact ⟨fun _ t text hmem => absurd hmem (hnone t text), fun _ => rfl⟩
      · -- a token that is not `EOL`
        obtain ⟨t, rfl⟩ : ∃ t, e = .token t := by
          have hreturns := Blocks.call_returns h hcall
          cases e with
          | token t => exact ⟨t, rfl⟩
          | eof | unknown | exit => exact Bool.noConfusion hfinal
          | blank => exact absurd hreturns (not_returns_printed (.inl rfl))
          | eol => exact absurd hreturns (not_returns_printed (.inr rfl))
        have hmem : (Scanned.token t, text) ∈ blocks.events (some BUFSIZE) blocks.std [] v := by
          rw [hev]
          exact List.mem_append_right _ (List.mem_cons_self ..)
        obtain ⟨k, rfl⟩ : ∃ k : Kind, k.terminal = t := by
          apply Kind.exists_terminal
          rintro rfl
          exact eol_not_mem_tokens _ _ _ _ (mem_tokens.mpr ⟨text, hmem⟩)
        obtain ⟨p', hparse, hp'⟩ := parse_kind hp k
        have hrest := @ih u' v' s' p' h' (by omega) hp'
        show (if fitsBuf text = true then (parse parser _ (some k.terminal) () p).bind _ else none).isSome = true ↔ _
        by_cases hfit : fitsBuf text = true
        · rw [if_pos hfit, hparse, Option.bind_some]
          show (drive n s' p').isSome = true ↔ _
          rw [hrest, hev, fits_token hes]
          exact ⟨fun hall => ⟨hfit, hall⟩, And.right⟩
        · rw [if_neg hfit]
          exact ⟨fun h => absurd h (by decide), fun hall => absurd (hall _ text hmem) hfit⟩

/-- The program, for every file. -/
theorem main_isSome (buf : Fin (BUFSIZE + 1) → UInt8) (file : List UInt8) :
    (main buf file).isSome = true ↔
      ∀ t text, (Scanned.token t, text) ∈ blocks.events (some BUFSIZE) blocks.std [] file → fitsBuf text = true :=
  @drive_isSome [] file (inputInit buf file) Lemon.init (file.length + 1) ⟨holds_inputInit buf file, rfl⟩
    (Nat.lt_succ_self _) .start

end AnyParser
end CSamples
