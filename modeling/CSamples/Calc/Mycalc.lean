import CSamples.Calc.Delivery
import CSamples.Calc.Lines

/-!
# `Calc.Mycalc` — the calculator

`main` of `calc/mycalc/mycalc.c` puts the scanner with its `fill` and the parser together: the text of every token goes
through `atoi` into the token's value, and nothing is fed behind the last token. On lines that are expressions its
output is the values of the expressions, where the reads leave the lines whole.

## Contents
- **Model.** `tokenOf`, `loop` and `main`.
- **Specification.** `Line`, a line of text and the tree of its expression; `value` and `Defined`; `Prints`.
- **The loop.** `loop_of_scanAll`: what it does with the results of the scanner (`fedLoop`).
- **Whole lines.** `eval_tree`: where the operations are defined, the reduce actions compute the value. `fed_lines`: the
  output, line by line.
- **Lines cut short.** `length_results_lt`: in front of the last newline there are fewer results than lines.
- `main_lines_iff`: the output is right exactly where no read is short in front of others.
-/

namespace CSamples
namespace Calc
namespace Mycalc

open C CSamples.Lex Lemon Lemon.Precedence

/-! ## The model -/

/-- `sprintf(buf, "%.*s", in.cur - in.tok, in.tok)` into the 256 bytes of `buf`, and `atoi(buf)`; `n` keeps
    its initial 0. `none` when the text does not fit, or the number does not. -/
def tokenOf (text : List UInt8) : Option Token :=
  let s := text.takeWhile (fun b => b ≠ 0)
  if s.length < 256 then (atoi s).map (fun v => ⟨some v, some 0⟩) else none

/-- The body of the loop, for a token with its text. -/
def body (pow : Int → Int → Option Int) (t : Terminal) (text : List UInt8) (p : LR) :
    Option (LR × List (Event Terminal Out)) :=
  (tokenOf text).bind (fun v => parse (parser pow) yyStackDepth (some t) v p)

/-- `while((token_id = scan(&in, &yylval)) != EOF){ ... }`, with `n` bytes of fuel for a call of `scan`. -/
def loop (P : Platform) (n : Nat) (pow : Int → Int → Option Int) :
    Nat → Scanner → LR → Option (LR × List (Event Terminal Out))
  | 0, _, _     => none
  | k + 1, s, p =>
      (scan P n n (s, s.cur)).bind (fun x =>
        match x.1 with
        | .eof          => some (p, [])
        | .token t text =>
            (body pow t text p).bind (fun y => (loop P n pow k x.2 y.1).map (fun z => (z.1, y.2 ++ z.2))))

/-- What `main` prints for what `read` delivers; `none` when it executes an undefined operation. -/
def main (P : Platform) (pow : Int → Int → Option Int) (n : Nat) (fd : Fd) : Option (List (Option Int)) :=
  (loop P n pow n (scannerInit fd) init).bind fun x =>
    if Event.user .undefined ∈ x.2 then none else some (results x.2)

/-! ## The specification -/

/-- The operators as they are written. -/
def Op.char : Op → Char
  | .plus   => '+'
  | .minus  => '-'
  | .times  => '*'
  | .divide => '/'
  | .mod    => '%'
  | .exp    => '^'

/-- A token of an expression over literals, with its text; `none` is the newline. -/
def spelling : Option (Tok (List UInt8) Op) → Terminal × List UInt8
  | some (.num u) => (.num, u)
  | some (.op o)  => (.op o, [ch (Op.char o)])
  | some .left    => (.lrb, [ch '('])
  | some .right   => (.rrb, [ch ')'])
  | none          => (.newline, [LF])

/-- A line: the tokens of an expression with blanks between them, without the newline. Literals are positive
    decimal numerals without a leading zero. -/
structure Line where
  toks    : List (Tok (List UInt8) Op)
  tree    : Precedence.Tree (List UInt8) Op
  text    : List UInt8
  parses  : Parses levels 0 toks tree
  literal : ∀ u, Tok.num u ∈ toks → u ∈ integer.lang
  renders : Renders isBlank (toks.map (fun a => spelling (some a))) text

/-- The tokens of lines, with the newlines. -/
def toks : List Line → List (Option (Tok (List UInt8) Op))
  | []      => []
  | l :: ls => l.toks.map some ++ none :: toks ls

/-- The bytes of lines. -/
def input : List Line → List UInt8
  | []      => []
  | l :: ls => l.text ++ LF :: input ls

/-- The operators on integers. -/
def Op.apply : Op → Int → Int → Int
  | .plus   => fun x y => x + y
  | .minus  => fun x y => x - y
  | .times  => fun x y => x * y
  | .divide => Int.tdiv
  | .mod    => Int.tmod
  | .exp    => fun x y => x ^ y.toNat

/-- The value of an expression. -/
def value : Precedence.Tree (List UInt8) Op → Int
  | .leaf u     => decimal u
  | .node o l r => Op.apply o (value l) (value r)

/-- The operands an operator may have. -/
def Allowed : Op → Int → Int → Prop
  | .divide, x, y => y ≠ 0 ∧ ¬ (x = -2147483648 ∧ y = -1)
  | .mod, x, y    => y ≠ 0 ∧ ¬ (x = -2147483648 ∧ y = -1)
  | .exp, _, y    => 0 ≤ y
  | _, _, _       => True

/-- Every literal and every intermediate result fits in `int`, and every operator may have its operands. -/
def Defined : Precedence.Tree (List UInt8) Op → Prop
  | .leaf u     => InInt (decimal u)
  | .node o l r => Defined l ∧ Defined r ∧ Allowed o (value l) (value r) ∧ InInt (Op.apply o (value l) (value r))

instance (o : Op) (x y : Int) : Decidable (Allowed o x y) :=
  match o with
  | .plus | .minus | .times => inferInstanceAs (Decidable True)
  | .divide | .mod          => inferInstanceAs (Decidable (_ ∧ _))
  | .exp                    => inferInstanceAs (Decidable (_ ≤ _))

instance decidableDefined : (t : Precedence.Tree (List UInt8) Op) → Decidable (Defined t)
  | .leaf u     => inferInstanceAs (Decidable (InInt (decimal u)))
  | .node _ l r =>
      have := decidableDefined l
      have := decidableDefined r
      inferInstanceAs (Decidable (_ ∧ _ ∧ _ ∧ _))

/-- `pow`, converted to `int`, is exact on results that fit. -/
def ExactPow (pow : Int → Int → Option Int) : Prop :=
  ∀ x y, InInt x → InInt y → 0 ≤ y → InInt (x ^ y.toNat) → pow x y = some (x ^ y.toNat)

/-- On lines that are delivered by `fd`, the program prints one number for every line, in order: the value of the line's
    expression. -/
def Prints (junk : Nat → UInt8) (pow : Int → Int → Option Int) (lines : List Line) (fd : Fd) : Prop :=
  ∃ n, main (uint junk) pow n fd = some (lines.map (fun l => some (value l.tree)))

/-! ## The loop -/

/-- The loop over results that are there. -/
def fedLoop (pow : Int → Int → Option Int) : List Scanned → LR → Option (LR × List (Event Terminal Out))
  | .token t text :: ss, p =>
      (body pow t text p).bind (fun y => (fedLoop pow ss y.1).map (fun z => (z.1, y.2 ++ z.2)))
  | _, p => some (p, [])

/-- The parser does not change what is scanned. -/
theorem loop_of_scanAll {P : Platform} {n : Nat} {pow : Int → Int → Option Int} {k : Nat} {s s' : Scanner}
    {ys : List Scanned} (h : scanAll P n k s = some (ys, s')) (p : LR) : loop P n pow k s p = fedLoop pow ys p := by
  induction k generalizing s ys p with
  | zero => exact absurd h (by simp [scanAll])
  | succ k ih =>
      unfold scanAll at h
      obtain ⟨⟨y, s₁⟩, hscan, h⟩ := Option.bind_eq_some_iff.mp h
      rw [loop, hscan, Option.bind_some]
      cases y with
      | eof =>
          rw [if_pos rfl] at h
          obtain ⟨rfl, -⟩ := Prod.mk.inj (Option.some.inj h)
          rfl
      | token t text =>
          rw [if_neg (by simp)] at h
          obtain ⟨⟨ys', s₂⟩, hrest, h⟩ := Option.map_eq_some_iff.mp h
          obtain ⟨rfl, rfl⟩ := Prod.mk.inj h
          show (body pow t text p).bind _ = (body pow t text p).bind _
          congr 1
          funext y
          rw [ih hrest]

/-- The loop ends at an `EOF`. -/
theorem scanAll_of_loop {P : Platform} {n : Nat} {pow : Int → Int → Option Int} {k : Nat} {s : Scanner} {p : LR}
    {y : LR × List (Event Terminal Out)} (h : loop P n pow k s p = some y) : ∃ z, scanAll P n k s = some z := by
  induction k generalizing s p y with
  | zero => exact absurd h (by simp [loop])
  | succ k ih =>
      unfold loop at h
      obtain ⟨⟨x, s₁⟩, hscan, h⟩ := Option.bind_eq_some_iff.mp h
      unfold scanAll
      rw [hscan, Option.bind_some]
      cases x with
      | eof => exact ⟨_, if_pos rfl⟩
      | token t text =>
          obtain ⟨y₁, -, h⟩ := Option.bind_eq_some_iff.mp h
          obtain ⟨y₂, hrest, -⟩ := Option.map_eq_some_iff.mp h
          obtain ⟨z, hz⟩ := ih hrest
          refine ⟨(.token t text :: z.1, z.2), ?_⟩
          rw [if_neg (by simp), hz]
          rfl

/-- What `main` prints, by the results of the scanner. -/
theorem main_of_scanFile {P : Platform} {n : Nat} (pow : Int → Int → Option Int) {fd : Fd} {ys : List Scanned}
    {s : Scanner} (h : scanFile P n fd = some (ys, s)) : main P pow n fd =
      (fedLoop pow ys init).bind (fun x => if Event.user .undefined ∈ x.2 then none else some (results x.2)) := by
  unfold main
  rw [loop_of_scanAll h]

/-- A `main` that returns has seen `EOF`. -/
theorem scanFile_of_main {P : Platform} {pow : Int → Int → Option Int} {n : Nat} {fd : Fd} {rs : List (Option Int)}
    (h : main P pow n fd = some rs) : ∃ ys s, scanFile P n fd = some (ys, s) := by
  obtain ⟨y, hloop, -⟩ := Option.bind_eq_some_iff.mp h
  obtain ⟨⟨ys, s⟩, hscan⟩ := scanAll_of_loop hloop
  exact ⟨ys, s, hscan⟩

/-! ## The values of tokens -/

/-- The token of a literal. -/
def literalToken (u : List UInt8) : Token := ⟨some (decimal u), some 0⟩

theorem ne_zero_of_isDigit {b : UInt8} (h : isDigit b = true) : b ≠ 0 := by
  rintro rfl
  exact absurd h (by decide)

/-- The token of a literal that fits in `int`. -/
theorem tokenOf_literal {u : List UInt8} (hu : u ∈ integer.lang) (h : InInt (decimal u)) :
    tokenOf u = some (literalToken u) := by
  obtain ⟨d, ds, hd, hds, rfl⟩ := mem_integer.mp hu
  have hall : ∀ c ∈ d :: ds, isDigit c = true := by
    intro c hc
    rcases List.mem_cons.mp hc with rfl | hc
    · exact isDigit_of_isDigit19 hd
    · exact hds c hc
  have htake : (d :: ds).takeWhile (fun b => decide (b ≠ 0)) = d :: ds := by
    rw [← List.append_nil (d :: ds), List.takeWhile_append_of_pos, List.takeWhile_nil]
    intro c hc
    exact decide_eq_true (ne_zero_of_isDigit (hall c hc))
  have hd1 : ch '1' ≤ d := by
    have := hd
    simp only [isDigit19, Bool.and_eq_true, decide_eq_true_eq] at this
    exact this.1
  have hlen : (d :: ds).length < 256 := by
    have := length_le_of_inInt hd1 h
    rw [List.length_cons]
    omega
  unfold tokenOf
  simp only [htake]
  rw [if_pos hlen, atoi_digits hall, toInt, if_pos h]
  rfl

/-! ## Values -/

theorem inInt_value {t : Precedence.Tree (List UInt8) Op} (h : Defined t) : InInt (value t) := by
  cases t with
  | leaf u => exact h
  | node o l r => exact h.2.2.2

/-- One operator on operands it may have, with a result that fits. -/
theorem opValue_apply {pow : Int → Int → Option Int} (hpow : ExactPow pow) (o : Op) {x y : Int} (hx : InInt x)
    (hy : InInt y) (ha : Allowed o x y) (hr : InInt (Op.apply o x y)) :
    opValue pow o (some x) (some y) = some (Op.apply o x y) := by
  cases o with
  | plus | minus | times => exact if_pos hr
  | exp => exact hpow x y hx hy ha hr
  | divide =>
      show (if y = 0 then none else toInt (x.tdiv y)) = _
      rw [if_neg ha.1]
      exact if_pos hr
  | mod =>
      show (if y = 0 then none else (toInt (x.tdiv y)).map (fun _ => x.tmod y)) = _
      rw [if_neg ha.1, toInt, if_pos (inInt_tdiv hx ha.2)]
      rfl

/-- **The reduce actions compute the value**, where the operations are defined. -/
theorem eval_tree {pow : Int → Int → Option Int} (hpow : ExactPow pow) {t : Precedence.Tree (List UInt8) Op}
    (h : Defined t) : eval pow (t.map literalToken) = some (value t) := by
  induction t with
  | leaf u => rfl
  | node o l r ihl ihr =>
      obtain ⟨hl, hr, ha, hres⟩ := h
      show opValue pow o (eval pow (l.map literalToken)) (eval pow (r.map literalToken)) = _
      rw [ihl hl, ihr hr]
      exact opValue_apply hpow o (inInt_value hl) (inInt_value hr) ha hres

/-! ## Scanning lines -/

theorem isText_spelling {a : Option (Tok (List UInt8) Op)} (h : ∀ u, a = some (.num u) → u ∈ integer.lang) :
    IsText (spelling a).1 (spelling a).2 := by
  match a with
  | some (.num u) => exact .num (h u rfl)
  | some (.op o) => cases o <;> exact .char (by decide +kernel) (by decide) (by decide) (by decide)
  | some .left => exact .char (by decide +kernel) (by decide) (by decide) (by decide)
  | some .right => exact .char (by decide +kernel) (by decide) (by decide) (by decide)
  | none => exact .newline

/-- The literals of lines. -/
theorem literal_of_mem_toks {lines : List Line} {u : List UInt8} (h : some (Tok.num u) ∈ toks lines) :
    ∃ l ∈ lines, Tok.num u ∈ l.toks := by
  induction lines with
  | nil => exact absurd h List.not_mem_nil
  | cons l ls ih =>
      rcases List.mem_append.mp h with h | h
      · obtain ⟨a, ha, heq⟩ := List.mem_map.mp h
        exact ⟨l, List.mem_cons_self .., Option.some.inj heq ▸ ha⟩
      · obtain ⟨l', hl', hmem⟩ := ih ((List.mem_cons.mp h).resolve_left (by simp))
        exact ⟨l', List.mem_cons_of_mem l hl', hmem⟩

theorem renders_toks (lines : List Line) : Renders isBlank ((toks lines).map spelling) (input lines) := by
  induction lines with
  | nil => exact .nil
  | cons l ls ih =>
      rw [toks, List.map_append, List.map_map]
      exact l.renders.append (.token Terminal.newline [LF] ih)

theorem separate_newline (b : Terminal × List UInt8) :
    Separate (.newline, [LF]) b ∧ Separate b (.newline, [LF]) :=
  ⟨fun h => absurd h (by decide), fun _ => by decide⟩

theorem isChain_toks (lines : List Line) : ((toks lines).map spelling).IsChain Separate := by
  induction lines with
  | nil => exact .nil
  | cons l ls ih =>
      have hline : ((l.toks.map some).map spelling).IsChain Separate := by
        rw [List.map_map, List.isChain_map]
        refine l.parses.isChain.imp ?_
        intro a b hab ha hb
        cases a with
        | num x =>
            cases b with
            | num y => exact hab x y rfl rfl
            | _ => exact absurd hb (by simp [spelling])
        | _ => exact absurd ha (by simp [spelling])
      rw [toks, List.map_append]
      exact isChain_join separate_newline hline ih

/-- The scanner finds the tokens of the lines, and then `EOF`. -/
theorem scanned_input (lines : List Line) :
    scanned (input lines) = ((toks lines).map spelling).map (fun x => .token x.1 x.2) ++ [.eof] := by
  refine scanned_renders (renders_toks lines) ?_ (isChain_toks lines)
  intro x hx
  obtain ⟨a, ha, rfl⟩ := List.mem_map.mp hx
  apply isText_spelling
  rintro u rfl
  obtain ⟨l, -, hl⟩ := literal_of_mem_toks ha
  exact l.literal u hl

/-! ## Running lines -/

/-- What `main` feeds for a token. -/
def fed : Option (Tok (List UInt8) Op) → Terminal × Token
  | some (.num u) => (.num, literalToken u)
  | some (.op o)  => sym (.op o)
  | some .left    => sym .lrb
  | some .right   => sym .rrb
  | none          => sym .newline

theorem fed_fst (a : Option (Tok (List UInt8) Op)) : (fed a).1 = (spelling a).1 := by
  match a with
  | some (.num u) => rfl
  | some (.op o) => rfl
  | some .left => rfl
  | some .right => rfl
  | none => rfl

theorem tokenOf_spelling {a : Option (Tok (List UInt8) Op)}
    (h : ∀ u, a = some (.num u) → u ∈ integer.lang ∧ InInt (decimal u)) :
    tokenOf (spelling a).2 = some (fed a).2 := by
  match a with
  | some (.num u) => exact tokenOf_literal (h u rfl).1 (h u rfl).2
  | some (.op o) => cases o <;> decide +kernel
  | some .left => decide +kernel
  | some .right => decide +kernel
  | none => decide +kernel

/-- The loop feeds what was scanned. -/
theorem fedLoop_append (pow : Int → Int → Option Int) {as : List (Option (Tok (List UInt8) Op))}
    (h : ∀ a ∈ as, tokenOf (spelling a).2 = some (fed a).2) (ss : List Scanned) (p : LR) :
    fedLoop pow ((as.map spelling).map (fun x => .token x.1 x.2) ++ ss) p =
      (run (parser pow) yyStackDepth (feed (as.map fed)) p).bind
        (fun y => (fedLoop pow ss y.1).map (fun z => (z.1, y.2 ++ z.2))) := by
  induction as generalizing p with
  | nil => exact (Option.map_id' (x := fedLoop pow ss p)).symm
  | cons a as ih =>
      have hrest := ih (fun b hb => h b (List.mem_cons_of_mem a hb))
      show (body pow (spelling a).1 (spelling a).2 p).bind _ =
        ((parse (parser pow) yyStackDepth (some (fed a).1) (fed a).2 p).bind _).bind _
      rw [body, h a (List.mem_cons_self ..), Option.bind_some, fed_fst, Option.bind_assoc]
      congr 1
      funext y
      refine (congrArg (Option.map _) (hrest y.1)).trans ?_
      show _ = ((run (parser pow) yyStackDepth (feed (as.map fed)) y.1).map _).bind _
      cases run (parser pow) yyStackDepth (feed (as.map fed)) y.1 with
      | none => rfl
      | some z =>
          rw [Option.bind_some, Option.map_some, Option.bind_some, Option.map_map]
          congr 1
          funext w
          exact congrArg _ (List.append_assoc _ _ _).symm

theorem fedLoop_eq_run (pow : Int → Int → Option Int) {as : List (Option (Tok (List UInt8) Op))}
    (h : ∀ a ∈ as, tokenOf (spelling a).2 = some (fed a).2) (p : LR) :
    fedLoop pow ((as.map spelling).map (fun x => .token x.1 x.2) ++ [.eof]) p =
      run (parser pow) yyStackDepth (feed (as.map fed)) p := by
  rw [fedLoop_append pow h]
  simp [fedLoop]

theorem tok_fed (a : Tok (List UInt8) Op) : tok (fed (some a)) = some (a.map literalToken) := by
  cases a <;> rfl

/-- Lines from the start of a line, on a stack that grows on demand. -/
theorem run_lines {pow : Int → Int → Option Int} (hpow : ExactPow pow) {lines : List Line}
    (hdef : ∀ l ∈ lines, Defined l.tree) {p : LR} (hp : Lazy pow (.line (.operand [])) p.stack) :
    ∃ p' es, run (parser pow) none (feed ((toks lines).map fed)) p = some (p', es) ∧
      results es = lines.map (fun l => some (value l.tree)) ∧ ¬ Undefined es := by
  induction lines generalizing p with
  | nil => exact ⟨p, [], rfl, rfl, not_undefined_nil⟩
  | cons l ls ih =>
      have hd : Deep none := fun d hd => absurd hd (by simp)
      have hline : (l.toks.map (fun a => fed (some a))).map tok = (l.toks.map (Tok.map literalToken)).map some := by
        rw [List.map_map, List.map_map]
        exact List.map_congr_left (fun a _ => tok_fed a)
      obtain ⟨p₁, es₁, hrun₁, hres₁⟩ :=
        run_line pow hd hp (sym .newline).2 hline (l.parses.map literalToken)
      obtain ⟨hval, hlazy, hundef⟩ := hres₁ (overflow_not_mem_run _ hrun₁)
      have heval := eval_tree hpow (hdef l (List.mem_cons_self ..))
      obtain ⟨p₂, es₂, hrun₂, hres₂, hundef₂⟩ := ih (fun l' hl' => hdef l' (List.mem_cons_of_mem l hl')) hlazy
      refine ⟨p₂, es₁ ++ es₂, ?_, ?_, ?_⟩
      · have hsplit : feed ((toks (l :: ls)).map fed)
            = feed (l.toks.map (fun a => fed (some a)) ++ [(.newline, (sym .newline).2)]) ++ feed ((toks ls).map fed) := by
          simp [feed, toks, fed, sym, Function.comp_def]
        rw [hsplit, Lemon.run_append, hrun₁, Option.bind_some, hrun₂]
        rfl
      · have happ : results (es₁ ++ es₂) = results es₁ ++ results es₂ := by
          unfold results
          rw [seen_append, printed_append]
        rw [happ, hval, hres₂, heval]
        rfl
      · intro h
        rcases undefined_append.mp h with h | h
        · rw [hundef h] at heval
          exact absurd heval (by simp)
        · exact hundef₂ h

/-- The literals of a tree are its tokens'. -/
theorem inInt_of_num {P : Levels Op} {n : Nat} {w : List (Tok (List UInt8) Op)}
    {t : Precedence.Tree (List UInt8) Op} (h : Parses P n w t) (hdef : Defined t) :
    ∀ u, Tok.num u ∈ w → InInt (decimal u) := by
  intro u hu
  induction h with
  | num n a =>
      obtain rfl := Tok.num.inj (List.mem_singleton.mp hu)
      exact hdef
  | bracket n _ ih => exact ih hdef (by simpa using hu)
  | leftOp o _ _ _ _ ihl ihr =>
      rcases List.mem_append.mp hu with hu | hu
      · exact ihl hdef.1 hu
      · exact ihr hdef.2.1 ((List.mem_cons.mp hu).resolve_left nofun)
  | rightOp o _ _ _ _ ihl ihr =>
      rcases List.mem_append.mp hu with hu | hu
      · exact ihl hdef.1 hu
      · exact ihr hdef.2.1 ((List.mem_cons.mp hu).resolve_left nofun)

/-- The tokens of lines have values. -/
theorem tokenOf_toks {lines : List Line} (hdef : ∀ l ∈ lines, Defined l.tree) :
    ∀ a ∈ toks lines, tokenOf (spelling a).2 = some (fed a).2 := by
  intro a ha
  apply tokenOf_spelling
  rintro u rfl
  obtain ⟨l, hl, hmem⟩ := literal_of_mem_toks ha
  exact ⟨l.literal u hmem, inInt_of_num l.parses (hdef l hl) u hmem⟩

/-- **Whole lines**: the parser prints one number for every line. -/
theorem fed_lines {pow : Int → Int → Option Int} (hpow : ExactPow pow) {lines : List Line}
    (hdef : ∀ l ∈ lines, Defined l.tree)
    (hdepth : entriesNeeded (parser pow) (feed ((toks lines).map fed)) ≤ 100) :
    ∃ p es, run (parser pow) yyStackDepth (feed ((toks lines).map fed)) init = some (p, es) ∧
      results es = lines.map (fun l => some (value l.tree)) ∧ ¬ Undefined es ∧ Event.stackOverflow ∉ es := by
  obtain ⟨p, es, hrun, hres, hundef⟩ := @run_lines pow hpow lines hdef init .empty
  exact ⟨p, es, run_of_entriesNeeded hrun hdepth, hres, hundef, overflow_not_mem_run _ hrun⟩

/-! ## Lines cut short -/

/-- In front of the last newline fewer results are counted than there are lines. -/
theorem printCount_take_lt (lines : List Line) {m : Nat} (hm : m < (toks lines).length) :
    printCount .start (((toks lines).map fed).take m) < lines.length := by
  induction lines generalizing m with
  | nil => exact absurd hm (Nat.not_lt_zero m)
  | cons l ls ih =>
      have hline : (l.toks.map (fun a => fed (some a))).map tok = (l.toks.map (Tok.map literalToken)).map some := by
        rw [List.map_map, List.map_map]
        exact List.map_congr_left (fun a _ => tok_fed a)
      obtain ⟨hbefore, hafter, hposition⟩ := printCount_line (sym .newline).2 hline (l.parses.map literalToken)
      have hsplit : (toks (l :: ls)).map fed =
          (l.toks.map (fun a => fed (some a)) ++ [(.newline, (sym .newline).2)]) ++ (toks ls).map fed := by
        simp [toks, fed, sym, Function.comp_def]
      have hlen : (toks (l :: ls)).length = l.toks.length + 1 + (toks ls).length := by
        simp [toks]
        omega
      rw [hsplit]
      rcases Nat.lt_or_ge l.toks.length m with hlt | hle
      · -- the first line is whole
        have hA : (l.toks.map (fun a => fed (some a)) ++ [(Terminal.newline, (sym .newline).2)]).length ≤ m := by
          rw [List.length_append, List.length_map]
          exact hlt
        rw [List.take_append, List.take_of_length_le hA, printCount_append, hafter]
        have hrest := @ih (m - (l.toks.length + 1)) (by omega)
        rw [show (l.toks.map (fun a => fed (some a)) ++ [(Terminal.newline, (sym .newline).2)]).length =
          l.toks.length + 1 by simp]
        rw [show List.foldl (fun k (x : Terminal × Token) => k.next x.1) Position.start _ = Position.start from hposition,
          List.length_cons]
        omega
      · -- the cut is in the first line
        have hzero : printCount .start ((l.toks.map (fun a => fed (some a))).take m) = 0 := by
          have hsum := printCount_append .start ((l.toks.map (fun a => fed (some a))).take m)
            ((l.toks.map (fun a => fed (some a))).drop m)
          rw [List.take_append_drop, hbefore] at hsum
          omega
        rw [List.append_assoc, List.take_append_of_le_length (by rw [List.length_map]; exact hle), hzero]
        exact Nat.succ_pos _

/-- The tokens `xs` come in front of the last newline of lines; the last of them may be a number cut short. -/
inductive CutShort (lines : List Line) : List (Terminal × Token) → Prop
  | between {as bs : List (Option (Tok (List UInt8) Op))} (h : toks lines = as ++ bs) (hbs : bs ≠ []) :
      CutShort lines (as.map fed)
  | within {as bs : List (Option (Tok (List UInt8) Op))} {u : List UInt8} (h : toks lines = as ++ some (.num u) :: bs)
      (v : Token) : CutShort lines (as.map fed ++ [(.num, v)])

/-- A number is not the last token of lines. -/
theorem ne_nil_of_num {lines : List Line} {as bs : List (Option (Tok (List UInt8) Op))} {u : List UInt8}
    (h : toks lines = as ++ some (.num u) :: bs) : bs ≠ [] := by
  rintro rfl
  have hlast : ∀ ls : List Line, ∀ a ∈ (toks ls).getLast?, a = none := by
    intro ls
    induction ls with
    | nil => intro a ha; exact absurd ha (by simp [toks])
    | cons l ls ih =>
        intro a ha
        rw [toks, List.getLast?_append] at ha
        cases hls : toks ls with
        | nil =>
            rw [hls] at ha
            exact (Option.some.inj ha).symm
        | cons b bs =>
            rw [List.getLast?_cons_of_ne_nil (by rw [hls]; exact List.cons_ne_nil _ _)] at ha
            refine ih a ?_
            obtain ⟨c, hc⟩ : ∃ c, (toks ls).getLast? = some c := by
              rw [hls]
              exact ⟨_, List.getLast?_eq_some_getLast (List.cons_ne_nil _ _)⟩
            rw [hc] at ha ⊢
            exact ha
  exact absurd (hlast lines (some (.num u)) (by rw [h, List.getLast?_append]; rfl)) (by simp)

theorem CutShort.printCount_lt {lines : List Line} {xs : List (Terminal × Token)} (h : CutShort lines xs) :
    printCount .start xs < lines.length := by
  cases h with
  | @between as bs h hbs =>
      have hlt : as.length < (toks lines).length := by
        rw [h, List.length_append]
        exact Nat.lt_add_of_pos_right (List.length_pos_iff.mpr hbs)
      have hcount := printCount_take_lt lines hlt
      rwa [h, List.map_append, List.take_left' (List.length_map _)] at hcount
  | @within as bs u h v =>
      have hpos := List.length_pos_iff.mpr (ne_nil_of_num h)
      have hlt : as.length + 1 < (toks lines).length := by
        rw [h, List.length_append, List.length_cons]
        omega
      have hcount := printCount_take_lt lines hlt
      rw [h, List.map_append, List.map_cons, ← List.singleton_append, ← List.append_assoc,
        List.take_left' (by rw [List.length_append, List.length_map]; rfl)] at hcount
      rw [← @printCount_congr (as.map fed ++ [fed (some (.num u))])]
      · exact hcount
      · rw [List.map_append, List.map_append]
        rfl

/-- Tokens that are cut short need no more room. -/
theorem CutShort.fits {lines : List Line} {xs : List (Terminal × Token)} (h : CutShort lines xs) {m : Machine}
    (hall : Seen.overflow ∉ (steps yyStackDepth ((toks lines).map fed) m).2) :
    Seen.overflow ∉ (steps yyStackDepth xs m).2 := by
  cases h with
  | @between as bs h hbs =>
      rw [h, List.map_append, steps_append, List.mem_append, not_or] at hall
      exact hall.1
  | @within as bs u h v =>
      rw [h, List.map_append, List.map_cons, steps_append, List.mem_append, not_or, steps, List.mem_append, not_or] at hall
      rw [steps_append, List.mem_append, not_or]
      refine ⟨hall.1, ?_⟩
      show Seen.overflow ∉ _ ++ []
      rw [List.append_nil]
      exact overflow_num hall.2.1

/-- **Lines cut short** print fewer results than there are lines. -/
theorem length_results_lt {pow : Int → Int → Option Int} (hpow : ExactPow pow) {lines : List Line}
    (hdef : ∀ l ∈ lines, Defined l.tree)
    (hdepth : entriesNeeded (parser pow) (feed ((toks lines).map fed)) ≤ 100) {xs : List (Terminal × Token)}
    (h : CutShort lines xs) {p : LR} {es : List (Event Terminal Out)}
    (hrun : run (parser pow) yyStackDepth (feed xs) init = some (p, es)) : (results es).length < lines.length := by
  obtain ⟨p₁, es₁, hrun₁, -, -, hover₁⟩ := fed_lines hpow hdef hdepth
  obtain ⟨p₂, es₂, hrun₂, -, hseen₂, -⟩ :=
    @run_steps pow yyStackDepth deep_yyStackDepth ((toks lines).map fed) (.line (.operand [])) init .empty
  obtain ⟨rfl, rfl⟩ := Prod.mk.inj (Option.some.inj (hrun₁.symm.trans hrun₂))
  have hall : Seen.overflow ∉ (steps yyStackDepth ((toks lines).map fed) (.line (.operand []))).2 := by
    rw [← overflow_mem_map (eval pow), ← hseen₂, overflow_mem_seen]
    exact hover₁
  obtain ⟨p', es', hrun', -, hseen, -⟩ :=
    @run_steps pow yyStackDepth deep_yyStackDepth xs (.line (.operand [])) init .empty
  obtain ⟨rfl, rfl⟩ := Prod.mk.inj (Option.some.inj (hrun.symm.trans hrun'))
  have hover := h.fits hall
  have hlen : (results es).length = printCount .start xs := by
    have hnone : Seen.overflow ∉ seen es := by
      rw [hseen, overflow_mem_map]
      exact hover
    unfold results
    rw [length_printed hnone, hseen, List.length_map]
    exact (steps_position xs hover).2
  rw [hlen]
  exact h.printCount_lt

theorem getLast?_input {lines : List Line} (h : input lines ≠ []) : (input lines).getLast? = some LF := by
  induction lines with
  | nil => exact absurd rfl h
  | cons l ls ih =>
      rw [input, List.getLast?_append_of_ne_nil _ (List.cons_ne_nil _ _)]
      by_cases hls : input ls = []
      · rw [hls]
        rfl
      · rw [List.getLast?_cons_of_ne_nil hls]
        exact ih hls

/-- **A beginning of the bytes of lines** is scanned as tokens that are cut short. -/
theorem scanned_cut {lines : List Line} {w w' : List UInt8} (h : input lines = w ++ w') (hne : w' ≠ []) :
    (∃ as bs, toks lines = as ++ bs ∧ bs ≠ [] ∧
      scanned w = (as.map spelling).map (fun x => .token x.1 x.2) ++ [.eof]) ∨
    ∃ as u bs u', toks lines = as ++ some (.num u) :: bs ∧
      scanned w = (as.map spelling).map (fun x => .token x.1 x.2) ++ [.token .num u', .eof] := by
  have htext : ∀ a ∈ toks lines, IsText (spelling a).1 (spelling a).2 := by
    intro a ha
    apply isText_spelling
    rintro u rfl
    obtain ⟨l, -, hl⟩ := literal_of_mem_toks ha
    exact l.literal u hl
  have hchain := isChain_toks lines
  rcases (h ▸ renders_toks lines).cut with ⟨ps, qs, hts, hps, hqs⟩ | ⟨ps, t, u, u', qs, hts, hpre, hu', hlt, hps⟩
  · obtain ⟨as, bs, hab, rfl, rfl⟩ := List.map_eq_append_iff.mp hts
    refine .inl ⟨as, bs, hab, ?_, ?_⟩
    · -- what is left ends with a newline
      rintro rfl
      have hmem : LF ∈ w' := by
        have hlast := @getLast?_input lines (by rw [h]; exact List.append_ne_nil_of_right_ne_nil w hne)
        rw [h, List.getLast?_append_of_ne_nil w hne] at hlast
        exact List.mem_of_getLast? hlast
      obtain ⟨x, hx, -⟩ := (hqs.mem (b := LF) rfl).mp hmem
      exact absurd hx List.not_mem_nil
    · refine scanned_renders hps (fun x hx => ?_) (List.isChain_append.mp (hts ▸ hchain)).1
      obtain ⟨a, ha, rfl⟩ := List.mem_map.mp hx
      exact htext a (hab ▸ List.mem_append_left _ ha)
  · obtain ⟨as, cs, hab, rfl, hcs⟩ := List.map_eq_append_iff.mp hts
    obtain ⟨a, bs, rfl, ha, rfl⟩ := List.map_eq_cons_iff.mp hcs
    -- of the tokens only numbers have more than one byte
    obtain ⟨v, rfl⟩ : ∃ v, a = some (.num v) := by
      rcases a with _ | (v | o | _ | _)
      all_goals first
        | exact ⟨_, rfl⟩
        | (obtain ⟨rfl, rfl⟩ := Prod.mk.inj ha
           rcases List.prefix_cons_iff.mp hpre with hnil | ⟨r, rfl, hr⟩
           · exact absurd hnil hu'
           · exact absurd (congrArg _ (List.prefix_nil.mp hr)) hlt)
    obtain ⟨rfl, rfl⟩ := Prod.mk.inj ha
    refine .inr ⟨as, v, bs, u', hab, ?_⟩
    have hliteral : u' ∈ integer.lang := by
      obtain ⟨l, -, hl⟩ := literal_of_mem_toks (hab ▸ List.mem_append_right as (List.mem_cons_self ..))
      exact integer_of_prefix (l.literal v hl) hpre hu'
    obtain ⟨hleft, -, hjoin⟩ := List.isChain_append.mp (hts ▸ hchain)
    have hscan := scanned_renders hps (fun x hx => ?_) (List.isChain_append.mpr ⟨hleft, List.isChain_singleton _, ?_⟩)
    · rw [hscan, List.map_append, List.append_assoc]
      rfl
    · rcases List.mem_append.mp hx with hx | hx
      · obtain ⟨a, ha, rfl⟩ := List.mem_map.mp hx
        exact htext a (hab ▸ List.mem_append_left _ ha)
      · obtain rfl := List.mem_singleton.mp hx
        exact .num hliteral
    · intro x hx y hy
      obtain rfl := Option.some.inj hy
      exact hjoin x hx (Terminal.num, v) rfl

/-- A run whose output is right has read all lines. -/
theorem untaken_of_prints {pow : Int → Int → Option Int} (hpow : ExactPow pow) {lines : List Line}
    (hdef : ∀ l ∈ lines, Defined l.tree)
    (hdepth : entriesNeeded (parser pow) (feed ((toks lines).map fed)) ≤ 100) {junk : Nat → UInt8} {fd : Fd}
    (hdata : fd.data = input lines) (hsane : fd.Sane) (hfits : Fits junk fd) (h : Prints junk pow lines fd) :
    untaken fd.blocks = [] := by
  obtain ⟨n, hmain⟩ := h
  obtain ⟨ys, s, hscan⟩ := scanFile_of_main hmain
  obtain ⟨rfl, -⟩ := eq_of_scanFile hsane hfits hscan
  rw [main_of_scanFile pow hscan] at hmain
  obtain ⟨⟨p, es⟩, hloop, hres⟩ := Option.bind_eq_some_iff.mp hmain
  have hlen : (results es).length = lines.length := by
    rw [(Option.ite_none_left_eq_some.mp hres).2 |> Option.some.inj, List.length_map]
  by_contra hne
  have hsplit : input lines = taken fd.blocks ++ untaken fd.blocks := by
    rw [taken_append_untaken, ← hdata, Fd.data]
  have htok := tokenOf_toks hdef
  suffices hcut : ∃ xs, CutShort lines xs ∧ run (parser pow) yyStackDepth (feed xs) init = some (p, es) by
    obtain ⟨xs, hxs, hrun⟩ := hcut
    exact absurd hlen (Nat.ne_of_lt (length_results_lt hpow hdef hdepth hxs hrun))
  rcases scanned_cut hsplit hne with ⟨as, bs, hab, hbs, hys⟩ | ⟨as, u, bs, u', hab, hys⟩
  · rw [hys, fedLoop_eq_run pow (fun a ha => htok a (hab ▸ List.mem_append_left _ ha))] at hloop
    exact ⟨_, .between hab hbs, hloop⟩
  · rw [hys, fedLoop_append pow (fun a ha => htok a (hab ▸ List.mem_append_left _ ha))] at hloop
    obtain ⟨⟨p₁, es₁⟩, hrun, hloop⟩ := Option.bind_eq_some_iff.mp hloop
    obtain ⟨⟨p₂, es₂⟩, hlast, heq⟩ := Option.map_eq_some_iff.mp hloop
    obtain ⟨rfl, rfl⟩ := Prod.mk.inj heq
    -- the number that was cut short is fed too
    obtain ⟨⟨p₃, es₃⟩, hbody, heof⟩ := Option.bind_eq_some_iff.mp hlast
    obtain ⟨⟨p₄, es₄⟩, hnil, heq⟩ := Option.map_eq_some_iff.mp heof
    obtain ⟨rfl, rfl⟩ := Prod.mk.inj (Option.some.inj hnil)
    obtain ⟨rfl, rfl⟩ := Prod.mk.inj heq
    obtain ⟨v, -, hparse⟩ := Option.bind_eq_some_iff.mp hbody
    refine ⟨_, .within hab v, ?_⟩
    rw [show feed (as.map fed ++ [(Terminal.num, v)])
        = feed (as.map fed) ++ [(some Terminal.num, v)] from List.map_append,
      Lemon.run_append, hrun, Option.bind_some]
    show ((parse (parser pow) yyStackDepth (some Terminal.num) v p₁).bind _).map _ = _
    rw [hparse, Option.bind_some]
    simp [Lemon.run]

/-- Lines that are delivered whole are printed right. -/
theorem prints_of_whole {pow : Int → Int → Option Int} (hpow : ExactPow pow) {lines : List Line}
    (hdef : ∀ l ∈ lines, Defined l.tree)
    (hdepth : entriesNeeded (parser pow) (feed ((toks lines).map fed)) ≤ 100) {junk : Nat → UInt8} {fd : Fd}
    (hdata : fd.data = input lines) (h : fd.Whole) (hfits : Fits junk fd) : Prints junk pow lines fd := by
  obtain ⟨n, s, hscan, -⟩ := scanFile_of_fits h.sane hfits
  obtain ⟨p, es, hrun, hres, hundef, -⟩ := fed_lines hpow hdef hdepth
  refine ⟨n, ?_⟩
  rw [main_of_scanFile pow hscan, h.taken, hdata, scanned_input, fedLoop_eq_run pow (tokenOf_toks hdef), hrun,
    Option.bind_some, ← hres]
  exact if_neg hundef

/-- **The output of the calculator** is right — one number for every line, in order, the value of the line's
    expression — exactly where the lines are delivered whole, if no distance is lost. -/
theorem main_lines_iff {pow : Int → Int → Option Int} (hpow : ExactPow pow) (lines : List Line)
    (hdef : ∀ l ∈ lines, Defined l.tree)
    (hdepth : entriesNeeded (parser pow) (feed ((toks lines).map fed)) ≤ 100) (junk : Nat → UInt8) {fd : Fd}
    (hdata : fd.data = input lines) (hblocks : ∀ d ∈ fd.blocks, 0 < d.length ∧ d.length ≤ BSIZE) :
    (fd.Sane → Fits junk fd → (Prints junk pow lines fd ↔ fd.Whole)) ∧
    (fd.data.length + BSIZE < 4294967296 → (Prints junk pow lines fd ↔ fd.Whole)) := by
  have hle : ∀ d ∈ fd.blocks, d.length ≤ BSIZE := fun d hd => (hblocks d hd).2
  have hpos : ∀ d ∈ fd.blocks, 0 < d.length := fun d hd => (hblocks d hd).1
  have hsane : fd.Sane → Fits junk fd → (Prints junk pow lines fd ↔ fd.Whole) := by
    intro h hfits
    refine ⟨fun hprints => ⟨hle, ?_, h.short⟩, fun hwhole => prints_of_whole hpow hdef hdepth hdata hwhole hfits⟩
    exact full_of_untaken hpos (untaken_of_prints hpow hdef hdepth hdata h hfits hprints)
  refine ⟨hsane, fun hlen => ?_⟩
  have hfits : fd.Sane → Fits junk fd := fun h => fits_of_sane h (by omega) junk
  constructor
  · intro hprints
    obtain ⟨n, hmain⟩ := id hprints
    obtain ⟨ys, s, hscan⟩ := scanFile_of_main hmain
    have h : fd.Sane := ⟨hle, short_of_scanFile hlen hscan⟩
    exact (hsane h (hfits h)).mp hprints
  · intro hwhole
    exact (hsane hwhole.sane (hfits hwhole.sane)).mpr hwhole

/-- The exact power, where it fits. -/
def exactPow (x y : Int) : Option Int := if 0 ≤ y then toInt (x ^ y.toNat) else none

theorem exactPow_spec : ExactPow exactPow := by
  intro x y _ _ hy hr
  unfold exactPow
  rw [if_pos hy]
  exact if_pos hr

theorem mem_integer_digit {c : Char} (h : isDigit19 (ch c) = true) : [ch c] ∈ integer.lang :=
  mem_integer.mpr ⟨ch c, [], h, by simp, rfl⟩

/-- `2 * (3+4)^2` -/
def nested : Line where
  toks := [.num [ch '2'], .op .times, .left, .num [ch '3'], .op .plus, .num [ch '4'], .right, .op .exp,
    .num [ch '2']]
  tree := .node .times (.leaf [ch '2'])
    (.node .exp (.node .plus (.leaf [ch '3']) (.leaf [ch '4'])) (.leaf [ch '2']))
  text := [ch '2', ch ' ', ch '*', ch ' ', ch '(', ch '3', ch '+', ch '4', ch ')', ch '^', ch '2']
  parses := by
    have hsum := Parses.bracket 4
      (@Parses.leftOp _ _ levels 0 _ _ _ _ .plus (Nat.zero_le _) rfl (@Parses.num _ _ levels 1 [ch '3'])
        (.num 2 [ch '4']))
    have hpow := @Parses.rightOp _ _ levels 3 _ _ _ _ .exp (Nat.le_refl 3) rfl hsum (.num 3 [ch '2'])
    exact @Parses.leftOp _ _ levels 0 _ _ _ _ .times (Nat.zero_le _) rfl (.num 2 [ch '2']) hpow
  literal := by
    intro u hu
    have hu' : u = [ch '2'] ∨ u = [ch '3'] ∨ u = [ch '4'] := by
      simp at hu
      tauto
    rcases hu' with rfl | rfl | rfl <;> exact mem_integer_digit (by decide)
  renders :=
    .token Terminal.num [ch '2'] (.blank rfl (.token (Terminal.op .times) [ch '*'] (.blank rfl
      (.token Terminal.lrb [ch '('] (.token Terminal.num [ch '3'] (.token (Terminal.op .plus) [ch '+']
        (.token Terminal.num [ch '4'] (.token Terminal.rrb [ch ')'] (.token (Terminal.op .exp) [ch '^']
          (.token Terminal.num [ch '2'] .nil))))))))))

/-- `8-3-2` -/
def twoMinus : Line where
  toks := [.num [ch '8'], .op .minus, .num [ch '3'], .op .minus, .num [ch '2']]
  tree := .node .minus (.node .minus (.leaf [ch '8']) (.leaf [ch '3'])) (.leaf [ch '2'])
  text := [ch '8', ch '-', ch '3', ch '-', ch '2']
  parses := by
    have hfirst := @Parses.leftOp _ _ levels 1 _ _ _ _ .minus (Nat.le_refl 1) rfl (@Parses.num _ _ levels 1 [ch '8'])
      (.num 2 [ch '3'])
    exact @Parses.leftOp _ _ levels 0 _ _ _ _ .minus (Nat.zero_le _) rfl hfirst (.num 2 [ch '2'])
  literal := by
    intro u hu
    have hu' : u = [ch '8'] ∨ u = [ch '3'] ∨ u = [ch '2'] := by
      simp at hu
      tauto
    rcases hu' with rfl | rfl | rfl <;> exact mem_integer_digit (by decide)
  renders := .token Terminal.num [ch '8'] (.token (Terminal.op .minus) [ch '-'] (.token Terminal.num [ch '3']
    (.token (Terminal.op .minus) [ch '-'] (.token Terminal.num [ch '2'] .nil))))

/-- Two lines in one block. -/
theorem main_lines_block : Prints (fun _ => 0) exactPow [nested, twoMinus] ⟨[input [nested, twoMinus]], false⟩ := by
  have hiff := @main_lines_iff exactPow exactPow_spec [nested, twoMinus] (by decide +kernel) (by decide +kernel)
    (fun _ => 0) ⟨[input [nested, twoMinus]], false⟩ (List.append_nil _) (by decide +kernel)
  exact (hiff.2 (by decide +kernel)).mpr ⟨by decide +kernel, by decide, by decide⟩

/-- The two lines in a block each: the second line is not read, and one number is printed. -/
theorem main_lines_split :
    (∃ n, main (uint (fun _ => 0)) exactPow n ⟨[input [nested], input [twoMinus]], false⟩ = some [some 98]) ∧
    ¬ Prints (fun _ => 0) exactPow [nested, twoMinus] ⟨[input [nested], input [twoMinus]], false⟩ := by
  have hsane : Fd.Sane ⟨[input [nested], input [twoMinus]], false⟩ := ⟨by decide +kernel, by decide⟩
  have hfits : Fits (fun _ => 0) ⟨[input [nested], input [twoMinus]], false⟩ :=
    fits_of_length hsane (by decide +kernel) (fun _ => 0)
  constructor
  · obtain ⟨n, s, hscan, -⟩ := scanFile_of_fits hsane hfits
    refine ⟨n, ?_⟩
    rw [main_of_scanFile exactPow hscan]
    decide +kernel
  · intro h
    have hdata : Fd.data ⟨[input [nested], input [twoMinus]], false⟩ = input [nested, twoMinus] := by decide +kernel
    have hleft := untaken_of_prints exactPow_spec (by decide +kernel) (by decide +kernel) hdata hsane hfits h
    exact absurd hleft (by decide +kernel)

end Mycalc
end Calc
end CSamples
