import CSamples.LR.Calls
import CSamples.LemonC.Lempar

/-!
# `LemonC.Parse` — the generated parser

`Parse` of `tools/lempar.c` over the arrays that are printed: the stack with its depth, overflow, syntax errors with and
without an error symbol. A failed assertion is `none`, as is a read behind an array, and a `yyerrcnt` below the least
`int`. The code of the grammar file is left out; that it is called is an event.

## Contents
- **Model.** `YyParser`, `yyShift`, `yyReduce`, one `turn` of the loop, `parse`.
- `turn_eq`: on stacks that the lists know, a turn does what the machine on the lists does.
- `report_sound`: whatever is called, what is accepted is in the language. `report_correct`: an LALR(1) grammar.
-/

namespace CSamples
namespace LemonC

open LR

/-! ## The parser -/

/-- An entry of the stack: a state, or a reduction that is pending, and a symbol. -/
structure YyStackEntry where
  stateno : Nat
  major   : Nat
  deriving DecidableEq, Repr

/-- The parser. Its first entry, in state 0, is left out; the others are top first. -/
structure YyParser where
  yystack  : List YyStackEntry
  yyerrcnt : Int
  deriving DecidableEq, Repr

/-- `ParseInit` -/
def parseInit : YyParser := ⟨[], -1⟩

/-- What a call does besides changing the parser. `destructor` is for symbols that are thrown away. -/
inductive Event where
  | destructor (yymajor : Nat)
  | syntaxError (yymajor : Nat)
  | stackOverflow
  | parseFailure
  | parseAccept
  deriving DecidableEq, Repr

/-- `yypParser->yytos` -/
def yytos : List YyStackEntry → YyStackEntry
  | []     => ⟨0, 0⟩
  | e :: _ => e

/-- `yy_pop_parser_stack`, until the first entry is left. -/
def popAll (yystack : List YyStackEntry) : List Event := yystack.map (fun e => .destructor e.major)

/-- `yyStackOverflow` -/
def yyStackOverflow (p : YyParser) : YyParser × List Event :=
  ({ p with yystack := [] }, popAll p.yystack ++ [.stackOverflow])

/-- `yyerrcnt--` -/
def YyParser.decrement (p : YyParser) : Option YyParser :=
  if -2 ^ 31 < p.yyerrcnt then some { p with yyerrcnt := p.yyerrcnt - 1 } else none

/-- `yy_shift`. The depth is `YYSTACKDEPTH`; `none` is a stack that grows. -/
def Report.yyShift (r : Report) (depth : Option Nat) (yyNewState yyMajor : Nat) (p : YyParser) :
    YyParser × List Event :=
  if Room depth (p.yystack.length + 1) then
    let stateno :=
      if r.yyMaxShift < yyNewState then yyNewState + (r.nums.minReduce - r.nums.minShiftReduce) else yyNewState
    ({ p with yystack := ⟨stateno, yyMajor⟩ :: p.yystack }, [])
  else yyStackOverflow p

/-- `yy_reduce` -/
def Report.yyReduce (r : Report) (yyruleno : Nat) (p : YyParser) : Option YyParser :=
  match r.yyRuleInfoLhs[yyruleno]? with
  | none        => none
  | some yygoto =>
      let yysize := r.yysize yyruleno
      if 0 < yysize ∨ p.yystack.length < (-yysize).toNat then none
      else
        let yystack := p.yystack.drop (-yysize).toNat
        (yyReduceTo r (yytos yystack).stateno yygoto).map fun yyact => { p with yystack := ⟨yyact, yygoto⟩ :: yystack }

/-! ## Syntax errors -/

/-- Without an error symbol the token is thrown away, and the parse fails at the end of the input. -/
def discard (yymajor : Nat) (p : YyParser) : YyParser × List Event :=
  let es := (if p.yyerrcnt ≤ 0 then [.syntaxError yymajor] else []) ++ [.destructor yymajor]
  if yymajor = 0 then (⟨[], -1⟩, es ++ popAll p.yystack ++ [.parseFailure])
  else ({ p with yyerrcnt := 3 }, es)

/-- Entries are popped until one can shift the error symbol. -/
def Report.unwind (r : Report) (yyerrorsymbol : Nat) :
    List YyStackEntry → Option (Nat × List YyStackEntry × List Event)
  | []           => some (0, [], [])
  | e :: yystack =>
      match yyFindReduceAction r e.stateno yyerrorsymbol with
      | none       => none
      | some yyact =>
          if yyact ≤ r.yyMaxShiftReduce then some (yyact, e :: yystack, [])
          else (r.unwind yyerrorsymbol yystack).map fun x => (x.1, x.2.1, .destructor e.major :: x.2.2)

/-- How a turn of the loop ends. -/
inductive Turn where
  | again (p : YyParser) (yyerrorhit : Bool)
  | done (p : YyParser)
  deriving DecidableEq, Repr

/-- With an error symbol the symbol is shifted in place of what does not fit, and the token is tried again. -/
def Report.recover (r : Report) (depth : Option Nat) (yyerrorsymbol yymajor : Nat) (p : YyParser) (yyerrorhit : Bool) :
    Option (Turn × List Event) :=
  let es := if p.yyerrcnt < 0 then [.syntaxError yymajor] else []
  if (yytos p.yystack).major = yyerrorsymbol ∨ yyerrorhit then
    some (.done { p with yyerrcnt := 3 }, es ++ [.destructor yymajor])
  else
    match r.unwind yyerrorsymbol p.yystack with
    | none                         => none
    | some (yyact, yystack, popped) =>
        if yystack = [] ∨ yymajor = 0 then
          some (.done ⟨[], 3⟩, es ++ popped ++ [.destructor yymajor] ++ popAll yystack ++ [.parseFailure])
        else
          let s := r.yyShift depth yyact yyerrorsymbol { p with yystack := yystack }
          some (.again { s.1 with yyerrcnt := 3 } true, es ++ popped ++ s.2)

/-! ## `Parse` -/

/-- One turn of the loop in `Parse`. -/
def Report.turn (r : Report) (depth : Option Nat) (yymajor : Nat) (p : YyParser) (yyerrorhit : Bool) :
    Option (Turn × List Event) :=
  match yyFindShiftAction r yymajor (yytos p.yystack).stateno with
  | none       => none
  | some yyact =>
      if r.nums.minReduce ≤ yyact then
        let yyruleno := yyact - r.nums.minReduce
        if r.yyRuleInfoLhs.length ≤ yyruleno then none
        else if r.yysize yyruleno = 0 ∧ ¬ Room depth (p.yystack.length + 1) then
          some (.done (yyStackOverflow p).1, (yyStackOverflow p).2)
        else (r.yyReduce yyruleno p).map fun p' => (.again p' yyerrorhit, [])
      else if yyact ≤ r.yyMaxShiftReduce then
        let s := r.yyShift depth yyact yymajor p
        s.1.decrement.map fun p' => (.done p', s.2)
      else if yyact = r.nums.accAction then
        -- one entry is popped, and then the first one must be on top
        if p.yystack.length = 1 then some (.done ⟨[], -1⟩, [.parseAccept]) else none
      else if yyact = r.nums.errAction then
        match r.errorSymbol with
        | none               => some (.done (discard yymajor p).1, (discard yymajor p).2)
        | some yyerrorsymbol => r.recover depth yyerrorsymbol yymajor p yyerrorhit
      else none

/-- The loop in `Parse`, so many turns at most. -/
def Report.parse (r : Report) (depth : Option Nat) (yymajor : Nat) :
    Nat → YyParser → Bool → Option (YyParser × List Event)
  | 0, _, _              => none
  | n + 1, p, yyerrorhit =>
      match r.turn depth yymajor p yyerrorhit with
      | none                           => none
      | some (.done p', es)            => some (p', es)
      | some (.again p' yyerrorhit, es) => (r.parse depth yymajor n p' yyerrorhit).map fun x => (x.1, es ++ x.2)

/-- A call of `Parse` returns. -/
def Report.Returns (r : Report) (depth : Option Nat) (yymajor : Nat) (p p' : YyParser) (es : List Event) : Prop :=
  ∃ n, r.parse depth yymajor n p false = some (p', es)

/-- Call after call. -/
inductive Report.Calls (r : Report) (depth : Option Nat) : List Nat → YyParser → YyParser → List Event → Prop
  | nil {p : YyParser} : r.Calls depth [] p p []
  | cons {yymajor : Nat} {ms : List Nat} {p p₁ p' : YyParser} {es es' : List Event}
      (h : r.Returns depth yymajor p p₁ es) (hrest : r.Calls depth ms p₁ p' es') :
      r.Calls depth (yymajor :: ms) p p' (es ++ es')

/-- Call after call, so many turns at most for each. -/
def Report.parseAll (r : Report) (depth : Option Nat) (n : Nat) : List Nat → YyParser → Option (YyParser × List Event)
  | [], p            => some (p, [])
  | yymajor :: ms, p =>
      (r.parse depth yymajor n p false).bind fun x =>
        (r.parseAll depth n ms x.1).map fun y => (y.1, x.2 ++ y.2)

/-- What is left of the tokens that were shifted, when a call with `t` shows `es`. A call that only shifts shows
    nothing. -/
def kept {τ : Type} (ks : List τ) (t : Option τ) (es : List Event) : List τ :=
  if es = [] then ks ++ t.toList
  else if .stackOverflow ∈ es ∨ .parseFailure ∈ es ∨ .parseAccept ∈ es then []
  else ks

/-- The parsers that calls lead to, each with the tokens that were shifted since its stack was empty. -/
inductive Report.Reached {τ : Type} (r : Report) (depth : Option Nat) (major : Option τ → Nat) :
    List τ → YyParser → Prop
  | init : r.Reached depth major [] parseInit
  | call {ks : List τ} {p p' : YyParser} {es : List Event} (t : Option τ) (h : r.Reached depth major ks p)
      (hreturns : r.Returns depth (major t) p p' es) : r.Reached depth major (kept ks t es) p'

/-- A turn, by what the number of its action stands for. -/
def Report.follow (r : Report) (depth : Option Nat) (yymajor : Nat) (p : YyParser) (yyerrorhit : Bool) :
    Act Nat Nat → Option (Turn × List Event)
  | .reduce yyruleno =>
      if r.yysize yyruleno = 0 ∧ ¬ Room depth (p.yystack.length + 1) then
        some (.done (yyStackOverflow p).1, (yyStackOverflow p).2)
      else (r.yyReduce yyruleno p).map fun p' => (.again p' yyerrorhit, [])
  | .shift stateno   =>
      if Room depth (p.yystack.length + 1) then
        ({ p with yystack := ⟨stateno, yymajor⟩ :: p.yystack } : YyParser).decrement.map fun p' => (.done p', [])
      else (yyStackOverflow p).1.decrement.map fun p' => (.done p', (yyStackOverflow p).2)
  | .accept          => if p.yystack.length = 1 then some (.done parseInit, [.parseAccept]) else none
  | .error           =>
      match r.errorSymbol with
      | none               => some (.done (discard yymajor p).1, (discard yymajor p).2)
      | some yyerrorsymbol => r.recover depth yyerrorsymbol yymajor p yyerrorhit

theorem turn_eq {r : Report} {depth : Option Nat} {yymajor yyact : Nat} {p : YyParser} {a : Act Nat Nat}
    (hfind : yyFindShiftAction r yymajor (yytos p.yystack).stateno = some yyact) (hact : r.act yyact = some a)
    (yyerrorhit : Bool) : r.turn depth yymajor p yyerrorhit = r.follow depth yymajor p yyerrorhit a := by
  unfold Report.act at hact
  unfold Report.turn
  rw [hfind]
  simp only
  split at hact
  · next hred =>
      rw [if_pos hred]
      split at hact
      · next hlt =>
          obtain rfl := Option.some.inj hact
          rw [if_neg (Nat.not_le.mpr hlt), Report.follow]
      · exact absurd hact (by simp)
  · next hred =>
      rw [if_neg hred]
      split at hact
      · next hshift =>
          obtain rfl := Option.some.inj hact
          rw [if_pos hshift, Report.yyShift, Report.follow]
          by_cases hroom : Room depth (p.yystack.length + 1)
          · rw [if_pos hroom, if_pos hroom]
          · rw [if_neg hroom, if_neg hroom]
      · next hshift =>
          rw [if_neg hshift]
          split at hact
          · next hacc =>
              obtain rfl := Option.some.inj hact
              rw [if_pos hacc]
              rfl
          · next hacc =>
              rw [if_neg hacc]
              split at hact
              · next herr =>
                  obtain rfl := Option.some.inj hact
                  rw [if_pos herr, Report.follow]
              · exact absurd hact (by simp)

/-! ## Turns of the loop on stacks that the lists know -/

section
variable {τ ν : Type} [DecidableEq τ] [DecidableEq ν]

/-- The machine on the lists. -/
abbrev machineOf (l : List (Compressed τ ν)) : Tables τ ν (Rule τ ν) (PState τ ν) := tablesOf (l.map Compressed.ap)

/-- The numbers of an entry. -/
def entryOf (lemp : Lemon τ ν) (symbols : Symbols τ ν) (l : List (Compressed τ ν)) (e : PState τ ν × Symbol τ ν) :
    YyStackEntry where
  stateno := numOf lemp l e.1
  major   :=
    match e.2 with
    | .terminal a    => symbols.major (some a)
    | .nonterminal x => symbols.index (.nonterminal x)

/-- What the calls are right under: the lists fit into tables and the tables are printed, for a grammar without what is
    special, and nothing shifts the end of the input. -/
structure Drives (lemp : Lemon τ ν) (symbols : Symbols τ ν) (l : List (Compressed τ ν)) (r : Report) : Prop where
  printed : Printed lemp symbols l r
  tabular : Tabular lemp l
  plain   : lemp.Plain
  endless : ∀ q q', (machineOf l).action q none ≠ .shift q'

variable {lemp : Lemon τ ν} {symbols : Symbols τ ν} {l : List (Compressed τ ν)} {r : Report}
  {st : Stack τ ν (PState τ ν)} {t : Option τ} {depth : Option Nat} {c : Int} {yyerrorhit : Bool}

/-- The parser on a stack of the machine. -/
def parserOn (lemp : Lemon τ ν) (symbols : Symbols τ ν) (l : List (Compressed τ ν)) (st : Stack τ ν (PState τ ν))
    (c : Int) : YyParser := ⟨st.map (entryOf lemp symbols l), c⟩

theorem Drives.recodes (h : Drives lemp symbols l r) :
    Recodes (machineOf l) (yyTables symbols.major r) (numOf lemp l) Rule.iRule
      (fun n => symbols.index (.nonterminal n)) (Kept lemp l) := h.printed.recodes h.tabular h.plain

/-- The state on top. -/
theorem Drives.stateno (h : Drives lemp symbols l r) (st : Stack τ ν (PState τ ν)) :
    (yytos (st.map (entryOf lemp symbols l))).stateno = numOf lemp l (top (machineOf l) st) := by
  cases st with
  | nil => exact h.recodes.start
  | cons e st => rfl

/-- The number that is found is the action of the list. -/
theorem Drives.find (h : Drives lemp symbols l r) (hst : ∀ e ∈ st, Kept lemp l e.1) (t : Option τ) :
    ∃ yyact, yyFindShiftAction r (symbols.major t) (yytos (st.map (entryOf lemp symbols l))).stateno = some yyact ∧
      r.act yyact = some (((machineOf l).action (top (machineOf l) st) t).map
        (numOf lemp l) Rule.iRule) := by
  rw [h.stateno]
  have hkept := top_mem h.recodes hst
  have hshift := h.printed.shift
  obtain ⟨p, ofsts, rfl, hpacked⟩ := h.printed.packed h.tabular
  exact Option.bind_eq_some_iff.mp (yyAction_eq h.tabular h.plain hpacked hshift hkept t)

theorem Drives.errorSymbol (h : Drives lemp symbols l r) : r.errorSymbol = none := by
  obtain ⟨p, ofsts, rfl, -⟩ := h.printed.packed h.tabular
  change lemp.errsym.map _ = none
  rw [h.plain.errsym]
  rfl

theorem Drives.yysize (h : Drives lemp symbols l r) {rp : Rule τ ν} (hnum : lemp.Numbered rp) :
    r.yysize rp.iRule = -(rp.nrhs : Int) := by
  obtain ⟨p, ofsts, rfl, -⟩ := h.printed.packed h.tabular
  exact yysize_eq h.plain hnum

theorem Drives.lhs (h : Drives lemp symbols l r) {rp : Rule τ ν} (hnum : lemp.Numbered rp) :
    r.yyRuleInfoLhs[rp.iRule]? = some (symbols.index (.nonterminal rp.lhs)) := by
  obtain ⟨p, ofsts, rfl, -⟩ := h.printed.packed h.tabular
  change (lemp.rule.map _)[rp.iRule]? = _
  rw [List.getElem?_map, hnum]
  rfl

/-- **`yy_reduce`** is the step of the machine. -/
theorem Drives.yyReduce (h : Drives lemp symbols l r) (hst : ∀ e ∈ st, Kept lemp l e.1) {rp : Rule τ ν}
    (haction : (machineOf l).action (top (machineOf l) st) t = .reduce rp) (c : Int) :
    r.yyReduce rp.iRule (parserOn lemp symbols l st c) =
      match step (machineOf l) st t.toList with
      | .next st' _ => some (parserOn lemp symbols l st' c)
      | _           => none := by
  have hkept := top_mem h.recodes hst
  have hnum := numbered_of_action h.tabular hkept haction
  have hget := h.lhs hnum
  have hsize : (-(-(rp.nrhs : Int))).toNat = rp.nrhs := by
    rw [Int.neg_neg, Int.toNat_natCast]
  have hnrhs : (machineOf l).nrhs rp = rp.nrhs := rfl
  have hrule : (machineOf l).lhs rp = rp.lhs := rfl
  unfold Report.yyReduce LR.step parserOn
  rw [head?_toList, haction, hget, h.yysize hnum]
  simp only [hsize, hnrhs, hrule, List.length_map]
  by_cases hlen : st.length < rp.nrhs
  · rw [if_pos (.inr hlen), if_pos hlen]
  · rw [if_neg (by omega), if_neg hlen]
    have hbelow : ∀ e ∈ st.drop rp.nrhs, Kept lemp l e.1 := fun e he => hst e (List.mem_of_mem_drop he)
    have hgoto := h.recodes.goto _ rp.lhs (top_mem h.recodes hbelow)
    change yyReduceTo r _ _ = _ at hgoto
    rw [← List.map_drop, h.stateno, hgoto]
    cases (machineOf l).goto (top (machineOf l) (st.drop rp.nrhs)) rp.lhs with
    | none => rfl
    | some q => rfl

theorem Drives.turn (h : Drives lemp symbols l r) (hst : ∀ e ∈ st, Kept lemp l e.1) (t : Option τ) (depth : Option Nat)
    (c : Int) (yyerrorhit : Bool) :
    r.turn depth (symbols.major t) (parserOn lemp symbols l st c) yyerrorhit =
      r.follow depth (symbols.major t) (parserOn lemp symbols l st c) yyerrorhit
        (((machineOf l).action (top (machineOf l) st) t).map
          (numOf lemp l) Rule.iRule) := by
  obtain ⟨yyact, hfind, hact⟩ := h.find hst t
  exact turn_eq hfind hact yyerrorhit

theorem Drives.turn_reduce (h : Drives lemp symbols l r) (hst : ∀ e ∈ st, Kept lemp l e.1) {rp : Rule τ ν}
    (haction : (machineOf l).action (top (machineOf l) st) t = .reduce rp) :
    r.turn depth (symbols.major t) (parserOn lemp symbols l st c) yyerrorhit =
      if rp.nrhs = 0 ∧ ¬ Room depth (st.length + 1) then
        some (.done ⟨[], c⟩, popAll (st.map (entryOf lemp symbols l)) ++ [.stackOverflow])
      else
        match step (machineOf l) st t.toList with
        | .next st' _ => some (.again (parserOn lemp symbols l st' c) yyerrorhit, [])
        | _           => none := by
  have hnum := numbered_of_action h.tabular (top_mem h.recodes hst) haction
  have hlen : (parserOn lemp symbols l st c).yystack.length = st.length := List.length_map _
  have hempty : -(rp.nrhs : Int) = 0 ↔ rp.nrhs = 0 := by omega
  rw [h.turn hst, haction]
  simp only [Act.map, Report.follow, h.yysize hnum, hlen, hempty]
  split
  · rfl
  · rw [h.yyReduce hst haction c]
    split <;> rfl

theorem Drives.turn_shift (h : Drives lemp symbols l r) (hst : ∀ e ∈ st, Kept lemp l e.1) {a : τ} {q : PState τ ν}
    (haction : (machineOf l).action (top (machineOf l) st) (some a) = .shift q) :
    r.turn depth (symbols.major (some a)) (parserOn lemp symbols l st c) yyerrorhit =
      if Room depth (st.length + 1) then
        (parserOn lemp symbols l ((q, .terminal a) :: st) c).decrement.map fun p' => (.done p', [])
      else
        (YyParser.mk [] c).decrement.map
          fun p' => (.done p', popAll (st.map (entryOf lemp symbols l)) ++ [.stackOverflow]) := by
  have hlen : (parserOn lemp symbols l st c).yystack.length = st.length := List.length_map _
  rw [h.turn hst, haction]
  simp only [Act.map, Report.follow, hlen]
  rfl

theorem Drives.turn_accept (h : Drives lemp symbols l r) (hst : ∀ e ∈ st, Kept lemp l e.1)
    (haction : (machineOf l).action (top (machineOf l) st) t = .accept) :
    r.turn depth (symbols.major t) (parserOn lemp symbols l st c) yyerrorhit =
      if st.length = 1 then some (.done parseInit, [.parseAccept]) else none := by
  have hlen : (parserOn lemp symbols l st c).yystack.length = st.length := List.length_map _
  rw [h.turn hst, haction]
  simp only [Act.map, Report.follow, hlen]

theorem Drives.turn_error (h : Drives lemp symbols l r) (hst : ∀ e ∈ st, Kept lemp l e.1)
    (haction : (machineOf l).action (top (machineOf l) st) t = .error) :
    r.turn depth (symbols.major t) (parserOn lemp symbols l st c) yyerrorhit =
      some (.done (discard (symbols.major t) (parserOn lemp symbols l st c)).1,
        (discard (symbols.major t) (parserOn lemp symbols l st c)).2) := by
  rw [h.turn hst, haction, Act.map, Report.follow, h.errorSymbol]

/-! ## Calls -/

theorem decrement_eq_some {p p' : YyParser} (hp : p.decrement = some p') : p' = ⟨p.yystack, p.yyerrcnt - 1⟩ := by
  unfold YyParser.decrement at hp
  split at hp
  · exact (Option.some.inj hp).symm
  · exact absurd hp (by simp)

theorem decrement_parserOn (hc : -2 ^ 31 < c) :
    (parserOn lemp symbols l st c).decrement = some (parserOn lemp symbols l st (c - 1)) := if_pos hc

/-- What a call shows that the machine ends with a reply. -/
def Shows (lemp : Lemon τ ν) (symbols : Symbols τ ν) (l : List (Compressed τ ν)) (t : Option τ) (c : Int)
    (p' : YyParser) (es : List Event) : Reply τ ν (PState τ ν) → Prop
  | .shifted st   => (∀ e ∈ st, Kept lemp l e.1) ∧ p' = parserOn lemp symbols l st (c - 1) ∧ es = []
  | .discarded st => (∀ e ∈ st, Kept lemp l e.1) ∧ (p', es) = discard (symbols.major t) (parserOn lemp symbols l st c)
  | .accepted st  => st.length = 1 ∧ p' = parseInit ∧ es = [.parseAccept]
  | .overflow     => ∃ st c', p' = parserOn lemp symbols l [] c' ∧
      es = popAll (List.map (entryOf lemp symbols l) st) ++ [.stackOverflow]

theorem Drives.turn_again (h : Drives lemp symbols l r) (hst : ∀ e ∈ st, Kept lemp l e.1) {p₁ : YyParser} {hit : Bool}
    {es : List Event}
    (hturn : r.turn depth (symbols.major t) (parserOn lemp symbols l st c) yyerrorhit = some (.again p₁ hit, es)) :
    ∃ rp st₁, (machineOf l).action (top (machineOf l) st) t = .reduce rp ∧
      (rp.nrhs = 0 → Room depth (st.length + 1)) ∧
      step (machineOf l) st t.toList = .next st₁ t.toList ∧
      p₁ = parserOn lemp symbols l st₁ c ∧ hit = yyerrorhit ∧ es = [] := by
  cases haction : (machineOf l).action (top (machineOf l) st) t with
  | reduce rp =>
      rw [h.turn_reduce hst haction] at hturn
      split at hturn
      · exact absurd hturn (by simp)
      · next hroom =>
          split at hturn
          · next st₁ w₁ hstep =>
              obtain ⟨hp₁, hes⟩ := Prod.mk.inj (Option.some.inj hturn)
              obtain ⟨hp₁, hhit⟩ := Turn.again.inj hp₁
              have hw := input_reduce (by rwa [head?_toList]) hstep
              refine ⟨rp, st₁, rfl, fun hzero => ?_, hw ▸ hstep, hp₁.symm, hhit.symm, hes.symm⟩
              exact Classical.byContradiction fun hfull => hroom ⟨hzero, hfull⟩
          · exact absurd hturn (by simp)
  | shift q =>
      cases t with
      | none => exact absurd haction (h.endless _ q)
      | some a =>
          rw [h.turn_shift hst haction] at hturn
          split at hturn <;> exact absurd hturn (by simp)
  | accept =>
      rw [h.turn_accept hst haction] at hturn
      split at hturn <;> exact absurd hturn (by simp)
  | error =>
      rw [h.turn_error hst haction] at hturn
      exact absurd hturn (by simp)

theorem Drives.turn_done (h : Drives lemp symbols l r) (hst : ∀ e ∈ st, Kept lemp l e.1) {p' : YyParser}
    {es : List Event}
    (hturn : r.turn depth (symbols.major t) (parserOn lemp symbols l st c) yyerrorhit = some (.done p', es)) :
    ∃ o, Call (machineOf l) depth t st o ∧ Shows lemp symbols l t c p' es o := by
  cases haction : (machineOf l).action (top (machineOf l) st) t with
  | reduce rp =>
      rw [h.turn_reduce hst haction] at hturn
      split at hturn
      · next hfull =>
          obtain ⟨hp', hes⟩ := Prod.mk.inj (Option.some.inj hturn)
          exact ⟨.overflow, .full haction hfull.1 hfull.2, st, c, (Turn.done.inj hp').symm, hes.symm⟩
      · split at hturn <;> exact absurd hturn (by simp)
  | shift q =>
      cases t with
      | none => exact absurd haction (h.endless _ q)
      | some a =>
          rw [h.turn_shift hst haction] at hturn
          split at hturn
          · next hroom =>
              obtain ⟨p₁, hdec, heq⟩ := Option.map_eq_some_iff.mp hturn
              obtain ⟨hp', hes⟩ := Prod.mk.inj heq
              refine ⟨_, .shift rfl haction hroom, ?_, ?_, hes.symm⟩
              · exact mem_step h.recodes hst (step_shift (w := []) haction)
              · exact (Turn.done.inj hp').symm.trans (decrement_eq_some hdec)
          · next hfull =>
              obtain ⟨p₁, hdec, heq⟩ := Option.map_eq_some_iff.mp hturn
              obtain ⟨hp', hes⟩ := Prod.mk.inj heq
              refine ⟨.overflow, .lost haction hfull, st, c - 1, ?_, hes.symm⟩
              exact (Turn.done.inj hp').symm.trans (decrement_eq_some hdec)
  | accept =>
      rw [h.turn_accept hst haction] at hturn
      split at hturn
      · next hlen =>
          obtain ⟨hp', hes⟩ := Prod.mk.inj (Option.some.inj hturn)
          exact ⟨_, .accept haction, hlen, (Turn.done.inj hp').symm, hes.symm⟩
      · exact absurd hturn (by simp)
  | error =>
      rw [h.turn_error hst haction] at hturn
      obtain ⟨hp', hes⟩ := Prod.mk.inj (Option.some.inj hturn)
      exact ⟨_, .error haction, hst, Prod.ext (Turn.done.inj hp').symm hes.symm⟩

/-- **A call of `Parse` is a call of the machine.** -/
theorem Drives.call_of_parse (h : Drives lemp symbols l r) {n : Nat} {p' : YyParser} {es : List Event}
    (hst : ∀ e ∈ st, Kept lemp l e.1)
    (hparse : r.parse depth (symbols.major t) n (parserOn lemp symbols l st c) yyerrorhit = some (p', es)) :
    ∃ o, Call (machineOf l) depth t st o ∧ Shows lemp symbols l t c p' es o := by
  induction n generalizing st es with
  | zero => exact absurd hparse (by simp [Report.parse])
  | succ n ih =>
      rw [Report.parse] at hparse
      split at hparse
      · exact absurd hparse (by simp)
      · next p₁ es₁ hturn =>
          obtain ⟨rfl, rfl⟩ := Prod.mk.inj (Option.some.inj hparse)
          exact h.turn_done hst hturn
      · next p₁ hit es₁ hturn =>
          obtain ⟨rp, st₁, haction, hroom, hstep, rfl, rfl, rfl⟩ := h.turn_again hst hturn
          obtain ⟨⟨p₂, es₂⟩, hrest, heq⟩ := Option.map_eq_some_iff.mp hparse
          obtain ⟨rfl, rfl⟩ := Prod.mk.inj heq
          obtain ⟨o, hcall, hshows⟩ := ih (mem_step h.recodes hst hstep) hrest
          exact ⟨o, .reduce haction hroom hstep hcall, hshows⟩

/-- A reduction in front of a call. -/
theorem Drives.parse_reduce (h : Drives lemp symbols l r) (hst : ∀ e ∈ st, Kept lemp l e.1) {rp : Rule τ ν}
    {st₁ : Stack τ ν (PState τ ν)}
    (haction : (machineOf l).action (top (machineOf l) st) t = .reduce rp)
    (hroom : rp.nrhs = 0 → Room depth (st.length + 1))
    (hstep : step (machineOf l) st t.toList = .next st₁ t.toList) (n : Nat) :
    r.parse depth (symbols.major t) (n + 1) (parserOn lemp symbols l st c) yyerrorhit =
      r.parse depth (symbols.major t) n (parserOn lemp symbols l st₁ c) yyerrorhit := by
  have hgrow : ¬ (rp.nrhs = 0 ∧ ¬ Room depth (st.length + 1)) := fun hfull => hfull.2 (hroom hfull.1)
  rw [Report.parse, h.turn_reduce hst haction, if_neg hgrow, hstep]
  simp only [List.nil_append]
  exact Option.map_id'

/-- A token that the machine shifts, `Parse` shifts. -/
theorem Drives.parse_of_shifted (h : Drives lemp symbols l r) {a : τ} {st' : Stack τ ν (PState τ ν)}
    (hst : ∀ e ∈ st, Kept lemp l e.1) (hc : -2 ^ 31 < c)
    (hcall : Call (machineOf l) depth (some a) st (.shifted st')) :
    (∀ e ∈ st', Kept lemp l e.1) ∧
      ∃ n, r.parse depth (symbols.major (some a)) n (parserOn lemp symbols l st c) yyerrorhit =
        some (parserOn lemp symbols l st' (c - 1), []) := by
  generalize ho : Reply.shifted st' = o at hcall
  induction hcall with
  | @reduce st st₁ rp o haction hroom hstep _ ih =>
      obtain ⟨hst', n, hparse⟩ := ih (mem_step h.recodes hst hstep) ho
      exact ⟨hst', n + 1, (h.parse_reduce hst haction hroom hstep n).trans hparse⟩
  | @shift st a' q ht haction hroom =>
      obtain rfl := Option.some.inj ht
      obtain rfl := Reply.shifted.inj ho
      refine ⟨mem_step h.recodes hst (step_shift (w := []) haction), 1, ?_⟩
      rw [Report.parse, h.turn_shift hst haction, if_pos hroom, decrement_parserOn hc]
      rfl
  | full => exact absurd ho (by simp)
  | lost => exact absurd ho (by simp)
  | accept => exact absurd ho (by simp)
  | error => exact absurd ho (by simp)

/-- What the machine accepts with one symbol on its stack, `Parse` accepts. -/
theorem Drives.parse_of_accepted (h : Drives lemp symbols l r) {st' : Stack τ ν (PState τ ν)}
    (hst : ∀ e ∈ st, Kept lemp l e.1) (hlen : st'.length = 1)
    (hcall : Call (machineOf l) depth t st (.accepted st')) :
    ∃ n, r.parse depth (symbols.major t) n (parserOn lemp symbols l st c) yyerrorhit =
      some (parseInit, [.parseAccept]) := by
  generalize ho : Reply.accepted st' = o at hcall
  induction hcall with
  | @reduce st st₁ rp o haction hroom hstep _ ih =>
      obtain ⟨n, hparse⟩ := ih (mem_step h.recodes hst hstep) ho
      exact ⟨n + 1, (h.parse_reduce hst haction hroom hstep n).trans hparse⟩
  | @accept st haction =>
      obtain rfl := Reply.accepted.inj ho
      exact ⟨1, by rw [Report.parse, h.turn_accept hst haction, if_pos hlen]⟩
  | full => exact absurd ho (by simp)
  | shift => exact absurd ho (by simp)
  | lost => exact absurd ho (by simp)
  | error => exact absurd ho (by simp)

/-! ## Successive calls -/

theorem Symbols.major_eq_zero (symbols : Symbols τ ν) : symbols.major t = 0 ↔ t = none := by
  have hfirst := symbols.end_first
  change symbols.terminals.idxOf t = 0 ↔ _
  cases hterm : symbols.terminals with
  | nil =>
      rw [hterm] at hfirst
      exact absurd hfirst (by simp)
  | cons t' ts =>
      rw [hterm] at hfirst
      obtain rfl := Option.some.inj hfirst
      rw [List.idxOf_cons]
      cases t with
      | none => simp
      | some a => simp

/-- The events that empty the stack. -/
theorem kept_eq_nil {τ : Type} {ks : List τ} {t : Option τ} {es : List Event}
    (he : .stackOverflow ∈ es ∨ .parseFailure ∈ es ∨ .parseAccept ∈ es) :
    kept ks t es = [] := by
  have hne : es ≠ [] := by
    rintro rfl
    exact absurd he (by simp)
  rw [kept, if_neg hne, if_pos he]

theorem mem_popAll {yystack : List YyStackEntry} {e : Event} (he : e ∈ popAll yystack) : ∃ m, e = .destructor m := by
  obtain ⟨x, -, rfl⟩ := List.mem_map.mp he
  exact ⟨x.major, rfl⟩

/-- A token that is thrown away: nothing is accepted, and at the end of the input the stack is emptied. -/
theorem discard_none (symbols : Symbols τ ν) {p p' : YyParser} {es : List Event}
    (hdiscard : (p', es) = discard (symbols.major none) p) :
    p' = parseInit ∧ .parseFailure ∈ es ∧ .parseAccept ∉ es := by
  rw [discard, if_pos (symbols.major_eq_zero.mpr rfl)] at hdiscard
  obtain ⟨rfl, rfl⟩ := Prod.mk.inj hdiscard
  refine ⟨rfl, List.mem_append_right _ List.mem_cons_self, fun hmem => ?_⟩
  rcases List.mem_append.mp hmem with hmem | hmem
  · rcases List.mem_append.mp hmem with hmem | hmem
    · split at hmem <;> simp at hmem
    · obtain ⟨m, hm⟩ := mem_popAll hmem
      exact absurd hm (by simp)
  · exact absurd hmem (by simp)

theorem discard_some (symbols : Symbols τ ν) {p p' : YyParser} {es : List Event} {a : τ}
    (hdiscard : (p', es) = discard (symbols.major (some a)) p) (ks : List τ) :
    p' = ⟨p.yystack, 3⟩ ∧ .destructor (symbols.major (some a)) ∈ es ∧ .parseAccept ∉ es ∧ kept ks t es = ks := by
  have hsome : ¬ symbols.major (some a) = 0 := fun hzero => absurd (symbols.major_eq_zero.mp hzero) (by simp)
  rw [discard, if_neg hsome] at hdiscard
  obtain ⟨rfl, rfl⟩ := Prod.mk.inj hdiscard
  refine ⟨rfl, List.mem_append_right _ List.mem_cons_self, ?_, ?_⟩
  · split <;> simp
  · split <;> simp [kept]

section
variable {items : PState τ ν → Rule τ ν → Nat → Prop} {ks : List τ}

/-- **A call between others**: it accepts the tokens that were shifted before at the end of the input only, and the
    stack goes on to spell the tokens that are shifted. -/
theorem Drives.returns_right (h : Drives lemp symbols l r)
    (hs : LR.Sound lemp.rules (machineOf l) items) {p' : YyParser} {es : List Event}
    (hst : ∀ e ∈ st, Kept lemp l e.1) (hks : Standing lemp.cfg (machineOf l) ks st)
    (hreturns : r.Returns depth (symbols.major t) (parserOn lemp symbols l st c) p' es) :
    (.parseAccept ∈ es → t = none ∧ ks ∈ lemp.cfg.language) ∧
      ∃ st' c', p' = parserOn lemp symbols l st' c' ∧ (∀ e ∈ st', Kept lemp l e.1) ∧
        Standing lemp.cfg (machineOf l) (kept ks t es) st' := by
  obtain ⟨n, hparse⟩ := hreturns
  obtain ⟨o, hcall, hshows⟩ := h.call_of_parse hst hparse
  have hright := call_sound lemp.rules_describes hs hks hcall
  have hnil : ∀ e ∈ ([] : Stack τ ν (PState τ ν)), Kept lemp l e.1 := fun _ he => absurd he List.not_mem_nil
  cases o with
  | shifted st' =>
      obtain ⟨hst', rfl, rfl⟩ := hshows
      obtain ⟨a, rfl, hstand⟩ := hright
      exact ⟨fun hmem => absurd hmem List.not_mem_nil, st', c - 1, rfl, hst', hstand⟩
  | discarded st' =>
      obtain ⟨hst', hdiscard⟩ := hshows
      cases t with
      | none =>
          obtain ⟨rfl, hfail, hno⟩ := discard_none symbols hdiscard
          refine ⟨fun hmem => absurd hmem hno, [], -1, rfl, hnil, ?_⟩
          rw [kept_eq_nil (.inr (.inl hfail))]
          exact standing_nil hs
      | some a =>
          obtain ⟨rfl, -, hno, hkept⟩ := discard_some symbols hdiscard ks
          refine ⟨fun hmem => absurd hmem hno, st', 3, rfl, hst', ?_⟩
          rw [hkept]
          exact hright rfl
  | accepted st' =>
      obtain ⟨-, rfl, rfl⟩ := hshows
      exact ⟨fun _ => ⟨hright.1, hright.2.1⟩, [], -1, rfl, hnil, standing_nil hs⟩
  | overflow =>
      obtain ⟨st', c', rfl, rfl⟩ := hshows
      refine ⟨fun hmem => ?_, [], c', rfl, hnil, ?_⟩
      · rcases List.mem_append.mp hmem with hmem | hmem
        · obtain ⟨m, hm⟩ := mem_popAll hmem
          exact absurd hm (by simp)
        · exact absurd hmem (by simp)
      · rw [kept_eq_nil (.inl (List.mem_append_right _ List.mem_cons_self))]
        exact standing_nil hs

/-- **Between any calls** the stack spells the tokens that were shifted since it was empty. -/
theorem Drives.reached (h : Drives lemp symbols l r)
    (hs : LR.Sound lemp.rules (machineOf l) items) {p : YyParser}
    (hreached : r.Reached depth symbols.major ks p) :
    ∃ st c, p = parserOn lemp symbols l st c ∧ (∀ e ∈ st, Kept lemp l e.1) ∧
      Standing lemp.cfg (machineOf l) ks st := by
  induction hreached with
  | init => exact ⟨[], -1, rfl, fun _ he => absurd he List.not_mem_nil, standing_nil hs⟩
  | call t _ hreturns ih =>
      obtain ⟨st, c, rfl, hst, hstand⟩ := ih
      exact (h.returns_right hs hst hstand hreturns).2

/-- The calls of the machine for a word are calls of `Parse`. -/
theorem Drives.calls_of_readsAll (h : Drives lemp symbols l r)
    (hs : LR.Sound lemp.rules (machineOf l) items) {w : List τ} (hst : ∀ e ∈ st, Kept lemp l e.1)
    (hks : Standing lemp.cfg (machineOf l) ks st) (hc : -2 ^ 31 + w.length ≤ c)
    (hread : ReadsAll (machineOf l) depth w st) :
    r.Calls depth ((w.map some ++ [none]).map symbols.major) (parserOn lemp symbols l st c) parseInit
      [.parseAccept] := by
  induction w generalizing st ks c with
  | nil =>
      obtain ⟨st', hcall⟩ := hread
      obtain ⟨-, -, hlen⟩ := call_sound lemp.rules_describes hs hks hcall
      exact .cons (h.parse_of_accepted hst hlen hcall) .nil
  | cons a w ih =>
      obtain ⟨st', hcall, hrest⟩ := hread
      obtain ⟨a', ha, hstand⟩ := call_sound lemp.rules_describes hs hks hcall
      rw [List.length_cons] at hc
      have hlow : -2 ^ 31 < c := by omega
      obtain ⟨hst', hreturns⟩ := h.parse_of_shifted hst hlow hcall
      exact .cons hreturns (ih (c := c - 1) hst' hstand (by omega) hrest)

/-- A call that shows nothing, or the acceptance. -/
theorem Drives.call_of_quiet (h : Drives lemp symbols l r) {p' : YyParser} {es : List Event}
    (hst : ∀ e ∈ st, Kept lemp l e.1) (hquiet : ∀ e ∈ es, e = .parseAccept)
    (hreturns : r.Returns depth (symbols.major t) (parserOn lemp symbols l st c) p' es) :
    (∃ st', Call (machineOf l) depth t st (.shifted st') ∧ (∀ e ∈ st', Kept lemp l e.1) ∧
      p' = parserOn lemp symbols l st' (c - 1) ∧ es = []) ∨
    (∃ st', Call (machineOf l) depth t st (.accepted st') ∧ es = [.parseAccept]) := by
  obtain ⟨n, hparse⟩ := hreturns
  obtain ⟨o, hcall, hshows⟩ := h.call_of_parse hst hparse
  cases o with
  | shifted st' =>
      obtain ⟨hst', hp', hes⟩ := hshows
      exact .inl ⟨st', hcall, hst', hp', hes⟩
  | discarded st' =>
      obtain ⟨-, hdiscard⟩ := hshows
      cases t with
      | none =>
          obtain ⟨-, hfail, -⟩ := discard_none symbols hdiscard
          exact absurd (hquiet _ hfail) (by simp)
      | some a =>
          obtain ⟨-, hthrown, -⟩ := discard_some symbols (t := none) hdiscard []
          exact absurd (hquiet _ hthrown) (by simp)
  | accepted st' => exact .inr ⟨st', hcall, hshows.2.2⟩
  | overflow =>
      obtain ⟨st', c', -, rfl⟩ := hshows
      exact absurd (hquiet _ (List.mem_append_right _ List.mem_cons_self)) (by simp)

/-- If nothing but the acceptance shows, the machine has read the word. -/
theorem Drives.readsAll_of_calls (h : Drives lemp symbols l r)
    (hs : LR.Sound lemp.rules (machineOf l) items) {w : List τ} {p' : YyParser} {es : List Event}
    (hst : ∀ e ∈ st, Kept lemp l e.1) (hks : Standing lemp.cfg (machineOf l) ks st)
    (hcalls : r.Calls depth ((w.map some ++ [none]).map symbols.major) (parserOn lemp symbols l st c) p' es)
    (hquiet : ∀ e ∈ es, e = .parseAccept) : ReadsAll (machineOf l) depth w st := by
  induction w generalizing st ks c es with
  | nil =>
      cases hcalls with
      | cons hreturns hrest =>
          rcases h.call_of_quiet hst (fun e he => hquiet e (List.mem_append_left _ he)) hreturns with
            ⟨st', hcall, -⟩ | ⟨st', hcall, -⟩
          · obtain ⟨a, ha, -⟩ := call_sound lemp.rules_describes hs hks hcall
            exact absurd ha (by simp)
          · exact ⟨st', hcall⟩
  | cons a w ih =>
      cases hcalls with
      | cons hreturns hrest =>
          rcases h.call_of_quiet hst (fun e he => hquiet e (List.mem_append_left _ he)) hreturns with
            ⟨st', hcall, hst', rfl, -⟩ | ⟨st', hcall, -⟩
          · obtain ⟨a', -, hstand⟩ := call_sound lemp.rules_describes hs hks hcall
            exact ⟨st', hcall, ih hst' hstand hrest (fun e he => hquiet e (List.mem_append_right _ he))⟩
          · obtain ⟨ha, -⟩ := call_sound lemp.rules_describes hs hks hcall
            exact absurd ha (by simp)

/-- **A fresh parser accepts a word** without an error exactly if the machine does, with room for its stacks. -/
theorem Drives.calls_iff (h : Drives lemp symbols l r)
    (hs : LR.Sound lemp.rules (machineOf l) items) (hdepth : Room depth 0) {w : List τ}
    (hw : w.length < 2 ^ 31) :
    r.Calls depth ((w.map some ++ [none]).map symbols.major) parseInit parseInit [.parseAccept] ↔
      Accepts (machineOf l) w ∧ StacksFit (yyTables symbols.major r) depth [] w := by
  have hnil : ∀ e ∈ ([] : Stack τ ν (PState τ ν)), Kept lemp l e.1 := fun _ he => absurd he List.not_mem_nil
  have hinit : parserOn lemp symbols l [] (-1) = parseInit := rfl
  rw [recodes_stacksFit h.recodes, ← readsAll_iff hdepth]
  constructor
  · intro hcalls
    rw [← hinit] at hcalls
    exact h.readsAll_of_calls hs hnil (standing_nil hs) hcalls (fun e he => List.mem_singleton.mp he)
  · intro hread
    exact h.calls_of_readsAll hs hnil (standing_nil hs) (by omega) hread

end

/-! ## The generated parser -/

omit [DecidableEq τ] in
/-- Tokens that are shifted are kept. -/
theorem reached_of_parseAll {major : Option τ → Nat} {n : Nat} {ks w : List τ} {p p' : YyParser}
    (hreached : r.Reached depth major ks p)
    (hrun : r.parseAll depth n ((w.map some).map major) p = some (p', [])) : r.Reached depth major (ks ++ w) p' := by
  induction w generalizing ks p with
  | nil =>
      obtain ⟨rfl, -⟩ := Prod.mk.inj (Option.some.inj hrun)
      rwa [List.append_nil]
  | cons a w ih =>
      obtain ⟨⟨p₁, es₁⟩, hparse, hrun⟩ := Option.bind_eq_some_iff.mp hrun
      obtain ⟨⟨p₂, es₂⟩, hrest, heq⟩ := Option.map_eq_some_iff.mp hrun
      obtain ⟨rfl, hes⟩ := Prod.mk.inj heq
      obtain ⟨rfl, rfl⟩ := List.append_eq_nil_iff.mp hes
      have hnext := ih (.call (some a) hreached ⟨n, hparse⟩) hrest
      rwa [kept, if_pos rfl, List.append_assoc] at hnext

/-- Brackets in brackets, a closing one that does not fit, and the end. -/
theorem nested_reads {l : List (Compressed Bracket Nest)} (hrun : generateCompressed nested nestedSymbols = some l)
    (hreport : reportTable nested nestedSymbols (resortStates nested l) = some r) :
    ∃ p₁ p₂, r.parseAll (some 100) 20 [1, 1, 2, 2] parseInit = some (p₁, []) ∧
      r.parse (some 100) 2 20 p₁ false = some (p₂, [.syntaxError 2, .destructor 2]) ∧
      r.parse (some 100) 0 20 p₂ false = some (parseInit, [.parseAccept]) := by
  have htest : ((generateCompressed nested nestedSymbols).bind fun l =>
      reportTable nested nestedSymbols (resortStates nested l)).any (fun r =>
        (r.parseAll (some 100) 20 [1, 1, 2, 2] parseInit).any (fun x => x.2 = [] &&
          (r.parse (some 100) 2 20 x.1 false).any (fun y => y.2 = [.syntaxError 2, .destructor 2] &&
            r.parse (some 100) 0 20 y.1 false = some (parseInit, [.parseAccept])))) = true := by
    decide +kernel
  rw [hrun, Option.bind_some, hreport, Option.any_some] at htest
  obtain ⟨⟨p₁, es₁⟩, hfirst, htest⟩ := (Option.any_eq_true _ _).mp htest
  simp only [Bool.and_eq_true, decide_eq_true_eq] at htest
  obtain ⟨rfl, htest⟩ := htest
  obtain ⟨⟨p₂, es₂⟩, hthrown, htest⟩ := (Option.any_eq_true _ _).mp htest
  simp only [Bool.and_eq_true, decide_eq_true_eq] at htest
  obtain ⟨rfl, hlast⟩ := htest
  exact ⟨p₁, p₂, hfirst, hthrown, hlast⟩

variable [Fintype τ] [Fintype ν]

/-- **The generated parser of any grammar accepts nothing wrong**, as far as its lists can be printed: in whatever
    calls, with syntax errors and overflows, what is accepted is at the end of the input, and the tokens that were
    shifted since the stack was empty are a word of the language. -/
theorem report_sound (hsizes : lemp.Sizes symbols) (hstart : lemp.StartAlone) (hplain : lemp.Plain)
    (hnumbered : ∀ rp ∈ lemp.rule, lemp.Numbered rp) (hrun : generateCompressed lemp symbols = some l)
    (hone : ∀ c ∈ l, OneAction c.ap)
    (herror : ∀ c ∈ l, ∀ e ∈ c.ap, ∀ m, e.type = .error m → ∃ t, e.sp = .terminal t) (hprint : Printed lemp symbols l r)
    {ks : List τ} {p p' : YyParser} {es : List Event} (hreached : r.Reached depth symbols.major ks p)
    (hreturns : r.Returns depth (symbols.major t) p p' es) (haccept : .parseAccept ∈ es) :
    t = none ∧ ks ∈ lemp.cfg.language := by
  have htab := tabular_of_generate hsizes hnumbered hrun hone herror
  obtain ⟨fs, b, sorted, -, -, haut, hfollow, heq⟩ := generate_eq hsizes
  obtain ⟨table, hrun', hcompress⟩ := Option.bind_eq_some_iff.mp hrun
  rw [heq] at hrun'
  have hj := compressTables_justified haut (findActions_automaton haut hfollow hsizes.2 hrun') hcompress
  have hdrives : Drives lemp symbols l r := ⟨hprint, htab, hplain, hj.endless⟩
  have hs := sound_tablesOf haut hstart hj
  obtain ⟨st, c, rfl, hst, hstand⟩ := hdrives.reached hs hreached
  exact (hdrives.returns_right hs hst hstand hreturns).1 haccept

theorem report_sound_nested : ∃ l r p, generateCompressed nested nestedSymbols = some l ∧
    reportTable nested nestedSymbols (resortStates nested l) = some r ∧
    r.Reached (some 100) nestedSymbols.major [.opening, .opening, .closing, .closing] p ∧
    [Bracket.opening, .opening, .closing, .closing] ∈ nested.cfg.language := by
  obtain ⟨l, r, hrun, hprint, hone, herror⟩ := nested_printed
  obtain ⟨p₁, p₂, hfirst, hthrown, hlast⟩ := nested_reads hrun hprint.run
  have hshifted : r.Reached (some 100) nestedSymbols.major [.opening, .opening, .closing, .closing] p₁ :=
    reached_of_parseAll .init hfirst
  have hreached := Report.Reached.call (some Bracket.closing) hshifted ⟨20, hthrown⟩
  exact ⟨l, r, p₂, hrun, hprint.run, hreached, (report_sound nested_sizes nested_start nested_plain nested_numbered hrun
    hone herror hprint hreached (t := none) ⟨20, hlast⟩ List.mem_cons_self).2⟩

end

end LemonC
end CSamples
