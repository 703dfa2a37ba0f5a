import CSamples.LR.Recode
import CSamples.LemonC.Report
import CSamples.LemonC.Tabular

/-!
# `LemonC.Lempar` — the look-ups of the generated parser

The two look-ups of `tools/lempar.c` in the arrays that `ReportTable` prints, and what `Parse` takes the numbers for that
they find. A failed assertion is `none`.

## Contents
- **Model.** `yyFindShiftAction`, `yyFindReduceAction`, `Report.act`, `yyTables`.
- **Look-ups.** `yyFindShiftAction_eq` and `yyFindReduceAction_eq`: the arrays answer as the lists do.
- **Refinement.** `recodes_yyTables`: the parser on the arrays is the parser on the lists under other names.
- `report_refines`: the two accept the same words. That `Parse` is the parser on the arrays is shown in `LemonC.Parse`.
-/

namespace CSamples
namespace LemonC

open Comb LR

/-! ## Look-ups -/

/-- `YY_MAX_SHIFT` -/
def Report.yyMaxShift (r : Report) : Nat := r.nxstate - 1

/-- `YY_MAX_SHIFTREDUCE` -/
def Report.yyMaxShiftReduce (r : Report) : Nat := r.nums.minShiftReduce + r.nrule - 1

/-- `yy_find_shift_action` without fallback tokens. -/
def yyFindShiftAction (r : Report) (iLookAhead stateno : Nat) : Option Nat :=
  if r.yyMaxShift < stateno then some stateno
  else
    match r.yyShiftOfst[stateno]? with
    | none      => none
    | some ofst =>
        if 0 ≤ ofst ∧ ofst ≤ r.yyAction.length ∧ ofst + r.nterminal ≤ r.yyLookahead.length ∧ iLookAhead < r.nterminal then
          let i := ofst.toNat + iLookAhead
          if r.yyLookahead[i]? = some iLookAhead then r.yyAction[i]?
          else
            match r.wildcard with
            | none            => r.yyDefault[stateno]?
            | some yyWildcard =>
                let j := ofst.toNat + yyWildcard
                if r.yyLookahead[j]? = some yyWildcard ∧ 0 < iLookAhead then r.yyAction[j]? else r.yyDefault[stateno]?
        else none

/-- `i>=0 && i<YY_ACTTAB_COUNT && yy_lookahead[i]==iLookAhead` -/
def Report.hits (r : Report) (i : Int) (iLookAhead : Nat) : Bool :=
  0 ≤ i && i < r.yyAction.length && r.yyLookahead[i.toNat]? = some iLookAhead

/-- `yy_find_reduce_action`. With an error symbol there is a default where there are assertions without. -/
def yyFindReduceAction (r : Report) (stateno iLookAhead : Nat) : Option Nat :=
  let deflt := if r.errorSymbol.isSome then r.yyDefault[stateno]? else none
  match r.yyReduceOfst[stateno]? with
  | none      => deflt
  | some ofst => if r.hits (ofst + iLookAhead) iLookAhead then r.yyAction[(ofst + iLookAhead).toNat]? else deflt

/-! ## The machine on the arrays -/

/-- What `Parse` takes the number of an action for. A shift that reduces at once goes to the number of the reduction. -/
def Report.act (r : Report) (yyact : Nat) : Option (Act Nat Nat) :=
  if r.nums.minReduce ≤ yyact then
    if yyact - r.nums.minReduce < r.yyRuleInfoLhs.length then some (.reduce (yyact - r.nums.minReduce)) else none
  else if yyact ≤ r.yyMaxShiftReduce then
    some (.shift (if r.yyMaxShift < yyact then yyact + (r.nums.minReduce - r.nums.minShiftReduce) else yyact))
  else if yyact = r.nums.accAction then some .accept
  else if yyact = r.nums.errAction then some .error
  else none

/-- The state after a reduction, with the assertions of `yy_reduce`. -/
def yyReduceTo (r : Report) (stateno yygoto : Nat) : Option Nat :=
  (yyFindReduceAction r stateno yygoto).filter fun yyact =>
    !(r.yyMaxShift < yyact && yyact ≤ r.yyMaxShiftReduce) && yyact ≠ r.nums.errAction

/-- `yyRuleInfoNRhs[yyruleno]`, a signed char. -/
def Report.yysize (r : Report) (yyruleno : Nat) : Int := (r.yyRuleInfoNRhs.getD yyruleno 0).bmod 256

/-- The stack is popped by the negative of `yysize`. -/
def Report.nrhs (r : Report) (yyruleno : Nat) : Nat := (-r.yysize yyruleno).toNat

/-- The arrays as tables of a machine; `major` gives the tokens their numbers. -/
def yyTables {τ : Type} (major : Option τ → Nat) (r : Report) : Tables τ Nat Nat Nat where
  start  := 0
  lhs    := fun yyruleno => r.yyRuleInfoLhs.getD yyruleno 0
  nrhs   := r.nrhs
  action := fun stateno t => ((yyFindShiftAction r (major t) stateno).bind r.act).getD .error
  goto   := yyReduceTo r

/-! ## Numbers of actions -/

/-- The numbers are in the order that `ReportTable` gives them. -/
structure Report.Regular (r : Report) (nstate : Nat) : Prop where
  minShiftReduce : r.nums.minShiftReduce = nstate
  errAction      : r.nums.errAction = nstate + r.nrule
  accAction      : r.nums.accAction = nstate + r.nrule + 1
  minReduce      : r.nums.minReduce = nstate + r.nrule + 3
  nxstate_pos    : 0 < r.nxstate
  nxstate_le     : r.nxstate ≤ nstate
  lhs            : r.yyRuleInfoLhs.length = r.nrule

section
variable {r : Report} {nstate : Nat}

theorem Report.Regular.act_shift (h : r.Regular nstate) {a : Nat} (ha : a < r.nxstate) : r.act a = some (.shift a) := by
  obtain ⟨hmin, herr, hacc, hred, hpos, hle, -⟩ := h
  unfold Report.act Report.yyMaxShift Report.yyMaxShiftReduce
  rw [if_neg (by omega), if_pos (by omega), if_neg (by omega)]

theorem Report.Regular.act_shiftReduce (h : r.Regular nstate) {i : Nat} (hi : i < r.nrule) :
    r.act (r.nums.minShiftReduce + i) = some (.shift (r.nums.minReduce + i)) := by
  obtain ⟨hmin, herr, hacc, hred, hpos, hle, -⟩ := h
  unfold Report.act Report.yyMaxShift Report.yyMaxShiftReduce
  rw [if_neg (by omega), if_pos (by omega), if_pos (by omega)]
  congr 2
  omega

theorem Report.Regular.act_reduce (h : r.Regular nstate) {i : Nat} (hi : i < r.nrule) :
    r.act (r.nums.minReduce + i) = some (.reduce i) := by
  unfold Report.act
  rw [if_pos (Nat.le_add_right _ _), Nat.add_sub_cancel_left, h.lhs, if_pos hi]

theorem Report.Regular.act_error (h : r.Regular nstate) : r.act r.nums.errAction = some .error := by
  obtain ⟨hmin, herr, hacc, hred, hpos, hle, -⟩ := h
  unfold Report.act Report.yyMaxShift Report.yyMaxShiftReduce
  rw [if_neg (by omega), if_neg (by omega), if_neg (by omega), if_pos rfl]

theorem Report.Regular.act_accept (h : r.Regular nstate) : r.act r.nums.accAction = some .accept := by
  obtain ⟨hmin, herr, hacc, hred, hpos, hle, -⟩ := h
  unfold Report.act Report.yyMaxShift Report.yyMaxShiftReduce
  rw [if_neg (by omega), if_neg (by omega), if_pos rfl]

/-- The assertions of `yy_reduce` let states, reductions and the acceptance pass. -/
theorem Report.Regular.reduceTo (h : r.Regular nstate) {a : Nat}
    (ha : a < r.nxstate ∨ r.nums.minReduce ≤ a ∨ a = r.nums.accAction) :
    (!(r.yyMaxShift < a && a ≤ r.yyMaxShiftReduce) && a ≠ r.nums.errAction : Bool) = true := by
  obtain ⟨hmin, herr, hacc, hred, hpos, hle, -⟩ := h
  unfold Report.yyMaxShift Report.yyMaxShiftReduce
  rw [Bool.and_eq_true, decide_eq_true_eq, Bool.not_eq_true', ← Bool.not_eq_true, Bool.and_eq_true, decide_eq_true_eq,
    decide_eq_true_eq]
  omega

end

/-! ## What is printed of the packed table -/

section
variable {p : Acttab} {nsymbol : Nat}

theorem Acttab.trim_spec (p : Acttab) (n : Nat) :
    p.trim n ≤ n ∧ ∀ k : Nat, k < n → (k < p.trim n ∨ (p.slot k).1 < 0) := by
  induction n with
  | zero => exact ⟨Nat.le_refl 0, fun k hk => absurd hk (Nat.not_lt_zero k)⟩
  | succ n ih =>
      rw [trim]
      split
      · next hneg =>
          refine ⟨Nat.le_succ_of_le ih.1, fun k hk => ?_⟩
          rcases Nat.lt_or_eq_of_le (Nat.le_of_lt_succ hk) with hlt | rfl
          · exact ih.2 k hlt
          · exact .inr hneg
      · exact ⟨Nat.le_refl _, fun k hk => .inl hk⟩

theorem acttabActionSize_le (p : Acttab) : acttabActionSize p ≤ p.nAction := (p.trim_spec p.nAction).1

/-- A slot that is used is printed. -/
theorem lt_acttabActionSize {k : Nat} (hk : k < p.nAction) (hused : 0 ≤ (p.slot k).1) : k < acttabActionSize p := by
  rcases (p.trim_spec p.nAction).2 k hk with h | h
  · exact h
  · omega

theorem yylookahead_eq {k la : Nat} (hla : la < nsymbol) : p.yylookahead nsymbol k = la ↔ (p.slot k).1 = la := by
  unfold Acttab.yylookahead
  split <;> omega

/-- **What is read at an offset.** -/
theorem get_cells_some {o : Int} {la a : Nat} (h : get p.cells o la = some (Int.ofNat a)) :
    ∃ k : Nat, o + la = k ∧ k < acttabActionSize p ∧ p.slot k = ((la : Int), (a : Int)) := by
  obtain ⟨h0, hn, -, hslot⟩ := Acttab.cells_eq_some.mp (get_eq_some.mp h)
  obtain ⟨k, hk⟩ := Int.eq_ofNat_of_zero_le h0
  rw [hk] at hn hslot
  refine ⟨k, hk, lt_acttabActionSize (by omega) ?_, hslot⟩
  rw [hslot]
  exact Int.natCast_nonneg _

theorem get_cells_none {o : Int} {la k : Nat} (h : get p.cells o la = none) (hk : o + la = k) (hn : k < p.nAction) :
    (p.slot k).1 ≠ la := by
  intro hla
  have hcell : p.cells (o + la) = some ((la : Int), (p.slot k).2) := by
    refine Acttab.cells_eq_some.mpr ⟨by omega, by omega, by simp only; omega, ?_⟩
    rw [hk, ← hla]
  exact absurd (h.symm.trans (get_eq_some.mpr hcell)) (by simp)

end

theorem trimOfsts_get (os : List (Option Int)) (i : Nat) :
    (trimOfsts os)[i]? = os[i]? ∨ ((trimOfsts os)[i]? = none ∧ (os[i]? = none ∨ os[i]? = some none)) := by
  induction os generalizing i with
  | nil => exact .inl rfl
  | cons o os ih =>
      rw [trimOfsts]
      split
      · next hos =>
          rw [hos.2] at ih
          cases i with
          | zero => exact .inr ⟨rfl, .inr (by rw [List.getElem?_cons_zero, hos.1])⟩
          | succ i =>
              refine .inr ⟨rfl, ?_⟩
              rw [List.getElem?_cons_succ]
              rcases ih i with hsame | ⟨-, h⟩
              · exact .inl hsame.symm
              · exact h
      · cases i with
        | zero => exact .inl rfl
        | succ i =>
            rw [List.getElem?_cons_succ, List.getElem?_cons_succ]
            exact ih i

section
variable {τ ν : Type} [DecidableEq τ] [DecidableEq ν] {lemp : Lemon τ ν} {symbols : Symbols τ ν}
  {sorted : List (Resorted τ ν)} {p : Acttab} {ofsts : List Int}

theorem yyLookahead_get {k : Nat} (hk : k < p.nAction) :
    (reportOf lemp symbols sorted p ofsts).yyLookahead[k]? =
      some (p.yylookahead (symbols.terminals.length + symbols.nonterminals.length) k) := by
  have hlt : k < ((List.range p.nAction).map
      (p.yylookahead (symbols.terminals.length + symbols.nonterminals.length))).length := by
    rw [List.length_map, List.length_range]
    exact hk
  rw [reportOf]
  simp only
  rw [List.getElem?_append_left hlt, List.getElem?_map, List.getElem?_range hk, Option.map_some]

/-- Behind the table there is room for all terminals, filled with a number that no terminal has. -/
theorem yyLookahead_rest {k : Nat} (hk : p.nAction ≤ k) {la : Nat}
    (hla : (reportOf lemp symbols sorted p ofsts).yyLookahead[k]? = some la) : la = symbols.terminals.length := by
  rw [reportOf] at hla
  simp only at hla
  have hge : ((List.range p.nAction).map
      (p.yylookahead (symbols.terminals.length + symbols.nonterminals.length))).length ≤ k := by
    rw [List.length_map, List.length_range]
    exact hk
  rw [List.getElem?_append_right hge] at hla
  exact (List.eq_of_mem_replicate (List.mem_of_getElem? hla))

theorem length_yyLookahead : (reportOf lemp symbols sorted p ofsts).yyLookahead.length =
    p.nAction + (symbols.terminals.length + acttabActionSize p - p.nAction) := by
  rw [reportOf]
  simp only
  rw [List.length_append, List.length_map, List.length_range, List.length_replicate]

theorem length_yyAction : (reportOf lemp symbols sorted p ofsts).yyAction.length = acttabActionSize p := by
  rw [reportOf]
  simp only
  rw [List.length_map, List.length_range]

theorem yyAction_get {k a : Nat} {la : Int} (hk : k < acttabActionSize p) (hslot : p.slot k = (la, (a : Int))) :
    (reportOf lemp symbols sorted p ofsts).yyAction[k]? = some a := by
  rw [reportOf]
  simp only
  rw [List.getElem?_map, List.getElem?_range hk, Option.map_some, Acttab.yyaction, hslot, if_neg (by simp), Int.toNat_natCast]

/-- An offset that is printed. -/
theorem yyShiftOfst_get {i : Nat} (hi : i < (reportOf lemp symbols sorted p ofsts).yyShiftOfst.length) :
    (reportOf lemp symbols sorted p ofsts).yyShiftOfst[i]? =
      some ((ofstOf (axsets sorted) ofsts true i).getD (acttabActionSize p)) := by
  rw [reportOf] at hi ⊢
  simp only at hi ⊢
  rw [List.length_map] at hi
  rw [List.getElem?_map]
  rcases trimOfsts_get ((List.range (nxstateOf sorted)).map (ofstOf (axsets sorted) ofsts true)) i with hsame | ⟨hnone, -⟩
  · rw [List.getElem?_eq_getElem hi] at hsame ⊢
    have hlt := (List.getElem?_eq_some_iff.mp hsame.symm).1
    rw [List.length_map, List.length_range] at hlt
    rw [List.getElem?_map, List.getElem?_range hlt, Option.map_some] at hsame
    rw [hsame]
    rfl
  · rw [List.getElem?_eq_getElem hi] at hnone
    exact absurd hnone (by simp)

variable (lemp symbols p ofsts) in
/-- An offset for gotos: a state that is left out at the end has no gotos. -/
theorem yyReduceOfst_get {i : Nat} (hi : i < nxstateOf sorted) :
    (reportOf lemp symbols sorted p ofsts).yyReduceOfst[i]? =
        some ((ofstOf (axsets sorted) ofsts false i).getD (mnNtOfst (axsets sorted) ofsts - 1)) ∨
      ((reportOf lemp symbols sorted p ofsts).yyReduceOfst[i]? = none ∧ ofstOf (axsets sorted) ofsts false i = none) := by
  rw [reportOf]
  simp only
  rw [List.getElem?_map]
  have hget : ((List.range (nxstateOf sorted)).map (ofstOf (axsets sorted) ofsts false))[i]? =
      some (ofstOf (axsets sorted) ofsts false i) := by
    rw [List.getElem?_map, List.getElem?_range hi, Option.map_some]
  rcases trimOfsts_get ((List.range (nxstateOf sorted)).map (ofstOf (axsets sorted) ofsts false)) i with hsame | ⟨hnone, hrest⟩
  · rw [hsame, hget]
    exact .inl rfl
  · rw [hnone]
    refine .inr ⟨rfl, ?_⟩
    rw [hget] at hrest
    rcases hrest with h | h
    · exact absurd h (by simp)
    · exact Option.some.inj h

/-! ## The arrays answer as the lists do -/

/-- The number of the action that a list has for a symbol. -/
def numberOf (lemp : Lemon τ ν) (sorted : List (Resorted τ ν)) (ap : List (Action τ ν)) (sym : ActSym τ ν) : Option Nat :=
  (lookupAct ap sym).bind (codeOf lemp (.of sorted.length lemp.rule.length) (statenumOf sorted) sym)

/-- A cell with the column that is looked for. -/
theorem hits_of_get {o : Int} {la a : Nat} (hla : la < symbols.terminals.length + symbols.nonterminals.length)
    (h : get p.cells o la = some (Int.ofNat a)) :
    (reportOf lemp symbols sorted p ofsts).hits (o + la) la = true ∧
      (reportOf lemp symbols sorted p ofsts).yyAction[(o + la).toNat]? = some a := by
  obtain ⟨k, hk, hlt, hslot⟩ := get_cells_some h
  have hn := acttabActionSize_le p
  rw [hk, Int.toNat_natCast]
  refine ⟨?_, yyAction_get hlt hslot⟩
  unfold Report.hits
  rw [length_yyAction, Int.toNat_natCast, yyLookahead_get (by omega), (yylookahead_eq hla).mpr (by rw [hslot])]
  simp only [Bool.and_eq_true, decide_eq_true_eq]
  exact ⟨⟨by omega, by omega⟩, trivial⟩

/-- No such cell. -/
theorem hits_of_get_none {o : Int} {la : Nat} (hla : la < symbols.terminals.length + symbols.nonterminals.length)
    (h : get p.cells o la = none) : (reportOf lemp symbols sorted p ofsts).hits (o + la) la = false := by
  rw [← Bool.not_eq_true]
  intro hhits
  unfold Report.hits at hhits
  rw [length_yyAction] at hhits
  simp only [Bool.and_eq_true, decide_eq_true_eq] at hhits
  obtain ⟨⟨h0, hlt⟩, hread⟩ := hhits
  obtain ⟨k, hk⟩ := Int.eq_ofNat_of_zero_le h0
  have hn := acttabActionSize_le p
  rw [hk, Int.toNat_natCast, yyLookahead_get (by omega)] at hread
  exact get_cells_none h hk (by omega) ((yylookahead_eq hla).mp (Option.some.inj hread))

/-- **Gotos.** -/
theorem yyFindReduceAction_eq (hpacked : Packed lemp symbols (.of sorted.length lemp.rule.length) sorted p ofsts)
    (herrsym : lemp.errsym = none) {i : Nat} {s : Resorted τ ν} (hs : sorted[i]? = some s) (hi : i < nxstateOf sorted) (x : ν) :
    yyFindReduceAction (reportOf lemp symbols sorted p ofsts) i (symbols.index (.nonterminal x)) =
      numberOf lemp sorted s.ap (.nonterminal x) := by
  have hrow : rowGet (rowOf lemp symbols (.of sorted.length lemp.rule.length) (statenumOf sorted) false s.ap)
      (symbols.index (.nonterminal x)) = (numberOf lemp sorted s.ap (.nonterminal x)).map Int.ofNat :=
    rowGet_rowOf rfl s.ap
  have hla := (symbols.index_nonterminal_lt x).2
  have hget : get p.cells ((ofstOf (axsets sorted) ofsts false i).getD (mnNtOfst (axsets sorted) ofsts - 1))
      (symbols.index (.nonterminal x)) = (numberOf lemp sorted s.ap (.nonterminal x)).map Int.ofNat := by
    rw [← hrow]
    rcases hpacked.row i s false hs hi with ⟨hno, hnil⟩ | ⟨o, ho, -, hread, -⟩
    · rw [hno, hnil]
      exact hpacked.free x
    · rw [ho]
      exact hread _
  have hdeflt : (reportOf lemp symbols sorted p ofsts).errorSymbol.isSome = false := by
    rw [reportOf]
    simp only
    rw [herrsym]
    rfl
  unfold yyFindReduceAction
  rw [hdeflt]
  rcases yyReduceOfst_get lemp symbols p ofsts hi with hofst | ⟨hofst, hno⟩
  · rw [hofst]
    simp only
    cases hnum : numberOf lemp sorted s.ap (.nonterminal x) with
    | none =>
        rw [hnum] at hget
        rw [hits_of_get_none hla hget]
        rfl
    | some a =>
        rw [hnum] at hget
        obtain ⟨hhits, haction⟩ := hits_of_get hla hget
        rw [if_pos hhits, haction]
  · -- the state has no gotos
    rw [hofst]
    rcases hpacked.row i s false hs hi with ⟨-, hnil⟩ | ⟨o, ho, -⟩
    · have hnone : numberOf lemp sorted s.ap (.nonterminal x) = none := by
        rw [hnil] at hrow
        exact Option.map_eq_none_iff.mp hrow.symm
      rw [hnone]
      rfl
    · exact absurd (hno.symm.trans ho) (by simp)

/-- What a state does by default. -/
theorem yyDefault_get {i : Nat} {s : Resorted τ ν} (hs : sorted[i]? = some s) (hi : i < nxstateOf sorted) :
    (reportOf lemp symbols sorted p ofsts).yyDefault[i]? = some (match s.iDfltReduce with
      | some d => d + (Numbers.of sorted.length lemp.rule.length).minReduce
      | none   => (Numbers.of sorted.length lemp.rule.length).errAction) := by
  rw [reportOf]
  simp only
  rw [List.getElem?_map, List.getElem?_take, if_pos hi, hs]
  rfl

/-- The row of terminals of a state lies in the table with all its columns; a state without one looks behind the table. -/
theorem shift_offset (hpacked : Packed lemp symbols (.of sorted.length lemp.rule.length) sorted p ofsts) {i : Nat}
    {s : Resorted τ ν} (hs : sorted[i]? = some s) (hi : i < nxstateOf sorted) :
    ∃ o : Nat, (ofstOf (axsets sorted) ofsts true i).getD (acttabActionSize p) = (o : Int) ∧ o ≤ acttabActionSize p ∧
      o + symbols.terminals.length ≤ (reportOf lemp symbols sorted p ofsts).yyLookahead.length ∧
      ∀ t, get p.cells o (symbols.index (.terminal t)) = (numberOf lemp sorted s.ap (.terminal t)).map Int.ofNat := by
  have hn := acttabActionSize_le p
  have hrow : ∀ t, rowGet (rowOf lemp symbols (.of sorted.length lemp.rule.length) (statenumOf sorted) true s.ap)
      (symbols.index (.terminal t)) = (numberOf lemp sorted s.ap (.terminal t)).map Int.ofNat := by
    intro t
    exact rowGet_rowOf rfl s.ap
  rw [length_yyLookahead]
  rcases hpacked.row i s true hs hi with ⟨hno, hnil⟩ | ⟨o, ho, hne, hread, hsafe⟩
  · refine ⟨acttabActionSize p, by rw [hno]; rfl, Nat.le_refl _, by omega, fun t => ?_⟩
    rw [← hrow, hnil]
    cases hget : get p.cells (acttabActionSize p) (symbols.index (.terminal t)) with
    | none => rfl
    | some a =>
        obtain ⟨-, hlt, h0, hslot⟩ := Acttab.cells_eq_some.mp (get_eq_some.mp hget)
        have hused := lt_acttabActionSize (p := p) (k := acttabActionSize p + symbols.index (.terminal t)) (by omega)
          (by push_cast; rw [hslot]; exact h0)
        omega
  · obtain ⟨h0, hlt⟩ := hsafe rfl
    obtain ⟨k, rfl⟩ := Int.eq_ofNat_of_zero_le h0
    rw [hpacked.nterminal] at hlt
    refine ⟨k, by rw [ho]; rfl, ?_, by omega, fun t => (hread _).trans (hrow t)⟩
    -- some column of the row is used
    obtain ⟨e, he⟩ := List.exists_mem_of_ne_nil _ hne
    cases hget : get p.cells k e.1 with
    | none => exact absurd rfl (rowGet_eq_none.mp ((hread e.1).symm.trans hget) e he)
    | some a =>
        obtain ⟨h0', hlt', hpos, hslot⟩ := Acttab.cells_eq_some.mp (get_eq_some.mp hget)
        obtain ⟨k', hk'⟩ := Int.eq_ofNat_of_zero_le h0'
        rw [hk'] at hslot hlt'
        have hused := lt_acttabActionSize (p := p) (k := k') (by omega) (by rw [hslot]; exact hpos)
        simp only at hpos
        omega

/-- **Actions in front of a token.** No assertion fails, and where the list has nothing for the token the default is
    taken. -/
theorem yyFindShiftAction_eq (hpacked : Packed lemp symbols (.of sorted.length lemp.rule.length) sorted p ofsts)
    (hwildcard : lemp.wildcard = none) {i : Nat} {s : Resorted τ ν} (hs : sorted[i]? = some s) (hi : i < nxstateOf sorted)
    (hshift : i < (reportOf lemp symbols sorted p ofsts).yyShiftOfst.length) (t : Option τ) :
    yyFindShiftAction (reportOf lemp symbols sorted p ofsts) (symbols.index (.terminal t)) i =
      (numberOf lemp sorted s.ap (.terminal t)).or ((reportOf lemp symbols sorted p ofsts).yyDefault[i]?) := by
  have hla := symbols.index_terminal_lt t
  have hsym := Nat.lt_add_right symbols.nonterminals.length hla
  have hn := acttabActionSize_le p
  obtain ⟨o, ho, hle, hroom, hget⟩ := shift_offset hpacked hs hi
  have hmax : ¬ (reportOf lemp symbols sorted p ofsts).yyMaxShift < i := by
    have hnx : (reportOf lemp symbols sorted p ofsts).yyMaxShift = nxstateOf sorted - 1 := rfl
    omega
  have hassert : (0 : Int) ≤ (o : Int) ∧ (o : Int) ≤ (reportOf lemp symbols sorted p ofsts).yyAction.length ∧
      (o : Int) + (reportOf lemp symbols sorted p ofsts).nterminal ≤
        (reportOf lemp symbols sorted p ofsts).yyLookahead.length ∧
      symbols.index (.terminal t) < (reportOf lemp symbols sorted p ofsts).nterminal := by
    have hnt : (reportOf lemp symbols sorted p ofsts).nterminal = symbols.terminals.length := rfl
    rw [length_yyAction, hnt]
    exact ⟨by omega, by omega, by omega, hla⟩
  have hwild : (reportOf lemp symbols sorted p ofsts).wildcard = none := by
    rw [reportOf]
    simp only
    rw [hwildcard]
    rfl
  unfold yyFindShiftAction
  rw [if_neg hmax, yyShiftOfst_get hshift, ho]
  simp only
  rw [if_pos hassert, Int.toNat_natCast, hwild]
  cases hnum : numberOf lemp sorted s.ap (.terminal t) with
  | some a =>
      have hgot := hget t
      rw [hnum] at hgot
      obtain ⟨k, hk, hlt, hslot⟩ := get_cells_some hgot
      obtain rfl : o + symbols.index (.terminal t) = k := by omega
      have hread : (reportOf lemp symbols sorted p ofsts).yyLookahead[o + symbols.index (.terminal t)]? =
          some (symbols.index (.terminal t)) := by
        rw [yyLookahead_get (by omega), (yylookahead_eq hsym).mpr (by rw [hslot])]
      rw [if_pos hread, yyAction_get hlt hslot, Option.some_or]
  | none =>
      have hgot := hget t
      rw [hnum] at hgot
      have hread : (reportOf lemp symbols sorted p ofsts).yyLookahead[o + symbols.index (.terminal t)]? ≠
          some (symbols.index (.terminal t)) := by
        intro hread
        by_cases hk : o + symbols.index (.terminal t) < p.nAction
        · rw [yyLookahead_get hk] at hread
          exact get_cells_none hgot (by omega) hk ((yylookahead_eq hsym).mp (Option.some.inj hread))
        · have hfill := yyLookahead_rest (Nat.le_of_not_lt hk) hread
          omega
      rw [if_neg hread, Option.none_or]

end

/-! ## Numbers for what the lists say -/

section
variable {τ ν : Type} [DecidableEq τ] [DecidableEq ν]

/-- The number of a state of the parser. -/
def numOf (lemp : Lemon τ ν) (l : List (Compressed τ ν)) : PState τ ν → Nat
  | .state n    => statenumOf (resortStates lemp l) n
  | .reduced rp => (Numbers.of (resortStates lemp l).length lemp.rule.length).minReduce + rp.iRule
  | .accepted   => (Numbers.of (resortStates lemp l).length lemp.rule.length).accAction

/-- The states that have a number of their own. -/
def Kept (lemp : Lemon τ ν) (l : List (Compressed τ ν)) : PState τ ν → Prop
  | .state n    => n < l.length ∧ statenumOf (resortStates lemp l) n < nxstateOf (resortStates lemp l)
  | .reduced rp => lemp.Numbered rp
  | .accepted   => True

variable {lemp : Lemon τ ν} {symbols : Symbols τ ν} {l : List (Compressed τ ν)} {p : Acttab} {ofsts : List Int}

/-- A state that is shifted to is kept. -/
theorem kept_of_autoReduce {m : Nat} {c : Compressed τ ν} (hc : l[m]? = some c) (hauto : c.autoReduce = none) :
    Kept lemp l (.state m) :=
  ⟨(List.getElem?_eq_some_iff.mp hc).1, lt_nxstateOf (statenumOf_get hc) (.inr hauto)⟩

theorem Tabular.kept_start (htab : Tabular lemp l) : Kept lemp l (.state 0) := by
  have hpos := List.length_pos_iff.mpr htab.ne_nil
  have hc := List.getElem?_eq_getElem hpos
  refine ⟨hpos, lt_nxstateOf (statenumOf_get hc) (.inl ?_)⟩
  exact statenumOf_zero hc

variable (lemp) in
/-- A state of the parser in the table of states. -/
theorem get_resortStates {n : Nat} (hn : n < l.length) :
    ∃ c, l[n]? = some c ∧ (resortStates lemp l)[statenumOf (resortStates lemp l) n]? = some (countActions lemp n c) :=
  ⟨l[n], List.getElem?_eq_getElem hn, statenumOf_get (List.getElem?_eq_getElem hn)⟩

variable (lemp symbols p ofsts) in
theorem regular_reportOf (hne : l ≠ []) :
    (reportOf lemp symbols (resortStates lemp l) p ofsts).Regular (resortStates lemp l).length := by
  have hpos := List.length_pos_iff.mpr hne
  have hlen := length_resortStates lemp l
  refine ⟨rfl, rfl, rfl, rfl, ?_, nxstateOf_le _, List.length_map _⟩
  exact lt_nxstateOf (List.getElem?_eq_getElem (hlen.symm ▸ hpos)) (.inl rfl)

/-- **What the default of a state is.** -/
theorem iDfltReduce_eq (n : Nat) (c : Compressed τ ν) :
    (countActions lemp n c).iDfltReduce = (lookupAct c.ap .dflt).bind (codeOf lemp .zero id .dflt) := by
  unfold countActions lookupAct
  simp only
  have hfilter : c.ap.filter (fun ap => (computeAction lemp .zero id ap).isSome && ap.sp = .dflt) =
      c.ap.filter (fun e => e.sp = .dflt ∧ e.type.hasCode) := by
    refine List.filter_congr fun e _ => ?_
    rw [computeAction_eq, isSome_codeOf, Bool.and_comm, Bool.decide_and, Bool.decide_eq_true]
  rw [hfilter, Option.bind_map]
  refine Option.bind_congr fun e he => ?_
  have htest := (List.mem_filter.mp (List.mem_of_getLast? he)).2
  rw [computeAction_eq, (of_decide_eq_true htest).1]
  rfl

/-! ## The parser on the arrays -/

/-- The number of an action for a token, and what `Parse` does with it. -/
theorem act_numberOf (htab : Tabular lemp l) {c : Compressed τ ν} (hc : c ∈ l) {t : Option τ} {a : Nat}
    (ha : numberOf lemp (resortStates lemp l) c.ap (.terminal t) = some a) :
    (reportOf lemp symbols (resortStates lemp l) p ofsts).act a =
      some ((actionOf c.ap t).map (numOf lemp l) Rule.iRule) := by
  have hreg := regular_reportOf lemp symbols p ofsts htab.ne_nil
  obtain ⟨type, hlook, hcode⟩ := Option.bind_eq_some_iff.mp ha
  obtain ⟨hfits, hhas⟩ := htab.lookup hc hlook
  unfold actionOf
  rw [hlook]
  cases type with
  | shift m =>
      obtain ⟨-, c', hc', hauto⟩ := hfits
      obtain rfl := Option.some.inj hcode
      exact hreg.act_shift (kept_of_autoReduce hc' hauto).2
  | shiftReduce rp =>
      obtain rfl := Option.some.inj hcode
      exact hreg.act_shiftReduce hfits.2.lt
  | reduce rp =>
      obtain rfl := Option.some.inj hcode
      exact hreg.act_reduce hfits.2.lt
  | error _ =>
      obtain rfl := Option.some.inj hcode
      exact hreg.act_error
  | accept =>
      obtain rfl := Option.some.inj hcode
      exact hreg.act_accept
  | _ => exact absurd hhas (by simp [ActType.hasCode])

/-- The same by default. -/
theorem act_yyDefault (htab : Tabular lemp l) {n : Nat} {c : Compressed τ ν} (hc : c ∈ l) {t : Option τ}
    (hnone : lookupAct c.ap (.terminal t) = none) {i : Nat}
    (hs : (resortStates lemp l)[i]? = some (countActions lemp n c)) (hi : i < nxstateOf (resortStates lemp l)) :
    ((reportOf lemp symbols (resortStates lemp l) p ofsts).yyDefault[i]?).bind
      (reportOf lemp symbols (resortStates lemp l) p ofsts).act =
      some ((actionOf c.ap t).map (numOf lemp l) Rule.iRule) := by
  have hreg := regular_reportOf lemp symbols p ofsts htab.ne_nil
  rw [yyDefault_get hs hi, Option.bind_some, iDfltReduce_eq]
  unfold actionOf
  rw [hnone]
  cases hlook : lookupAct c.ap .dflt with
  | none => exact hreg.act_error
  | some type =>
      obtain ⟨hfits, hhas⟩ := htab.lookup hc hlook
      cases type with
      | reduce rp =>
          have hcode : codeOf lemp .zero id .dflt (.reduce rp) = some rp.iRule := by
            rw [codeOf, computeAction, Numbers.zero]
            simp
          rw [Option.bind_some, hcode]
          simp only
          rw [Nat.add_comm]
          exact hreg.act_reduce hfits.2.lt
      | shift => exact absurd rfl hfits.1
      | shiftReduce => exact absurd rfl hfits.1
      | accept => exact absurd rfl hfits
      | error _ =>
          obtain ⟨t', ht'⟩ := hfits
          exact absurd ht' (by simp)
      | _ => exact absurd hhas (by simp [ActType.hasCode])

/-- What the refinement needs of the grammar: no error symbol and no wildcard, and right-hand sides that a signed char
    can count. -/
structure Lemon.Plain (lemp : Lemon τ ν) : Prop where
  errsym   : lemp.errsym = none
  wildcard : lemp.wildcard = none
  nrhs     : ∀ rp ∈ lemp.rule, rp.nrhs ≤ 128

/-- The parser on the arrays goes where the lists say. -/
theorem yyReduceTo_eq (htab : Tabular lemp l) (hplain : lemp.Plain)
    (hpacked : Packed lemp symbols (.of (resortStates lemp l).length lemp.rule.length) (resortStates lemp l) p ofsts) {n : Nat}
    (hkept : Kept lemp l (.state n)) (x : ν) :
    yyReduceTo (reportOf lemp symbols (resortStates lemp l) p ofsts) (numOf lemp l (.state n))
      (symbols.index (.nonterminal x)) = (gotoOf ((l.map Compressed.ap)[n]?.getD []) x).map (numOf lemp l) := by
  have hreg := regular_reportOf lemp symbols p ofsts htab.ne_nil
  obtain ⟨c, hc, hs⟩ := get_resortStates lemp hkept.1
  have hfind := yyFindReduceAction_eq hpacked hplain.errsym hs hkept.2 x
  have hap : (countActions lemp n c).ap = c.ap := rfl
  rw [hap] at hfind
  unfold yyReduceTo
  rw [numOf, hfind, List.getElem?_map, hc, Option.map_some, Option.getD_some, targetOf_lookup, numberOf]
  cases hlook : lookupAct c.ap (.nonterminal x) with
  | none => rfl
  | some type =>
      obtain ⟨hfits, hhas⟩ := htab.lookup (List.mem_of_getElem? hc) hlook
      rw [Option.bind_some, Option.bind_some]
      cases type with
      | shift m =>
          obtain ⟨-, c', hc', hauto⟩ := hfits
          exact Option.filter_some_pos (hreg.reduceTo (.inl (kept_of_autoReduce hc' hauto).2))
      | shiftReduce rp =>
          have hcode : codeOf lemp (.of (resortStates lemp l).length lemp.rule.length) (statenumOf (resortStates lemp l))
              (.nonterminal x) (.shiftReduce rp) = some (numOf lemp l (.reduced rp)) := by
            rw [codeOf, computeAction, Lemon.overNonterminal, hplain.errsym]
            rfl
          rw [hcode]
          exact Option.filter_some_pos (hreg.reduceTo (.inr (.inl (Nat.le_add_right _ _))))
      | accept => exact Option.filter_some_pos (hreg.reduceTo (.inr (.inr rfl)))
      | reduce rp => exact absurd rfl (hfits.1 x)
      | error _ =>
          obtain ⟨t, ht⟩ := hfits
          exact absurd ht (by simp)
      | _ => exact absurd hhas (by simp [ActType.hasCode])

/-- Above the states there are no gotos. -/
theorem yyReduceTo_of_le (hplain : lemp.Plain) {a : Nat} (ha : nxstateOf (resortStates lemp l) ≤ a) (x : Nat) :
    yyReduceTo (reportOf lemp symbols (resortStates lemp l) p ofsts) a x = none := by
  have hofst : (reportOf lemp symbols (resortStates lemp l) p ofsts).yyReduceOfst[a]? = none := by
    rw [reportOf]
    simp only
    rw [List.getElem?_map, Option.map_eq_none_iff]
    have hnone : ((List.range (nxstateOf (resortStates lemp l))).map
        (ofstOf (axsets (resortStates lemp l)) ofsts false))[a]? = none := by
      rw [List.getElem?_eq_none_iff, List.length_map, List.length_range]
      exact ha
    rcases trimOfsts_get ((List.range (nxstateOf (resortStates lemp l))).map
      (ofstOf (axsets (resortStates lemp l)) ofsts false)) a with hsame | ⟨hgone, -⟩
    · exact hsame.trans hnone
    · exact hgone
  have hdeflt : (reportOf lemp symbols (resortStates lemp l) p ofsts).errorSymbol = none := by
    rw [reportOf]
    simp only
    rw [hplain.errsym]
    rfl
  unfold yyReduceTo yyFindReduceAction
  rw [hofst, hdeflt]
  rfl

/-- The reductions of a list that fits are by rules that are found at their numbers. -/
theorem numbered_of_action (htab : Tabular lemp l) {q : PState τ ν} (hkept : Kept lemp l q) {t : Option τ} {rp : Rule τ ν}
    (hact : (tablesOf (l.map Compressed.ap)).action q t = .reduce rp) : lemp.Numbered rp := by
  cases q with
  | state n =>
      obtain ⟨c, hc, -⟩ := get_resortStates lemp hkept.1
      have hmem := List.mem_of_getElem? hc
      have haction : actionOf c.ap t = .reduce rp := by
        rw [← hact]
        change actionOf c.ap t = actionOf ((l.map Compressed.ap)[n]?.getD []) t
        rw [List.getElem?_map, hc]
        rfl
      unfold actionOf at haction
      split at haction
      · exact absurd haction (by simp)
      · exact absurd haction (by simp)
      · next rp' hlook =>
          obtain rfl := Act.reduce.inj haction
          exact (htab.lookup hmem hlook).1.2
      · exact absurd haction (by simp)
      · exact absurd haction (by simp)
      · split at haction
        · next rp' hlook =>
            obtain rfl := Act.reduce.inj haction
            exact (htab.lookup hmem hlook).1.2
        · exact absurd haction (by simp)
  | reduced rp' =>
      obtain rfl : rp' = rp := Act.reduce.inj hact
      exact hkept
  | accepted => exact absurd hact (by simp [tablesOf])

/-- The parser does not leave the states that have numbers. -/
theorem kept_of_enters (htab : Tabular lemp l) {q q' : PState τ ν} {y : Symbol τ ν} (hkept : Kept lemp l q)
    (henter : Enters (tablesOf (l.map Compressed.ap)) q y q') : Kept lemp l q' := by
  obtain ⟨n, sym, type, rfl, -, hlook, htarget, -⟩ := enters_tablesOf henter
  obtain ⟨c, hc, -⟩ := get_resortStates lemp hkept.1
  rw [List.getElem?_map, hc, Option.map_some, Option.getD_some] at hlook
  obtain ⟨hfits, -⟩ := htab.lookup (List.mem_of_getElem? hc) hlook
  cases type with
  | shift m =>
      obtain rfl := Option.some.inj htarget
      obtain ⟨-, c', hc', hauto⟩ := hfits
      exact kept_of_autoReduce hc' hauto
  | shiftReduce rp =>
      obtain rfl := Option.some.inj htarget
      exact hfits.2
  | accept =>
      obtain rfl := Option.some.inj htarget
      exact trivial
  | _ => exact absurd htarget (by simp [targetOf])

/-- In front of a token the parser on the arrays does what the lists say. -/
theorem yyAction_eq (htab : Tabular lemp l) (hplain : lemp.Plain)
    (hpacked : Packed lemp symbols (.of (resortStates lemp l).length lemp.rule.length) (resortStates lemp l) p ofsts)
    (hshift : (reportOf lemp symbols (resortStates lemp l) p ofsts).yyShiftOfst.length = nxstateOf (resortStates lemp l))
    {q : PState τ ν} (hkept : Kept lemp l q) (t : Option τ) :
    (yyFindShiftAction (reportOf lemp symbols (resortStates lemp l) p ofsts) (symbols.index (.terminal t))
        (numOf lemp l q)).bind (reportOf lemp symbols (resortStates lemp l) p ofsts).act =
      some (((tablesOf (l.map Compressed.ap)).action q t).map (numOf lemp l) Rule.iRule) := by
  have hreg := regular_reportOf lemp symbols p ofsts htab.ne_nil
  have hbig : ∀ a, (reportOf lemp symbols (resortStates lemp l) p ofsts).nums.accAction ≤ a →
      yyFindShiftAction (reportOf lemp symbols (resortStates lemp l) p ofsts) (symbols.index (.terminal t)) a = some a := by
    intro a ha
    have hacc := hreg.accAction
    have hle := hreg.nxstate_le
    unfold yyFindShiftAction Report.yyMaxShift
    rw [if_pos (by omega)]
  cases q with
  | state n =>
      obtain ⟨c, hc, hs⟩ := get_resortStates lemp hkept.1
      have hfind := yyFindShiftAction_eq hpacked hplain.wildcard hs hkept.2 (hshift ▸ hkept.2) t
      have hap : (countActions lemp n c).ap = c.ap := rfl
      have hact : (tablesOf (l.map Compressed.ap)).action (.state n) t = actionOf c.ap t := by
        change actionOf ((l.map Compressed.ap)[n]?.getD []) t = _
        rw [List.getElem?_map, hc]
        rfl
      rw [hap] at hfind
      rw [numOf, hfind, hact]
      cases hnum : numberOf lemp (resortStates lemp l) c.ap (.terminal t) with
      | some a => rw [Option.some_or, Option.bind_some, act_numberOf htab (List.mem_of_getElem? hc) hnum]
      | none =>
          have hnone : lookupAct c.ap (.terminal t) = none := by
            cases hlook : lookupAct c.ap (.terminal t) with
            | none => rfl
            | some type =>
                have hhas := hasCode_of_lookupAct hlook
                rw [numberOf, hlook, Option.bind_some] at hnum
                rw [← isSome_codeOf lemp (.of (resortStates lemp l).length lemp.rule.length)
                  (statenumOf (resortStates lemp l)) (.terminal t), hnum] at hhas
                exact absurd hhas (by simp)
          rw [Option.none_or, act_yyDefault htab (List.mem_of_getElem? hc) hnone hs hkept.2]
  | reduced rp =>
      have hnum : numOf lemp l (.reduced rp) =
          (reportOf lemp symbols (resortStates lemp l) p ofsts).nums.minReduce + rp.iRule := rfl
      have hacc := hreg.accAction
      have hred := hreg.minReduce
      rw [hnum, hbig _ (by omega), Option.bind_some]
      exact hreg.act_reduce hkept.lt
  | accepted =>
      have hnum : numOf lemp l .accepted = (reportOf lemp symbols (resortStates lemp l) p ofsts).nums.accAction := rfl
      rw [hnum, hbig _ (Nat.le_refl _), Option.bind_some]
      exact hreg.act_accept

/-- The length of a rule, as a signed char counts it. -/
theorem yysize_eq (hplain : lemp.Plain) {rp : Rule τ ν} (hnum : lemp.Numbered rp) :
    (reportOf lemp symbols (resortStates lemp l) p ofsts).yysize rp.iRule = -(rp.nrhs : Int) := by
  have hle := hplain.nrhs rp (List.mem_of_getElem? hnum)
  change ((lemp.rule.map (fun rp => -(rp.nrhs : Int))).getD rp.iRule 0).bmod 256 = _
  rw [List.getD_eq_getElem?_getD, List.getElem?_map, hnum, Option.map_some, Option.getD_some,
    Int.bmod_eq_of_le (by omega) (by omega)]

/-- **The parser on the arrays is the parser on the lists**, with numbers for states, rules and nonterminals. -/
theorem recodes_yyTables (htab : Tabular lemp l) (hplain : lemp.Plain)
    (hpacked : Packed lemp symbols (.of (resortStates lemp l).length lemp.rule.length) (resortStates lemp l) p ofsts)
    (hshift : (reportOf lemp symbols (resortStates lemp l) p ofsts).yyShiftOfst.length = nxstateOf (resortStates lemp l)) :
    Recodes (tablesOf (l.map Compressed.ap))
      (yyTables (fun t => symbols.index (.terminal t)) (reportOf lemp symbols (resortStates lemp l) p ofsts))
      (numOf lemp l) Rule.iRule (fun n => symbols.index (.nonterminal n)) (Kept lemp l) where
  start := by
    have hpos := List.length_pos_iff.mpr htab.ne_nil
    exact (statenumOf_zero (List.getElem?_eq_getElem hpos)).symm
  first := htab.kept_start
  closed := fun q y q' hkept henter => kept_of_enters htab hkept henter
  action := by
    intro q t hkept
    change ((yyFindShiftAction _ _ _).bind _).getD Act.error = _
    rw [yyAction_eq htab hplain hpacked hshift hkept t, Option.getD_some]
  goto := by
    intro q x hkept
    cases q with
    | state n => exact yyReduceTo_eq htab hplain hpacked hkept x
    | reduced rp =>
        refine yyReduceTo_of_le hplain (Nat.le_trans (nxstateOf_le _) ?_) _
        exact Nat.le_trans (Nat.le_trans (Nat.le_add_right _ _) (Nat.le_add_right _ _)) (Nat.le_add_right _ _)
    | accepted =>
        refine yyReduceTo_of_le hplain (Nat.le_trans (nxstateOf_le _) ?_) _
        exact Nat.le_trans (Nat.le_add_right _ _) (Nat.le_add_right _ _)
  lhs := by
    intro q t rp hkept hact
    have hnum := numbered_of_action htab hkept hact
    change ((lemp.rule.map _).getD rp.iRule 0) = _
    rw [List.getD_eq_getElem?_getD, List.getElem?_map, hnum]
    rfl
  nrhs := by
    intro q t rp hkept hact
    have hnum := numbered_of_action htab hkept hact
    have hsize := @yysize_eq _ _ _ _ _ symbols l p ofsts hplain rp hnum
    change (-(Report.yysize _ _)).toNat = rp.nrhs
    rw [hsize, Int.neg_neg, Int.toNat_natCast]

end

/-! ## The generated parser -/

section
variable {τ ν : Type} [DecidableEq τ] [DecidableEq ν] {lemp : Lemon τ ν} {symbols : Symbols τ ν} {l : List (Compressed τ ν)}
  {r : Report}

/-- The numbers that the tokens have for the parser. -/
def Symbols.major (symbols : Symbols τ ν) (t : Option τ) : Nat := symbols.index (.terminal t)

/-- The arrays are printed, with a place found for every row and an offset for every state. -/
structure Printed (lemp : Lemon τ ν) (symbols : Symbols τ ν) (l : List (Compressed τ ν)) (r : Report) : Prop where
  found : AllFound (rowsOf lemp symbols (.of (resortStates lemp l).length lemp.rule.length) (resortStates lemp l))
    symbols.acttab
  run   : reportTable lemp symbols (resortStates lemp l) = some r
  shift : r.yyShiftOfst.length = r.nxstate

theorem Printed.packed (h : Printed lemp symbols l r) (htab : Tabular lemp l) :
    ∃ p ofsts, r = reportOf lemp symbols (resortStates lemp l) p ofsts ∧
      Packed lemp symbols (.of (resortStates lemp l).length lemp.rule.length) (resortStates lemp l) p ofsts := by
  obtain ⟨p, ofsts, hrun, hpacked⟩ := packed_insertRows htab.one h.found
  have hprint := h.run
  rw [reportTable, hrun] at hprint
  simp only at hprint
  split at hprint
  · exact absurd hprint (by simp)
  · exact ⟨p, ofsts, (Option.some.inj hprint).symm, hpacked⟩

theorem Printed.recodes (h : Printed lemp symbols l r) (htab : Tabular lemp l) (hplain : lemp.Plain) :
    Recodes (tablesOf (l.map Compressed.ap)) (yyTables symbols.major r) (numOf lemp l) Rule.iRule
      (fun n => symbols.index (.nonterminal n)) (Kept lemp l) := by
  have hshift := h.shift
  obtain ⟨p, ofsts, rfl, hpacked⟩ := h.packed htab
  exact recodes_yyTables htab hplain hpacked hshift

/-- The lists of any grammar, as far as they can be printed. -/
theorem tabular_of_generate [Fintype τ] [Fintype ν] (hsizes : lemp.Sizes symbols)
    (hnumbered : ∀ rp ∈ lemp.rule, lemp.Numbered rp) (hrun : generateCompressed lemp symbols = some l)
    (hone : ∀ c ∈ l, OneAction c.ap)
    (herror : ∀ c ∈ l, ∀ e ∈ c.ap, ∀ m, e.type = .error m → ∃ t, e.sp = .terminal t) : Tabular lemp l := by
  obtain ⟨fs, b, sorted, -, -, h, hfollow, heq⟩ := generate_eq hsizes
  obtain ⟨table, hrun', hcompress⟩ := Option.bind_eq_some_iff.mp hrun
  rw [heq] at hrun'
  exact tabular_of_one h (findActions_automaton h hfollow hsizes.2 hrun') hnumbered hcompress hone herror

instance (rp : Rule τ ν) : Decidable (lemp.Numbered rp) := inferInstanceAs (Decidable (_ = _))

theorem nested_plain : nested.Plain := ⟨rfl, rfl, by decide⟩

theorem nested_numbered : ∀ rp ∈ nested.rule, nested.Numbered rp := by
  change ∀ rp ∈ nestedRules, _
  decide

/-- The arrays of `nested`. -/
theorem nested_printed : ∃ l r, generateCompressed nested nestedSymbols = some l ∧ Printed nested nestedSymbols l r ∧
    (∀ c ∈ l, OneAction c.ap) ∧ ∀ c ∈ l, ∀ e ∈ c.ap, ∀ m, e.type = .error m → ∃ t, e.sp = .terminal t := by
  have htest : (generateCompressed nested nestedSymbols).any (fun l =>
      l.all (fun c => ((c.ap.filter (fun e => e.type.hasCode)).map Action.sp).Nodup) &&
      l.all (fun c => c.ap.all (fun e => e.type.num ≠ 3)) &&
      AllFound (rowsOf nested nestedSymbols (.of (resortStates nested l).length nested.rule.length)
        (resortStates nested l)) nestedSymbols.acttab &&
      (reportTable nested nestedSymbols (resortStates nested l)).any (fun r =>
        r.yyShiftOfst.length = r.nxstate)) = true := by
    decide +kernel
  obtain ⟨l, hrun, htest⟩ := (Option.any_eq_true _ _).mp htest
  simp only [Bool.and_eq_true, List.all_eq_true, decide_eq_true_eq] at htest
  obtain ⟨⟨⟨hone, herror⟩, hfound⟩, hreport⟩ := htest
  obtain ⟨r, hreport, hshift⟩ := (Option.any_eq_true _ _).mp hreport
  refine ⟨l, r, hrun, ⟨hfound, hreport, of_decide_eq_true hshift⟩, hone, fun c hc e he m htype => ?_⟩
  have hnum := herror c hc e he
  rw [htype] at hnum
  exact absurd rfl hnum

/-- **The printed arrays are the lists**: driven by them, the parser accepts in front of the same rest, on any input. -/
theorem report_refines (h : Printed lemp symbols l r) (htab : Tabular lemp l) (hplain : lemp.Plain) (w rest : List τ) :
    AcceptsBefore (yyTables symbols.major r) w rest ↔ AcceptsBefore (tablesOf (l.map Compressed.ap)) w rest :=
  recodes_accepts (h.recodes htab hplain) w rest

theorem report_refines_nested : ∃ l r, generateCompressed nested nestedSymbols = some l ∧
    ∀ w rest, AcceptsBefore (yyTables nestedSymbols.major r) w rest ↔
      AcceptsBefore (tablesOf (l.map Compressed.ap)) w rest := by
  obtain ⟨l, r, hrun, hprint, hone, herror⟩ := nested_printed
  have htab := tabular_of_generate nested_sizes nested_numbered hrun hone herror
  exact ⟨l, r, hrun, report_refines hprint htab nested_plain⟩

end

end LemonC
end CSamples
