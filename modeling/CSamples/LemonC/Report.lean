import CSamples.LemonC.Acttab
import CSamples.LemonC.Tabular

/-!
# `LemonC.Report` — `ResortStates` and the tables of `ReportTable`

The states are renumbered, those that reduce at once go to the end and get no rows. Every other state has two rows, one
over terminals and one over nonterminals; the rows are packed, the largest first, and the arrays of the generated parser
are printed from that.

## Contents
- **Model.** `computeAction`, `resortStates`, `axsets`, `reportTable`.
- **Renumbering.** `statenumOf_get`: a state is found at its number. `lt_nxstateOf`: only states that reduce at once are
  left out.
- **Reading back.** `Packed`, what the arrays say of the packed rows.
-/

namespace CSamples
namespace LemonC

open Comb

variable {τ ν : Type} [DecidableEq τ] [DecidableEq ν]

/-! ## Action numbers -/

/-- The numbers that actions start at. They are zero when `ResortStates` counts actions. -/
structure Numbers where
  minShiftReduce : Nat
  errAction      : Nat
  accAction      : Nat
  noAction       : Nat
  minReduce      : Nat
  deriving DecidableEq

def Numbers.zero : Numbers := ⟨0, 0, 0, 0, 0⟩

/-- The numbers at the beginning of `ReportTable`. -/
def Numbers.of (nstate nrule : Nat) : Numbers where
  minShiftReduce := nstate
  errAction      := nstate + nrule
  accAction      := nstate + nrule + 1
  noAction       := nstate + nrule + 2
  minReduce      := nstate + nrule + 3

/-- `sp->index>=nterminal && (errsym==0 || sp->index!=errsym->index)` -/
def Lemon.overNonterminal (lemp : Lemon τ ν) : ActSym τ ν → Bool
  | .terminal _    => false
  | .nonterminal n => lemp.errsym ≠ some n
  | .dflt          => true

/-- `compute_action`; `none` where it is negative. -/
def computeAction (lemp : Lemon τ ν) (nums : Numbers) (statenum : Nat → Nat) (ap : Action τ ν) : Option Nat :=
  match ap.type with
  | .shift stp      => some (statenum stp)
  | .shiftReduce rp =>
      if lemp.overNonterminal ap.sp then some (nums.minReduce + rp.iRule) else some (nums.minShiftReduce + rp.iRule)
  | .reduce rp      => some (nums.minReduce + rp.iRule)
  | .error _        => some nums.errAction
  | .accept         => some nums.accAction
  | _               => none

/-! ## `ResortStates` -/

/-- `sp->index<nterminal` -/
def ActSym.isTerminal : ActSym τ ν → Bool
  | .terminal _ => true
  | _           => false

/-- `nterminal<=sp->index && sp->index<nsymbol` -/
def ActSym.isNonterminal : ActSym τ ν → Bool
  | .nonterminal _ => true
  | _              => false

/-- The symbols of a row: terminals or nonterminals. -/
def ActSym.ofKind (isTkn : Bool) (sym : ActSym τ ν) : Bool := if isTkn then sym.isTerminal else sym.isNonterminal

/-- A state with what `ResortStates` finds out about it. `stp` is the state itself, by its number before the sort. -/
structure Resorted (τ ν : Type) where
  stp         : Nat
  ap          : List (Action τ ν)
  autoReduce  : Option (Rule τ ν)
  nTknAct     : Nat
  nNtAct      : Nat
  iDfltReduce : Option Nat

/-- The first loop of `ResortStates`. -/
def countActions (lemp : Lemon τ ν) (stp : Nat) (c : Compressed τ ν) : Resorted τ ν :=
  let act := computeAction lemp .zero id
  { stp         := stp
    ap          := c.ap
    autoReduce  := c.autoReduce
    nTknAct     := c.ap.countP (fun ap => (act ap).isSome && ap.sp.isTerminal)
    nNtAct      := c.ap.countP (fun ap => (act ap).isSome && ap.sp.isNonterminal)
    iDfltReduce := (c.ap.filter (fun ap => (act ap).isSome && ap.sp = .dflt)).getLast?.bind act }

/-- `stateResortCompare` -/
def stateResortCompare (pA pB : Resorted τ ν) : Int :=
  let n : Int := pB.nNtAct - pA.nNtAct
  let n : Int := if n = 0 then pB.nTknAct - pA.nTknAct else n
  if n = 0 then pB.stp - pA.stp else n

/-- `ResortStates`, without `nxstate`. -/
def resortStates (lemp : Lemon τ ν) (sorted : List (Compressed τ ν)) : List (Resorted τ ν) :=
  let l := sorted.mapIdx (countActions lemp)
  l.take 1 ++ (l.drop 1).insertionSort (fun pA pB => stateResortCompare pA pB ≤ 0)

/-- `statenum` -/
def statenumOf (sorted : List (Resorted τ ν)) (stp : Nat) : Nat := sorted.findIdx (fun s => s.stp = stp)

/-- The loop that finds `nxstate`. -/
def nxstateFrom (sorted : List (Resorted τ ν)) : Nat → Nat
  | 0   => 0
  | n+1 => if 0 < n ∧ (sorted[n]?.bind Resorted.autoReduce).isSome then nxstateFrom sorted n else n + 1

/-- `nxstate` -/
def nxstateOf (sorted : List (Resorted τ ν)) : Nat := nxstateFrom sorted sorted.length

/-! ## Rows -/

/-- `struct axset`, with the state by its number. -/
structure Axset where
  stp     : Nat
  isTkn   : Bool
  nAction : Nat
  iOrder  : Nat
  deriving DecidableEq

/-- `axset_compare` -/
def axsetCompare (p1 p2 : Axset) : Int :=
  let c : Int := p2.nAction - p1.nAction
  if c = 0 then p1.iOrder - p2.iOrder else c

/-- The sets of actions that get rows, sorted. -/
def axsets (sorted : List (Resorted τ ν)) : List Axset :=
  let ax := (sorted.take (nxstateOf sorted)).mapIdx (fun i s => [⟨i, true, s.nTknAct, 2 * i⟩, ⟨i, false, s.nNtAct, 2 * i + 1⟩])
  (ax.flatten.insertionSort (fun p1 p2 => axsetCompare p1 p2 ≤ 0)).takeWhile (fun ax => 0 < ax.nAction)

/-- The row of a set of actions. -/
def rowOf (lemp : Lemon τ ν) (symbols : Symbols τ ν) (nums : Numbers) (statenum : Nat → Nat) (isTkn : Bool)
    (ap : List (Action τ ν)) : List LookaheadAction :=
  (ap.filter (fun ap => ap.sp.ofKind isTkn)).filterMap fun ap =>
    (computeAction lemp nums statenum ap).map (fun (action : Nat) => ((symbols.index ap.sp : Int), (action : Int)))

/-- The rows of all sets, each with its `makeItSafe`. -/
def rowsOf (lemp : Lemon τ ν) (symbols : Symbols τ ν) (nums : Numbers) (sorted : List (Resorted τ ν)) :
    List (Bool × List LookaheadAction) :=
  (axsets sorted).map fun x =>
    (x.isTkn, rowOf lemp symbols nums (statenumOf sorted) x.isTkn ((sorted[x.stp]?.map Resorted.ap).getD []))

/-! ## `ReportTable` -/

/-- The numbers and arrays of the generated parser. -/
structure Report where
  nums           : Numbers
  nxstate        : Nat
  nrule          : Nat
  nterminal      : Nat
  nsymbol        : Nat
  wildcard       : Option Nat
  errorSymbol    : Option Nat
  yyAction       : List Nat
  yyLookahead    : List Nat
  yyShiftOfst    : List Int
  yyReduceOfst   : List Int
  yyDefault      : List Nat
  yyRuleInfoLhs  : List Nat
  yyRuleInfoNRhs : List Int
  deriving DecidableEq

/-- `iTknOfst` or `iNtOfst` of the state `i`; `none` is `NO_OFFSET`. -/
def ofstOf (ax : List Axset) (ofsts : List Int) (isTkn : Bool) (i : Nat) : Option Int :=
  ((ax.zip ofsts).find? (fun x => x.1.stp = i && x.1.isTkn = isTkn)).map Prod.snd

/-- The offsets of one kind, without the states at the end that have none. -/
def trimOfsts : List (Option Int) → List (Option Int)
  | []      => []
  | o :: os => if o = none ∧ trimOfsts os = [] then [] else o :: trimOfsts os

/-- The smallest offset of a row of nonterminals, or zero: `mnNtOfst`. -/
def mnNtOfst (ax : List Axset) (ofsts : List Int) : Int :=
  ((ax.zip ofsts).filter (fun x => !x.1.isTkn)).foldl (fun mn x => min mn x.2) 0

/-- `acttab_yyaction`, as it is printed. -/
def Acttab.yyaction (p : Acttab) (nums : Numbers) (i : Nat) : Nat :=
  if (p.slot i).2 < 0 then nums.noAction else (p.slot i).2.toNat

/-- `acttab_yylookahead`, as it is printed. -/
def Acttab.yylookahead (p : Acttab) (nsymbol i : Nat) : Nat :=
  if (p.slot i).1 < 0 then nsymbol else (p.slot i).1.toNat

/-- What `ReportTable` prints, with the actions packed into `p`. -/
def reportOf (lemp : Lemon τ ν) (symbols : Symbols τ ν) (sorted : List (Resorted τ ν)) (p : Acttab) (ofsts : List Int) :
    Report :=
  let nterminal := symbols.terminals.length
  let nsymbol := nterminal + symbols.nonterminals.length
  let nums := Numbers.of sorted.length lemp.rule.length
  let nxstate := nxstateOf sorted
  let nactiontab := acttabActionSize p
  let ofst := ofstOf (axsets sorted) ofsts
  { nums           := nums
    nxstate        := nxstate
    nrule          := lemp.rule.length
    nterminal      := nterminal
    nsymbol        := nsymbol
    wildcard       := lemp.wildcard.map (fun t => symbols.index (.terminal (some t)))
    errorSymbol    := lemp.errsym.map (fun n => symbols.index (.nonterminal n))
    yyAction       := (List.range nactiontab).map (p.yyaction nums)
    yyLookahead    := (List.range p.nAction).map (p.yylookahead nsymbol) ++
      List.replicate (nterminal + nactiontab - p.nAction) nterminal
    yyShiftOfst    := (trimOfsts ((List.range nxstate).map (ofst true))).map (fun o => o.getD nactiontab)
    yyReduceOfst   := (trimOfsts ((List.range nxstate).map (ofst false))).map
      (fun o => o.getD (mnNtOfst (axsets sorted) ofsts - 1))
    yyDefault      := (sorted.take nxstate).map (fun s =>
      match s.iDfltReduce with
      | some d => d + nums.minReduce
      | none   => nums.errAction)
    yyRuleInfoLhs  := lemp.rule.map (fun rp => symbols.index (.nonterminal rp.lhs))
    yyRuleInfoNRhs := lemp.rule.map (fun rp => -(rp.nrhs : Int)) }

/-- The table of actions before a row is in it. -/
def Symbols.acttab (symbols : Symbols τ ν) : Acttab :=
  acttabAlloc (symbols.terminals.length + symbols.nonterminals.length) symbols.terminals.length

/-- `ReportTable`. `none` is an access outside of the table of actions. -/
def reportTable (lemp : Lemon τ ν) (symbols : Symbols τ ν) (sorted : List (Resorted τ ν)) : Option Report :=
  match insertRows (rowsOf lemp symbols (.of sorted.length lemp.rule.length) sorted) symbols.acttab with
  | none            => none
  | some (p, ofsts) => if p.aAction.length < p.nAction then none else some (reportOf lemp symbols sorted p ofsts)

/-! ## Renumbering -/

section
variable (lemp : Lemon τ ν) (sorted : List (Compressed τ ν))

theorem resortStates_perm : (resortStates lemp sorted).Perm (sorted.mapIdx (countActions lemp)) := by
  have hsplit := List.take_append_drop 1 (sorted.mapIdx (countActions lemp))
  calc (resortStates lemp sorted).Perm ((sorted.mapIdx (countActions lemp)).take 1 ++
        (sorted.mapIdx (countActions lemp)).drop 1) := (List.perm_insertionSort _ _).append_left _
    _ = sorted.mapIdx (countActions lemp) := hsplit

theorem length_resortStates : (resortStates lemp sorted).length = sorted.length := by
  rw [(resortStates_perm lemp sorted).length_eq, List.length_mapIdx]

/-- The first state stays the first. -/
theorem resortStates_zero : (resortStates lemp sorted)[0]? = sorted[0]?.map (countActions lemp 0) := by
  cases sorted with
  | nil => simp [resortStates]
  | cons c sorted =>
      rw [resortStates, List.mapIdx_cons]
      rfl

end

section
variable {lemp : Lemon τ ν} {sorted : List (Compressed τ ν)}

theorem mem_resortStates {s : Resorted τ ν} (hs : s ∈ resortStates lemp sorted) :
    ∃ c, sorted[s.stp]? = some c ∧ s = countActions lemp s.stp c := by
  obtain ⟨n, hn, heq⟩ := List.mem_mapIdx.mp ((resortStates_perm lemp sorted).mem_iff.mp hs)
  have hstp : s.stp = n := by
    rw [← heq]
    rfl
  rw [hstp]
  exact ⟨_, List.getElem?_eq_getElem hn, heq.symm⟩

/-- **A state is found at its number.** -/
theorem statenumOf_get {m : Nat} {c : Compressed τ ν} (hc : sorted[m]? = some c) :
    (resortStates lemp sorted)[statenumOf (resortStates lemp sorted) m]? = some (countActions lemp m c) := by
  have hex : ∃ s ∈ resortStates lemp sorted, decide (s.stp = m) = true := by
    obtain ⟨hlt, rfl⟩ := List.getElem?_eq_some_iff.mp hc
    exact ⟨_, (resortStates_perm lemp sorted).mem_iff.mpr (List.mem_mapIdx.mpr ⟨m, hlt, rfl⟩), decide_eq_true rfl⟩
  have hlt : statenumOf (resortStates lemp sorted) m < (resortStates lemp sorted).length :=
    List.findIdx_lt_length_of_exists hex
  have hstp : (resortStates lemp sorted)[statenumOf (resortStates lemp sorted) m].stp = m :=
    of_decide_eq_true (List.findIdx_getElem (w := hlt))
  obtain ⟨c', hc', heq⟩ := mem_resortStates (List.getElem_mem hlt)
  rw [hstp] at hc' heq
  obtain rfl := Option.some.inj (hc.symm.trans hc')
  rw [List.getElem?_eq_getElem hlt, heq]

theorem statenumOf_zero {c : Compressed τ ν} (hc : sorted[0]? = some c) : statenumOf (resortStates lemp sorted) 0 = 0 := by
  have hzero := resortStates_zero lemp sorted
  rw [hc] at hzero
  obtain ⟨s, l, hl⟩ : ∃ s l, resortStates lemp sorted = s :: l := by
    cases hl : resortStates lemp sorted with
    | nil =>
        rw [hl] at hzero
        exact absurd hzero (by simp)
    | cons s l => exact ⟨s, l, rfl⟩
  rw [hl] at hzero ⊢
  have hs : s = countActions lemp 0 c := Option.some.inj hzero
  rw [statenumOf, List.findIdx_cons, hs]
  rfl

end

omit [DecidableEq τ] [DecidableEq ν] in
theorem nxstateFrom_le (sorted : List (Resorted τ ν)) (n : Nat) : nxstateFrom sorted n ≤ n := by
  induction n with
  | zero => exact Nat.le_refl 0
  | succ n ih =>
      rw [nxstateFrom]
      split
      · exact Nat.le_succ_of_le ih
      · exact Nat.le_refl _

omit [DecidableEq τ] [DecidableEq ν] in
theorem nxstateOf_le (sorted : List (Resorted τ ν)) : nxstateOf sorted ≤ sorted.length := nxstateFrom_le _ _

omit [DecidableEq τ] [DecidableEq ν] in
/-- Only states that reduce at once are left out, and not the first one. -/
theorem lt_nxstateFrom {sorted : List (Resorted τ ν)} {n i : Nat} {s : Resorted τ ν} (hs : sorted[i]? = some s)
    (hkeep : i = 0 ∨ s.autoReduce = none) (hi : i < n) : i < nxstateFrom sorted n := by
  induction n with
  | zero => exact absurd hi (Nat.not_lt_zero _)
  | succ n ih =>
      rw [nxstateFrom]
      split
      · next hcut =>
          refine ih (Nat.lt_of_le_of_ne (Nat.le_of_lt_succ hi) ?_)
          rintro rfl
          rcases hkeep with rfl | hauto
          · exact absurd hcut.1 (Nat.lt_irrefl 0)
          · rw [hs, Option.bind_some, hauto] at hcut
            exact absurd hcut.2 (by simp)
      · exact hi

omit [DecidableEq τ] [DecidableEq ν] in
theorem lt_nxstateOf {sorted : List (Resorted τ ν)} {i : Nat} {s : Resorted τ ν} (hs : sorted[i]? = some s)
    (hkeep : i = 0 ∨ s.autoReduce = none) : i < nxstateOf sorted :=
  lt_nxstateFrom hs hkeep (List.getElem?_eq_some_iff.mp hs).1

/-! ## The sets of actions -/

/-- The number of actions in a set. -/
def Resorted.count (s : Resorted τ ν) (isTkn : Bool) : Nat := if isTkn then s.nTknAct else s.nNtAct

theorem mem_takeWhile_of_pairwise {α : Type} {p : α → Bool} {l : List α} (h : l.Pairwise (fun a b => p b = true → p a = true))
    {x : α} (hx : x ∈ l) (hpx : p x = true) : x ∈ l.takeWhile p := by
  induction l with
  | nil => exact absurd hx List.not_mem_nil
  | cons a l ih =>
      obtain ⟨hhead, htail⟩ := List.pairwise_cons.mp h
      rcases List.mem_cons.mp hx with rfl | hx
      · rw [List.takeWhile_cons_of_pos hpx]
        exact List.mem_cons_self
      · rw [List.takeWhile_cons_of_pos (hhead x hx hpx)]
        exact List.mem_cons_of_mem _ (ih htail hx)

theorem axsetCompare_le {p1 p2 : Axset} (h : axsetCompare p1 p2 ≤ 0) : p2.nAction ≤ p1.nAction := by
  unfold axsetCompare at h
  simp only at h
  split at h <;> omega

omit [DecidableEq τ] [DecidableEq ν] in
/-- **Every state that is kept has its sets of actions in the list**, unless there are no actions. -/
theorem mem_axsets {sorted : List (Resorted τ ν)} {x : Axset} :
    x ∈ axsets sorted ↔ ∃ s, sorted[x.stp]? = some s ∧ x.stp < nxstateOf sorted ∧ x.nAction = s.count x.isTkn ∧
      0 < x.nAction ∧ x.iOrder = 2 * x.stp + (if x.isTkn then 0 else 1) := by
  have hmem : x ∈ ((sorted.take (nxstateOf sorted)).mapIdx (fun i s =>
      [(⟨i, true, s.nTknAct, 2 * i⟩ : Axset), ⟨i, false, s.nNtAct, 2 * i + 1⟩])).flatten ↔
      ∃ s, sorted[x.stp]? = some s ∧ x.stp < nxstateOf sorted ∧ x.nAction = s.count x.isTkn ∧
        x.iOrder = 2 * x.stp + (if x.isTkn then 0 else 1) := by
    rw [List.mem_flatten]
    constructor
    · rintro ⟨l, hl, hx⟩
      obtain ⟨i, hi, rfl⟩ := List.mem_mapIdx.mp hl
      have hlt : i < nxstateOf sorted := by
        rw [List.length_take] at hi
        omega
      have hs : sorted[i]? = some (sorted.take (nxstateOf sorted))[i] := by
        rw [← List.getElem?_eq_getElem hi, List.getElem?_take, if_pos hlt]
      rcases List.mem_cons.mp hx with rfl | hx
      · exact ⟨_, hs, hlt, rfl, rfl⟩
      · obtain rfl := List.mem_singleton.mp hx
        exact ⟨_, hs, hlt, rfl, rfl⟩
    · rintro ⟨s, hs, hlt, hn, ho⟩
      have htake : (sorted.take (nxstateOf sorted))[x.stp]? = some s := by
        rw [List.getElem?_take, if_pos hlt, hs]
      obtain ⟨hlt', heq⟩ := List.getElem?_eq_some_iff.mp htake
      refine ⟨_, List.mem_mapIdx.mpr ⟨x.stp, hlt', rfl⟩, ?_⟩
      rw [heq]
      obtain ⟨i, isTkn, n, o⟩ := x
      cases isTkn with
      | true =>
          obtain rfl : n = s.nTknAct := hn
          obtain rfl : o = 2 * i := ho
          exact List.mem_cons_self
      | false =>
          obtain rfl : n = s.nNtAct := hn
          obtain rfl : o = 2 * i + 1 := ho
          exact List.mem_cons_of_mem _ List.mem_cons_self
  unfold axsets
  simp only
  constructor
  · intro hx
    have hpos := of_decide_eq_true (List.all_eq_true.mp List.all_takeWhile x hx)
    have hin := (List.mem_insertionSort _).mp ((List.takeWhile_sublist _).mem hx)
    obtain ⟨s, hs, hlt, hn, ho⟩ := hmem.mp hin
    exact ⟨s, hs, hlt, hn, hpos, ho⟩
  · rintro ⟨s, hs, hlt, hn, hpos, ho⟩
    refine mem_takeWhile_of_pairwise ?_ ((List.mem_insertionSort _).mpr (hmem.mpr ⟨s, hs, hlt, hn, ho⟩)) (decide_eq_true hpos)
    have htotal : Std.Total (fun p1 p2 : Axset => axsetCompare p1 p2 ≤ 0) := by
      refine ⟨fun a b => ?_⟩
      unfold axsetCompare
      simp only
      split_ifs <;> omega
    have htrans : IsTrans Axset (fun p1 p2 => axsetCompare p1 p2 ≤ 0) := by
      refine ⟨fun a b c hab hbc => ?_⟩
      unfold axsetCompare at hab hbc ⊢
      simp only at hab hbc ⊢
      split_ifs at hab hbc ⊢ <;> omega
    refine (List.pairwise_insertionSort _ _).imp fun {a b} hab hb => ?_
    have hle := axsetCompare_le hab
    have hpos := of_decide_eq_true hb
    exact decide_eq_true (Nat.lt_of_lt_of_le hpos hle)

/-! ## Rows and look-ups -/

/-- The number of an action of this type for the symbol. -/
def codeOf (lemp : Lemon τ ν) (nums : Numbers) (statenum : Nat → Nat) (sym : ActSym τ ν) (type : ActType τ ν) : Option Nat :=
  computeAction lemp nums statenum ⟨sym, type, 0⟩

omit [DecidableEq τ] in
theorem computeAction_eq (lemp : Lemon τ ν) (nums : Numbers) (statenum : Nat → Nat) (ap : Action τ ν) :
    computeAction lemp nums statenum ap = codeOf lemp nums statenum ap.sp ap.type := rfl

omit [DecidableEq τ] in
theorem isSome_codeOf (lemp : Lemon τ ν) (nums : Numbers) (statenum : Nat → Nat) (sym : ActSym τ ν) (type : ActType τ ν) :
    (codeOf lemp nums statenum sym type).isSome = type.hasCode := by
  unfold codeOf computeAction
  cases type with
  | shiftReduce rp =>
      simp only
      split <;> rfl
  | _ => rfl

section
variable {lemp : Lemon τ ν} {symbols : Symbols τ ν} {nums : Numbers} {statenum : Nat → Nat}

theorem rowOf_cons (isTkn : Bool) (e : Action τ ν) (ap : List (Action τ ν)) :
    rowOf lemp symbols nums statenum isTkn (e :: ap) =
      (if e.sp.ofKind isTkn = true then
        ((codeOf lemp nums statenum e.sp e.type).map (fun (a : Nat) => ((symbols.index e.sp : Int), (a : Int)))).toList
      else []) ++ rowOf lemp symbols nums statenum isTkn ap := by
  unfold rowOf
  rw [List.filter_cons]
  by_cases hkind : e.sp.ofKind isTkn = true
  · rw [if_pos hkind, if_pos hkind, List.filterMap_cons, computeAction_eq]
    cases codeOf lemp nums statenum e.sp e.type <;> rfl
  · rw [if_neg hkind, if_neg hkind, List.nil_append]

/-- The entries of a row. -/
theorem mem_rowOf {isTkn : Bool} {ap : List (Action τ ν)} {x : LookaheadAction} :
    x ∈ rowOf lemp symbols nums statenum isTkn ap ↔ ∃ e ∈ ap, e.sp.ofKind isTkn = true ∧
      ∃ a : Nat, codeOf lemp nums statenum e.sp e.type = some a ∧ x = ((symbols.index e.sp : Int), (a : Int)) := by
  unfold rowOf
  constructor
  · intro hx
    obtain ⟨e, he, hmap⟩ := List.mem_filterMap.mp hx
    obtain ⟨hin, hkind⟩ := List.mem_filter.mp he
    obtain ⟨a, ha, rfl⟩ := Option.map_eq_some_iff.mp hmap
    exact ⟨e, hin, hkind, a, ha, rfl⟩
  · rintro ⟨e, hin, hkind, a, ha, rfl⟩
    refine List.mem_filterMap.mpr ⟨e, List.mem_filter.mpr ⟨hin, hkind⟩, ?_⟩
    rw [computeAction_eq, ha, Option.map_some]

/-- **A row answers as the list does.** -/
theorem rowGet_rowOf {isTkn : Bool} {sym : ActSym τ ν} (hkind : sym.ofKind isTkn = true) (ap : List (Action τ ν)) :
    rowGet (rowOf lemp symbols nums statenum isTkn ap) (symbols.index sym) =
      ((lookupAct ap sym).bind (codeOf lemp nums statenum sym)).map Int.ofNat := by
  induction ap with
  | nil => rfl
  | cons e ap ih =>
      rw [rowOf_cons, lookupAct_cons]
      by_cases hsp : e.sp = sym
      · subst hsp
        rw [if_pos hkind]
        cases hcode : codeOf lemp nums statenum e.sp e.type with
        | none =>
            have hno : ¬ (e.sp = e.sp ∧ e.type.hasCode = true) := by
              rintro ⟨-, hhas⟩
              rw [← isSome_codeOf lemp nums statenum e.sp, hcode] at hhas
              exact absurd hhas (by simp)
            rw [Option.map_none, Option.toList_none, List.nil_append, ih, if_neg hno, Option.or_none]
        | some a =>
            have hhas : e.type.hasCode = true := by
              rw [← isSome_codeOf lemp nums statenum e.sp, hcode]
              rfl
            rw [Option.map_some, Option.toList_some, List.singleton_append, rowGet, ih, if_pos rfl, if_pos ⟨rfl, hhas⟩]
            cases hlook : lookupAct ap e.sp with
            | none =>
                rw [Option.bind_none, Option.map_none, Option.none_or, Option.none_or, Option.bind_some, hcode]
                rfl
            | some type =>
                have hhas' := hasCode_of_lookupAct hlook
                rw [← isSome_codeOf lemp nums statenum e.sp] at hhas'
                obtain ⟨a', ha'⟩ := Option.isSome_iff_exists.mp hhas'
                rw [Option.some_or, Option.bind_some, ha']
                rfl
      · have hno : ¬ (e.sp = sym ∧ e.type.hasCode = true) := fun h => hsp h.1
        rw [if_neg hno, Option.or_none]
        by_cases hkind' : e.sp.ofKind isTkn = true
        · rw [if_pos hkind']
          cases codeOf lemp nums statenum e.sp e.type with
          | none => rw [Option.map_none, Option.toList_none, List.nil_append, ih]
          | some a =>
              have hne : ¬ ((symbols.index e.sp : Int) = symbols.index sym) :=
                fun h => hsp (symbols.index_inj (Int.ofNat.inj h))
              rw [Option.map_some, Option.toList_some, List.singleton_append, rowGet, if_neg hne, Option.or_none, ih]
        · rw [if_neg hkind', List.nil_append, ih]

/-- A row is as long as the number of actions that were counted. -/
theorem length_rowOf (isTkn : Bool) (ap : List (Action τ ν)) :
    (rowOf lemp symbols nums statenum isTkn ap).length = ap.countP (fun e => e.type.hasCode && e.sp.ofKind isTkn) := by
  induction ap with
  | nil => rfl
  | cons e ap ih =>
      rw [rowOf_cons, List.length_append, ih, List.countP_cons, Nat.add_comm]
      congr 1
      rw [← isSome_codeOf lemp nums statenum e.sp e.type]
      cases codeOf lemp nums statenum e.sp e.type with
      | none => simp
      | some a => cases e.sp.ofKind isTkn <;> rfl

theorem count_countActions (stp : Nat) (c : Compressed τ ν) (isTkn : Bool) :
    (countActions lemp stp c).count isTkn = (rowOf lemp symbols nums statenum isTkn c.ap).length := by
  have hsame : ∀ e : Action τ ν, (computeAction lemp .zero id e).isSome = e.type.hasCode := by
    intro e
    rw [computeAction_eq, isSome_codeOf]
  rw [length_rowOf]
  cases isTkn with
  | true => exact List.countP_congr fun e _ => by rw [hsame]; rfl
  | false => exact List.countP_congr fun e _ => by rw [hsame]; rfl

/-- The keys of a row are symbols of its kind. -/
theorem key_rowOf {isTkn : Bool} {ap : List (Action τ ν)} {x : LookaheadAction}
    (hx : x ∈ rowOf lemp symbols nums statenum isTkn ap) :
    0 ≤ x.1 ∧ (isTkn = true → x.1 < symbols.terminals.length) ∧
      (isTkn = false → symbols.terminals.length ≤ x.1) ∧ x.1 < symbols.terminals.length + symbols.nonterminals.length := by
  obtain ⟨e, -, hkind, a, -, rfl⟩ := mem_rowOf.mp hx
  refine ⟨Int.natCast_nonneg _, ?_⟩
  cases hsp : e.sp with
  | terminal t =>
      have hlt := symbols.index_terminal_lt t
      rw [hsp] at hkind
      cases isTkn with
      | true => exact ⟨fun _ => by simp only; omega, fun h => absurd h (by simp), by simp only; omega⟩
      | false => exact absurd hkind Bool.false_ne_true
  | nonterminal n =>
      obtain ⟨hge, hlt⟩ := symbols.index_nonterminal_lt n
      rw [hsp] at hkind
      cases isTkn with
      | true => exact absurd hkind Bool.false_ne_true
      | false => exact ⟨fun h => absurd h (by simp), fun _ => by simp only; omega, by simp only; omega⟩
  | dflt =>
      rw [hsp] at hkind
      cases isTkn <;> exact absurd hkind Bool.false_ne_true

/-- One action for a symbol: nothing is twice in a row. -/
theorem nodup_rowOf {ap : List (Action τ ν)} (hone : OneAction ap)
    (isTkn : Bool) : (rowOf lemp symbols nums statenum isTkn ap).Nodup := by
  induction ap with
  | nil => exact List.nodup_nil
  | cons e ap ih =>
      rw [rowOf_cons]
      unfold OneAction at hone
      by_cases hcode : e.type.hasCode = true
      · rw [List.filter_cons, if_pos hcode, List.map_cons, List.nodup_cons] at hone
        obtain ⟨hnew, hone⟩ := hone
        obtain ⟨a, ha⟩ := Option.isSome_iff_exists.mp ((isSome_codeOf lemp nums statenum e.sp e.type).trans hcode)
        split
        · rw [ha, Option.map_some, Option.toList_some, List.singleton_append, List.nodup_cons]
          refine ⟨fun hin => hnew ?_, ih hone⟩
          obtain ⟨e', he', -, a', ha', heq⟩ := mem_rowOf.mp hin
          have hsp : e.sp = e'.sp := symbols.index_inj (Int.ofNat.inj (Prod.mk.inj heq).1)
          have hcode' : e'.type.hasCode = true := by
            rw [← isSome_codeOf lemp nums statenum e'.sp, ha']
            rfl
          exact List.mem_map.mpr ⟨e', List.mem_filter.mpr ⟨he', hcode'⟩, hsp.symm⟩
        · rw [List.nil_append]
          exact ih hone
      · rw [List.filter_cons, if_neg hcode] at hone
        have hnone : codeOf lemp nums statenum e.sp e.type = none := by
          rw [← Option.isNone_iff_eq_none, ← Option.not_isSome, isSome_codeOf]
          simp [hcode]
        rw [hnone]
        split <;> exact ih hone

end

/-! ## The packed rows -/

section
variable {lemp : Lemon τ ν} {symbols : Symbols τ ν} {nums : Numbers} {l : List (Compressed τ ν)}

/-- A row as it is packed. -/
theorem rowsOf_ok (hone : ∀ c ∈ l, OneAction c.ap) :
    ∀ r ∈ rowsOf lemp symbols nums (resortStates lemp l),
      RowOk (symbols.terminals.length + symbols.nonterminals.length) r.2 := by
  intro r hr
  obtain ⟨x, hx, rfl⟩ := List.mem_map.mp hr
  obtain ⟨s, hs, -, hn, hpos, -⟩ := mem_axsets.mp hx
  obtain ⟨c, hc, heq⟩ := mem_resortStates (List.mem_of_getElem? hs)
  rw [hs, Option.map_some, Option.getD_some]
  have hap : s.ap = c.ap := by
    rw [heq]
    rfl
  rw [hap]
  refine ⟨?_, nodup_rowOf (hone c (List.mem_of_getElem? hc)) _, fun e he => ?_⟩
  · rw [← List.length_pos_iff, ← count_countActions s.stp, ← heq, ← hn]
    exact hpos
  · obtain ⟨h0, -, -, hlt⟩ := key_rowOf he
    exact ⟨h0, by omega⟩

theorem ofstOf_some {ax : List Axset} {ofsts : List Int} {R : Axset → Int → Prop} (h : List.Forall₂ R ax ofsts)
    {isTkn : Bool} {i : Nat} {o : Int} (ho : ofstOf ax ofsts isTkn i = some o) :
    ∃ x ∈ ax, x.stp = i ∧ x.isTkn = isTkn ∧ R x o := by
  obtain ⟨⟨x, o'⟩, hfind, rfl⟩ := Option.map_eq_some_iff.mp ho
  have htest := List.find?_some hfind
  have hin := List.mem_of_find?_eq_some hfind
  rw [Bool.and_eq_true] at htest
  exact ⟨x, (List.of_mem_zip hin).1, of_decide_eq_true htest.1, of_decide_eq_true htest.2, List.forall₂_zip h hin⟩

theorem mem_zip_of_mem_left {α β : Type} {R : α → β → Prop} {l : List α} {l' : List β} (h : List.Forall₂ R l l') {a : α}
    (ha : a ∈ l) : ∃ b, (a, b) ∈ l.zip l' := by
  induction h with
  | nil => exact absurd ha List.not_mem_nil
  | @cons a' b' l l' _ _ ih =>
      rcases List.mem_cons.mp ha with rfl | ha
      · exact ⟨b', List.mem_cons_self⟩
      · obtain ⟨b, hb⟩ := ih ha
        exact ⟨b, List.mem_cons_of_mem _ hb⟩

theorem mem_zip_of_mem_right {α β : Type} {R : α → β → Prop} {l : List α} {l' : List β} (h : List.Forall₂ R l l') {b : β}
    (hb : b ∈ l') : ∃ a, (a, b) ∈ l.zip l' := by
  induction h with
  | nil => exact absurd hb List.not_mem_nil
  | @cons a' b' l l' _ _ ih =>
      rcases List.mem_cons.mp hb with rfl | hb
      · exact ⟨a', List.mem_cons_self⟩
      · obtain ⟨a, ha⟩ := ih hb
        exact ⟨a, List.mem_cons_of_mem _ ha⟩

theorem ofstOf_of_mem {ax : List Axset} {ofsts : List Int} {R : Axset → Int → Prop} (h : List.Forall₂ R ax ofsts)
    {x : Axset} (hx : x ∈ ax) : ∃ o, ofstOf ax ofsts x.isTkn x.stp = some o := by
  obtain ⟨o, ho⟩ := mem_zip_of_mem_left h hx
  have hsome : ((ax.zip ofsts).find? (fun y => y.1.stp = x.stp && y.1.isTkn = x.isTkn)).isSome = true := by
    rw [List.find?_isSome]
    exact ⟨(x, o), ho, by simp⟩
  obtain ⟨y, hy⟩ := Option.isSome_iff_exists.mp hsome
  exact ⟨y.2, by rw [ofstOf, hy]; rfl⟩

theorem foldl_min_le (xs : List (Axset × Int)) (mn : Int) :
    xs.foldl (fun mn x => min mn x.2) mn ≤ mn ∧ ∀ x ∈ xs, xs.foldl (fun mn x => min mn x.2) mn ≤ x.2 := by
  induction xs generalizing mn with
  | nil => exact ⟨Int.le_refl _, fun x hx => absurd hx List.not_mem_nil⟩
  | cons y xs ih =>
      obtain ⟨hmn, hall⟩ := ih (min mn y.2)
      refine ⟨Int.le_trans hmn (Int.min_le_left _ _), fun x hx => ?_⟩
      rcases List.mem_cons.mp hx with rfl | hx
      · exact Int.le_trans hmn (Int.min_le_right _ _)
      · exact hall x hx

theorem mnNtOfst_le {ax : List Axset} {ofsts : List Int} {x : Axset} {o : Int} (hin : (x, o) ∈ ax.zip ofsts)
    (hx : x.isTkn = false) : mnNtOfst ax ofsts ≤ o :=
  (foldl_min_le _ 0).2 (x, o) (List.mem_filter.mpr ⟨hin, by simp [hx]⟩)

/-- What the packed table and the offsets say of the states that are kept. -/
structure Packed (lemp : Lemon τ ν) (symbols : Symbols τ ν) (nums : Numbers) (sorted : List (Resorted τ ν)) (p : Acttab)
    (ofsts : List Int) : Prop where
  nterminal : p.nterminal = symbols.terminals.length
  row       : ∀ (i : Nat) (s : Resorted τ ν) (isTkn : Bool), sorted[i]? = some s → i < nxstateOf sorted →
    (ofstOf (axsets sorted) ofsts isTkn i = none ∧ rowOf lemp symbols nums (statenumOf sorted) isTkn s.ap = []) ∨
    ∃ o, ofstOf (axsets sorted) ofsts isTkn i = some o ∧ rowOf lemp symbols nums (statenumOf sorted) isTkn s.ap ≠ [] ∧
      Placed p (isTkn, rowOf lemp symbols nums (statenumOf sorted) isTkn s.ap) o
  free      : ∀ n, get p.cells (mnNtOfst (axsets sorted) ofsts - 1) (symbols.index (.nonterminal n)) = none

/-- **The rows are packed**, and where the states without gotos look there are none. -/
theorem packed_insertRows (hone : ∀ c ∈ l, OneAction c.ap)
    (hfound : AllFound (rowsOf lemp symbols nums (resortStates lemp l)) symbols.acttab) :
    ∃ p ofsts, insertRows (rowsOf lemp symbols nums (resortStates lemp l)) symbols.acttab = some (p, ofsts) ∧
      Packed lemp symbols nums (resortStates lemp l) p ofsts := by
  obtain ⟨p, ofsts, hrun, hplaced, hnt, hfree⟩ := insertRows_alloc (rowsOf_ok hone) hfound
  have hall := List.forall₂_map_left_iff.mp hplaced
  refine ⟨p, ofsts, hrun, hnt, fun i s isTkn hs hlt => ?_, fun n => ?_⟩
  · obtain ⟨c, -, heq⟩ := mem_resortStates (List.mem_of_getElem? hs)
    have hap : s.ap = c.ap := by
      rw [heq]
      rfl
    have hcount : s.count isTkn = (rowOf lemp symbols nums (statenumOf (resortStates lemp l)) isTkn s.ap).length := by
      rw [hap, ← count_countActions s.stp, ← heq]
    cases ho : ofstOf (axsets (resortStates lemp l)) ofsts isTkn i with
    | none =>
        refine .inl ⟨rfl, ?_⟩
        by_contra hne
        have hpos : 0 < s.count isTkn := hcount ▸ List.length_pos_iff.mpr hne
        have hx : (⟨i, isTkn, s.count isTkn, 2 * i + (if isTkn then 0 else 1)⟩ : Axset) ∈ axsets (resortStates lemp l) :=
          mem_axsets.mpr ⟨s, hs, hlt, rfl, hpos, rfl⟩
        obtain ⟨o, ho'⟩ := ofstOf_of_mem hall hx
        exact absurd (ho.symm.trans ho') (by simp)
    | some o =>
        obtain ⟨x, hx, rfl, rfl, hrow⟩ := ofstOf_some hall ho
        obtain ⟨s', hs', -, hn, hpos, -⟩ := mem_axsets.mp hx
        obtain rfl := Option.some.inj (hs.symm.trans hs')
        rw [hs, Option.map_some, Option.getD_some] at hrow
        refine .inr ⟨o, rfl, ?_, hrow⟩
        rw [← List.length_pos_iff, ← hcount, ← hn]
        exact hpos
  · by_cases hin : mnNtOfst (axsets (resortStates lemp l)) ofsts - 1 ∈ ofsts
    · obtain ⟨x, hx⟩ := mem_zip_of_mem_right hall hin
      cases hkind : x.isTkn with
      | false =>
          have hle := mnNtOfst_le hx hkind
          omega
      | true =>
          obtain ⟨hread, -⟩ := List.forall₂_zip hall hx
          rw [hread, rowGet_eq_none]
          intro e he
          rw [hkind] at he
          have hlt := (key_rowOf he).2.1 rfl
          have hge := (symbols.index_nonterminal_lt n).1
          omega
    · exact hfree _ hin _

end

end LemonC
end CSamples
