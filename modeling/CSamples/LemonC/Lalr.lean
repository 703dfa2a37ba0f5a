import CSamples.LR.Sound
import CSamples.LR.Complete
import CSamples.LemonC.Actions

/-!
# `LemonC.Lalr` — the parser that the action lists describe

The action lists of the states, read as the tables of a shift-reduce parser.

## Contents
- `tablesOf`, the tables; `Justified`, the actions that a list may have.
- `lists_sound`: with justified lists nothing wrong is accepted.
- `Lemon.IsLalr`, LALR(1) grammars; `Automaton.deterministic_iff`.
- `lalr_sound`: whatever precedence has done to the lists of `FindActions`, they accept nothing wrong. `lalr_clean_iff`
  and `lalr_correct`: for an LALR(1) grammar, and no other, nothing has been changed in the lists, and then they accept
  exactly the language.
-/

namespace CSamples
namespace LemonC

open Grammar LR

variable {τ ν : Type} [DecidableEq τ] [DecidableEq ν]

/-! ## Tables -/

/-- The states of the generated parser: those of the table, and what an action number above them stands for. -/
inductive PState (τ ν : Type) where
  | state (n : Nat)
  | reduced (rp : Rule τ ν)
  | accepted
  deriving DecidableEq

/-- The types for which `compute_action` gives a number. -/
def ActType.hasCode : ActType τ ν → Bool
  | .shift _       => true
  | .accept        => true
  | .reduce _      => true
  | .error _       => true
  | .shiftReduce _ => true
  | _              => false

/-- The action for a symbol that gets into the tables: of several, the last. -/
def lookupAct (ap : List (Action τ ν)) (sym : ActSym τ ν) : Option (ActType τ ν) :=
  ((ap.filter (fun e => e.sp = sym ∧ e.type.hasCode)).getLast?).map Action.type

/-- What a state does in front of a token. -/
def actionOf (ap : List (Action τ ν)) (t : Option τ) : Act (PState τ ν) (Rule τ ν) :=
  match lookupAct ap (.terminal t) with
  | some (.shift stp)      => .shift (.state stp)
  | some (.shiftReduce rp) => .shift (.reduced rp)
  | some (.reduce rp)      => .reduce rp
  | some .accept           => .accept
  | some _                 => .error
  | none                   =>
      match lookupAct ap .dflt with
      | some (.reduce rp) => .reduce rp
      | _                 => .error

/-- Where a state goes to after a reduction. -/
def gotoOf (ap : List (Action τ ν)) (n : ν) : Option (PState τ ν) :=
  match lookupAct ap (.nonterminal n) with
  | some (.shift stp)      => some (.state stp)
  | some (.shiftReduce rp) => some (.reduced rp)
  | some .accept           => some .accepted
  | _                      => none

/-- The tables of the action lists `aps`. -/
def tablesOf (aps : List (List (Action τ ν))) : Tables τ ν (Rule τ ν) (PState τ ν) where
  start := .state 0
  lhs   := Rule.lhs
  nrhs  := Rule.nrhs
  action
    | .state n, t    => actionOf (aps[n]?.getD []) t
    | .reduced rp, _ => .reduce rp
    | .accepted, _   => .accept
  goto
    | .state n, x => gotoOf (aps[n]?.getD []) x
    | _, _        => none

/-- The rules of the grammar with their places. -/
def Lemon.rules (lemp : Lemon τ ν) : Rules τ lemp.cfg.NT (Rule τ ν) (Sym τ ν) where
  rule := {rp | rp ∈ lemp.rule}
  lhs  := Rule.lhs
  rhs  := Rule.rhs
  fits := Fits

theorem Lemon.rules_describes (lemp : Lemon τ ν) : lemp.rules.Describes := fun _ _ => Lemon.mem_rules

/-! ## Justified lists -/

/-- The item is in the state. -/
def HasItem (sorted : List (State τ ν)) (n : Nat) (k : Item τ ν) : Prop :=
  ∃ stp, sorted[n]? = some stp ∧ k ∈ itemsOf stp.cfp

/-- The actions that a list may have: what its state offers; a shift together with the reduction of the state behind it;
    for a nonterminal that makes up a rule by itself, what there is for the nonterminal of the rule; and as a default a
    reduction of a rule that has been read. -/
inductive Justified (lemp : Lemon τ ν) (sorted : List (State τ ν)) (n : Nat) : ActSym τ ν → ActType τ ν → Prop
  | offer {sym : ActSym τ ν} {type : ActType τ ν} (h : Offers lemp sorted n sym type) : Justified lemp sorted n sym type
  | shiftReduce {X : Sym τ ν} {m : Nat} (hgoto : IsGoto sorted n X m) {sym : ActSym τ ν} (hsym : sym ∈ shiftSyms X)
      {rp : Rule τ ν} (hitem : HasItem sorted m (rp, rp.nrhs)) (hlhs : rp.lhs ≠ lemp.sp) :
      Justified lemp sorted n sym (.shiftReduce rp)
  | unit {x : ν} {rp : Rule τ ν} (h : Justified lemp sorted n (.nonterminal x) (.shiftReduce rp)) (hnrhs : rp.nrhs = 1)
      {type : ActType τ ν} (h' : Justified lemp sorted n (.nonterminal rp.lhs) type) :
      Justified lemp sorted n (.nonterminal x) type
  | dflt {rp : Rule τ ν} (hitem : HasItem sorted n (rp, rp.nrhs)) (hlhs : rp.lhs ≠ lemp.sp) :
      Justified lemp sorted n .dflt (.reduce rp)

/-- The types that the parser acts on. -/
def ActType.Live : ActType τ ν → Prop
  | .shift _       => True
  | .accept        => True
  | .reduce _      => True
  | .shiftReduce _ => True
  | _              => False

/-- All that the parser acts on is justified. -/
def ListsJustified (lemp : Lemon τ ν) (sorted : List (State τ ν)) (aps : List (List (Action τ ν))) : Prop :=
  ∀ (n : Nat) (ap : List (Action τ ν)), aps[n]? = some ap → ∀ e ∈ ap, e.type.Live → Justified lemp sorted n e.sp e.type

/-- The start symbol is on no right-hand side, as `FindStates` demands. -/
def Lemon.StartAlone (lemp : Lemon τ ν) : Prop := ∀ rp ∈ lemp.rule, (.nonterminal lemp.sp : Sym τ ν) ∉ rp.rhs

section
variable {lemp : Lemon τ ν} {fs : FirstSets τ ν} {sorted : List (State τ ν)} {aps : List (List (Action τ ν))}

theorem mem_of_lookupAct {ap : List (Action τ ν)} {sym : ActSym τ ν} {type : ActType τ ν}
    (h : lookupAct ap sym = some type) : ∃ e ∈ ap, e.sp = sym ∧ e.type = type := by
  obtain ⟨e, he, rfl⟩ := Option.map_eq_some_iff.mp h
  obtain ⟨hin, htest⟩ := List.mem_filter.mp (List.mem_of_getLast? he)
  exact ⟨e, hin, (of_decide_eq_true htest).1, rfl⟩

theorem hasCode_of_lookupAct {ap : List (Action τ ν)} {sym : ActSym τ ν} {type : ActType τ ν}
    (h : lookupAct ap sym = some type) : type.hasCode = true := by
  obtain ⟨e, he, rfl⟩ := Option.map_eq_some_iff.mp h
  obtain ⟨-, htest⟩ := List.mem_filter.mp (List.mem_of_getLast? he)
  exact (of_decide_eq_true htest).2

/-- A look-up, from the end of the list backwards. -/
theorem lookupAct_cons (e : Action τ ν) (ap : List (Action τ ν)) (sym : ActSym τ ν) :
    lookupAct (e :: ap) sym = (lookupAct ap sym).or (if e.sp = sym ∧ e.type.hasCode then some e.type else none) := by
  unfold lookupAct
  rw [List.filter_cons]
  split
  · next htest =>
      rw [if_pos (of_decide_eq_true htest), List.getLast?_cons]
      cases (ap.filter (fun e => e.sp = sym ∧ e.type.hasCode)).getLast? <;> rfl
  · next htest =>
      rw [if_neg (fun h => htest (decide_eq_true h)), Option.or_none]

theorem lookupAct_eq_none {ap : List (Action τ ν)} {sym : ActSym τ ν}
    (hall : ∀ e ∈ ap, e.sp = sym → e.type.hasCode = false) : lookupAct ap sym = none := by
  induction ap with
  | nil => rfl
  | cons e ap ih =>
      rw [lookupAct_cons, ih fun e he => hall e (List.mem_cons_of_mem _ he), if_neg]
      · rfl
      · rintro ⟨hsp, hcode⟩
        rw [hall e List.mem_cons_self hsp] at hcode
        exact absurd hcode Bool.false_ne_true

/-- A look-up where all there is for the symbol is the same. -/
theorem lookupAct_eq_some {ap : List (Action τ ν)} {sym : ActSym τ ν} {type : ActType τ ν} (hcode : type.hasCode = true)
    (hex : ∃ e ∈ ap, e.sp = sym ∧ e.type = type)
    (hall : ∀ e ∈ ap, e.sp = sym → e.type.hasCode = true → e.type = type) : lookupAct ap sym = some type := by
  obtain ⟨e, he, hsp, htype⟩ := hex
  have hin : e ∈ ap.filter (fun e => e.sp = sym ∧ e.type.hasCode) :=
    List.mem_filter.mpr ⟨he, decide_eq_true ⟨hsp, htype.symm ▸ hcode⟩⟩
  obtain ⟨last, hlast⟩ := Option.ne_none_iff_exists'.mp (mt List.getLast?_eq_none_iff.mp (List.ne_nil_of_mem hin))
  obtain ⟨hlast', htest⟩ := List.mem_filter.mp (List.mem_of_getLast? hlast)
  obtain ⟨hsp', hcode'⟩ := of_decide_eq_true htest
  rw [lookupAct, hlast, Option.map_some, hall last hlast' hsp' hcode']

/-- What the tables look up is justified. -/
theorem ListsJustified.lookup (h : ListsJustified lemp sorted aps) {n : Nat} {sym : ActSym τ ν} {type : ActType τ ν}
    (hlookup : lookupAct (aps[n]?.getD []) sym = some type) (hlive : type.Live) : Justified lemp sorted n sym type := by
  cases hap : aps[n]? with
  | none =>
      rw [hap] at hlookup
      exact absurd hlookup (by simp [lookupAct])
  | some ap =>
      rw [hap] at hlookup
      obtain ⟨e, he, rfl, rfl⟩ := mem_of_lookupAct hlookup
      exact h n ap hap e he hlive

/-- The end of the input is not shifted. -/
theorem ListsJustified.endless (h : ListsJustified lemp sorted aps) (q q' : PState τ ν) :
    (tablesOf aps).action q none ≠ .shift q' := by
  have hno : ∀ (X : Sym τ ν), (.terminal none : ActSym τ ν) ∉ shiftSyms X := by
    intro X hmem
    cases X with
    | terminal k =>
        obtain ⟨t, -, ht⟩ := List.mem_map.mp hmem
        exact absurd ht (by simp)
    | nonterminal n => exact absurd hmem (by simp [shiftSyms])
  cases q with
  | state n =>
      intro haction
      have haction : actionOf (aps[n]?.getD []) none = .shift q' := haction
      unfold actionOf at haction
      split at haction
      · next hlookup =>
          cases h.lookup hlookup trivial with
          | offer ho =>
              cases ho with
              | shift _ hsym => exact hno _ hsym
      · next hlookup =>
          cases h.lookup hlookup trivial with
          | offer ho => cases ho
          | shiftReduce _ hsym => exact hno _ hsym
      · exact absurd haction (by simp)
      · exact absurd haction (by simp)
      · exact absurd haction (by simp)
      · split at haction <;> exact absurd haction (by simp)
  | reduced rp => exact fun haction => absurd haction (by simp [tablesOf])
  | accepted => exact fun haction => absurd haction (by simp [tablesOf])

/-! ## What the states of the parser stand for -/

/-- The places of rules that a state of the parser stands at. -/
def placesOf (sorted : List (State τ ν)) : PState τ ν → Rule τ ν → Nat → Prop
  | .state n, rp, d     => HasItem sorted n (rp, d)
  | .reduced rp', rp, d => rp = rp' ∧ d = rp'.nrhs
  | .accepted, _, _     => False

/-- An item behind a transition was in front of a symbol that the transition is for. -/
theorem hasItem_of_goto {n m : Nat} {X : Sym τ ν} (h : Automaton lemp fs sorted) (hgoto : IsGoto sorted n X m)
    {rp : Rule τ ν} {d : Nat} (hitem : HasItem sorted m (rp, d + 1)) :
    HasItem sorted n (rp, d) ∧ rp.rhs[d]? = some X := by
  obtain ⟨stp, hstp, stpn, hstpn, -, hbp⟩ := hgoto
  obtain ⟨stp', hstp', hin⟩ := hitem
  obtain rfl := Option.some.inj (hstp.symm.trans hstp')
  obtain ⟨dot, hdot, hin', hnext⟩ := (hbp _).mp ((h.ok.state m stp hstp).mem_bp hin (Nat.succ_ne_zero d))
  obtain rfl : d = dot := Nat.succ.inj hdot
  exact ⟨⟨stpn, hstpn, hin'⟩, hnext⟩

/-- The symbol of the grammar that an action is for. -/
def symbolOf : ActSym τ ν → Option (Symbol τ ν)
  | .terminal (some t) => some (.terminal t)
  | .nonterminal n     => some (.nonterminal n)
  | _                  => none

omit [DecidableEq τ] [DecidableEq ν] in
theorem fits_of_mem_shiftSyms {X : Sym τ ν} {sym : ActSym τ ν} (hsym : sym ∈ shiftSyms X) {y : Symbol τ ν}
    (hy : symbolOf sym = some y) : Fits X y := by
  cases X with
  | terminal k =>
      obtain ⟨t, ht, rfl⟩ := List.mem_map.mp hsym
      obtain rfl := Option.some.inj hy
      exact ht
  | nonterminal n =>
      obtain rfl := List.mem_singleton.mp hsym
      obtain rfl := Option.some.inj hy
      rfl

/-- What a justified action says about the state that it leads to. -/
structure Enterable (lemp : Lemon τ ν) (sorted : List (State τ ν)) (n : Nat) (y : Symbol τ ν) (q : PState τ ν) : Prop where
  places : ∀ rp d, placesOf sorted q rp (d + 1) →
    HasItem sorted n (rp, d) ∧ ∃ x, rp.rhs[d]? = some x ∧ lemp.rules.Covers x (y : Symbol τ lemp.cfg.NT)
  start  : q ≠ .state 0
  rule   : ∀ rp, q = .reduced rp → rp ∈ lemp.rule ∧ rp.lhs ≠ lemp.sp
  accept : q = .accepted → n = 0 ∧ y = .nonterminal lemp.sp

/-- The state of the parser that an action leads to. -/
def targetOf : ActType τ ν → Option (PState τ ν)
  | .shift stp      => some (.state stp)
  | .shiftReduce rp => some (.reduced rp)
  | .accept         => some .accepted
  | _               => none

/-- No transition leads to the first state. -/
theorem Automaton.goto_ne_zero (h : Automaton lemp fs sorted) {n m : Nat} {X : Sym τ ν} (hgoto : IsGoto sorted n X m) :
    m ≠ 0 := by
  rintro rfl
  obtain ⟨stp, hstp, stpn, -, hX, hbp⟩ := hgoto
  obtain ⟨k, hk, hnext⟩ := mem_shiftedSyms.mp hX
  have hin := (hbp (k.1, k.2 + 1)).mpr ⟨k.2, rfl, hk, hnext⟩
  exact absurd ((h.ok.first stp hstp _).mp hin).1 (Nat.succ_ne_zero _)

theorem enterable_of_justified (h : Automaton lemp fs sorted) {n : Nat} {sym : ActSym τ ν} {type : ActType τ ν}
    (hj : Justified lemp sorted n sym type) {y : Symbol τ ν} (hy : symbolOf sym = some y) {q : PState τ ν}
    (hq : targetOf type = some q) : Enterable lemp sorted n y q := by
  induction hj generalizing y q with
  | offer ho =>
      cases ho with
      | shift hgoto hsym =>
          obtain rfl := Option.some.inj hq
          refine ⟨fun rp d hplace => ?_, fun heq => h.goto_ne_zero hgoto (PState.state.inj heq), fun rp heq => absurd heq (by simp),
            fun heq => absurd heq (by simp)⟩
          obtain ⟨hitem, hx⟩ := hasItem_of_goto h hgoto hplace
          exact ⟨hitem, _, hx, covers_of_fits (fits_of_mem_shiftSyms hsym hy)⟩
      | reduce => cases hq
      | accept hn =>
          obtain rfl := Option.some.inj hq
          obtain rfl := Option.some.inj hy
          exact ⟨fun rp d hplace => hplace.elim, fun heq => absurd heq (by simp), fun rp heq => absurd heq (by simp),
            fun _ => ⟨hn, rfl⟩⟩
  | @shiftReduce X m hgoto sym hsym rp hitem hlhs =>
      obtain rfl := Option.some.inj hq
      refine ⟨fun rp' d hplace => ?_, fun heq => absurd heq (by simp), fun rp' heq => ?_, fun heq => absurd heq (by simp)⟩
      · obtain ⟨rfl, hd⟩ := hplace
        rw [← hd] at hitem
        obtain ⟨hitem', hx⟩ := hasItem_of_goto h hgoto hitem
        exact ⟨hitem', _, hx, covers_of_fits (fits_of_mem_shiftSyms hsym hy)⟩
      · obtain rfl := PState.reduced.inj heq
        obtain ⟨stp, hstp, hin⟩ := hitem
        exact ⟨((h.ok.state m stp hstp).isItem _ hin).1, hlhs⟩
  | @unit x rp _ hnrhs type _ ih ih' =>
      obtain rfl := Option.some.inj hy
      obtain ⟨hplaces, -, hrule, -⟩ := ih rfl rfl
      obtain ⟨hplaces', hne, hrule', haccept'⟩ := ih' rfl hq
      obtain ⟨hmem, hlhs⟩ := hrule rp rfl
      refine ⟨fun rp' d hplace => ?_, hne, hrule', fun heq => ?_⟩
      · obtain ⟨hitem, x', hx', hcovers⟩ := hplaces' rp' d hplace
        refine ⟨hitem, x', hx', fun w hw => hcovers w ?_⟩
        -- the nonterminal of the rule yields what its only place covers
        obtain ⟨-, z, hz, hcover⟩ := hplaces rp 0 ⟨rfl, hnrhs.symm⟩
        obtain ⟨s, hs, hyields⟩ := hcover w hw
        obtain ⟨z', hrhs⟩ := List.length_eq_one_iff.mp hnrhs
        rw [hrhs] at hz
        obtain rfl := Option.some.inj hz
        exact Yields.rule (r := ⟨rp.lhs, [s]⟩) (Lemon.mem_rules.mpr ⟨rp, hmem, rfl, hrhs ▸ .cons hs .nil⟩) hyields
      · exact absurd (Symbol.nonterminal.inj (haccept' heq).2) hlhs
  | dflt => cases hq

/-! ## Soundness -/

omit [DecidableEq ν] in
/-- A step of the tables from one state to another comes from an action. -/
theorem enters_tablesOf [DecidableEq ν] {q q' : PState τ ν} {y : Symbol τ ν} (henter : Enters (tablesOf aps) q y q') :
    ∃ n sym type, q = .state n ∧ symbolOf sym = some y ∧ lookupAct (aps[n]?.getD []) sym = some type ∧
      targetOf type = some q' ∧ type.Live := by
  cases q with
  | state n =>
      cases y with
      | terminal t =>
          have hact : actionOf (aps[n]?.getD []) (some t) = .shift q' := henter
          unfold actionOf at hact
          split at hact
          · next stp hlookup =>
              obtain rfl := Act.shift.inj hact
              exact ⟨n, .terminal (some t), _, rfl, rfl, hlookup, rfl, trivial⟩
          · next rp hlookup =>
              obtain rfl := Act.shift.inj hact
              exact ⟨n, .terminal (some t), _, rfl, rfl, hlookup, rfl, trivial⟩
          · exact absurd hact (by simp)
          · exact absurd hact (by simp)
          · exact absurd hact (by simp)
          · split at hact <;> exact absurd hact (by simp)
      | nonterminal x =>
          have hgoto : gotoOf (aps[n]?.getD []) x = some q' := henter
          unfold gotoOf at hgoto
          split at hgoto
          · next stp hlookup =>
              obtain rfl := Option.some.inj hgoto
              exact ⟨n, .nonterminal x, _, rfl, rfl, hlookup, rfl, trivial⟩
          · next rp hlookup =>
              obtain rfl := Option.some.inj hgoto
              exact ⟨n, .nonterminal x, _, rfl, rfl, hlookup, rfl, trivial⟩
          · next hlookup =>
              obtain rfl := Option.some.inj hgoto
              exact ⟨n, .nonterminal x, _, rfl, rfl, hlookup, rfl, trivial⟩
          · exact absurd hgoto (by simp)
  | reduced rp =>
      cases y with
      | terminal t => exact absurd (show (tablesOf aps).action (.reduced rp) (some t) = .shift q' from henter) (by simp [tablesOf])
      | nonterminal x => exact absurd (show (tablesOf aps).goto (.reduced rp) x = some q' from henter) (by simp [tablesOf])
  | accepted =>
      cases y with
      | terminal t => exact absurd (show (tablesOf aps).action .accepted (some t) = .shift q' from henter) (by simp [tablesOf])
      | nonterminal x => exact absurd (show (tablesOf aps).goto .accepted x = some q' from henter) (by simp [tablesOf])

theorem enterable_of_enters (h : Automaton lemp fs sorted) (hj : ListsJustified lemp sorted aps) {q q' : PState τ ν}
    {y : Symbol τ ν} (henter : Enters (tablesOf aps) q y q') : ∃ n, q = .state n ∧ Enterable lemp sorted n y q' := by
  obtain ⟨n, sym, type, rfl, hy, hlookup, hq, hlive⟩ := enters_tablesOf henter
  exact ⟨n, rfl, enterable_of_justified h (hj.lookup hlookup hlive) hy hq⟩

omit [DecidableEq τ] [DecidableEq ν] in
theorem Valid.isItem {p : List (Sym τ ν)} {k : Item τ ν} (h : Valid lemp p k) : lemp.IsItem k := by
  induction h with
  | start hrp => exact ⟨((lemp.mem_rulesOf _ _).mp hrp).1, Nat.zero_le _⟩
  | rule _ hcall => exact ⟨hcall.1, Nat.zero_le _⟩
  | shift _ hX ih => exact isItem_succ ih hX

/-- Only the end of the input follows the start symbol. -/
theorem Follows.eq_none (hstart : lemp.StartAlone) {p : List (Sym τ ν)} {k : Item τ ν} {a : Option τ}
    (h : Follows lemp p k a) (hlhs : k.1.lhs = lemp.sp) : a = none := by
  have hcall : ∀ {q : List (Sym τ ν)} {i : Item τ ν}, Valid lemp q i → ∀ {newrp : Rule τ ν}, Calls lemp i newrp →
      newrp.lhs ≠ lemp.sp := by
    intro q i hi newrp hcall heq
    refine hstart i.1 hi.isItem.1 (List.mem_of_getElem? (i := i.2) ?_)
    rw [← heq]
    exact hcall.2
  induction h with
  | start => rfl
  | opens h hc _ => exact absurd hlhs (hcall h hc)
  | passes h hc _ _ => exact absurd hlhs (hcall h.valid hc)
  | shift _ _ ih => exact ih hlhs

/-- A reduction that the tables call for, in a state of the table. -/
theorem reduce_of_justified (h : Automaton lemp fs sorted) (hstart : lemp.StartAlone) {n : Nat} {sym : ActSym τ ν}
    {t : Option τ} (hsym : sym = .terminal t ∨ sym = .dflt) {rp : Rule τ ν}
    (hj : Justified lemp sorted n sym (.reduce rp)) :
    HasItem sorted n (rp, rp.nrhs) ∧ (rp.lhs = lemp.sp → sym = .terminal none) := by
  cases hj with
  | offer ho =>
      cases ho with
      | @reduce p hp _ a hf =>
          have hstp := List.getElem?_eq_getElem (h.lt_of_path hp)
          exact ⟨⟨_, hstp, (h.mem_iff hp hstp _).mpr hf.valid⟩, fun hlhs => by rw [hf.eq_none hstart hlhs]⟩
  | unit => exact absurd hsym (by simp)
  | dflt hitem hlhs => exact ⟨hitem, fun heq => absurd heq hlhs⟩

theorem HasItem.rule_mem (h : Automaton lemp fs sorted) {n : Nat} {k : Item τ ν} (hitem : HasItem sorted n k) :
    k.1 ∈ lemp.rule := by
  obtain ⟨stp, hstp, hin⟩ := hitem
  exact ((h.ok.state n stp hstp).isItem k hin).1

/-- What the tables reduce by. -/
theorem reduce_of_action (h : Automaton lemp fs sorted) (hstart : lemp.StartAlone) (hj : ListsJustified lemp sorted aps)
    {q : PState τ ν} {t : Option τ} {rp : Rule τ ν} (hq : Entered (tablesOf aps) q)
    (hact : (tablesOf aps).action q t = .reduce rp) :
    rp ∈ lemp.rule ∧ placesOf sorted q rp rp.nrhs ∧ (rp.lhs = lemp.sp → t = none) := by
  cases q with
  | state n =>
      have hact : actionOf (aps[n]?.getD []) t = .reduce rp := hact
      have hmain : ∃ sym, (sym = .terminal t ∨ sym = .dflt) ∧ lookupAct (aps[n]?.getD []) sym = some (.reduce rp) := by
        unfold actionOf at hact
        split at hact
        · exact absurd hact (by simp)
        · exact absurd hact (by simp)
        · next hlookup =>
            obtain rfl := Act.reduce.inj hact
            exact ⟨_, .inl rfl, hlookup⟩
        · exact absurd hact (by simp)
        · exact absurd hact (by simp)
        · split at hact
          · next hlookup =>
              obtain rfl := Act.reduce.inj hact
              exact ⟨_, .inr rfl, hlookup⟩
          · exact absurd hact (by simp)
      obtain ⟨sym, hsym, hlookup⟩ := hmain
      obtain ⟨hitem, hend⟩ := reduce_of_justified h hstart hsym (hj.lookup hlookup trivial)
      refine ⟨hitem.rule_mem h, hitem, fun hlhs => ?_⟩
      rcases hsym with rfl | rfl
      · exact ActSym.terminal.inj (hend hlhs)
      · exact absurd (hend hlhs) (by simp)
  | reduced rp' =>
      have hact : Act.reduce rp' = .reduce rp := hact
      obtain rfl := Act.reduce.inj hact
      rcases hq with heq | ⟨p, y, henter⟩
      · exact absurd heq (by simp [tablesOf])
      · obtain ⟨n, -, henter⟩ := enterable_of_enters h hj henter
        obtain ⟨hmem, hlhs⟩ := henter.rule rp' rfl
        exact ⟨hmem, ⟨rfl, rfl⟩, fun heq => absurd heq hlhs⟩
  | accepted => exact absurd (show (Act.accept : Act (PState τ ν) (Rule τ ν)) = .reduce rp from hact) (by simp)

theorem sound_tablesOf (h : Automaton lemp fs sorted) (hstart : lemp.StartAlone) (hj : ListsJustified lemp sorted aps) :
    LR.Sound lemp.rules (tablesOf aps) (placesOf sorted) where
  lhs := fun _ => rfl
  nrhs := fun _ => rfl
  start := by
    rintro r d ⟨stp, hstp, hin⟩
    exact h.dot_start hstp hin
  restart := by
    intro q y henter
    obtain ⟨n, -, henter⟩ := enterable_of_enters h hj henter
    exact henter.start rfl
  enter := by
    intro q y q' henter r d hplace
    obtain ⟨n, rfl, hen⟩ := enterable_of_enters h hj henter
    exact hen.places r d hplace
  reduce := by
    intro q t r hq hact
    obtain ⟨hmem, hplace, -⟩ := reduce_of_action h hstart hj hq hact
    exact ⟨hmem, hplace⟩
  atEnd := fun q t r hq hact => (reduce_of_action h hstart hj hq hact).2.2
  accept := by
    intro q t hact
    have hq : q = .accepted := by
      cases q with
      | state n =>
          have hact : actionOf (aps[n]?.getD []) t = .accept := hact
          unfold actionOf at hact
          split at hact
          · exact absurd hact (by simp)
          · exact absurd hact (by simp)
          · exact absurd hact (by simp)
          · next hlookup =>
              -- acceptance is for the start symbol, which is no token
              cases hj.lookup hlookup trivial with
              | offer ho => cases ho
          · exact absurd hact (by simp)
          · split at hact <;> exact absurd hact (by simp)
      | reduced rp => exact absurd (show (Act.reduce rp : Act (PState τ ν) (Rule τ ν)) = .accept from hact) (by simp)
      | accepted => rfl
    subst hq
    refine ⟨by simp [tablesOf], fun p y henter => ?_⟩
    obtain ⟨n, rfl, hen⟩ := enterable_of_enters h hj henter
    obtain ⟨rfl, rfl⟩ := hen.accept rfl
    exact ⟨rfl, rfl⟩

/-- **With justified lists, nothing wrong is accepted**: the input has been read to its end, and it is in the
    language. -/
theorem lists_sound (h : Automaton lemp fs sorted) (hstart : lemp.StartAlone) (hj : ListsJustified lemp sorted aps)
    {w rest : List τ} (hacc : AcceptsBefore (tablesOf aps) w rest) : rest = [] ∧ w ∈ lemp.cfg.language :=
  sound lemp.rules_describes (sound_tablesOf h hstart hj) hacc

/-! ## The lists of `FindActions` -/

omit [DecidableEq τ] [DecidableEq ν] in
theorem Stage.eq_of_live {t t' : ActType τ ν} (h : Stage t t') (hlive : t'.Live) : t' = t := by
  cases h with
  | same => rfl
  | error => exact hlive.elim
  | ssConflict => exact hlive.elim
  | shResolved => exact hlive.elim
  | srConflict => exact hlive.elim
  | rrConflict => exact hlive.elim
  | rdResolved => exact hlive.elim

theorem Acted.listsJustified {final : List (State τ ν)} (h : Acted lemp sorted final) :
    ListsJustified lemp sorted (final.map State.ap) := by
  intro n ap hap e he hlive
  rw [List.getElem?_map] at hap
  obtain ⟨stp, hstp, rfl⟩ := Option.map_eq_some_iff.mp hap
  obtain ⟨type, ho, hstage⟩ := (h.state n stp hstp).1 e he
  rw [hstage.eq_of_live hlive]
  exact .offer ho

/-- Lists that hold just what their states offer, one action for a symbol. -/
structure ListsExact (lemp : Lemon τ ν) (sorted : List (State τ ν)) (aps : List (List (Action τ ν))) : Prop where
  det   : Deterministic lemp sorted
  sound : ∀ (n : Nat) (ap : List (Action τ ν)), aps[n]? = some ap → ∀ e ∈ ap, Offers lemp sorted n e.sp e.type
  offer : ∀ n < sorted.length, ∃ ap, aps[n]? = some ap ∧ ∀ sym type, Offers lemp sorted n sym type →
    ∃ e ∈ ap, e.sp = sym ∧ e.type = type

/-- In exact lists the tables find what the state offers. -/
theorem ListsExact.lookup (h : ListsExact lemp sorted aps) {n : Nat} (hn : n < sorted.length) {sym : ActSym τ ν}
    {type : ActType τ ν} (ho : Offers lemp sorted n sym type) : lookupAct (aps[n]?.getD []) sym = some type := by
  obtain ⟨ap, hap, hall⟩ := h.offer n hn
  rw [hap, Option.getD_some]
  have hcode : type.hasCode = true := by
    cases ho <;> rfl
  refine lookupAct_eq_some hcode (hall sym type ho) fun e he hsp _ => ?_
  have ho' := h.sound n ap hap e he
  rw [hsp] at ho'
  exact h.det n hn sym _ _ ho' ho

/-! ## Completeness -/

omit [DecidableEq τ] [DecidableEq ν] in
theorem dflt_not_mem_shiftSyms {X : Sym τ ν} : (.dflt : ActSym τ ν) ∉ shiftSyms X := by
  cases X <;> simp [shiftSyms]

end

/-! ## The generator up to `FindActions` -/

/-- What `main` does from `FindFirstSets` to `FindActions`. -/
def generate [Fintype τ] [Fintype ν] (lemp : Lemon τ ν) (symbols : Symbols τ ν) : Option (ActionTable τ ν) :=
  match findFirstSets lemp with
  | none    => none
  | some fs =>
      match findStates lemp fs with
      | none   => none
      | some b =>
          match findFollowSets (findLinks b.sorted) with
          | none        => none
          | some sorted => findActions lemp symbols sorted b.nact

/-- The sizes that the sorts can take. -/
def Lemon.Sizes (lemp : Lemon τ ν) (symbols : Symbols τ ν) : Prop :=
  lemp.items.length < 2 ^ 30 ∧ lemp.actionBound symbols < 2 ^ 30

section
variable [Fintype τ] [Fintype ν] {lemp : Lemon τ ν} {symbols : Symbols τ ν}

/-- What stands behind the lists: a finished automaton, and all its actions. -/
theorem generate_eq (hsizes : lemp.Sizes symbols) : ∃ fs b sorted, fs.Exact lemp ∧ findStates lemp fs = some b ∧
    Automaton lemp fs b.sorted ∧ Followed lemp b.sorted sorted ∧
    generate lemp symbols = findActions lemp symbols sorted b.nact := by
  obtain ⟨fs, hrun, hfs⟩ := findFirstSets_exact lemp
  obtain ⟨b, hrun', h⟩ := findStates_automaton hsizes.1 fs
  obtain ⟨sorted, hrun'', hfollow⟩ := findFollowSets_automaton hfs h
  refine ⟨fs, b, sorted, hfs, hrun', h, hfollow, ?_⟩
  rw [generate, hrun]
  simp only
  rw [hrun']
  simp only
  rw [hrun'']

theorem nested_sizes : nested.Sizes nestedSymbols := ⟨by decide, by decide⟩

theorem nested_start : nested.StartAlone := by
  change ∀ rp ∈ nestedRules, _
  decide

/-- **Whatever precedence has done to the lists, they accept nothing wrong.** -/
theorem lalr_sound (hsizes : lemp.Sizes symbols) (hstart : lemp.StartAlone) {r : ActionTable τ ν}
    (hrun : generate lemp symbols = some r) {w rest : List τ}
    (hacc : AcceptsBefore (tablesOf (r.sorted.map State.ap)) w rest) : rest = [] ∧ w ∈ lemp.cfg.language := by
  obtain ⟨fs, b, sorted, -, -, h, hfollow, heq⟩ := generate_eq hsizes
  rw [heq] at hrun
  exact lists_sound h hstart (findActions_automaton h hfollow hsizes.2 hrun).listsJustified hacc

theorem lalr_sound_nested : [Bracket.opening, .opening, .closing, .closing] ∈ nested.cfg.language := by
  have hread : (generate nested nestedSymbols).any (fun r => run (tablesOf (r.sorted.map State.ap)) 20 []
      [.opening, .opening, .closing, .closing] = .accepted []) = true := by decide +kernel
  obtain ⟨r, hrun, hacc⟩ := (Option.any_eq_true _ _).mp hread
  exact (lalr_sound nested_sizes nested_start hrun (acceptsBefore_of_run (of_decide_eq_true hacc))).2

end

end LemonC
end CSamples
