import CSamples.LemonC.FollowSets

/-!
# `LemonC.Actions` — `FindActions`

The reduce actions come from the follow sets, the accepting action goes to the first state, the lists are sorted, and
where two actions of a state are for the same symbol, `resolve_conflict` changes the type of one of them.

## Contents
- **Model.** `Symbols`, `resolveConflict`, `findActions`.
- **Spec.** `Stage`, how the types change; `ActType.Clean`, the types that have not changed. `Offers`, what a state can
  do, and `findActions_automaton`: the lists hold that, each action at some stage. `deterministic_of_clean` and
  `clean_of_deterministic`: no type changes exactly if no state had two actions for a symbol.
-/

namespace CSamples
namespace LemonC

variable {τ ν : Type} [DecidableEq τ] [DecidableEq ν]

/-! ## Symbols -/

/-- The symbols of the grammar in the order of their `index`: `$`, the other terminals, the nonterminals, `{default}`. -/
structure Symbols (τ ν : Type) where
  terminals    : List (Option τ)
  nonterminals : List ν
  nodup        : terminals.Nodup
  end_first    : terminals.head? = some none
  mem_terminals    : ∀ t, t ∈ terminals
  mem_nonterminals : ∀ n, n ∈ nonterminals

/-- The symbols of `nested` in the order of `main`: `$` first. -/
def nestedSymbols : Symbols Bracket Nest where
  terminals    := [none, some .opening, some .closing]
  nonterminals := [.file, .nest]
  nodup        := by decide
  end_first    := rfl
  mem_terminals := by
    intro t
    rcases t with _ | t
    · exact .head _
    · cases t <;> decide
  mem_nonterminals := by
    intro n
    cases n <;> decide

/-- `sp->index` -/
def Symbols.index (symbols : Symbols τ ν) : ActSym τ ν → Nat
  | .terminal t    => symbols.terminals.idxOf t
  | .nonterminal n => symbols.terminals.length + symbols.nonterminals.idxOf n
  | .dflt          => symbols.terminals.length + symbols.nonterminals.length

/-- `sp->prec`, negative where there is none. -/
def Lemon.precOf (lemp : Lemon τ ν) : ActSym τ ν → Int
  | .terminal (some t) => lemp.prec t
  | _                  => -1

/-- `sp->assoc` -/
def Lemon.assocOf (lemp : Lemon τ ν) : ActSym τ ν → Assoc
  | .terminal (some t) => lemp.assoc t
  | _                  => .unk

/-- The loop of `FindRulePrecedences` over the right-hand side of a rule. -/
def scanPrec (prec : τ → Int) : List (Sym τ ν) → Option τ
  | []                   => none
  | .terminal k :: rhs   => (k.tokens.find? (fun t => 0 ≤ prec t)).or (scanPrec prec rhs)
  | .nonterminal _ :: rhs => scanPrec prec rhs

/-- `rp->precsym` after `FindRulePrecedences`. -/
def Lemon.precsymOf (lemp : Lemon τ ν) (rp : Rule τ ν) : Option τ := rp.precsym.or (scanPrec lemp.prec rp.rhs)

/-! ## Sorting -/

/-- The number of an `e_action`. -/
def ActType.num : ActType τ ν → Nat
  | .shift _       => 0
  | .accept        => 1
  | .reduce _      => 2
  | .error _       => 3
  | .ssConflict _  => 4
  | .srConflict _  => 5
  | .rrConflict _  => 6
  | .shResolved _  => 7
  | .rdResolved _  => 8
  | .notUsed _     => 9
  | .shiftReduce _ => 10

/-- `x.rp->index` of a REDUCE or a SHIFTREDUCE. -/
def ActType.ruleIndex : ActType τ ν → Nat
  | .reduce rp      => rp.index
  | .shiftReduce rp => rp.index
  | _               => 0

/-- `actioncmp`; what it takes from the addresses in the end is the order in which actions have been made. -/
def actioncmp (symbols : Symbols τ ν) (ap1 ap2 : Action τ ν) : Int :=
  let rc : Int := symbols.index ap1.sp - symbols.index ap2.sp
  let rc : Int := if rc = 0 then ap1.type.num - ap2.type.num else rc
  let rc : Int := if rc = 0 then ap1.type.ruleIndex - ap2.type.ruleIndex else rc
  if rc = 0 then ap2.seq - ap1.seq else rc

/-- `Action_sort` -/
def actionSort (symbols : Symbols τ ν) (ap : List (Action τ ν)) : List (Action τ ν) := msort (actioncmp symbols) ap

/-! ## `resolve_conflict` -/

/-- The last `else` of `resolve_conflict`: such a conflict has been resolved before. -/
def ActType.settled : ActType τ ν → Bool
  | .shResolved _ => true
  | .rdResolved _ => true
  | .ssConflict _ => true
  | .srConflict _ => true
  | .rrConflict _ => true
  | _             => false

/-- `resolve_conflict`: the types that the two actions get, and the number of conflicts. `none` is a failed
    assertion. -/
def resolveConflict (lemp : Lemon τ ν) (apx apy : Action τ ν) : Option (ActType τ ν × ActType τ ν × Nat) :=
  match apx.type, apy.type with
  | .shift stp, .shift stp' => some (.shift stp, .ssConflict stp', 1)
  | .shift stp, .reduce rp  =>
      let spx := lemp.precOf apx.sp
      match lemp.precsymOf rp with
      | none     => some (.shift stp, .srConflict rp, 1)
      | some spy =>
          if spx < 0 ∨ lemp.prec spy < 0 then some (.shift stp, .srConflict rp, 1)
          else if lemp.prec spy < spx then some (.shift stp, .rdResolved rp, 0)
          else if spx < lemp.prec spy then some (.shResolved stp, .reduce rp, 0)
          else
            match lemp.assocOf apx.sp with
            | .right => some (.shift stp, .rdResolved rp, 0)
            | .left  => some (.shResolved stp, .reduce rp, 0)
            | .none  => some (.error stp, .reduce rp, 0)
            | .unk   => none
  | .reduce rpx, .reduce rpy =>
      match lemp.precsymOf rpx, lemp.precsymOf rpy with
      | some spx, some spy =>
          if lemp.prec spx < 0 ∨ lemp.prec spy < 0 ∨ lemp.prec spx = lemp.prec spy then
            some (.reduce rpx, .rrConflict rpy, 1)
          else if lemp.prec spy < lemp.prec spx then some (.reduce rpx, .rdResolved rpy, 0)
          else some (.rdResolved rpx, .reduce rpy, 0)
      | _, _               => some (.reduce rpx, .rrConflict rpy, 1)
  | tx, ty => if tx.settled || ty.settled then some (tx, ty, 0) else none

/-- The inner loop over the actions behind `ap` for the same symbol. -/
def resolveWith (lemp : Lemon τ ν) (ap : Action τ ν) : List (Action τ ν) → Option (Action τ ν × List (Action τ ν) × Nat)
  | []          => some (ap, [], 0)
  | nap :: rest =>
      if nap.sp = ap.sp then
        match resolveConflict lemp ap nap with
        | none           => none
        | some (tx, ty, n) =>
            match resolveWith lemp { ap with type := tx } rest with
            | none                  => none
            | some (ap', rest', n') => some (ap', { nap with type := ty } :: rest', n + n')
      else some (ap, nap :: rest, 0)

/-- The loop over the actions of a state; the first argument is their number. -/
def resolveList (lemp : Lemon τ ν) : Nat → List (Action τ ν) → Option (List (Action τ ν) × Nat)
  | 0, l            => some (l, 0)
  | _+1, []         => some ([], 0)
  | len+1, ap :: rest =>
      match resolveWith lemp ap rest with
      | none                => none
      | some (ap', rest', n) =>
          match resolveList lemp len rest' with
          | none               => none
          | some (rest'', n') => some (ap' :: rest'', n + n')

/-! ## `FindActions` -/

/-- `Action_add`, for several actions in turn. -/
def addActions : List (ActSym τ ν × ActType τ ν) → List (Action τ ν) → Nat → List (Action τ ν)
  | [], ap, _           => ap
  | x :: acts, ap, nact => addActions acts (⟨x.1, x.2, nact⟩ :: ap) (nact + 1)

/-- The reduce actions of a configuration. -/
def configActs (symbols : Symbols τ ν) (cfp : Config τ ν) : List (ActSym τ ν × ActType τ ν) :=
  if cfp.rp.nrhs = cfp.dot then
    (symbols.terminals.filter (fun j => j ∈ cfp.fws)).map (fun j => (.terminal j, .reduce cfp.rp))
  else []

/-- The reduce actions of a state. -/
def reduceActs (symbols : Symbols τ ν) (stp : State τ ν) : List (ActSym τ ν × ActType τ ν) :=
  stp.cfp.flatMap (configActs symbols)

/-- The first loop of `FindActions`. -/
def addReduces (symbols : Symbols τ ν) : List (State τ ν) → Nat → List (State τ ν) × Nat
  | [], nact          => ([], nact)
  | stp :: rest, nact =>
      let acts := reduceActs symbols stp
      let x := addReduces symbols rest (nact + acts.length)
      ({ stp with ap := addActions acts stp.ap nact } :: x.1, x.2)

/-- The accepting action. -/
def addAccept (lemp : Lemon τ ν) (sorted : List (State τ ν)) (nact : Nat) : List (State τ ν) :=
  sorted.modify 0 (fun stp => { stp with ap := ⟨.nonterminal lemp.sp, .accept, nact⟩ :: stp.ap })

/-- The loop over the states that sorts the actions and resolves conflicts. -/
def resolveStates (lemp : Lemon τ ν) (symbols : Symbols τ ν) : List (State τ ν) → Option (List (State τ ν) × Nat)
  | []          => some ([], 0)
  | stp :: rest =>
      let ap := actionSort symbols stp.ap
      match resolveList lemp ap.length ap with
      | none         => none
      | some (ap, n) =>
          match resolveStates lemp symbols rest with
          | none             => none
          | some (rest', n') => some ({ stp with ap := ap } :: rest', n + n')

/-- What `FindActions` leaves: the states, `nconflict`, and the error messages with their lines. -/
structure ActionTable (τ ν : Type) where
  sorted    : List (State τ ν)
  nconflict : Nat
  errors    : List (Nat × String)

/-- The messages about rules that are never reduced. -/
def reduceErrors (lemp : Lemon τ ν) (sorted : List (State τ ν)) : List (Nat × String) :=
  (lemp.rule.filter (fun rp => sorted.all (fun stp => stp.ap.all (fun ap => ap.type ≠ .reduce rp)))).map
    (fun rp => (rp.ruleline, "This rule can not be reduced.\n"))

/-- `FindActions`, with `nact` actions made before. -/
def findActions (lemp : Lemon τ ν) (symbols : Symbols τ ν) (sorted : List (State τ ν)) (nact : Nat) :
    Option (ActionTable τ ν) :=
  let x := addReduces symbols sorted nact
  (resolveStates lemp symbols (addAccept lemp x.1 x.2)).map
    (fun y => ⟨y.1, y.2, reduceErrors lemp y.1⟩)

/-! ## How types change -/

/-- The types that an action can come to. -/
inductive Stage : ActType τ ν → ActType τ ν → Prop
  | same (type : ActType τ ν) : Stage type type
  | error (stp : Nat) : Stage (.shift stp) (.error stp)
  | ssConflict (stp : Nat) : Stage (.shift stp) (.ssConflict stp)
  | shResolved (stp : Nat) : Stage (.shift stp) (.shResolved stp)
  | srConflict (rp : Rule τ ν) : Stage (.reduce rp) (.srConflict rp)
  | rrConflict (rp : Rule τ ν) : Stage (.reduce rp) (.rrConflict rp)
  | rdResolved (rp : Rule τ ν) : Stage (.reduce rp) (.rdResolved rp)

/-- SHIFT, ACCEPT and REDUCE: what the types are at the start. -/
def ActType.Clean (type : ActType τ ν) : Prop := type.num ≤ 2

omit [DecidableEq τ] [DecidableEq ν] in
theorem Stage.trans {t₁ t₂ t₃ : ActType τ ν} (h : Stage t₁ t₂) (h' : Stage t₂ t₃) : Stage t₁ t₃ := by
  cases h with
  | same => exact h'
  | error stp =>
      cases h'
      exact .error stp
  | ssConflict stp =>
      cases h'
      exact .ssConflict stp
  | shResolved stp =>
      cases h'
      exact .shResolved stp
  | srConflict rp =>
      cases h'
      exact .srConflict rp
  | rrConflict rp =>
      cases h'
      exact .rrConflict rp
  | rdResolved rp =>
      cases h'
      exact .rdResolved rp

omit [DecidableEq τ] [DecidableEq ν] in
/-- A type that has changed is not clean any more. -/
theorem Stage.eq_of_clean {t t' : ActType τ ν} (h : Stage t t') (hclean : t'.Clean) : t' = t := by
  cases h with
  | same => rfl
  | error => exact absurd hclean (by simp [ActType.Clean, ActType.num])
  | ssConflict => exact absurd hclean (by simp [ActType.Clean, ActType.num])
  | shResolved => exact absurd hclean (by simp [ActType.Clean, ActType.num])
  | srConflict => exact absurd hclean (by simp [ActType.Clean, ActType.num])
  | rrConflict => exact absurd hclean (by simp [ActType.Clean, ActType.num])
  | rdResolved => exact absurd hclean (by simp [ActType.Clean, ActType.num])

omit [DecidableEq τ] [DecidableEq ν] in
theorem not_clean_of_settled {t : ActType τ ν} (h : t.settled = true) : ¬ t.Clean := by
  cases t <;> simp [ActType.settled, ActType.Clean, ActType.num] at h ⊢

section
variable {lemp : Lemon τ ν} {symbols : Symbols τ ν}

omit [DecidableEq τ] [DecidableEq ν] in
/-- **A conflict changes a type**, if it has not been changed before. -/
theorem resolveConflict_spec {apx apy : Action τ ν} {tx ty : ActType τ ν} {n : Nat}
    (h : resolveConflict lemp apx apy = some (tx, ty, n)) :
    Stage apx.type tx ∧ Stage apy.type ty ∧ ¬ (tx.Clean ∧ ty.Clean) := by
  have hx : ∀ {t : ActType τ ν}, 2 < t.num → ∀ t' : ActType τ ν, ¬ (t.Clean ∧ t'.Clean) :=
    fun ht _ hc => absurd hc.1 (Nat.not_le_of_lt ht)
  have hy : ∀ {t : ActType τ ν}, 2 < t.num → ∀ t' : ActType τ ν, ¬ (t'.Clean ∧ t.Clean) :=
    fun ht _ hc => absurd hc.2 (Nat.not_le_of_lt ht)
  unfold resolveConflict at h
  split at h
  · next stp stp' h₁ h₂ =>
      cases h
      rw [h₁, h₂]
      exact ⟨.same _, .ssConflict stp', hy (by simp [ActType.num]) _⟩
  · next stp rp h₁ h₂ =>
      simp only at h
      rw [h₁, h₂]
      split at h
      · cases h
        exact ⟨.same _, .srConflict rp, hy (by simp [ActType.num]) _⟩
      · split at h
        · cases h
          exact ⟨.same _, .srConflict rp, hy (by simp [ActType.num]) _⟩
        split at h
        · cases h
          exact ⟨.same _, .rdResolved rp, hy (by simp [ActType.num]) _⟩
        split at h
        · cases h
          exact ⟨.shResolved stp, .same _, hx (by simp [ActType.num]) _⟩
        split at h
        · cases h
          exact ⟨.same _, .rdResolved rp, hy (by simp [ActType.num]) _⟩
        · cases h
          exact ⟨.shResolved stp, .same _, hx (by simp [ActType.num]) _⟩
        · cases h
          exact ⟨.error stp, .same _, hx (by simp [ActType.num]) _⟩
        · cases h
  · next rpx rpy h₁ h₂ =>
      rw [h₁, h₂]
      split at h
      · split at h
        · cases h
          exact ⟨.same _, .rrConflict rpy, hy (by simp [ActType.num]) _⟩
        split at h
        · cases h
          exact ⟨.same _, .rdResolved rpy, hy (by simp [ActType.num]) _⟩
        · cases h
          exact ⟨.rdResolved rpx, .same _, hx (by simp [ActType.num]) _⟩
      · cases h
        exact ⟨.same _, .rrConflict rpy, hy (by simp [ActType.num]) _⟩
  · split at h
    · next hset =>
        cases h
        refine ⟨.same _, .same _, fun hc => ?_⟩
        rcases Bool.or_eq_true_iff.mp hset with hset | hset
        · exact not_clean_of_settled hset hc.1
        · exact not_clean_of_settled hset hc.2
    · cases h

/-- An action before and after the conflicts of its state have been resolved. -/
structure Action.Becomes (ap ap' : Action τ ν) : Prop where
  sp   : ap'.sp = ap.sp
  seq  : ap'.seq = ap.seq
  type : Stage ap.type ap'.type

omit [DecidableEq τ] [DecidableEq ν] in
theorem Action.Becomes.refl (ap : Action τ ν) : ap.Becomes ap := ⟨rfl, rfl, .same _⟩

omit [DecidableEq τ] [DecidableEq ν] in
theorem becomes_trans {l₁ l₂ l₃ : List (Action τ ν)} (h : List.Forall₂ Action.Becomes l₁ l₂)
    (h' : List.Forall₂ Action.Becomes l₂ l₃) : List.Forall₂ Action.Becomes l₁ l₃ := by
  induction h generalizing l₃ with
  | nil => exact h'
  | cons hap _ ih =>
      cases h' with
      | cons hap' h' => exact .cons ⟨hap'.sp.trans hap.sp, hap'.seq.trans hap.seq, hap.type.trans hap'.type⟩ (ih h')

omit [DecidableEq τ] [DecidableEq ν] in
/-- Where all types are clean in the end, nothing has changed. -/
theorem becomes_eq_of_clean {l l' : List (Action τ ν)} (h : List.Forall₂ Action.Becomes l l')
    (hclean : ∀ e ∈ l', e.type.Clean) : l' = l := by
  induction h with
  | nil => rfl
  | @cons ap ap' l l' hap _ ih =>
      have hsame : ap' = ap := by
        obtain ⟨hsp, hseq, htype⟩ := hap
        have htype' := htype.eq_of_clean (hclean ap' List.mem_cons_self)
        cases ap
        cases ap'
        exact congr (congr (congrArg Action.mk hsp) htype') hseq
      rw [hsame, ih fun e he => hclean e (List.mem_cons_of_mem _ he)]

/-- The inner loop. If no type has changed, it has not been entered. -/
theorem resolveWith_spec {rest : List (Action τ ν)} {ap ap' : Action τ ν} {rest' : List (Action τ ν)} {n : Nat}
    (h : resolveWith lemp ap rest = some (ap', rest', n)) :
    ap.Becomes ap' ∧ List.Forall₂ Action.Becomes rest rest' ∧
      (ap'.type.Clean → (∀ e ∈ rest', e.type.Clean) → n = 0 ∧ ∀ nap ∈ rest.head?, nap.sp ≠ ap.sp) := by
  induction rest generalizing ap ap' rest' n with
  | nil =>
      cases h
      exact ⟨.refl ap, .nil, fun _ _ => ⟨rfl, fun nap hnap => absurd hnap (by simp)⟩⟩
  | cons nap rest ih =>
      rw [resolveWith] at h
      split at h
      · next hsp =>
          split at h
          · cases h
          · next tx ty n₁ hres =>
              obtain ⟨htx, hty, hdirty⟩ := resolveConflict_spec hres
              split at h
              · cases h
              · next ap₂ rest₂ n₂ hrest =>
                  cases h
                  obtain ⟨hap, hall, -⟩ := ih hrest
                  refine ⟨⟨hap.sp, hap.seq, htx.trans hap.type⟩, .cons ⟨rfl, rfl, hty⟩ hall, fun hclean hcleans => ?_⟩
                  -- the first type of the conflict has not changed later, so it was clean then
                  have h₁ := hap.type.eq_of_clean hclean
                  simp only at h₁
                  exact absurd ⟨h₁ ▸ hclean, hcleans _ List.mem_cons_self⟩ hdirty
      · next hsp =>
          cases h
          refine ⟨.refl ap, ?_, fun _ _ => ⟨rfl, ?_⟩⟩
          · exact List.forall₂_same.mpr fun e _ => .refl e
          · intro e he
            obtain rfl := Option.some.inj he
            exact hsp

theorem resolveList_spec {len : Nat} {l l' : List (Action τ ν)} {n : Nat} (hlen : l.length ≤ len)
    (h : resolveList lemp len l = some (l', n)) :
    List.Forall₂ Action.Becomes l l' ∧
      ((∀ e ∈ l', e.type.Clean) → n = 0 ∧ l.IsChain (fun e e' => e'.sp ≠ e.sp)) := by
  induction len generalizing l l' n with
  | zero =>
      obtain rfl := List.eq_nil_of_length_eq_zero (Nat.le_zero.mp hlen)
      cases h
      exact ⟨.nil, fun _ => ⟨rfl, .nil⟩⟩
  | succ len ih =>
      cases l with
      | nil =>
          cases h
          exact ⟨.nil, fun _ => ⟨rfl, .nil⟩⟩
      | cons ap rest =>
          rw [resolveList] at h
          split at h
          · cases h
          · next ap' rest' n₁ hwith =>
              obtain ⟨hap, hrest, hquiet⟩ := resolveWith_spec hwith
              split at h
              · cases h
              · next rest'' n₂ hlist =>
                  cases h
                  have hlen' : rest'.length ≤ len := by
                    have := hrest.length_eq
                    rw [List.length_cons] at hlen
                    omega
                  obtain ⟨hall, hchain⟩ := ih hlen' hlist
                  refine ⟨.cons hap ?_, fun hclean => ?_⟩
                  · exact becomes_trans hrest hall
                  · have hclean' : ∀ e ∈ rest'', e.type.Clean := fun e he => hclean e (List.mem_cons_of_mem _ he)
                    obtain ⟨rfl, hchain'⟩ := hchain hclean'
                    have hsame := becomes_eq_of_clean hall hclean'
                    subst hsame
                    obtain ⟨rfl, hhead⟩ := hquiet (hclean ap' List.mem_cons_self) hclean'
                    have hsame := becomes_eq_of_clean hrest hclean'
                    subst hsame
                    exact ⟨rfl, List.isChain_cons.mpr ⟨hhead, hchain'⟩⟩

theorem Symbols.index_terminal_lt (symbols : Symbols τ ν) (t : Option τ) :
    symbols.index (.terminal t) < symbols.terminals.length :=
  List.idxOf_lt_length_iff.mpr (symbols.mem_terminals t)

theorem Symbols.index_nonterminal_lt (symbols : Symbols τ ν) (n : ν) :
    symbols.terminals.length ≤ symbols.index (.nonterminal n) ∧
      symbols.index (.nonterminal n) < symbols.terminals.length + symbols.nonterminals.length :=
  ⟨Nat.le_add_right _ _, Nat.add_lt_add_left (List.idxOf_lt_length_iff.mpr (symbols.mem_nonterminals n)) _⟩

theorem Symbols.index_inj (symbols : Symbols τ ν) {x y : ActSym τ ν} (h : symbols.index x = symbols.index y) : x = y := by
  have ht := symbols.index_terminal_lt
  have hn := symbols.index_nonterminal_lt
  have hdflt : symbols.index .dflt = symbols.terminals.length + symbols.nonterminals.length := rfl
  cases x with
  | terminal t =>
      cases y with
      | terminal t' => exact congrArg _ ((List.idxOf_inj (symbols.mem_terminals t)).mp h)
      | nonterminal n =>
          have hlt := ht t
          have hge := (hn n).1
          omega
      | dflt =>
          have hlt := ht t
          omega
  | nonterminal n =>
      cases y with
      | terminal t =>
          have hlt := ht t
          have hge := (hn n).1
          omega
      | nonterminal n' => exact congrArg _ ((List.idxOf_inj (symbols.mem_nonterminals n)).mp (Nat.add_left_cancel h))
      | dflt =>
          have hlt := (hn n).2
          omega
  | dflt =>
      cases y with
      | terminal t =>
          have hlt := ht t
          omega
      | nonterminal n =>
          have hlt := (hn n).2
          omega
      | dflt => rfl

theorem actioncmp_compares (symbols : Symbols τ ν) : Compares (actioncmp symbols) := by
  refine ⟨fun a b => ?_, fun a b c hab hbc => ?_⟩
  · simp only [actioncmp]
    split_ifs <;> omega
  · simp only [actioncmp] at hab hbc ⊢
    split_ifs at hab hbc ⊢ <;> omega

/-- In a sorted list actions for the same symbol are neighbours. -/
theorem nodup_of_chain {l : List (Action τ ν)} (hsorted : l.Pairwise (fun x y => actioncmp symbols x y ≤ 0))
    (hchain : l.IsChain (fun e e' => e'.sp ≠ e.sp)) : (l.map Action.sp).Nodup := by
  have hindex : ∀ x y : Action τ ν, actioncmp symbols x y ≤ 0 → symbols.index x.sp ≤ symbols.index y.sp := by
    intro x y h
    simp only [actioncmp] at h
    split_ifs at h <;> omega
  induction l with
  | nil => exact List.nodup_nil
  | cons e l ih =>
      obtain ⟨hle, hsorted⟩ := List.pairwise_cons.mp hsorted
      obtain ⟨hhead, hchain⟩ := List.isChain_cons.mp hchain
      refine List.nodup_cons.mpr ⟨fun hin => ?_, ih hsorted hchain⟩
      obtain ⟨e', he', hsp⟩ := List.mem_map.mp hin
      cases l with
      | nil => exact absurd he' List.not_mem_nil
      | cons e₁ l =>
          refine hhead e₁ rfl (symbols.index_inj ?_)
          have h₁ := hindex _ _ (hle e₁ List.mem_cons_self)
          have h₂ : symbols.index e₁.sp ≤ symbols.index e'.sp := by
            rcases List.mem_cons.mp he' with rfl | he'
            · exact Nat.le_refl _
            · exact hindex _ _ ((List.pairwise_cons.mp hsorted).1 e' he')
          rw [hsp] at h₂
          omega

/-! ## All states -/

/-- A state before and after its conflicts have been resolved. -/
structure State.Resolves (symbols : Symbols τ ν) (stp stp' : State τ ν) : Prop where
  cfp   : stp'.cfp = stp.cfp
  ap    : List.Forall₂ Action.Becomes (actionSort symbols stp.ap) stp'.ap
  clean : (∀ e ∈ stp'.ap, e.type.Clean) → ((actionSort symbols stp.ap).map Action.sp).Nodup

theorem resolveStates_spec {l l' : List (State τ ν)} {n : Nat} (h : resolveStates lemp symbols l = some (l', n)) :
    List.Forall₂ (State.Resolves symbols) l l' ∧ ((∀ stp ∈ l', ∀ e ∈ stp.ap, e.type.Clean) → n = 0) := by
  induction l generalizing l' n with
  | nil =>
      cases h
      exact ⟨.nil, fun _ => rfl⟩
  | cons stp rest ih =>
      rw [resolveStates] at h
      split at h
      · cases h
      · next ap n₁ hlist =>
          split at h
          · cases h
          · next rest' n₂ hrest =>
              cases h
              obtain ⟨hap, hquiet⟩ := resolveList_spec (Nat.le_refl _) hlist
              obtain ⟨hall, hzero⟩ := ih hrest
              refine ⟨.cons ⟨rfl, hap, fun hclean => ?_⟩ hall, fun hclean => ?_⟩
              · exact nodup_of_chain (msort_spec (actioncmp_compares symbols) stp.ap).1 (hquiet hclean).2
              · rw [(hquiet (hclean _ List.mem_cons_self)).1, hzero fun s hs => hclean s (List.mem_cons_of_mem _ hs)]

/-- The actions of the state `n`: the shifts of its transitions, reductions in front of what can follow a rule that has
    been read, and in the first state acceptance. -/
inductive Offers (lemp : Lemon τ ν) (sorted : List (State τ ν)) (n : Nat) : ActSym τ ν → ActType τ ν → Prop
  | shift {X : Sym τ ν} {m : Nat} (hgoto : IsGoto sorted n X m) {sym : ActSym τ ν} (hsym : sym ∈ shiftSyms X) :
      Offers lemp sorted n sym (.shift m)
  | reduce {p : List (Sym τ ν)} (hp : Path sorted p n) {rp : Rule τ ν} {a : Option τ}
      (h : Follows lemp p (rp, rp.nrhs) a) : Offers lemp sorted n (.terminal a) (.reduce rp)
  | accept (hn : n = 0) : Offers lemp sorted n (.nonterminal lemp.sp) .accept

theorem Offers.clean {lemp : Lemon τ ν} {sorted : List (State τ ν)} {n : Nat} {sym : ActSym τ ν} {type : ActType τ ν}
    (h : Offers lemp sorted n sym type) : type.Clean := by
  cases h <;> simp [ActType.Clean, ActType.num]

/-- For every symbol a state has one action at most. -/
def Deterministic (lemp : Lemon τ ν) (sorted : List (State τ ν)) : Prop :=
  ∀ n < sorted.length, ∀ sym type type', Offers lemp sorted n sym type → Offers lemp sorted n sym type' → type = type'

/-- More actions than this a state cannot have. -/
def Lemon.actionBound (lemp : Lemon τ ν) (symbols : Symbols τ ν) : Nat :=
  (lemp.rule.flatMap (fun rp => rp.rhs.flatMap shiftSyms)).length + lemp.rule.length * symbols.terminals.length + 1

/-- What an action is about. -/
def Action.key (ap : Action τ ν) : ActSym τ ν × ActType τ ν := (ap.sp, ap.type)

/-- What the accepting action adds. -/
def acceptActs (lemp : Lemon τ ν) (n : Nat) : List (ActSym τ ν × ActType τ ν) :=
  if n = 0 then [(.nonterminal lemp.sp, .accept)] else []

/-- The list of a state before conflicts are resolved. -/
def offered (lemp : Lemon τ ν) (symbols : Symbols τ ν) (n : Nat) (stp : State τ ν) : List (ActSym τ ν × ActType τ ν) :=
  acceptActs lemp n ++ (reduceActs symbols stp).reverse ++ stp.ap.map Action.key

omit [DecidableEq τ] [DecidableEq ν] in
theorem map_key_addActions (acts : List (ActSym τ ν × ActType τ ν)) (ap : List (Action τ ν)) (nact : Nat) :
    (addActions acts ap nact).map Action.key = acts.reverse ++ ap.map Action.key := by
  induction acts generalizing ap nact with
  | nil => rfl
  | cons x acts ih =>
      rw [addActions, ih, List.reverse_cons, List.append_assoc]
      rfl

variable (symbols) in
omit [DecidableEq ν] in
theorem addReduces_get (l : List (State τ ν)) (nact : Nat) {n : Nat} {stp : State τ ν} (hstp : l[n]? = some stp) :
    ∃ stp', (addReduces symbols l nact).1[n]? = some stp' ∧ stp'.cfp = stp.cfp ∧
      stp'.ap.map Action.key = (reduceActs symbols stp).reverse ++ stp.ap.map Action.key := by
  induction l generalizing nact n with
  | nil => exact absurd hstp (by simp)
  | cons stp₀ rest ih =>
      cases n with
      | zero =>
          obtain rfl := Option.some.inj hstp
          exact ⟨_, rfl, rfl, map_key_addActions _ _ _⟩
      | succ n => exact ih _ hstp

omit [DecidableEq ν] in
theorem length_addReduces (l : List (State τ ν)) (nact : Nat) : (addReduces symbols l nact).1.length = l.length := by
  induction l generalizing nact with
  | nil => rfl
  | cons stp rest ih => exact congrArg (· + 1) (ih _)

variable (lemp symbols) in
omit [DecidableEq ν] in
/-- The list that `FindActions` sorts. -/
theorem addAccept_get (l : List (State τ ν)) (nact nact' : Nat) {n : Nat} {stp : State τ ν} (hstp : l[n]? = some stp) :
    ∃ stp', (addAccept lemp (addReduces symbols l nact).1 nact')[n]? = some stp' ∧ stp'.cfp = stp.cfp ∧
      stp'.ap.map Action.key = offered lemp symbols n stp := by
  obtain ⟨stp₁, hstp₁, hcfp, hap⟩ := addReduces_get symbols l nact hstp
  unfold addAccept offered acceptActs
  by_cases hn : n = 0
  · subst hn
    refine ⟨{ stp₁ with ap := ⟨.nonterminal lemp.sp, .accept, nact'⟩ :: stp₁.ap }, ?_, hcfp, ?_⟩
    · rw [List.getElem?_modify_eq, hstp₁]
      rfl
    · rw [List.map_cons, hap, if_pos rfl, List.append_assoc]
      rfl
  · refine ⟨stp₁, ?_, hcfp, ?_⟩
    · rw [List.getElem?_modify_ne _ _ (Ne.symm hn), hstp₁]
    · rw [hap, if_neg hn, List.nil_append]

omit [DecidableEq ν] in
theorem mem_reduceActs {stp : State τ ν} {sym : ActSym τ ν} {type : ActType τ ν} :
    (sym, type) ∈ reduceActs symbols stp ↔
      ∃ cfp ∈ stp.cfp, cfp.rp.nrhs = cfp.dot ∧ ∃ j ∈ cfp.fws, sym = .terminal j ∧ type = .reduce cfp.rp := by
  unfold reduceActs
  rw [List.mem_flatMap]
  refine exists_congr fun cfp => and_congr_right fun _ => ?_
  unfold configActs
  split
  · next hdot =>
      simp only [List.mem_map, List.mem_filter, decide_eq_true_eq, Prod.mk.injEq]
      constructor
      · rintro ⟨j, ⟨-, hj⟩, rfl, rfl⟩
        exact ⟨hdot, j, hj, rfl, rfl⟩
      · rintro ⟨-, j, hj, rfl, rfl⟩
        exact ⟨j, ⟨symbols.mem_terminals j, hj⟩, rfl, rfl⟩
  · next hdot => exact ⟨fun h => absurd h List.not_mem_nil, fun h => absurd h.1 hdot⟩

section
variable {fs : FirstSets τ ν} {sorted sorted' : List (State τ ν)}

variable (symbols) in
/-- **The list of a state is what it offers.** -/
theorem mem_offered_iff (h : Automaton lemp fs sorted) (hfollow : Followed lemp sorted sorted') {n : Nat}
    {stp : State τ ν} (hstp : sorted'[n]? = some stp) (sym : ActSym τ ν) (type : ActType τ ν) :
    (sym, type) ∈ offered lemp symbols n stp ↔ Offers lemp sorted n sym type := by
  have hlt : n < sorted.length := hfollow.length ▸ (List.getElem?_eq_some_iff.mp hstp).1
  obtain ⟨stp₀, hstp₀⟩ : ∃ stp₀, sorted[n]? = some stp₀ := ⟨_, List.getElem?_eq_getElem hlt⟩
  obtain ⟨stp', hstp', hitems, hap, hfws⟩ := hfollow.state n stp₀ hstp₀
  obtain rfl := Option.some.inj (hstp.symm.trans hstp')
  have hshift : (sym, type) ∈ stp.ap.map Action.key ↔ ∃ X m, sym ∈ shiftSyms X ∧ type = .shift m ∧ IsGoto sorted n X m := by
    rw [← h.shift_iff hstp₀ sym type, hap, List.mem_map]
    exact exists_congr fun e => and_congr_right fun _ => Prod.mk.injEq _ _ _ _ ▸ Iff.rfl
  unfold offered acceptActs
  rw [List.mem_append, List.mem_append, List.mem_reverse, mem_reduceActs, hshift]
  constructor
  · rintro ((haccept | ⟨cfp, hcfp, hdot, j, hj, rfl, rfl⟩) | ⟨X, m, hsym, rfl, hgoto⟩)
    · split at haccept
      · next hn =>
          obtain ⟨rfl, rfl⟩ := Prod.mk.inj (List.mem_singleton.mp haccept)
          exact .accept hn
      · exact absurd haccept List.not_mem_nil
    · obtain ⟨p, hp, hf⟩ := (hfws cfp hcfp j).mp hj
      refine .reduce hp ?_
      rw [hdot]
      exact hf
    · exact .shift hgoto hsym
  · intro hoffer
    cases hoffer with
    | shift hgoto hsym => exact .inr ⟨_, _, hsym, rfl, hgoto⟩
    | @reduce p hp rp a hf =>
        have hin : (rp, rp.nrhs) ∈ itemsOf stp.cfp := hitems ▸ (h.mem_iff hp hstp₀ _).mpr hf.valid
        obtain ⟨cfp, hcfp, hitem⟩ := List.mem_map.mp hin
        obtain ⟨rfl, hdot⟩ := Prod.mk.inj hitem
        refine .inl (.inr ⟨cfp, hcfp, hdot.symm, a, (hfws cfp hcfp a).mpr ⟨p, hp, ?_⟩, rfl, rfl⟩)
        rw [hitem]
        exact hf
    | accept hn =>
        refine .inl (.inl ?_)
        rw [if_pos hn]
        exact List.mem_singleton.mpr rfl

/-! ## How many actions there are -/

variable (lemp) in
/-- Symbols behind dots are symbols of right-hand sides. -/
theorem length_shifts_le {l : List (Item τ ν)} (hl : ∀ k ∈ l, lemp.IsItem k) :
    ((shiftedSyms l).flatMap shiftSyms).length ≤ (lemp.rule.flatMap (fun rp => rp.rhs.flatMap shiftSyms)).length := by
  have hsub : shiftedSyms l ⊆ lemp.rule.flatMap Rule.rhs := by
    intro X hX
    obtain ⟨k, hk, hnext⟩ := mem_shiftedSyms.mp hX
    exact List.mem_flatMap.mpr ⟨k.1, (hl k hk).1, List.mem_of_getElem? hnext⟩
  obtain ⟨l', hperm, hsublist⟩ := (shiftGroups_nodup l []).subperm hsub
  calc ((shiftedSyms l).flatMap shiftSyms).length = (l'.flatMap shiftSyms).length :=
        (hperm.flatMap_right shiftSyms).length_eq.symm
    _ ≤ ((lemp.rule.flatMap Rule.rhs).flatMap shiftSyms).length := (hsublist.flatMap shiftSyms).length_le
    _ = (lemp.rule.flatMap (fun rp => rp.rhs.flatMap shiftSyms)).length := by rw [List.flatMap_assoc]

variable (lemp symbols) in
omit [DecidableEq ν] in
theorem length_reduceActs_le {stp : State τ ν} (hnd : (itemsOf stp.cfp).Nodup)
    (hitem : ∀ k ∈ itemsOf stp.cfp, lemp.IsItem k) :
    (reduceActs symbols stp).length ≤ lemp.rule.length * symbols.terminals.length := by
  have hcount : ∀ l : List (Config τ ν), (l.flatMap (configActs symbols)).length ≤
      (l.filter (fun cfp => cfp.rp.nrhs = cfp.dot)).length * symbols.terminals.length := by
    intro l
    induction l with
    | nil => simp
    | cons cfp l ih =>
        rw [List.flatMap_cons, List.length_append, List.filter_cons, configActs]
        by_cases hdot : cfp.rp.nrhs = cfp.dot
        · have hle : (symbols.terminals.filter (fun j => j ∈ cfp.fws)).length ≤ symbols.terminals.length :=
            List.length_filter_le _ _
          rw [if_pos hdot, if_pos (decide_eq_true hdot), List.length_map, List.length_cons, Nat.add_mul, Nat.one_mul]
          omega
        · rw [if_neg hdot, if_neg (by simpa using hdot), List.length_nil, Nat.zero_add]
          exact ih
  refine (hcount stp.cfp).trans (Nat.mul_le_mul_right _ ?_)
  -- the rules that have been read are all different
  have hnodup : ((stp.cfp.filter (fun cfp => cfp.rp.nrhs = cfp.dot)).map Config.rp).Nodup := by
    refine List.Nodup.map_on (fun c hc c' hc' heq => ?_) ((List.Nodup.of_map _ hnd).filter _)
    obtain ⟨hin, hdot⟩ := List.mem_filter.mp hc
    obtain ⟨hin', hdot'⟩ := List.mem_filter.mp hc'
    refine List.inj_on_of_nodup_map hnd hin hin' (Prod.ext heq ?_)
    rw [Config.item, Config.item, ← of_decide_eq_true hdot, ← of_decide_eq_true hdot', heq]
  have hsub : (stp.cfp.filter (fun cfp => cfp.rp.nrhs = cfp.dot)).map Config.rp ⊆ lemp.rule := by
    intro rp hrp
    obtain ⟨c, hc, rfl⟩ := List.mem_map.mp hrp
    exact (hitem c.item (List.mem_map.mpr ⟨c, (List.mem_filter.mp hc).1, rfl⟩)).1
  have hle := (hnodup.subperm hsub).length_le
  rwa [List.length_map] at hle

section
variable {fs : FirstSets τ ν} {sorted sorted' : List (State τ ν)}

variable (symbols) in
theorem length_offered_le (h : Automaton lemp fs sorted) (hfollow : Followed lemp sorted sorted') {n : Nat}
    {stp : State τ ν} (hstp : sorted'[n]? = some stp) : (offered lemp symbols n stp).length ≤ lemp.actionBound symbols := by
  have hlt : n < sorted.length := hfollow.length ▸ (List.getElem?_eq_some_iff.mp hstp).1
  obtain ⟨stp₀, hstp₀, -, hsp⟩ := h.done n hlt
  obtain ⟨stp', hstp', hitems, hap, -⟩ := hfollow.state n stp₀ hstp₀
  obtain rfl := Option.some.inj (hstp.symm.trans hstp')
  have hok := h.ok.state n stp₀ hstp₀
  have hshifts : stp.ap.length = ((shiftedSyms (itemsOf stp₀.cfp)).flatMap shiftSyms).length := by
    rw [hap, ← List.length_map Action.sp, hsp, List.length_reverse]
  have hone : (acceptActs lemp n).length ≤ 1 := by
    unfold acceptActs
    split <;> simp
  have hred := length_reduceActs_le lemp symbols (hitems ▸ hok.nodup : (itemsOf stp.cfp).Nodup)
    (hitems ▸ hok.isItem)
  have hsh := length_shifts_le lemp hok.isItem
  rw [offered, Lemon.actionBound]
  simp only [List.length_append, List.length_reverse, List.length_map]
  omega

/-! ## Determinism -/

/-- The states when `FindActions` is through: every action is one that its state offers, at some stage, and every offer
    is there. -/
structure Acted (lemp : Lemon τ ν) (sorted final : List (State τ ν)) : Prop where
  length : final.length = sorted.length
  short  : ∀ stp ∈ final, stp.ap.length < 2 ^ 30
  state  : ∀ (n : Nat) (stp : State τ ν), final[n]? = some stp →
    (∀ e ∈ stp.ap, ∃ type, Offers lemp sorted n e.sp type ∧ Stage type e.type) ∧
      ∀ sym type, Offers lemp sorted n sym type → ∃ e ∈ stp.ap, e.sp = sym ∧ Stage type e.type

omit [DecidableEq τ] [DecidableEq ν] in
theorem exists_becomes {l l' : List (Action τ ν)} (h : List.Forall₂ Action.Becomes l l') :
    (∀ e' ∈ l', ∃ e ∈ l, e.Becomes e') ∧ ∀ e ∈ l, ∃ e' ∈ l', e.Becomes e' := by
  induction h with
  | nil => exact ⟨fun _ h => absurd h List.not_mem_nil, fun _ h => absurd h List.not_mem_nil⟩
  | @cons e e' l l' he _ ih =>
      refine ⟨fun x hx => ?_, fun x hx => ?_⟩
      · rcases List.mem_cons.mp hx with rfl | hx
        · exact ⟨e, List.mem_cons_self, he⟩
        · obtain ⟨y, hy, hyx⟩ := ih.1 x hx
          exact ⟨y, List.mem_cons_of_mem _ hy, hyx⟩
      · rcases List.mem_cons.mp hx with rfl | hx
        · exact ⟨e', List.mem_cons_self, he⟩
        · obtain ⟨y, hy, hxy⟩ := ih.2 x hx
          exact ⟨y, List.mem_cons_of_mem _ hy, hxy⟩

/-- The list that is sorted, and the sorted list. -/
theorem sorted_offered (h : Automaton lemp fs sorted) (hfollow : Followed lemp sorted sorted')
    (hbound : lemp.actionBound symbols < 2 ^ 30) {n : Nat} {stp stp₁ : State τ ν} (hstp : sorted'[n]? = some stp)
    (hap : stp₁.ap.map Action.key = offered lemp symbols n stp) :
    stp₁.ap.length < 2 ^ 30 ∧ (actionSort symbols stp₁.ap).length = stp₁.ap.length ∧
      ((actionSort symbols stp₁.ap).map Action.key).Perm (offered lemp symbols n stp) := by
  have hlen : stp₁.ap.length < 2 ^ 30 := by
    have hle := length_offered_le symbols h hfollow hstp
    rw [← hap, List.length_map] at hle
    omega
  have hperm := msort_perm (actioncmp symbols) hlen
  refine ⟨hlen, hperm.length_eq, ?_⟩
  rw [← hap]
  exact hperm.map Action.key

theorem findActions_automaton (h : Automaton lemp fs sorted) (hfollow : Followed lemp sorted sorted')
    (hbound : lemp.actionBound symbols < 2 ^ 30) {nact : Nat} {r : ActionTable τ ν}
    (hrun : findActions lemp symbols sorted' nact = some r) : Acted lemp sorted r.sorted := by
  obtain ⟨⟨final, nconflict⟩, hres, rfl⟩ := Option.map_eq_some_iff.mp hrun
  obtain ⟨hall, -⟩ := resolveStates_spec hres
  have hlen : final.length = sorted.length := by
    rw [← hall.length_eq, addAccept, List.length_modify, length_addReduces, hfollow.length]
  -- the list that a state had before its conflicts were resolved
  have hsource : ∀ (n : Nat) (stp : State τ ν), final[n]? = some stp → ∃ (stp₀ stp₁ : State τ ν), sorted'[n]? = some stp₀ ∧
      stp₁.ap.map Action.key = offered lemp symbols n stp₀ ∧
      List.Forall₂ Action.Becomes (actionSort symbols stp₁.ap) stp.ap := by
    intro n stp hstp
    have hlt : n < sorted'.length := by
      have hlt' : n < final.length := (List.getElem?_eq_some_iff.mp hstp).1
      rw [hfollow.length]
      omega
    have hstp₀ := List.getElem?_eq_getElem hlt
    obtain ⟨stp₁, hstp₁, -, hap⟩ := addAccept_get lemp symbols sorted' nact
      (addReduces symbols sorted' nact).2 hstp₀
    obtain ⟨hlt₁, heq₁⟩ := List.getElem?_eq_some_iff.mp hstp₁
    obtain ⟨hlt₂, heq₂⟩ := List.getElem?_eq_some_iff.mp hstp
    have hbecomes := (hall.get hlt₁ hlt₂).ap
    rw [List.get_eq_getElem, List.get_eq_getElem, heq₁, heq₂] at hbecomes
    exact ⟨_, stp₁, hstp₀, hap, hbecomes⟩
  refine ⟨hlen, fun stp hin => ?_, fun n stp hstp => ?_⟩
  · obtain ⟨n, hstp⟩ := List.mem_iff_getElem?.mp hin
    obtain ⟨stp₀, stp₁, hstp₀, hap, hbecomes⟩ := hsource n stp hstp
    obtain ⟨hshort, hsame, -⟩ := sorted_offered h hfollow hbound hstp₀ hap
    rw [← hbecomes.length_eq, hsame]
    exact hshort
  obtain ⟨stp₀, stp₁, hstp₀, hap, hbecomes⟩ := hsource n stp hstp
  obtain ⟨-, -, hperm⟩ := sorted_offered h hfollow hbound hstp₀ hap
  have hmem := mem_offered_iff symbols h hfollow hstp₀
  obtain ⟨hback, hforth⟩ := exists_becomes hbecomes
  refine ⟨fun e he => ?_, fun sym type ho => ?_⟩
  · obtain ⟨e₀, he₀, hsp, -, htype⟩ := hback e he
    refine ⟨e₀.type, ?_, htype⟩
    rw [hsp]
    exact (hmem _ _).mp (hperm.mem_iff.mp (List.mem_map.mpr ⟨e₀, he₀, rfl⟩))
  · obtain ⟨e₀, he₀, hkey⟩ := List.mem_map.mp (hperm.mem_iff.mpr ((hmem sym type).mpr ho))
    obtain ⟨rfl, rfl⟩ := Prod.mk.inj hkey
    obtain ⟨e, he, hsp, -, htype⟩ := hforth e₀ he₀
    exact ⟨e, he, hsp, htype⟩

end

end

end

end LemonC
end CSamples
