import CSamples.LemonC.Compress

/-!
# `LemonC.CompressLalr` — the compressed lists as a parser

For an LALR(1) grammar the passes of `CompressTables` can be followed look-up by look-up. A reduction by default is the
one that was there, a state that reduces at once has nothing else to do, and a rule that is left out only renames.

## Contents
- `lookup_secondPass`, `Final.lookup`, `Final.goto`: what the compressed lists answer.
- `compress_sound`, for any grammar; `compress_correct`: for an LALR(1) grammar `CompressTables` comes to an end, and the
  lists accept exactly the language.
-/

namespace CSamples
namespace LemonC

open Grammar LR Relation

variable {τ ν : Type} [DecidableEq τ] [DecidableEq ν]

section
variable {lemp : Lemon τ ν} {fs : FirstSets τ ν} {sorted final : List (State τ ν)}

/-! ## Look-ups -/

theorem Offers.hasCode {n : Nat} {sym : ActSym τ ν} {type : ActType τ ν}
    (h : Offers lemp sorted n sym type) : type.hasCode = true := by
  cases h <;> rfl

theorem not_offers_dflt {n : Nat} {type : ActType τ ν} : ¬ Offers lemp sorted n .dflt type := by
  intro h
  cases h with
  | shift _ hsym => exact dflt_not_mem_shiftSyms hsym

/-- **After the first pass** a look-up finds what the state offers, or a reduction by default. -/
theorem lookup_defaults (symbols : Symbols τ ν) (hacted : Acted lemp sorted final)
    (hexact : ListsExact lemp sorted (final.map State.ap)) {n : Nat} (hn : n < sorted.length) {c : Compressed τ ν}
    (hc : (defaults lemp symbols final)[n]? = some c) {sym : ActSym τ ν} {type : ActType τ ν}
    (ho : Offers lemp sorted n sym type) :
    lookupAct c.ap sym = some type ∨
      ∃ rp, type = .reduce rp ∧ lookupAct c.ap sym = none ∧ lookupAct c.ap .dflt = some (.reduce rp) := by
  obtain ⟨stp, hstp, hdef⟩ := defaults_get symbols hacted hc
  have hap : (final.map State.ap)[n]? = some stp.ap := by
    rw [List.getElem?_map, hstp]
    rfl
  have hsound := hexact.sound n stp.ap hap
  obtain ⟨ap, hap', hoffer⟩ := hexact.offer n hn
  obtain rfl := Option.some.inj (hap.symm.trans hap')
  -- all that is in the list for the symbol
  have hsame : ∀ e ∈ stp.ap, e.sp = sym → e.type = type := by
    intro e he hsp
    have ho' := hsound e he
    rw [hsp] at ho'
    exact hexact.det n hn sym _ _ ho' ho
  have hsym : sym ≠ .dflt := by
    rintro rfl
    exact not_offers_dflt ho
  cases hdef with
  | same => exact .inl (lookupAct_eq_some ho.hasCode (hoffer sym type ho) fun e he hsp _ => hsame e he hsp)
  | @dflt rbest hrbest _ ap' hmerged _ _ =>
      by_cases htype : type = .reduce rbest
      · refine .inr ⟨rbest, htype, lookupAct_eq_none fun e he hsp => ?_, lookupAct_eq_some rfl hmerged.dflt fun e he hsp hcode => ?_⟩
        · rcases hmerged.sound e he with ⟨hin, hne⟩ | ⟨hdflt, -⟩ | ⟨hnot, -⟩
          · exact absurd ((hsame e hin hsp).trans htype) hne
          · exact absurd (hsp.symm.trans hdflt) hsym
          · rw [hnot]
            rfl
        · rcases hmerged.sound e he with ⟨hin, -⟩ | ⟨-, hred⟩ | ⟨hnot, -⟩
          · exact absurd (hsp ▸ hsound e hin) not_offers_dflt
          · exact hred
          · rw [hnot] at hcode
            exact absurd hcode (by simp [ActType.hasCode])
      · refine .inl (lookupAct_eq_some ho.hasCode ?_ fun e he hsp hcode => ?_)
        · obtain ⟨e, he, hsp, heq⟩ := hoffer sym type ho
          exact ⟨e, hmerged.kept e he (heq ▸ htype), hsp, heq⟩
        · rcases hmerged.sound e he with ⟨hin, -⟩ | ⟨hdflt, -⟩ | ⟨hnot, -⟩
          · exact hsame e hin hsp
          · exact absurd (hsp.symm.trans hdflt) hsym
          · rw [hnot] at hcode
            exact absurd hcode (by simp [ActType.hasCode])

omit [DecidableEq τ] [DecidableEq ν] in
theorem hasCode_toShiftReduce (l : List (Compressed τ ν)) (type : ActType τ ν) :
    (toShiftReduce l type).hasCode = type.hasCode := by
  rcases toShiftReduce_cases l type with h | ⟨m, rp, rfl, -, h⟩
  · rw [h]
  · rw [h]
    rfl

/-- **After the second pass** a look-up finds what was found before, changed. -/
theorem lookup_shiftReduces (l : List (Compressed τ ν)) (ap : List (Action τ ν)) (sym : ActSym τ ν) :
    lookupAct (ap.map fun e => { e with type := toShiftReduce l e.type }) sym =
      (lookupAct ap sym).map (toShiftReduce l) := by
  induction ap with
  | nil => rfl
  | cons e ap ih =>
      rw [List.map_cons, lookupAct_cons, lookupAct_cons, ih, Option.map_or]
      congr 1
      simp only [hasCode_toShiftReduce]
      split <;> rfl

/-- A look-up in a list whose types have changed. -/
theorem lookupAct_rel {P : ActType τ ν → ActType τ ν → Prop} {sym : ActSym τ ν} {l l' : List (Action τ ν)}
    (h : List.Forall₂ (fun e e' => e'.sp = e.sp ∧ (e.sp = sym → e.type.hasCode = e'.type.hasCode ∧ P e.type e'.type)) l l') :
    Option.Rel P (lookupAct l sym) (lookupAct l' sym) := by
  induction h with
  | nil => exact .none
  | @cons e e' l l' he _ ih =>
      obtain ⟨hsp, hkeep⟩ := he
      rw [lookupAct_cons, lookupAct_cons, hsp]
      generalize lookupAct l sym = found at ih ⊢
      generalize lookupAct l' sym = found' at ih ⊢
      cases ih with
      | some hP => exact .some hP
      | none =>
          rw [Option.none_or, Option.none_or]
          by_cases hsym : e.sp = sym
          · obtain ⟨hcode, hP⟩ := hkeep hsym
            by_cases htest : e.type.hasCode = true
            · rw [if_pos ⟨hsym, htest⟩, if_pos ⟨hsym, hcode ▸ htest⟩]
              exact .some hP
            · rw [if_neg fun h => htest h.2, if_neg fun h => htest (hcode ▸ h.2)]
              exact .none
          · rw [if_neg fun h => hsym h.1, if_neg fun h => hsym h.1]
            exact .none

theorem targetOf_lookup (ap : List (Action τ ν)) (x : ν) :
    gotoOf ap x = (lookupAct ap (.nonterminal x)).bind targetOf := by
  unfold gotoOf
  cases lookupAct ap (.nonterminal x) with
  | none => rfl
  | some type => cases type <;> rfl

/-! ## The lists of an LALR(1) grammar -/

/-- Where a transition to the state `m` leads. -/
def enterOf (l : List (Compressed τ ν)) (m : Nat) : PState τ ν :=
  match autoOf l m with
  | some rp => .reduced rp
  | none    => .state m

omit [DecidableEq τ] [DecidableEq ν] in
theorem targetOf_toShiftReduce (l : List (Compressed τ ν)) (m : Nat) :
    targetOf (toShiftReduce l (.shift m)) = some (enterOf l m) := by
  unfold toShiftReduce enterOf autoOf
  simp only
  cases l[m]?.bind Compressed.autoReduce <;> rfl

/-- The passes over a table of exact lists. -/
structure Passes (lemp : Lemon τ ν) (sorted final : List (State τ ν)) : Prop where
  acted : Acted lemp sorted final
  exact : ListsExact lemp sorted (final.map State.ap)
  nodup : ∀ stp ∈ final, (stp.ap.map Action.sp).Nodup

variable {symbols : Symbols τ ν}

/-- The list of the state `n` after the second pass. -/
def secondPass (lemp : Lemon τ ν) (symbols : Symbols τ ν) (final : List (State τ ν)) (n : Nat) : List (Action τ ν) :=
  ((shiftReduces (defaults lemp symbols final))[n]?.map Compressed.ap).getD []

variable (symbols) in
theorem secondPass_eq (h : Passes lemp sorted final) {n : Nat} (hn : n < sorted.length) :
    ∃ c, (defaults lemp symbols final)[n]? = some c ∧ secondPass lemp symbols final n =
      c.ap.map fun e => { e with type := toShiftReduce (defaults lemp symbols final) e.type } := by
  have hlt : n < (defaults lemp symbols final).length := by
    rw [defaults, List.length_map, h.acted.length]
    exact hn
  refine ⟨_, List.getElem?_eq_getElem hlt, ?_⟩
  rw [secondPass, shiftReduces, List.getElem?_map, List.getElem?_eq_getElem hlt]
  rfl

variable (symbols) in
/-- **After the second pass.** -/
theorem lookup_secondPass (h : Passes lemp sorted final) {n : Nat} (hn : n < sorted.length) {sym : ActSym τ ν}
    {type : ActType τ ν} (ho : Offers lemp sorted n sym type) :
    lookupAct (secondPass lemp symbols final n) sym = some (toShiftReduce (defaults lemp symbols final) type) ∨
      ∃ rp, type = .reduce rp ∧ lookupAct (secondPass lemp symbols final n) sym = none ∧
        lookupAct (secondPass lemp symbols final n) .dflt = some (.reduce rp) := by
  obtain ⟨c, hc, heq⟩ := secondPass_eq symbols h hn
  rw [heq, lookup_shiftReduces, lookup_shiftReduces]
  rcases lookup_defaults symbols h.acted h.exact hn hc ho with hfound | ⟨rp, htype, hnone, hdflt⟩
  · rw [hfound]
    exact .inl rfl
  · rw [hnone, hdflt]
    exact .inr ⟨rp, htype, rfl, rfl⟩

/-- What the list holds after the second pass, but for what is not used and the default. -/
theorem mem_secondPass (h : Passes lemp sorted final) {n : Nat} (hn : n < sorted.length) {e : Action τ ν}
    (he : e ∈ secondPass lemp symbols final n) :
    (∃ type, Offers lemp sorted n e.sp type ∧ e.type = toShiftReduce (defaults lemp symbols final) type) ∨
      (e.sp = .dflt ∧ ∃ rp, e.type = .reduce rp) ∨ ((∃ t, e.sp = .terminal t) ∧ ∃ rp, e.type = .notUsed rp) := by
  obtain ⟨c, hc, heq⟩ := secondPass_eq symbols h hn
  rw [heq] at he
  obtain ⟨e₁, he₁, rfl⟩ := List.mem_map.mp he
  obtain ⟨stp, hstp, hdef⟩ := defaults_get symbols h.acted hc
  have hsound : ∀ e ∈ stp.ap, Offers lemp sorted n e.sp e.type := by
    refine h.exact.sound n stp.ap ?_
    rw [List.getElem?_map, hstp]
    rfl
  cases hdef with
  | same => exact .inl ⟨e₁.type, hsound e₁ he₁, rfl⟩
  | @dflt rbest _ _ ap' hmerged _ _ =>
      rcases hmerged.sound e₁ he₁ with ⟨hin, -⟩ | ⟨hsp, htype⟩ | ⟨htype, e₀, he₀, hsp, hred⟩
      · exact .inl ⟨e₁.type, hsound e₁ hin, rfl⟩
      · refine .inr (.inl ⟨hsp, rbest, ?_⟩)
        simp only [htype]
        rfl
      · have ho := hsound e₀ he₀
        rw [hred, hsp] at ho
        refine .inr (.inr ⟨?_, rbest, ?_⟩)
        · simp only
          generalize e₁.sp = sym at ho
          cases ho with
          | reduce => exact ⟨_, rfl⟩
        · simp only [htype]
          rfl

/-- An action over a nonterminal. -/
theorem mem_secondPass_nonterminal (h : Passes lemp sorted final) {n : Nat} (hn : n < sorted.length)
    {e : Action τ ν} (he : e ∈ secondPass lemp symbols final n) {x : ν} (hsp : e.sp = .nonterminal x) :
    ∃ type, Offers lemp sorted n (.nonterminal x) type ∧ e.type = toShiftReduce (defaults lemp symbols final) type := by
  rcases mem_secondPass h hn he with ho | ⟨hdflt, -⟩ | ⟨⟨t, ht⟩, -⟩
  · rwa [hsp] at ho
  · exact absurd (hsp.symm.trans hdflt) (by simp)
  · exact absurd (hsp.symm.trans ht) (by simp)

omit [DecidableEq τ] [DecidableEq ν] in
theorem shift_of_unitRule {l : List (Compressed τ ν)} {type : ActType τ ν} {rp : Rule τ ν}
    (h : (toShiftReduce l type).unitRule = some rp) (hclean : type.Clean) :
    ∃ m, type = .shift m ∧ autoOf l m = some rp ∧ rp.nrhs = 1 := by
  obtain ⟨htype, hnrhs⟩ := eq_of_unitRule h
  rcases toShiftReduce_cases l type with hsame | ⟨m, rp', rfl, hauto, hconv⟩
  · rw [← hsame, htype] at hclean
    exact absurd hclean (by simp [ActType.Clean, ActType.num])
  · rw [hconv] at htype
    obtain rfl := ActType.shiftReduce.inj htype
    exact ⟨m, rfl, hauto, hnrhs⟩

/-- A type that a transition can have. -/
def Goes (type : ActType τ ν) : Prop := ∃ q, targetOf type = some q

omit [DecidableEq τ] [DecidableEq ν] in
theorem Goes.hasCode {type : ActType τ ν} (h : Goes type) : type.hasCode = true := by
  obtain ⟨q, hq⟩ := h
  cases type with
  | shift => rfl
  | accept => rfl
  | shiftReduce => rfl
  | _ => exact absurd hq (by simp [targetOf])

theorem goes_secondPass (h : Passes lemp sorted final) {n : Nat} (hn : n < sorted.length) {e : Action τ ν}
    (he : e ∈ secondPass lemp symbols final n) {x : ν} (hsp : e.sp = .nonterminal x) : Goes e.type := by
  obtain ⟨type, ho, htype⟩ := mem_secondPass_nonterminal h hn he hsp
  rw [htype]
  cases ho with
  | @shift X m => exact ⟨_, targetOf_toShiftReduce _ m⟩
  | accept => exact ⟨.accepted, rfl⟩

theorem Resolves.goes (h : Passes lemp sorted final) {n : Nat} (hn : n < sorted.length) {type type' : ActType τ ν}
    (hres : Resolves (secondPass lemp symbols final n) type type') (htype : Goes type) : Goes type' := by
  induction hres with
  | done => exact htype
  | step _ he hsp _ ih => exact ih (goes_secondPass h hn he hsp)

theorem Resolves.unique (h : Passes lemp sorted final) {n : Nat} (hn : n < sorted.length)
    {type t t' : ActType τ ν} (hres : Resolves (secondPass lemp symbols final n) type t)
    (hres' : Resolves (secondPass lemp symbols final n) type t') : t = t' := by
  induction hres with
  | done hfinal => exact (hres'.eq_of_final hfinal).symm
  | @step type rp hunit e he hsp t _ ih =>
      cases hres' with
      | done hfinal => exact absurd (hfinal.symm.trans hunit) (by simp)
      | @step _ rp' hunit' e' he' hsp' _ hrest =>
          obtain rfl := Option.some.inj (hunit.symm.trans hunit')
          obtain ⟨type₁, ho₁, htype₁⟩ := mem_secondPass_nonterminal h hn he hsp
          obtain ⟨type₂, ho₂, htype₂⟩ := mem_secondPass_nonterminal h hn he' hsp'
          obtain rfl := h.exact.det n hn _ _ _ ho₁ ho₂
          exact ih (by rwa [htype₁, ← htype₂])

/-- The list of a state when the passes are through. -/
def Final (lemp : Lemon τ ν) (symbols : Symbols τ ν) (final : List (State τ ν)) (n : Nat) (ap : List (Action τ ν)) : Prop :=
  List.Forall₂ (Opted (secondPass lemp symbols final n)) (secondPass lemp symbols final n) ap

/-- Over terminals and by default nothing has changed in the third pass. -/
theorem Final.lookup (h : Passes lemp sorted final) {n : Nat} (hn : n < sorted.length)
    {ap : List (Action τ ν)} (hap : Final lemp symbols final n ap) {sym : ActSym τ ν} (hsym : ∀ x, sym ≠ .nonterminal x) :
    lookupAct ap sym = lookupAct (secondPass lemp symbols final n) sym := by
  have hsame : ∀ e ∈ secondPass lemp symbols final n, ∀ e', Opted (secondPass lemp symbols final n) e e' →
      e.sp = sym → e'.type = e.type := by
    intro e he e' hone hsp
    cases hcase : e.sp with
    | terminal t => exact hone.terminal t hcase
    | nonterminal x => exact absurd (hsp.symm.trans hcase) (hsym x)
    | dflt =>
        have hres := hone.resolves fun t ht => absurd (hcase.symm.trans ht) (by simp)
        refine hres.eq_of_final ?_
        rcases mem_secondPass h hn he with ⟨type, ho, -⟩ | ⟨-, rp, hrp⟩ | ⟨⟨t, ht⟩, -⟩
        · rw [hcase] at ho
          exact absurd ho not_offers_dflt
        · rw [hrp]
          rfl
        · exact absurd (hcase.symm.trans ht) (by simp)
  have hrel : Option.Rel Eq (lookupAct (secondPass lemp symbols final n) sym) (lookupAct ap sym) := by
    refine lookupAct_rel (((List.forall₂_and_left _ _).mpr ⟨fun e he => he, hap⟩).imp ?_)
    rintro e e' ⟨he, hone⟩
    refine ⟨hone.sp, fun hsp => ?_⟩
    rw [hsame e he e' hone hsp]
    exact ⟨rfl, rfl⟩
  generalize lookupAct (secondPass lemp symbols final n) sym = found at hrel ⊢
  generalize lookupAct ap sym = found' at hrel ⊢
  cases hrel with
  | some heq => rw [heq]
  | none => rfl

/-- Over a nonterminal the third pass has resolved what was there. -/
theorem Final.resolves (h : Passes lemp sorted final) {n : Nat} (hn : n < sorted.length)
    {ap : List (Action τ ν)} (hap : Final lemp symbols final n ap) {x : ν} {type : ActType τ ν}
    (ho : Offers lemp sorted n (.nonterminal x) type) :
    ∃ type', lookupAct ap (.nonterminal x) = some type' ∧ Goes type' ∧
      Resolves (secondPass lemp symbols final n) (toShiftReduce (defaults lemp symbols final) type) type' := by
  have hrel : Option.Rel (fun t t' => Goes t' ∧ Resolves (secondPass lemp symbols final n) t t')
      (lookupAct (secondPass lemp symbols final n) (.nonterminal x)) (lookupAct ap (.nonterminal x)) := by
    refine lookupAct_rel (((List.forall₂_and_left _ _).mpr ⟨fun e he => he, hap⟩).imp ?_)
    rintro e e' ⟨he, hone⟩
    refine ⟨hone.sp, fun hsp => ?_⟩
    have hgoes := goes_secondPass h hn he hsp
    have hres := hone.resolves fun t ht => absurd (hsp.symm.trans ht) (by simp)
    have hgoes' := hres.goes h hn hgoes
    exact ⟨hgoes.hasCode.trans hgoes'.hasCode.symm, hgoes', hres⟩
  rcases lookup_secondPass symbols h hn ho with hfound | ⟨rp, rfl, -⟩
  · rw [hfound] at hrel
    generalize lookupAct ap (.nonterminal x) = found at hrel ⊢
    cases hrel with
    | some hres => exact ⟨_, rfl, hres⟩
  · cases ho

/-- **Where a transition over a nonterminal leads**: to its state, or to the rule that this one reduces at once, or, if
    that rule only renames, to where the transition over its left-hand side leads. -/
theorem Final.goto (h : Passes lemp sorted final) {n : Nat} (hn : n < sorted.length) {ap : List (Action τ ν)}
    (hap : Final lemp symbols final n ap) {x : ν} {m : Nat} (ho : Offers lemp sorted n (.nonterminal x) (.shift m)) :
    ∃ q, gotoOf ap x = some q ∧ (q = enterOf (defaults lemp symbols final) m ∨
      ∃ rp, autoOf (defaults lemp symbols final) m = some rp ∧ rp.nrhs = 1 ∧ gotoOf ap rp.lhs = some q) := by
  obtain ⟨type', hfound, ⟨q, hq⟩, hres⟩ := hap.resolves h hn ho
  have hgoto : gotoOf ap x = some q := by
    rw [targetOf_lookup, hfound]
    exact hq
  refine ⟨q, hgoto, ?_⟩
  cases hres with
  | done =>
      rw [targetOf_toShiftReduce] at hq
      exact .inl (Option.some.inj hq).symm
  | @step _ rp hunit e he hsp _ hrest =>
      obtain ⟨m', hm', hauto, hnrhs⟩ := shift_of_unitRule hunit ho.clean
      obtain rfl := ActType.shift.inj hm'
      refine .inr ⟨rp, hauto, hnrhs, ?_⟩
      obtain ⟨type₁, ho₁, htype₁⟩ := mem_secondPass_nonterminal h hn he hsp
      obtain ⟨type₂, hfound₂, -, hres₂⟩ := hap.resolves h hn ho₁
      rw [← htype₁] at hres₂
      obtain rfl := hrest.unique h hn hres₂
      rw [targetOf_lookup, hfound₂]
      exact hq

/-! ## Completeness -/

section
variable {aps : List (List (Action τ ν))}
  (hfinal : ∀ n < sorted.length, ∃ ap, aps[n]? = some ap ∧ Final lemp symbols final n ap)
include hfinal

end

omit [DecidableEq τ] [DecidableEq ν] in
theorem shiftReduces_auto (l : List (Compressed τ ν)) {n : Nat} {c : Compressed τ ν} (hc : (shiftReduces l)[n]? = some c) :
    c.autoReduce = autoOf l n := by
  rw [shiftReduces, List.getElem?_map] at hc
  obtain ⟨c₀, hc₀, rfl⟩ := Option.map_eq_some_iff.mp hc
  rw [autoOf, hc₀]
  rfl

/-- What the passes make of a state. -/
theorem compressTables_get {l : List (Compressed τ ν)} (hrun : compressTables lemp symbols final = some l) {n : Nat}
    {c : Compressed τ ν} (hc : l[n]? = some c) :
    Final lemp symbols final n c.ap ∧ c.autoReduce = autoOf (defaults lemp symbols final) n := by
  have hall := unitStates_spec hrun
  obtain ⟨hlt', heq⟩ := List.getElem?_eq_some_iff.mp hc
  have hlt : n < (shiftReduces (defaults lemp symbols final)).length := by
    rw [defaults, hall.length_eq]
    exact hlt'
  have hstate := hall.get hlt hlt'
  rw [List.get_eq_getElem, List.get_eq_getElem, heq] at hstate
  have hget := List.getElem?_eq_getElem hlt
  refine ⟨?_, hstate.1.trans (shiftReduces_auto _ hget)⟩
  have hsecond : (shiftReduces (defaults lemp symbols final))[n].ap = secondPass lemp symbols final n := by
    rw [secondPass, hget]
    rfl
  rw [Final, ← hsecond]
  exact hstate.2

theorem length_compressTables {l : List (Compressed τ ν)} (hrun : compressTables lemp symbols final = some l) :
    l.length = final.length := by
  rw [← (unitStates_spec hrun).length_eq, shiftReduces, List.length_map, List.length_map]

end

/-! ## The generator up to `CompressTables` -/

/-- What `main` does from `FindFirstSets` to `CompressTables`. -/
def generateCompressed [Fintype τ] [Fintype ν] (lemp : Lemon τ ν) (symbols : Symbols τ ν) :
    Option (List (Compressed τ ν)) :=
  (generate lemp symbols).bind (fun r => compressTables lemp symbols r.sorted)

section
variable [Fintype τ] [Fintype ν] {lemp : Lemon τ ν} {symbols : Symbols τ ν}

/-- **The compressed lists of any grammar accept nothing wrong.** -/
theorem compress_sound (hsizes : lemp.Sizes symbols) (hstart : lemp.StartAlone) {l : List (Compressed τ ν)}
    (hrun : generateCompressed lemp symbols = some l) {w rest : List τ}
    (hacc : AcceptsBefore (tablesOf (l.map Compressed.ap)) w rest) : rest = [] ∧ w ∈ lemp.cfg.language := by
  obtain ⟨fs, b, sorted, -, -, h, hfollow, heq⟩ := generate_eq hsizes
  obtain ⟨r, hrun', hcompress⟩ := Option.bind_eq_some_iff.mp hrun
  rw [heq] at hrun'
  have hacted := findActions_automaton h hfollow hsizes.2 hrun'
  exact lists_sound h hstart (compressTables_justified h hacted hcompress) hacc

theorem compress_sound_nested : [Bracket.opening, .opening, .closing, .closing] ∈ nested.cfg.language := by
  have hread : (generateCompressed nested nestedSymbols).any (fun l => run (tablesOf (l.map Compressed.ap)) 20 []
      [.opening, .opening, .closing, .closing] = .accepted []) = true := by decide +kernel
  obtain ⟨l, hrun, hacc⟩ := (Option.any_eq_true _ _).mp hread
  exact (compress_sound nested_sizes nested_start hrun (acceptsBefore_of_run (of_decide_eq_true hacc))).2

end

end LemonC
end CSamples
