import CSamples.LemonC.Units

/-!
# `LemonC.Compress` — `CompressTables`

The most frequent reduction of a state becomes its default; a state with nothing but the default is entered and left at
once (`SHIFTREDUCE`); and where that happens for a rule with one nonterminal and no code, the transition over the
nonterminal becomes the one over the left-hand side.

## Contents
- **Model.** `bestReduce`, `setDefault`, `toShiftReduce`, `unitList`, `compressTables`.
- **Spec.** `Defaulted`, `toShiftReduce_cases` and `Opted`, what the three passes do to a state; `UnitsEnd`, where the
  third one ends. `compressTables_justified`: nothing wrong gets into the lists.
-/

namespace CSamples
namespace LemonC

open Grammar LR Relation Fixpoint

variable {τ ν : Type} [DecidableEq τ] [DecidableEq ν]

/-! ## Defaults -/

/-- What `CompressTables` leaves of a state: its actions, and `pDfltReduce` where `autoReduce` is set. -/
structure Compressed (τ ν : Type) where
  ap         : List (Action τ ν)
  autoReduce : Option (Rule τ ν)

/-- The inner loop that counts the actions with the rule `rp`. -/
def countReduce (rbest : Option (Rule τ ν)) (rp : Rule τ ν) : List (Action τ ν) → Nat
  | []          => 0
  | ap2 :: rest =>
      match ap2.type with
      | .reduce rp2 =>
          if rbest = some rp2 then countReduce rbest rp rest
          else if rp2 = rp then countReduce rbest rp rest + 1
          else countReduce rbest rp rest
      | _           => countReduce rbest rp rest

/-- The loop that finds `rbest`, with `nbest`. -/
def bestReduce (lemp : Lemon τ ν) : List (Action τ ν) → Nat → Option (Rule τ ν) → Nat × Option (Rule τ ν)
  | [], nbest, rbest         => (nbest, rbest)
  | ap :: rest, nbest, rbest =>
      match ap.type with
      | .reduce rp =>
          if lemp.lhsStart rp then bestReduce lemp rest nbest rbest
          else if rbest = some rp then bestReduce lemp rest nbest rbest
          else
            let n := 1 + countReduce rbest rp rest
            if nbest < n then bestReduce lemp rest n (some rp) else bestReduce lemp rest nbest rbest
      | _          => bestReduce lemp rest nbest rbest

/-- `usesWildcard` -/
def usesWildcard (lemp : Lemon τ ν) (ap : List (Action τ ν)) : Bool :=
  ap.any fun ap =>
    match ap.type, lemp.wildcard with
    | .shift _, some t => ap.sp = .terminal (some t)
    | _, _             => false

/-- The loop that turns further reductions by `rbest` off. -/
def dropReduce (rbest : Rule τ ν) (ap : Action τ ν) : Action τ ν :=
  if ap.type = .reduce rbest then { ap with type := .notUsed rbest } else ap

/-- The first reduction by `rbest` gets the symbol `{default}`, the others are not used. -/
def mergeDefault (rbest : Rule τ ν) : List (Action τ ν) → List (Action τ ν)
  | []         => []
  | ap :: rest =>
      if ap.type = .reduce rbest then { ap with sp := .dflt } :: rest.map (dropReduce rbest)
      else ap :: mergeDefault rbest rest

/-- An action that a state with `autoReduce` may have. -/
def ActType.onlyReduces (rbest : Rule τ ν) : ActType τ ν → Bool
  | .shift _   => false
  | .reduce rp => rp = rbest
  | _          => true

/-- The first pass, for one state. -/
def setDefault (lemp : Lemon τ ν) (symbols : Symbols τ ν) (stp : State τ ν) : Compressed τ ν :=
  match bestReduce lemp stp.ap 0 none with
  | (_, none)           => ⟨stp.ap, none⟩
  | (nbest, some rbest) =>
      if nbest < 1 ∨ usesWildcard lemp stp.ap then ⟨stp.ap, none⟩
      else
        let ap := actionSort symbols (mergeDefault rbest stp.ap)
        ⟨ap, if ap.all (fun ap => ap.type.onlyReduces rbest) then some rbest else none⟩

/-! ## Shifts to where a reduction comes at once -/

/-- The second pass, for the type of one action. -/
def toShiftReduce (sorted : List (Compressed τ ν)) : ActType τ ν → ActType τ ν
  | .shift stp =>
      match sorted[stp]?.bind Compressed.autoReduce with
      | some rp => .shiftReduce rp
      | none    => .shift stp
  | type       => type

/-- The second pass. -/
def shiftReduces (sorted : List (Compressed τ ν)) : List (Compressed τ ν) :=
  sorted.map fun stp => { stp with ap := stp.ap.map fun ap => { ap with type := toShiftReduce sorted ap.type } }

/-! ## Rules that only rename -/

/-- The rule of a SHIFTREDUCE that can be left out. -/
def ActType.unitRule : ActType τ ν → Option (Rule τ ν)
  | .shiftReduce rp => if rp.noCode ∧ rp.nrhs = 1 then some rp else none
  | _               => none

/-- The loop of the third pass on one action, among the other actions of its state. `none` is a failed assertion, or a
    loop that does not end: with more rounds than there are rules, one of them has come twice. -/
def unitType (others : List (Action τ ν)) : Nat → ActType τ ν → Option (ActType τ ν)
  | 0, _      => none
  | n+1, type =>
      match type.unitRule with
      | none    => some type
      | some rp =>
          match others.find? (fun ap2 => ap2.sp = .nonterminal rp.lhs) with
          | none     => none
          | some ap2 => unitType others n ap2.type

/-- The third pass on one action: terminals are left alone. -/
def unitAction (others : List (Action τ ν)) (n : Nat) (ap : Action τ ν) : Option (Action τ ν) :=
  match ap.sp with
  | .terminal _ => some ap
  | _           => (unitType others n ap.type).map (fun type => { ap with type := type })

/-- The third pass on the list of a state; the first list has been done. -/
def unitList (n : Nat) : List (Action τ ν) → List (Action τ ν) → Option (List (Action τ ν))
  | done, []         => some done
  | done, ap :: rest =>
      match unitAction (done ++ rest) n ap with
      | none     => none
      | some ap' => unitList n (done ++ [ap']) rest

/-- The third pass. -/
def unitStates (n : Nat) : List (Compressed τ ν) → Option (List (Compressed τ ν))
  | []          => some []
  | stp :: rest =>
      match unitList n [] stp.ap with
      | none    => none
      | some ap =>
          match unitStates n rest with
          | none       => none
          | some rest' => some ({ stp with ap := ap } :: rest')

/-- `CompressTables` -/
def compressTables (lemp : Lemon τ ν) (symbols : Symbols τ ν) (sorted : List (State τ ν)) :
    Option (List (Compressed τ ν)) :=
  unitStates (lemp.rule.length + 1) (shiftReduces (sorted.map (setDefault lemp symbols)))

/-! ## The first pass -/

section
variable {lemp : Lemon τ ν} {symbols : Symbols τ ν}

/-- The rule that is found is that of some reduction. -/
theorem bestReduce_spec (ap₀ : List (Action τ ν)) {ap : List (Action τ ν)} (hsub : ap ⊆ ap₀) {nbest n : Nat}
    {rbest : Option (Rule τ ν)} {rp : Rule τ ν}
    (hrbest : ∀ r, rbest = some r → (∃ e ∈ ap₀, e.type = .reduce r) ∧ r.lhs ≠ lemp.sp)
    (h : bestReduce lemp ap nbest rbest = (n, some rp)) : (∃ e ∈ ap₀, e.type = .reduce rp) ∧ rp.lhs ≠ lemp.sp := by
  induction ap generalizing nbest rbest with
  | nil => exact hrbest rp (Prod.mk.inj h).2
  | cons e ap ih =>
      have hsub' : ap ⊆ ap₀ := fun x hx => hsub (List.mem_cons_of_mem _ hx)
      rw [bestReduce] at h
      split at h
      · next r hr =>
          split at h
          · exact ih hsub' hrbest h
          · next hlhs =>
              split at h
              · exact ih hsub' hrbest h
              · simp only at h
                split at h
                · refine ih hsub' (fun r' hr' => ?_) h
                  obtain rfl := Option.some.inj hr'
                  exact ⟨⟨e, hsub List.mem_cons_self, hr⟩, fun heq => hlhs (decide_eq_true heq)⟩
                · exact ih hsub' hrbest h
      · exact ih hsub' hrbest h

theorem dropReduce_cases (rbest : Rule τ ν) (e : Action τ ν) :
    (e.type ≠ .reduce rbest ∧ dropReduce rbest e = e) ∨
      (e.type = .reduce rbest ∧ dropReduce rbest e = { e with type := .notUsed rbest }) := by
  unfold dropReduce
  split
  · next h => exact .inr ⟨h, rfl⟩
  · next h => exact .inl ⟨h, rfl⟩

/-- What becomes of a list with the default `rbest`. -/
structure Merged (rbest : Rule τ ν) (ap ap' : List (Action τ ν)) : Prop where
  sound : ∀ e ∈ ap', (e ∈ ap ∧ e.type ≠ .reduce rbest) ∨ (e.sp = .dflt ∧ e.type = .reduce rbest) ∨
    (e.type = .notUsed rbest ∧ ∃ e₀ ∈ ap, e₀.sp = e.sp ∧ e₀.type = .reduce rbest)
  kept  : ∀ e ∈ ap, e.type ≠ .reduce rbest → e ∈ ap'
  dflt  : ∃ e ∈ ap', e.sp = .dflt ∧ e.type = .reduce rbest

theorem length_mergeDefault (rbest : Rule τ ν) (ap : List (Action τ ν)) : (mergeDefault rbest ap).length = ap.length := by
  induction ap with
  | nil => rfl
  | cons e ap ih =>
      rw [mergeDefault]
      split
      · rw [List.length_cons, List.length_map, List.length_cons]
      · rw [List.length_cons, ih, List.length_cons]

theorem merged_mergeDefault {rbest : Rule τ ν} {ap : List (Action τ ν)} (h : ∃ e ∈ ap, e.type = .reduce rbest) :
    Merged rbest ap (mergeDefault rbest ap) := by
  induction ap with
  | nil =>
      obtain ⟨e, he, -⟩ := h
      exact absurd he List.not_mem_nil
  | cons e ap ih =>
      rw [mergeDefault]
      split
      · next htype =>
          refine ⟨fun e' he' => ?_, fun e' he' hne => ?_, ⟨_, List.mem_cons_self, rfl, htype⟩⟩
          · rcases List.mem_cons.mp he' with rfl | he'
            · exact .inr (.inl ⟨rfl, htype⟩)
            · obtain ⟨e₀, he₀, rfl⟩ := List.mem_map.mp he'
              rcases dropReduce_cases rbest e₀ with ⟨hne, heq⟩ | ⟨htype₀, heq⟩
              · rw [heq]
                exact .inl ⟨List.mem_cons_of_mem _ he₀, hne⟩
              · rw [heq]
                exact .inr (.inr ⟨rfl, e₀, List.mem_cons_of_mem _ he₀, rfl, htype₀⟩)
          · rcases List.mem_cons.mp he' with rfl | he'
            · exact absurd htype hne
            · refine List.mem_cons_of_mem _ (List.mem_map.mpr ⟨e', he', ?_⟩)
              exact if_neg hne
      · next htype =>
          have h' : ∃ e ∈ ap, e.type = .reduce rbest := by
            obtain ⟨e', he', htype'⟩ := h
            rcases List.mem_cons.mp he' with rfl | he'
            · exact absurd htype' htype
            · exact ⟨e', he', htype'⟩
          obtain ⟨hsound, hkept, e', he', hdflt⟩ := ih h'
          refine ⟨fun e' he' => ?_, fun e' he' hne => ?_, ⟨e', List.mem_cons_of_mem _ he', hdflt⟩⟩
          · rcases List.mem_cons.mp he' with rfl | he'
            · exact .inl ⟨List.mem_cons_self, htype⟩
            · refine (hsound e' he').imp (fun hold => ⟨List.mem_cons_of_mem _ hold.1, hold.2⟩) (.imp_right ?_)
              rintro ⟨hnot, e₀, he₀, hold⟩
              exact ⟨hnot, e₀, List.mem_cons_of_mem _ he₀, hold⟩
          · rcases List.mem_cons.mp he' with rfl | he'
            · exact List.mem_cons_self
            · exact List.mem_cons_of_mem _ (hkept e' he' hne)

/-- A state after the first pass: nothing has changed, or there is a default, and `autoReduce` says that there is nothing
    else to do. -/
inductive Defaulted (lemp : Lemon τ ν) (ap : List (Action τ ν)) : Compressed τ ν → Prop
  | same : Defaulted lemp ap ⟨ap, none⟩
  | dflt {rbest : Rule τ ν} (hrbest : ∃ e ∈ ap, e.type = .reduce rbest) (hlhs : rbest.lhs ≠ lemp.sp)
      {ap' : List (Action τ ν)} (hmerged : Merged rbest ap ap') {auto : Option (Rule τ ν)}
      (hauto : ∀ rp, auto = some rp → rp = rbest ∧ ∀ e ∈ ap', e.type.onlyReduces rbest = true) :
      Defaulted lemp ap ⟨ap', auto⟩

theorem defaulted_setDefault (lemp : Lemon τ ν) (symbols : Symbols τ ν) {stp : State τ ν} (hlen : stp.ap.length < 2 ^ 30) :
    Defaulted lemp stp.ap (setDefault lemp symbols stp) := by
  unfold setDefault
  split
  · exact .same
  · next nbest rbest hbest =>
      split
      · exact .same
      · obtain ⟨hex, hlhs⟩ := bestReduce_spec stp.ap (List.Subset.refl _) (fun r hr => absurd hr (by simp)) hbest
        have hmerged := merged_mergeDefault hex
        have hperm : (actionSort symbols (mergeDefault rbest stp.ap)).Perm (mergeDefault rbest stp.ap) :=
          msort_perm (actioncmp symbols) (by rwa [length_mergeDefault])
        refine .dflt hex hlhs ⟨fun e he => hmerged.sound e (hperm.mem_iff.mp he),
          fun e he hne => hperm.mem_iff.mpr (hmerged.kept e he hne), ?_⟩ fun rp hauto => ?_
        · obtain ⟨e, he, hdflt⟩ := hmerged.dflt
          exact ⟨e, hperm.mem_iff.mpr he, hdflt⟩
        · split at hauto
          · next hall => exact ⟨(Option.some.inj hauto).symm, fun e he => List.all_eq_true.mp hall e he⟩
          · exact absurd hauto (by simp)

end

/-! ## The third pass -/

section
variable {l : List (Action τ ν)}

/-- Where the loop of the third pass gets to from a type, in the list `l`. -/
inductive Resolves (l : List (Action τ ν)) : ActType τ ν → ActType τ ν → Prop
  | done {type : ActType τ ν} (h : type.unitRule = none) : Resolves l type type
  | step {type : ActType τ ν} {rp : Rule τ ν} (h : type.unitRule = some rp) {e : Action τ ν} (he : e ∈ l)
      (hsp : e.sp = .nonterminal rp.lhs) {type' : ActType τ ν} (hr : Resolves l e.type type') : Resolves l type type'

omit [DecidableEq τ] [DecidableEq ν] in
theorem Resolves.final {type type' : ActType τ ν} (h : Resolves l type type') : type'.unitRule = none := by
  induction h with
  | done h => exact h
  | step _ _ _ _ ih => exact ih

omit [DecidableEq τ] [DecidableEq ν] in
theorem Resolves.eq_of_final {type type' : ActType τ ν} (h : Resolves l type type') (hfinal : type.unitRule = none) :
    type' = type := by
  cases h with
  | done => rfl
  | step h => exact absurd (hfinal.symm.trans h) (by simp)

/-- An action after the third pass. -/
structure Opted (l : List (Action τ ν)) (e e' : Action τ ν) : Prop where
  sp       : e'.sp = e.sp
  terminal : ∀ t, e.sp = .terminal t → e'.type = e.type
  resolves : (∀ t, e.sp ≠ .terminal t) → Resolves l e.type e'.type

/-- An action that may have been through the third pass already. -/
def Partly (l : List (Action τ ν)) (e' : Action τ ν) : Prop :=
  ∃ e ∈ l, e'.sp = e.sp ∧ (e'.type = e.type ∨ Resolves l e.type e'.type)

omit [DecidableEq τ] [DecidableEq ν] in
theorem Opted.partly {e e' : Action τ ν} (h : Opted l e e') (he : e ∈ l) : Partly l e' := by
  refine ⟨e, he, h.sp, ?_⟩
  by_cases hterm : ∃ t, e.sp = .terminal t
  · obtain ⟨t, ht⟩ := hterm
    exact .inl (h.terminal t ht)
  · exact .inr (h.resolves fun t ht => hterm ⟨t, ht⟩)

theorem unitType_resolves {others : List (Action τ ν)} (hothers : ∀ e' ∈ others, Partly l e') {n : Nat}
    {type type' : ActType τ ν} (h : unitType others n type = some type') : Resolves l type type' := by
  induction n generalizing type with
  | zero => exact absurd h (by simp [unitType])
  | succ n ih =>
      rw [unitType] at h
      split at h
      · next hfinal =>
          obtain rfl := Option.some.inj h
          exact .done hfinal
      · next rp hrp =>
          split at h
          · exact absurd h (by simp)
          · next ap2 hfind =>
              have hsp : ap2.sp = .nonterminal rp.lhs := by
                have hfound := List.find?_some hfind
                exact of_decide_eq_true hfound
              obtain ⟨e, he, hsame, htype⟩ := hothers ap2 (List.mem_of_find?_eq_some hfind)
              have hrest := ih h
              refine .step hrp he (hsame ▸ hsp) ?_
              rcases htype with heq | hres
              · rwa [heq] at hrest
              · rw [hrest.eq_of_final hres.final]
                exact hres

omit [DecidableEq τ] [DecidableEq ν] in
theorem partly_of_forall₂ {done₀ done : List (Action τ ν)} (h : List.Forall₂ (Opted l) done₀ done)
    (hsub : done₀ ⊆ l) : ∀ e' ∈ done, Partly l e' := by
  induction h with
  | nil => exact fun _ h => absurd h List.not_mem_nil
  | @cons e e' _ _ he _ ih =>
      intro x hx
      rcases List.mem_cons.mp hx with rfl | hx
      · exact he.partly (hsub List.mem_cons_self)
      · exact ih (fun y hy => hsub (List.mem_cons_of_mem _ hy)) x hx

theorem unitList_opted {n : Nat} {done₀ done rest res : List (Action τ ν)} (hl : l = done₀ ++ rest)
    (hdone : List.Forall₂ (Opted l) done₀ done) (h : unitList n done rest = some res) : List.Forall₂ (Opted l) l res := by
  induction rest generalizing done₀ done with
  | nil =>
      obtain rfl := Option.some.inj h
      rw [List.append_nil] at hl
      rwa [← hl] at hdone
  | cons ap rest ih =>
      rw [unitList] at h
      split at h
      · exact absurd h (by simp)
      · next ap' hact =>
          have hsub : done₀ ++ ap :: rest ⊆ l := hl ▸ List.Subset.refl _
          have hothers : ∀ e' ∈ done ++ rest, Partly l e' := by
            intro e' he'
            rcases List.mem_append.mp he' with he' | he'
            · exact partly_of_forall₂ hdone (fun x hx => hsub (List.mem_append_left _ hx)) e' he'
            · exact ⟨e', hsub (List.mem_append_right _ (List.mem_cons_of_mem _ he')), rfl, .inl rfl⟩
          have hap : Opted l ap ap' := by
            unfold unitAction at hact
            split at hact
            · next t ht =>
                obtain rfl := Option.some.inj hact
                exact ⟨rfl, fun _ _ => rfl, fun hno => absurd ht (hno t)⟩
            · next hno =>
                obtain ⟨type, htype, rfl⟩ := Option.map_eq_some_iff.mp hact
                exact ⟨rfl, fun t ht => absurd ht (hno t), fun _ => unitType_resolves hothers htype⟩
          have hsplit : l = (done₀ ++ [ap]) ++ rest := by
            rw [hl, List.append_assoc]
            rfl
          exact ih hsplit (List.rel_append hdone (.cons hap .nil)) h

/-! ## The third pass ends -/

/-- The loop for an action over `x` ends within `n` rounds. -/
inductive Ends (l : List (Action τ ν)) (x : ν) : Nat → ActType τ ν → Prop
  | done (n : Nat) {type : ActType τ ν} (h : type.unitRule = none) : Ends l x (n + 1) type
  | step {n : Nat} {type : ActType τ ν} {rp : Rule τ ν} (h : type.unitRule = some rp) (hne : rp.lhs ≠ x)
      (hex : ∃ e ∈ l, e.sp = .nonterminal rp.lhs)
      (hall : ∀ e ∈ l, e.sp = .nonterminal rp.lhs → Ends l x n e.type) : Ends l x (n + 1) type

/-- From one rule to the next in the loop of the third pass. -/
def NextUnit (l : List (Action τ ν)) (rp rp' : Rule τ ν) : Prop :=
  ∃ e ∈ l, e.sp = .nonterminal rp.lhs ∧ e.type.unitRule = some rp'

/-- What makes the loop end: it does not meet a rule twice, finds something for each left-hand side, and meets nothing
    but the rules of `rules`. -/
structure UnitsEnd (l : List (Action τ ν)) (rules : List (Rule τ ν)) : Prop where
  acyclic : ∀ rp, ¬ TransGen (NextUnit l) rp rp
  entry   : ∀ e ∈ l, ∀ rp, e.type.unitRule = some rp → rp ∈ rules ∧ ((∃ t, e.sp = .terminal t) ∨
    ∃ x, e.sp = .nonterminal x ∧ ∃ e' ∈ l, e'.sp = .nonterminal rp.lhs)

theorem UnitsEnd.ends {rules : List (Rule τ ν)} (h : UnitsEnd l rules) {e : Action τ ν} (he : e ∈ l) {x : ν}
    (hsp : e.sp = .nonterminal x) : Ends l x (rules.length + 1) e.type := by
  cases hunit : e.type.unitRule with
  | none => exact .done _ hunit
  | some rp₀ =>
      have hmet : ∀ rp, ReflTransGen (NextUnit l) rp₀ rp → ∃ e' ∈ l, (∃ y, e'.sp = .nonterminal y) ∧
          e'.type.unitRule = some rp := by
        intro rp hreach
        cases hreach with
        | refl => exact ⟨e, he, ⟨x, hsp⟩, hunit⟩
        | tail _ hnext =>
            obtain ⟨e', he', hsp', hunit'⟩ := hnext
            exact ⟨e', he', ⟨_, hsp'⟩, hunit'⟩
      have hmain : ∀ type : ActType τ ν, ReflTransGen (NextUnit l) rp₀ rp₀ → type.unitRule = some rp₀ →
          Ends l x (rules.length + 1) type := by
        refine fun type hrefl hunit' => walk_induction h.acyclic
          (P := fun n rp => ReflTransGen (NextUnit l) rp₀ rp → ∀ type : ActType τ ν, type.unitRule = some rp →
            Ends l x (n + 1) type) ?_ rules rp₀ (fun rp hreach => ?_) hrefl type hunit'
        · intro n rp ih hreach type hunit'
          obtain ⟨e', he', ⟨y, hy⟩, hrp⟩ := hmet rp hreach
          refine .step hunit' ?_ ?_ fun e₁ he₁ hsp₁ => ?_
          · -- coming back to where the loop began would be a cycle
            rintro rfl
            exact h.acyclic rp₀ (.tail' hreach ⟨e, he, hsp, hunit⟩)
          · rcases (h.entry e' he' rp hrp).2 with ⟨t, ht⟩ | ⟨-, -, hex⟩
            · exact absurd (hy.symm.trans ht) (by simp)
            · exact hex
          · cases hunit₁ : e₁.type.unitRule with
            | none => exact .done _ hunit₁
            | some rp₁ =>
                have hnext : NextUnit l rp rp₁ := ⟨e₁, he₁, hsp₁, hunit₁⟩
                exact ih rp₁ hnext (hreach.tail hnext) _ hunit₁
        · obtain ⟨e', he', -, hrp⟩ := hmet rp hreach
          exact (h.entry e' he' rp hrp).1
      exact hmain _ .refl hunit

theorem unitStates_spec {n : Nat} {l l' : List (Compressed τ ν)} (h : unitStates n l = some l') :
    List.Forall₂ (fun c c' => c'.autoReduce = c.autoReduce ∧ List.Forall₂ (Opted c.ap) c.ap c'.ap) l l' := by
  induction l generalizing l' with
  | nil =>
      obtain rfl := Option.some.inj h
      exact .nil
  | cons stp rest ih =>
      rw [unitStates] at h
      split at h
      · exact absurd h (by simp)
      · next ap hlist =>
          split at h
          · exact absurd h (by simp)
          · next rest' hrest =>
              obtain rfl := Option.some.inj h
              exact .cons ⟨rfl, unitList_opted (List.nil_append _).symm .nil hlist⟩ (ih hrest)

end

/-! ## What the lists stand for -/

section
variable {lemp : Lemon τ ν} {fs : FirstSets τ ν} {sorted final : List (State τ ν)}

variable (lemp) in
/-- The states after the first pass. -/
def defaults (symbols : Symbols τ ν) (final : List (State τ ν)) : List (Compressed τ ν) :=
  final.map (setDefault lemp symbols)

/-- `autoReduce` of the state `n`. -/
def autoOf (l : List (Compressed τ ν)) (n : Nat) : Option (Rule τ ν) := l[n]?.bind Compressed.autoReduce

theorem defaults_get (symbols : Symbols τ ν) (hacted : Acted lemp sorted final) {n : Nat} {c : Compressed τ ν}
    (hc : (defaults lemp symbols final)[n]? = some c) : ∃ stp, final[n]? = some stp ∧ Defaulted lemp stp.ap c := by
  rw [defaults, List.getElem?_map] at hc
  obtain ⟨stp, hstp, rfl⟩ := Option.map_eq_some_iff.mp hc
  exact ⟨stp, hstp, defaulted_setDefault lemp symbols (hacted.short stp (List.mem_of_getElem? hstp))⟩

/-- A reduction in a list is one that the state offers. -/
theorem Acted.reduce_offered (hacted : Acted lemp sorted final) {n : Nat} {stp : State τ ν} (hstp : final[n]? = some stp)
    {rp : Rule τ ν} (h : ∃ e ∈ stp.ap, e.type = .reduce rp) :
    ∃ p a, Path sorted p n ∧ Follows lemp p (rp, rp.nrhs) a := by
  obtain ⟨e, he, htype⟩ := h
  obtain ⟨type, ho, hstage⟩ := (hacted.state n stp hstp).1 e he
  rw [htype] at hstage
  have hsame := hstage.eq_of_live trivial
  rw [← hsame] at ho
  generalize e.sp = sym at ho
  cases ho with
  | reduce hp hf => exact ⟨_, _, hp, hf⟩

theorem hasItem_of_follows (h : Automaton lemp fs sorted) {p : List (Sym τ ν)} {n : Nat} (hp : Path sorted p n)
    {k : Item τ ν} {a : Option τ} (hf : Follows lemp p k a) : HasItem sorted n k := by
  have hstp := List.getElem?_eq_getElem (h.lt_of_path hp)
  exact ⟨_, hstp, (h.mem_iff hp hstp k).mpr hf.valid⟩

/-- The rule that a state reduces at once has been read there, and can be followed by something. -/
theorem auto_follows (symbols : Symbols τ ν) (hacted : Acted lemp sorted final) {n : Nat} {rp : Rule τ ν}
    (hauto : autoOf (defaults lemp symbols final) n = some rp) :
    rp.lhs ≠ lemp.sp ∧ ∃ p a, Path sorted p n ∧ Follows lemp p (rp, rp.nrhs) a := by
  obtain ⟨c, hc, hcauto⟩ := Option.bind_eq_some_iff.mp hauto
  obtain ⟨stp, hstp, hdef⟩ := defaults_get symbols hacted hc
  cases hdef with
  | same => exact absurd hcauto (by simp)
  | dflt hrbest hlhs _ hauto =>
      obtain rfl := (hauto rp hcauto).1
      exact ⟨hlhs, hacted.reduce_offered hstp hrbest⟩

/-! ## Nothing wrong gets into the lists -/

theorem Justified.shiftReduce_of_shift {n m : Nat} {sym : ActSym τ ν} (h : Justified lemp sorted n sym (.shift m))
    {rp : Rule τ ν} (hitem : HasItem sorted m (rp, rp.nrhs)) (hlhs : rp.lhs ≠ lemp.sp) :
    Justified lemp sorted n sym (.shiftReduce rp) := by
  generalize htype : ActType.shift m = type at h
  induction h with
  | offer ho =>
      cases ho with
      | shift hgoto hsym =>
          obtain rfl := ActType.shift.inj htype
          exact .shiftReduce hgoto hsym hitem hlhs
      | reduce => exact absurd htype (by simp)
      | accept => exact absurd htype (by simp)
  | shiftReduce => exact absurd htype (by simp)
  | unit h hnrhs _ _ ih => exact .unit h hnrhs (ih htype)
  | dflt => exact absurd htype (by simp)

theorem listsJustified_defaults (symbols : Symbols τ ν) (h : Automaton lemp fs sorted) (hacted : Acted lemp sorted final) :
    ListsJustified lemp sorted ((defaults lemp symbols final).map Compressed.ap) := by
  intro n ap hap e he hlive
  rw [List.getElem?_map] at hap
  obtain ⟨c, hc, rfl⟩ := Option.map_eq_some_iff.mp hap
  obtain ⟨stp, hstp, hdef⟩ := defaults_get symbols hacted hc
  have hold : ∀ e ∈ stp.ap, e.type.Live → Justified lemp sorted n e.sp e.type := by
    refine hacted.listsJustified n stp.ap ?_
    rw [List.getElem?_map, hstp]
    rfl
  cases hdef with
  | same => exact hold e he hlive
  | dflt hrbest hlhs hmerged _ =>
      rcases hmerged.sound e he with ⟨hin, -⟩ | ⟨hsp, htype⟩ | ⟨htype, -⟩
      · exact hold e hin hlive
      · obtain ⟨p, a, hp, hf⟩ := hacted.reduce_offered hstp hrbest
        rw [hsp, htype]
        exact .dflt (hasItem_of_follows h hp hf) hlhs
      · rw [htype] at hlive
        exact hlive.elim

omit [DecidableEq τ] [DecidableEq ν] in
theorem shiftReduces_get {l : List (Compressed τ ν)} {n : Nat} {c : Compressed τ ν} (hc : (shiftReduces l)[n]? = some c) :
    ∃ c₀, l[n]? = some c₀ ∧ c.ap = c₀.ap.map fun e => { e with type := toShiftReduce l e.type } := by
  rw [shiftReduces, List.getElem?_map] at hc
  obtain ⟨c₀, hc₀, rfl⟩ := Option.map_eq_some_iff.mp hc
  exact ⟨c₀, hc₀, rfl⟩

omit [DecidableEq τ] [DecidableEq ν] in
/-- What the second pass makes of a type. -/
theorem toShiftReduce_cases (l : List (Compressed τ ν)) (type : ActType τ ν) :
    toShiftReduce l type = type ∨ ∃ m rp, type = .shift m ∧ autoOf l m = some rp ∧ toShiftReduce l type = .shiftReduce rp := by
  unfold toShiftReduce
  split
  · next m =>
      split
      · next rp hauto => exact .inr ⟨m, rp, rfl, hauto, rfl⟩
      · exact .inl rfl
  · exact .inl rfl

theorem listsJustified_shiftReduces {l : List (Compressed τ ν)} (hj : ListsJustified lemp sorted (l.map Compressed.ap))
    (hauto : ∀ m rp, autoOf l m = some rp → HasItem sorted m (rp, rp.nrhs) ∧ rp.lhs ≠ lemp.sp) :
    ListsJustified lemp sorted ((shiftReduces l).map Compressed.ap) := by
  intro n ap hap e he hlive
  rw [List.getElem?_map] at hap
  obtain ⟨c, hc, rfl⟩ := Option.map_eq_some_iff.mp hap
  obtain ⟨c₀, hc₀, heq⟩ := shiftReduces_get hc
  rw [heq] at he
  obtain ⟨e₀, he₀, rfl⟩ := List.mem_map.mp he
  have hold : e₀.type.Live → Justified lemp sorted n e₀.sp e₀.type := by
    refine hj n c₀.ap ?_ e₀ he₀
    rw [List.getElem?_map, hc₀]
    rfl
  rcases toShiftReduce_cases l e₀.type with hsame | ⟨m, rp, hshift, hm, hconv⟩
  · simp only [hsame] at hlive ⊢
    exact hold hlive
  · obtain ⟨hitem, hlhs⟩ := hauto m rp hm
    rw [hshift] at hold
    simp only [hconv]
    exact (hold trivial).shiftReduce_of_shift hitem hlhs

omit [DecidableEq τ] [DecidableEq ν] in
theorem eq_of_unitRule {type : ActType τ ν} {rp : Rule τ ν} (h : type.unitRule = some rp) :
    type = .shiftReduce rp ∧ rp.nrhs = 1 := by
  unfold ActType.unitRule at h
  split at h
  · split at h
    · next hunit =>
        obtain rfl := Option.some.inj h
        exact ⟨rfl, hunit.2⟩
    · exact absurd h (by simp)
  · exact absurd h (by simp)

/-- The loop of the third pass goes from what is justified to what is justified. -/
theorem justified_of_resolves {n : Nat} {l : List (Action τ ν)}
    (hj : ∀ e ∈ l, e.type.Live → Justified lemp sorted n e.sp e.type) {x : ν} {type type' : ActType τ ν}
    (h : Resolves l type type') (htype : type.Live → Justified lemp sorted n (.nonterminal x) type) (hlive : type'.Live) :
    Justified lemp sorted n (.nonterminal x) type' := by
  induction h with
  | done => exact htype hlive
  | @step type rp hunit e he hsp type' _ ih =>
      obtain ⟨rfl, hnrhs⟩ := eq_of_unitRule hunit
      refine ih (fun hl => ?_) hlive
      have hj' := hj e he hl
      rw [hsp] at hj'
      exact .unit (htype trivial) hnrhs hj'

/-- There is no SHIFTREDUCE by default. -/
theorem not_justified_dflt {n : Nat} {rp : Rule τ ν} :
    ¬ Justified lemp sorted n .dflt (.shiftReduce rp) := by
  intro h
  cases h with
  | offer ho => cases ho
  | shiftReduce _ hsym => exact dflt_not_mem_shiftSyms hsym

theorem listsJustified_unitStates {l l' : List (Compressed τ ν)} (hj : ListsJustified lemp sorted (l.map Compressed.ap))
    {k : Nat} (hrun : unitStates k l = some l') : ListsJustified lemp sorted (l'.map Compressed.ap) := by
  intro n ap hap e' he' hlive
  have hall := unitStates_spec hrun
  rw [List.getElem?_map] at hap
  obtain ⟨c', hc', rfl⟩ := Option.map_eq_some_iff.mp hap
  obtain ⟨hlt', heq'⟩ := List.getElem?_eq_some_iff.mp hc'
  have hlt : n < l.length := hall.length_eq ▸ hlt'
  have hstate := hall.get hlt hlt'
  rw [List.get_eq_getElem, List.get_eq_getElem, heq'] at hstate
  obtain ⟨-, hopted⟩ := hstate
  have hold : ∀ e ∈ l[n].ap, e.type.Live → Justified lemp sorted n e.sp e.type := by
    refine hj n l[n].ap ?_
    rw [List.getElem?_map, List.getElem?_eq_getElem hlt]
    rfl
  obtain ⟨e, he, hone⟩ : ∃ e ∈ l[n].ap, Opted l[n].ap e e' := by
    obtain ⟨i, hi, rfl⟩ := List.mem_iff_getElem.mp he'
    have hi₀ : i < l[n].ap.length := hopted.length_eq ▸ hi
    exact ⟨_, List.getElem_mem hi₀, hopted.get hi₀ hi⟩
  rw [hone.sp]
  cases hsp : e.sp with
  | terminal t =>
      have htype := hone.terminal t hsp
      rw [htype] at hlive ⊢
      rw [← hsp]
      exact hold e he hlive
  | nonterminal x =>
      have hres := hone.resolves fun t ht => absurd (hsp.symm.trans ht) (by simp)
      refine justified_of_resolves hold hres (fun hl => ?_) hlive
      rw [← hsp]
      exact hold e he hl
  | dflt =>
      -- the default is no SHIFTREDUCE
      have hfinal : e.type.unitRule = none := by
        cases hunit : e.type.unitRule with
        | none => rfl
        | some rp =>
            have htype := (eq_of_unitRule hunit).1
            have hj' := hold e he (htype ▸ trivial)
            rw [hsp, htype] at hj'
            exact absurd hj' not_justified_dflt
      have hres := hone.resolves fun t ht => absurd (hsp.symm.trans ht) (by simp)
      have htype := hres.eq_of_final hfinal
      rw [htype] at hlive ⊢
      rw [← hsp]
      exact hold e he hlive

theorem compressTables_justified {symbols : Symbols τ ν} (h : Automaton lemp fs sorted) (hacted : Acted lemp sorted final)
    {l : List (Compressed τ ν)} (hrun : compressTables lemp symbols final = some l) :
    ListsJustified lemp sorted (l.map Compressed.ap) := by
  refine listsJustified_unitStates (listsJustified_shiftReduces (listsJustified_defaults symbols h hacted) ?_) hrun
  intro m rp hauto
  obtain ⟨hlhs, p, a, hp, hf⟩ := auto_follows symbols hacted hauto
  exact ⟨hasItem_of_follows h hp hf, hlhs⟩

end

end LemonC
end CSamples
