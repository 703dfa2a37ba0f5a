import CSamples.LemonC.Configlist
import Mathlib.Data.Finset.Powerset

/-!
# `LemonC.States` — `FindStates`

The states of the parser: sorted bases with their closures, each entered in the table when it is first met, its
successors before anything else. `getstate` and `buildshifts` call each other; the bound on the depth is the number of
sets of items.

## Contents
- **Model.** `Action`, `State`, `Build`, `getstate`, `buildshifts`, `findStates`.
- **Spec.** `Build.Ok`, what holds all the way, and `Done`, what holds of a state when `buildshifts` is through with it;
  `getstate_spec`.
-/

namespace CSamples
namespace LemonC

variable {τ ν : Type}

/-! ## Actions and states -/

/-- The symbols that an action can be for; `none` is the end of the input. -/
inductive ActSym (τ ν : Type) where
  | terminal (t : Option τ)
  | nonterminal (n : ν)
  | dflt
  deriving DecidableEq

/-- `enum e_action`, each with what `x` then holds. -/
inductive ActType (τ ν : Type) where
  | shift (stp : Nat)
  | accept
  | reduce (rp : Rule τ ν)
  | error (stp : Nat)
  | ssConflict (stp : Nat)
  | srConflict (rp : Rule τ ν)
  | rrConflict (rp : Rule τ ν)
  | shResolved (stp : Nat)
  | rdResolved (rp : Rule τ ν)
  | notUsed (rp : Rule τ ν)
  | shiftReduce (rp : Rule τ ν)
  deriving DecidableEq

/-- `struct action`. `seq` is its place in memory: actions are taken from there one after the other. -/
structure Action (τ ν : Type) where
  sp   : ActSym τ ν
  type : ActType τ ν
  seq  : Nat
  deriving DecidableEq

/-- `struct state`, while the automaton is built. Its number is its place in the table, and `bp` is the part of `cfp`
    that its basis is. -/
structure State (τ ν : Type) where
  bp  : List (Item τ ν)
  cfp : List (Config τ ν)
  ap  : List (Action τ ν)

/-- The table of states, the error messages with their lines, and the number of actions so far. -/
structure Build (τ ν : Type) where
  sorted : List (State τ ν)
  errors : List (Nat × String)
  nact   : Nat

/-- The symbols of the actions for a shift: for a MULTITERMINAL, one for each `subsym`. -/
def shiftSyms : Sym τ ν → List (ActSym τ ν)
  | .terminal k    => k.tokens.map (fun t => .terminal (some t))
  | .nonterminal n => [.nonterminal n]

/-- `Action_add(&stp->ap, …)` for the state `n`. -/
def Build.actionAdd (b : Build τ ν) (n : Nat) (type : ActType τ ν) (sp : ActSym τ ν) : Build τ ν :=
  { b with
    sorted := b.sorted.modify n (fun stp => { stp with ap := ⟨sp, type, b.nact⟩ :: stp.ap })
    nact   := b.nact + 1 }

/-! ## `getstate` and `buildshifts` -/

/-- `Plink_add(&cfp->bplp, …)` -/
def Config.backlink (r : Ref τ ν) (cfp : Config τ ν) : Config τ ν := { cfp with bplp := r :: cfp.bplp }

/-- `Plink_copy(&y->bplp, x->bplp)` -/
def Config.copyLinks (bplp : List (Ref τ ν)) (y : Config τ ν) : Config τ ν := { y with bplp := bplp.reverse ++ y.bplp }

@[simp] theorem Config.item_backlink (r : Ref τ ν) (cfp : Config τ ν) : (cfp.backlink r).item = cfp.item := rfl

@[simp] theorem Config.item_copyLinks (bplp : List (Ref τ ν)) (cfp : Config τ ν) : (cfp.copyLinks bplp).item = cfp.item :=
  rfl

section
variable [DecidableEq τ] [DecidableEq ν]

/-- A state that was there already takes the backward links of the basis that led to it. -/
def State.takeLinks (stp : State τ ν) (bp : List (Config τ ν)) : State τ ν :=
  { stp with cfp := bp.foldl (fun cfp x => updateConfig x.item (.copyLinks x.bplp) cfp) stp.cfp }

/-- The order that configurations are sorted in. -/
def configOrder (a b : Config τ ν) : Int := configcmp a.item b.item

/-- The two loops of `buildshifts` over the configurations: for each symbol the configurations that have it after the
    dot. `complete` are the symbols whose configurations are COMPLETE. -/
def shiftGroups : List (Item τ ν) → List (Sym τ ν) → List (Sym τ ν × List (Item τ ν))
  | [], _               => []
  | k :: cfp, complete =>
      match nextSym k with
      | none    => shiftGroups cfp complete
      | some sp =>
          if sp ∈ complete then shiftGroups cfp complete
          else (sp, (k :: cfp).filter (fun bcfp => nextSym bcfp = some sp)) :: shiftGroups cfp (sp :: complete)

/-- The basis that the configurations `group` of the state `n` lead to. -/
def newBasis (n : Nat) (group : List (Item τ ν)) : List (Config τ ν) :=
  group.foldl (fun current bcfp =>
    updateConfig (bcfp.1, bcfp.2 + 1) (.backlink ⟨n, bcfp.1, bcfp.2⟩) (configlistAdd bcfp.1 (bcfp.2 + 1) current)) []

/-- `buildshifts` for the state `n`, over the groups of its configurations. -/
def buildshifts (getstate : List (Config τ ν) → Build τ ν → Option (Nat × Build τ ν)) (n : Nat) :
    List (Sym τ ν × List (Item τ ν)) → Build τ ν → Option (Build τ ν)
  | [], b                    => some b
  | (sp, group) :: groups, b =>
      match getstate (newBasis n group) b with
      | none             => none
      | some (newstp, b) =>
          buildshifts getstate n groups ((shiftSyms sp).foldl (fun b sym => b.actionAdd n (.shift newstp) sym) b)

/-- The messages of `Configlist_closure`. -/
def closureErrors (lemp : Lemon τ ν) (current : List (Config τ ν)) : List (Nat × String) :=
  current.filterMap fun cfp =>
    match nextSym cfp.item with
    | some (.nonterminal sp) =>
        if lemp.rulesOf sp = [] ∧ lemp.errsym ≠ some sp then
          some (cfp.rp.line, s!"Nonterminal \"{lemp.name sp}\" has no rules.")
        else none
    | _                      => none

/-- `getstate`, for the basis that has been built; the first argument bounds the depth of the recursion. -/
def getstate (lemp : Lemon τ ν) (fs : FirstSets τ ν) : Nat → List (Config τ ν) → Build τ ν → Option (Nat × Build τ ν)
  | 0, _, _             => none
  | depth+1, current, b =>
      let bp := msort configOrder current
      match b.sorted.findIdx? (fun stp => stp.bp = itemsOf bp) with
      | some k => some (k, { b with sorted := b.sorted.modify k (fun stp => stp.takeLinks bp) })
      | none   =>
          let n := b.sorted.length
          match closure lemp fs n current with
          | none     => none
          | some cfp =>
              let stp : State τ ν := ⟨itemsOf bp, msort configOrder cfp, []⟩
              let b := { b with sorted := b.sorted ++ [stp], errors := b.errors ++ closureErrors lemp cfp }
              match buildshifts (getstate lemp fs depth) n (shiftGroups (itemsOf stp.cfp) []) b with
              | none   => none
              | some b => some (n, b)

/-! ## `FindStates` -/

/-- The messages of `FindStates` about the start symbol. -/
def startErrors (lemp : Lemon τ ν) : List (Nat × String) :=
  (match lemp.start with
    | some (start, none) =>
        [(0, s!"The specified start symbol \"{start}\" is not in a nonterminal of the grammar.  \"" ++
          s!"{lemp.name lemp.startRule.lhs}\" will be used as the start symbol instead.")]
    | _                  => []) ++
  lemp.rule.flatMap (fun rp => rp.rhs.filterMap (fun sp =>
    if sp = .nonterminal lemp.sp then
      some (0, s!"The start symbol \"{lemp.name lemp.sp}\" occurs on the " ++
        "right-hand side of a rule. This will result in a parser which does not work properly.")
    else none))

/-- The basis of the first state: all rules of the start symbol. -/
def startBasis (rules : List (Rule τ ν)) : List (Config τ ν) :=
  rules.foldl (fun current rp => updateConfig (rp, 0) (.follow {none}) (configlistAdd rp 0 current)) []

/-- All items of the grammar. -/
def Lemon.items (lemp : Lemon τ ν) : List (Item τ ν) :=
  lemp.rule.flatMap (fun rp => (List.range (rp.nrhs + 1)).map (fun dot => (rp, dot)))

/-- `FindStates` -/
def findStates (lemp : Lemon τ ν) (fs : FirstSets τ ν) : Option (Build τ ν) :=
  match getstate lemp fs (2 ^ lemp.items.length + 1) (startBasis (lemp.rulesOf lemp.sp)) ⟨[], startErrors lemp, 0⟩ with
  | none        => none
  | some (_, b) => some b

end

/-! ## The order of configurations -/

section
variable {lemp : Lemon τ ν}

theorem configOrder_compares : Compares (configOrder : Config τ ν → Config τ ν → Int) := by
  refine ⟨fun a b => ?_, fun a b c hab hbc => ?_⟩
  · simp only [configOrder, configcmp]
    split_ifs <;> omega
  · simp only [configOrder, configcmp] at hab hbc ⊢
    split_ifs at hab hbc ⊢ <;> omega

/-- The order tells items apart. -/
theorem item_ext {k k' : Item τ ν} (hk : lemp.IsItem k) (hk' : lemp.IsItem k') (h : configcmp k k' ≤ 0)
    (h' : configcmp k' k ≤ 0) : k = k' := by
  simp only [configcmp] at h h'
  have hindex : k.1.index = k'.1.index := by
    split_ifs at h h' <;> omega
  have hdot : k.2 = k'.2 := by
    split_ifs at h h' <;> omega
  exact Prod.ext (lemp.index_inj _ hk.1 _ hk'.1 hindex) hdot

/-- A list that a basis can be. -/
structure Lemon.IsBasis (lemp : Lemon τ ν) (bp : List (Item τ ν)) : Prop where
  nodup  : bp.Nodup
  sorted : bp.Pairwise (fun k k' => configcmp k k' ≤ 0)
  isItem : ∀ k ∈ bp, lemp.IsItem k

/-- Bases with the same items are the same. -/
theorem Lemon.IsBasis.ext {bp bp' : List (Item τ ν)} (h : lemp.IsBasis bp) (h' : lemp.IsBasis bp')
    (hmem : ∀ k, k ∈ bp ↔ k ∈ bp') : bp = bp' := by
  refine List.Perm.eq_of_pairwise (fun k k' hk hk' => ?_) h.sorted h'.sorted
    ((List.perm_ext_iff_of_nodup h.nodup h'.nodup).mpr hmem)
  exact item_ext (h.isItem k hk) (h'.isItem k' hk')

theorem Lemon.mem_items {k : Item τ ν} : k ∈ lemp.items ↔ lemp.IsItem k := by
  obtain ⟨rp, dot⟩ := k
  unfold Lemon.items Lemon.IsItem
  rw [List.mem_flatMap]
  constructor
  · rintro ⟨rp', hrp, hk⟩
    obtain ⟨dot', hdot, heq⟩ := List.mem_map.mp hk
    obtain ⟨rfl, rfl⟩ := Prod.mk.inj heq
    exact ⟨hrp, Nat.lt_succ_iff.mp (List.mem_range.mp hdot)⟩
  · rintro ⟨hrp, hdot⟩
    exact ⟨rp, hrp, List.mem_map.mpr ⟨dot, List.mem_range.mpr (Nat.lt_succ_iff.mpr hdot), rfl⟩⟩

/-- The closure of a set of items of the grammar has no others. -/
theorem InClosure.isItem {B : Item τ ν → Prop} (hB : ∀ k, B k → lemp.IsItem k) {k : Item τ ν} (h : InClosure lemp B k) :
    lemp.IsItem k := by
  cases h with
  | basis h => exact hB k h
  | rule _ _ hrp => exact ⟨((lemp.mem_rulesOf _ _).mp hrp).1, Nat.zero_le _⟩

/-- There are not more than that of them at once. -/
theorem length_le_items {l : List (Item τ ν)} (hnd : l.Nodup) (hl : ∀ k ∈ l, lemp.IsItem k) :
    l.length ≤ lemp.items.length :=
  (hnd.subperm fun k hk => Lemon.mem_items.mpr (hl k hk)).length_le

/-- Sorting a list of configurations. -/
theorem msort_configs (hsize : lemp.items.length < 2 ^ 30) {cfp : List (Config τ ν)} (hnd : (itemsOf cfp).Nodup)
    (hitem : ∀ k ∈ itemsOf cfp, lemp.IsItem k) :
    (msort configOrder cfp).Perm cfp ∧ lemp.IsBasis (itemsOf (msort configOrder cfp)) := by
  have hlen : cfp.length < 2 ^ 30 := by
    have h := length_le_items hnd hitem
    rw [itemsOf, List.length_map] at h
    omega
  have hperm := msort_perm configOrder hlen
  have hitems := hperm.map Config.item
  refine ⟨hperm, hitems.nodup_iff.mpr hnd, ?_, fun k hk => hitem k (hitems.mem_iff.mp hk)⟩
  exact List.pairwise_map.mpr (msort_spec configOrder_compares cfp).1

end

/-! ## Groups of configurations -/

section
variable [DecidableEq τ] [DecidableEq ν]

/-- The symbols after the dots, in the order in which `buildshifts` takes them. -/
def shiftedSyms (l : List (Item τ ν)) : List (Sym τ ν) := (shiftGroups l []).map Prod.fst

theorem mem_shiftGroups {l : List (Item τ ν)} {complete : List (Sym τ ν)} {sp : Sym τ ν} {group : List (Item τ ν)}
    (h : (sp, group) ∈ shiftGroups l complete) :
    sp ∉ complete ∧ group = l.filter (fun k => nextSym k = some sp) ∧ ∃ k ∈ l, nextSym k = some sp := by
  induction l generalizing complete with
  | nil => exact absurd h List.not_mem_nil
  | cons k l ih =>
      -- a configuration that is left out has another symbol
      have hskip : ∀ complete', (sp, group) ∈ shiftGroups l complete' → nextSym k ≠ some sp →
          sp ∉ complete' ∧ group = (k :: l).filter (fun k => nextSym k = some sp) ∧
            ∃ k' ∈ k :: l, nextSym k' = some sp := by
        intro complete' h hne
        obtain ⟨hno, hgroup, k', hk', hsp⟩ := ih h
        refine ⟨hno, ?_, k', List.mem_cons_of_mem k hk', hsp⟩
        rw [List.filter_cons_of_neg (by simpa using hne)]
        exact hgroup
      rw [shiftGroups] at h
      split at h
      · next hnone => exact hskip complete h (by rw [hnone]; exact (Option.some_ne_none sp).symm)
      · next sp' hsp' =>
          split at h
          · next hmem =>
              refine hskip complete h fun heq => ?_
              rw [hsp'] at heq
              exact (ih h).1 (Option.some.inj heq ▸ hmem)
          · next hno =>
              rcases List.mem_cons.mp h with heq | h
              · obtain ⟨rfl, rfl⟩ := Prod.mk.inj heq
                exact ⟨hno, rfl, k, List.mem_cons_self, hsp'⟩
              · have hnot := (ih h).1
                obtain ⟨-, hgroup⟩ := hskip (sp' :: complete) h fun heq => by
                  rw [hsp'] at heq
                  exact hnot (Option.some.inj heq ▸ List.mem_cons_self)
                exact ⟨fun hin => hnot (List.mem_cons_of_mem _ hin), hgroup⟩

theorem shiftGroups_nodup (l : List (Item τ ν)) (complete : List (Sym τ ν)) :
    ((shiftGroups l complete).map Prod.fst).Nodup := by
  induction l generalizing complete with
  | nil => exact List.nodup_nil
  | cons k l ih =>
      rw [shiftGroups]
      split
      · exact ih complete
      · next sp _ =>
          split
          · exact ih complete
          · rw [List.map_cons]
            refine List.nodup_cons.mpr ⟨fun hin => ?_, ih _⟩
            obtain ⟨g, hg, hsp⟩ := List.mem_map.mp hin
            exact (mem_shiftGroups hg).1 (hsp ▸ List.mem_cons_self)

theorem mem_map_shiftGroups {l : List (Item τ ν)} {complete : List (Sym τ ν)} {k : Item τ ν} {sp : Sym τ ν} (hk : k ∈ l)
    (hsp : nextSym k = some sp) (hno : sp ∉ complete) : sp ∈ (shiftGroups l complete).map Prod.fst := by
  induction l generalizing complete with
  | nil => exact absurd hk List.not_mem_nil
  | cons k' l ih =>
      rw [shiftGroups]
      rcases List.mem_cons.mp hk with rfl | hk
      · rw [hsp]
        simp only
        rw [if_neg hno]
        exact List.mem_cons_self
      · split
        · exact ih hk hno
        · next sp' _ =>
            split
            · exact ih hk hno
            · rw [List.map_cons]
              by_cases heq : sp = sp'
              · exact heq ▸ List.mem_cons_self
              · refine List.mem_cons_of_mem _ (ih hk fun hin => ?_)
                exact (List.mem_cons.mp hin).elim heq hno

theorem mem_shiftedSyms {l : List (Item τ ν)} {sp : Sym τ ν} :
    sp ∈ shiftedSyms l ↔ ∃ k ∈ l, nextSym k = some sp := by
  constructor
  · intro h
    obtain ⟨⟨sp', group⟩, hg, rfl⟩ := List.mem_map.mp h
    exact (mem_shiftGroups hg).2.2
  · rintro ⟨k, hk, hsp⟩
    exact mem_map_shiftGroups hk hsp List.not_mem_nil

/-! ## A basis under construction -/

/-- The list after some of the configurations of the state `n` have been moved over their symbol. -/
structure Moving (n : Nat) (group : List (Item τ ν)) (current current' : List (Config τ ν)) : Prop where
  nodup : (itemsOf current).Nodup → (itemsOf current').Nodup
  mem   : ∀ k, k ∈ itemsOf current' ↔ k ∈ itemsOf current ∨ ∃ dot, k.2 = dot + 1 ∧ (k.1, dot) ∈ group
  fws   : ∀ k a, FwsAt current' k a ↔ FwsAt current k a
  link  : ∀ k r, LinkAt current' k r ↔ LinkAt current k r
  back  : ∀ k r, BackAt current' k r ↔
    BackAt current k r ∨ (r.stp = n ∧ r.rp = k.1 ∧ k.2 = r.dot + 1 ∧ (r.rp, r.dot) ∈ group)

theorem moving_foldl (n : Nat) (group : List (Item τ ν)) (current : List (Config τ ν)) :
    Moving n group current (group.foldl (fun current bcfp =>
      updateConfig (bcfp.1, bcfp.2 + 1) (.backlink ⟨n, bcfp.1, bcfp.2⟩) (configlistAdd bcfp.1 (bcfp.2 + 1) current))
      current) := by
  induction group generalizing current with
  | nil =>
      refine ⟨id, fun k => ?_, fun k a => Iff.rfl, fun k r => Iff.rfl, fun k r => ?_⟩ <;> simp
  | cons bcfp group ih =>
      obtain ⟨rp, dot⟩ := bcfp
      have hin : (rp, dot + 1) ∈ itemsOf (configlistAdd rp (dot + 1) current) := mem_itemsOf_add.mpr (.inr rfl)
      have hitems := itemsOf_updateConfig (Config.item_backlink ⟨n, rp, dot⟩) (k := (rp, dot + 1))
        (configlistAdd rp (dot + 1) current)
      have h := ih (updateConfig (rp, dot + 1) (.backlink ⟨n, rp, dot⟩) (configlistAdd rp (dot + 1) current))
      refine ⟨fun hnd => h.nodup ?_, fun k => ?_, fun k a => ?_, fun k r => ?_, fun k r => ?_⟩
      · rw [hitems]
        exact nodup_configlistAdd hnd
      · rw [List.foldl_cons, h.mem, hitems, mem_itemsOf_add]
        obtain ⟨rp', dot'⟩ := k
        simp only [List.mem_cons, Prod.mk.injEq]
        constructor
        · rintro ((hk | ⟨rfl, rfl⟩) | ⟨d, hd, hk⟩)
          · exact .inl hk
          · exact .inr ⟨dot, rfl, .inl ⟨rfl, rfl⟩⟩
          · exact .inr ⟨d, hd, .inr hk⟩
        · rintro (hk | ⟨d, hd, ⟨rfl, rfl⟩ | hk⟩)
          · exact .inl (.inl hk)
          · exact .inl (.inr ⟨rfl, hd⟩)
          · exact .inr ⟨d, hd, hk⟩
      · rw [List.foldl_cons, h.fws]
        exact (exists_updateConfig (Config.item_backlink _) (P := fun c => a ∈ c.fws) (fun _ => Iff.rfl)).trans
          (fwsAt_add (k := (rp, dot + 1)))
      · rw [List.foldl_cons, h.link]
        exact (exists_updateConfig (Config.item_backlink _) (P := fun c => r ∈ c.fplp) (fun _ => Iff.rfl)).trans
          (linkAt_add (k := (rp, dot + 1)))
      · have hback : BackAt (updateConfig (rp, dot + 1) (.backlink ⟨n, rp, dot⟩) (configlistAdd rp (dot + 1) current)) k r ↔
            BackAt current k r ∨ (k = (rp, dot + 1) ∧ r = ⟨n, rp, dot⟩) :=
          (exists_updateConfig_or (Config.item_backlink _) (P := fun c => r ∈ c.bplp)
            (fun _ => List.mem_cons.trans or_comm) hin).trans (or_congr_left (backAt_add (k := (rp, dot + 1))))
        rw [List.foldl_cons, h.back, hback]
        obtain ⟨rp', dot'⟩ := k
        obtain ⟨stp, rp₁, dot₁⟩ := r
        simp only [List.mem_cons, Prod.mk.injEq, Ref.mk.injEq]
        constructor
        · rintro ((hb | ⟨⟨rfl, rfl⟩, rfl, rfl, rfl⟩) | ⟨rfl, rfl, rfl, hg⟩)
          · exact .inl hb
          · exact .inr ⟨rfl, rfl, rfl, .inl ⟨rfl, rfl⟩⟩
          · exact .inr ⟨rfl, rfl, rfl, .inr hg⟩
        · rintro (hb | ⟨rfl, rfl, rfl, ⟨rfl, rfl⟩ | hg⟩)
          · exact .inl (.inl hb)
          · exact .inl (.inr ⟨⟨rfl, rfl⟩, rfl, rfl, rfl⟩)
          · exact .inr ⟨rfl, rfl, rfl, hg⟩

/-- `newBasis` for a group of configurations. -/
theorem newBasis_spec (n : Nat) (group : List (Item τ ν)) :
    (itemsOf (newBasis n group)).Nodup ∧
      (∀ k, k ∈ itemsOf (newBasis n group) ↔ ∃ dot, k.2 = dot + 1 ∧ (k.1, dot) ∈ group) ∧
      (∀ k a, ¬ FwsAt (newBasis n group) k a) ∧ (∀ k r, ¬ LinkAt (newBasis n group) k r) ∧
      ∀ k r, BackAt (newBasis n group) k r ↔ r.stp = n ∧ r.rp = k.1 ∧ k.2 = r.dot + 1 ∧ (r.rp, r.dot) ∈ group := by
  have h := moving_foldl n group []
  refine ⟨h.nodup List.nodup_nil, fun k => ?_, fun k a hfws => ?_, fun k r hlink => ?_, fun k r => ?_⟩
  · exact (h.mem k).trans (or_iff_right List.not_mem_nil)
  · obtain ⟨c, hc, -⟩ := (h.fws k a).mp hfws
    exact absurd hc List.not_mem_nil
  · obtain ⟨c, hc, -⟩ := (h.link k r).mp hlink
    exact absurd hc List.not_mem_nil
  · refine (h.back k r).trans (or_iff_right ?_)
    rintro ⟨c, hc, -⟩
    exact absurd hc List.not_mem_nil

/-- The list after some rules of the start symbol have come in. -/
structure Starting (rules : List (Rule τ ν)) (current current' : List (Config τ ν)) : Prop where
  nodup : (itemsOf current).Nodup → (itemsOf current').Nodup
  mem   : ∀ k, k ∈ itemsOf current' ↔ k ∈ itemsOf current ∨ (k.2 = 0 ∧ k.1 ∈ rules)
  fws   : ∀ k a, FwsAt current' k a ↔ FwsAt current k a ∨ ((k.2 = 0 ∧ k.1 ∈ rules) ∧ a = none)
  link  : ∀ k r, LinkAt current' k r ↔ LinkAt current k r
  back  : ∀ k r, BackAt current' k r ↔ BackAt current k r

theorem starting_foldl (rules : List (Rule τ ν)) (current : List (Config τ ν)) :
    Starting rules current (rules.foldl (fun current rp =>
      updateConfig (rp, 0) (.follow {none}) (configlistAdd rp 0 current)) current) := by
  induction rules generalizing current with
  | nil =>
      refine ⟨id, fun k => ?_, fun k a => ?_, fun k r => Iff.rfl, fun k r => Iff.rfl⟩ <;> simp
  | cons rp rules ih =>
      have hin : (rp, 0) ∈ itemsOf (configlistAdd rp 0 current) := mem_itemsOf_add.mpr (.inr rfl)
      have hitems := itemsOf_updateConfig (Config.item_follow {none}) (k := (rp, 0)) (configlistAdd rp 0 current)
      have h := ih (updateConfig (rp, 0) (.follow {none}) (configlistAdd rp 0 current))
      refine ⟨fun hnd => h.nodup ?_, fun k => ?_, fun k a => ?_, fun k r => ?_, fun k r => ?_⟩
      · rw [hitems]
        exact nodup_configlistAdd hnd
      · rw [List.foldl_cons, h.mem, hitems, mem_itemsOf_add]
        simp only [List.mem_cons, Prod.ext_iff]
        tauto
      · rw [List.foldl_cons, h.fws, fwsAt_follow hin, fwsAt_add (k := (rp, 0))]
        simp only [List.mem_cons, Prod.ext_iff, Finset.mem_singleton]
        tauto
      · rw [List.foldl_cons, h.link]
        exact (exists_updateConfig (Config.item_follow _) (P := fun c => r ∈ c.fplp) (fun _ => Iff.rfl)).trans
          (linkAt_add (k := (rp, 0)))
      · rw [List.foldl_cons, h.back]
        exact (exists_updateConfig (Config.item_follow _) (P := fun c => r ∈ c.bplp) (fun _ => Iff.rfl)).trans
          (backAt_add (k := (rp, 0)))

/-- `startBasis`: the rules with the dot in front, each in front of the end of the input. -/
theorem startBasis_spec (rules : List (Rule τ ν)) :
    (itemsOf (startBasis rules)).Nodup ∧
      (∀ k, k ∈ itemsOf (startBasis rules) ↔ k.2 = 0 ∧ k.1 ∈ rules) ∧
      (∀ k a, FwsAt (startBasis rules) k a ↔ (k.2 = 0 ∧ k.1 ∈ rules) ∧ a = none) ∧
      (∀ k r, ¬ LinkAt (startBasis rules) k r) ∧ ∀ k r, ¬ BackAt (startBasis rules) k r := by
  have h := starting_foldl rules []
  refine ⟨h.nodup List.nodup_nil, fun k => ?_, fun k a => ?_, fun k r hlink => ?_, fun k r hback => ?_⟩
  · exact (h.mem k).trans (or_iff_right List.not_mem_nil)
  · refine (h.fws k a).trans (or_iff_right ?_)
    rintro ⟨c, hc, -⟩
    exact absurd hc List.not_mem_nil
  · obtain ⟨c, hc, -⟩ := (h.link k r).mp hlink
    exact absurd hc List.not_mem_nil
  · obtain ⟨c, hc, -⟩ := (h.back k r).mp hback
    exact absurd hc List.not_mem_nil

/-- Links taken over by a state. -/
theorem takeLinks_spec (stp : State τ ν) {bp : List (Config τ ν)} (hbp : ∀ k ∈ itemsOf bp, k ∈ itemsOf stp.cfp) :
    itemsOf (stp.takeLinks bp).cfp = itemsOf stp.cfp ∧
      (∀ k a, FwsAt (stp.takeLinks bp).cfp k a ↔ FwsAt stp.cfp k a) ∧
      (∀ k r, LinkAt (stp.takeLinks bp).cfp k r ↔ LinkAt stp.cfp k r) ∧
      ∀ k r, BackAt (stp.takeLinks bp).cfp k r ↔ BackAt stp.cfp k r ∨ BackAt bp k r := by
  unfold State.takeLinks
  simp only
  generalize stp.cfp = cfp at hbp
  induction bp generalizing cfp with
  | nil =>
      refine ⟨rfl, fun k a => Iff.rfl, fun k r => Iff.rfl, fun k r => (or_iff_left ?_).symm⟩
      rintro ⟨c, hc, -⟩
      exact absurd hc List.not_mem_nil
  | cons x bp ih =>
      have hitems := itemsOf_updateConfig (Config.item_copyLinks x.bplp) (k := x.item) cfp
      have hx : x.item ∈ itemsOf cfp := hbp _ List.mem_cons_self
      obtain ⟨h1, h2, h3, h4⟩ := ih (updateConfig x.item (.copyLinks x.bplp) cfp) (fun k hk => by
        rw [hitems]
        exact hbp k (List.mem_cons_of_mem _ hk))
      refine ⟨h1.trans hitems, fun k a => (h2 k a).trans ?_, fun k r => (h3 k r).trans ?_, fun k r => (h4 k r).trans ?_⟩
      · exact exists_updateConfig (Config.item_copyLinks _) (P := fun c => a ∈ c.fws) (fun _ => Iff.rfl)
      · exact exists_updateConfig (Config.item_copyLinks _) (P := fun c => r ∈ c.fplp) (fun _ => Iff.rfl)
      · have hback : BackAt (updateConfig x.item (.copyLinks x.bplp) cfp) k r ↔
            BackAt cfp k r ∨ (k = x.item ∧ r ∈ x.bplp) := by
          refine exists_updateConfig_or (Config.item_copyLinks _) (P := fun c => r ∈ c.bplp) (fun c => ?_) hx
          simp only [Config.copyLinks, List.mem_append, List.mem_reverse]
          exact or_comm
        have hcons : BackAt (x :: bp) k r ↔ (k = x.item ∧ r ∈ x.bplp) ∨ BackAt bp k r := by
          unfold BackAt
          simp only [List.mem_cons, or_and_right, exists_or, exists_eq_left]
          exact or_congr_left (and_congr_left fun _ => eq_comm)
        rw [hback, hcons, or_assoc]

end

/-! ## How the table grows -/

/-- The backward links of a transition are there. -/
def LinkedBack (sorted : List (State τ ν)) (n : Nat) (X : Sym τ ν) (m : Nat) : Prop :=
  ∃ stp stp', sorted[n]? = some stp ∧ sorted[m]? = some stp' ∧
    ∀ k ∈ itemsOf stp.cfp, nextSym k = some X → BackAt stp'.cfp (k.1, k.2 + 1) ⟨n, k.1, k.2⟩

/-- What may change of a state. -/
structure State.Grows (stp stp' : State τ ν) : Prop where
  bp    : stp'.bp = stp.bp
  items : itemsOf stp'.cfp = itemsOf stp.cfp
  fws   : ∀ k a, FwsAt stp'.cfp k a ↔ FwsAt stp.cfp k a
  link  : ∀ k r, LinkAt stp'.cfp k r ↔ LinkAt stp.cfp k r
  back  : ∀ k r, BackAt stp.cfp k r → BackAt stp'.cfp k r

/-- The table grows, and the states that are `kept` keep their actions. -/
def Extends (kept : Nat → Prop) (sorted sorted' : List (State τ ν)) : Prop :=
  ∀ n stp, sorted[n]? = some stp → ∃ stp', sorted'[n]? = some stp' ∧ stp.Grows stp' ∧ (kept n → stp'.ap = stp.ap)

theorem State.Grows.refl (stp : State τ ν) : stp.Grows stp :=
  ⟨rfl, rfl, fun _ _ => Iff.rfl, fun _ _ => Iff.rfl, fun _ _ => id⟩

theorem State.Grows.trans {stp₁ stp₂ stp₃ : State τ ν} (h : stp₁.Grows stp₂) (h' : stp₂.Grows stp₃) : stp₁.Grows stp₃ :=
  ⟨h'.bp.trans h.bp, h'.items.trans h.items, fun k a => (h'.fws k a).trans (h.fws k a),
    fun k r => (h'.link k r).trans (h.link k r), fun k r hb => h'.back k r (h.back k r hb)⟩

theorem Extends.refl (kept : Nat → Prop) (sorted : List (State τ ν)) : Extends kept sorted sorted :=
  fun _ stp h => ⟨stp, h, .refl stp, fun _ => rfl⟩

theorem Extends.trans {kept : Nat → Prop} {l₁ l₂ l₃ : List (State τ ν)} (h : Extends kept l₁ l₂)
    (h' : Extends kept l₂ l₃) : Extends kept l₁ l₃ := by
  intro n stp hn
  obtain ⟨stp₂, hn₂, hg₂, hap₂⟩ := h n stp hn
  obtain ⟨stp₃, hn₃, hg₃, hap₃⟩ := h' n stp₂ hn₂
  exact ⟨stp₃, hn₃, hg₂.trans hg₃, fun hk => (hap₃ hk).trans (hap₂ hk)⟩

theorem Extends.mono {kept kept' : Nat → Prop} {l l' : List (State τ ν)} (h : Extends kept l l')
    (hsub : ∀ n, kept' n → kept n) : Extends kept' l l' := by
  intro n stp hn
  obtain ⟨stp', hn', hg, hap⟩ := h n stp hn
  exact ⟨stp', hn', hg, fun hk => hap (hsub n hk)⟩

section
variable {kept : Nat → Prop} {sorted sorted' : List (State τ ν)}

theorem Extends.length_le (h : Extends kept sorted sorted') : sorted.length ≤ sorted'.length := by
  by_contra hlt
  obtain ⟨stp', hn', -⟩ := h sorted'.length _ (List.getElem?_eq_getElem (Nat.lt_of_not_le hlt))
  exact absurd (List.getElem?_eq_some_iff.mp hn').1 (Nat.lt_irrefl _)

theorem Extends.linkedBack (h : Extends kept sorted sorted') {n : Nat} {X : Sym τ ν} {m : Nat}
    (hl : LinkedBack sorted n X m) : LinkedBack sorted' n X m := by
  obtain ⟨stp, stp', hn, hm, hback⟩ := hl
  obtain ⟨stp₁, hn₁, hg₁, -⟩ := h n stp hn
  obtain ⟨stp₂, hm₂, hg₂, -⟩ := h m stp' hm
  refine ⟨stp₁, stp₂, hn₁, hm₂, fun k hk hX => hg₂.back _ _ (hback k ?_ hX)⟩
  rw [← hg₁.items]
  exact hk

end

/-! ## What holds of the table -/

section
variable [DecidableEq τ] [DecidableEq ν]

/-- Items that a symbol leads to. -/
def Moved (l : List (Item τ ν)) (X : Sym τ ν) (k : Item τ ν) : Prop :=
  ∃ dot, k.2 = dot + 1 ∧ (k.1, dot) ∈ l ∧ nextSym (k.1, dot) = some X

/-- The state `n` leads to the basis `bp` by the symbol `X`. -/
def MovesTo (sorted : List (State τ ν)) (n : Nat) (X : Sym τ ν) (bp : List (Item τ ν)) : Prop :=
  ∃ stp, sorted[n]? = some stp ∧ X ∈ shiftedSyms (itemsOf stp.cfp) ∧ ∀ k, k ∈ bp ↔ Moved (itemsOf stp.cfp) X k

/-- It leads to the state `m`. -/
def IsGoto (sorted : List (State τ ν)) (n : Nat) (X : Sym τ ν) (m : Nat) : Prop :=
  ∃ stp, sorted[m]? = some stp ∧ MovesTo sorted n X stp.bp

/-- What holds of the state `n` by itself, from its closure on. -/
structure StateOk (lemp : Lemon τ ν) (fs : FirstSets τ ν) (n : Nat) (stp : State τ ν) : Prop where
  basis : lemp.IsBasis stp.bp
  nodup : (itemsOf stp.cfp).Nodup
  mem   : ∀ k, k ∈ itemsOf stp.cfp ↔ InClosure lemp (· ∈ stp.bp) k
  fws   : ∀ k a, FwsAt stp.cfp k a ↔ (n = 0 ∧ k ∈ stp.bp ∧ a = none) ∨
    ∃ k' ∈ itemsOf stp.cfp, (k.2 = 0 ∧ Calls lemp k' k.1) ∧ a ∈ fs.following (restSyms k')
  link  : ∀ k r, LinkAt stp.cfp k r ↔
    k ∈ itemsOf stp.cfp ∧ fs.vanish (restSyms k) = true ∧ r.stp = n ∧ r.dot = 0 ∧ Calls lemp k r.rp

/-- What a backward link of the configuration `k` says, in a state with the basis `bp`. -/
def BackOk (sorted : List (State τ ν)) (bp : List (Item τ ν)) (k : Item τ ν) (r : Ref τ ν) : Prop :=
  r.rp = k.1 ∧ k.2 = r.dot + 1 ∧ ∃ X, nextSym (r.rp, r.dot) = some X ∧ MovesTo sorted r.stp X bp

/-- What an action of the state `n` says. -/
def ApOk (sorted : List (State τ ν)) (n : Nat) (e : Action τ ν) : Prop :=
  ∃ X m, e.type = .shift m ∧ e.sp ∈ shiftSyms X ∧ IsGoto sorted n X m

/-- What holds of the table all the way: backward links and actions belong to transitions, and every state but the
    first is the successor of an earlier one. -/
structure TableOk (lemp : Lemon τ ν) (fs : FirstSets τ ν) (sorted : List (State τ ν)) : Prop where
  state    : ∀ (n : Nat) (stp : State τ ν), sorted[n]? = some stp → StateOk lemp fs n stp
  distinct : ∀ (n m : Nat) (stp stp' : State τ ν), sorted[n]? = some stp → sorted[m]? = some stp' → stp.bp = stp'.bp → n = m
  first    : ∀ stp : State τ ν, sorted[0]? = some stp → ∀ k, k ∈ stp.bp ↔ k.2 = 0 ∧ k.1 ∈ lemp.rulesOf lemp.sp
  back     : ∀ (n : Nat) (stp : State τ ν), sorted[n]? = some stp → ∀ k r, BackAt stp.cfp k r →
    BackOk sorted stp.bp k r
  ap       : ∀ (n : Nat) (stp : State τ ν), sorted[n]? = some stp → ∀ e ∈ stp.ap, ApOk sorted n e
  parent   : ∀ (n : Nat) (stp : State τ ν), sorted[n]? = some stp → 0 < n → ∃ m X, m < n ∧ MovesTo sorted m X stp.bp

/-- The transition from `n` by `X` to `m`, with all that `buildshifts` notes of it. -/
structure Shifted (sorted : List (State τ ν)) (n : Nat) (ap : List (Action τ ν)) (X : Sym τ ν) (m : Nat) : Prop where
  goto  : IsGoto sorted n X m
  shift : ∀ sym ∈ shiftSyms X, ∃ e ∈ ap, e.sp = sym ∧ e.type = .shift m
  back  : LinkedBack sorted n X m

/-- `buildshifts` is through with the state `n`. -/
def Done (sorted : List (State τ ν)) (n : Nat) : Prop :=
  ∃ stp, sorted[n]? = some stp ∧ (∀ X ∈ shiftedSyms (itemsOf stp.cfp), ∃ m, Shifted sorted n stp.ap X m) ∧
    stp.ap.map Action.sp = ((shiftedSyms (itemsOf stp.cfp)).flatMap shiftSyms).reverse

section
variable {kept : Nat → Prop} {sorted sorted' : List (State τ ν)}

theorem Extends.movesTo (h : Extends kept sorted sorted') {n : Nat} {X : Sym τ ν} {bp : List (Item τ ν)}
    (hm : MovesTo sorted n X bp) : MovesTo sorted' n X bp := by
  obtain ⟨stp, hn, hX, hbp⟩ := hm
  obtain ⟨stp', hn', hg, -⟩ := h n stp hn
  refine ⟨stp', hn', ?_, ?_⟩
  · rw [hg.items]
    exact hX
  · rw [hg.items]
    exact hbp

theorem Extends.isGoto (h : Extends kept sorted sorted') {n : Nat} {X : Sym τ ν} {m : Nat} (hg : IsGoto sorted n X m) :
    IsGoto sorted' n X m := by
  obtain ⟨stp, hm, hmoves⟩ := hg
  obtain ⟨stp', hm', hgrows, -⟩ := h m stp hm
  exact ⟨stp', hm', hgrows.bp ▸ h.movesTo hmoves⟩

theorem Extends.shifted (h : Extends kept sorted sorted') {n : Nat} {ap ap' : List (Action τ ν)} (hap : ap ⊆ ap')
    {X : Sym τ ν} {m : Nat} (hs : Shifted sorted n ap X m) : Shifted sorted' n ap' X m := by
  refine ⟨h.isGoto hs.goto, fun sym hsym => ?_, h.linkedBack hs.back⟩
  obtain ⟨e, he, hsp, htype⟩ := hs.shift sym hsym
  exact ⟨e, hap he, hsp, htype⟩

theorem Extends.done (h : Extends kept sorted sorted') {n : Nat} (hn : kept n) (hd : Done sorted n) : Done sorted' n := by
  obtain ⟨stp, hstp, hall, hap⟩ := hd
  obtain ⟨stp', hstp', hg, hkept⟩ := h n stp hstp
  have hsame := hkept hn
  refine ⟨stp', hstp', fun X hX => ?_, ?_⟩
  · rw [hg.items] at hX
    obtain ⟨m, hm⟩ := hall X hX
    exact ⟨m, h.shifted (by rw [hsame]; exact List.Subset.refl _) hm⟩
  · rw [hsame, hg.items]
    exact hap

omit [DecidableEq ν] in
theorem StateOk.grows {lemp : Lemon τ ν} {fs : FirstSets τ ν} {n : Nat} {stp stp' : State τ ν}
    (h : StateOk lemp fs n stp) (hg : stp.Grows stp') : StateOk lemp fs n stp' := by
  obtain ⟨h1, h2, h3, h4, h5⟩ := h
  refine ⟨?_, ?_, ?_, fun k a => ?_, fun k r => ?_⟩
  · rw [hg.bp]
    exact h1
  · rw [hg.items]
    exact h2
  · rw [hg.items, hg.bp]
    exact h3
  · rw [hg.fws, hg.items, hg.bp]
    exact h4 k a
  · rw [hg.link, hg.items]
    exact h5 k r

end

/-! ## Writes to the table -/

section
variable {lemp : Lemon τ ν} {fs : FirstSets τ ν} {sorted : List (State τ ν)}

omit [DecidableEq τ] [DecidableEq ν] in
theorem getElem?_modify_cases {k n : Nat} {f : State τ ν → State τ ν} {stp' : State τ ν}
    (h : (sorted.modify k f)[n]? = some stp') :
    ∃ stp, sorted[n]? = some stp ∧ ((k = n ∧ stp' = f stp) ∨ (k ≠ n ∧ stp' = stp)) := by
  by_cases hk : k = n
  · subst hk
    rw [List.getElem?_modify_eq] at h
    obtain ⟨stp, hstp, heq⟩ := Option.map_eq_some_iff.mp h
    exact ⟨stp, hstp, .inl ⟨rfl, heq.symm⟩⟩
  · rw [List.getElem?_modify_ne _ _ hk] at h
    exact ⟨stp', h, .inr ⟨hk, rfl⟩⟩

omit [DecidableEq τ] [DecidableEq ν] in
theorem extends_modify {kept : Nat → Prop} {k : Nat} {f : State τ ν → State τ ν}
    (hg : ∀ stp, sorted[k]? = some stp → stp.Grows (f stp) ∧ (kept k → (f stp).ap = stp.ap)) :
    Extends kept sorted (sorted.modify k f) := by
  intro n stp hn
  by_cases hk : k = n
  · subst hk
    refine ⟨f stp, ?_, hg stp hn⟩
    rw [List.getElem?_modify_eq, hn]
    rfl
  · refine ⟨stp, ?_, .refl stp, fun _ => rfl⟩
    rw [List.getElem?_modify_ne _ _ hk]
    exact hn

theorem TableOk.modify (h : TableOk lemp fs sorted) {k : Nat} {f : State τ ν → State τ ν}
    (hg : ∀ stp, sorted[k]? = some stp → stp.Grows (f stp))
    (hback : ∀ stp, sorted[k]? = some stp → ∀ i r, BackAt (f stp).cfp i r →
      BackAt stp.cfp i r ∨ BackOk sorted stp.bp i r)
    (hap : ∀ stp, sorted[k]? = some stp → ∀ e ∈ (f stp).ap, e ∈ stp.ap ∨ ApOk sorted k e) :
    TableOk lemp fs (sorted.modify k f) := by
  have hext : Extends (fun _ => False) sorted (sorted.modify k f) :=
    extends_modify fun stp hstp => ⟨hg stp hstp, False.elim⟩
  -- every state of the new table comes from one of the old table with the same basis
  have hold : ∀ (n : Nat) stp', (sorted.modify k f)[n]? = some stp' →
      ∃ stp : State τ ν, sorted[n]? = some stp ∧ stp.Grows stp' := by
    intro n stp' hn
    obtain ⟨stp, hstp, ⟨rfl, rfl⟩ | ⟨-, rfl⟩⟩ := getElem?_modify_cases hn
    · exact ⟨stp, hstp, hg stp hstp⟩
    · exact ⟨stp', hstp, .refl stp'⟩
  refine ⟨fun n stp' hn => ?_, fun n m stp₁ stp₂ hn hm heq => ?_, fun stp' hn => ?_, fun n stp' hn i r hir => ?_,
    fun n stp' hn e he => ?_, fun n stp' hn hpos => ?_⟩
  · obtain ⟨stp, hstp, hgrow⟩ := hold n stp' hn
    exact (h.state n stp hstp).grows hgrow
  · obtain ⟨stp₁', hn', hg₁⟩ := hold n stp₁ hn
    obtain ⟨stp₂', hm', hg₂⟩ := hold m stp₂ hm
    exact h.distinct n m stp₁' stp₂' hn' hm' (hg₁.bp.symm.trans (heq.trans hg₂.bp))
  · obtain ⟨stp, hstp, hgrow⟩ := hold 0 stp' hn
    rw [hgrow.bp]
    exact h.first stp hstp
  · have hok : ∀ stp : State τ ν, stp'.bp = stp.bp → BackOk sorted stp.bp i r → BackOk (sorted.modify k f) stp'.bp i r := by
      rintro stp hbp ⟨hrp, hdot, X, hX, hmoves⟩
      exact ⟨hrp, hdot, X, hX, hbp ▸ hext.movesTo hmoves⟩
    obtain ⟨stp, hstp, ⟨rfl, rfl⟩ | ⟨-, rfl⟩⟩ := getElem?_modify_cases hn
    · have hbp := (hg stp hstp).bp
      rcases hback stp hstp i r hir with hir | hir
      · exact hok stp hbp (h.back k stp hstp i r hir)
      · exact hok stp hbp hir
    · exact hok stp' rfl (h.back n stp' hstp i r hir)
  · have hok : ApOk sorted n e → ApOk (sorted.modify k f) n e := by
      rintro ⟨X, m, htype, hsp, hgoto⟩
      exact ⟨X, m, htype, hsp, hext.isGoto hgoto⟩
    obtain ⟨stp, hstp, ⟨rfl, rfl⟩ | ⟨-, rfl⟩⟩ := getElem?_modify_cases hn
    · rcases hap stp hstp e he with he | he
      · exact hok (h.ap k stp hstp e he)
      · exact hok he
    · exact hok (h.ap n stp' hstp e he)
  · obtain ⟨stp, hstp, hgrow⟩ := hold n stp' hn
    obtain ⟨m, X, hlt, hmoves⟩ := h.parent n stp hstp hpos
    exact ⟨m, X, hlt, hgrow.bp ▸ hext.movesTo hmoves⟩

omit [DecidableEq τ] [DecidableEq ν] in
theorem extends_append (kept : Nat → Prop) (stp : State τ ν) : Extends kept sorted (sorted ++ [stp]) := by
  intro n stp₀ hn
  refine ⟨stp₀, ?_, .refl stp₀, fun _ => rfl⟩
  rw [List.getElem?_append_left (List.getElem?_eq_some_iff.mp hn).1]
  exact hn

/-- A new state, without actions, behind the others. -/
theorem TableOk.append (h : TableOk lemp fs sorted) {stp : State τ ν} (hstate : StateOk lemp fs sorted.length stp)
    (hnew : ∀ (n : Nat) (stp' : State τ ν), sorted[n]? = some stp' → stp'.bp ≠ stp.bp)
    (hfirst : sorted = [] → ∀ k, k ∈ stp.bp ↔ k.2 = 0 ∧ k.1 ∈ lemp.rulesOf lemp.sp)
    (hback : ∀ k r, BackAt stp.cfp k r → BackOk sorted stp.bp k r) (hap : stp.ap = [])
    (hparent : sorted ≠ [] → ∃ m X, m < sorted.length ∧ MovesTo sorted m X stp.bp) :
    TableOk lemp fs (sorted ++ [stp]) := by
  have hext : Extends (fun _ => False) sorted (sorted ++ [stp]) := extends_append _ stp
  have hcases : ∀ (n : Nat) stp', (sorted ++ [stp])[n]? = some stp' →
      sorted[n]? = some stp' ∨ (n = sorted.length ∧ stp' = stp) := by
    intro n stp' hn
    rcases Nat.lt_trichotomy n sorted.length with hlt | rfl | hgt
    · rw [List.getElem?_append_left hlt] at hn
      exact .inl hn
    · rw [List.getElem?_append_right (Nat.le_refl _), Nat.sub_self] at hn
      exact .inr ⟨rfl, (Option.some.inj hn).symm⟩
    · have hlt := (List.getElem?_eq_some_iff.mp hn).1
      rw [List.length_append, List.length_singleton] at hlt
      omega
  refine ⟨fun n stp' hn => ?_, fun n m stp₁ stp₂ hn hm heq => ?_, fun stp' hn => ?_, fun n stp' hn i r hir => ?_,
    fun n stp' hn e he => ?_, fun n stp' hn hpos => ?_⟩
  · rcases hcases n stp' hn with hn | ⟨rfl, rfl⟩
    · exact h.state n stp' hn
    · exact hstate
  · rcases hcases n stp₁ hn with hn₁ | ⟨rfl, rfl⟩ <;> rcases hcases m stp₂ hm with hm₁ | ⟨rfl, rfl⟩
    · exact h.distinct n m stp₁ stp₂ hn₁ hm₁ heq
    · exact absurd heq (hnew n stp₁ hn₁)
    · exact absurd heq.symm (hnew m stp₂ hm₁)
    · rfl
  · rcases hcases 0 stp' hn with hn | ⟨hlen, rfl⟩
    · exact h.first stp' hn
    · exact hfirst (List.eq_nil_of_length_eq_zero hlen.symm)
  · have hok : BackOk sorted stp'.bp i r → BackOk (sorted ++ [stp]) stp'.bp i r := by
      rintro ⟨hrp, hdot, X, hX, hmoves⟩
      exact ⟨hrp, hdot, X, hX, hext.movesTo hmoves⟩
    rcases hcases n stp' hn with hn | ⟨rfl, rfl⟩
    · exact hok (h.back n stp' hn i r hir)
    · exact hok (hback i r hir)
  · rcases hcases n stp' hn with hn | ⟨rfl, rfl⟩
    · obtain ⟨X, m, htype, hsp, hgoto⟩ := h.ap n stp' hn e he
      exact ⟨X, m, htype, hsp, hext.isGoto hgoto⟩
    · rw [hap] at he
      exact absurd he List.not_mem_nil
  · rcases hcases n stp' hn with hn | ⟨rfl, rfl⟩
    · obtain ⟨m, X, hlt, hmoves⟩ := h.parent n stp' hn hpos
      exact ⟨m, X, hlt, hext.movesTo hmoves⟩
    · obtain ⟨m, X, hlt, hmoves⟩ := hparent (List.ne_nil_of_length_pos hpos)
      exact ⟨m, X, hlt, hext.movesTo hmoves⟩

end

/-! ## `buildshifts` -/

section
variable {lemp : Lemon τ ν} {fs : FirstSets τ ν}

/-- What `getstate` expects of the list that it is called with. -/
structure BasisOf (lemp : Lemon τ ν) (sorted : List (State τ ν)) (current : List (Config τ ν)) : Prop where
  nodup  : (itemsOf current).Nodup
  isItem : ∀ k ∈ itemsOf current, lemp.IsItem k
  fws    : ∀ k a, FwsAt current k a ↔ sorted = [] ∧ k ∈ itemsOf current ∧ a = none
  link   : ∀ k r, ¬ LinkAt current k r
  back   : ∀ k r, BackAt current k r → BackOk sorted (itemsOf current) k r
  first  : sorted = [] → ∀ k, k ∈ itemsOf current ↔ k.2 = 0 ∧ k.1 ∈ lemp.rulesOf lemp.sp
  parent : sorted ≠ [] → ∃ m X, m < sorted.length ∧ MovesTo sorted m X (itemsOf current)

/-- What `getstate` gives back: the state `m` with that basis, where it has noted the backward links; whatever states
    have come in are done. -/
structure Got (lemp : Lemon τ ν) (fs : FirstSets τ ν) (current : List (Config τ ν)) (sorted : List (State τ ν)) (m : Nat)
    (sorted' : List (State τ ν)) : Prop where
  ok    : TableOk lemp fs sorted'
  grown : Extends (fun _ => True) sorted sorted'
  state : ∃ stp, sorted'[m]? = some stp ∧ (∀ k, k ∈ stp.bp ↔ k ∈ itemsOf current) ∧
    ∀ k r, BackAt current k r → BackAt stp.cfp k r
  done  : ∀ n, sorted.length ≤ n → n < sorted'.length → Done sorted' n

/-- What `buildshifts` has done to the state `n` after some groups. -/
structure Built (lemp : Lemon τ ν) (fs : FirstSets τ ν) (n : Nat) (groups : List (Sym τ ν × List (Item τ ν)))
    (stp : State τ ν) (sorted sorted' : List (State τ ν)) : Prop where
  ok    : TableOk lemp fs sorted'
  grown : Extends (fun m => m ≠ n) sorted sorted'
  done  : ∀ m, sorted.length ≤ m → m < sorted'.length → Done sorted' m
  state : ∃ stp', sorted'[n]? = some stp' ∧ stp.Grows stp' ∧ stp.ap ⊆ stp'.ap ∧
    (∀ g ∈ groups, ∃ m, Shifted sorted' n stp'.ap g.1 m) ∧
    stp'.ap.map Action.sp = (groups.flatMap (fun g => shiftSyms g.1)).reverse ++ stp.ap.map Action.sp

theorem MovesTo.congr {sorted : List (State τ ν)} {n : Nat} {X : Sym τ ν} {bp bp' : List (Item τ ν)}
    (h : MovesTo sorted n X bp) (hmem : ∀ k, k ∈ bp' ↔ k ∈ bp) : MovesTo sorted n X bp' := by
  obtain ⟨stp, hstp, hX, hbp⟩ := h
  exact ⟨stp, hstp, hX, fun k => (hmem k).trans (hbp k)⟩

theorem BackOk.congr {sorted : List (State τ ν)} {bp bp' : List (Item τ ν)} {k : Item τ ν} {r : Ref τ ν}
    (h : BackOk sorted bp k r) (hmem : ∀ k, k ∈ bp' ↔ k ∈ bp) : BackOk sorted bp' k r := by
  obtain ⟨hrp, hdot, X, hX, hmoves⟩ := h
  exact ⟨hrp, hdot, X, hX, hmoves.congr hmem⟩

omit [DecidableEq ν] in
/-- The items of a state are items of the grammar. -/
theorem StateOk.isItem {n : Nat} {stp : State τ ν} (h : StateOk lemp fs n stp) : ∀ k ∈ itemsOf stp.cfp, lemp.IsItem k :=
  fun k hk => ((h.mem k).mp hk).isItem h.basis.isItem

omit [DecidableEq τ] [DecidableEq ν] in
theorem isItem_succ {rp : Rule τ ν} {dot : Nat} {X : Sym τ ν} (hk : lemp.IsItem (rp, dot))
    (hX : nextSym (rp, dot) = some X) : lemp.IsItem (rp, dot + 1) :=
  ⟨hk.1, (List.getElem?_eq_some_iff.mp hX).1⟩

/-- The groups of a state are such lists. -/
theorem basisOf_newBasis {sorted : List (State τ ν)} (hok : TableOk lemp fs sorted) {n : Nat} {stp : State τ ν}
    (hstp : sorted[n]? = some stp) {X : Sym τ ν} (hX : X ∈ shiftedSyms (itemsOf stp.cfp)) :
    BasisOf lemp sorted (newBasis n ((itemsOf stp.cfp).filter (fun k => nextSym k = some X))) := by
  obtain ⟨hnodup, hmem, hfws, hlink, hback⟩ := newBasis_spec n ((itemsOf stp.cfp).filter (fun k => nextSym k = some X))
  have hmoved : ∀ k, k ∈ itemsOf (newBasis n ((itemsOf stp.cfp).filter (fun k => nextSym k = some X))) ↔
      Moved (itemsOf stp.cfp) X k := by
    intro k
    rw [hmem]
    simp only [List.mem_filter, decide_eq_true_eq, Moved]
  have hmoves : MovesTo sorted n X (itemsOf (newBasis n ((itemsOf stp.cfp).filter (fun k => nextSym k = some X)))) :=
    ⟨stp, hstp, hX, hmoved⟩
  have hlt := (List.getElem?_eq_some_iff.mp hstp).1
  have hne : sorted ≠ [] := List.ne_nil_of_length_pos (by omega)
  refine ⟨hnodup, fun k hk => ?_, fun k a => ?_, hlink, fun k r hr => ?_, fun h => absurd h hne, fun _ => ⟨n, X, hlt, hmoves⟩⟩
  · obtain ⟨dot, hdot, hin, hnext⟩ := (hmoved k).mp hk
    obtain ⟨rp, d⟩ := k
    obtain rfl : d = dot + 1 := hdot
    exact isItem_succ ((hok.state n stp hstp).isItem _ hin) hnext
  · exact ⟨fun h => absurd h (hfws k a), fun h => absurd h.1 hne⟩
  · obtain ⟨hn, hrp, hdot, hin⟩ := (hback k r).mp hr
    obtain ⟨hin, hnext⟩ := List.mem_filter.mp hin
    exact ⟨hrp, hdot, X, of_decide_eq_true hnext, hn ▸ hmoves⟩

/-- The actions of one shift. -/
theorem actionAdd_spec {n m : Nat} {X : Sym τ ν} (syms : List (ActSym τ ν)) (hsyms : ∀ sym ∈ syms, sym ∈ shiftSyms X)
    {b : Build τ ν} {stp : State τ ν} (hok : TableOk lemp fs b.sorted) (hstp : b.sorted[n]? = some stp)
    (hgoto : IsGoto b.sorted n X m) :
    TableOk lemp fs (syms.foldl (fun b sym => b.actionAdd n (.shift m) sym) b).sorted ∧
      Extends (fun m => m ≠ n) b.sorted (syms.foldl (fun b sym => b.actionAdd n (.shift m) sym) b).sorted ∧
      (syms.foldl (fun b sym => b.actionAdd n (.shift m) sym) b).sorted.length = b.sorted.length ∧
      ∃ stp', (syms.foldl (fun b sym => b.actionAdd n (.shift m) sym) b).sorted[n]? = some stp' ∧ stp.Grows stp' ∧
        stp.ap ⊆ stp'.ap ∧ (∀ sym ∈ syms, ∃ e ∈ stp'.ap, e.sp = sym ∧ e.type = .shift m) ∧
        stp'.ap.map Action.sp = syms.reverse ++ stp.ap.map Action.sp := by
  induction syms generalizing b stp with
  | nil =>
      exact ⟨hok, .refl _ _, rfl, stp, hstp, .refl stp, List.Subset.refl _, fun _ h => absurd h List.not_mem_nil, rfl⟩
  | cons sym syms ih =>
      have hstp₁ : (b.actionAdd n (.shift m) sym).sorted[n]? =
          some { stp with ap := ⟨sym, .shift m, b.nact⟩ :: stp.ap } := by
        change (b.sorted.modify n _)[n]? = _
        rw [List.getElem?_modify_eq, hstp]
        rfl
      have hgrow : ∀ stp₀ : State τ ν, stp₀.Grows { stp₀ with ap := ⟨sym, .shift m, b.nact⟩ :: stp₀.ap } :=
        fun _ => ⟨rfl, rfl, fun _ _ => Iff.rfl, fun _ _ => Iff.rfl, fun _ _ => id⟩
      have hok₁ : TableOk lemp fs (b.actionAdd n (.shift m) sym).sorted := by
        refine hok.modify (fun stp₀ _ => hgrow stp₀) (fun _ _ _ _ h => .inl h) (fun stp₀ _ e he => ?_)
        rcases List.mem_cons.mp he with rfl | he
        · exact .inr ⟨X, m, rfl, hsyms sym List.mem_cons_self, hgoto⟩
        · exact .inl he
      have hext₁ : Extends (fun m => m ≠ n) b.sorted (b.actionAdd n (.shift m) sym).sorted :=
        extends_modify fun stp₀ _ => ⟨hgrow stp₀, fun h => absurd rfl h⟩
      obtain ⟨hok₂, hext₂, hlen, stp', hstp', hgrow', hsub, hall, hap⟩ :=
        ih (fun s hs => hsyms s (List.mem_cons_of_mem _ hs)) hok₁ hstp₁ (hext₁.isGoto hgoto)
      refine ⟨hok₂, hext₁.trans hext₂, hlen.trans (List.length_modify _ _ _), stp', hstp', (hgrow stp).trans hgrow',
        List.Subset.trans (List.subset_cons_self _ _) hsub, fun s hs => ?_, ?_⟩
      · rcases List.mem_cons.mp hs with rfl | hs
        · exact ⟨_, hsub List.mem_cons_self, rfl, rfl⟩
        · exact hall s hs
      · rw [hap, List.reverse_cons, List.map_cons, List.append_assoc]
        rfl

theorem buildshifts_spec {get : List (Config τ ν) → Build τ ν → Option (Nat × Build τ ν)} {depth : Nat}
    (hget : ∀ current b, TableOk lemp fs b.sorted → BasisOf lemp b.sorted current →
      2 ^ lemp.items.length < depth + b.sorted.length →
      ∃ m b', get current b = some (m, b') ∧ Got lemp fs current b.sorted m b'.sorted)
    {n : Nat} {l : List (Item τ ν)} (groups : List (Sym τ ν × List (Item τ ν)))
    (hgroups : ∀ g ∈ groups, g.2 = l.filter (fun k => nextSym k = some g.1) ∧ g.1 ∈ shiftedSyms l) {b : Build τ ν}
    {stp : State τ ν} (hok : TableOk lemp fs b.sorted) (hstp : b.sorted[n]? = some stp) (hl : itemsOf stp.cfp = l)
    (hdepth : 2 ^ lemp.items.length < depth + b.sorted.length) :
    ∃ b', buildshifts get n groups b = some b' ∧ Built lemp fs n groups stp b.sorted b'.sorted := by
  induction groups generalizing b stp with
  | nil =>
      refine ⟨b, rfl, hok, .refl _ _, fun m hm hm' => ?_, stp, hstp, .refl stp, List.Subset.refl _,
        fun _ h => absurd h List.not_mem_nil, rfl⟩
      omega
  | cons g groups ih =>
      obtain ⟨X, group⟩ := g
      obtain ⟨hgroup, hX⟩ := hgroups _ List.mem_cons_self
      simp only at hgroup hX
      subst hl
      obtain ⟨m, b₁, hrun, hgot⟩ := hget _ b hok (basisOf_newBasis hok hstp hX) hdepth
      obtain ⟨stp₁, hstp₁, hgrow₁, hap₁⟩ := hgot.grown n stp hstp
      have hap₁ := hap₁ trivial
      -- the state that came back is the one that the group leads to
      obtain ⟨stpm, hm, hbp, hbackm⟩ := hgot.state
      have hmoved : ∀ k, k ∈ stpm.bp ↔ Moved (itemsOf stp.cfp) X k := by
        intro k
        rw [hbp, (newBasis_spec n _).2.1]
        simp only [List.mem_filter, decide_eq_true_eq, Moved]
      have hgoto : IsGoto b₁.sorted n X m := by
        refine ⟨stpm, hm, stp₁, hstp₁, ?_, ?_⟩
        · rw [hgrow₁.items]
          exact hX
        · rw [hgrow₁.items]
          exact hmoved
      have hback : LinkedBack b₁.sorted n X m := by
        refine ⟨stp₁, stpm, hstp₁, hm, fun k hk hnext => hbackm _ _ ?_⟩
        rw [hgrow₁.items] at hk
        exact ((newBasis_spec n _).2.2.2.2 _ _).mpr
          ⟨rfl, rfl, rfl, List.mem_filter.mpr ⟨hk, decide_eq_true hnext⟩⟩
      obtain ⟨hok₂, hext₂, hlen₂, stp₂, hstp₂, hgrow₂, hsub₂, hshift₂, hap₂⟩ :=
        actionAdd_spec (shiftSyms X) (fun _ h => h) hgot.ok hstp₁ hgoto
      have hlen₁ := hgot.grown.length_le
      obtain ⟨b', hrun', hbuilt⟩ := ih (fun g hg => hgroups g (List.mem_cons_of_mem _ hg)) hok₂ hstp₂
        (hgrow₂.items.trans hgrow₁.items) (by omega)
      obtain ⟨stp', hstp', hgrow', hsub', hall', hap'⟩ := hbuilt.state
      refine ⟨b', ?_, hbuilt.ok, ?_, fun i hi hi' => ?_, stp', hstp', (hgrow₁.trans hgrow₂).trans hgrow', ?_, fun g hg => ?_, ?_⟩
      · rw [buildshifts, hgroup, hrun]
        exact hrun'
      · exact ((hgot.grown.mono fun _ _ => trivial).trans hext₂).trans hbuilt.grown
      · by_cases hlt : i < b₁.sorted.length
        · refine (hext₂.trans hbuilt.grown).done (n := i) ?_ (hgot.done i hi hlt)
          have := (List.getElem?_eq_some_iff.mp hstp).1
          omega
        · exact hbuilt.done i (by omega) hi'
      · rw [← hap₁]
        exact List.Subset.trans hsub₂ hsub'
      · rcases List.mem_cons.mp hg with rfl | hg
        · refine ⟨m, (hext₂.trans hbuilt.grown).isGoto hgoto, fun sym hsym => ?_, (hext₂.trans hbuilt.grown).linkedBack hback⟩
          obtain ⟨e, he, hsp, htype⟩ := hshift₂ sym hsym
          exact ⟨e, hsub' he, hsp, htype⟩
        · exact hall' g hg
      · rw [hap', hap₂, hap₁, List.flatMap_cons, List.reverse_append, List.append_assoc]

/-! ## `getstate` -/

/-- There are no more states than sets of items. -/
theorem TableOk.length_le {sorted : List (State τ ν)} (h : TableOk lemp fs sorted) :
    sorted.length ≤ 2 ^ lemp.items.length := by
  have hnodup : (sorted.map (fun stp => stp.bp.toFinset)).Nodup := by
    refine List.nodup_iff_getElem?_ne_getElem?.mpr fun n m hlt hm heq => ?_
    rw [List.length_map] at hm
    have hn : n < sorted.length := by omega
    rw [List.getElem?_map, List.getElem?_map, List.getElem?_eq_getElem hn, List.getElem?_eq_getElem hm] at heq
    have hset := Option.some.inj heq
    have hbp : sorted[n].bp = sorted[m].bp := by
      refine (h.state n _ (List.getElem?_eq_getElem hn)).basis.ext (h.state m _ (List.getElem?_eq_getElem hm)).basis ?_
      intro k
      exact List.mem_toFinset.symm.trans ((Finset.ext_iff.mp hset k).trans List.mem_toFinset)
    have := h.distinct n m _ _ (List.getElem?_eq_getElem hn) (List.getElem?_eq_getElem hm) hbp
    omega
  have hsub : (sorted.map (fun stp => stp.bp.toFinset)).toFinset ⊆ lemp.items.toFinset.powerset := by
    intro s hs
    obtain ⟨stp, hstp, rfl⟩ := List.mem_map.mp (List.mem_toFinset.mp hs)
    obtain ⟨n, hn⟩ := List.mem_iff_getElem?.mp hstp
    refine Finset.mem_powerset.mpr fun k hk => List.mem_toFinset.mpr (Lemon.mem_items.mpr ?_)
    exact (h.state n stp hn).basis.isItem k (List.mem_toFinset.mp hk)
  calc sorted.length = (sorted.map (fun stp => stp.bp.toFinset)).toFinset.card := by
        rw [List.toFinset_card_of_nodup hnodup, List.length_map]
    _ ≤ lemp.items.toFinset.powerset.card := Finset.card_le_card hsub
    _ = 2 ^ lemp.items.toFinset.card := Finset.card_powerset _
    _ ≤ 2 ^ lemp.items.length := Nat.pow_le_pow_right (by omega) (List.toFinset_card_le _)

/-- The new state is as its closure is, sorted. -/
theorem stateOk_new (hsize : lemp.items.length < 2 ^ 30) {sorted : List (State τ ν)} {current cfp : List (Config τ ν)}
    (hbasis : BasisOf lemp sorted current) (hcfp : ClosureOf lemp fs sorted.length current cfp) :
    StateOk lemp fs sorted.length ⟨itemsOf (msort configOrder current), msort configOrder cfp, []⟩ ∧
      ∀ k r, BackAt (msort configOrder cfp) k r ↔ BackAt current k r := by
  obtain ⟨hperm, hbp⟩ := msort_configs hsize hbasis.nodup hbasis.isItem
  obtain ⟨hperm', hall⟩ := msort_configs hsize hcfp.nodup (fun k hk => ((hcfp.mem k).mp hk).isItem hbasis.isItem)
  have hmem : ∀ k, k ∈ itemsOf (msort configOrder cfp) ↔ k ∈ itemsOf cfp := fun k => (hperm'.map Config.item).mem_iff
  have hbpmem : ∀ k, k ∈ itemsOf (msort configOrder current) ↔ k ∈ itemsOf current :=
    fun k => (hperm.map Config.item).mem_iff
  have hB : (· ∈ itemsOf current) = (· ∈ itemsOf (msort configOrder current)) :=
    funext fun k => propext (hbpmem k).symm
  refine ⟨⟨hbp, hall.nodup, fun k => ?_, fun k a => ?_, fun k r => ?_⟩, fun k r => ?_⟩
  · rw [hmem, hcfp.mem, hB]
  · have hfws : FwsAt (msort configOrder cfp) k a ↔ FwsAt cfp k a := by
      simp only [FwsAt, hperm'.mem_iff]
    rw [hfws, hcfp.fws, hbasis.fws]
    simp only [hmem, hbpmem, List.length_eq_zero_iff]
  · have hlink : LinkAt (msort configOrder cfp) k r ↔ LinkAt cfp k r := by
      simp only [LinkAt, hperm'.mem_iff]
    rw [hlink, hcfp.link, hmem]
    exact or_iff_right (hbasis.link k r)
  · have hback : BackAt (msort configOrder cfp) k r ↔ BackAt cfp k r := by
      simp only [BackAt, hperm'.mem_iff]
    rw [hback, hcfp.back]

/-- The basis has been met before: its state takes the backward links. -/
theorem getstate_found (hsize : lemp.items.length < 2 ^ 30) (depth : Nat) {current : List (Config τ ν)} {b : Build τ ν}
    (hok : TableOk lemp fs b.sorted) (hbasis : BasisOf lemp b.sorted current) {k : Nat}
    (hfind : b.sorted.findIdx? (fun stp => stp.bp = itemsOf (msort configOrder current)) = some k) :
    ∃ b', getstate lemp fs (depth + 1) current b = some (k, b') ∧ Got lemp fs current b.sorted k b'.sorted := by
  obtain ⟨hperm, -⟩ := msort_configs hsize hbasis.nodup hbasis.isItem
  have hbpmem : ∀ k, k ∈ itemsOf (msort configOrder current) ↔ k ∈ itemsOf current :=
    fun k => (hperm.map Config.item).mem_iff
  have hback : ∀ i r, BackAt (msort configOrder current) i r ↔ BackAt current i r := by
    intro i r
    simp only [BackAt, hperm.mem_iff]
  obtain ⟨hlt, heq, -⟩ := List.findIdx?_eq_some_iff_getElem.mp hfind
  have hk := List.getElem?_eq_getElem hlt
  have hbpk : b.sorted[k].bp = itemsOf (msort configOrder current) := of_decide_eq_true heq
  obtain ⟨hitems, hfws, hlink, htake⟩ := takeLinks_spec b.sorted[k] (fun i hi => by
    rw [(hok.state k _ hk).mem, hbpk]
    exact .basis hi)
  have hgrow : b.sorted[k].Grows (b.sorted[k].takeLinks (msort configOrder current)) :=
    ⟨rfl, hitems, hfws, hlink, fun i r h => (htake i r).mpr (.inl h)⟩
  refine ⟨{ b with sorted := b.sorted.modify k (fun stp => stp.takeLinks (msort configOrder current)) }, ?_, ?_, ?_, ?_, ?_⟩
  · rw [getstate]
    simp only
    rw [hfind]
  · refine hok.modify (fun stp hstp => ?_) (fun stp hstp i r hir => ?_) (fun stp _ e he => .inl he)
    · obtain rfl := Option.some.inj (hk.symm.trans hstp)
      exact hgrow
    · obtain rfl := Option.some.inj (hk.symm.trans hstp)
      refine ((htake i r).mp hir).imp_right fun hir => ?_
      refine (hbasis.back i r ((hback i r).mp hir)).congr fun i => ?_
      rw [hbpk]
      exact hbpmem i
  · refine extends_modify fun stp hstp => ?_
    obtain rfl := Option.some.inj (hk.symm.trans hstp)
    exact ⟨hgrow, fun _ => rfl⟩
  · refine ⟨b.sorted[k].takeLinks (msort configOrder current), ?_, fun i => ?_, fun i r hir => ?_⟩
    · rw [List.getElem?_modify_eq, hk]
      rfl
    · rw [hgrow.bp, hbpk]
      exact hbpmem i
    · exact (htake i r).mpr (.inr ((hback i r).mpr hir))
  · intro n hn hn'
    rw [List.length_modify] at hn'
    omega

/-- The basis is new: its state comes in, and then everything that can be reached from it. -/
theorem getstate_new (hsize : lemp.items.length < 2 ^ 30) {depth : Nat}
    (ih : ∀ current b, TableOk lemp fs b.sorted → BasisOf lemp b.sorted current →
      2 ^ lemp.items.length < depth + b.sorted.length →
      ∃ m b', getstate lemp fs depth current b = some (m, b') ∧ Got lemp fs current b.sorted m b'.sorted)
    {current : List (Config τ ν)} {b : Build τ ν} (hok : TableOk lemp fs b.sorted)
    (hbasis : BasisOf lemp b.sorted current) (hdepth : 2 ^ lemp.items.length < depth + 1 + b.sorted.length)
    (hfind : b.sorted.findIdx? (fun stp => stp.bp = itemsOf (msort configOrder current)) = none) :
    ∃ m b', getstate lemp fs (depth + 1) current b = some (m, b') ∧ Got lemp fs current b.sorted m b'.sorted := by
  obtain ⟨hperm, -⟩ := msort_configs hsize hbasis.nodup hbasis.isItem
  have hbpmem : ∀ k, k ∈ itemsOf (msort configOrder current) ↔ k ∈ itemsOf current :=
    fun k => (hperm.map Config.item).mem_iff
  obtain ⟨cfp, hclosure, hcfp⟩ := closure_spec lemp fs b.sorted.length hbasis.nodup
  obtain ⟨hstate, hback⟩ := stateOk_new hsize hbasis hcfp
  obtain ⟨stp, hstp⟩ : ∃ stp : State τ ν,
      stp = ⟨itemsOf (msort configOrder current), msort configOrder cfp, []⟩ := ⟨_, rfl⟩
  have hbpstp : stp.bp = itemsOf (msort configOrder current) := by rw [hstp]
  have hcfpstp : stp.cfp = msort configOrder cfp := by rw [hstp]
  rw [← hstp] at hstate
  have hok₁ : TableOk lemp fs (b.sorted ++ [stp]) := by
    refine hok.append hstate (fun n stp' hn => ?_) (fun hnil k => ?_) (fun k r hir => ?_) ?_ (fun hne => ?_)
    · rw [hbpstp]
      exact of_decide_eq_false (List.findIdx?_eq_none_iff.mp hfind stp' (List.mem_of_getElem? hn))
    · rw [hbpstp, hbpmem]
      exact hbasis.first hnil k
    · rw [hbpstp]
      rw [hcfpstp] at hir
      exact (hbasis.back k r ((hback k r).mp hir)).congr hbpmem
    · rw [hstp]
    · rw [hbpstp]
      obtain ⟨m, X, hlt, hmoves⟩ := hbasis.parent hne
      exact ⟨m, X, hlt, hmoves.congr hbpmem⟩
  obtain ⟨b', hrun, hbuilt⟩ := buildshifts_spec ih (shiftGroups (itemsOf stp.cfp) [])
    (fun g hg => ⟨(mem_shiftGroups hg).2.1, List.mem_map.mpr ⟨g, hg, rfl⟩⟩)
    (b := { b with sorted := b.sorted ++ [stp], errors := b.errors ++ closureErrors lemp cfp })
    hok₁ List.getElem?_concat_length rfl (by
      simp only [List.length_append, List.length_singleton]
      omega)
  have hlen : (b.sorted ++ [stp]).length = b.sorted.length + 1 := List.length_append
  obtain ⟨stp', hstp', hgrow, -, hall, hap⟩ := hbuilt.state
  refine ⟨b.sorted.length, b', ?_, hbuilt.ok, ?_, ?_, fun n hn hn' => ?_⟩
  · rw [hcfpstp] at hrun
    rw [getstate]
    simp only
    rw [hfind, hclosure]
    simp only
    rw [← hstp, hrun]
  · intro n stp₀ hn
    have hlt := (List.getElem?_eq_some_iff.mp hn).1
    obtain ⟨stp₁, hn₁, hgrow₁, hap₁⟩ := hbuilt.grown n stp₀ (by
      rw [List.getElem?_append_left hlt]
      exact hn)
    exact ⟨stp₁, hn₁, hgrow₁, fun _ => hap₁ (by omega)⟩
  · refine ⟨stp', hstp', fun k => ?_, fun k r hir => hgrow.back k r ?_⟩
    · rw [hgrow.bp, hbpstp]
      exact hbpmem k
    · rw [hcfpstp]
      exact (hback k r).mpr hir
  · rcases Nat.eq_or_lt_of_le hn with rfl | hlt
    · refine ⟨stp', hstp', fun X hX => ?_, ?_⟩
      · rw [hgrow.items] at hX
        obtain ⟨g, hg, rfl⟩ := List.mem_map.mp hX
        exact hall g hg
      · rw [hap, hgrow.items, shiftedSyms, List.flatMap_map, hstp, List.map_nil, List.append_nil]
    · refine hbuilt.done n ?_ hn'
      change (b.sorted ++ [stp]).length ≤ n
      omega

variable (fs) in
/-- **`getstate` ends**, with the state of its basis and all that can be reached from it. -/
theorem getstate_spec (hsize : lemp.items.length < 2 ^ 30) (depth : Nat) : ∀ current b, TableOk lemp fs b.sorted →
    BasisOf lemp b.sorted current → 2 ^ lemp.items.length < depth + b.sorted.length →
    ∃ m b', getstate lemp fs depth current b = some (m, b') ∧ Got lemp fs current b.sorted m b'.sorted := by
  induction depth with
  | zero =>
      intro current b hok _ hdepth
      have := hok.length_le
      omega
  | succ depth ih =>
      intro current b hok hbasis hdepth
      cases hfind : b.sorted.findIdx? (fun stp => stp.bp = itemsOf (msort configOrder current)) with
      | some k => exact ⟨k, getstate_found hsize depth hok hbasis hfind⟩
      | none => exact getstate_new hsize ih hok hbasis hdepth hfind

end

end

end LemonC
end CSamples
