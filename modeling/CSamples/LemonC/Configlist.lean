import CSamples.LemonC.FirstSets
import CSamples.LemonC.Msort

/-!
# `LemonC.Configlist` — configurations and their closure

A configuration is a rule with a dot in it, and a follow set with the links along which follow sets are going to be
propagated. `closure` is the loop of `Configlist_closure` over a list that grows behind it.

## Contents
- **Model.** `Config`, `configlistAdd`, `closureStep` and `closure`.
- **Spec.** `InClosure`, what belongs to a state with a given basis. `closure_spec`: the loop ends, and its list holds
  these configurations, each with the first sets and the links that its position calls for.
-/

namespace CSamples
namespace LemonC

open Grammar

/-! ## Configurations -/

/-- A rule and the place of its dot. -/
abbrev Item (τ ν : Type) := Rule τ ν × Nat

/-- A pointer to a configuration, by the number of its state, its rule and its dot. -/
structure Ref (τ ν : Type) where
  stp : Nat
  rp  : Rule τ ν
  dot : Nat
  deriving DecidableEq

/-- `struct config`. `status` is left to the loops that use it. -/
structure Config (τ ν : Type) where
  rp   : Rule τ ν
  dot  : Nat
  fws  : Finset (Option τ)
  fplp : List (Ref τ ν)
  bplp : List (Ref τ ν)

variable {τ ν : Type} [DecidableEq τ] [DecidableEq ν]

/-- What identifies a configuration within its state. -/
def Config.item (cfp : Config τ ν) : Item τ ν := (cfp.rp, cfp.dot)

/-- The symbol after the dot. -/
def nextSym (k : Item τ ν) : Option (Sym τ ν) := k.1.rhs[k.2]?

/-- The symbols behind it. -/
def restSyms (k : Item τ ν) : List (Sym τ ν) := k.1.rhs.drop (k.2 + 1)

/-- `Configcmp` -/
def configcmp (a b : Item τ ν) : Int :=
  let x : Int := a.1.index - b.1.index
  if x = 0 then a.2 - b.2 else x

/-- `Configlist_add`, and `Configlist_addbasis`, which makes the configuration part of the basis as well. -/
def configlistAdd (rp : Rule τ ν) (dot : Nat) (current : List (Config τ ν)) : List (Config τ ν) :=
  if (rp, dot) ∈ current.map Config.item then current else current ++ [⟨rp, dot, ∅, [], []⟩]

/-- A write to one configuration of the list. -/
def updateConfig (k : Item τ ν) (f : Config τ ν → Config τ ν) (current : List (Config τ ν)) : List (Config τ ν) :=
  current.map (fun cfp => if cfp.item = k then f cfp else cfp)

/-- `SetUnion(newcfp->fws, …)` -/
def Config.follow (s : Finset (Option τ)) (cfp : Config τ ν) : Config τ ν := { cfp with fws := cfp.fws ∪ s }

/-- `Plink_add(&cfp->fplp, …)` -/
def Config.link (r : Ref τ ν) (cfp : Config τ ν) : Config τ ν := { cfp with fplp := r :: cfp.fplp }

omit [DecidableEq ν] in
@[simp] theorem Config.item_follow (s : Finset (Option τ)) (cfp : Config τ ν) : (cfp.follow s).item = cfp.item := rfl

omit [DecidableEq τ] [DecidableEq ν] in
@[simp] theorem Config.item_link (r : Ref τ ν) (cfp : Config τ ν) : (cfp.link r).item = cfp.item := rfl

/-! ## The closure -/

/-- What follows a nonterminal by the symbols behind it. -/
def FirstSets.following (fs : FirstSets τ ν) (rest : List (Sym τ ν)) : Finset (Option τ) := (fs.firstOf rest).image some

/-- The body of the loop over `newrp` in `Configlist_closure`, for the configuration `k` of the state `n`. -/
def closureRule (fs : FirstSets τ ν) (n : Nat) (k : Item τ ν) (newrp : Rule τ ν) (current : List (Config τ ν)) :
    List (Config τ ν) :=
  let current := updateConfig (newrp, 0) (.follow (fs.following (restSyms k))) (configlistAdd newrp 0 current)
  if fs.vanish (restSyms k) then updateConfig k (.link ⟨n, newrp, 0⟩) current else current

/-- The body of the loop over `cfp` in `Configlist_closure`. -/
def closureStep (lemp : Lemon τ ν) (fs : FirstSets τ ν) (n : Nat) (k : Item τ ν) (current : List (Config τ ν)) :
    List (Config τ ν) :=
  match nextSym k with
  | some (.nonterminal sp) => (lemp.rulesOf sp).foldl (fun current newrp => closureRule fs n k newrp current) current
  | _                      => current

/-- `Configlist_closure` from the `i`-th configuration on, with a bound on the turns. -/
def closureFrom (lemp : Lemon τ ν) (fs : FirstSets τ ν) (n : Nat) :
    Nat → Nat → List (Config τ ν) → Option (List (Config τ ν))
  | 0, _, _            => none
  | fuel+1, i, current =>
      match current[i]? with
      | none     => some current
      | some cfp => closureFrom lemp fs n fuel (i + 1) (closureStep lemp fs n cfp.item current)

/-- `Configlist_closure`, for the state that gets the number `n`. -/
def closure (lemp : Lemon τ ν) (fs : FirstSets τ ν) (n : Nat) (current : List (Config τ ν)) : Option (List (Config τ ν)) :=
  closureFrom lemp fs n (current.length + lemp.rule.length + 1) 0 current

/-! ## What belongs to a state -/

/-- The items of the grammar. -/
def Lemon.IsItem (lemp : Lemon τ ν) (k : Item τ ν) : Prop := k.1 ∈ lemp.rule ∧ k.2 ≤ k.1.nrhs

/-- The items that a basis brings with it. -/
inductive InClosure (lemp : Lemon τ ν) (B : Item τ ν → Prop) : Item τ ν → Prop
  | basis {k : Item τ ν} (h : B k) : InClosure lemp B k
  | rule {k : Item τ ν} (h : InClosure lemp B k) {sp : ν} (hsp : nextSym k = some (.nonterminal sp)) {newrp : Rule τ ν}
      (hrp : newrp ∈ lemp.rulesOf sp) : InClosure lemp B (newrp, 0)

/-- The configuration `k` calls for the rule `newrp`, whose nonterminal is after its dot. -/
def Calls (lemp : Lemon τ ν) (k : Item τ ν) (newrp : Rule τ ν) : Prop :=
  newrp ∈ lemp.rule ∧ nextSym k = some (.nonterminal newrp.lhs)

omit [DecidableEq τ] [DecidableEq ν] in
theorem calls_iff {lemp : Lemon τ ν} {k : Item τ ν} {newrp : Rule τ ν} :
    Calls lemp k newrp ↔ ∃ sp, nextSym k = some (.nonterminal sp) ∧ newrp ∈ lemp.rulesOf sp := by
  unfold Calls
  constructor
  · rintro ⟨hrule, hsp⟩
    exact ⟨newrp.lhs, hsp, (lemp.mem_rulesOf _ _).mpr ⟨hrule, rfl⟩⟩
  · rintro ⟨sp, hsp, hmem⟩
    obtain ⟨hrule, rfl⟩ := (lemp.mem_rulesOf _ _).mp hmem
    exact ⟨hrule, hsp⟩

/-- The items of a list of configurations. -/
abbrev itemsOf (current : List (Config τ ν)) : List (Item τ ν) := current.map Config.item

/-! ## Writes -/

theorem itemsOf_updateConfig {k : Item τ ν} {f : Config τ ν → Config τ ν} (hf : ∀ cfp, (f cfp).item = cfp.item)
    (current : List (Config τ ν)) : itemsOf (updateConfig k f current) = itemsOf current := by
  rw [itemsOf, updateConfig, List.map_map]
  refine List.map_congr_left fun cfp _ => ?_
  simp only [Function.comp_apply]
  split
  · exact hf cfp
  · rfl

theorem mem_updateConfig {k : Item τ ν} {f : Config τ ν → Config τ ν} {current : List (Config τ ν)} {cfp : Config τ ν} :
    cfp ∈ updateConfig k f current ↔
      (cfp ∈ current ∧ cfp.item ≠ k) ∨ ∃ c ∈ current, c.item = k ∧ cfp = f c := by
  unfold updateConfig
  rw [List.mem_map]
  constructor
  · rintro ⟨c, hc, rfl⟩
    split
    · next h => exact .inr ⟨c, hc, h, rfl⟩
    · next h => exact .inl ⟨hc, h⟩
  · rintro (⟨hc, hne⟩ | ⟨c, hc, hk, rfl⟩)
    · exact ⟨cfp, hc, if_neg hne⟩
    · exact ⟨c, hc, if_pos hk⟩

theorem itemsOf_configlistAdd (rp : Rule τ ν) (dot : Nat) (current : List (Config τ ν)) :
    itemsOf (configlistAdd rp dot current) =
      if (rp, dot) ∈ itemsOf current then itemsOf current else itemsOf current ++ [(rp, dot)] := by
  unfold configlistAdd
  split
  · rfl
  · rw [itemsOf, List.map_append]
    rfl

theorem nodup_configlistAdd {rp : Rule τ ν} {dot : Nat} {current : List (Config τ ν)} (h : (itemsOf current).Nodup) :
    (itemsOf (configlistAdd rp dot current)).Nodup := by
  rw [itemsOf_configlistAdd]
  split
  · exact h
  · next hno => exact List.Nodup.append h (List.nodup_singleton _) (by simpa using hno)

theorem mem_configlistAdd {rp : Rule τ ν} {dot : Nat} {current : List (Config τ ν)} {cfp : Config τ ν} :
    cfp ∈ configlistAdd rp dot current ↔
      cfp ∈ current ∨ ((rp, dot) ∉ itemsOf current ∧ cfp = ⟨rp, dot, ∅, [], []⟩) := by
  unfold configlistAdd
  split
  · next h => exact ⟨.inl, fun hc => hc.elim id (fun hc => absurd h hc.1)⟩
  · next h =>
      rw [List.mem_append, List.mem_singleton]
      exact or_congr_right (and_iff_right h).symm

/-! ## What a list says of an item -/

/-- `a` is in the follow set of the configuration. -/
def FwsAt (current : List (Config τ ν)) (k : Item τ ν) (a : Option τ) : Prop := ∃ c ∈ current, c.item = k ∧ a ∈ c.fws

/-- `r` is a forward link of the configuration. -/
def LinkAt (current : List (Config τ ν)) (k : Item τ ν) (r : Ref τ ν) : Prop := ∃ c ∈ current, c.item = k ∧ r ∈ c.fplp

/-- `r` is a backward link of the configuration. -/
def BackAt (current : List (Config τ ν)) (k : Item τ ν) (r : Ref τ ν) : Prop := ∃ c ∈ current, c.item = k ∧ r ∈ c.bplp

section
variable {current : List (Config τ ν)} {k k' : Item τ ν}

theorem fwsAt_add {a : Option τ} : FwsAt (configlistAdd k.1 k.2 current) k' a ↔ FwsAt current k' a := by
  unfold FwsAt
  simp only [mem_configlistAdd]
  constructor
  · rintro ⟨c, hc | ⟨-, rfl⟩, hk, ha⟩
    · exact ⟨c, hc, hk, ha⟩
    · exact absurd ha (Finset.notMem_empty a)
  · rintro ⟨c, hc, h⟩
    exact ⟨c, .inl hc, h⟩

theorem linkAt_add {r : Ref τ ν} : LinkAt (configlistAdd k.1 k.2 current) k' r ↔ LinkAt current k' r := by
  unfold LinkAt
  simp only [mem_configlistAdd]
  constructor
  · rintro ⟨c, hc | ⟨-, rfl⟩, hk, hr⟩
    · exact ⟨c, hc, hk, hr⟩
    · exact absurd hr List.not_mem_nil
  · rintro ⟨c, hc, h⟩
    exact ⟨c, .inl hc, h⟩

theorem backAt_add {r : Ref τ ν} : BackAt (configlistAdd k.1 k.2 current) k' r ↔ BackAt current k' r := by
  unfold BackAt
  simp only [mem_configlistAdd]
  constructor
  · rintro ⟨c, hc | ⟨-, rfl⟩, hk, hr⟩
    · exact ⟨c, hc, hk, hr⟩
    · exact absurd hr List.not_mem_nil
  · rintro ⟨c, hc, h⟩
    exact ⟨c, .inl hc, h⟩

/-- A field that a write leaves alone is the same for every item. -/
theorem exists_updateConfig {f : Config τ ν → Config τ ν} (hf : ∀ cfp, (f cfp).item = cfp.item) {P : Config τ ν → Prop}
    (hP : ∀ cfp, P (f cfp) ↔ P cfp) :
    (∃ c ∈ updateConfig k f current, c.item = k' ∧ P c) ↔ ∃ c ∈ current, c.item = k' ∧ P c := by
  simp only [mem_updateConfig]
  constructor
  · rintro ⟨c, ⟨hc, -⟩ | ⟨c, hc, -, rfl⟩, hk', h⟩
    · exact ⟨c, hc, hk', h⟩
    · exact ⟨c, hc, (hf c) ▸ hk', (hP c).mp h⟩
  · rintro ⟨c, hc, hk', h⟩
    by_cases hk : c.item = k
    · exact ⟨f c, .inr ⟨c, hc, hk, rfl⟩, (hf c).trans hk', (hP c).mpr h⟩
    · exact ⟨c, .inl ⟨hc, hk⟩, hk', h⟩

/-- A write that adds `Q` to what `P` says of a configuration. -/
theorem exists_updateConfig_or {f : Config τ ν → Config τ ν} (hf : ∀ cfp, (f cfp).item = cfp.item)
    {P : Config τ ν → Prop} {Q : Prop} (hP : ∀ cfp, P (f cfp) ↔ P cfp ∨ Q) (hk : k ∈ itemsOf current) :
    (∃ c ∈ updateConfig k f current, c.item = k' ∧ P c) ↔ (∃ c ∈ current, c.item = k' ∧ P c) ∨ (k' = k ∧ Q) := by
  simp only [mem_updateConfig]
  constructor
  · rintro ⟨c, ⟨hc, -⟩ | ⟨c, hc, hck, rfl⟩, hk', h⟩
    · exact .inl ⟨c, hc, hk', h⟩
    · rw [hf] at hk'
      rcases (hP c).mp h with h | h
      · exact .inl ⟨c, hc, hk', h⟩
      · exact .inr ⟨hk'.symm.trans hck, h⟩
  · rintro (⟨c, hc, hk', h⟩ | ⟨rfl, h⟩)
    · by_cases hck : c.item = k
      · exact ⟨f c, .inr ⟨c, hc, hck, rfl⟩, (hf c).trans hk', (hP c).mpr (.inl h)⟩
      · exact ⟨c, .inl ⟨hc, hck⟩, hk', h⟩
    · obtain ⟨c, hc, hck⟩ := List.mem_map.mp hk
      exact ⟨f c, .inr ⟨c, hc, hck, rfl⟩, (hf c).trans hck, (hP c).mpr (.inr h)⟩

theorem fwsAt_follow {s : Finset (Option τ)} (hk : k ∈ itemsOf current) {a : Option τ} :
    FwsAt (updateConfig k (.follow s) current) k' a ↔ FwsAt current k' a ∨ (k' = k ∧ a ∈ s) :=
  exists_updateConfig_or (Config.item_follow s) (fun _ => Finset.mem_union) hk

theorem linkAt_link {r₀ : Ref τ ν} (hk : k ∈ itemsOf current) {r : Ref τ ν} :
    LinkAt (updateConfig k (.link r₀) current) k' r ↔ LinkAt current k' r ∨ (k' = k ∧ r = r₀) :=
  exists_updateConfig_or (Config.item_link r₀) (fun _ => List.mem_cons.trans or_comm) hk

end

/-! ## One configuration -/

section
variable {lemp : Lemon τ ν} {fs : FirstSets τ ν} {n : Nat} {k : Item τ ν} {current : List (Config τ ν)}

theorem itemsOf_closureRule (fs : FirstSets τ ν) (n : Nat) (k : Item τ ν) (current : List (Config τ ν))
    (newrp : Rule τ ν) :
    itemsOf (closureRule fs n k newrp current) = itemsOf (configlistAdd newrp 0 current) := by
  unfold closureRule
  simp only
  split
  · rw [itemsOf_updateConfig (Config.item_link _), itemsOf_updateConfig (Config.item_follow _)]
  · rw [itemsOf_updateConfig (Config.item_follow _)]

theorem mem_itemsOf_add {rp : Rule τ ν} {dot : Nat} {k' : Item τ ν} :
    k' ∈ itemsOf (configlistAdd rp dot current) ↔ k' ∈ itemsOf current ∨ k' = (rp, dot) := by
  rw [itemsOf_configlistAdd]
  split
  · next h =>
      refine ⟨.inl, fun hk => hk.elim id ?_⟩
      rintro rfl
      exact h
  · rw [List.mem_append, List.mem_singleton]

/-- What the list says after a rule has been called for. -/
theorem closureRule_spec (fs : FirstSets τ ν) (n : Nat) (hk : k ∈ itemsOf current) (newrp : Rule τ ν) (k' : Item τ ν) :
    (∀ a, FwsAt (closureRule fs n k newrp current) k' a ↔
      FwsAt current k' a ∨ (k' = (newrp, 0) ∧ a ∈ fs.following (restSyms k))) ∧
    (∀ r, LinkAt (closureRule fs n k newrp current) k' r ↔
      LinkAt current k' r ∨ (k' = k ∧ fs.vanish (restSyms k) = true ∧ r = ⟨n, newrp, 0⟩)) ∧
    (∀ r, BackAt (closureRule fs n k newrp current) k' r ↔ BackAt current k' r) := by
  have hnew : (newrp, 0) ∈ itemsOf (configlistAdd newrp 0 current) := mem_itemsOf_add.mpr (.inr rfl)
  obtain ⟨l, hl⟩ : ∃ l, l = updateConfig (newrp, 0) (.follow (fs.following (restSyms k))) (configlistAdd newrp 0 current) :=
    ⟨_, rfl⟩
  have hk₁ : k ∈ itemsOf l := by
    rw [hl, itemsOf_updateConfig (Config.item_follow _)]
    exact mem_itemsOf_add.mpr (.inl hk)
  have hfws : ∀ a, FwsAt l k' a ↔ FwsAt current k' a ∨ (k' = (newrp, 0) ∧ a ∈ fs.following (restSyms k)) := by
    intro a
    rw [hl, fwsAt_follow hnew]
    exact or_congr_left (fwsAt_add (k := (newrp, 0)))
  have hlink : ∀ r, LinkAt l k' r ↔ LinkAt current k' r := by
    intro r
    rw [hl]
    exact (exists_updateConfig (Config.item_follow _) (P := fun c => r ∈ c.fplp) (fun _ => Iff.rfl)).trans
      (linkAt_add (k := (newrp, 0)))
  have hback : ∀ r, BackAt l k' r ↔ BackAt current k' r := by
    intro r
    rw [hl]
    exact (exists_updateConfig (Config.item_follow _) (P := fun c => r ∈ c.bplp) (fun _ => Iff.rfl)).trans
      (backAt_add (k := (newrp, 0)))
  unfold closureRule
  simp only [← hl]
  split
  · next hv =>
      refine ⟨fun a => ?_, fun r => ?_, fun r => ?_⟩
      · exact (exists_updateConfig (Config.item_link _) (P := fun c => a ∈ c.fws) (fun _ => Iff.rfl)).trans (hfws a)
      · rw [linkAt_link hk₁, hlink]
        exact or_congr_right (and_congr_right fun _ => (and_iff_right hv).symm)
      · exact (exists_updateConfig (Config.item_link _) (P := fun c => r ∈ c.bplp) (fun _ => Iff.rfl)).trans (hback r)
  · next hv =>
      refine ⟨hfws, fun r => ?_, hback⟩
      rw [hlink]
      exact ⟨.inl, fun h => h.elim id (fun h => absurd h.2.1 hv)⟩

/-- The list after all rules of a nonterminal have been called for. -/
structure Stepped (fs : FirstSets τ ν) (n : Nat) (k : Item τ ν) (rules : Rule τ ν → Prop)
    (current current' : List (Config τ ν)) : Prop where
  nodup  : (itemsOf current).Nodup → (itemsOf current').Nodup
  grown  : itemsOf current <+: itemsOf current'
  mem    : ∀ k', k' ∈ itemsOf current' ↔ k' ∈ itemsOf current ∨ (k'.2 = 0 ∧ rules k'.1)
  fws    : ∀ k' a, FwsAt current' k' a ↔ FwsAt current k' a ∨ ((k'.2 = 0 ∧ rules k'.1) ∧ a ∈ fs.following (restSyms k))
  link   : ∀ k' r, LinkAt current' k' r ↔
    LinkAt current k' r ∨ (k' = k ∧ fs.vanish (restSyms k) = true ∧ r.stp = n ∧ r.dot = 0 ∧ rules r.rp)
  back   : ∀ k' r, BackAt current' k' r ↔ BackAt current k' r

theorem stepped_foldl (hk : k ∈ itemsOf current) (rps : List (Rule τ ν)) :
    Stepped fs n k (· ∈ rps) current (rps.foldl (fun current newrp => closureRule fs n k newrp current) current) := by
  induction rps generalizing current with
  | nil =>
      refine ⟨id, List.prefix_rfl, fun k' => ?_, fun k' a => ?_, fun k' r => ?_, fun k' r => Iff.rfl⟩ <;> simp
  | cons newrp rps ih =>
      have hitems := itemsOf_closureRule fs n k current newrp
      have hgrown : itemsOf current <+: itemsOf (closureRule fs n k newrp current) := by
        rw [hitems, itemsOf_configlistAdd]
        split
        · exact List.prefix_rfl
        · exact List.prefix_append _ _
      have hmem : ∀ k', k' ∈ itemsOf (closureRule fs n k newrp current) ↔ k' ∈ itemsOf current ∨ k' = (newrp, 0) := by
        intro k'
        rw [hitems]
        exact mem_itemsOf_add
      obtain ⟨h1, h2, h3, h4, h5, h6⟩ := ih (hgrown.subset hk)
      have hspec := closureRule_spec fs n hk newrp
      refine ⟨fun hnd => h1 ?_, hgrown.trans h2, fun k' => ?_, fun k' a => ?_, fun k' r => ?_, fun k' r => ?_⟩
      · rw [hitems]
        exact nodup_configlistAdd hnd
      · rw [List.foldl_cons, h3, hmem]
        simp only [List.mem_cons, Prod.ext_iff]
        tauto
      · rw [List.foldl_cons, h4, (hspec k').1]
        simp only [List.mem_cons, Prod.ext_iff]
        tauto
      · rw [List.foldl_cons, h5, (hspec k').2.1]
        obtain ⟨stp, rp, dot⟩ := r
        simp only [List.mem_cons, Ref.mk.injEq]
        tauto
      · rw [List.foldl_cons, h6, (hspec k').2.2]

/-- **One turn of the closure**: exactly the rules called for come in. -/
theorem closureStep_spec (lemp : Lemon τ ν) (fs : FirstSets τ ν) (n : Nat) (hk : k ∈ itemsOf current) :
    Stepped fs n k (Calls lemp k) current (closureStep lemp fs n k current) := by
  unfold closureStep
  have hnone : (∀ newrp, ¬ Calls lemp k newrp) → Stepped fs n k (Calls lemp k) current current := by
    intro hno
    refine ⟨id, List.prefix_rfl, fun k' => ?_, fun k' a => ?_, fun k' r => ?_, fun k' r => Iff.rfl⟩
    · exact ⟨.inl, fun h => h.elim id (fun h => absurd h.2 (hno _))⟩
    · exact ⟨.inl, fun h => h.elim id (fun h => absurd h.1.2 (hno _))⟩
    · exact ⟨.inl, fun h => h.elim id (fun h => absurd h.2.2.2.2 (hno _))⟩
  split
  · next sp hsp =>
      have hrules : (· ∈ lemp.rulesOf sp) = Calls lemp k := by
        funext newrp
        refine propext ?_
        rw [calls_iff]
        constructor
        · intro h
          exact ⟨sp, hsp, h⟩
        · rintro ⟨sp', hsp', h⟩
          obtain rfl : sp = sp' := by
            rw [hsp] at hsp'
            exact Symbol.nonterminal.inj (Option.some.inj hsp')
          exact h
      rw [← hrules]
      exact stepped_foldl hk _
  · next hno =>
      refine hnone fun newrp h => ?_
      exact hno _ h.2

end

/-! ## The loop -/

/-- What the list says when its first `i` configurations have been visited. -/
structure Visited (lemp : Lemon τ ν) (fs : FirstSets τ ν) (n : Nat) (base : List (Config τ ν)) (i : Nat)
    (current : List (Config τ ν)) : Prop where
  nodup : (itemsOf current).Nodup
  grown : itemsOf base <+: itemsOf current
  sound : ∀ k ∈ itemsOf current, InClosure lemp (· ∈ itemsOf base) k
  calls : ∀ k ∈ (itemsOf current).take i, ∀ newrp, Calls lemp k newrp → (newrp, 0) ∈ itemsOf current
  fws   : ∀ k' a, FwsAt current k' a ↔ FwsAt base k' a ∨
    ∃ k ∈ (itemsOf current).take i, (k'.2 = 0 ∧ Calls lemp k k'.1) ∧ a ∈ fs.following (restSyms k)
  link  : ∀ k' r, LinkAt current k' r ↔ LinkAt base k' r ∨
    (k' ∈ (itemsOf current).take i ∧ fs.vanish (restSyms k') = true ∧ r.stp = n ∧ r.dot = 0 ∧ Calls lemp k' r.rp)
  back  : ∀ k' r, BackAt current k' r ↔ BackAt base k' r

section
variable {lemp : Lemon τ ν} {fs : FirstSets τ ν} {n : Nat} {base current : List (Config τ ν)}

omit [DecidableEq ν] in
theorem visited_start (lemp : Lemon τ ν) (fs : FirstSets τ ν) (n : Nat) (hbase : (itemsOf base).Nodup) : Visited lemp fs n base 0 base := by
  refine ⟨hbase, List.prefix_rfl, fun k hk => .basis hk, ?_, fun k' a => ?_, fun k' r => ?_, fun _ _ => Iff.rfl⟩
  · intro k hk
    exact absurd hk List.not_mem_nil
  · simp
  · simp

theorem visited_step {i : Nat} (h : Visited lemp fs n base i current) {cfp : Config τ ν} (hcfp : current[i]? = some cfp) :
    Visited lemp fs n base (i + 1) (closureStep lemp fs n cfp.item current) := by
  have hk : (itemsOf current)[i]? = some cfp.item := by
    rw [List.getElem?_map, hcfp, Option.map_some]
  have hmem : cfp.item ∈ itemsOf current := List.mem_of_getElem? hk
  have hstep := closureStep_spec lemp fs n hmem
  obtain ⟨hi, -⟩ := List.getElem?_eq_some_iff.mp hk
  -- what has been visited is the same in the longer list, with the new one behind
  have htake : (itemsOf (closureStep lemp fs n cfp.item current)).take (i + 1) =
      (itemsOf current).take i ++ [cfp.item] := by
    obtain ⟨more, hmore⟩ := hstep.grown
    rw [← hmore, List.take_append_of_le_length hi, List.take_add_one, hk]
    rfl
  refine ⟨hstep.nodup h.nodup, h.grown.trans hstep.grown, fun k hk => ?_, fun k hk newrp hcall => ?_, fun k' a => ?_,
    fun k' r => ?_, fun k' r => ?_⟩
  · rcases (hstep.mem k).mp hk with hk | ⟨hdot, hcall⟩
    · exact h.sound k hk
    · obtain ⟨sp, hsp, hrp⟩ := calls_iff.mp hcall
      have hnew := (h.sound _ hmem).rule hsp hrp
      rwa [← hdot] at hnew
  · rw [htake, List.mem_append, List.mem_singleton] at hk
    rcases hk with hk | rfl
    · exact (hstep.mem _).mpr (.inl (h.calls k hk newrp hcall))
    · exact (hstep.mem _).mpr (.inr ⟨rfl, hcall⟩)
  · rw [hstep.fws, h.fws, htake]
    simp only [List.mem_append, List.mem_singleton, or_and_right, exists_or, exists_eq_left, or_assoc]
  · rw [hstep.link, h.link, htake]
    simp only [List.mem_append, List.mem_singleton, or_and_right, or_assoc]
    refine or_congr_right (or_congr_right (and_congr_right fun hk' => ?_))
    rw [hk']
  · rw [hstep.back, h.back]

omit [DecidableEq ν] in
/-- The list cannot grow beyond the basis and the rules. -/
theorem Visited.length_le {i : Nat} (h : Visited lemp fs n base i current) :
    current.length ≤ base.length + lemp.rule.length := by
  have hsub : itemsOf current ⊆ itemsOf base ++ lemp.rule.map (fun rp => (rp, 0)) := by
    intro k hk
    cases h.sound k hk with
    | basis hk => exact List.mem_append_left _ hk
    | rule _ _ hrp =>
        exact List.mem_append_right _ (List.mem_map.mpr ⟨_, ((lemp.mem_rulesOf _ _).mp hrp).1, rfl⟩)
  have hle := (h.nodup.subperm hsub).length_le
  simpa using hle

theorem closureFrom_spec (fuel : Nat) {i : Nat} (h : Visited lemp fs n base i current) (hi : i ≤ current.length)
    (hfuel : base.length + lemp.rule.length < fuel + i) :
    ∃ cfp, closureFrom lemp fs n fuel i current = some cfp ∧ Visited lemp fs n base cfp.length cfp := by
  induction fuel generalizing i current with
  | zero =>
      have := h.length_le
      omega
  | succ fuel ih =>
      rw [closureFrom]
      cases hcfp : current[i]? with
      | none =>
          have hend : i = current.length := by
            have := List.getElem?_eq_none_iff.mp hcfp
            omega
          exact ⟨current, rfl, hend ▸ h⟩
      | some cfp =>
          have hstep := visited_step h hcfp
          have hgrown := (closureStep_spec lemp fs n
            (List.mem_map.mpr ⟨cfp, List.mem_of_getElem? hcfp, rfl⟩)).grown.length_le
          obtain ⟨hlt, -⟩ := List.getElem?_eq_some_iff.mp hcfp
          rw [itemsOf, itemsOf, List.length_map, List.length_map] at hgrown
          exact ih hstep (by omega) (by omega)

end

/-- What the configurations of a new state are, with the basis `base`. -/
structure ClosureOf (lemp : Lemon τ ν) (fs : FirstSets τ ν) (n : Nat) (base cfp : List (Config τ ν)) : Prop where
  nodup : (itemsOf cfp).Nodup
  mem   : ∀ k, k ∈ itemsOf cfp ↔ InClosure lemp (· ∈ itemsOf base) k
  fws   : ∀ k' a, FwsAt cfp k' a ↔ FwsAt base k' a ∨
    ∃ k ∈ itemsOf cfp, (k'.2 = 0 ∧ Calls lemp k k'.1) ∧ a ∈ fs.following (restSyms k)
  link  : ∀ k' r, LinkAt cfp k' r ↔ LinkAt base k' r ∨
    (k' ∈ itemsOf cfp ∧ fs.vanish (restSyms k') = true ∧ r.stp = n ∧ r.dot = 0 ∧ Calls lemp k' r.rp)
  back  : ∀ k' r, BackAt cfp k' r ↔ BackAt base k' r

/-- **`Configlist_closure` ends with the closure of the basis.** -/
theorem closure_spec (lemp : Lemon τ ν) (fs : FirstSets τ ν) (n : Nat) {base : List (Config τ ν)}
    (hbase : (itemsOf base).Nodup) : ∃ cfp, closure lemp fs n base = some cfp ∧ ClosureOf lemp fs n base cfp := by
  obtain ⟨cfp, hrun, h⟩ := closureFrom_spec (base.length + lemp.rule.length + 1) (visited_start lemp fs n hbase)
    (Nat.zero_le _) (by omega)
  have hall : (itemsOf cfp).take cfp.length = itemsOf cfp := List.take_of_length_le (by simp)
  have hcalls := h.calls
  have hfws := h.fws
  have hlink := h.link
  rw [hall] at hcalls
  simp only [hall] at hfws hlink
  refine ⟨cfp, hrun, h.nodup, fun k => ⟨h.sound k, fun hk => ?_⟩, hfws, hlink, h.back⟩
  induction hk with
  | basis hk => exact h.grown.subset hk
  | rule _ hsp hrp ih => exact hcalls _ ih _ (calls_iff.mpr ⟨_, hsp, hrp⟩)

end LemonC
end CSamples
