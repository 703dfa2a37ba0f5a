import CSamples.Fixpoint.Flood
import CSamples.LemonC.Automaton
import Mathlib.Data.Fintype.Option

/-!
# `LemonC.FollowSets` — `FindLinks` and `FindFollowSets`

Backward links become forward links, and then the follow sets flow along all of them until nothing changes.

## Contents
- **Model.** `findLinks`, `findFollowSets`.
- **Spec.** `Follows`, what can follow an item behind a path of symbols. `findFollowSets_spec`: the follow set of a
  configuration is the union of these over all paths to its state, which is what LALR(1) means.
-/

namespace CSamples
namespace LemonC

open Fixpoint

variable {τ ν : Type} [DecidableEq τ] [DecidableEq ν]

/-! ## `FindLinks` -/

/-- A pointer to the configuration `cfp` of the state `n`. -/
def Config.ref (n : Nat) (cfp : Config τ ν) : Ref τ ν := ⟨n, cfp.rp, cfp.dot⟩

/-- All configurations, each with the number of its state. -/
def allConfigs (sorted : List (State τ ν)) : List (Nat × Config τ ν) :=
  sorted.zipIdx.flatMap (fun stp => stp.1.cfp.map (fun cfp => (stp.2, cfp)))

/-- A write to the configuration that `r` points to. -/
def modifyAt (sorted : List (State τ ν)) (r : Ref τ ν) (f : Config τ ν → Config τ ν) : List (State τ ν) :=
  sorted.modify r.stp (fun stp => { stp with cfp := updateConfig (r.rp, r.dot) f stp.cfp })

/-- The links that `FindLinks` adds: from the configuration that a backward link points to, to the one that has it. -/
def forwardLinks (sorted : List (State τ ν)) : List (Ref τ ν × Ref τ ν) :=
  (allConfigs sorted).flatMap (fun cfp => cfp.2.bplp.map (fun plp => (plp, cfp.2.ref cfp.1)))

/-- `FindLinks` -/
def findLinks (sorted : List (State τ ν)) : List (State τ ν) :=
  (forwardLinks sorted).foldl (fun sorted x => modifyAt sorted x.1 (.link x.2)) sorted

/-! ## `FindFollowSets` -/

/-- The configuration that `r` points to. -/
def configAt (sorted : List (State τ ν)) (r : Ref τ ν) : Option (Config τ ν) :=
  sorted[r.stp]?.bind (fun stp => stp.cfp.find? (fun cfp => cfp.item = (r.rp, r.dot)))

/-- The follow sets at the start. -/
def fwsOf (sorted : List (State τ ν)) (r : Ref τ ν) : Finset (Option τ) := ((configAt sorted r).map Config.fws).getD ∅

/-- The links. -/
def fplpOf (sorted : List (State τ ν)) (r : Ref τ ν) : List (Ref τ ν) := ((configAt sorted r).map Config.fplp).getD []

/-- The follow sets come back into the configurations. -/
def setFws (sorted : List (State τ ν)) (fws : Ref τ ν → Finset (Option τ)) : List (State τ ν) :=
  sorted.mapIdx (fun n stp => { stp with cfp := stp.cfp.map (fun cfp => { cfp with fws := fws (cfp.ref n) }) })

/-- `FindFollowSets`. The status of a configuration is COMPLETE as in `Flood.complete`; the loop is bounded by what can
    come into the sets. -/
def findFollowSets [Fintype τ] (sorted : List (State τ ν)) : Option (List (State τ ν)) :=
  let nodes := (allConfigs sorted).map (fun cfp => cfp.2.ref cfp.1)
  (doWhile (sweep (visit (fplpOf sorted)) nodes) (nodes.length * Fintype.card (Option τ) + 1)
    ⟨fwsOf sorted, fun _ => false⟩).map (fun s => setFws sorted s.val)

/-! ## What can follow an item -/

/-- In a state that a path of symbols leads to, `a` can follow the item: the end of the input follows the start symbol,
    and what follows a nonterminal begins with what is behind it, or follows the whole rule if that can vanish. -/
inductive Follows (lemp : Lemon τ ν) : List (Sym τ ν) → Item τ ν → Option τ → Prop
  | start {rp : Rule τ ν} (hrp : rp ∈ lemp.rulesOf lemp.sp) : Follows lemp [] (rp, 0) none
  | opens {p : List (Sym τ ν)} {k : Item τ ν} (h : Valid lemp p k) {newrp : Rule τ ν} (hcall : Calls lemp k newrp) {a : τ}
      (ha : Opens lemp a (restSyms k)) : Follows lemp p (newrp, 0) (some a)
  | passes {p : List (Sym τ ν)} {k : Item τ ν} {a : Option τ} (h : Follows lemp p k a) {newrp : Rule τ ν}
      (hcall : Calls lemp k newrp) (hv : Vanishes lemp (restSyms k)) : Follows lemp p (newrp, 0) a
  | shift {p : List (Sym τ ν)} {k : Item τ ν} {a : Option τ} (h : Follows lemp p k a) {X : Sym τ ν}
      (hX : nextSym k = some X) : Follows lemp (p ++ [X]) (k.1, k.2 + 1) a

theorem Follows.valid {lemp : Lemon τ ν} {p : List (Sym τ ν)} {k : Item τ ν} {a : Option τ} (h : Follows lemp p k a) :
    Valid lemp p k := by
  induction h with
  | start hrp => exact .start hrp
  | opens h hcall _ => exact h.rule hcall
  | passes _ hcall _ ih => exact ih.rule hcall
  | shift _ hX ih => exact ih.shift hX

/-! ## The links -/

/-- What becomes of a table when the links `L` are added. -/
structure Linked (L : List (Ref τ ν × Ref τ ν)) (sorted sorted' : List (State τ ν)) : Prop where
  length : sorted'.length = sorted.length
  state  : ∀ (n : Nat) (stp : State τ ν), sorted[n]? = some stp → ∃ stp', sorted'[n]? = some stp' ∧ stp'.bp = stp.bp ∧
    itemsOf stp'.cfp = itemsOf stp.cfp ∧ stp'.ap = stp.ap ∧ (∀ k a, FwsAt stp'.cfp k a ↔ FwsAt stp.cfp k a) ∧
    ∀ k r, LinkAt stp'.cfp k r ↔ LinkAt stp.cfp k r ∨ (k ∈ itemsOf stp.cfp ∧ (⟨n, k.1, k.2⟩, r) ∈ L)

theorem linked_foldl (L : List (Ref τ ν × Ref τ ν)) (sorted : List (State τ ν)) :
    Linked L sorted (L.foldl (fun sorted x => modifyAt sorted x.1 (.link x.2)) sorted) := by
  induction L generalizing sorted with
  | nil =>
      refine ⟨rfl, fun n stp hstp => ⟨stp, hstp, rfl, rfl, rfl, fun _ _ => Iff.rfl, fun k r => ?_⟩⟩
      exact (or_iff_left fun h => List.not_mem_nil h.2).symm
  | cons x L ih =>
      obtain ⟨src, dst⟩ := x
      obtain ⟨hlen, hstate⟩ := ih (modifyAt sorted src (.link dst))
      refine ⟨hlen.trans (List.length_modify _ _ _), fun n stp hstp => ?_⟩
      -- what the first link does to the state
      have hone : ∃ stp₁ : State τ ν, (modifyAt sorted src (.link dst))[n]? = some stp₁ ∧ stp₁.bp = stp.bp ∧
          itemsOf stp₁.cfp = itemsOf stp.cfp ∧ stp₁.ap = stp.ap ∧ (∀ k a, FwsAt stp₁.cfp k a ↔ FwsAt stp.cfp k a) ∧
          ∀ k r, LinkAt stp₁.cfp k r ↔
            LinkAt stp.cfp k r ∨ (k ∈ itemsOf stp.cfp ∧ (⟨n, k.1, k.2⟩ : Ref τ ν) = src ∧ r = dst) := by
        unfold modifyAt
        by_cases hn : src.stp = n
        · refine ⟨{ stp with cfp := updateConfig (src.rp, src.dot) (.link dst) stp.cfp }, ?_, rfl, ?_, rfl, ?_, fun k r => ?_⟩
          · rw [hn, List.getElem?_modify_eq, hstp]
            rfl
          · exact itemsOf_updateConfig (Config.item_link dst) _
          · exact fun k a => exists_updateConfig (Config.item_link dst) (P := fun c => a ∈ c.fws) (fun _ => Iff.rfl)
          · obtain ⟨stp₀, rp, dot⟩ := src
            obtain rfl : stp₀ = n := hn
            simp only [Ref.mk.injEq, true_and]
            by_cases hin : (rp, dot) ∈ itemsOf stp.cfp
            · rw [linkAt_link hin]
              refine or_congr_right ⟨?_, ?_⟩
              · rintro ⟨rfl, rfl⟩
                exact ⟨hin, ⟨rfl, rfl⟩, rfl⟩
              · rintro ⟨-, ⟨h1, h2⟩, rfl⟩
                exact ⟨Prod.ext h1 h2, rfl⟩
            · have hsame : updateConfig (rp, dot) (.link dst) stp.cfp = stp.cfp := by
                refine (List.map_congr_left fun c hc => ?_).trans (List.map_id _)
                exact if_neg fun (heq : c.item = (rp, dot)) => hin (heq ▸ List.mem_map.mpr ⟨c, hc, rfl⟩)
              rw [hsame]
              refine (or_iff_left ?_).symm
              rintro ⟨hk, ⟨h1, h2⟩, -⟩
              exact hin (by rw [← h1, ← h2]; exact hk)
        · refine ⟨stp, ?_, rfl, rfl, rfl, fun _ _ => Iff.rfl, fun k r => (or_iff_left ?_).symm⟩
          · rw [List.getElem?_modify_ne _ _ hn]
            exact hstp
          · rintro ⟨-, rfl, -⟩
            exact hn rfl
      obtain ⟨stp₁, hstp₁, hbp₁, hitems₁, hap₁, hfws₁, hlink₁⟩ := hone
      obtain ⟨stp', hstp', hbp', hitems', hap', hfws', hlink'⟩ := hstate n stp₁ hstp₁
      refine ⟨stp', hstp', hbp'.trans hbp₁, hitems'.trans hitems₁, hap'.trans hap₁, fun k a => (hfws' k a).trans (hfws₁ k a),
        fun k r => ?_⟩
      rw [hlink', hlink₁, hitems₁, List.mem_cons, Prod.mk.injEq, or_assoc, ← and_or_left]

omit [DecidableEq τ] [DecidableEq ν] in
theorem mem_allConfigs {sorted : List (State τ ν)} {n : Nat} {cfp : Config τ ν} :
    (n, cfp) ∈ allConfigs sorted ↔ ∃ stp, sorted[n]? = some stp ∧ cfp ∈ stp.cfp := by
  unfold allConfigs
  rw [List.mem_flatMap]
  constructor
  · rintro ⟨⟨stp, m⟩, hstp, hcfp⟩
    obtain ⟨c, hc, heq⟩ := List.mem_map.mp hcfp
    obtain ⟨rfl, rfl⟩ := Prod.mk.inj heq
    exact ⟨stp, List.mem_zipIdx_iff_getElem?.mp hstp, hc⟩
  · rintro ⟨stp, hstp, hcfp⟩
    exact ⟨(stp, n), List.mem_zipIdx_iff_getElem?.mpr hstp, List.mem_map.mpr ⟨cfp, hcfp, rfl⟩⟩

omit [DecidableEq τ] [DecidableEq ν] in
/-- The links that come in are the backward links, turned around. -/
theorem mem_forwardLinks {sorted : List (State τ ν)} {src dst : Ref τ ν} :
    (src, dst) ∈ forwardLinks sorted ↔ ∃ stp, sorted[dst.stp]? = some stp ∧ BackAt stp.cfp (dst.rp, dst.dot) src := by
  unfold forwardLinks BackAt
  rw [List.mem_flatMap]
  constructor
  · rintro ⟨⟨n, cfp⟩, hcfp, hx⟩
    obtain ⟨plp, hplp, heq⟩ := List.mem_map.mp hx
    obtain ⟨rfl, rfl⟩ := Prod.mk.inj heq
    obtain ⟨stp, hstp, hin⟩ := mem_allConfigs.mp hcfp
    exact ⟨stp, hstp, cfp, hin, rfl, hplp⟩
  · rintro ⟨stp, hstp, cfp, hin, hitem, hplp⟩
    refine ⟨(dst.stp, cfp), mem_allConfigs.mpr ⟨stp, hstp, hin⟩, List.mem_map.mpr ⟨src, hplp, ?_⟩⟩
    obtain ⟨h1, h2⟩ := Prod.mk.inj hitem
    rw [Config.ref, h1, h2]

/-! ## Configurations by their pointers -/

section
variable {sorted : List (State τ ν)} {r : Ref τ ν} {stp : State τ ν}

/-- A pointer into a state without repetitions finds its configuration. -/
theorem exists_configAt (hstp : sorted[r.stp]? = some stp) (hnd : (itemsOf stp.cfp).Nodup) (P : Config τ ν → Prop) :
    (∃ cfp, configAt sorted r = some cfp ∧ P cfp) ↔ ∃ cfp ∈ stp.cfp, cfp.item = (r.rp, r.dot) ∧ P cfp := by
  unfold configAt
  rw [hstp, Option.bind_some]
  constructor
  · rintro ⟨cfp, hfind, hP⟩
    have hitem := List.find?_some hfind
    exact ⟨cfp, List.mem_of_find?_eq_some hfind, of_decide_eq_true hitem, hP⟩
  · rintro ⟨cfp, hin, hitem, hP⟩
    cases hfind : stp.cfp.find? (fun cfp => cfp.item = (r.rp, r.dot)) with
    | none => exact absurd (decide_eq_true hitem) (List.find?_eq_none.mp hfind cfp hin)
    | some c =>
        have hc := List.find?_some hfind
        obtain rfl := List.inj_on_of_nodup_map hnd (List.mem_of_find?_eq_some hfind) hin
          ((of_decide_eq_true hc).trans hitem.symm)
        exact ⟨c, rfl, hP⟩

theorem mem_fwsOf (hstp : sorted[r.stp]? = some stp) (hnd : (itemsOf stp.cfp).Nodup) (a : Option τ) :
    a ∈ fwsOf sorted r ↔ FwsAt stp.cfp (r.rp, r.dot) a := by
  refine Iff.trans ?_ (exists_configAt hstp hnd (fun cfp => a ∈ cfp.fws))
  unfold fwsOf
  cases configAt sorted r <;> simp

theorem mem_fplpOf (hstp : sorted[r.stp]? = some stp) (hnd : (itemsOf stp.cfp).Nodup) (r' : Ref τ ν) :
    r' ∈ fplpOf sorted r ↔ LinkAt stp.cfp (r.rp, r.dot) r' := by
  refine Iff.trans ?_ (exists_configAt hstp hnd (fun cfp => r' ∈ cfp.fplp))
  unfold fplpOf
  cases configAt sorted r <;> simp

end

/-! ## The links of the automaton -/

section
variable {lemp : Lemon τ ν} {fs : FirstSets τ ν} {sorted : List (State τ ν)}

theorem linked_findLinks (sorted : List (State τ ν)) : Linked (forwardLinks sorted) sorted (findLinks sorted) :=
  linked_foldl _ _

/-- The links that there are after `FindLinks`: to a rule that is called for in front of something that can vanish,
    and along the transitions. -/
theorem mem_links_iff (h : Automaton lemp fs sorted) {n : Nat} {stp : State τ ν} (hstp : sorted[n]? = some stp)
    {k : Item τ ν} (hk : k ∈ itemsOf stp.cfp) (r : Ref τ ν) :
    r ∈ fplpOf (findLinks sorted) ⟨n, k.1, k.2⟩ ↔
      (fs.vanish (restSyms k) = true ∧ r.stp = n ∧ r.dot = 0 ∧ Calls lemp k r.rp) ∨
      (r.rp = k.1 ∧ r.dot = k.2 + 1 ∧ ∃ X, nextSym k = some X ∧ IsGoto sorted n X r.stp) := by
  obtain ⟨-, hstate⟩ := linked_findLinks sorted
  obtain ⟨stp', hstp', -, hitems, -, -, hlink⟩ := hstate n stp hstp
  have hok := h.ok.state n stp hstp
  rw [mem_fplpOf (r := ⟨n, k.1, k.2⟩) hstp' (by rw [hitems]; exact hok.nodup), hlink, hok.link, mem_forwardLinks]
  refine or_congr (and_iff_right hk) ((and_iff_right hk).trans ⟨?_, ?_⟩)
  · rintro ⟨stpm, hstpm, hback⟩
    obtain ⟨hrp, hdot, X, hX, hmoves⟩ := h.ok.back _ stpm hstpm _ _ hback
    exact ⟨hrp.symm, hdot, X, hX, stpm, hstpm, hmoves⟩
  · rintro ⟨hrp, hdot, X, hX, hgoto⟩
    obtain ⟨m, hshift⟩ := h.exists_goto hstp hk hX
    obtain rfl := h.goto_unique hgoto hshift.goto
    obtain ⟨stp₀, stpm, hstp₀, hstpm, hback⟩ := hshift.back
    obtain rfl := Option.some.inj (hstp.symm.trans hstp₀)
    refine ⟨stpm, hstpm, ?_⟩
    rw [hrp, hdot]
    exact hback k hk hX

/-- What is in the follow sets before they flow: what closures have put there, and the end of the input in the first
    state. -/
theorem mem_fwsOf_iff (h : Automaton lemp fs sorted) {n : Nat} {stp : State τ ν} (hstp : sorted[n]? = some stp)
    (k : Item τ ν) (a : Option τ) : a ∈ fwsOf (findLinks sorted) ⟨n, k.1, k.2⟩ ↔
      (n = 0 ∧ k ∈ stp.bp ∧ a = none) ∨
        ∃ k' ∈ itemsOf stp.cfp, (k.2 = 0 ∧ Calls lemp k' k.1) ∧ a ∈ fs.following (restSyms k') := by
  obtain ⟨-, hstate⟩ := linked_findLinks sorted
  obtain ⟨stp', hstp', -, hitems, -, hfws, -⟩ := hstate n stp hstp
  have hok := h.ok.state n stp hstp
  rw [mem_fwsOf (r := ⟨n, k.1, k.2⟩) hstp' (by rw [hitems]; exact hok.nodup), hfws, hok.fws]

/-! ## What flows -/

theorem mem_following_iff (hfs : fs.Exact lemp) {rest : List (Sym τ ν)} {a : Option τ} :
    a ∈ fs.following rest ↔ ∃ t, a = some t ∧ Opens lemp t rest := by
  unfold FirstSets.following
  rw [Finset.mem_image]
  constructor
  · rintro ⟨t, ht, rfl⟩
    exact ⟨t, rfl, (hfs.mem_firstOf_iff rest).mp ht⟩
  · rintro ⟨t, rfl, ht⟩
    exact ⟨t, (hfs.mem_firstOf_iff rest).mpr ht, rfl⟩

/-- What flows into a configuration follows its item behind some path. -/
theorem follows_of_flows (hfs : fs.Exact lemp) (h : Automaton lemp fs sorted) {a : Option τ} {n : Nat} {stp : State τ ν}
    (hstp : sorted[n]? = some stp) {k : Item τ ν} (ha : a ∈ fwsOf (findLinks sorted) ⟨n, k.1, k.2⟩)
    {r : Ref τ ν} (hflow : Flows (fplpOf (findLinks sorted)) ⟨n, k.1, k.2⟩ r) :
    ∃ p, Path sorted p r.stp ∧ Follows lemp p (r.rp, r.dot) a := by
  induction hflow with
  | refl =>
      rcases (mem_fwsOf_iff h hstp k a).mp ha with ⟨rfl, hbp, rfl⟩ | ⟨k', hk', ⟨hdot, hcall⟩, hin⟩
      · obtain ⟨hdot, hrp⟩ := (h.ok.first stp hstp k).mp hbp
        refine ⟨[], .nil, ?_⟩
        rw [hdot]
        exact .start hrp
      · obtain ⟨t, rfl, ht⟩ := (mem_following_iff hfs).mp hin
        obtain ⟨p, hp⟩ := h.exists_path n (List.getElem?_eq_some_iff.mp hstp).1
        refine ⟨p, hp, ?_⟩
        rw [hdot]
        exact .opens ((h.mem_iff hp hstp k').mp hk') hcall ht
  | @tail r r' _ hlink ih =>
      obtain ⟨p, hp, hfollow⟩ := ih
      have hstpr := List.getElem?_eq_getElem (h.lt_of_path hp)
      have hin := (h.mem_iff hp hstpr _).mpr hfollow.valid
      rcases (mem_links_iff h hstpr hin r').mp hlink with ⟨hv, hn, hdot, hcall⟩ | ⟨hrp, hdot, X, hX, hgoto⟩
      · refine ⟨p, hn ▸ hp, ?_⟩
        rw [hdot]
        exact hfollow.passes hcall ((hfs.vanish_iff _).mp hv)
      · refine ⟨p ++ [X], hp.snoc hgoto, ?_⟩
        rw [hrp, hdot]
        exact hfollow.shift hX

/-- And what follows an item flows into its configuration. -/
theorem flows_of_follows (hfs : fs.Exact lemp) (h : Automaton lemp fs sorted) {p : List (Sym τ ν)} {k : Item τ ν} {a : Option τ}
    (hk : Follows lemp p k a) {n : Nat} (hp : Path sorted p n) :
    ∃ r, a ∈ fwsOf (findLinks sorted) r ∧ Flows (fplpOf (findLinks sorted)) r ⟨n, k.1, k.2⟩ := by
  induction hk generalizing n with
  | @start rp hrp =>
      obtain rfl := h.path_unique hp .nil
      have hstp := List.getElem?_eq_getElem h.start
      exact ⟨_, (mem_fwsOf_iff h hstp (rp, 0) none).mpr (.inl ⟨rfl, (h.ok.first _ hstp _).mpr ⟨rfl, hrp⟩, rfl⟩), .refl⟩
  | @opens p k hk newrp hcall t ht =>
      have hstp := List.getElem?_eq_getElem (h.lt_of_path hp)
      refine ⟨_, (mem_fwsOf_iff h hstp (newrp, 0) (some t)).mpr (.inr ⟨k, (h.mem_iff hp hstp k).mpr hk, ⟨rfl, hcall⟩, ?_⟩),
        .refl⟩
      exact (mem_following_iff hfs).mpr ⟨t, rfl, ht⟩
  | @passes p k a hk newrp hcall hv ih =>
      obtain ⟨r, ha, hflow⟩ := ih hp
      have hstp := List.getElem?_eq_getElem (h.lt_of_path hp)
      refine ⟨r, ha, hflow.tail ((mem_links_iff h hstp ((h.mem_iff hp hstp k).mpr hk.valid) _).mpr (.inl ⟨?_, rfl, rfl, hcall⟩))⟩
      exact (hfs.vanish_iff _).mpr hv
  | @shift p k a hk X hX ih =>
      generalize hq : p ++ [X] = q at hp
      cases hp with
      | nil => exact absurd hq (by simp)
      | @snoc q m hp Y _ hgoto =>
          obtain ⟨rfl, hXY⟩ := List.append_inj' hq rfl
          obtain rfl : X = Y := List.singleton_inj.mp hXY
          obtain ⟨r, ha, hflow⟩ := ih hp
          have hstp := List.getElem?_eq_getElem (h.lt_of_path hp)
          refine ⟨r, ha, hflow.tail ((mem_links_iff h hstp ((h.mem_iff hp hstp k).mpr hk.valid) _).mpr (.inr ?_))⟩
          exact ⟨rfl, rfl, X, hX, hgoto⟩

/-! ## The loop -/

omit [DecidableEq τ] [DecidableEq ν] in
theorem mem_nodes {r : Ref τ ν} : r ∈ (allConfigs sorted).map (fun cfp => cfp.2.ref cfp.1) ↔
    ∃ stp, sorted[r.stp]? = some stp ∧ (r.rp, r.dot) ∈ itemsOf stp.cfp := by
  rw [List.mem_map]
  constructor
  · rintro ⟨⟨n, cfp⟩, hcfp, rfl⟩
    obtain ⟨stp, hstp, hin⟩ := mem_allConfigs.mp hcfp
    exact ⟨stp, hstp, List.mem_map.mpr ⟨cfp, hin, rfl⟩⟩
  · rintro ⟨stp, hstp, hin⟩
    obtain ⟨cfp, hcfp, hitem⟩ := List.mem_map.mp hin
    obtain ⟨h1, h2⟩ := Prod.mk.inj hitem
    exact ⟨(r.stp, cfp), mem_allConfigs.mpr ⟨stp, hstp, hcfp⟩, by rw [Config.ref, h1, h2]⟩

/-- A pointer that finds a configuration points to one. -/
theorem exists_state (h : Automaton lemp fs sorted) {r : Ref τ ν} (hr : configAt (findLinks sorted) r ≠ none) :
    ∃ stp, sorted[r.stp]? = some stp ∧ (r.rp, r.dot) ∈ itemsOf stp.cfp := by
  obtain ⟨hlen, hstate⟩ := linked_findLinks sorted
  obtain ⟨cfp, hcfp⟩ := Option.ne_none_iff_exists'.mp hr
  cases hstp : sorted[r.stp]? with
  | none =>
      have hnone : (findLinks sorted)[r.stp]? = none := by
        rw [List.getElem?_eq_none_iff] at hstp ⊢
        omega
      rw [configAt, hnone] at hcfp
      exact absurd hcfp (by simp)
  | some stp =>
      obtain ⟨stp', hstp', -, hitems, -⟩ := hstate r.stp stp hstp
      have hnd : (itemsOf stp'.cfp).Nodup := hitems ▸ (h.ok.state _ stp hstp).nodup
      obtain ⟨c, hc, hitem, -⟩ := (exists_configAt hstp' hnd (fun _ => True)).mp ⟨cfp, hcfp, trivial⟩
      exact ⟨stp, rfl, hitems ▸ hitem ▸ List.mem_map.mpr ⟨c, hc, rfl⟩⟩

/-- The links lead from configurations to configurations. -/
theorem mem_nodes_of_link (h : Automaton lemp fs sorted) {r r' : Ref τ ν} (hlink : r' ∈ fplpOf (findLinks sorted) r) :
    r ∈ (allConfigs (findLinks sorted)).map (fun cfp => cfp.2.ref cfp.1) ∧
      r' ∈ (allConfigs (findLinks sorted)).map (fun cfp => cfp.2.ref cfp.1) := by
  obtain ⟨-, hstate⟩ := linked_findLinks sorted
  have hnode : ∀ {q : Ref τ ν} {stp : State τ ν}, sorted[q.stp]? = some stp → (q.rp, q.dot) ∈ itemsOf stp.cfp →
      q ∈ (allConfigs (findLinks sorted)).map (fun cfp => cfp.2.ref cfp.1) := by
    intro q stp hstp hin
    obtain ⟨stp', hstp', -, hitems, -⟩ := hstate q.stp stp hstp
    exact mem_nodes.mpr ⟨stp', hstp', hitems ▸ hin⟩
  obtain ⟨stp, hstp, hin⟩ := exists_state h (r := r) (by
    intro hnone
    rw [fplpOf, hnone] at hlink
    exact absurd hlink List.not_mem_nil)
  refine ⟨hnode hstp hin, ?_⟩
  rcases (mem_links_iff h hstp hin r').mp hlink with ⟨-, hn, hdot, hcall⟩ | ⟨hrp, hdot, X, hX, stp', hstp', hmoves⟩
  · refine hnode (hn ▸ hstp) ?_
    rw [hdot]
    exact h.calls hstp hin hcall
  · refine hnode hstp' (((h.ok.state _ stp' hstp').mem _).mpr (.basis ?_))
    obtain ⟨stp₀, hstp₀, -, hbp⟩ := hmoves
    obtain rfl := Option.some.inj (hstp.symm.trans hstp₀)
    rw [hrp, hdot]
    exact (hbp _).mpr ⟨r.dot, rfl, hin, hX⟩

end

/-- The finished table `sorted'`: the states of `sorted`, with what can follow their items. -/
structure Followed (lemp : Lemon τ ν) (sorted sorted' : List (State τ ν)) : Prop where
  length : sorted'.length = sorted.length
  state  : ∀ (n : Nat) (stp : State τ ν), sorted[n]? = some stp → ∃ stp', sorted'[n]? = some stp' ∧
    itemsOf stp'.cfp = itemsOf stp.cfp ∧ stp'.ap = stp.ap ∧
    ∀ cfp ∈ stp'.cfp, ∀ a, a ∈ cfp.fws ↔ ∃ p, Path sorted p n ∧ Follows lemp p cfp.item a

/-- **`FindFollowSets` ends**, with the follow sets of all paths. -/
theorem findFollowSets_automaton [Fintype τ] {lemp : Lemon τ ν} {fs : FirstSets τ ν} {sorted : List (State τ ν)}
    (hfs : fs.Exact lemp) (h : Automaton lemp fs sorted) :
    ∃ sorted', findFollowSets (findLinks sorted) = some sorted' ∧ Followed lemp sorted sorted' := by
  obtain ⟨s, hrun, hval⟩ := flood_spec (fun r r' hr => mem_nodes_of_link h hr)
    (fwsOf (findLinks sorted)) (Nat.lt_succ_self _)
  obtain ⟨hlen, hstate⟩ := linked_findLinks sorted
  refine ⟨setFws (findLinks sorted) s.val, ?_, ?_, fun n stp hstp => ?_⟩
  · unfold findFollowSets
    simp only
    rw [hrun, Option.map_some]
  · rw [setFws, List.length_mapIdx, hlen]
  · obtain ⟨stp', hstp', -, hitems, hap, -⟩ := hstate n stp hstp
    refine ⟨{ stp' with cfp := stp'.cfp.map (fun cfp => { cfp with fws := s.val (cfp.ref n) }) }, ?_, ?_, hap,
      fun cfp hcfp a => ?_⟩
    · rw [setFws, List.getElem?_mapIdx, hstp', Option.map_some]
    · rw [← hitems, itemsOf, List.map_map]
      rfl
    · obtain ⟨c, hc, rfl⟩ := List.mem_map.mp hcfp
      refine (hval (c.ref n) a).trans ⟨?_, ?_⟩
      · rintro ⟨r, ha, hflow⟩
        obtain ⟨stp₀, hstp₀, -⟩ := exists_state h (r := r) (by
          intro hnone
          rw [fwsOf, hnone] at ha
          exact absurd ha (Finset.notMem_empty a))
        exact follows_of_flows hfs h hstp₀ (k := (r.rp, r.dot)) ha hflow
      · rintro ⟨p, hp, hfollow⟩
        exact flows_of_follows hfs h hfollow hp

/-- **The follow sets of the parser generator.** All three computations end, and in the finished table a token is in the
    follow set of a configuration exactly if it can follow the item behind some path to its state. -/
theorem findFollowSets_spec [Fintype τ] [Fintype ν] {lemp : Lemon τ ν} (hsize : lemp.items.length < 2 ^ 30) :
    ∃ fs b sorted, findFirstSets lemp = some fs ∧ findStates lemp fs = some b ∧
      findFollowSets (findLinks b.sorted) = some sorted ∧ sorted.length = b.sorted.length ∧
      ∀ (n : Nat) (stp : State τ ν), sorted[n]? = some stp → ∀ cfp ∈ stp.cfp, ∀ a,
        a ∈ cfp.fws ↔ ∃ p, Path b.sorted p n ∧ Follows lemp p cfp.item a := by
  obtain ⟨fs, hrun, hfs⟩ := findFirstSets_exact lemp
  obtain ⟨b, hrun', h⟩ := findStates_automaton hsize fs
  obtain ⟨sorted, hrun'', hlen, hstate⟩ := findFollowSets_automaton hfs h
  refine ⟨fs, b, sorted, hrun, hrun', hrun'', hlen, fun n stp hstp => ?_⟩
  have hlt := (List.getElem?_eq_some_iff.mp hstp).1
  obtain ⟨stp', hstp', -, -, hfws⟩ := hstate n _ (List.getElem?_eq_getElem (hlen ▸ hlt))
  obtain rfl := Option.some.inj (hstp.symm.trans hstp')
  exact hfws

/-- In the middle of two brackets the empty rule comes in front of a closing one, and not at the end. -/
theorem findFollowSets_nested : ∃ fs b sorted n stp, findFirstSets nested = some fs ∧ findStates nested fs = some b ∧
    findFollowSets (findLinks b.sorted) = some sorted ∧ sorted[n]? = some stp ∧
    (∃ p, Path b.sorted p n ∧ Follows nested p (nestedRules[2], 0) (some .closing)) ∧
    ¬ ∃ p, Path b.sorted p n ∧ Follows nested p (nestedRules[2], 0) none := by
  have hsize : nested.items.length < 2 ^ 30 := by decide
  have htest : (findFirstSets nested).any (fun fs => (findStates nested fs).any (fun b =>
      (findFollowSets (findLinks b.sorted)).any (fun sorted => sorted.any (fun stp => stp.cfp.any (fun cfp =>
        cfp.item = (nestedRules[2], 0) && some .closing ∈ cfp.fws && none ∉ cfp.fws))))) = true := by
    decide +kernel
  obtain ⟨fs, b, sorted, hfirst, hstates, hfollow, -, hfws⟩ := findFollowSets_spec hsize
  rw [hfirst, Option.any_some, hstates, Option.any_some, hfollow, Option.any_some] at htest
  obtain ⟨stp, hin, htest⟩ := List.any_eq_true.mp htest
  obtain ⟨cfp, hcfp, htest⟩ := List.any_eq_true.mp htest
  simp only [Bool.and_eq_true, decide_eq_true_eq] at htest
  obtain ⟨⟨hitem, hclosing⟩, hend⟩ := htest
  obtain ⟨n, hstp⟩ := List.mem_iff_getElem?.mp hin
  have hexact := hfws n stp hstp cfp hcfp
  rw [hitem] at hexact
  exact ⟨fs, b, sorted, n, stp, hfirst, hstates, hfollow, hstp, (hexact _).mp hclosing, fun h => hend ((hexact _).mpr h)⟩

end LemonC
end CSamples
