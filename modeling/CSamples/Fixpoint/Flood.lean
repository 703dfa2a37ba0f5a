import CSamples.Fixpoint.Passes
import Mathlib.Algebra.BigOperators.Group.Finset.Basic
import Mathlib.Algebra.Order.BigOperators.Group.Finset
import Mathlib.Data.Fintype.Card
import Mathlib.Logic.Relation

/-!
# `Fixpoint.Flood` — sets that flow along links

Every node has a set and links to other nodes, and a set flows along all links until nothing changes. A node whose set
has not changed since it was visited is not visited again. In the end each set is what flows into it: the sets of all
nodes that it can be reached from (`flood_spec`).
-/

namespace CSamples
namespace Fixpoint

variable {κ α : Type} [DecidableEq κ] [DecidableEq α]

/-- The sets of the nodes, and which nodes need no visit. -/
structure Flood (κ α : Type) where
  val      : κ → Finset α
  complete : κ → Bool

/-- Along one link. -/
def push (src dst : κ) (s : Flood κ α) : Flood κ α × Bool :=
  if s.val src ⊆ s.val dst then (s, false)
  else
    (⟨Function.update s.val dst (s.val dst ∪ s.val src), Function.update s.complete dst false⟩, true)

/-- One node. -/
def visit (links : κ → List κ) (src : κ) (s : Flood κ α) : Flood κ α × Bool :=
  if s.complete src then (s, false)
  else
    let x := sweep (push src) (links src) s
    (⟨x.1.val, Function.update x.1.complete src true⟩, x.2)

/-- The sets flow from node to node. -/
def Flows (links : κ → List κ) : κ → κ → Prop := Relation.ReflTransGen (fun k k' => k' ∈ links k)

/-! ## One link -/

/-- The invariant: nothing is lost, what is there has flown in, and a node that needs no visit has nothing to give. -/
structure Flood.Ok (links : κ → List κ) (val : κ → Finset α) (s : Flood κ α) : Prop where
  kept   : ∀ k, val k ⊆ s.val k
  sound  : ∀ k, ∀ a ∈ s.val k, ∃ k₀, a ∈ val k₀ ∧ Flows links k₀ k
  closed : ∀ k, s.complete k = true → ∀ k' ∈ links k, s.val k ⊆ s.val k'

section
variable {links : κ → List κ} {val : κ → Finset α} {s : Flood κ α}

/-- A push gives all that the source has, and changes nothing else. -/
theorem push_spec (src dst : κ) (s : Flood κ α) :
    (∀ k, s.val k ⊆ (push src dst s).1.val k) ∧ s.val src ⊆ (push src dst s).1.val dst ∧
      (∀ k, k ≠ dst → (push src dst s).1.val k = s.val k) ∧
      (∀ k a, a ∈ (push src dst s).1.val k → a ∈ s.val k ∨ (k = dst ∧ a ∈ s.val src)) ∧
      ∀ k, (push src dst s).1.complete k = true → s.complete k = true ∧ (push src dst s).1.val k = s.val k := by
  unfold push
  split
  · next hsub =>
      exact ⟨fun k => subset_rfl, hsub, fun k _ => rfl, fun k a ha => .inl ha, fun k hk => ⟨hk, rfl⟩⟩
  · dsimp only
    refine ⟨fun k => ?_, ?_, fun k hk => ?_, fun k a ha => ?_, fun k hk => ?_⟩
    · by_cases hk : k = dst
      · subst hk
        rw [Function.update_self]
        exact Finset.subset_union_left
      · rw [Function.update_of_ne hk]
    · rw [Function.update_self]
      exact Finset.subset_union_right
    · exact Function.update_of_ne hk _ _
    · by_cases hk : k = dst
      · subst hk
        rw [Function.update_self] at ha
        exact (Finset.mem_union.mp ha).imp_right fun ha => ⟨rfl, ha⟩
      · rw [Function.update_of_ne hk] at ha
        exact .inl ha
    · by_cases heq : k = dst
      · subst heq
        rw [Function.update_self] at hk
        exact absurd hk Bool.false_ne_true
      · rw [Function.update_of_ne heq] at hk
        exact ⟨hk, Function.update_of_ne heq _ _⟩

theorem push_still {src dst : κ} (h : (push src dst s).2 = false) : (push src dst s).1 = s := by
  unfold push at h ⊢
  split
  · rfl
  · next hsub =>
      rw [if_neg hsub] at h
      exact absurd h Bool.noConfusion

theorem push_self (src : κ) (s : Flood κ α) : push src src s = (s, false) := if_pos subset_rfl

theorem Flood.Ok.push (h : s.Ok links val) {src dst : κ} (hlink : dst ∈ links src) :
    (push src dst s).1.Ok links val := by
  obtain ⟨hgrow, -, -, hfrom, hcomplete⟩ := push_spec src dst s
  refine ⟨fun k => (h.kept k).trans (hgrow k), fun k a ha => ?_, fun k hk k' hk' => ?_⟩
  · rcases hfrom k a ha with ha' | ⟨rfl, ha'⟩
    · exact h.sound k a ha'
    · obtain ⟨k₀, ha₀, hflow⟩ := h.sound src a ha'
      exact ⟨k₀, ha₀, hflow.tail hlink⟩
  · obtain ⟨hk₀, hsame⟩ := hcomplete k hk
    rw [hsame]
    exact (h.closed k hk₀ k' hk').trans (hgrow k')

/-! ## One node -/

/-- The loop over the links of a node: all of them get what the node has. -/
theorem pushes_spec (h : s.Ok links val) (src : κ) :
    (sweep (Fixpoint.push src) (links src) s).1.Ok links val ∧
      (sweep (Fixpoint.push src) (links src) s).1.val src = s.val src ∧
      ∀ k ∈ links src, s.val src ⊆ (sweep (Fixpoint.push src) (links src) s).1.val k := by
  have hI : ∀ dst ∈ links src, ∀ t : Flood κ α, (t.Ok links val ∧ t.val src = s.val src) →
      ((Fixpoint.push src dst t).1.Ok links val ∧ (Fixpoint.push src dst t).1.val src = s.val src) := by
    rintro dst hdst t ⟨hok, hsrc⟩
    refine ⟨hok.push hdst, ?_⟩
    by_cases heq : src = dst
    · subst heq
      rw [push_self]
      exact hsrc
    · rw [(push_spec src dst t).2.2.1 src heq]
      exact hsrc
  obtain ⟨hok, hsrc⟩ := sweep_invariant hI (s := s) ⟨h, rfl⟩
  refine ⟨hok, hsrc, ?_⟩
  refine (sweep_post (c := true) (D := fun k (t : Flood κ α) => s.val src ⊆ t.val k) hI (fun dst _ t ht _ => ?_)
    (fun dst _ k t _ _ hk => hk.trans ((push_spec src dst t).1 k)) ⟨h, rfl⟩ (Bool.le_true _)).2
  rw [← ht.2]
  exact (push_spec src dst t).2.1

theorem Flood.Ok.visit (h : s.Ok links val) (src : κ) : (visit links src s).1.Ok links val := by
  unfold Fixpoint.visit
  split
  · exact h
  · obtain ⟨hok, hsrc, hgiven⟩ := pushes_spec h src
    refine ⟨hok.kept, hok.sound, fun k hk k' hk' => ?_⟩
    by_cases heq : k = src
    · subst heq
      change (sweep (Fixpoint.push k) (links k) s).1.val k ⊆ _
      rw [hsrc]
      exact hgiven k' hk'
    · refine hok.closed k ?_ k' hk'
      exact (Function.update_of_ne heq _ _).symm.trans hk

/-! ## The loop -/

/-- How much there is in the sets. -/
def Flood.size (nodes : Finset κ) (s : Flood κ α) : Nat := ∑ k ∈ nodes, (s.val k).card

theorem size_push {nodes : Finset κ} {src dst : κ} (hdst : dst ∈ nodes) (s : Flood κ α) :
    s.size nodes ≤ (Fixpoint.push src dst s).1.size nodes ∧
      ((Fixpoint.push src dst s).2 = true → s.size nodes < (Fixpoint.push src dst s).1.size nodes) := by
  have hgrow := (push_spec src dst s).1
  refine ⟨Finset.sum_le_sum fun k _ => Finset.card_le_card (hgrow k), fun hchange => ?_⟩
  refine Finset.sum_lt_sum (fun k _ => Finset.card_le_card (hgrow k)) ⟨dst, hdst, Finset.card_lt_card ?_⟩
  refine Finset.ssubset_iff_subset_ne.mpr ⟨hgrow dst, fun heq => ?_⟩
  have hsub : ¬ s.val src ⊆ s.val dst := by
    intro hsub
    rw [Fixpoint.push, if_pos hsub] at hchange
    exact absurd hchange Bool.false_ne_true
  rw [heq] at hsub
  exact hsub (push_spec src dst s).2.1

theorem size_visit {nodes : Finset κ} {src : κ} (hlinks : ∀ dst ∈ links src, dst ∈ nodes) (s : Flood κ α) :
    s.size nodes ≤ (Fixpoint.visit links src s).1.size nodes ∧
      ((Fixpoint.visit links src s).2 = true → s.size nodes < (Fixpoint.visit links src s).1.size nodes) := by
  unfold Fixpoint.visit
  split
  · exact ⟨Nat.le_refl _, fun h => absurd h Bool.false_ne_true⟩
  · exact sweep_measure (I := fun _ => True) (μ := Flood.size nodes) (fun _ _ _ _ => trivial)
      (fun dst hdst t _ => (size_push (hlinks dst hdst) t).1) (fun dst hdst t _ => (size_push (hlinks dst hdst) t).2)
      trivial

/-- After a pass that has changed nothing, no node needs a visit. -/
theorem visit_quiet {src : κ} (h : (Fixpoint.visit links src s).2 = false) :
    (Fixpoint.visit links src s).1.complete src = true ∧
      ∀ k, s.complete k = true → (Fixpoint.visit links src s).1.complete k = true := by
  unfold Fixpoint.visit at h ⊢
  split
  · next hsrc => exact ⟨hsrc, fun _ => id⟩
  · next hsrc =>
      rw [if_neg hsrc] at h
      obtain ⟨hsame, -⟩ := sweep_still (fun dst _ t ht => push_still ht) h
      refine ⟨Function.update_self _ _ _, fun k hk => ?_⟩
      change Function.update (sweep (Fixpoint.push src) (links src) s).1.complete src true k = true
      rw [hsame]
      by_cases heq : k = src
      · subst heq
        exact Function.update_self _ _ _
      · rw [Function.update_of_ne heq]
        exact hk

end

/-- **The flood ends**, with every set what has flown into it. -/
theorem flood_spec [Fintype α] {links : κ → List κ} {nodes : List κ} (hlinks : ∀ k, ∀ k' ∈ links k, k ∈ nodes ∧ k' ∈ nodes)
    (val : κ → Finset α) {n : Nat} (hn : nodes.length * Fintype.card α < n) :
    ∃ s, doWhile (sweep (visit links) nodes) n ⟨val, fun _ => false⟩ = some s ∧
      ∀ k a, a ∈ s.val k ↔ ∃ k₀, a ∈ val k₀ ∧ Flows links k₀ k := by
  have hstart : (⟨val, fun _ => false⟩ : Flood κ α).Ok links val :=
    ⟨fun k => subset_rfl, fun k a ha => ⟨k, ha, .refl⟩, fun k hk => absurd hk Bool.false_ne_true⟩
  have hI : ∀ k ∈ nodes, ∀ s : Flood κ α, s.Ok links val → (visit links k s).1.Ok links val :=
    fun k _ s hs => hs.visit k
  have hsize : ∀ k ∈ nodes, ∀ s : Flood κ α, s.size nodes.toFinset ≤ (visit links k s).1.size nodes.toFinset ∧
      ((visit links k s).2 = true → s.size nodes.toFinset < (visit links k s).1.size nodes.toFinset) :=
    fun k _ s => size_visit (fun k' hk' => List.mem_toFinset.mpr (hlinks k k' hk').2) s
  have hbound : ∀ s : Flood κ α, s.Ok links val → s.size nodes.toFinset ≤ nodes.length * Fintype.card α := by
    intro s _
    calc s.size nodes.toFinset ≤ nodes.toFinset.card • Fintype.card α :=
          Finset.sum_le_card_nsmul _ _ _ fun k _ => Finset.card_le_univ _
      _ = nodes.toFinset.card * Fintype.card α := rfl
      _ ≤ nodes.length * Fintype.card α := Nat.mul_le_mul_right _ (List.toFinset_card_le nodes)
  obtain ⟨s₀, h₀, hstop, hrun⟩ := doWhile_ends (p := sweep (visit links) nodes) (I := Flood.Ok links val)
    (μ := Flood.size nodes.toFinset) (N := nodes.length * Fintype.card α) (fun s hs => sweep_invariant hI hs)
    (fun s hs hp => (sweep_measure hI (fun k hk s _ => (hsize k hk s).1) (fun k hk s _ => (hsize k hk s).2) hs).2 hp)
    hbound hstart (Nat.lt_of_lt_of_le hn (Nat.le_add_right _ _))
  have hall := (sweep_post (c := false) (D := fun k (s : Flood κ α) => s.complete k = true) hI
    (fun k _ s _ hq => (visit_quiet (Bool.eq_false_of_le_false hq)).1)
    (fun k _ k' s _ hq => (visit_quiet (Bool.eq_false_of_le_false hq)).2 k') h₀ (Bool.le_of_eq hstop)).2
  have hok := sweep_invariant hI h₀
  refine ⟨_, hrun, fun k a => ⟨hok.sound k a, ?_⟩⟩
  rintro ⟨k₀, ha, hflow⟩
  induction hflow with
  | refl => exact hok.kept _ ha
  | tail _ hlink ih => exact hok.closed _ (hall _ (hlinks _ _ hlink).1) _ hlink ih

end Fixpoint
end CSamples
