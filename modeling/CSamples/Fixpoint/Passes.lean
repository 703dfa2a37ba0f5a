import Mathlib.Data.Bool.Basic
import Mathlib.Data.List.Basic
import Mathlib.Logic.Relation

/-!
# `Fixpoint.Passes` — passes over a list until nothing changes

`doWhile` repeats a pass as long as it reports progress; `sweep` is the pass that takes one step for every element
of a list. A measure that grows with every pass that makes progress, and is bounded, makes the loop end
(`doWhile_ends`); what it ends in is an invariant plus the fact that no step makes progress there any more
(`doWhile_sweep`). A walk along a relation without cycles ends within as many steps as there is something to meet
(`walk_induction`).
-/

namespace CSamples
namespace Fixpoint

variable {σ ι : Type}

/-- `do { progress = 0; …; } while (progress)`, with a bound on its passes. -/
def doWhile (pass : σ → σ × Bool) : Nat → σ → Option σ
  | 0, _   => none
  | n+1, s => if (pass s).2 then doWhile pass n (pass s).1 else some (pass s).1

/-- One step for every element; the pass makes progress when one of the steps does. -/
def sweep (step : ι → σ → σ × Bool) : List ι → σ → σ × Bool
  | [], s      => (s, false)
  | i :: is, s => ((sweep step is (step i s).1).1, (step i s).2 || (sweep step is (step i s).1).2)

/-! ## The loop -/

/-- **The loop ends.** Its last pass starts in a state with the invariant and makes no progress. -/
theorem doWhile_ends {p : σ → σ × Bool} {I : σ → Prop} {μ : σ → Nat} {N : Nat}
    (hI : ∀ s, I s → I (p s).1) (hμ : ∀ s, I s → (p s).2 = true → μ s < μ (p s).1)
    (hN : ∀ s, I s → μ s ≤ N) {fuel : Nat} {s : σ} (hs : I s) (hfuel : N < fuel + μ s) :
    ∃ s₀, I s₀ ∧ (p s₀).2 = false ∧ doWhile p fuel s = some (p s₀).1 := by
  induction fuel generalizing s with
  | zero =>
      have h := hN s hs
      omega
  | succ n ih =>
      cases hp : (p s).2 with
      | true =>
          have hlt := hμ s hs hp
          obtain ⟨s₀, h₀, hstop, hrun⟩ := ih (hI s hs) (by omega)
          refine ⟨s₀, h₀, hstop, ?_⟩
          rw [doWhile, if_pos hp, hrun]
      | false =>
          refine ⟨s, hs, hp, ?_⟩
          rw [doWhile, if_neg (by rw [hp]; exact Bool.false_ne_true)]

/-! ## One pass -/

variable {f : ι → σ → σ × Bool}

theorem sweep_invariant {I : σ → Prop} {l : List ι} (hI : ∀ i ∈ l, ∀ s, I s → I (f i s).1) {s : σ} (hs : I s) :
    I (sweep f l s).1 := by
  induction l generalizing s with
  | nil => exact hs
  | cons i l ih =>
      exact ih (fun j hj => hI j (List.mem_cons_of_mem i hj)) (hI i List.mem_cons_self s hs)

/-- A measure that no step lowers is not lowered by the pass, and a pass with progress raises it. -/
theorem sweep_measure {I : σ → Prop} {μ : σ → Nat} {l : List ι} (hI : ∀ i ∈ l, ∀ s, I s → I (f i s).1)
    (hle : ∀ i ∈ l, ∀ s, I s → μ s ≤ μ (f i s).1)
    (hlt : ∀ i ∈ l, ∀ s, I s → (f i s).2 = true → μ s < μ (f i s).1) {s : σ} (hs : I s) :
    μ s ≤ μ (sweep f l s).1 ∧ ((sweep f l s).2 = true → μ s < μ (sweep f l s).1) := by
  induction l generalizing s with
  | nil => exact ⟨Nat.le_refl _, fun h => absurd h Bool.false_ne_true⟩
  | cons i l ih =>
      obtain ⟨ihle, ihlt⟩ := ih (fun j hj => hI j (List.mem_cons_of_mem i hj))
        (fun j hj => hle j (List.mem_cons_of_mem i hj)) (fun j hj => hlt j (List.mem_cons_of_mem i hj))
        (hI i List.mem_cons_self s hs)
      have hi := hle i List.mem_cons_self s hs
      refine ⟨Nat.le_trans hi ihle, fun h => ?_⟩
      rcases Bool.or_eq_true_iff.mp h with h | h
      · exact Nat.lt_of_lt_of_le (hlt i List.mem_cons_self s hs h) ihle
      · exact Nat.lt_of_le_of_lt hi (ihlt h)

/-- A pass without progress, where a step without progress changes nothing: it changes nothing, and no step would
    make progress. -/
theorem sweep_still {l : List ι} (hstill : ∀ i ∈ l, ∀ s, (f i s).2 = false → (f i s).1 = s) {s : σ}
    (h : (sweep f l s).2 = false) : (sweep f l s).1 = s ∧ ∀ i ∈ l, (f i s).2 = false := by
  induction l with
  | nil => exact ⟨rfl, fun i hi => absurd hi List.not_mem_nil⟩
  | cons i l ih =>
      obtain ⟨hi, hl⟩ := Bool.or_eq_false_iff.mp h
      have hsame := hstill i List.mem_cons_self s hi
      rw [hsame] at hl
      obtain ⟨heq, hall⟩ := ih (fun j hj => hstill j (List.mem_cons_of_mem i hj)) hl
      refine ⟨?_, fun j hj => ?_⟩
      · rw [sweep, hsame]
        exact heq
      · rcases List.mem_cons.mp hj with rfl | hj
        · exact hi
        · exact hall j hj

/-- What a step establishes and no step destroys holds at the end of the pass. With `c = false` this is said of a pass
    without progress only. -/
theorem sweep_post {I : σ → Prop} {D : ι → σ → Prop} {c : Bool} {l : List ι} (hI : ∀ i ∈ l, ∀ s, I s → I (f i s).1)
    (hdone : ∀ i ∈ l, ∀ s, I s → (f i s).2 ≤ c → D i (f i s).1)
    (hkeep : ∀ i ∈ l, ∀ j s, I s → (f i s).2 ≤ c → D j s → D j (f i s).1) {s : σ} (hs : I s) (h : (sweep f l s).2 ≤ c) :
    (∀ j, D j s → D j (sweep f l s).1) ∧ ∀ i ∈ l, D i (sweep f l s).1 := by
  induction l generalizing s with
  | nil => exact ⟨fun _ => id, fun i hi => absurd hi List.not_mem_nil⟩
  | cons i l ih =>
      have hi : (f i s).2 ≤ c := Bool.le_trans (Bool.left_le_or _ _) h
      have hl : (sweep f l (f i s).1).2 ≤ c := Bool.le_trans (Bool.right_le_or _ _) h
      obtain ⟨hall, hl'⟩ := ih (fun j hj => hI j (List.mem_cons_of_mem i hj))
        (fun j hj => hdone j (List.mem_cons_of_mem i hj)) (fun j hj => hkeep j (List.mem_cons_of_mem i hj))
        (hI i List.mem_cons_self s hs) hl
      refine ⟨fun j hj => hall j (hkeep i List.mem_cons_self j s hs hi hj), fun j hj => ?_⟩
      rcases List.mem_cons.mp hj with rfl | hj
      · exact hall j (hdone j List.mem_cons_self s hs hi)
      · exact hl' j hj

/-- **Passes until nothing changes.** They end, in a state with the invariant where no step makes progress. -/
theorem doWhile_sweep {I : σ → Prop} {μ : σ → Nat} {N : Nat} {l : List ι} (hI : ∀ i ∈ l, ∀ s, I s → I (f i s).1)
    (hstill : ∀ i ∈ l, ∀ s, (f i s).2 = false → (f i s).1 = s)
    (hlt : ∀ i ∈ l, ∀ s, I s → (f i s).2 = true → μ s < μ (f i s).1) (hN : ∀ s, I s → μ s ≤ N) {n : Nat}
    {s : σ} (hs : I s) (hn : N < n) :
    ∃ s', doWhile (sweep f l) n s = some s' ∧ I s' ∧ ∀ i ∈ l, (f i s').2 = false := by
  have hle : ∀ i ∈ l, ∀ t, I t → μ t ≤ μ (f i t).1 := by
    intro i hi t ht
    cases hp : (f i t).2 with
    | true => exact Nat.le_of_lt (hlt i hi t ht hp)
    | false => exact Nat.le_of_eq (by rw [hstill i hi t hp])
  obtain ⟨s₀, h₀, hstop, hrun⟩ := doWhile_ends (p := sweep f l) (fun t ht => sweep_invariant hI ht)
    (fun t ht hp => (sweep_measure hI hle hlt ht).2 hp) hN hs (Nat.lt_of_lt_of_le hn (Nat.le_add_right _ _))
  obtain ⟨heq, hall⟩ := sweep_still hstill hstop
  rw [heq] at hrun
  exact ⟨s₀, hrun, h₀, hall⟩

/-! ## Walks -/

open Relation in
/-- **A walk without cycles** has at most as many steps as there are elements to meet: what holds with one step more than
    for everything one step away, holds with that many. -/
theorem walk_induction {r : ι → ι → Prop} (hacyclic : ∀ x, ¬ TransGen r x x) {P : Nat → ι → Prop}
    (hstep : ∀ n x, (∀ y, r x y → P n y) → P (n + 1) x) [DecidableEq ι] (l : List ι) (x : ι)
    (hl : ∀ y, ReflTransGen r x y → y ∈ l) : P l.length x := by
  induction hn : l.length generalizing l x with
  | zero =>
      obtain rfl := List.eq_nil_of_length_eq_zero hn
      exact absurd (hl x .refl) List.not_mem_nil
  | succ n ih =>
      refine hstep n x fun y hxy => ih (l.erase x) y (fun z hyz => ?_) ?_
      · have hz := hl z (.head hxy hyz)
        refine (List.mem_erase_of_ne ?_).mpr hz
        rintro rfl
        exact hacyclic _ (.head' hxy hyz)
      · rw [List.length_erase_of_mem (hl x .refl), hn, Nat.add_sub_cancel]

end Fixpoint
end CSamples
