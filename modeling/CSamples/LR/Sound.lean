import CSamples.LR.Machine

/-!
# `LR.Sound` — tables that accept nothing wrong

Items justify what a machine does: a state is given the places of rules that a parser can stand at in it. If every
transition moves the items of the state it leads to over a symbol that their places cover (`Sound`), a stack spells
what has been read, and what is accepted is in the language (`sound`).

A place covers a symbol when it can be read as something that yields all that the symbol yields; a table may skip the
reductions of rules with one place on their right.
-/

namespace CSamples
namespace LR

open Grammar

variable {τ ρ κ σ : Type} {g : ContextFreeGrammar τ} {R : Rules τ g.NT ρ κ} {T : Tables τ g.NT ρ σ}

/-- What the symbol yields, a symbol that fits the place yields. -/
def Rules.Covers (R : Rules τ g.NT ρ κ) (x : κ) (y : Symbol τ g.NT) : Prop :=
  ∀ w, Yields g [y] w → ∃ z, R.fits x z ∧ Yields g [z] w

theorem covers_of_fits {x : κ} {y : Symbol τ g.NT} (h : R.fits x y) : R.Covers x y := fun _ hw => ⟨y, h, hw⟩

/-- What must hold of tables, with `items q r d` for "in the state `q`, the first `d` places of `r` have been read". -/
structure Sound (R : Rules τ g.NT ρ κ) (T : Tables τ g.NT ρ σ) (items : σ → ρ → Nat → Prop) : Prop where
  lhs     : ∀ r, T.lhs r = R.lhs r
  nrhs    : ∀ r, T.nrhs r = (R.rhs r).length
  start   : ∀ r d, items T.start r d → d = 0
  restart : ∀ q y, ¬ Enters T q y T.start
  enter   : ∀ q y q', Enters T q y q' → ∀ r d, items q' r (d + 1) →
    items q r d ∧ ∃ x, (R.rhs r)[d]? = some x ∧ R.Covers x y
  reduce  : ∀ q t r, Entered T q → T.action q t = .reduce r → r ∈ R.rule ∧ items q r (R.rhs r).length
  atEnd   : ∀ q t r, Entered T q → T.action q t = .reduce r → R.lhs r = g.initial → t = none
  accept  : ∀ q t, T.action q t = .accept → q ≠ T.start ∧
    ∀ p y, Enters T p y q → p = T.start ∧ y = .nonterminal g.initial

/-- The symbols of a stack, bottom first. -/
def majors {ν : Type} (st : Stack τ ν σ) : List (Symbol τ ν) := (st.map Prod.snd).reverse

theorem majors_cons {ν : Type} (q : σ) (y : Symbol τ ν) (st : Stack τ ν σ) : majors ((q, y) :: st) = majors st ++ [y] := by
  rw [majors, List.map_cons, List.reverse_cons, majors]

theorem majors_take_drop {ν : Type} (st : Stack τ ν σ) (n : Nat) : majors (st.drop n) ++ majors (st.take n) = majors st := by
  unfold majors
  rw [← List.reverse_append, ← List.map_append, List.take_append_drop]

variable {items : σ → ρ → Nat → Prop}

/-- **A pop is justified**: below an item there are symbols that its places cover. -/
theorem pop (h : Sound R T items) {st : Stack τ g.NT σ} (hst : Linked T st) {r : ρ} {d : Nat} (hd : items (top T st) r d) :
    d ≤ st.length ∧ List.Forall₂ R.Covers ((R.rhs r).take d) (majors (st.take d)) := by
  induction d generalizing st with
  | zero =>
      rw [List.take_zero, List.take_zero]
      exact ⟨Nat.zero_le _, .nil⟩
  | succ d ih =>
      cases hst with
      | nil => exact absurd (h.start r (d + 1) hd) (Nat.succ_ne_zero d)
      | @cons q y st hy hst =>
          obtain ⟨hbelow, x, hx, hcov⟩ := h.enter _ _ _ hy r d hd
          obtain ⟨hlen, hall⟩ := ih hst hbelow
          refine ⟨Nat.succ_le_succ hlen, ?_⟩
          have hlt : d < (R.rhs r).length := (List.getElem?_eq_some_iff.mp hx).1
          rw [List.take_add_one, hx, List.take_succ_cons, majors_cons]
          exact List.rel_append hall (.cons hcov .nil)

/-- Symbols that are covered can be replaced by symbols that fit. -/
theorem exists_fits_of_covers {xs : List κ} {ys : List (Symbol τ g.NT)} (h : List.Forall₂ R.Covers xs ys) {w : List τ}
    (hw : Yields g ys w) : ∃ zs, List.Forall₂ R.fits xs zs ∧ Yields g zs w := by
  induction h generalizing w with
  | nil => exact ⟨[], .nil, hw⟩
  | @cons x y xs ys hx _ ih =>
      obtain ⟨u, v, rfl, hu, hv⟩ := yields_append (s := [y]).mp hw
      obtain ⟨z, hz, hyz⟩ := hx u hu
      obtain ⟨zs, hzs, hyzs⟩ := ih hv
      exact ⟨z :: zs, .cons hz hzs, hyz.append hyzs⟩

/-- After some steps on `w₀`: the stack is linked, it yields what has been read, and where the machine is going to
    accept there is nothing left to read. -/
structure Invariant (T : Tables τ g.NT ρ σ) (w₀ : List τ) (st : Stack τ g.NT σ) (w : List τ) : Prop where
  linked : Linked T st
  spells : ∃ u, u ++ w = w₀ ∧ Yields g (majors st) u
  last   : ∀ t, T.action (top T st) t = .accept → w = []

theorem invariant_step (hR : R.Describes) (h : Sound R T items) {w₀ w w' : List τ} {st st' : Stack τ g.NT σ}
    (hinv : Invariant T w₀ st w) (hstep : step T st w = .next st' w') : Invariant T w₀ st' w' := by
  obtain ⟨hlinked, ⟨u, hu, hyields⟩, -⟩ := hinv
  have hlinked' := linked_step hlinked hstep
  obtain ⟨q, a, hq, rfl, rfl⟩ | ⟨r, q, hr, hlen, hq, rfl, rfl⟩ := step_next hstep
  · refine ⟨hlinked', ⟨u ++ [a], by rw [← hu, List.append_assoc]; rfl, ?_⟩, fun t hacc => ?_⟩
    · rw [majors_cons]
      exact hyields.append (.terminal a .nil)
    · obtain ⟨-, honly⟩ := h.accept q t hacc
      exact absurd (honly _ (.terminal a) hq).2 (by simp)
  · obtain ⟨hrule, hitem⟩ := h.reduce _ _ _ hlinked.entered hr
    obtain ⟨-, hcov⟩ := pop h hlinked hitem
    rw [List.take_length, ← h.nrhs r] at hcov
    rw [← majors_take_drop st (T.nrhs r)] at hyields
    obtain ⟨u₁, u₂, rfl, hu₁, hu₂⟩ := yields_append.mp hyields
    obtain ⟨zs, hzs, hyzs⟩ := exists_fits_of_covers hcov hu₂
    have hmem : (⟨R.lhs r, zs⟩ : ContextFreeRule τ g.NT) ∈ g.rules := (hR _ _).mpr ⟨r, hrule, rfl, hzs⟩
    refine ⟨hlinked', ⟨u₁ ++ u₂, hu, ?_⟩, fun t hacc => ?_⟩
    · rw [majors_cons, h.lhs]
      exact hu₁.append (.rule hmem hyzs)
    · obtain ⟨-, honly⟩ := h.accept q t hacc
      have hlhs := (honly _ (.nonterminal (T.lhs r)) hq).2
      have hend := h.atEnd _ _ r hlinked.entered hr (by
        rw [← h.lhs]
        exact Symbol.nonterminal.inj hlhs)
      exact List.head?_eq_none_iff.mp hend

theorem invariant_steps (hR : R.Describes) (h : Sound R T items) {w₀ w w' : List τ} {st st' : Stack τ g.NT σ}
    (hinv : Invariant T w₀ st w) (hsteps : Steps T (st, w) (st', w')) : Invariant T w₀ st' w' := by
  generalize hc : (st', w') = c at hsteps
  induction hsteps generalizing st' w' with
  | refl =>
      obtain ⟨rfl, rfl⟩ := Prod.mk.inj hc
      exact hinv
  | tail _ hstep ih =>
      subst hc
      exact invariant_step hR h (ih rfl) hstep

/-- Where the machine accepts, there is nothing left to read, one symbol is on the stack and what has been read is in the
    language. -/
theorem Invariant.accepted (h : Sound R T items) {w₀ w : List τ} {st : Stack τ g.NT σ} (hinv : Invariant T w₀ st w)
    {t : Option τ} (haction : T.action (top T st) t = .accept) : w = [] ∧ w₀ ∈ g.language ∧ st.length = 1 := by
  obtain ⟨hlinked, ⟨u, hu, hyields⟩, hlast⟩ := hinv
  obtain rfl := hlast _ haction
  refine ⟨rfl, ?_⟩
  rw [List.append_nil] at hu
  subst hu
  obtain ⟨hne, honly⟩ := h.accept _ _ haction
  cases hlinked with
  | nil => exact absurd rfl hne
  | @cons q y st hy hst =>
      obtain ⟨hbottom, rfl⟩ := honly _ _ hy
      cases hst with
      | nil => exact ⟨mem_language_iff_yields.mpr hyields, rfl⟩
      | @cons q' y' st' hy' _ =>
          have hq' : q' = T.start := hbottom
          exact absurd (hq' ▸ hy') (h.restart _ y')

/-- **Soundness.** What the machine accepts, it has read to its end, and it is in the language. -/
theorem sound (hR : R.Describes) (h : Sound R T items) {w rest : List τ} (hacc : AcceptsBefore T w rest) :
    rest = [] ∧ w ∈ g.language := by
  obtain ⟨st, w', hsteps, haccept⟩ := hacc
  have hstart : Invariant T w [] w := by
    refine ⟨.nil, ⟨[], rfl, .nil⟩, fun t hacc => ?_⟩
    exact absurd rfl (h.accept _ t hacc).1
  obtain ⟨haction, rfl⟩ := step_accepted haccept
  obtain ⟨hrest, hmem, -⟩ := (invariant_steps hR h hstart hsteps).accepted h haction
  exact ⟨hrest, hmem⟩

end LR
end CSamples
