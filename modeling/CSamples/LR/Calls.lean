import CSamples.LR.Recode
import CSamples.LR.Sound

/-!
# `LR.Calls` — a parser that is called with its tokens one by one

The machine as a parser that is kept between calls. A call is given one token, or the end of the input, and ends with a
shift, with the acceptance, at an error or where the stack has no room for one more entry. What becomes of the parser
after an error or an overflow is left to the caller.

## Contents
- `Room`, `Call` and `Reply`.
- `call_sound`: as long as the stack spells the tokens that were shifted, what is accepted is in the language.
- `ReadsAll`, the calls for a word and its end; `readsAll_iff`: they accept exactly if the machine does, without ever
  needing more room.
- `recodes_stacksFit`: tables under other names need the same room.
-/

namespace CSamples
namespace LR

open Grammar

/-! ## Calls -/

/-- So many entries above the first one find room. The first entry counts; `none` is a stack that grows. -/
def Room (depth : Option Nat) (n : Nat) : Prop := ∀ d ∈ depth, n < d

instance (depth : Option Nat) (n : Nat) : Decidable (Room depth n) :=
  match depth with
  | none   => isTrue (fun _ hd => absurd hd (by simp))
  | some d => decidable_of_iff (n < d) (by simp [Room])

theorem Room.mono {depth : Option Nat} {m n : Nat} (h : Room depth n) (hle : m ≤ n) : Room depth m :=
  fun d hd => Nat.lt_of_le_of_lt hle (h d hd)

/-- How a call ends. -/
inductive Reply (τ ν σ : Type) where
  | shifted (st : Stack τ ν σ)
  | discarded (st : Stack τ ν σ)
  | accepted (st : Stack τ ν σ)
  | overflow

section
variable {τ ν ρ σ : Type}

/-- A call with the token `t`. Room is looked for where the stack would grow: in front of a shift and of a reduction by
    an empty rule. -/
inductive Call (T : Tables τ ν ρ σ) (depth : Option Nat) (t : Option τ) : Stack τ ν σ → Reply τ ν σ → Prop
  | reduce {st st' : Stack τ ν σ} {r : ρ} {o : Reply τ ν σ} (haction : T.action (top T st) t = .reduce r)
      (hroom : T.nrhs r = 0 → Room depth (st.length + 1)) (hstep : step T st t.toList = .next st' t.toList)
      (h : Call T depth t st' o) : Call T depth t st o
  | full {st : Stack τ ν σ} {r : ρ} (haction : T.action (top T st) t = .reduce r) (hnrhs : T.nrhs r = 0)
      (hfull : ¬ Room depth (st.length + 1)) : Call T depth t st .overflow
  | shift {st : Stack τ ν σ} {a : τ} {q : σ} (ht : t = some a) (haction : T.action (top T st) t = .shift q)
      (hroom : Room depth (st.length + 1)) : Call T depth t st (.shifted ((q, .terminal a) :: st))
  | lost {st : Stack τ ν σ} {q : σ} (haction : T.action (top T st) t = .shift q)
      (hfull : ¬ Room depth (st.length + 1)) : Call T depth t st .overflow
  | accept {st : Stack τ ν σ} (haction : T.action (top T st) t = .accept) : Call T depth t st (.accepted st)
  | error {st : Stack τ ν σ} (haction : T.action (top T st) t = .error) : Call T depth t st (.discarded st)

/-- The token of a call as input. -/
theorem head?_toList (t : Option τ) : t.toList.head? = t := by
  cases t <;> rfl

end

/-! ## Soundness -/

section
variable {τ ρ κ σ : Type} {g : ContextFreeGrammar τ} {R : Rules τ g.NT ρ κ} {T : Tables τ g.NT ρ σ}
  {items : σ → ρ → Nat → Prop} {depth : Option Nat} {t : Option τ}

/-- Between two calls: the stack yields the tokens `ks`, and nothing is accepted before a token has been looked at. -/
structure Standing (g : ContextFreeGrammar τ) (T : Tables τ g.NT ρ σ) (ks : List τ) (st : Stack τ g.NT σ) : Prop where
  linked : Linked T st
  spells : Yields g (majors st) ks
  waits  : ∀ t, T.action (top T st) t ≠ .accept

theorem standing_nil (h : Sound R T items) : Standing g T [] [] :=
  ⟨.nil, .nil, fun t haccept => (h.accept _ t haccept).1 rfl⟩

/-- What a reply says of the tokens `ks` that were shifted before. -/
def Reply.Right (g : ContextFreeGrammar τ) (T : Tables τ g.NT ρ σ) (ks : List τ) (t : Option τ) : Reply τ g.NT σ → Prop
  | .shifted st   => ∃ a, t = some a ∧ Standing g T (ks ++ [a]) st
  | .discarded st => t.isSome → Standing g T ks st
  | .accepted st  => t = none ∧ ks ∈ g.language ∧ st.length = 1
  | .overflow     => True

/-- **A call is right**: it shifts its token onto the others, or the token is thrown away, or it is the end of a word of
    the language. -/
theorem call_sound (hR : R.Describes) (h : Sound R T items) {ks : List τ} {st : Stack τ g.NT σ} {o : Reply τ g.NT σ}
    (hst : Standing g T ks st) (hcall : Call T depth t st o) : o.Right g T ks t := by
  have hinv : Invariant T (ks ++ t.toList) st t.toList :=
    ⟨hst.linked, ⟨ks, rfl, hst.spells⟩, fun t' haccept => absurd haccept (hst.waits t')⟩
  clear hst
  induction hcall with
  | reduce _ _ hstep _ ih => exact ih (invariant_step hR h hinv hstep)
  | full => exact trivial
  | @shift st a q ht haction _ =>
      subst ht
      obtain ⟨hlinked, ⟨u, hu, hyields⟩, -⟩ := hinv
      obtain rfl := List.append_cancel_right hu
      refine ⟨a, rfl, .cons haction hlinked, ?_, fun t haccept => ?_⟩
      · rw [majors_cons]
        exact hyields.append (.terminal a .nil)
      · -- an accepting state is not entered by a token
        have hby := ((h.accept q t haccept).2 _ (.terminal a) haction).2
        exact absurd hby (by simp)
  | lost => exact trivial
  | accept haction =>
      obtain ⟨hnil, hmem, hlen⟩ := hinv.accepted h haction
      obtain rfl := Option.toList_eq_nil_iff.mp hnil
      rw [Option.toList_none, List.append_nil] at hmem
      exact ⟨rfl, hmem, hlen⟩
  | error =>
      intro ht
      obtain ⟨a, rfl⟩ := Option.isSome_iff_exists.mp ht
      obtain ⟨hlinked, ⟨u, hu, hyields⟩, hlast⟩ := hinv
      obtain rfl := List.append_cancel_right hu
      exact ⟨hlinked, hyields, fun t haccept => absurd (hlast t haccept) (List.cons_ne_nil _ _)⟩

end

/-! ## The calls for a word -/

section
variable {τ ν ρ σ : Type} {T : Tables τ ν ρ σ} {depth : Option Nat}

/-- The tokens of a word are shifted, one in each call, and the call with its end accepts. -/
def ReadsAll (T : Tables τ ν ρ σ) (depth : Option Nat) : List τ → Stack τ ν σ → Prop
  | [], st     => ∃ st', Call T depth none st (.accepted st')
  | a :: w, st => ∃ st', Call T depth (some a) st (.shifted st') ∧ ReadsAll T depth w st'

/-- No stack that the machine comes to needs more room. -/
def StacksFit (T : Tables τ ν ρ σ) (depth : Option Nat) (st : Stack τ ν σ) (w : List τ) : Prop :=
  ∀ c, Steps T (st, w) c → Room depth c.1.length

theorem StacksFit.room {st : Stack τ ν σ} {w : List τ} (h : StacksFit T depth st w) : Room depth st.length := h _ .refl

theorem StacksFit.next {st st' : Stack τ ν σ} {w w' : List τ} (h : StacksFit T depth st w)
    (hstep : step T st w = .next st' w') :
    StacksFit T depth st' w' := fun _ hsteps => h _ (hsteps.cons hstep)

/-- The machine has one way only. -/
theorem fits_of_next {st st' : Stack τ ν σ} {w w' : List τ} (hroom : Room depth st.length)
    (hstep : step T st w = .next st' w') (h : StacksFit T depth st' w') : StacksFit T depth st w := by
  intro c hsteps
  rcases Relation.ReflTransGen.cases_head hsteps with rfl | ⟨c₁, hstep₁, hrest⟩
  · exact hroom
  · obtain ⟨hst, hw⟩ := Outcome.next.inj (hstep.symm.trans hstep₁)
    exact h c (by rwa [show (st', w') = c₁ from Prod.ext hst hw])

theorem fits_of_accept {st : Stack τ ν σ} {w : List τ} (hroom : Room depth st.length)
    (haction : T.action (top T st) w.head? = .accept) : StacksFit T depth st w := by
  intro c hsteps
  rcases Relation.ReflTransGen.cases_head hsteps with rfl | ⟨c₁, hstep₁, -⟩
  · exact hroom
  · rw [step_accept haction] at hstep₁
    exact absurd hstep₁ (by simp)

/-- A reduction leaves the input. -/
theorem input_reduce {st st' : Stack τ ν σ} {r : ρ} {w w' : List τ} (haction : T.action (top T st) w.head? = .reduce r)
    (hstep : step T st w = .next st' w') : w' = w := by
  obtain ⟨q, a, hshift, rfl, -⟩ | ⟨-, -, -, -, -, hw, -⟩ := step_next hstep
  · exact absurd (haction.symm.trans hshift) (by simp)
  · exact hw

/-- A reduction looks at the first token of what is left only. -/
theorem step_reduce_append {st st' : Stack τ ν σ} {r : ρ} {t : Option τ}
    (haction : T.action (top T st) t = .reduce r) {w : List τ} (hw : w.head? = t) :
    step T st w = .next st' w ↔ step T st t.toList = .next st' t.toList := by
  subst hw
  unfold step
  rw [head?_toList, haction]
  simp only
  split
  · simp
  · split <;> simp

/-- The stack after a reduction. -/
theorem length_reduce {st st' : Stack τ ν σ} {r : ρ} {w : List τ} (haction : T.action (top T st) w.head? = .reduce r)
    (hstep : step T st w = .next st' w) : st'.length + T.nrhs r = st.length + 1 := by
  obtain ⟨q, a, -, hw, -⟩ | ⟨r', q, haction', hlen, -, -, rfl⟩ := step_next hstep
  · exact absurd (congrArg List.length hw) (by simp)
  · obtain rfl := Act.reduce.inj (haction.symm.trans haction')
    rw [List.length_cons, List.length_drop]
    omega

theorem room_reduce {st st' : Stack τ ν σ} {r : ρ} {w : List τ} (haction : T.action (top T st) w.head? = .reduce r)
    (hstep : step T st w = .next st' w) (hst : Room depth st.length)
    (hroom : T.nrhs r = 0 → Room depth (st.length + 1)) : Room depth st'.length := by
  have hlen := length_reduce haction hstep
  rcases Nat.eq_zero_or_pos (T.nrhs r) with hzero | hpos
  · exact (hroom hzero).mono (by omega)
  · exact hst.mono (by omega)

/-- What a call that shifts its token does, the machine does in front of any input. -/
theorem steps_of_shifted {a : τ} {st st' : Stack τ ν σ} (hcall : Call T depth (some a) st (.shifted st')) (w : List τ)
    (hst : Room depth st.length) :
    Room depth st'.length ∧ Steps T (st, a :: w) (st', w) ∧
      (StacksFit T depth st' w → StacksFit T depth st (a :: w)) := by
  generalize ho : Reply.shifted st' = o at hcall
  induction hcall with
  | @reduce st st₁ r o haction hroom hstep _ ih =>
      have hstep' := (step_reduce_append haction (w := a :: w) rfl).mpr hstep
      obtain ⟨hst', hsteps, hfits⟩ := ih (room_reduce (w := a :: w) haction hstep' hst hroom) ho
      exact ⟨hst', hsteps.cons hstep', fun h => fits_of_next hst hstep' (hfits h)⟩
  | @shift st a' q ht haction hroom =>
      obtain rfl := Option.some.inj ht
      obtain rfl := Reply.shifted.inj ho
      have hstep := step_shift (w := w) haction
      exact ⟨hroom, .cons hstep .refl, fun h => fits_of_next hst hstep h⟩
  | full => exact absurd ho (by simp)
  | lost => exact absurd ho (by simp)
  | accept => exact absurd ho (by simp)
  | error => exact absurd ho (by simp)

theorem steps_of_accepted {st st' : Stack τ ν σ} (hcall : Call T depth none st (.accepted st'))
    (hst : Room depth st.length) :
    Steps T (st, []) (st', []) ∧ step T st' [] = .accepted [] ∧ StacksFit T depth st [] := by
  generalize ho : Reply.accepted st' = o at hcall
  induction hcall with
  | @reduce st st₁ r o haction hroom hstep _ ih =>
      obtain ⟨hsteps, hacc, hfits⟩ := ih (room_reduce (w := []) haction hstep hst hroom) ho
      exact ⟨hsteps.cons hstep, hacc, fits_of_next hst hstep hfits⟩
  | @accept st haction =>
      obtain rfl := Reply.accepted.inj ho
      exact ⟨.refl, step_accept haction, fits_of_accept hst haction⟩
  | full => exact absurd ho (by simp)
  | shift => exact absurd ho (by simp)
  | lost => exact absurd ho (by simp)
  | error => exact absurd ho (by simp)

/-- A step of the machine at the front of the calls. -/
theorem readsAll_of_next {st st' : Stack τ ν σ} {w w' : List τ} (hstep : step T st w = .next st' w')
    (hroom : Room depth st'.length) (h : ReadsAll T depth w' st') : ReadsAll T depth w st := by
  obtain ⟨q, a, haction, rfl, rfl⟩ | ⟨r, q, haction, -, -, rfl, -⟩ := step_next hstep
  · exact ⟨_, .shift rfl haction hroom, h⟩
  · have hgrow : T.nrhs r = 0 → Room depth (st.length + 1) := by
      intro hzero
      have hlen := length_reduce haction hstep
      rwa [hzero, Nat.add_zero, ← hlen] at *
    cases w' with
    | nil =>
        obtain ⟨st₁, hcall⟩ := h
        exact ⟨st₁, .reduce haction hgrow hstep hcall⟩
    | cons a w =>
        obtain ⟨st₁, hcall, hrest⟩ := h
        exact ⟨st₁, .reduce haction hgrow ((step_reduce_append haction (w := a :: w) rfl).mp hstep) hcall, hrest⟩

/-- **The calls for a word** accept exactly if the machine does, and its stacks find room. -/
theorem readsAll_iff (hdepth : Room depth 0) (w : List τ) :
    ReadsAll T depth w [] ↔ Accepts T w ∧ StacksFit T depth [] w := by
  constructor
  · suffices hall : ∀ st, Room depth st.length → ReadsAll T depth w st →
        (∃ st' w', Steps T (st, w) (st', w') ∧ step T st' w' = .accepted []) ∧ StacksFit T depth st w from hall [] hdepth
    induction w with
    | nil =>
        rintro st hst ⟨st', hcall⟩
        obtain ⟨hsteps, hacc, hfits⟩ := steps_of_accepted hcall hst
        exact ⟨⟨st', [], hsteps, hacc⟩, hfits⟩
    | cons a w ih =>
        rintro st hst ⟨st₁, hcall, hrest⟩
        obtain ⟨hst₁, hsteps, hfits⟩ := steps_of_shifted hcall w hst
        obtain ⟨⟨st', w', hsteps', hacc⟩, hfits'⟩ := ih st₁ hst₁ hrest
        exact ⟨⟨st', w', hsteps.trans hsteps', hacc⟩, hfits hfits'⟩
  · rintro ⟨⟨st', w', hsteps, hacc⟩, hfits⟩
    obtain ⟨haction, rfl⟩ := step_accepted hacc
    -- from the accepting step backwards
    generalize hc : (([] : Stack τ ν σ), w) = c at hsteps
    have hfits' : StacksFit T depth c.1 c.2 := hc ▸ hfits
    suffices hread : ReadsAll T depth c.2 c.1 by
      subst hc
      exact hread
    clear hc hfits
    induction hsteps using Relation.ReflTransGen.head_induction_on with
    | refl => exact ⟨st', .accept haction⟩
    | head hstep _ ih => exact readsAll_of_next hstep (hfits'.next hstep).room (ih (hfits'.next hstep))

end

/-- **Other names need the same room.** -/
theorem recodes_stacksFit {τ ν ν' ρ ρ' σ σ' : Type} {T : Tables τ ν ρ σ} {T' : Tables τ ν' ρ' σ'} {state : σ → σ'}
    {rule : ρ → ρ'} {sym : ν → ν'} {Q : σ → Prop} (h : Recodes T T' state rule sym Q) (depth : Option Nat)
    (w : List τ) : StacksFit T' depth [] w ↔ StacksFit T depth [] w := by
  have hnil : ∀ e ∈ ([] : Stack τ ν σ), Q e.1 := fun _ he => absurd he List.not_mem_nil
  have hlen : ∀ st : Stack τ ν σ, (mapStack state sym st).length = st.length := fun st => List.length_map _
  constructor
  · rintro hfits ⟨st, w'⟩ hsteps
    have hroom := hfits _ (steps_mapStack h hnil hsteps).2
    rwa [hlen] at hroom
  · rintro hfits c hsteps
    obtain ⟨st, w', rfl, hsteps'⟩ := steps_of_mapStack h hnil hsteps
    rw [hlen]
    exact hfits _ hsteps'

end LR
end CSamples
