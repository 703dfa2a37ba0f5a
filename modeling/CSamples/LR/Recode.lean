import CSamples.LR.Machine

/-!
# `LR.Recode` — tables under other names

The tables of a generated parser hold numbers for states, rules and nonterminals. If they answer as other tables do, up
to the numbers, the two machines accept the same words (`recodes_accepts`). What matters is a set of states that the
machine does not leave; elsewhere the numbers may say anything.
-/

namespace CSamples
namespace LR

variable {τ ν ν' ρ ρ' σ σ' : Type}

/-- An action with its state or rule renamed. -/
def Act.map (state : σ → σ') (rule : ρ → ρ') : Act σ ρ → Act σ' ρ'
  | .shift q  => .shift (state q)
  | .reduce r => .reduce (rule r)
  | .accept   => .accept
  | .error    => .error

/-- A symbol with its nonterminal renamed. -/
def mapSym (sym : ν → ν') : Symbol τ ν → Symbol τ ν'
  | .terminal a    => .terminal a
  | .nonterminal n => .nonterminal (sym n)

/-- A stack with everything renamed. -/
def mapStack (state : σ → σ') (sym : ν → ν') (st : Stack τ ν σ) : Stack τ ν' σ' :=
  st.map (fun e => (state e.1, mapSym sym e.2))

/-- In the states of `Q`, which the machine does not leave, the tables `T'` answer as `T` does. -/
structure Recodes (T : Tables τ ν ρ σ) (T' : Tables τ ν' ρ' σ') (state : σ → σ') (rule : ρ → ρ') (sym : ν → ν')
    (Q : σ → Prop) : Prop where
  start  : T'.start = state T.start
  first  : Q T.start
  closed : ∀ q y q', Q q → Enters T q y q' → Q q'
  action : ∀ q t, Q q → T'.action (state q) t = (T.action q t).map state rule
  goto   : ∀ q x, Q q → T'.goto (state q) (sym x) = (T.goto q x).map state
  lhs    : ∀ q t r, Q q → T.action q t = .reduce r → T'.lhs (rule r) = sym (T.lhs r)
  nrhs   : ∀ q t r, Q q → T.action q t = .reduce r → T'.nrhs (rule r) = T.nrhs r

variable {T : Tables τ ν ρ σ} {T' : Tables τ ν' ρ' σ'} {state : σ → σ'} {rule : ρ → ρ'} {sym : ν → ν'} {Q : σ → Prop}

/-- The end of a step, renamed. -/
def Outcome.map (state : σ → σ') (sym : ν → ν') : Outcome τ ν σ → Outcome τ ν' σ'
  | .next st w      => .next (mapStack state sym st) w
  | .accepted rest => .accepted rest
  | .failed         => .failed

theorem top_mapStack (h : Recodes T T' state rule sym Q) (st : Stack τ ν σ) :
    top T' (mapStack state sym st) = state (top T st) := by
  cases st with
  | nil => exact h.start
  | cons e st => rfl

theorem top_mem (h : Recodes T T' state rule sym Q) {st : Stack τ ν σ} (hst : ∀ e ∈ st, Q e.1) : Q (top T st) := by
  cases st with
  | nil => exact h.first
  | cons e st => exact hst e List.mem_cons_self

/-- **One step** is the same step. -/
theorem step_mapStack (h : Recodes T T' state rule sym Q) {st : Stack τ ν σ} (hst : ∀ e ∈ st, Q e.1) (w : List τ) :
    step T' (mapStack state sym st) w = (step T st w).map state sym := by
  have hq := top_mem h hst
  unfold step
  rw [top_mapStack h, h.action _ _ hq]
  cases haction : T.action (top T st) w.head? with
  | shift q =>
      cases w with
      | nil => rfl
      | cons a w => rfl
  | reduce r =>
      have hlhs := h.lhs _ _ r hq haction
      have hnrhs := h.nrhs _ _ r hq haction
      have hlen : (mapStack state sym st).length = st.length := List.length_map _
      have hdrop : (mapStack state sym st).drop (T.nrhs r) = mapStack state sym (st.drop (T.nrhs r)) :=
        (List.map_drop).symm
      simp only [Act.map]
      rw [hnrhs, hlen, hdrop, top_mapStack h, hlhs,
        h.goto _ _ (top_mem h fun e he => hst e (List.mem_of_mem_drop he))]
      split
      · rfl
      · cases T.goto (top T (st.drop (T.nrhs r))) (T.lhs r) with
        | none => rfl
        | some q => rfl
  | accept => rfl
  | error => rfl

/-- The machine stays in `Q`. -/
theorem mem_step (h : Recodes T T' state rule sym Q) {st st' : Stack τ ν σ} (hst : ∀ e ∈ st, Q e.1) {w w' : List τ}
    (hstep : step T st w = .next st' w') : ∀ e ∈ st', Q e.1 := by
  obtain ⟨q, a, hq, -, rfl⟩ | ⟨r, q, -, -, hq, -, rfl⟩ := step_next hstep
  · intro e he
    rcases List.mem_cons.mp he with rfl | he
    · exact h.closed _ (.terminal a) _ (top_mem h hst) hq
    · exact hst e he
  · have hbelow : ∀ e ∈ st.drop (T.nrhs r), Q e.1 := fun e he => hst e (List.mem_of_mem_drop he)
    intro e he
    rcases List.mem_cons.mp he with rfl | he
    · exact h.closed _ (.nonterminal (T.lhs r)) _ (top_mem h hbelow) hq
    · exact hbelow e he

theorem steps_mapStack (h : Recodes T T' state rule sym Q) {st st' : Stack τ ν σ} (hst : ∀ e ∈ st, Q e.1) {w w' : List τ}
    (hsteps : Steps T (st, w) (st', w')) :
    (∀ e ∈ st', Q e.1) ∧ Steps T' (mapStack state sym st, w) (mapStack state sym st', w') := by
  generalize hc : (st', w') = c at hsteps
  induction hsteps generalizing st' w' with
  | refl =>
      obtain ⟨rfl, rfl⟩ := Prod.mk.inj hc
      exact ⟨hst, .refl⟩
  | @tail c₁ c₂ _ hstep ih =>
      subst hc
      obtain ⟨hmem, hrun⟩ := ih rfl
      refine ⟨mem_step h hmem hstep, hrun.tail ?_⟩
      simp only
      rw [step_mapStack h hmem, hstep]
      rfl

/-- A run under the other names is a run. -/
theorem steps_of_mapStack (h : Recodes T T' state rule sym Q) {st : Stack τ ν σ} (hst : ∀ e ∈ st, Q e.1) {w : List τ}
    {c' : Stack τ ν' σ' × List τ} (hsteps : Steps T' (mapStack state sym st, w) c') :
    ∃ st' w', c' = (mapStack state sym st', w') ∧ Steps T (st, w) (st', w') := by
  induction hsteps with
  | refl => exact ⟨st, w, rfl, .refl⟩
  | @tail c₁ c₂ _ hstep ih =>
      obtain ⟨st₁, w₁, rfl, hrun⟩ := ih
      have hmem := (steps_mapStack h hst hrun).1
      simp only at hstep
      rw [step_mapStack h hmem] at hstep
      cases hout : step T st₁ w₁ with
      | next st₂ w₂ =>
          rw [hout] at hstep
          obtain ⟨hst₂, hw₂⟩ := Outcome.next.inj hstep
          exact ⟨st₂, w₂, Prod.ext hst₂.symm hw₂.symm, hrun.tail hout⟩
      | accepted rest =>
          rw [hout] at hstep
          exact absurd hstep (by simp [Outcome.map])
      | failed =>
          rw [hout] at hstep
          exact absurd hstep (by simp [Outcome.map])

/-- **The two machines accept the same words.** -/
theorem recodes_accepts (h : Recodes T T' state rule sym Q) (w rest : List τ) :
    AcceptsBefore T' w rest ↔ AcceptsBefore T w rest := by
  have hnil : ∀ e ∈ ([] : Stack τ ν σ), Q e.1 := fun _ he => absurd he List.not_mem_nil
  constructor
  · rintro ⟨st', w', hsteps, hacc⟩
    obtain ⟨st, w₁, heq, hrun⟩ := steps_of_mapStack h hnil hsteps
    obtain ⟨rfl, rfl⟩ := Prod.mk.inj heq
    have hmem := (steps_mapStack h hnil hrun).1
    rw [step_mapStack h hmem] at hacc
    refine ⟨st, w', hrun, ?_⟩
    cases hout : step T st w' with
    | next =>
        rw [hout] at hacc
        exact absurd hacc (by simp [Outcome.map])
    | accepted rest' =>
        rw [hout] at hacc
        rw [Outcome.accepted.inj hacc]
    | failed =>
        rw [hout] at hacc
        exact absurd hacc (by simp [Outcome.map])
  · rintro ⟨st, w', hsteps, hacc⟩
    obtain ⟨hmem, hrun⟩ := steps_mapStack h hnil hsteps
    refine ⟨mapStack state sym st, w', hrun, ?_⟩
    rw [step_mapStack h hmem, hacc]
    rfl

end LR
end CSamples
