import Mathlib.Data.List.Basic

/-!
# `Machine.Runs` — runs of a partial step function

`run step` takes any number of steps, as long as they are defined. `Throughout` says what holds after every one of
them, `Along` what holds in front of every one; `throughout_iff` turns the one into the other where it can be done
for a single step.
-/

namespace CSamples
namespace Machine

variable {σ α : Type} (step : σ → α → Option σ)

/-- Any number of steps, in order. -/
def run : List α → σ → Option σ
  | [], s      => some s
  | a :: as, s => (step s a).bind (run as)

/-- The run is defined, and `P` holds after each of its steps and in front of the first. -/
def Throughout (P : σ → Prop) (as : List α) (s : σ) : Prop := ∀ k, ∃ s', run step (as.take k) s = some s' ∧ P s'

/-- Every step of the run is a good one in the state it is taken from. -/
def Along (good : σ → α → Prop) : σ → List α → Prop
  | _, []      => True
  | s, a :: as => good s a ∧ ∀ s', step s a = some s' → Along good s' as

variable {step}

theorem run_cons {s s' : σ} {a : α} (h : step s a = some s') (as : List α) :
    run step (a :: as) s = run step as s' := by
  rw [run, h, Option.bind_some]

theorem throughout_nil {P : σ → Prop} {s : σ} (hs : P s) : Throughout step P [] s :=
  fun k => ⟨s, by rw [List.take_nil, run], hs⟩

/-- A run, by its first step. -/
theorem throughout_cons_iff {P : σ → Prop} {s : σ} (hs : P s) (a : α) (as : List α) :
    Throughout step P (a :: as) s ↔ ∃ s', step s a = some s' ∧ P s' ∧ Throughout step P as s' := by
  constructor
  · intro h
    obtain ⟨s', hrun, hP⟩ := h 1
    have hstep : step s a = some s' := by simpa [run] using hrun
    refine ⟨s', hstep, hP, fun k => ?_⟩
    rw [← run_cons hstep, ← List.take_succ_cons]
    exact h (k + 1)
  · rintro ⟨s', hstep, -, hrest⟩ k
    cases k with
    | zero => exact ⟨s, rfl, hs⟩
    | succ k =>
        rw [List.take_succ_cons, run_cons hstep]
        exact hrest k

/-- **What every step decides, a run decides.** -/
theorem throughout_iff {P : σ → Prop} {good : σ → α → Prop}
    (hstep : ∀ s a, P s → ((∃ s', step s a = some s' ∧ P s') ↔ good s a)) (as : List α) {s : σ} (hs : P s) :
    Throughout step P as s ↔ Along step good s as := by
  induction as generalizing s with
  | nil => exact ⟨fun _ => trivial, fun _ => throughout_nil hs⟩
  | cons a as ih =>
      rw [throughout_cons_iff hs, Along, ← hstep s a hs]
      constructor
      · rintro ⟨s', h, hP, hrest⟩
        refine ⟨⟨s', h, hP⟩, fun s'' h' => ?_⟩
        obtain rfl := Option.some.inj (h.symm.trans h')
        exact (ih hP).mp hrest
      · rintro ⟨⟨s', h, hP⟩, hrest⟩
        exact ⟨s', h, hP, (ih hP).mpr (hrest s' h)⟩

/-- An invariant of the steps holds after every run. -/
theorem run_invariant {I : σ → Prop} (hI : ∀ s a s', I s → step s a = some s' → I s') {as : List α} {s s' : σ}
    (hs : I s) (h : run step as s = some s') : I s' := by
  induction as generalizing s with
  | nil => exact Option.some.inj h ▸ hs
  | cons a as ih =>
      obtain ⟨s₁, h₁, h₂⟩ := Option.bind_eq_some_iff.mp h
      exact ih (hI s a s₁ hs h₁) h₂

/-- The same where the steps need an invariant to decide it. -/
theorem throughout_iff_of_invariant {I P : σ → Prop} {good : σ → α → Prop}
    (hI : ∀ s a s', I s → step s a = some s' → I s')
    (hstep : ∀ s a, I s → P s → ((∃ s', step s a = some s' ∧ P s') ↔ good s a)) (as : List α) {s : σ} (hi : I s)
    (hs : P s) : Throughout step P as s ↔ Along step good s as := by
  have hboth : Throughout step P as s ↔ Throughout step (fun s => I s ∧ P s) as s := by
    refine forall_congr' fun k => exists_congr fun s' => and_congr_right fun h => ?_
    exact ⟨fun hP => ⟨run_invariant hI hi h, hP⟩, fun h => h.2⟩
  rw [hboth]
  refine throughout_iff (fun s a hs => ?_) as ⟨hi, hs⟩
  rw [← hstep s a hs.1 hs.2]
  exact ⟨fun ⟨s', h, _, hP⟩ => ⟨s', h, hP⟩, fun ⟨s', h, hP⟩ => ⟨s', h, hI s a s' hs.1 h, hP⟩⟩

end Machine
end CSamples
