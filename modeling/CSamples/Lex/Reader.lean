import CSamples.Lex.Munch

/-!
# `Lex.Reader` — generated scanners over a buffer that is refilled

A generated scanner does not run over a list: it looks at the symbol under a cursor, asks for more input in
front of it, remembers a marker where a rule has accepted and goes back to it when the automaton stops. Here
that loop runs over any source state, and the laws say what a refill may do while a match is half read.

## Contents
- `Reader`: the operations on the source; `run`: the loop of one block of rules.
- `Lawful`: `Rel u v m s`, the symbols read and the symbols in sight, kept by the operations; `LawfulOn`, the same
  where the reader is asked for a symbol behind certain beginnings of a match only.
- `run_spec`: the loop computes `munchFrom` on what is in sight and leaves the cursor behind the match.
- `run_gives_up`: without a fallback, a refill that fails gives up the match.
- Any run, whether the laws hold or not: `run_mono`, `run_keeps`, `run_tag`.
-/

namespace CSamples
namespace Lex

/-- How the generated code gets at its input. `more u` is the check in front of a symbol, behind the symbols
    `u` of the match: it may refill, and answers `false` when no more input can be had. Then the code falls
    back to the last rule that accepted, or gives up the match. -/
structure Reader (σ α : Type) where
  more     : List α → σ → Option (Bool × σ)
  next     : σ → Option (α × σ)
  mark     : σ → σ
  restore  : σ → σ
  fallback : Bool

namespace Reader

variable {σ α τ : Type}

/-- The automaton has stopped: back to the marker, if some rule has accepted. -/
def finish (R : Reader σ α) (best : Option τ) (s : σ) : Option τ × σ :=
  (best, if best.isSome then R.restore s else s)

/-- The loop of a block of rules. -/
def run (R : Reader σ α) : Nat → Rules α τ → List α → Option τ → σ → Option (Option τ × σ)
  | 0, _, _, _, _ => none
  | fuel + 1, rs, u, best, s =>
      let s' := if (accepting rs).isSome then R.mark s else s
      let best' := (accepting rs).or best
      if rs.canStep then
        (R.more u s').bind (fun x =>
          if x.1 then (R.next x.2).bind (fun y => run R fuel (rs.deriv y.1) (u ++ [y.1]) best' y.2)
          else some (if R.fallback then R.finish best' x.2 else (none, x.2)))
      else some (R.finish best' s')

/-! ## Laws -/

/-- `Rel u v m s`: the symbols `u` of the match were read, `v` is in sight, and the marker is behind the
    first `m` symbols of the match, if it was set. -/
structure Lawful (R : Reader σ α) (Rel : List α → List α → Option Nat → σ → Prop) : Prop where
  next    : ∀ {u a v m s}, Rel u (a :: v) m s →
    ∃ s₁ s₂, R.more u s = some (true, s₁) ∧ R.next s₁ = some (a, s₂) ∧ Rel (u ++ [a]) v m s₂
  mark    : ∀ {u v m s}, Rel u v m s → Rel u v (some u.length) (R.mark s)
  restore : ∀ {u v k s}, Rel u v (some k) s → k ≤ u.length →
    Rel (u.take k) (u.drop k ++ v) (some k) (R.restore s)

/-- The same where a symbol is asked for behind `live` symbols only. -/
structure LawfulOn (R : Reader σ α) (live : List α → Prop) (Rel : List α → List α → Option Nat → σ → Prop) : Prop where
  next    : ∀ {u a v m s}, live u → Rel u (a :: v) m s →
    ∃ s₁ s₂, R.more u s = some (true, s₁) ∧ R.next s₁ = some (a, s₂) ∧ Rel (u ++ [a]) v m s₂
  mark    : ∀ {u v m s}, Rel u v m s → Rel u v (some u.length) (R.mark s)
  restore : ∀ {u v k s}, Rel u v (some k) s → k ≤ u.length →
    Rel (u.take k) (u.drop k ++ v) (some k) (R.restore s)

theorem Lawful.on {R : Reader σ α} {Rel : List α → List α → Option Nat → σ → Prop} (h : R.Lawful Rel) :
    R.LawfulOn (fun _ => True) Rel :=
  ⟨fun _ => h.next, h.mark, h.restore⟩

/-- The reader tells when nothing more is in sight, and then falls back. -/
structure Ends (R : Reader σ α) (Rel : List α → List α → Option Nat → σ → Prop) : Prop where
  more     : ∀ {u m s}, Rel u [] m s → ∃ s', R.more u s = some (false, s') ∧ Rel u [] m s'
  fallback : R.fallback = true

/-- The source behind a match `x` in front of `w`. -/
def Behind (Rel : List α → List α → Option Nat → σ → Prop) (w : List α) (x : Option (τ × Nat)) (s : σ) : Prop :=
  ∃ n, Rel (w.take n) (w.drop n) (x.map Prod.snd) s ∧ ∀ y ∈ x, y.2 = n

/-! ## One block of rules -/

theorem finish_spec {R : Reader σ α} {live : List α → Prop} {Rel : List α → List α → Option Nat → σ → Prop}
    (h : R.LawfulOn live Rel)
    {u v : List α} {best : Option (τ × Nat)} {s : σ} (hrel : Rel u v (best.map Prod.snd) s)
    (hbest : ∀ x ∈ best, x.2 ≤ u.length) :
    ∃ s', R.finish (best.map Prod.fst) s = (best.map Prod.fst, s') ∧ Behind Rel (u ++ v) best s' := by
  cases best with
  | none => exact ⟨s, rfl, u.length, by simpa using hrel, nofun⟩
  | some x =>
      obtain ⟨t, k⟩ := x
      have hk : k ≤ u.length := hbest (t, k) rfl
      refine ⟨R.restore s, rfl, k, ?_, fun y hy => by rw [← Option.some.inj hy]⟩
      rw [List.take_append_of_le_length hk, List.drop_append_of_le_length hk]
      exact h.restore hrel hk

/-- A state of the automaton is reached: if a rule accepts here, it is the best so far and is marked. -/
theorem accept_spec {R : Reader σ α} {live : List α → Prop} {Rel : List α → List α → Option Nat → σ → Prop}
    (h : R.LawfulOn live Rel)
    {u v : List α} {best : Option (τ × Nat)} {s : σ} (hrel : Rel u v (best.map Prod.snd) s)
    (hbest : ∀ x ∈ best, x.2 ≤ u.length) (rs : Rules α τ) :
    let best' := ((accepting rs).map (fun t => (t, u.length))).or best
    (accepting rs).or (best.map Prod.fst) = best'.map Prod.fst ∧
      Rel u v (best'.map Prod.snd) (if (accepting rs).isSome then R.mark s else s) ∧
      ∀ x ∈ best', x.2 ≤ u.length := by
  cases accepting rs with
  | none => exact ⟨rfl, hrel, hbest⟩
  | some t => exact ⟨rfl, h.mark hrel, fun x hx => by rw [← Option.some.inj hx]⟩

/-- **The loop finds the longest match** in what is in sight. Either the reader tells the end, or no rule
    goes on behind the last symbol in sight. -/
theorem run_spec_on {R : Reader σ α} {live : List α → Prop} {Rel : List α → List α → Option Nat → σ → Prop}
    (h : R.LawfulOn live Rel) {v u : List α} {rs : Rules α τ} {best : Option (τ × Nat)} {s : σ} {fuel : Nat}
    (hlive : ∀ p, p <+: v → (rs.after p).canStep = true → live (u ++ p))
    (hend : R.Ends Rel ∨ (rs.after v).canStep = false)
    (hrel : Rel u v (best.map Prod.snd) s) (hbest : ∀ x ∈ best, x.2 ≤ u.length) (hfuel : v.length < fuel) :
    ∃ s', R.run fuel rs u (best.map Prod.fst) s = some ((munchFrom v rs best u.length).map Prod.fst, s') ∧
      Behind Rel (u ++ v) (munchFrom v rs best u.length) s' := by
  induction v generalizing u rs best s fuel with
  | nil =>
      obtain ⟨fuel, rfl⟩ : ∃ n, fuel = n + 1 := ⟨fuel - 1, by omega⟩
      obtain ⟨hfst, hrel', hbest'⟩ := accept_spec h hrel hbest rs
      unfold run munchFrom
      simp only [hfst]
      by_cases hc : rs.canStep = true
      · -- the rules could go on, but there is nothing to read
        have hends := hend.resolve_right (ne_of_eq_of_ne (show (rs.after []).canStep = true from hc) (by decide))
        obtain ⟨s₁, hmore, hrel₁⟩ := hends.more hrel'
        obtain ⟨s', hfin, hbehind⟩ := finish_spec h hrel₁ hbest'
        refine ⟨s', ?_, hbehind⟩
        rw [if_pos hc, hmore, ← hfin, Option.bind_some, hends.fallback]
        rfl
      · obtain ⟨s', hfin, hbehind⟩ := finish_spec h hrel' hbest'
        exact ⟨s', by rw [if_neg hc, hfin], hbehind⟩
  | cons a v ih =>
      obtain ⟨fuel, rfl⟩ : ∃ n, fuel = n + 1 := ⟨fuel - 1, by omega⟩
      obtain ⟨hfst, hrel', hbest'⟩ := accept_spec h hrel hbest rs
      unfold run munchFrom
      simp only [hfst]
      by_cases hc : rs.canStep = true
      · have hu : live u := by
          have hnil := hlive [] List.nil_prefix (show rs.canStep = true from hc)
          rwa [List.append_nil] at hnil
        obtain ⟨s₁, s₂, hmore, hnext, hrel₂⟩ := h.next hu hrel'
        have hlive₂ : ∀ p, p <+: v → ((rs.deriv a).after p).canStep = true → live (u ++ [a] ++ p) := by
          intro p hp hstep
          rw [List.append_assoc]
          exact hlive (a :: p) (List.cons_prefix_cons.mpr ⟨rfl, hp⟩) hstep
        have hbest₂ : ∀ x ∈ ((accepting rs).map (fun t => (t, u.length))).or best, x.2 ≤ (u ++ [a]).length := by
          intro x hx
          rw [List.length_append]
          exact Nat.le_add_right_of_le (hbest' x hx)
        have hrest := ih hlive₂ hend hrel₂ hbest₂ (by simpa using hfuel)
        rw [List.append_assoc, List.length_append] at hrest
        obtain ⟨s', hrun, hbehind⟩ := hrest
        refine ⟨s', ?_, by rw [if_pos hc]; exact hbehind⟩
        rw [if_pos hc, if_pos hc, hmore, Option.bind_some, if_pos rfl, hnext]
        exact hrun
      · obtain ⟨s', hfin, hbehind⟩ := finish_spec h hrel' hbest'
        exact ⟨s', by rw [if_neg hc, if_neg hc, hfin], by rw [if_neg hc]; exact hbehind⟩

/-- The same where the reader is asked behind any symbols. -/
theorem run_spec {R : Reader σ α} {Rel : List α → List α → Option Nat → σ → Prop} (h : R.Lawful Rel)
    {v u : List α} {rs : Rules α τ} {best : Option (τ × Nat)} {s : σ} {fuel : Nat}
    (hend : R.Ends Rel ∨ Rules.canStep (v.foldl (fun rs a => rs.deriv a) rs) = false)
    (hrel : Rel u v (best.map Prod.snd) s) (hbest : ∀ x ∈ best, x.2 ≤ u.length) (hfuel : v.length < fuel) :
    ∃ s', R.run fuel rs u (best.map Prod.fst) s = some ((munchFrom v rs best u.length).map Prod.fst, s') ∧
      Behind Rel (u ++ v) (munchFrom v rs best u.length) s' :=
  run_spec_on h.on (fun _ _ _ => trivial) hend hrel hbest hfuel

/-- With or without a marker set. -/
theorem LawfulOn.marked {R : Reader σ α} {live : List α → Prop} {Rel : List α → List α → Option Nat → σ → Prop}
    (h : R.LawfulOn live Rel) {u v : List α} {m : Option Nat} {s : σ} (hrel : Rel u v m s) (b : Bool) :
    ∃ m', Rel u v m' (if b then R.mark s else s) := by
  cases b with
  | false => exact ⟨m, hrel⟩
  | true => exact ⟨_, h.mark hrel⟩

/-- **A match is given up** where the rules go on behind everything in sight and a failed refill does not fall
    back. -/
theorem run_gives_up {R : Reader σ α} {live : List α → Prop} {Rel : List α → List α → Option Nat → σ → Prop}
    (h : R.LawfulOn live Rel) {P : σ → Prop} (hfallback : R.fallback = false) {v u : List α} {rs : Rules α τ}
    {best : Option τ} {m : Option Nat} {s : σ} {fuel : Nat}
    (hlive : ∀ p, p <+: v → (rs.after p).canStep = true ∧ live (u ++ p))
    (hmore : ∀ m s, Rel (u ++ v) [] m s → ∃ s', R.more (u ++ v) s = some (false, s') ∧ P s')
    (hrel : Rel u v m s) (hfuel : v.length < fuel) : ∃ s', R.run fuel rs u best s = some (none, s') ∧ P s' := by
  induction v generalizing u rs best m s fuel with
  | nil =>
      obtain ⟨fuel, rfl⟩ : ∃ n, fuel = n + 1 := ⟨fuel - 1, by omega⟩
      have hc := (hlive [] List.nil_prefix).1
      obtain ⟨m', hrel'⟩ := h.marked hrel (accepting rs).isSome
      rw [List.append_nil] at hmore
      obtain ⟨s', hs', hP⟩ := hmore m' _ hrel'
      refine ⟨s', ?_, hP⟩
      unfold run
      simp only
      rw [if_pos (show rs.canStep = true from hc), hs', Option.bind_some, hfallback]
      rfl
  | cons a v ih =>
      obtain ⟨fuel, rfl⟩ : ∃ n, fuel = n + 1 := ⟨fuel - 1, by omega⟩
      obtain ⟨hc, hu⟩ := hlive [] List.nil_prefix
      rw [List.append_nil] at hu
      obtain ⟨m', hrel'⟩ := h.marked hrel (accepting rs).isSome
      obtain ⟨s₁, s₂, hmore₁, hnext, hrel₂⟩ := h.next hu hrel'
      have hlive₂ : ∀ p, p <+: v → ((rs.deriv a).after p).canStep = true ∧ live (u ++ [a] ++ p) := by
        intro p hp
        rw [List.append_assoc]
        exact hlive (a :: p) (List.cons_prefix_cons.mpr ⟨rfl, hp⟩)
      have hmore₂ : ∀ m s, Rel (u ++ [a] ++ v) [] m s → ∃ s', R.more (u ++ [a] ++ v) s = some (false, s') ∧ P s' := by
        rw [List.append_assoc]
        exact hmore
      obtain ⟨s', hrun, hP⟩ := @ih _ _ ((accepting rs).or best) _ _ _ hlive₂ hmore₂ hrel₂ (by simpa using hfuel)
      refine ⟨s', ?_, hP⟩
      unfold run
      simp only
      rw [if_pos (show rs.canStep = true from hc), hmore₁, Option.bind_some, if_pos rfl, hnext]
      exact hrun

/-! ## Any run -/

/-- `R'` gives what `R` gives, where `R` gives something. -/
structure Le (R R' : Reader σ α) : Prop where
  more     : ∀ {u s x}, R.more u s = some x → R'.more u s = some x
  next     : ∀ {s x}, R.next s = some x → R'.next s = some x
  mark     : R'.mark = R.mark
  restore  : R'.restore = R.restore
  fallback : R'.fallback = R.fallback

/-- A run that gives something gives the same with more fuel and on a reader that gives more. -/
theorem run_mono {R R' : Reader σ α} (h : R.Le R') {n m : Nat} (hnm : n ≤ m) {rs : Rules α τ} {u : List α}
    {best : Option τ} {s : σ} {x : Option τ × σ} (hrun : R.run n rs u best s = some x) :
    R'.run m rs u best s = some x := by
  induction n generalizing m rs u best s with
  | zero => exact absurd hrun nofun
  | succ n ih =>
      obtain ⟨m, rfl⟩ : ∃ k, m = k + 1 := ⟨m - 1, by omega⟩
      have hfinish : R'.finish ((accepting rs).or best) = R.finish ((accepting rs).or best) := by
        unfold finish
        rw [h.restore]
      unfold run at hrun ⊢
      simp only [h.mark, h.fallback, hfinish] at hrun ⊢
      split at hrun
      · next hc =>
          rw [if_pos hc]
          obtain ⟨y, hmore, hrun⟩ := Option.bind_eq_some_iff.mp hrun
          rw [h.more hmore, Option.bind_some]
          split at hrun
          · next hgo =>
              rw [if_pos hgo]
              obtain ⟨z, hnext, hrun⟩ := Option.bind_eq_some_iff.mp hrun
              rw [h.next hnext, Option.bind_some]
              exact ih (Nat.le_of_succ_le_succ hnm) hrun
          · next hgo =>
              rw [if_neg hgo]
              exact hrun
      · next hc =>
          rw [if_neg hc]
          exact hrun

/-- What the operations keep is kept. -/
theorem run_keeps {R : Reader σ α} {P : σ → Prop} (hmore : ∀ {u s b s'}, R.more u s = some (b, s') → P s → P s')
    (hnext : ∀ {s a s'}, R.next s = some (a, s') → P s → P s') (hmark : ∀ {s}, P s → P (R.mark s))
    (hrestore : ∀ {s}, P s → P (R.restore s)) {n : Nat} {rs : Rules α τ} {u : List α} {best t : Option τ} {s s' : σ}
    (hrun : R.run n rs u best s = some (t, s')) (h : P s) : P s' := by
  have hfinish : ∀ {best t : Option τ} {s s' : σ}, R.finish best s = (t, s') → P s → P s' := by
    intro best t s s' heq hs
    obtain ⟨-, rfl⟩ := Prod.mk.inj heq
    split
    · exact hrestore hs
    · exact hs
  induction n generalizing rs u best s with
  | zero => exact absurd hrun nofun
  | succ n ih =>
      unfold run at hrun
      simp only at hrun
      have hmarked : P (if (accepting rs).isSome then R.mark s else s) := by
        split
        · exact hmark h
        · exact h
      split at hrun
      · obtain ⟨⟨b, s₁⟩, hs₁, hrun⟩ := Option.bind_eq_some_iff.mp hrun
        have h₁ := hmore hs₁ hmarked
        split at hrun
        · obtain ⟨⟨a, s₂⟩, hs₂, hrun⟩ := Option.bind_eq_some_iff.mp hrun
          exact ih hrun (hnext hs₂ h₁)
        · split at hrun
          · exact hfinish (Option.some.inj hrun) h₁
          · obtain ⟨-, rfl⟩ := Prod.mk.inj (Option.some.inj hrun)
            exact h₁
      · exact hfinish (Option.some.inj hrun) hmarked

/-- What a run finds is the best it came with or a rule that matches some symbols. -/
theorem run_tag {R : Reader σ α} {n : Nat} {rs : Rules α τ} {u : List α} {best : Option τ} {t : τ} {s s' : σ}
    (hrun : R.run n rs u best s = some (some t, s')) : best = some t ∨ ∃ w, ruleOf rs w = some t := by
  have hbest : ∀ {rs : Rules α τ} {best : Option τ}, (accepting rs).or best = some t →
      best = some t ∨ ∃ w, ruleOf rs w = some t := by
    intro rs best heq
    rcases Option.or_eq_some_iff.mp heq with hacc | ⟨-, hacc⟩
    · exact .inr ⟨[], hacc⟩
    · exact .inl hacc
  induction n generalizing rs u best s with
  | zero => exact absurd hrun nofun
  | succ n ih =>
      unfold run at hrun
      simp only at hrun
      split at hrun
      · obtain ⟨⟨b, s₁⟩, -, hrun⟩ := Option.bind_eq_some_iff.mp hrun
        split at hrun
        · obtain ⟨⟨a, s₂⟩, -, hrun⟩ := Option.bind_eq_some_iff.mp hrun
          rcases ih hrun with heq | ⟨w, hw⟩
          · exact hbest heq
          · exact .inr ⟨a :: w, hw⟩
        · split at hrun
          · exact hbest (Prod.mk.inj (Option.some.inj hrun)).1
          · exact absurd (Prod.mk.inj (Option.some.inj hrun)).1 nofun
      · exact hbest (Prod.mk.inj (Option.some.inj hrun)).1

end Reader
end Lex
end CSamples
