import CSamples.Grammar.Yield
import CSamples.Lemon.Engine

/-!
# `Lemon.Language` — what a generated parser accepts

Rules to prove that the tables made of a grammar accept the grammar's language, for grammars without
conflicts and without actions that matter.

## Contents
- **Soundness.** `Linked`: neighbours on the stack follow one another by the tables. `Sound`: what must be
  checked of tables, so that a stack always spells the tokens read (`accepts_sound`).
- **Completeness.** `Arrives`: after some tokens, and the reductions in front of the next one, the stack is
  such and such; one rule for each of shift, reduce and accept.
- **Depth.** `accepts_overflow`: what comes after an overflow is parsed from the start.
-/

namespace CSamples
namespace Lemon

open Grammar

variable {τ ν σ ρ V ω : Type} {G : Generated τ ν σ ρ V ω}

/-- The grammar of the tables. -/
abbrev Generated.grammar [Fintype ρ] [DecidableEq τ] [DecidableEq ν] (G : Generated τ ν σ ρ V ω) (start : ν) :
    ContextFreeGrammar τ :=
  ⟨ν, start, Finset.univ.image (fun r => ⟨G.lhs r, G.rhs r⟩)⟩

/-- No syntax error is reported. -/
def NoSyntaxError (es : List (Event τ ω)) : Prop := ∀ t, Event.syntaxError t ∉ es

/-- From `p`, the tokens and the end marker behind them are accepted without a syntax error. -/
def AcceptsFrom (G : Generated τ ν σ ρ V ω) (depth : Option Nat) (p : Parser τ ν σ ρ V) (xs : List (τ × V))
    (v : V) : Prop :=
  ∃ p' es, run G depth (feed xs ++ [(none, v)]) p = some (p', es) ∧ Event.parseAccept ∈ es ∧ NoSyntaxError es

/-- The same from the start. -/
def Accepts (G : Generated τ ν σ ρ V ω) (depth : Option Nat) (xs : List (τ × V)) (v : V) : Prop :=
  AcceptsFrom G depth init xs v

/-- From `p`, no syntax error is reported on the tokens. -/
def ReadsFrom (G : Generated τ ν σ ρ V ω) (depth : Option Nat) (p : Parser τ ν σ ρ V) (xs : List (τ × V)) : Prop :=
  ∃ p' es, run G depth (feed xs) p = some (p', es) ∧ NoSyntaxError es

/-- The end marker alone. -/
theorem acceptsFrom_nil {depth : Option Nat} {p p' : Parser τ ν σ ρ V} {v : V} {es : List (Event τ ω)}
    (hparse : parse G depth none v p = some (p', es)) :
    AcceptsFrom G depth p [] v ↔ Event.parseAccept ∈ es ∧ NoSyntaxError es := by
  have hrun : run G depth (feed [] ++ [(none, v)]) p = some (p', es) := by
    show (parse G depth none v p).bind _ = _
    rw [hparse, Option.bind_some, run, Option.map_some, List.append_nil]
  constructor
  · rintro ⟨q, fs, h, hacc, herr⟩
    obtain ⟨rfl, rfl⟩ := Prod.mk.inj (Option.some.inj (hrun.symm.trans h))
    exact ⟨hacc, herr⟩
  · rintro ⟨hacc, herr⟩
    exact ⟨p', es, hrun, hacc, herr⟩

theorem noSyntaxError_nil : NoSyntaxError ([] : List (Event τ ω)) := fun _ => List.not_mem_nil

theorem noSyntaxError_append {es fs : List (Event τ ω)} :
    NoSyntaxError (es ++ fs) ↔ NoSyntaxError es ∧ NoSyntaxError fs := by
  unfold NoSyntaxError
  constructor
  · intro h
    exact ⟨fun t ht => h t (List.mem_append_left _ ht), fun t ht => h t (List.mem_append_right _ ht)⟩
  · rintro ⟨h, h'⟩ t ht
    exact (List.mem_append.mp ht).elim (h t) (h' t)

theorem readsFrom_nil (G : Generated τ ν σ ρ V ω) (depth : Option Nat) (p : Parser τ ν σ ρ V) : ReadsFrom G depth p [] :=
  ⟨p, [], rfl, noSyntaxError_nil⟩

theorem readsFrom_cons {depth : Option Nat} {p p' : Parser τ ν σ ρ V} {x : τ × V} {xs : List (τ × V)}
    {es : List (Event τ ω)} (hparse : parse G depth (some x.1) x.2 p = some (p', es)) :
    ReadsFrom G depth p (x :: xs) ↔ NoSyntaxError es ∧ ReadsFrom G depth p' xs := by
  have hrun : run G depth (feed (x :: xs)) p = (run G depth (feed xs) p').map (fun y => (y.1, es ++ y.2)) := by
    show (parse G depth (some x.1) x.2 p).bind _ = _
    rw [hparse, Option.bind_some]
    rfl
  constructor
  · rintro ⟨q, fs, hq, herr⟩
    rw [hrun] at hq
    obtain ⟨⟨q', fs'⟩, hq', heq⟩ := Option.map_eq_some_iff.mp hq
    obtain ⟨rfl, rfl⟩ := Prod.mk.inj heq
    obtain ⟨herr₁, herr₂⟩ := noSyntaxError_append.mp herr
    exact ⟨herr₁, q', fs', hq', herr₂⟩
  · rintro ⟨herr₁, q', fs', hq', herr₂⟩
    exact ⟨q', es ++ fs', by rw [hrun, hq']; rfl, noSyntaxError_append.mpr ⟨herr₁, herr₂⟩⟩

theorem noSyntaxError_user (os : List ω) : NoSyntaxError (os.map (@Event.user τ ω)) := by
  intro t ht
  obtain ⟨o, -, ho⟩ := List.mem_map.mp ht
  exact nomatch ho

theorem accept_not_mem_user (os : List ω) : Event.parseAccept ∉ os.map (@Event.user τ ω) := by
  intro ht
  obtain ⟨o, -, ho⟩ := List.mem_map.mp ht
  exact nomatch ho

/-! ## The count of tokens since an error -/

/-- `yyerrcnt` lets errors be reported, for `n` tokens more. -/
def Reports (p : Parser τ ν σ ρ V) (n : Nat) : Prop :=
  p.yyerrcnt.toInt ≤ 0 ∧ -2147483648 ≤ p.yyerrcnt.toInt - n

theorem reports_of_minus_one {p : Parser τ ν σ ρ V} (hp : p.yyerrcnt = -1) {n : Nat} (h : n < 2147483648) :
    Reports p n := by
  have hcnt : p.yyerrcnt.toInt = -1 := by
    rw [hp]
    rfl
  unfold Reports
  omega

theorem reports_init {n : Nat} (h : n < 2147483648) : Reports (@init τ ν σ ρ V) n := reports_of_minus_one rfl h

theorem Reports.le {p : Parser τ ν σ ρ V} {n : Nat} (h : Reports p n) : p.yyerrcnt ≤ 0 :=
  Int32.le_iff_toInt_le.mpr h.1

theorem Reports.pred {p p' : Parser τ ν σ ρ V} {n : Nat} (h : Reports p (n + 1))
    (hp : p'.yyerrcnt = p.yyerrcnt - 1) : Reports p' n := by
  obtain ⟨hle, hge⟩ := h
  have hsub : p'.yyerrcnt.toInt = p.yyerrcnt.toInt - 1 := by
    rw [hp, Int32.toInt_sub]
    apply Int.bmod_eq_of_le <;> simp <;> omega
  unfold Reports
  omega

/-- A discarded token is reported. -/
theorem discard_reports {t : Option τ} {p : Parser τ ν σ ρ V} (h : p.yyerrcnt ≤ 0) :
    ¬ NoSyntaxError (@discard τ ν σ ρ V ω t p).2 := by
  intro herr
  refine herr t ?_
  cases t <;> simp [discard, h]

theorem Reports.mono {p : Parser τ ν σ ρ V} {n m : Nat} (h : Reports p n) (hm : m ≤ n) : Reports p m := by
  obtain ⟨hle, hge⟩ := h
  unfold Reports
  omega

/-! ## Stacks that the tables build -/

/-- An entry that the tables put on top of `e`. -/
def Enters (G : Generated τ ν σ ρ V ω) (e : StateNo σ ρ) (x : Entry τ ν σ ρ V) : Prop :=
  match x.major with
  | .terminal a    => Shifts G (some a) e x.stateno
  | .nonterminal n => ∃ q, e = .state q ∧ G.goto q n = some x.stateno

/-- Every entry follows the one below it. -/
inductive Linked (G : Generated τ ν σ ρ V ω) : List (Entry τ ν σ ρ V) → Prop
  | nil : Linked G []
  | cons {x : Entry τ ν σ ρ V} {S : List (Entry τ ν σ ρ V)} (hx : Enters G (top G S) x) (h : Linked G S) :
      Linked G (x :: S)

theorem Linked.drop {S : List (Entry τ ν σ ρ V)} (h : Linked G S) (n : Nat) : Linked G (S.drop n) := by
  induction h generalizing n with
  | nil =>
      rw [List.drop_nil]
      exact .nil
  | cons hx h ih =>
      cases n with
      | zero => exact .cons hx h
      | succ n => exact ih n

/-- A stack between two calls. -/
def Steady (G : Generated τ ν σ ρ V ω) (p : Parser τ ν σ ρ V) : Prop :=
  Linked G p.stack ∧ top G p.stack ≠ .accept

theorem steady_nil {p : Parser τ ν σ ρ V} (h : p.stack = []) : Steady G p := by
  unfold Steady
  rw [h]
  exact ⟨.nil, nofun⟩

theorem linked_reduce {r : ρ} {p p' : Parser τ ν σ ρ V} {os : List ω} (h : Linked G p.stack)
    (hred : reduce G r p = some (p', os)) : Linked G p'.stack := by
  obtain ⟨-, q, s, htop, hgoto, -, rfl⟩ := reduce_eq_some hred
  exact .cons ⟨q, htop, hgoto⟩ (h.drop _)

/-- A shift keeps the stack linked, whatever the depth. -/
theorem shift_steady {depth : Option Nat} {s : StateNo σ ρ} {a : τ} {v : V} {p p' : Parser τ ν σ ρ V}
    {es : List (Event τ ω)} (h : Linked G p.stack) (hs : Shifts G (some a) (top G p.stack) s)
    (hshift : shift depth s (some a) v p = some (p', es)) : Steady G p' ∧ Event.parseAccept ∉ es := by
  unfold shift at hshift
  simp only at hshift
  split at hshift
  · obtain ⟨rfl, rfl⟩ := Prod.mk.inj (Option.some.inj hshift)
    exact ⟨steady_nil rfl, by simp⟩
  · obtain ⟨rfl, rfl⟩ := Prod.mk.inj (Option.some.inj hshift)
    refine ⟨⟨.cons hs h, ?_⟩, List.not_mem_nil⟩
    rintro rfl
    exact hs

/-- Any turn keeps the stack linked. -/
theorem turn_linked {depth : Option Nat} {t : Option τ} {v : V} {p : Parser τ ν σ ρ V} {x : Turn τ ν σ ρ V ω}
    (h : Linked G p.stack) (hturn : turn G depth t v p = some x) :
    match x with | .again p' _ => Linked G p'.stack | .done p' _ => Linked G p'.stack := by
  unfold turn at hturn
  split at hturn
  · split at hturn
    · obtain rfl := Option.some.inj hturn
      exact .nil
    · obtain ⟨⟨p', os⟩, hred, rfl⟩ := Option.map_eq_some_iff.mp hturn
      exact linked_reduce h hred
  · next q hq =>
      obtain ⟨y, hy, rfl⟩ := Option.map_eq_some_iff.mp hturn
      cases t with
      | none => exact nomatch hy
      | some a => exact (shift_steady (s := .state q) h hq hy).1.1
  · next r hr =>
      obtain ⟨y, hy, rfl⟩ := Option.map_eq_some_iff.mp hturn
      cases t with
      | none => exact nomatch hy
      | some a => exact (shift_steady (s := .reduce r) h hr hy).1.1
  · obtain rfl := Option.some.inj hturn
    show Linked G p.stack.tail
    rw [← List.drop_one]
    exact h.drop 1
  · obtain rfl := Option.some.inj hturn
    cases t with
    | none => exact .nil
    | some a => exact h

/-! ## Completeness -/

/-- From `p`, the tokens are read without a syntax error, and in front of a next one in `F` the stack comes
    to be `S`. -/
def Arrives (G : Generated τ ν σ ρ V ω) (p : Parser τ ν σ ρ V) (xs : List (τ × V)) (F : Option τ → Prop)
    (S : List (Entry τ ν σ ρ V)) : Prop :=
  ∃ p' es, run G none (feed xs) p = some (p', es) ∧ NoSyntaxError es ∧
    ∀ t v, F t → ∃ p'' fs, Leads G none t v p' p'' fs ∧ NoSyntaxError fs ∧ p''.stack = S

theorem Arrives.refl (p : Parser τ ν σ ρ V) (F : Option τ → Prop) : Arrives G p [] F p.stack :=
  ⟨p, [], rfl, noSyntaxError_nil, fun _ _ _ => ⟨p, [], Leads.refl _ _ _ _, noSyntaxError_nil, rfl⟩⟩

theorem Arrives.imp {p : Parser τ ν σ ρ V} {xs : List (τ × V)} {F F' : Option τ → Prop}
    {S : List (Entry τ ν σ ρ V)} (h : Arrives G p xs F S) (hF : ∀ t, F' t → F t) : Arrives G p xs F' S := by
  obtain ⟨p', es, hrun, herr, hnext⟩ := h
  exact ⟨p', es, hrun, herr, fun t v ht => hnext t v (hF t ht)⟩

/-- A shift. -/
theorem Arrives.shift {p : Parser τ ν σ ρ V} {xs : List (τ × V)} {F : Option τ → Prop}
    {S : List (Entry τ ν σ ρ V)} (h : Arrives G p xs F S) (x : τ × V) {s : StateNo σ ρ} (hx : F (some x.1))
    (hs : Shifts G (some x.1) (top G S) s) (F' : Option τ → Prop) :
    Arrives G p (xs ++ [x]) F' (⟨s, .terminal x.1, x.2⟩ :: S) := by
  obtain ⟨p', es, hrun, herr, hnext⟩ := h
  obtain ⟨p'', fs, hlead, herr', rfl⟩ := hnext (some x.1) x.2 hx
  let p₁ : Parser τ ν σ ρ V :=
    { p''.push p''.stack ⟨s, .terminal x.1, x.2⟩ with yyerrcnt := p''.yyerrcnt - 1 }
  have hparse : parse G none (some x.1) x.2 p' = some (p₁, fs ++ []) := hlead.done (turn_shift s hs rfl)
  refine ⟨p₁, es ++ (fs ++ []), ?_, ?_, fun t v _ => ⟨p₁, [], Leads.refl _ _ _ _, noSyntaxError_nil, rfl⟩⟩
  · rw [feed, List.map_append, run_append]
    show (run G none (feed xs) p).bind _ = _
    rw [hrun, Option.bind_some]
    show (run G none [(some x.1, x.2)] p').map _ = _
    rw [run, hparse, Option.bind_some]
    simp [run]
  · rw [List.append_nil]
    exact noSyntaxError_append.mpr ⟨herr, herr'⟩

/-- A reduction, in front of the tokens of `F'`. -/
theorem Arrives.reduce (r : ρ) (popped : List (Entry τ ν σ ρ V)) {p : Parser τ ν σ ρ V} {xs : List (τ × V)}
    {F F' : Option τ → Prop} {S : List (Entry τ ν σ ρ V)} {q : σ} {s : StateNo σ ρ}
    (h : Arrives G p xs F (popped ++ S)) (hlen : popped.length = (G.rhs r).length)
    (hF : ∀ t, F' t → F t ∧ findShiftAction G t (top G (popped ++ S)) = .reduce r)
    (htop : top G S = .state q) (hgoto : G.goto q (G.lhs r) = some s) :
    Arrives G p xs F' (⟨s, .nonterminal (G.lhs r), (G.sem r (popped.reverse.map (·.minor))).1⟩ :: S) := by
  obtain ⟨p', es, hrun, herr, hnext⟩ := h
  refine ⟨p', es, hrun, herr, ?_⟩
  intro t v ht
  obtain ⟨hin, hfind⟩ := hF t ht
  obtain ⟨p'', fs, hlead, herr', hstack⟩ := hnext t v hin
  rw [← hstack] at hfind
  have hred := @leads_reduce _ _ _ _ _ _ G r popped S none t v p'' q s hfind hstack hlen htop hgoto (fun _ => rfl)
  exact ⟨_, _, hlead.trans hred, noSyntaxError_append.mpr ⟨herr', noSyntaxError_user _⟩, rfl⟩

/-- The end. -/
theorem Arrives.accepts {p : Parser τ ν σ ρ V} {xs : List (τ × V)} {F : Option τ → Prop}
    {S : List (Entry τ ν σ ρ V)} (h : Arrives G p xs F S) (hF : F none) (htop : top G S = .accept) (v : V) :
    AcceptsFrom G none p xs v := by
  obtain ⟨p', es, hrun, herr, hnext⟩ := h
  obtain ⟨p'', fs, hlead, herr', rfl⟩ := hnext none v hF
  let p₁ : Parser τ ν σ ρ V := { p'' with stack := p''.stack.tail, yyerrcnt := -1 }
  have hturn : turn G none none v p'' = some (.done p₁ [.parseAccept]) := by
    unfold turn
    rw [htop]
    rfl
  have hparse := hlead.done hturn
  refine ⟨p₁, es ++ (fs ++ [.parseAccept]), ?_, by simp, ?_⟩
  · rw [run_append, hrun, Option.bind_some, run, hparse, Option.bind_some]
    simp [run]
  · exact noSyntaxError_append.mpr ⟨herr, noSyntaxError_append.mpr ⟨herr', by simp [NoSyntaxError]⟩⟩

/-! ## Soundness -/

/-- Wherever `x` stands, `y` may stand. -/
def Covers (g : ContextFreeGrammar τ) (x y : Symbol τ g.NT) : Prop := ∀ w, Yields g [y] w → Yields g [x] w

theorem covers_refl (g : ContextFreeGrammar τ) (x : Symbol τ g.NT) : Covers g x x := fun _ h => h

theorem yields_of_covers {g : ContextFreeGrammar τ} {s t : List (Symbol τ g.NT)}
    (h : List.Forall₂ (Covers g) s t) {w : List τ} (hw : Yields g t w) : Yields g s w := by
  induction h generalizing w with
  | nil => exact hw
  | @cons x y s t hxy _ ih =>
      obtain ⟨u, v, rfl, hu, hv⟩ := (yields_append (s := [y])).mp hw
      exact (hxy u hu).append (ih hv)

/-- The symbols on a stack, from the bottom. -/
def majors (S : List (Entry τ ν σ ρ V)) : List (Symbol τ ν) := (S.map (·.major)).reverse

theorem majors_append (S T : List (Entry τ ν σ ρ V)) : majors (S ++ T) = majors T ++ majors S := by
  unfold majors
  rw [List.map_append, List.reverse_append]

variable [Fintype ρ] [DecidableEq τ] [DecidableEq ν]

/-- What tables must satisfy to accept nothing but their grammar's language: an entry from which a rule is
    reduced lies on symbols that the right-hand side covers, and these on a state that awaits the left-hand
    side; the end marker is not shifted; and acceptance comes behind the start symbol alone, in front of the
    end marker. -/
structure Sound (G : Generated τ ν σ ρ V ω) (start : ν) : Prop where
  noAccept : ∀ q t, G.action q t ≠ .accept
  fits     : ∀ S t r, Linked G S → findShiftAction G t (top G S) = .reduce r →
    List.Forall₂ (Covers (G.grammar start)) (G.rhs r) (majors (S.take (G.rhs r).length)) ∧
      ∃ q s, top G (S.drop (G.rhs r).length) = .state q ∧ G.goto q (G.lhs r) = some s
  atEnd    : ∀ e s, ¬ Shifts G none e s
  early    : ∀ S a r q, Linked G S → findShiftAction G (some a) (top G S) = .reduce r →
    G.goto q (G.lhs r) ≠ some .accept
  final    : ∀ S, Linked G S → top G S = .accept → majors S = [.nonterminal start]

variable {start : ν}

/-- A turn with a token, whatever the depth. -/
theorem turn_steady (hsound : Sound G start) {depth : Option Nat} {a : τ} {v : V} {p : Parser τ ν σ ρ V}
    {x : Turn τ ν σ ρ V ω} (h : Steady G p) (hturn : turn G depth (some a) v p = some x) :
    match x with
    | .again p' es => Steady G p' ∧ Event.parseAccept ∉ es
    | .done p' es => Steady G p' ∧ Event.parseAccept ∉ es := by
  unfold turn at hturn
  split at hturn
  · next r hr =>
      split at hturn
      · obtain rfl := Option.some.inj hturn
        exact ⟨steady_nil rfl, by simp⟩
      · obtain ⟨⟨p', os⟩, hred, rfl⟩ := Option.map_eq_some_iff.mp hturn
        refine ⟨⟨linked_reduce h.1 hred, ?_⟩, accept_not_mem_user os⟩
        obtain ⟨-, q, s, -, hgoto, -, rfl⟩ := reduce_eq_some hred
        intro hacc
        have hs : s = .accept := hacc
        exact hsound.early p.stack a r q h.1 hr (hs ▸ hgoto)
  · next q hq =>
      obtain ⟨y, hy, rfl⟩ := Option.map_eq_some_iff.mp hturn
      exact shift_steady (s := .state q) h.1 hq hy
  · next r hr =>
      obtain ⟨y, hy, rfl⟩ := Option.map_eq_some_iff.mp hturn
      exact shift_steady (s := .reduce r) h.1 hr hy
  · next hacc =>
      cases htop : top G p.stack with
      | state q =>
          rw [htop] at hacc
          exact absurd hacc (hsound.noAccept q _)
      | reduce r =>
          rw [htop] at hacc
          exact nomatch hacc
      | accept => exact absurd htop h.2
  · obtain rfl := Option.some.inj hturn
    refine ⟨h, ?_⟩
    by_cases hc : p.yyerrcnt ≤ 0 <;> simp [discard, hc]

/-- **A call with a token** keeps the stack linked and does not accept. -/
theorem parse_steady (hsound : Sound G start) {depth : Option Nat} {a : τ} {v : V} {p p' : Parser τ ν σ ρ V}
    {es : List (Event τ ω)} (h : Steady G p) (hparse : parse G depth (some a) v p = some (p', es)) :
    Steady G p' ∧ Event.parseAccept ∉ es := by
  revert h
  refine parse_induction (P := fun p p' es => Steady G p → Steady G p' ∧ Event.parseAccept ∉ es) ?_ ?_ hparse
  · intro p p' es hturn h
    exact turn_steady hsound h hturn
  · intro p p₁ p' es es' hturn ih h
    obtain ⟨h₁, hes⟩ := turn_steady hsound h hturn
    obtain ⟨h', hes'⟩ := ih h₁
    exact ⟨h', fun hmem => (List.mem_append.mp hmem).elim hes hes'⟩

theorem run_steady (hsound : Sound G start) {depth : Option Nat} (xs : List (τ × V)) {p p' : Parser τ ν σ ρ V}
    {es : List (Event τ ω)} (h : Steady G p) (hrun : run G depth (feed xs) p = some (p', es)) :
    Steady G p' ∧ Event.parseAccept ∉ es := by
  induction xs generalizing p es with
  | nil =>
      obtain ⟨rfl, rfl⟩ := Prod.mk.inj (Option.some.inj hrun)
      exact ⟨h, List.not_mem_nil⟩
  | cons x xs ih =>
      obtain ⟨⟨p₁, es₁⟩, hx, hrest⟩ := Option.bind_eq_some_iff.mp hrun
      obtain ⟨⟨p₂, es₂⟩, hy, heq⟩ := Option.map_eq_some_iff.mp hrest
      obtain ⟨rfl, rfl⟩ := Prod.mk.inj heq
      obtain ⟨h₁, hes₁⟩ := parse_steady hsound h hx
      obtain ⟨h₂, hes₂⟩ := ih h₁ hy
      exact ⟨h₂, fun hmem => (List.mem_append.mp hmem).elim hes₁ hes₂⟩

/-! ## Totality -/

/-- No turn runs into an assertion. -/
theorem turn_total (hsound : Sound G start) {depth : Option Nat} {t : Option τ} {v : V} {p : Parser τ ν σ ρ V}
    (h : Linked G p.stack) : ∃ x, turn G depth t v p = some x := by
  have hshift : ∀ s, Shifts G t (top G p.stack) s → ∃ y, @shift τ ν σ ρ V ω depth s t v p = some y := by
    intro s hs
    cases t with
    | none => exact absurd hs (hsound.atEnd _ s)
    | some a =>
        unfold shift
        simp only
        split <;> exact ⟨_, rfl⟩
  unfold turn
  split
  · next r hr =>
      split
      · exact ⟨_, rfl⟩
      · obtain ⟨hfits, q, s, htop, hgoto⟩ := hsound.fits p.stack t r h hr
        have hlen : ¬ p.stack.length < (G.rhs r).length := by
          have heq := hfits.length_eq
          simp only [majors, List.length_reverse, List.length_map, List.length_take] at heq
          omega
        unfold reduce
        simp only
        rw [if_neg hlen, htop]
        simp only [hgoto, Option.map_some]
        exact ⟨_, rfl⟩
  · next q hq =>
      obtain ⟨y, hy⟩ := hshift (.state q) hq
      rw [hy]
      exact ⟨_, rfl⟩
  · next r hr =>
      obtain ⟨y, hy⟩ := hshift (.reduce r) hr
      rw [hy]
      exact ⟨_, rfl⟩
  · exact ⟨_, rfl⟩
  · exact ⟨_, rfl⟩

/-- Every call returns, by induction on the reductions left. -/
theorem parse_total (hsound : Sound G start) {depth : Option Nat} {t : Option τ} {v : V}
    (p : Parser τ ν σ ρ V) (h : Linked G p.stack) :
    ∃ p' es, parse G depth t v p = some (p', es) ∧ Linked G p'.stack := by
  induction hm : measure G p using Nat.strong_induction_on generalizing p with
  | _ m ih =>
      obtain ⟨x, hx⟩ := @turn_total _ _ _ _ _ _ G _ _ _ start hsound depth t v p h
      have hlinked := turn_linked h hx
      cases x with
      | done p' es => exact ⟨p', es, parse_done hx, hlinked⟩
      | again p' es =>
          obtain ⟨p'', es', hparse, hlinked'⟩ := ih (measure G p') (hm ▸ measure_turn hx) p' hlinked rfl
          refine ⟨p'', es ++ es', ?_, hlinked'⟩
          rw [parse_again hx, hparse]
          rfl

/-- **Every run returns**: the stack is never too small for a reduction, and every goto exists. -/
theorem run_total (hsound : Sound G start) {depth : Option Nat} (ts : List (Option τ × V))
    {p : Parser τ ν σ ρ V} (h : Linked G p.stack) : ∃ p' es, run G depth ts p = some (p', es) := by
  induction ts generalizing p with
  | nil => exact ⟨p, [], rfl⟩
  | cons t ts ih =>
      obtain ⟨p₁, es₁, h₁, hl₁⟩ := @parse_total _ _ _ _ _ _ G _ _ _ start hsound depth t.1 t.2 p h
      obtain ⟨p₂, es₂, h₂⟩ := ih hl₁
      refine ⟨p₂, es₁ ++ es₂, ?_⟩
      rw [run, h₁, Option.bind_some, h₂]
      rfl

/-- Acceptance happens at the end marker. -/
theorem acceptsFrom_iff (hsound : Sound G start) {depth : Option Nat} {p : Parser τ ν σ ρ V} (h : Steady G p)
    {xs : List (τ × V)} {v : V} :
    AcceptsFrom G depth p xs v ↔
      ∃ p₁ es₁ p₂ es₂, run G depth (feed xs) p = some (p₁, es₁) ∧ parse G depth none v p₁ = some (p₂, es₂) ∧
        NoSyntaxError es₁ ∧ NoSyntaxError es₂ ∧ Event.parseAccept ∈ es₂ := by
  constructor
  · rintro ⟨p', es, hrun, hacc, herr⟩
    rw [run_append] at hrun
    obtain ⟨⟨p₁, es₁⟩, h₁, hrest⟩ := Option.bind_eq_some_iff.mp hrun
    obtain ⟨⟨p₂, es₂⟩, h₂, heq⟩ := Option.map_eq_some_iff.mp hrest
    obtain ⟨rfl, rfl⟩ := Prod.mk.inj heq
    obtain ⟨⟨p₃, es₃⟩, h₃, hnil⟩ := Option.bind_eq_some_iff.mp h₂
    obtain ⟨rfl, rfl⟩ := Prod.mk.inj (Option.some.inj hnil)
    rw [List.append_nil] at hacc herr
    obtain ⟨herr₁, herr₃⟩ := noSyntaxError_append.mp herr
    refine ⟨p₁, es₁, p₃, es₃, h₁, h₃, herr₁, herr₃, ?_⟩
    exact (List.mem_append.mp hacc).resolve_left (run_steady hsound xs h h₁).2
  · rintro ⟨p₁, es₁, p₂, es₂, h₁, h₂, herr₁, herr₂, hacc⟩
    refine ⟨p₂, es₁ ++ es₂, ?_, List.mem_append_right _ hacc, noSyntaxError_append.mpr ⟨herr₁, herr₂⟩⟩
    rw [run_append, h₁, Option.bind_some, run, h₂, Option.bind_some]
    simp [run]

/-- The first call does not accept. -/
theorem acceptsFrom_cons (hsound : Sound G start) {depth : Option Nat} {p p' : Parser τ ν σ ρ V} (h : Steady G p)
    {x : τ × V} {xs : List (τ × V)} {v : V} {es : List (Event τ ω)}
    (hparse : parse G depth (some x.1) x.2 p = some (p', es)) :
    AcceptsFrom G depth p (x :: xs) v ↔ NoSyntaxError es ∧ AcceptsFrom G depth p' xs v := by
  have hno := (parse_steady hsound h hparse).2
  have hrun : run G depth (feed (x :: xs) ++ [(none, v)]) p =
      (run G depth (feed xs ++ [(none, v)]) p').map (fun y => (y.1, es ++ y.2)) := by
    show (parse G depth (some x.1) x.2 p).bind _ = _
    rw [hparse, Option.bind_some]
    rfl
  constructor
  · rintro ⟨q, fs, hq, hacc, herr⟩
    rw [hrun] at hq
    obtain ⟨⟨q', fs'⟩, hq', heq⟩ := Option.map_eq_some_iff.mp hq
    obtain ⟨rfl, rfl⟩ := Prod.mk.inj heq
    obtain ⟨herr₁, herr₂⟩ := noSyntaxError_append.mp herr
    exact ⟨herr₁, q', fs', hq', (List.mem_append.mp hacc).resolve_left hno, herr₂⟩
  · rintro ⟨herr₁, q', fs', hq', hacc, herr₂⟩
    refine ⟨q', es ++ fs', ?_, List.mem_append_right _ hacc, noSyntaxError_append.mpr ⟨herr₁, herr₂⟩⟩
    rw [hrun, hq']
    rfl

/-- A reduction keeps what the stack spells. -/
theorem yields_reduce (hsound : Sound G start) {t : Option τ} {r : ρ} {p p' : Parser τ ν σ ρ V} {os : List ω}
    {w : List τ} (hl : Linked G p.stack) (hfind : findShiftAction G t (top G p.stack) = .reduce r)
    (hred : reduce G r p = some (p', os)) (hw : Yields (G.grammar start) (majors p.stack) w) :
    Yields (G.grammar start) (majors p'.stack) w := by
  have hfits := (hsound.fits p.stack t r hl hfind).1
  obtain ⟨-, q, s, -, -, -, rfl⟩ := reduce_eq_some hred
  have hsplit : majors p.stack = majors (p.stack.drop (G.rhs r).length) ++ majors (p.stack.take (G.rhs r).length) := by
    rw [← majors_append, List.take_append_drop]
  rw [hsplit] at hw
  obtain ⟨u, v, rfl, hu, hv⟩ := yields_append.mp hw
  have hmem : (⟨G.lhs r, G.rhs r⟩ : ContextFreeRule τ ν) ∈ (G.grammar start).rules :=
    Finset.mem_image_of_mem _ (Finset.mem_univ r)
  have hrule := Yields.rule hmem (yields_of_covers hfits hv)
  show Yields (G.grammar start) (majors (_ :: p.stack.drop _)) (u ++ v)
  rw [show majors ((_ : Entry τ ν σ ρ V) :: p.stack.drop (G.rhs r).length) = _ from List.reverse_cons]
  exact hu.append hrule

/-- A call with a token that reports no error: the stack spells the token, too. -/
theorem parse_yields (hsound : Sound G start) {a : τ} {v : V} {p p' : Parser τ ν σ ρ V} {es : List (Event τ ω)}
    {w : List τ} (hparse : parse G none (some a) v p = some (p', es)) (h : Steady G p)
    (hw : Yields (G.grammar start) (majors p.stack) w) (hcnt : p.yyerrcnt ≤ 0) (herr : NoSyntaxError es) :
    Yields (G.grammar start) (majors p'.stack) (w ++ [a]) ∧ p'.yyerrcnt = p.yyerrcnt - 1 := by
  revert h hw hcnt herr
  refine parse_induction (P := fun p p' es => Steady G p → Yields (G.grammar start) (majors p.stack) w →
    p.yyerrcnt ≤ 0 → NoSyntaxError es →
    Yields (G.grammar start) (majors p'.stack) (w ++ [a]) ∧ p'.yyerrcnt = p.yyerrcnt - 1) ?_ ?_ hparse
  · intro p p' es hturn h hw hcnt herr
    -- what is pushed spells the token
    have hpush : ∀ s,
        Yields (G.grammar start) (majors ((⟨s, .terminal a, v⟩ : Entry τ ν σ ρ V) :: p.stack)) (w ++ [a]) := by
      intro s
      rw [show majors ((⟨s, .terminal a, v⟩ : Entry τ ν σ ρ V) :: p.stack) = _ from List.reverse_cons]
      exact hw.append (.terminal a .nil)
    unfold turn at hturn
    split at hturn
    · rw [if_neg (by simp [full])] at hturn
      obtain ⟨x, -, heq⟩ := Option.map_eq_some_iff.mp hturn
      cases heq
    · obtain ⟨⟨p₁, es₁⟩, hx, heq⟩ := Option.map_eq_some_iff.mp hturn
      obtain ⟨rfl, rfl⟩ := Turn.done.inj heq
      obtain ⟨rfl, rfl⟩ := Prod.mk.inj (Option.some.inj hx)
      exact ⟨hpush _, rfl⟩
    · obtain ⟨⟨p₁, es₁⟩, hx, heq⟩ := Option.map_eq_some_iff.mp hturn
      obtain ⟨rfl, rfl⟩ := Turn.done.inj heq
      obtain ⟨rfl, rfl⟩ := Prod.mk.inj (Option.some.inj hx)
      exact ⟨hpush _, rfl⟩
    · next hacc =>
        cases htop : top G p.stack with
        | state q =>
            rw [htop] at hacc
            exact absurd hacc (hsound.noAccept q _)
        | reduce r =>
            rw [htop] at hacc
            cases hacc
        | accept => exact absurd htop h.2
    · obtain ⟨rfl, rfl⟩ := Turn.done.inj (Option.some.inj hturn)
      exact absurd herr (discard_reports hcnt)
  · intro p p₁ p' es es' hturn ih h hw hcnt herr
    obtain ⟨r, os, hfind, hred, -⟩ := turn_again hturn
    have h₁ := (turn_steady hsound h hturn).1
    have hcnt₁ : p₁.yyerrcnt = p.yyerrcnt := by
      obtain ⟨-, q, s, -, -, -, rfl⟩ := reduce_eq_some hred
      rfl
    rw [← hcnt₁] at hcnt ⊢
    exact ih h₁ (yields_reduce hsound h.1 hfind hred hw) hcnt (noSyntaxError_append.mp herr).2

/-- The call at the end: what the stack spells is a word of the language if it is accepted. -/
theorem yields_of_accept (hsound : Sound G start) {v : V} {p p' : Parser τ ν σ ρ V} {es : List (Event τ ω)}
    {w : List τ} (hparse : parse G none none v p = some (p', es)) (h : Linked G p.stack)
    (hw : Yields (G.grammar start) (majors p.stack) w) (hcnt : p.yyerrcnt ≤ 0) (herr : NoSyntaxError es)
    (hacc : Event.parseAccept ∈ es) : w ∈ (G.grammar start).language := by
  revert h hw hcnt herr hacc
  refine parse_induction (P := fun p p' es => Linked G p.stack → Yields (G.grammar start) (majors p.stack) w →
    p.yyerrcnt ≤ 0 → NoSyntaxError es → Event.parseAccept ∈ es → w ∈ (G.grammar start).language) ?_ ?_ hparse
  · intro p p' es hturn h hw hcnt herr hmem
    unfold turn at hturn
    split at hturn
    · rw [if_neg (by simp [full])] at hturn
      obtain ⟨x, -, heq⟩ := Option.map_eq_some_iff.mp hturn
      cases heq
    · cases hturn
    · cases hturn
    · next hfind =>
        cases htop : top G p.stack with
        | state q =>
            rw [htop] at hfind
            exact absurd hfind (hsound.noAccept q _)
        | reduce r =>
            rw [htop] at hfind
            cases hfind
        | accept =>
            rw [hsound.final p.stack h htop] at hw
            exact mem_language_iff_yields.mpr hw
    · obtain ⟨rfl, rfl⟩ := Turn.done.inj (Option.some.inj hturn)
      exact absurd herr (discard_reports hcnt)
  · intro p p₁ p' es es' hturn ih h hw hcnt herr hmem
    obtain ⟨r, os, hfind, hred, rfl⟩ := turn_again hturn
    have hcnt₁ : p₁.yyerrcnt = p.yyerrcnt := by
      obtain ⟨-, q, s, -, -, -, rfl⟩ := reduce_eq_some hred
      rfl
    rw [← hcnt₁] at hcnt
    exact ih (linked_reduce h hred) (yields_reduce hsound h hfind hred hw) hcnt (noSyntaxError_append.mp herr).2
      ((List.mem_append.mp hmem).resolve_left (accept_not_mem_user os))

/-- A run without an error: the stack spells the tokens. -/
theorem run_yields (hsound : Sound G start) (xs : List (τ × V)) {p p' : Parser τ ν σ ρ V}
    {es : List (Event τ ω)} {w : List τ} (hrun : run G none (feed xs) p = some (p', es)) (h : Steady G p)
    (hw : Yields (G.grammar start) (majors p.stack) w) {n : Nat} (hcnt : Reports p (xs.length + n))
    (herr : NoSyntaxError es) :
    Yields (G.grammar start) (majors p'.stack) (w ++ xs.map (·.1)) ∧ Reports p' n := by
  induction xs generalizing p es w with
  | nil =>
      obtain ⟨rfl, rfl⟩ := Prod.mk.inj (Option.some.inj hrun)
      rw [List.map_nil, List.append_nil]
      rw [List.length_nil, Nat.zero_add] at hcnt
      exact ⟨hw, hcnt⟩
  | cons x xs ih =>
      obtain ⟨⟨p₁, es₁⟩, hx, hrest⟩ := Option.bind_eq_some_iff.mp hrun
      obtain ⟨⟨p₂, es₂⟩, hy, heq⟩ := Option.map_eq_some_iff.mp hrest
      obtain ⟨rfl, rfl⟩ := Prod.mk.inj heq
      obtain ⟨herr₁, herr₂⟩ := noSyntaxError_append.mp herr
      obtain ⟨hw₁, hcnt₁⟩ := parse_yields hsound hx h hw hcnt.le herr₁
      have hcnt' : Reports p (xs.length + n + 1) := by
        rw [List.length_cons, show xs.length + 1 + n = xs.length + n + 1 by omega] at hcnt
        exact hcnt
      obtain ⟨hw₂, hcnt₂⟩ := ih hy (parse_steady hsound h hx).1 hw₁ (hcnt'.pred hcnt₁) herr₂
      rw [List.append_assoc] at hw₂
      exact ⟨hw₂, hcnt₂⟩

/-- **Soundness**: on a stack that grows on demand, only the grammar's words are accepted without an error. -/
theorem accepts_sound (hsound : Sound G start) {xs : List (τ × V)} {v : V} (hlen : xs.length < 2147483648)
    (h : Accepts G none xs v) : xs.map (·.1) ∈ (G.grammar start).language := by
  obtain ⟨p₁, es₁, p₂, es₂, h₁, h₂, herr₁, herr₂, hacc⟩ := (acceptsFrom_iff hsound (steady_nil rfl)).mp h
  obtain ⟨hw, hcnt⟩ := @run_yields _ _ _ _ _ _ _ _ _ _ _ hsound xs _ _ _ [] h₁ (steady_nil rfl) .nil 0
    (reports_init hlen) herr₁
  exact yields_of_accept hsound h₂ (run_steady hsound xs (steady_nil rfl) h₁).1.1 hw hcnt.le herr₂ hacc

/-! ## Depth -/

omit [Fintype ρ] [DecidableEq τ] [DecidableEq ν]

/-- The peak is not below the stack. -/
def Peaked (p : Parser τ ν σ ρ V) : Prop := p.stack.length ≤ p.peak

theorem peaked_push (p : Parser τ ν σ ρ V) (below : List (Entry τ ν σ ρ V)) (e : Entry τ ν σ ρ V) :
    Peaked (p.push below e) :=
  Nat.le_max_right _ _

theorem peaked_reduce {r : ρ} {p p' : Parser τ ν σ ρ V} {os : List ω} (hred : reduce G r p = some (p', os)) :
    Peaked p' := by
  obtain ⟨-, q, s, -, -, -, rfl⟩ := reduce_eq_some hred
  exact peaked_push _ _ _

theorem peaked_turn_done {t : Option τ} {v : V} {p p' : Parser τ ν σ ρ V} {es : List (Event τ ω)} (h : Peaked p)
    (hturn : turn G none t v p = some (.done p' es)) : Peaked p' := by
  unfold turn at hturn
  split at hturn
  · rw [if_neg (by simp [full])] at hturn
    obtain ⟨x, -, heq⟩ := Option.map_eq_some_iff.mp hturn
    cases heq
  · obtain ⟨x, hx, heq⟩ := Option.map_eq_some_iff.mp hturn
    obtain ⟨rfl, rfl⟩ := Turn.done.inj heq
    cases t with
    | none => cases hx
    | some a =>
        obtain rfl := Option.some.inj hx
        exact peaked_push _ _ _
  · obtain ⟨x, hx, heq⟩ := Option.map_eq_some_iff.mp hturn
    obtain ⟨rfl, rfl⟩ := Turn.done.inj heq
    cases t with
    | none => cases hx
    | some a =>
        obtain rfl := Option.some.inj hx
        exact peaked_push _ _ _
  · obtain ⟨rfl, rfl⟩ := Turn.done.inj (Option.some.inj hturn)
    show p.stack.tail.length ≤ p.peak
    rw [List.length_tail]
    exact Nat.le_trans (Nat.sub_le _ _) h
  · obtain ⟨rfl, rfl⟩ := Turn.done.inj (Option.some.inj hturn)
    cases t with
    | none => exact Nat.zero_le _
    | some a => exact h

theorem peaked_parse {t : Option τ} {v : V} {p p' : Parser τ ν σ ρ V} {es : List (Event τ ω)} (h : Peaked p)
    (hparse : parse G none t v p = some (p', es)) : Peaked p' := by
  revert h
  refine parse_induction (P := fun p p' _ => Peaked p → Peaked p') ?_ ?_ hparse
  · intro p p' es hturn h
    exact peaked_turn_done h hturn
  · intro p p₁ p' es es' hturn ih _
    obtain ⟨r, os, -, hred, -⟩ := turn_again hturn
    exact ih (peaked_reduce hred)

theorem peaked_run (ts : List (Option τ × V)) {p p' : Parser τ ν σ ρ V} {es : List (Event τ ω)} (h : Peaked p)
    (hrun : run G none ts p = some (p', es)) : Peaked p' := by
  induction ts generalizing p es with
  | nil =>
      obtain ⟨rfl, rfl⟩ := Prod.mk.inj (Option.some.inj hrun)
      exact h
  | cons t ts ih =>
      obtain ⟨⟨p₁, es₁⟩, hx, hrest⟩ := Option.bind_eq_some_iff.mp hrun
      obtain ⟨⟨p₂, es₂⟩, hy, heq⟩ := Option.map_eq_some_iff.mp hrest
      obtain ⟨rfl, rfl⟩ := Prod.mk.inj heq
      exact ih (peaked_parse h hx) hy

/-- Reductions of rules that are not empty do not go beyond the peak. -/
theorem peak_reduce (hne : ∀ r, G.rhs r ≠ []) {r : ρ} {p p' : Parser τ ν σ ρ V} {os : List ω} (hp : Peaked p)
    (hred : reduce G r p = some (p', os)) : p'.peak = p.peak := by
  obtain ⟨hlen, q, s, -, -, -, rfl⟩ := reduce_eq_some hred
  have hpos : 0 < (G.rhs r).length := List.length_pos_iff.mpr (hne r)
  have hp' : p.stack.length ≤ p.peak := hp
  show max p.peak ((p.stack.drop (G.rhs r).length).length + 1) = p.peak
  rw [List.length_drop]
  omega

/-- Neither does the call at the end. -/
theorem peak_parse_end (hne : ∀ r, G.rhs r ≠ []) {v : V} {p p' : Parser τ ν σ ρ V} {es : List (Event τ ω)}
    (hparse : parse G none none v p = some (p', es)) (hp : Peaked p) : p'.peak = p.peak := by
  revert hp
  refine parse_induction (P := fun p p' _ => Peaked p → p'.peak = p.peak) ?_ ?_ hparse
  · intro p p' es hturn _
    unfold turn at hturn
    split at hturn
    · rw [if_neg (by simp [full])] at hturn
      obtain ⟨x, -, heq⟩ := Option.map_eq_some_iff.mp hturn
      cases heq
    · cases hturn
    · cases hturn
    · obtain ⟨rfl, rfl⟩ := Turn.done.inj (Option.some.inj hturn)
      rfl
    · obtain ⟨rfl, rfl⟩ := Turn.done.inj (Option.some.inj hturn)
      rfl
  · intro p p₁ p' es es' hturn ih hp
    obtain ⟨r, os, -, hred, -⟩ := turn_again hturn
    rw [ih (peaked_reduce hred), peak_reduce hne hp hred]

/-- **A call that needs more entries than there are**: no error is reported, the stack is emptied and the
    token is lost. -/
theorem parse_overflow (hne : ∀ r, G.rhs r ≠ []) {a : τ} {v : V} {p p' : Parser τ ν σ ρ V}
    {es : List (Event τ ω)} {d : Nat} (hparse : parse G none (some a) v p = some (p', es)) (hp : Peaked p)
    (hlt : p.peak < d) (hge : d ≤ p'.peak) :
    NoSyntaxError es ∧ ∃ p₁ fs, parse G (some d) (some a) v p = some (p₁, fs) ∧ p₁.stack = [] ∧
      p₁.yyerrcnt = p.yyerrcnt - 1 ∧ NoSyntaxError fs := by
  revert hp hlt hge
  refine parse_induction (P := fun p p' es => Peaked p → p.peak < d → d ≤ p'.peak →
    NoSyntaxError es ∧ ∃ p₁ fs, parse G (some d) (some a) v p = some (p₁, fs) ∧ p₁.stack = [] ∧
      p₁.yyerrcnt = p.yyerrcnt - 1 ∧ NoSyntaxError fs) ?_ ?_ hparse
  · intro p p' es hturn hp hlt hge
    -- only a shift goes beyond the peak
    have hshift : ∀ s, Shifts G (some a) (top G p.stack) s → d ≤ max p.peak (p.stack.length + 1) →
        ∃ p₁ fs, parse G (some d) (some a) v p = some (p₁, fs) ∧ p₁.stack = [] ∧
          p₁.yyerrcnt = p.yyerrcnt - 1 ∧ NoSyntaxError fs := by
      intro s hs hd
      have hfull : full (some d) p.stack = true := decide_eq_true (by omega)
      exact ⟨_, _, parse_done (turn_overflow s hs hfull), rfl, rfl, by simp [NoSyntaxError]⟩
    have hturn' := hturn
    unfold turn at hturn
    split at hturn
    · rw [if_neg (by simp [full])] at hturn
      obtain ⟨x, -, heq⟩ := Option.map_eq_some_iff.mp hturn
      cases heq
    · next q hq =>
        obtain ⟨x, hx, heq⟩ := Option.map_eq_some_iff.mp hturn
        obtain ⟨rfl, rfl⟩ := Turn.done.inj heq
        obtain rfl := Option.some.inj hx
        exact ⟨noSyntaxError_nil, hshift (.state q) hq hge⟩
    · next r hr =>
        obtain ⟨x, hx, heq⟩ := Option.map_eq_some_iff.mp hturn
        obtain ⟨rfl, rfl⟩ := Turn.done.inj heq
        obtain rfl := Option.some.inj hx
        exact ⟨noSyntaxError_nil, hshift (.reduce r) hr hge⟩
    · obtain ⟨rfl, rfl⟩ := Turn.done.inj (Option.some.inj hturn)
      have hge' : d ≤ p.peak := hge
      omega
    · obtain ⟨rfl, rfl⟩ := Turn.done.inj (Option.some.inj hturn)
      rw [discard_peak] at hge
      omega
  · intro p p₁ p' es es' hturn ih hp hlt hge
    obtain ⟨r, os, hfind, hred, rfl⟩ := turn_again hturn
    have hpeaked := peaked_reduce hred
    have hpeak := peak_reduce hne hp hred
    have hcnt : p₁.yyerrcnt = p.yyerrcnt := by
      obtain ⟨-, q, s, -, -, -, rfl⟩ := reduce_eq_some hred
      rfl
    rw [← hpeak] at hlt
    obtain ⟨herr, p₂, fs, hparse₂, hstack, hcnt₂, herr₂⟩ := ih hpeaked hlt hge
    refine ⟨noSyntaxError_append.mpr ⟨noSyntaxError_user os, herr⟩, p₂, os.map .user ++ fs, ?_, hstack, ?_, ?_⟩
    · rw [parse_again (turn_depth hturn hlt), hparse₂]
      rfl
    · rw [hcnt₂, hcnt]
    · exact noSyntaxError_append.mpr ⟨noSyntaxError_user os, herr₂⟩

/-- Two parsers with the same stack, both of which report errors for `n` tokens more. -/
structure Same (n : Nat) (p q : Parser τ ν σ ρ V) : Prop where
  stack : p.stack = q.stack
  left  : Reports p n
  right : Reports q n

theorem Same.mono {n m : Nat} {p q : Parser τ ν σ ρ V} (h : Same n p q) (hm : m ≤ n) : Same m p q :=
  ⟨h.stack, h.left.mono hm, h.right.mono hm⟩

theorem reduce_same {r : ρ} {p q p' : Parser τ ν σ ρ V} {os : List ω} {n : Nat} (h : Same n p q)
    (hred : reduce G r p = some (p', os)) : ∃ q', reduce G r q = some (q', os) ∧ Same n p' q' := by
  obtain ⟨hlen, e, s, htop, hgoto, rfl, rfl⟩ := reduce_eq_some hred
  refine ⟨q.push (p.stack.drop (G.rhs r).length) ⟨s, .nonterminal (G.lhs r), _⟩, ?_, ⟨rfl, h.left, h.right⟩⟩
  unfold reduce
  simp only
  rw [← h.stack, if_neg (Nat.not_lt.mpr hlen), htop]
  simp only [hgoto]

theorem shift_same {depth : Option Nat} {s : StateNo σ ρ} {t : Option τ} {v : V} {p q p' : Parser τ ν σ ρ V}
    {es : List (Event τ ω)} {n : Nat} (h : Same n p q) (hshift : shift depth s t v p = some (p', es)) :
    ∃ q', shift depth s t v q = some (q', es) ∧ ∀ m, n = m + 1 → Same m p' q' := by
  cases t with
  | none => exact nomatch hshift
  | some a =>
      unfold shift at hshift ⊢
      simp only at hshift ⊢
      rw [← h.stack]
      split at hshift
      · next hfull =>
          obtain ⟨rfl, rfl⟩ := Prod.mk.inj (Option.some.inj hshift)
          rw [if_pos hfull]
          refine ⟨_, rfl, ?_⟩
          rintro m rfl
          exact ⟨rfl, h.left.pred rfl, h.right.pred rfl⟩
      · next hfull =>
          obtain ⟨rfl, rfl⟩ := Prod.mk.inj (Option.some.inj hshift)
          rw [if_neg hfull]
          refine ⟨_, rfl, ?_⟩
          rintro m rfl
          exact ⟨rfl, h.left.pred rfl, h.right.pred rfl⟩

/-- The last turn of a call goes the same way if it reports no error. -/
theorem turn_done_same {depth : Option Nat} {t : Option τ} {v : V} {p q p' : Parser τ ν σ ρ V}
    {es : List (Event τ ω)} {n : Nat} (hturn : turn G depth t v p = some (.done p' es)) (h : Same n p q)
    (herr : NoSyntaxError es) :
    ∃ q', turn G depth t v q = some (.done q' es) ∧ ∀ m, n = m + 1 → Same m p' q' := by
  unfold turn at hturn ⊢
  rw [← h.stack]
  split at hturn
  · next r hr =>
      split at hturn
      · next hfull =>
          obtain ⟨rfl, rfl⟩ := Turn.done.inj (Option.some.inj hturn)
          rw [if_pos hfull]
          refine ⟨_, rfl, ?_⟩
          rintro m rfl
          exact ⟨rfl, h.left.mono (Nat.le_succ m), h.right.mono (Nat.le_succ m)⟩
      · obtain ⟨x, -, heq⟩ := Option.map_eq_some_iff.mp hturn
        exact nomatch heq
  · next s hs =>
      obtain ⟨⟨p₁, es₁⟩, hx, heq⟩ := Option.map_eq_some_iff.mp hturn
      obtain ⟨rfl, rfl⟩ := Turn.done.inj heq
      obtain ⟨q', hq', hsame⟩ := shift_same h hx
      rw [hq']
      exact ⟨q', rfl, hsame⟩
  · next s hs =>
      obtain ⟨⟨p₁, es₁⟩, hx, heq⟩ := Option.map_eq_some_iff.mp hturn
      obtain ⟨rfl, rfl⟩ := Turn.done.inj heq
      obtain ⟨q', hq', hsame⟩ := shift_same h hx
      rw [hq']
      exact ⟨q', rfl, hsame⟩
  · obtain ⟨rfl, rfl⟩ := Turn.done.inj (Option.some.inj hturn)
    refine ⟨_, rfl, ?_⟩
    rintro m rfl
    -- the count starts again
    have hm : m < 2147483648 := by
      have hleft := h.left
      unfold Reports at hleft
      omega
    exact ⟨rfl, reports_of_minus_one rfl hm, reports_of_minus_one rfl hm⟩
  · obtain ⟨rfl, rfl⟩ := Turn.done.inj (Option.some.inj hturn)
    exact absurd herr (discard_reports h.left.le)

/-- So does a reduction. -/
theorem turn_again_same {depth : Option Nat} {t : Option τ} {v : V} {p q p₁ : Parser τ ν σ ρ V}
    {es : List (Event τ ω)} {n : Nat} (hturn : turn G depth t v p = some (.again p₁ es)) (h : Same n p q) :
    ∃ q₁, turn G depth t v q = some (.again q₁ es) ∧ Same n p₁ q₁ := by
  obtain ⟨r, os, hfind, hred, rfl⟩ := turn_again hturn
  obtain ⟨q₁, hred', hsame⟩ := reduce_same h hred
  refine ⟨q₁, ?_, hsame⟩
  unfold turn at hturn ⊢
  rw [h.stack] at hfind hturn
  rw [hfind] at hturn ⊢
  simp only at hturn ⊢
  split at hturn
  · exact nomatch hturn
  · next hfull =>
      rw [if_neg hfull, hred']
      rfl

/-- Calls go the same way until an error is reported. -/
theorem parse_same {depth : Option Nat} {t : Option τ} {v : V} {p q p' : Parser τ ν σ ρ V}
    {es : List (Event τ ω)} {n : Nat} (hparse : parse G depth t v p = some (p', es)) (h : Same n p q)
    (herr : NoSyntaxError es) :
    ∃ q', parse G depth t v q = some (q', es) ∧ ∀ m, n = m + 1 → Same m p' q' := by
  revert q
  revert herr
  refine parse_induction (P := fun p p' es => NoSyntaxError es → ∀ {q : Parser τ ν σ ρ V}, Same n p q →
    ∃ q', parse G depth t v q = some (q', es) ∧ ∀ m, n = m + 1 → Same m p' q') ?_ ?_ hparse
  · intro p p' es hturn herr q h
    obtain ⟨q', hturn', hsame⟩ := turn_done_same hturn h herr
    exact ⟨q', parse_done hturn', hsame⟩
  · intro p p₁ p' es es' hturn ih herr q h
    obtain ⟨q₁, hturn', hsame⟩ := turn_again_same hturn h
    obtain ⟨q', hparse', hsame'⟩ := ih (noSyntaxError_append.mp herr).2 hsame
    refine ⟨q', ?_, hsame'⟩
    rw [parse_again hturn', hparse']
    rfl

/-- Runs without an error too. -/
theorem run_same {depth : Option Nat} {ts : List (Option τ × V)} {p q p' : Parser τ ν σ ρ V} {es : List (Event τ ω)}
    {n : Nat} (hrun : run G depth ts p = some (p', es)) (h : Same n p q) (hlen : ts.length ≤ n + 1)
    (herr : NoSyntaxError es) : ∃ q', run G depth ts q = some (q', es) := by
  induction ts generalizing p q es n with
  | nil =>
      obtain ⟨-, rfl⟩ := Prod.mk.inj (Option.some.inj hrun)
      exact ⟨q, rfl⟩
  | cons t ts ih =>
      obtain ⟨⟨p₁, es₁⟩, hx, hrest⟩ := Option.bind_eq_some_iff.mp hrun
      obtain ⟨⟨p₂, es₂⟩, hy, heq⟩ := Option.map_eq_some_iff.mp hrest
      obtain ⟨rfl, rfl⟩ := Prod.mk.inj heq
      obtain ⟨herr₁, herr₂⟩ := noSyntaxError_append.mp herr
      obtain ⟨q₁, hq₁, hsame⟩ := parse_same hx h herr₁
      suffices hq : ∃ q', run G depth ts q₁ = some (q', es₂) by
        obtain ⟨q', hq'⟩ := hq
        refine ⟨q', ?_⟩
        rw [run, hq₁, Option.bind_some, hq']
        rfl
      rw [List.length_cons] at hlen
      cases n with
      | zero =>
          obtain rfl := List.length_eq_zero_iff.mp (Nat.le_zero.mp (Nat.le_of_succ_le_succ hlen))
          obtain ⟨-, rfl⟩ := Prod.mk.inj (Option.some.inj hy)
          exact ⟨q₁, rfl⟩
      | succ n => exact ih hy (hsame n rfl) (Nat.le_of_succ_le_succ hlen) herr₂

/-- **What is accepted depends on the stack alone**, while errors are reported. -/
theorem acceptsFrom_of_same {depth : Option Nat} {xs : List (τ × V)} {v : V} {p q : Parser τ ν σ ρ V}
    (h : Same xs.length p q) (hp : AcceptsFrom G depth p xs v) : AcceptsFrom G depth q xs v := by
  obtain ⟨p', es, hrun, hacc, herr⟩ := hp
  obtain ⟨q', hq'⟩ := run_same hrun h (by simp [feed]) herr
  exact ⟨q', es, hq', hacc, herr⟩

/-- What is read, too. -/
theorem readsFrom_of_same {depth : Option Nat} {xs : List (τ × V)} {p q : Parser τ ν σ ρ V}
    (h : Same xs.length p q) (hp : ReadsFrom G depth p xs) : ReadsFrom G depth q xs := by
  obtain ⟨p', es, hrun, herr⟩ := hp
  obtain ⟨q', hq'⟩ := run_same hrun h (by simp [feed]) herr
  exact ⟨q', es, hq', herr⟩

theorem Same.symm {n : Nat} {p q : Parser τ ν σ ρ V} (h : Same n p q) : Same n q p :=
  ⟨h.stack.symm, h.right, h.left⟩

theorem run_append_single {depth : Option Nat} {xs : List (τ × V)} {x : τ × V} {p p' : Parser τ ν σ ρ V}
    {es : List (Event τ ω)} (h : run G depth (feed (xs ++ [x])) p = some (p', es)) :
    ∃ p₁ es₁ es₂, run G depth (feed xs) p = some (p₁, es₁) ∧
      parse G depth (some x.1) x.2 p₁ = some (p', es₂) ∧ es = es₁ ++ es₂ := by
  rw [show feed (xs ++ [x]) = feed xs ++ [(some x.1, x.2)] from List.map_append, run_append] at h
  obtain ⟨⟨p₁, es₁⟩, h₁, hrest⟩ := Option.bind_eq_some_iff.mp h
  obtain ⟨⟨p₂, es₂⟩, h₂, heq⟩ := Option.map_eq_some_iff.mp hrest
  obtain ⟨rfl, rfl⟩ := Prod.mk.inj heq
  obtain ⟨⟨p₃, es₃⟩, h₃, hnil⟩ := Option.bind_eq_some_iff.mp h₂
  obtain ⟨rfl, rfl⟩ := Prod.mk.inj (Option.some.inj hnil)
  exact ⟨p₁, es₁, es₃, h₁, h₃, by rw [List.append_nil]⟩

/-- On a stack that grows on demand, the tokens are read without a syntax error. -/
def ReadsAll (G : Generated τ ν σ ρ V ω) (xs : List (τ × V)) : Prop :=
  ∃ p es, run G none (feed xs) init = some (p, es) ∧ NoSyntaxError es

/-- With as many entries as the tokens need, acceptance is that of a stack that grows on demand. -/
theorem accepts_iff_of_entriesNeeded [Fintype ρ] [DecidableEq τ] [DecidableEq ν] {start : ν}
    (hsound : Sound G start) (hne : ∀ r, G.rhs r ≠ []) {xs : List (τ × V)} {v : V} {d : Nat}
    (hd : entriesNeeded G (feed xs) ≤ d) : Accepts G (some d) xs v ↔ Accepts G none xs v := by
  obtain ⟨p₁, es₁, h₁⟩ := @run_total _ _ _ _ _ _ G _ _ _ start hsound none (feed xs) init .nil
  obtain ⟨p₂, es₂, h₂, -⟩ := @parse_total _ _ _ _ _ _ G _ _ _ start hsound none none v p₁
    (run_steady hsound xs (steady_nil rfl) h₁).1.1
  have hpeak : p₂.peak = p₁.peak := peak_parse_end hne h₂ (peaked_run _ (Nat.zero_le _) h₁)
  have hlt : p₂.peak < d := by
    unfold entriesNeeded at hd
    rw [h₁] at hd
    rw [hpeak]
    exact hd
  have hrun : run G none (feed xs ++ [(none, v)]) init = some (p₂, es₁ ++ es₂) := by
    rw [run_append, h₁, Option.bind_some, run, h₂, Option.bind_some]
    simp [run]
  unfold Accepts AcceptsFrom
  rw [hrun, (run_depth _ hrun).2 d hlt]

/-- A list that comes to a value above `d` has a first element that does. -/
theorem exists_crossing {β : Type} (f : List β → Nat) {d : Nat} (h : f [] ≤ d) (w : List β) (hw : d < f w) :
    ∃ u a v, w = u ++ a :: v ∧ f u ≤ d ∧ d < f (u ++ [a]) := by
  induction w generalizing f with
  | nil => exact absurd hw (Nat.not_lt.mpr h)
  | cons b w ih =>
      by_cases hb : d < f [b]
      · exact ⟨[], b, w, rfl, h, hb⟩
      · obtain ⟨u, a, v, rfl, hu, ha⟩ := ih (fun l => f (b :: l)) (Nat.le_of_not_lt hb) hw
        exact ⟨b :: u, a, v, rfl, hu, ha⟩

/-- With as many entries as the tokens need, they are read as on a stack that grows on demand. -/
theorem reads_iff_of_entriesNeeded [Fintype ρ] [DecidableEq τ] [DecidableEq ν] {start : ν} (hsound : Sound G start)
    {xs : List (τ × V)} {d : Nat} (hd : entriesNeeded G (feed xs) ≤ d) :
    ReadsFrom G (some d) init xs ↔ ReadsAll G xs := by
  obtain ⟨p, es, h⟩ := @run_total _ _ _ _ _ _ G _ _ _ start hsound none (feed xs) init .nil
  unfold ReadsFrom ReadsAll
  rw [h, run_of_entriesNeeded h hd]

/-- **A run over an overflow**: the events `es` of the tokens in front and `fs` of the one that is lost, and a parser `q`
    that goes on as from the start. -/
structure Overflows (G : Generated τ ν σ ρ V ω) (d : Nat) (xs : List (τ × V)) (x : τ × V) (es fs : List (Event τ ω))
    (q : Parser τ ν σ ρ V) : Prop where
  run    : ∀ ts, Lemon.run G (some d) (feed xs ++ (some x.1, x.2) :: ts) init =
    (Lemon.run G (some d) ts q).map (fun y => (y.1, (es ++ fs) ++ y.2))
  reads  : ReadsAll G (xs ++ [x]) ↔ NoSyntaxError es
  errors : NoSyntaxError fs
  accept : Event.parseAccept ∉ es ++ fs
  same   : NoSyntaxError es → ∀ n, xs.length + (n + 1) < 2147483648 → Same n q init

theorem overflows [Fintype ρ] [DecidableEq τ] [DecidableEq ν] {start : ν} (hsound : Sound G start)
    (hne : ∀ r, G.rhs r ≠ []) {xs : List (τ × V)} {x : τ × V} {d : Nat} (hxs : entriesNeeded G (feed xs) ≤ d)
    (hx : d < entriesNeeded G (feed (xs ++ [x]))) : ∃ es fs q, Overflows G d xs x es fs q := by
  -- the run up to the overflow, without and with the bound
  obtain ⟨p₂, es, hrun, hpeak₂⟩ : ∃ p₂ es, run G none (feed (xs ++ [x])) init = some (p₂, es) ∧ d ≤ p₂.peak := by
    unfold entriesNeeded at hx
    cases hrun : run G none (feed (xs ++ [x])) init with
    | none =>
        rw [hrun] at hx
        exact absurd hx (Nat.not_lt_zero d)
    | some y =>
        rw [hrun] at hx
        exact ⟨y.1, y.2, rfl, Nat.le_of_lt_succ hx⟩
  obtain ⟨p₁, es₁, es₂, h₁, h₂, rfl⟩ := run_append_single hrun
  have hpeak₁ : p₁.peak < d := by
    unfold entriesNeeded at hxs
    rw [h₁] at hxs
    exact hxs
  have hpeaked : Peaked p₁ := peaked_run _ (Nat.zero_le _) h₁
  obtain ⟨herr₂, q, fs, hq, hstack, hcnt, herrq⟩ := parse_overflow hne h₂ hpeaked hpeak₁ hpeak₂
  have h₁' := (run_depth (feed xs) h₁).2 d hpeak₁
  have hsteady₁ := run_steady hsound xs (steady_nil rfl) h₁
  have hsteadyq := parse_steady hsound hsteady₁.1 hq
  refine ⟨es₁, fs, q, ?_, ?_, herrq, ?_, ?_⟩
  · intro ts
    rw [run_append, h₁', Option.bind_some, Lemon.run, hq, Option.bind_some, Option.map_map]
    congr 1
    funext y
    exact congrArg (Prod.mk y.1) (List.append_assoc es₁ fs y.2).symm
  · constructor
    · rintro ⟨p', es', hrun', herr⟩
      obtain ⟨rfl, rfl⟩ := Prod.mk.inj (Option.some.inj (hrun.symm.trans hrun'))
      exact (noSyntaxError_append.mp herr).1
    · intro herr
      exact ⟨p₂, _, hrun, noSyntaxError_append.mpr ⟨herr, herr₂⟩⟩
  · intro hmem
    exact (List.mem_append.mp hmem).elim hsteady₁.2 hsteadyq.2
  · -- `q` and the initial parser report errors for as long
    intro herr n hlen
    have hcnt₁ := (@run_yields _ _ _ _ _ _ _ _ _ _ _ hsound xs _ _ _ [] h₁ (steady_nil rfl) .nil (n + 1)
      (reports_init hlen) herr).2
    exact ⟨hstack, hcnt₁.pred hcnt, reports_init (by omega)⟩

/-- **After an overflow the rest is parsed from the start**: the tokens up to the one that overflows the stack
    must be read without an error, and what follows decides alone. -/
theorem accepts_overflow [Fintype ρ] [DecidableEq τ] [DecidableEq ν] {start : ν} (hsound : Sound G start)
    (hne : ∀ r, G.rhs r ≠ []) {xs ys : List (τ × V)} {x : τ × V} {v : V} {d : Nat}
    (hxs : entriesNeeded G (feed xs) ≤ d) (hx : d < entriesNeeded G (feed (xs ++ [x])))
    (hlen : (xs ++ x :: ys).length < 2147483648) :
    Accepts G (some d) (xs ++ x :: ys) v ↔ ReadsAll G (xs ++ [x]) ∧ Accepts G (some d) ys v := by
  obtain ⟨es, fs, q, h⟩ := overflows hsound hne hxs hx
  rw [List.length_append, List.length_cons] at hlen
  have hwhole : run G (some d) (feed (xs ++ x :: ys) ++ [(none, v)]) init
      = (run G (some d) (feed ys ++ [(none, v)]) q).map (fun y => (y.1, (es ++ fs) ++ y.2)) := by
    rw [← h.run]
    simp [feed]
  rw [h.reads]
  constructor
  · rintro ⟨p', gs, hacc, hmem, herr⟩
    rw [hwhole] at hacc
    obtain ⟨⟨p₃, es₃⟩, h₃, heq⟩ := Option.map_eq_some_iff.mp hacc
    obtain ⟨rfl, rfl⟩ := Prod.mk.inj heq
    obtain ⟨herr₁, herr₃⟩ := noSyntaxError_append.mp herr
    have herres := (noSyntaxError_append.mp herr₁).1
    refine ⟨herres, acceptsFrom_of_same (h.same herres _ hlen) ?_⟩
    exact ⟨p₃, es₃, h₃, (List.mem_append.mp hmem).resolve_left h.accept, herr₃⟩
  · rintro ⟨herres, hys⟩
    obtain ⟨p₃, es₃, h₃, hmem, herr₃⟩ := acceptsFrom_of_same (h.same herres _ hlen).symm hys
    refine ⟨p₃, (es ++ fs) ++ es₃, by rw [hwhole, h₃]; rfl, List.mem_append_right _ hmem, ?_⟩
    exact noSyntaxError_append.mpr ⟨noSyntaxError_append.mpr ⟨herres, h.errors⟩, herr₃⟩

/-- The same of what is read. -/
theorem reads_overflow [Fintype ρ] [DecidableEq τ] [DecidableEq ν] {start : ν} (hsound : Sound G start)
    (hne : ∀ r, G.rhs r ≠ []) {xs ys : List (τ × V)} {x : τ × V} {d : Nat}
    (hxs : entriesNeeded G (feed xs) ≤ d) (hx : d < entriesNeeded G (feed (xs ++ [x])))
    (hlen : (xs ++ x :: ys).length < 2147483648) :
    ReadsFrom G (some d) init (xs ++ x :: ys) ↔ ReadsAll G (xs ++ [x]) ∧ ReadsFrom G (some d) init ys := by
  obtain ⟨es, fs, q, h⟩ := overflows hsound hne hxs hx
  rw [List.length_append, List.length_cons] at hlen
  have hwhole : run G (some d) (feed (xs ++ x :: ys)) init
      = (run G (some d) (feed ys) q).map (fun y => (y.1, (es ++ fs) ++ y.2)) := by
    rw [← h.run]
    simp [feed]
  rw [h.reads]
  constructor
  · rintro ⟨p', gs, hread, herr⟩
    rw [hwhole] at hread
    obtain ⟨⟨p₃, es₃⟩, h₃, heq⟩ := Option.map_eq_some_iff.mp hread
    obtain ⟨rfl, rfl⟩ := Prod.mk.inj heq
    obtain ⟨herr₁, herr₃⟩ := noSyntaxError_append.mp herr
    have herres := (noSyntaxError_append.mp herr₁).1
    exact ⟨herres, readsFrom_of_same (h.same herres _ hlen) ⟨p₃, es₃, h₃, herr₃⟩⟩
  · rintro ⟨herres, hys⟩
    obtain ⟨p₃, es₃, h₃, herr₃⟩ := readsFrom_of_same (h.same herres _ hlen).symm hys
    refine ⟨p₃, (es ++ fs) ++ es₃, by rw [hwhole, h₃]; rfl, ?_⟩
    exact noSyntaxError_append.mpr ⟨noSyntaxError_append.mpr ⟨herres, h.errors⟩, herr₃⟩

end Lemon
end CSamples
