import CSamples.Tokenizer.Parser

/-!
# `Tokenizer.Language` — the JSON parser accepts the JSON grammar

On a stack that grows on demand the parser accepts, without a syntax error, the sequences that the grammar
derives. The lists of the grammar are right recursive, so that the stack holds all elements of an open array:
with its 100 entries the parser loses the token that does not fit and everything before it, and starts
again behind it.

## Contents
- `sound`: every entry of a stack lies on the entries it must lie on (`Back`), so that a stack spells the
  tokens read.
- `handles`: every derivation of a nonterminal is read and reduced, in every state that awaits it.
- `extend`, `completable`: every stack can be completed, so that errors are reported as soon as they can be.
- `accepted_iff`: acceptance with 100 entries. `accepted_not_fifty`: a derivable sequence that is not
  accepted.
- `Document`, `Viable`: what is accepted and what is read without an error, by the grammar and the entries needed.
-/

namespace CSamples
namespace Tokenizer

open Grammar Lemon

abbrev Entry := Lemon.Entry Terminal NonTerminal State Rule Unit
abbrev LR := Lemon.Parser Terminal NonTerminal State Rule Unit

/-! ## What an entry lies on -/

/-- The symbols that count as a value. -/
def IsValue (x : NonTerminal) : Prop := x = .value ∨ x = .array ∨ x = .object

/-- A state that has a goto for `x`. -/
def Awaits (x : NonTerminal) (e : StateNo State Rule) : Prop := ∃ q s, e = .state q ∧ goto q x = some s

/-- The symbol of an entry and the state below it, by its state. -/
def Back : StateNo State Rule → Symbol Terminal NonTerminal → StateNo State Rule → Prop
  | .state .start, _, _      => False
  | .state .lines, x, e      =>
      (x = .nonterminal .lines ∨ x = .nonterminal .array ∨ x = .nonterminal .object) ∧ Awaits .input e
  | .state .aBegin, x, e     => x = .terminal .aBegin ∧ Awaits .array e
  | .state .elements, x, e   => x = .nonterminal .elements ∧ e = .state .aBegin
  | .state .value, x, e      => (∃ y, IsValue y ∧ x = .nonterminal y) ∧ Awaits .elements e
  | .state .valueComma, x, e => x = .terminal .comma ∧ e = .state .value
  | .state .oBegin, x, e     => x = .terminal .oBegin ∧ Awaits .object e
  | .state .members, x, e    => x = .nonterminal .members ∧ e = .state .oBegin
  | .state .pair, x, e       => x = .nonterminal .pair ∧ Awaits .members e
  | .state .pairComma, x, e  => x = .terminal .comma ∧ e = .state .pair
  | .state .string, x, e     => x = .terminal .string ∧ Awaits .pair e
  | .state .colon, x, e      => x = .terminal .colon ∧ e = .state .string
  | .reduce .arrayEmpty, x, e  => x = .terminal .aEnd ∧ e = .state .aBegin
  | .reduce .array, x, e       => x = .terminal .aEnd ∧ e = .state .elements
  | .reduce .objectEmpty, x, e => x = .terminal .oEnd ∧ e = .state .oBegin
  | .reduce .object, x, e      => x = .terminal .oEnd ∧ e = .state .members
  | .reduce .elements, x, e    => x = .nonterminal .elements ∧ e = .state .valueComma
  | .reduce .members, x, e     => x = .nonterminal .members ∧ e = .state .pairComma
  | .reduce .pair, x, e        => (∃ y, IsValue y ∧ x = .nonterminal y) ∧ e = .state .colon
  | .reduce (.scalar c), x, e  => x = .terminal c.terminal ∧ Awaits .value e
  | .reduce _, _, _            => False
  | .accept, x, e              => x = .nonterminal .input ∧ e = .state .start

theorem back_of_goto {q : State} {x : NonTerminal} {s : StateNo State Rule} (h : goto q x = some s) :
    Back s (.nonterminal x) (.state q) := by
  unfold goto at h
  split at h <;> cases h <;> simp [Back, IsValue, Awaits, goto]

theorem back_of_shift {q q' : State} {a : Terminal} (h : action q (some a) = .shift q') :
    Back (.state q') (.terminal a) (.state q) := by
  cases q <;> cases a <;> cases h <;> simp [Back, Awaits, goto]

theorem back_of_shiftReduce {q : State} {r : Rule} {a : Terminal} (h : action q (some a) = .shiftReduce r) :
    Back (.reduce r) (.terminal a) (.state q) := by
  cases q <;> cases a <;> cases h <;> simp [Back, Awaits, goto, Scalar.terminal]

/-- Every entry lies on what it must lie on. -/
theorem back_of_enters {e : StateNo State Rule} {x : Entry} (h : Enters parser e x) :
    Back x.stateno x.major e := by
  obtain ⟨s, x, v⟩ := x
  cases x with
  | nonterminal y =>
      obtain ⟨q, rfl, hgoto⟩ := h
      exact back_of_goto hgoto
  | terminal a =>
      cases e with
      | state q =>
          cases s with
          | state q' => exact back_of_shift h
          | reduce r => exact back_of_shiftReduce h
          | accept => exact h.elim
      | reduce r => cases s <;> exact nomatch h
      | accept => cases s <;> exact nomatch h

/-- The top entry of a stack whose top state is not the initial one. -/
theorem peel {S : List Entry} {s : StateNo State Rule} (h : Linked parser S) (hs : top parser S = s)
    (hne : s ≠ .state .start) :
    ∃ x S', S = x :: S' ∧ Linked parser S' ∧ Back s x.major (top parser S') := by
  cases h with
  | nil => exact absurd hs.symm hne
  | @cons x S' hx h =>
      have hback := back_of_enters hx
      rw [show x.stateno = s from hs] at hback
      exact ⟨x, S', rfl, h, hback⟩

/-! ## Soundness -/

theorem covers_rule {r : Rule} {x : NonTerminal} (hr : rhs r = [.nonterminal x]) :
    Covers grammar (.nonterminal (lhs r)) (.nonterminal x) := by
  intro w hw
  have hmem : (⟨lhs r, rhs r⟩ : ContextFreeRule Terminal NonTerminal) ∈ grammar.rules :=
    Finset.mem_image_of_mem _ (Finset.mem_univ r)
  rw [← hr] at hw
  exact Yields.rule hmem hw

theorem covers_value {x : NonTerminal} (hx : IsValue x) : Covers grammar (.nonterminal .value) (.nonterminal x) := by
  rcases hx with rfl | rfl | rfl
  · exact covers_refl _ _
  · exact @covers_rule .valueArray .array rfl
  · exact @covers_rule .valueObject .object rfl

/-- The entries on top of a stack hold what `l` covers, and lie on a state that awaits `x`. -/
def Fits (l : List (Symbol Terminal NonTerminal)) (x : NonTerminal) (S : List Entry) : Prop :=
  List.Forall₂ (Covers grammar) l (majors (S.take l.length)) ∧ Awaits x (top parser (S.drop l.length))

/-- One entry. -/
theorem fits_one {S : List Entry} {s : StateNo State Rule} {a : Symbol Terminal NonTerminal} {y : NonTerminal}
    (h : Linked parser S) (hs : top parser S = s) (hne : s ≠ .state .start)
    (ha : ∀ x e, Back s x e → Covers grammar a x ∧ Awaits y e) : Fits [a] y S := by
  obtain ⟨x, S', rfl, -, hx⟩ := peel h hs hne
  exact ⟨.cons (ha _ _ hx).1 .nil, (ha _ _ hx).2⟩

/-- An entry more. -/
theorem fits_concat (l : List (Symbol Terminal NonTerminal)) (s' : StateNo State Rule) {S : List Entry}
    {s : StateNo State Rule} {b : Symbol Terminal NonTerminal} {y : NonTerminal} (h : Linked parser S)
    (hs : top parser S = s) (hne : s ≠ .state .start) (hb : ∀ x e, Back s x e → Covers grammar b x ∧ e = s')
    (hl : ∀ S', Linked parser S' → top parser S' = s' → Fits l y S') : Fits (l ++ [b]) y S := by
  obtain ⟨x, S', rfl, hlink, hx⟩ := peel h hs hne
  obtain ⟨hcov, htop⟩ := hb _ _ hx
  obtain ⟨hrest, hawait⟩ := hl S' hlink htop
  have hlen : (l ++ [b]).length = l.length + 1 := by rw [List.length_append]; rfl
  unfold Fits
  rw [hlen, List.take_succ_cons, List.drop_succ_cons,
    show majors (x :: S'.take l.length) = majors (S'.take l.length) ++ [x.major] from List.reverse_cons]
  exact ⟨List.rel_append hrest (.cons hcov .nil), hawait⟩

/-- A stack from which a rule is reduced holds what its right-hand side covers, on a state that awaits its
    left-hand side. -/
theorem fits {S : List Entry} {t : Option Terminal} {r : Rule} (h : Linked parser S)
    (hfind : findShiftAction parser t (top parser S) = .reduce r) : Fits (rhs r) (lhs r) S := by
  have hrefl : ∀ {a x : Symbol Terminal NonTerminal} {P : Prop}, x = a ∧ P → Covers grammar a x ∧ P := by
    rintro a x P ⟨rfl, hP⟩
    exact ⟨covers_refl _ _, hP⟩
  have haBegin : ∀ S', Linked parser S' → top parser S' = .state .aBegin → Fits [.terminal .aBegin] .array S' :=
    fun S' hl hs => fits_one hl hs nofun (fun x e hx => hrefl hx)
  have hoBegin : ∀ S', Linked parser S' → top parser S' = .state .oBegin → Fits [.terminal .oBegin] .object S' :=
    fun S' hl hs => fits_one hl hs nofun (fun x e hx => hrefl hx)
  have hvalue : ∀ S', Linked parser S' → top parser S' = .state .value → Fits [.nonterminal .value] .elements S' := by
    intro S' hl hs
    refine fits_one hl hs nofun ?_
    rintro x e ⟨⟨y, hy, rfl⟩, he⟩
    exact ⟨covers_value hy, he⟩
  have hpair : ∀ S', Linked parser S' → top parser S' = .state .pair → Fits [.nonterminal .pair] .members S' :=
    fun S' hl hs => fits_one hl hs nofun (fun x e hx => hrefl hx)
  cases htop : top parser S with
  | accept =>
      rw [htop] at hfind
      exact nomatch hfind
  | state q =>
      rw [htop] at hfind
      rcases state_of_reduce hfind with ⟨rfl, -, rfl⟩ | ⟨rfl, -, rfl⟩ | ⟨rfl, -, rfl⟩
      · refine fits_one h htop nofun ?_
        rintro x e ⟨rfl | rfl | rfl, he⟩
        · exact ⟨covers_refl _ _, he⟩
        · exact ⟨@covers_rule .linesArray .array rfl, he⟩
        · exact ⟨@covers_rule .linesObject .object rfl, he⟩
      · exact hvalue S h htop
      · exact hpair S h htop
  | reduce r' =>
      rw [htop] at hfind
      obtain rfl : r' = r := Action.reduce.inj hfind
      cases r' with
      | arrayEmpty => exact fits_concat [_] (.state .aBegin) h htop nofun (fun x e hx => hrefl hx) haBegin
      | objectEmpty => exact fits_concat [_] (.state .oBegin) h htop nofun (fun x e hx => hrefl hx) hoBegin
      | array =>
          refine fits_concat [_, _] (.state .elements) h htop nofun (fun x e hx => hrefl hx) (fun S' hl hs => ?_)
          exact fits_concat [_] (.state .aBegin) hl hs nofun (fun x e hx => hrefl hx) haBegin
      | object =>
          refine fits_concat [_, _] (.state .members) h htop nofun (fun x e hx => hrefl hx) (fun S' hl hs => ?_)
          exact fits_concat [_] (.state .oBegin) hl hs nofun (fun x e hx => hrefl hx) hoBegin
      | elements =>
          refine fits_concat [_, _] (.state .valueComma) h htop nofun (fun x e hx => hrefl hx) (fun S' hl hs => ?_)
          exact fits_concat [_] (.state .value) hl hs nofun (fun x e hx => hrefl hx) hvalue
      | members =>
          refine fits_concat [_, _] (.state .pairComma) h htop nofun (fun x e hx => hrefl hx) (fun S' hl hs => ?_)
          exact fits_concat [_] (.state .pair) hl hs nofun (fun x e hx => hrefl hx) hpair
      | pair =>
          refine fits_concat [_, _] (.state .colon) h htop nofun ?_ (fun S' hl hs => ?_)
          · rintro x e ⟨⟨y, hy, rfl⟩, he⟩
            exact ⟨covers_value hy, he⟩
          · refine fits_concat [_] (.state .string) hl hs nofun (fun x e hx => hrefl hx) (fun S'' hl hs => ?_)
            exact fits_one hl hs nofun (fun x e hx => hrefl hx)
      | scalar c => exact fits_one h htop nofun (fun x e hx => hrefl hx)
      | input | linesArray | linesObject | membersLast | elementsLast | valueObject | valueArray =>
          obtain ⟨x, S', -, -, hx⟩ := peel h htop nofun
          exact hx.elim

/-- **The tables are sound.** -/
theorem sound : Sound parser .input where
  noAccept := action_ne_accept
  fits     := by
    intro S t r h hfind
    obtain ⟨hcov, q, s, htop, hgoto⟩ := fits h hfind
    exact ⟨hcov, q, s, htop, hgoto⟩
  atEnd    := by
    intro e s
    cases e with
    | state q => cases s <;> cases q <;> exact nofun
    | reduce r => cases s <;> exact nofun
    | accept => cases s <;> exact nofun
  early    := by
    intro S a r q h hfind hgoto
    -- the rule of the start symbol is reduced in front of the end marker only
    have hr : r = .input := by
      cases r <;> first | rfl | (cases q <;> exact nomatch hgoto)
    subst hr
    cases htop : top parser S with
    | accept =>
        rw [htop] at hfind
        exact nomatch hfind
    | state q =>
        rw [htop] at hfind
        rcases state_of_reduce hfind with ⟨-, ht, -⟩ | ⟨-, -, hr⟩ | ⟨-, -, hr⟩
        · exact nomatch ht
        · exact nomatch hr
        · exact nomatch hr
    | reduce r' =>
        rw [htop] at hfind
        obtain rfl : r' = .input := Action.reduce.inj hfind
        obtain ⟨x, S', -, -, hx⟩ := peel h htop nofun
        exact hx.elim
  final    := by
    intro S h htop
    obtain ⟨x, S', rfl, hl, hx, hstart⟩ := peel h htop nofun
    cases hl with
    | nil => exact congrArg (fun y => [y]) hx
    | @cons y S'' hy _ =>
        have hback := back_of_enters hy
        rw [show y.stateno = _ from hstart] at hback
        exact hback.elim

/-! ## Completeness -/

/-- Tokens as the parser is given them. -/
def toks (w : List Terminal) : List (Terminal × Unit) := w.map (fun a => (a, ()))

theorem toks_append (u w : List Terminal) : toks (u ++ w) = toks u ++ toks w := List.map_append

/-- The tokens in front of which a nonterminal is reduced. -/
def Follows : NonTerminal → Option Terminal → Prop
  | .input, t    => t = none
  | .elements, t => t ≠ some .comma
  | .members, t  => t ≠ some .comma
  | _, _         => True

/-- In every state that awaits `x`, the tokens `u` are read and reduced to it, or to what the tables take
    for it. -/
def Handles (x : NonTerminal) (u : List Terminal) : Prop :=
  ∀ p w S q s, Arrives parser p (toks w) (fun _ => True) S → top parser S = .state q → goto q x = some s →
    ∃ y, Arrives parser p (toks (w ++ u)) (Follows x) (⟨s, .nonterminal y, ()⟩ :: S)

variable {p : LR} {w : List Terminal} {F : Option Terminal → Prop} {S : List Entry}

theorem shift_tok (h : Arrives parser p (toks w) F S) {a : Terminal} {s : StateNo State Rule} (ha : F (some a))
    (hs : Shifts parser (some a) (top parser S) s) (F' : Option Terminal → Prop) :
    Arrives parser p (toks (w ++ [a])) F' (⟨s, .terminal a, ()⟩ :: S) := by
  rw [toks_append]
  exact h.shift (a, ()) ha hs F'

/-- The same from a state that shifts the token, for any lookahead. -/
theorem shift_at {q : State} (h : Arrives parser p (toks w) (fun _ => True) S) (htop : top parser S = .state q)
    {a : Terminal} {s : State} (hact : action q (some a) = .shift s) :
    Arrives parser p (toks (w ++ [a])) (fun _ => True) (⟨.state s, .terminal a, ()⟩ :: S) := by
  refine shift_tok h trivial ?_ _
  rw [htop]
  exact hact

/-- The states that await a value. -/
theorem awaits_value {q : State} {s : StateNo State Rule} (h : goto q .value = some s) :
    goto q .array = some s ∧ goto q .object = some s ∧
      ∀ c : Scalar, action q (some c.terminal) = .shiftReduce (.scalar c) := by
  cases q <;> cases h <;> exact ⟨rfl, rfl, fun c => by cases c <;> rfl⟩

theorem awaits_array {q : State} {s : StateNo State Rule} (h : goto q .array = some s) :
    action q (some .aBegin) = .shift .aBegin := by
  cases q <;> cases h <;> rfl

theorem awaits_object {q : State} {s : StateNo State Rule} (h : goto q .object = some s) :
    action q (some .oBegin) = .shift .oBegin := by
  cases q <;> cases h <;> rfl

theorem awaits_pair {q : State} {s : StateNo State Rule} (h : goto q .pair = some s) :
    action q (some .string) = .shift .string ∧ s = .state .pair := by
  cases q <;> cases h <;> exact ⟨rfl, rfl⟩

theorem awaits_elements {q : State} {s : StateNo State Rule} (h : goto q .elements = some s) :
    goto q .value = some (.state .value) := by
  cases q <;> cases h <;> rfl

theorem awaits_members {q : State} {s : StateNo State Rule} (h : goto q .members = some s) :
    goto q .pair = some (.state .pair) := by
  cases q <;> cases h <;> rfl

theorem awaits_lines {q : State} {s : StateNo State Rule} (h : goto q .lines = some s) :
    goto q .array = some s ∧ goto q .object = some s := by
  cases q <;> cases h
  exact ⟨rfl, rfl⟩

theorem awaits_input {q : State} {s : StateNo State Rule} (h : goto q .input = some s) :
    goto q .lines = some (.state .lines) := by
  cases q <;> cases h
  rfl

theorem elementsLast_of_ne {t : Option Terminal} (h : t ≠ some .comma) : action .value t = .reduce .elementsLast := by
  match t with
  | none => rfl
  | some .comma => exact absurd rfl h
  | some .oBegin | some .oEnd | some .string | some .colon | some .aBegin | some .aEnd | some .number
  | some .true | some .false | some .null => rfl

theorem membersLast_of_ne {t : Option Terminal} (h : t ≠ some .comma) : action .pair t = .reduce .membersLast := by
  match t with
  | none => rfl
  | some .comma => exact absurd rfl h
  | some .oBegin | some .oEnd | some .string | some .colon | some .aBegin | some .aEnd | some .number
  | some .true | some .false | some .null => rfl

/-- A rule whose last symbol was just shifted or reduced and that is reduced for every lookahead. -/
theorem reduce_pending {r : Rule} {popped : List Entry} {q : State} {s : StateNo State Rule}
    (h : Arrives parser p (toks w) F (popped ++ S)) (hpop : top parser (popped ++ S) = .reduce r)
    (hlen : popped.length = (rhs r).length) (htop : top parser S = .state q) (hgoto : goto q (lhs r) = some s) :
    Arrives parser p (toks w) F (⟨s, .nonterminal (lhs r), ()⟩ :: S) :=
  h.reduce r popped hlen (fun t ht => ⟨ht, by rw [hpop]; rfl⟩) htop hgoto

section Rules

variable {r : Rule} {u : List Terminal}

/-- A rule of two brackets. -/
theorem handles_empty {o c : Terminal} {so : State} (hrhs : rhs r = [.terminal o, .terminal c])
    (hopen : ∀ {q s}, goto q (lhs r) = some s → action q (some o) = .shift so)
    (hclose : action so (some c) = .shiftReduce r) (h : Parts Handles (rhs r) u) : Handles (lhs r) u := by
  intro p w S q s harr htop hgoto
  have hlen : (rhs r).length = 2 := congrArg List.length hrhs
  rw [hrhs] at h
  cases h with
  | terminal a h =>
  cases h with
  | terminal b h =>
      cases h
      have h₁ := shift_at harr htop (hopen hgoto)
      have h₂ := @shift_tok p _ _ _ h₁ c (.reduce r) trivial hclose (Follows (lhs r))
      rw [List.append_assoc] at h₂
      exact ⟨lhs r, @reduce_pending p _ _ S r [_, _] q s h₂ rfl hlen.symm htop hgoto⟩

/-- A rule of brackets around a nonterminal. -/
theorem handles_around {o c : Terminal} {x : NonTerminal} {so sx : State}
    (hrhs : rhs r = [.terminal o, .nonterminal x, .terminal c])
    (hopen : ∀ {q s}, goto q (lhs r) = some s → action q (some o) = .shift so)
    (hinside : goto so x = some (.state sx)) (hfollows : Follows x (some c))
    (hclose : action sx (some c) = .shiftReduce r) (h : Parts Handles (rhs r) u) : Handles (lhs r) u := by
  intro p w S q s harr htop hgoto
  have hlen : (rhs r).length = 3 := congrArg List.length hrhs
  rw [hrhs] at h
  cases h with
  | terminal a h =>
  cases h with
  | nonterminal hu h =>
  cases h with
  | terminal b h =>
      cases h
      have h₁ := shift_at harr htop (hopen hgoto)
      obtain ⟨y, h₂⟩ := hu p _ _ so (.state sx) h₁ rfl hinside
      have h₃ := @shift_tok p _ _ _ h₂ c (.reduce r) hfollows hclose (Follows (lhs r))
      rw [List.append_assoc, List.append_assoc] at h₃
      exact ⟨lhs r, @reduce_pending p _ _ S r [_, _, _] q s h₃ rfl hlen.symm htop hgoto⟩

/-- A rule of a list with a separator: the rest of the list is read on top of its head. -/
theorem handles_list {c : Terminal} {x : NonTerminal} {sx sc : State}
    (hrhs : rhs r = [.nonterminal x, .terminal c, .nonterminal (lhs r)])
    (hhead : ∀ {q s}, goto q (lhs r) = some s → goto q x = some (.state sx)) (hfollows : Follows x (some c))
    (hsep : action sx (some c) = .shift sc) (hrest : goto sc (lhs r) = some (.reduce r))
    (h : Parts Handles (rhs r) u) : Handles (lhs r) u := by
  intro p w S q s harr htop hgoto
  have hlen : (rhs r).length = 3 := congrArg List.length hrhs
  rw [hrhs] at h
  cases h with
  | nonterminal hu h =>
  cases h with
  | terminal b h =>
      have hv := h.single
      obtain ⟨y, h₁⟩ := hu p w S q (.state sx) harr htop (hhead hgoto)
      have h₂ := @shift_tok p _ _ _ h₁ c (.state sc) hfollows hsep (fun _ => True)
      obtain ⟨z, h₃⟩ := hv p _ _ sc (.reduce r) h₂ rfl hrest
      rw [List.append_assoc, List.append_assoc] at h₃
      exact ⟨lhs r, @reduce_pending p _ _ S r [_, _, _] q s h₃ rfl hlen.symm htop hgoto⟩

/-- A rule of one nonterminal that is reduced in front of what follows its left-hand side. -/
theorem handles_unit {x : NonTerminal} {sx : State} (hrhs : rhs r = [.nonterminal x])
    (hinner : ∀ {q s}, goto q (lhs r) = some s → goto q x = some (.state sx))
    (hreduce : ∀ t, Follows (lhs r) t → Follows x t ∧ action sx t = .reduce r) (h : Parts Handles (rhs r) u) :
    Handles (lhs r) u := by
  intro p w S q s harr htop hgoto
  have hlen : (rhs r).length = 1 := congrArg List.length hrhs
  rw [hrhs] at h
  have hu := h.single
  obtain ⟨y, h₁⟩ := hu p w S q (.state sx) harr htop (hinner hgoto)
  exact ⟨lhs r, @Arrives.reduce _ _ _ _ _ _ parser r [_] p _ _ _ S q s h₁ hlen.symm hreduce htop hgoto⟩

end Rules

/-- **Every rule is handled** when its right-hand side's nonterminals are. -/
theorem handles_rule (r : Rule) {u : List Terminal} (h : Parts Handles (rhs r) u) : Handles (lhs r) u := by
  cases r with
  | scalar c =>
      intro p w S q s harr htop hgoto
      cases h with
      | terminal a h =>
          cases h
          have hs : Shifts parser (some c.terminal) (top parser S) (.reduce (.scalar c)) := by
            rw [htop]
            exact (awaits_value hgoto).2.2 c
          have hshift := shift_tok harr trivial hs (fun _ => True)
          exact ⟨.value, @reduce_pending p _ _ S (.scalar c) [_] q s hshift rfl rfl htop hgoto⟩
  | valueArray => exact fun p w S q s harr htop hgoto => h.single p w S q s harr htop (awaits_value hgoto).1
  | valueObject => exact fun p w S q s harr htop hgoto => h.single p w S q s harr htop (awaits_value hgoto).2.1
  | linesArray => exact fun p w S q s harr htop hgoto => h.single p w S q s harr htop (awaits_lines hgoto).1
  | linesObject => exact fun p w S q s harr htop hgoto => h.single p w S q s harr htop (awaits_lines hgoto).2
  | arrayEmpty => exact handles_empty rfl awaits_array rfl h
  | objectEmpty => exact handles_empty rfl awaits_object rfl h
  | array => exact handles_around rfl awaits_array rfl nofun rfl h
  | object => exact handles_around rfl awaits_object rfl nofun rfl h
  | pair =>
      -- no other rule has a nonterminal behind two tokens
      intro p w S q s harr htop hgoto
      cases h with
      | terminal a h =>
      cases h with
      | terminal b h =>
      cases h with
      | nonterminal hu h =>
          cases h
          have h₁ := shift_at harr htop (awaits_pair hgoto).1
          have h₂ := @shift_tok p _ _ _ h₁ .colon (.state .colon) trivial rfl (fun _ => True)
          obtain ⟨y, h₃⟩ := hu p _ _ .colon (.reduce .pair) h₂ rfl rfl
          rw [List.append_assoc, List.append_assoc] at h₃
          rw [List.append_nil]
          exact ⟨.pair, @reduce_pending p _ _ S .pair [_, _, _] q s h₃ rfl rfl htop hgoto⟩
  | elementsLast => exact handles_unit rfl awaits_elements (fun t ht => ⟨trivial, elementsLast_of_ne ht⟩) h
  | membersLast => exact handles_unit rfl awaits_members (fun t ht => ⟨trivial, membersLast_of_ne ht⟩) h
  | elements => exact handles_list rfl awaits_elements trivial rfl rfl h
  | members => exact handles_list rfl awaits_members trivial rfl rfl h
  | input =>
      refine handles_unit rfl awaits_input ?_ h
      rintro t rfl
      exact ⟨trivial, rfl⟩

/-- Every derivation is handled, by induction on its tree. -/
theorem handles {x : NonTerminal} {u : List Terminal} (h : Yields grammar [.nonterminal x] u) : Handles x u := by
  refine (Yields.fold (Q := Handles) ?_ h).single
  intro r hr w hparts
  obtain ⟨r, -, rfl⟩ := Finset.mem_image.mp hr
  exact handles_rule r hparts

/-- **Completeness**: what the grammar derives is accepted, on a stack that grows on demand. -/
theorem accepts_complete {u : List Terminal} (h : u ∈ grammar.language) : Accepts parser none (toks u) () := by
  obtain ⟨y, harr⟩ := handles (mem_language_iff_yields.mp h) init [] [] .start .accept (Arrives.refl init _) rfl rfl
  exact harr.accepts rfl rfl ()

/-! ## Prefixes -/

theorem yields_rule (r : Rule) {u : List Terminal} (h : Yields grammar (rhs r) u) :
    Yields grammar [.nonterminal (lhs r)] u := by
  have hmem : (⟨lhs r, rhs r⟩ : ContextFreeRule Terminal NonTerminal) ∈ grammar.rules :=
    Finset.mem_image_of_mem _ (Finset.mem_univ r)
  exact Yields.rule hmem h

theorem yields_scalar (c : Scalar) : Yields grammar [.nonterminal .value] [c.terminal] :=
  yields_rule (.scalar c) (.terminal _ .nil)

/-- What is awaited behind the beginning of an array or behind a comma in it makes elements. -/
theorem elements_of_awaited {y : NonTerminal} (hy : y = .elements ∨ IsValue y) {u : List Terminal}
    (h : Yields grammar [.nonterminal y] u) : Yields grammar [.nonterminal .elements] u := by
  rcases hy with rfl | hy
  · exact h
  · exact yields_rule .elementsLast (covers_value hy u h)

theorem members_of_awaited {y : NonTerminal} (hy : y = .members ∨ y = .pair) {u : List Terminal}
    (h : Yields grammar [.nonterminal y] u) : Yields grammar [.nonterminal .members] u := by
  rcases hy with rfl | rfl
  · exact h
  · exact yields_rule .membersLast h

/-- The symbols on a stack with another entry. -/
theorem yields_cons {x : Entry} {S : List Entry} {w : List Terminal} (h : Yields grammar (majors (x :: S)) w) :
    ∃ u v, w = u ++ v ∧ Yields grammar (majors S) u ∧ Yields grammar [x.major] v := by
  rw [show majors (x :: S) = majors S ++ [x.major] from List.reverse_cons] at h
  exact yields_append.mp h

/-- The top entry of a stack, with what it and those below it spell. -/
theorem peel_yields {S : List Entry} {s : StateNo State Rule} (h : Linked parser S) (hs : top parser S = s)
    (hne : s ≠ .state .start) {w : List Terminal} (hw : Yields grammar (majors S) w) :
    ∃ x S' u v, S = x :: S' ∧ Linked parser S' ∧ Back s x.major (top parser S') ∧ w = u ++ v ∧
      Yields grammar (majors S') u ∧ Yields grammar [x.major] v := by
  obtain ⟨x, S', rfl, hl, hback⟩ := peel h hs hne
  obtain ⟨u, v, rfl, hu, hv⟩ := yields_cons hw
  exact ⟨x, S', u, v, rfl, hl, hback, rfl, hu, hv⟩

theorem yields_terminal {a : Terminal} {w : List Terminal} (h : Yields grammar [.terminal a] w) : w = [a] := by
  cases h with
  | terminal a h =>
      cases h
      rfl

/-- A stack can be completed behind anything its top state awaits. -/
def Extends (S : List Entry) : Prop :=
  ∀ y w u, Awaits y (top parser S) → Yields grammar (majors S) w → Yields grammar [.nonterminal y] u →
    ∃ z, w ++ (u ++ z) ∈ grammar.language

/-- What is on the stack and comes next is part of something that is awaited further down. -/
theorem Extends.part {S : List Entry} (h : Extends S) {n : NonTerminal} (hawait : Awaits n (top parser S))
    {w v u c : List Terminal} (hw : Yields grammar (majors S) w)
    (hn : Yields grammar [.nonterminal n] (v ++ (u ++ c))) : ∃ z, w ++ v ++ (u ++ z) ∈ grammar.language := by
  obtain ⟨z, hz⟩ := h n w _ hawait hw hn
  exact ⟨c ++ z, by simpa using hz⟩

section
variable {S : List Entry} (h : Linked parser S)
  (ih : ∀ S', S'.length < S.length → Linked parser S' → Extends S') {y : NonTerminal} {w u : List Terminal}
  (hw : Yields grammar (majors S) w) (hu : Yields grammar [.nonterminal y] u)
include h ih hw hu

/-- The array is closed, and completed from where it began. -/
theorem extends_aBegin (htop : top parser S = .state .aBegin) (hy : y = .elements ∨ IsValue y) :
    ∃ z, w ++ (u ++ z) ∈ grammar.language := by
  obtain ⟨x, S', w₁, w₂, rfl, hl, ⟨hx, hawait⟩, rfl, hw₁, hw₂⟩ := peel_yields h htop nofun hw
  rw [hx] at hw₂
  obtain rfl := yields_terminal hw₂
  refine (ih S' (by simp) hl).part hawait hw₁ (c := [.aEnd]) ?_
  exact yields_rule .array (.terminal _ ((elements_of_awaited hy hu).append (.terminal Terminal.aEnd .nil)))

theorem extends_oBegin (htop : top parser S = .state .oBegin) (hy : y = .members ∨ y = .pair) :
    ∃ z, w ++ (u ++ z) ∈ grammar.language := by
  obtain ⟨x, S', w₁, w₂, rfl, hl, ⟨hx, hawait⟩, rfl, hw₁, hw₂⟩ := peel_yields h htop nofun hw
  rw [hx] at hw₂
  obtain rfl := yields_terminal hw₂
  refine (ih S' (by simp) hl).part hawait hw₁ (c := [.oEnd]) ?_
  exact yields_rule .object (.terminal _ ((members_of_awaited hy hu).append (.terminal Terminal.oEnd .nil)))

/-- The comma joins what is below to what comes next, and the list is completed from its head. -/
theorem extends_valueComma (htop : top parser S = .state .valueComma) (hy : y = .elements ∨ IsValue y) :
    ∃ z, w ++ (u ++ z) ∈ grammar.language := by
  obtain ⟨x, S', w₁, w₂, rfl, hl, ⟨hx, hs⟩, rfl, hw₁, hw₂⟩ := peel_yields h htop nofun hw
  obtain ⟨x', S'', w₃, w₄, rfl, hl', ⟨⟨v, hv, hx'⟩, hawait⟩, rfl, hw₃, hw₄⟩ := peel_yields hl hs nofun hw₁
  rw [hx] at hw₂
  rw [hx'] at hw₄
  obtain rfl := yields_terminal hw₂
  rw [List.append_assoc w₃]
  refine (ih S'' (by simp only [List.length_cons]; omega) hl').part hawait hw₃ (c := []) ?_
  rw [List.append_nil, List.append_assoc]
  exact yields_rule .elements ((covers_value hv _ hw₄).append (.terminal _ (elements_of_awaited hy hu)))

theorem extends_pairComma (htop : top parser S = .state .pairComma) (hy : y = .members ∨ y = .pair) :
    ∃ z, w ++ (u ++ z) ∈ grammar.language := by
  obtain ⟨x, S', w₁, w₂, rfl, hl, ⟨hx, hs⟩, rfl, hw₁, hw₂⟩ := peel_yields h htop nofun hw
  obtain ⟨x', S'', w₃, w₄, rfl, hl', ⟨hx', hawait⟩, rfl, hw₃, hw₄⟩ := peel_yields hl hs nofun hw₁
  rw [hx] at hw₂
  rw [hx'] at hw₄
  obtain rfl := yields_terminal hw₂
  rw [List.append_assoc w₃]
  refine (ih S'' (by simp only [List.length_cons]; omega) hl').part hawait hw₃ (c := []) ?_
  rw [List.append_nil, List.append_assoc]
  exact yields_rule .members (hw₄.append (.terminal _ (members_of_awaited hy hu)))

/-- The pair is complete with its value. -/
theorem extends_colon (htop : top parser S = .state .colon) (hy : IsValue y) :
    ∃ z, w ++ (u ++ z) ∈ grammar.language := by
  obtain ⟨x, S', w₁, w₂, rfl, hl, ⟨hx, hs⟩, rfl, hw₁, hw₂⟩ := peel_yields h htop nofun hw
  obtain ⟨x', S'', w₃, w₄, rfl, hl', ⟨hx', hawait⟩, rfl, hw₃, hw₄⟩ := peel_yields hl hs nofun hw₁
  rw [hx] at hw₂
  rw [hx'] at hw₄
  obtain rfl := yields_terminal hw₂
  obtain rfl := yields_terminal hw₄
  rw [List.append_assoc w₃]
  refine (ih S'' (by simp only [List.length_cons]; omega) hl').part hawait hw₃ (c := []) ?_
  rw [List.append_nil]
  exact yields_rule .pair (.terminal _ (.terminal _ (covers_value hy u hu)))

end

/-- The first state awaits a document and what it is made of. -/
theorem extends_nil : Extends [] := by
  rintro y w u ⟨q, s, htop, hgoto⟩ hw hu
  obtain rfl := yields_nil.mp hw
  obtain rfl : State.start = q := StateNo.state.inj htop
  refine ⟨[], ?_⟩
  rw [List.append_nil, List.nil_append]
  apply mem_language_iff_yields.mpr
  cases y with
  | input => exact hu
  | lines => exact yields_rule .input hu
  | array => exact yields_rule .input (yields_rule .linesArray hu)
  | object => exact yields_rule .input (yields_rule .linesObject hu)
  | _ => exact nomatch hgoto

/-- **A stack can be completed** behind anything its top state awaits, by induction on its length. -/
theorem extend {S : List Entry} (h : Linked parser S) : Extends S := by
  generalize hn : S.length = n
  induction n using Nat.strong_induction_on generalizing S with
  | _ n ih =>
      subst hn
      have ih : ∀ S', S'.length < S.length → Linked parser S' → Extends S' := fun S' hlt hl => ih _ hlt hl rfl
      rintro y w u ⟨q, s, htop, hgoto⟩ hw hu
      cases q with
      | start =>
          cases h with
          | nil => exact extends_nil y w u ⟨.start, s, htop, hgoto⟩ hw hu
          | @cons x S' hx _ =>
              have hback := back_of_enters hx
              rw [show x.stateno = _ from htop] at hback
              exact hback.elim
      | aBegin => exact extends_aBegin h ih hw hu htop (by cases y <;> cases hgoto <;> simp [IsValue])
      | oBegin => exact extends_oBegin h ih hw hu htop (by cases y <;> cases hgoto <;> simp)
      | valueComma => exact extends_valueComma h ih hw hu htop (by cases y <;> cases hgoto <;> simp [IsValue])
      | pairComma => exact extends_pairComma h ih hw hu htop (by cases y <;> cases hgoto <;> simp)
      | colon => exact extends_colon h ih hw hu htop (by cases y <;> cases hgoto <;> simp [IsValue])
      | lines | elements | value | members | pair | string => cases y <;> exact nomatch hgoto

/-- A stack on whose top a rule is reduced. -/
theorem completable_of_reduce {S : List Entry} {t : Option Terminal} {r : Rule} (h : Linked parser S)
    (hfind : findShiftAction parser t (top parser S) = .reduce r) {w : List Terminal}
    (hw : Yields grammar (majors S) w) : ∃ z, w ++ z ∈ grammar.language := by
  obtain ⟨hcov, hawait⟩ := fits h hfind
  have hsplit : majors S = majors (S.drop (rhs r).length) ++ majors (S.take (rhs r).length) := by
    rw [← majors_append, List.take_append_drop]
  rw [hsplit] at hw
  obtain ⟨w₁, w₂, rfl, hw₁, hw₂⟩ := yields_append.mp hw
  obtain ⟨z, hz⟩ := extend (h.drop _) _ _ _ hawait hw₁ (yields_rule r (yields_of_covers hcov hw₂))
  exact ⟨z, by rw [List.append_assoc]; exact hz⟩

/-- **Every stack can be completed**: what it spells begins a word of the language. -/
theorem completable {S : List Entry} (h : Linked parser S) (hacc : top parser S ≠ .accept) {w : List Terminal}
    (hw : Yields grammar (majors S) w) : ∃ z, w ++ z ∈ grammar.language := by
  have hnull : Yields grammar [.nonterminal .value] [.null] := yields_scalar .null
  have hpair : Yields grammar [.nonterminal .pair] [.string, .colon, .null] :=
    yields_rule .pair (.terminal _ (.terminal _ hnull))
  have hawait : ∀ y u, Awaits y (top parser S) → Yields grammar [.nonterminal y] u →
      ∃ z, w ++ z ∈ grammar.language := by
    intro y u hy hu
    obtain ⟨z, hz⟩ := extend h y w u hy hw hu
    exact ⟨_, hz⟩
  cases htop : top parser S with
  | accept => exact absurd htop hacc
  | reduce r => exact @completable_of_reduce S none r h (by rw [htop]; rfl) w hw
  | state q =>
      rw [htop] at hawait
      cases q with
      | start =>
          have harray : Yields grammar [.nonterminal .array] [.aBegin, .aEnd] :=
            yields_rule .arrayEmpty (.terminal _ (.terminal _ .nil))
          exact hawait .array _ ⟨.start, _, rfl, rfl⟩ harray
      | aBegin => exact hawait .value _ ⟨.aBegin, _, rfl, rfl⟩ hnull
      | valueComma => exact hawait .value _ ⟨.valueComma, _, rfl, rfl⟩ hnull
      | colon => exact hawait .value _ ⟨.colon, _, rfl, rfl⟩ hnull
      | oBegin => exact hawait .pair _ ⟨.oBegin, _, rfl, rfl⟩ hpair
      | pairComma => exact hawait .pair _ ⟨.pairComma, _, rfl, rfl⟩ hpair
      | lines => exact @completable_of_reduce S none .input h (by rw [htop]; rfl) w hw
      | value => exact @completable_of_reduce S none .elementsLast h (by rw [htop]; rfl) w hw
      | pair => exact @completable_of_reduce S none .membersLast h (by rw [htop]; rfl) w hw
      | elements =>
          obtain ⟨x, S', w₁, w₂, rfl, hl, ⟨hx, hs⟩, rfl, hw₁, hw₂⟩ := peel_yields h htop nofun hw
          rw [hx] at hw₂
          obtain ⟨z, hz⟩ := extend hl _ _ _ ⟨.aBegin, _, hs, rfl⟩ hw₁ hw₂
          exact ⟨z, by rw [List.append_assoc]; exact hz⟩
      | members =>
          obtain ⟨x, S', w₁, w₂, rfl, hl, ⟨hx, hs⟩, rfl, hw₁, hw₂⟩ := peel_yields h htop nofun hw
          rw [hx] at hw₂
          obtain ⟨z, hz⟩ := extend hl _ _ _ ⟨.oBegin, _, hs, rfl⟩ hw₁ hw₂
          exact ⟨z, by rw [List.append_assoc]; exact hz⟩
      | string =>
          obtain ⟨x, S', w₁, w₂, rfl, hl, ⟨hx, hs⟩, rfl, hw₁, hw₂⟩ := peel_yields h htop nofun hw
          rw [hx] at hw₂
          obtain rfl := yields_terminal hw₂
          obtain ⟨z, hz⟩ := extend hl _ _ _ hs hw₁ hpair
          exact ⟨.colon :: .null :: z, by simpa using hz⟩

/-! ## Acceptance -/

/-- The depth of the generated parser's stack, `YYSTACKDEPTH`. -/
def yyStackDepth : Nat := 100

/-- The stack entries that tokens need, the bottom one included. -/
def need (w : List Terminal) : Nat := entriesNeeded parser (feed (toks w))

/-- The parser reaches `%parse_accept` without having run `%syntax_error`. -/
def Accepted (w : List Terminal) : Prop := Accepts parser (some yyStackDepth) (toks w) ()

theorem rhs_ne_nil (r : Rule) : rhs r ≠ [] := by
  cases r <;> exact nofun

/-- On a stack that grows on demand, no error is reported in front of the end of what begins a word. -/
theorem readsAll_iff {w : List Terminal} (hlen : w.length < 2147483648) :
    ReadsAll parser (toks w) ↔ ∃ z, w ++ z ∈ grammar.language := by
  constructor
  · rintro ⟨p, es, hrun, herr⟩
    have hlen' : (toks w).length < 2147483648 := by rwa [toks, List.length_map]
    have hsteady := run_steady sound (toks w) (steady_nil rfl) hrun
    have hw := (@run_yields _ _ _ _ _ _ _ _ _ _ _ sound (toks w) _ _ _ [] hrun (steady_nil rfl) .nil 0
      (reports_init hlen') herr).1
    rw [List.nil_append, toks, List.map_map, show (fun x : Terminal × Unit => x.1) ∘ (fun a => (a, ())) = id from rfl,
      List.map_id] at hw
    exact completable hsteady.1.1 hsteady.1.2 hw
  · rintro ⟨z, hz⟩
    obtain ⟨p, es, hrun, -, herr⟩ := accepts_complete hz
    rw [toks_append, feed, List.map_append, List.append_assoc, run_append] at hrun
    obtain ⟨⟨p₁, es₁⟩, h₁, hrest⟩ := Option.bind_eq_some_iff.mp hrun
    obtain ⟨⟨p₂, es₂⟩, -, heq⟩ := Option.map_eq_some_iff.mp hrest
    obtain ⟨rfl, rfl⟩ := Prod.mk.inj heq
    exact ⟨p₁, es₁, h₁, (noSyntaxError_append.mp herr).1⟩

theorem accepted_iff_of_need {w : List Terminal} (hlen : w.length < 2147483648) (hneed : need w ≤ yyStackDepth) :
    Accepted w ↔ w ∈ grammar.language := by
  unfold Accepted
  rw [accepts_iff_of_entriesNeeded sound rhs_ne_nil hneed]
  constructor
  · intro h
    have hmem := accepts_sound sound (by rwa [toks, List.length_map]) h
    rwa [toks, List.map_map, show (fun x : Terminal × Unit => x.1) ∘ (fun a => (a, ())) = id from rfl,
      List.map_id] at hmem
  · exact accepts_complete

/-- Tokens of which one overflows the stack: those up to it must begin a derivable sequence, and those behind it
    decide. -/
theorem accepted_of_crossing {u v : List Terminal} {a : Terminal} (hlen : (u ++ a :: v).length < 2147483648)
    (hu : need u ≤ yyStackDepth) (ha : yyStackDepth < need (u ++ [a])) :
    (Accepted (u ++ a :: v) ↔ (∃ z, u ++ [a] ++ z ∈ grammar.language) ∧ Accepted v) ∧
    (ReadsFrom parser (some yyStackDepth) init (toks (u ++ a :: v)) ↔
      (∃ z, u ++ [a] ++ z ∈ grammar.language) ∧ ReadsFrom parser (some yyStackDepth) init (toks v)) := by
  have hsplit : toks (u ++ a :: v) = toks u ++ (a, ()) :: toks v := toks_append _ _
  have hone : toks (u ++ [a]) = toks u ++ [(a, ())] := toks_append _ _
  have hlen' : (toks u ++ (a, ()) :: toks v).length < 2147483648 := by
    rwa [← hsplit, toks, List.length_map]
  have ha' : yyStackDepth < entriesNeeded parser (feed (toks u ++ [(a, ())])) := by
    rw [← hone]
    exact ha
  have hviable : ReadsAll parser (toks (u ++ [a])) ↔ ∃ z, u ++ [a] ++ z ∈ grammar.language :=
    readsAll_iff (by
      rw [List.length_append, List.length_cons] at hlen
      rw [List.length_append, List.length_singleton]
      omega)
  rw [← hviable, hone]
  unfold Accepted
  rw [hsplit]
  exact ⟨accepts_overflow sound rhs_ne_nil hu ha' hlen', reads_overflow sound rhs_ne_nil hu ha' hlen'⟩

/-- **What the parser accepts.** Tokens that need no more entries than there are, are accepted exactly if the
    grammar derives them. Otherwise there is a first token for which there is no room: it is lost with
    everything before it, and the tokens are accepted exactly if those up to it begin a derivable sequence
    and those behind it are accepted. -/
theorem accepted_iff {w : List Terminal} (hlen : w.length < 2147483648) :
    (need w ≤ yyStackDepth → (Accepted w ↔ w ∈ grammar.language)) ∧
    (yyStackDepth < need w → ∃ u a v, w = u ++ a :: v ∧ need u ≤ yyStackDepth ∧ yyStackDepth < need (u ++ [a]) ∧
      (Accepted w ↔ (∃ z, u ++ [a] ++ z ∈ grammar.language) ∧ Accepted v)) := by
  refine ⟨accepted_iff_of_need hlen, ?_⟩
  intro hneed
  obtain ⟨u, a, v, rfl, hu, ha⟩ := exists_crossing need (by decide) w hneed
  exact ⟨u, a, v, rfl, hu, ha, (accepted_of_crossing hlen hu ha).1⟩

/-- `n + 1` numbers with commas between them. -/
def numbers : Nat → List Terminal
  | 0     => [.number]
  | n + 1 => .number :: .comma :: numbers n

/-- An array of `n + 1` numbers. -/
def numberArray (n : Nat) : List Terminal := .aBegin :: (numbers n ++ [.aEnd])

theorem yields_numbers (n : Nat) : Yields grammar [.nonterminal .elements] (numbers n) := by
  induction n with
  | zero => exact yields_rule .elementsLast (yields_scalar .number)
  | succ n ih => exact yields_rule .elements ((yields_scalar .number).append (.terminal _ ih))

theorem numberArray_mem (n : Nat) : numberArray n ∈ grammar.language := by
  have harray : Yields grammar [.nonterminal .array] (numberArray n) :=
    yields_rule .array (.terminal _ ((yields_numbers n).append (.terminal Terminal.aEnd .nil)))
  exact mem_language_iff_yields.mpr (yields_rule .input (yields_rule .linesArray harray))

/-- An array of 50 numbers is derivable, and not accepted. -/
theorem accepted_not_fifty : numberArray 49 ∈ grammar.language ∧ ¬ Accepted (numberArray 49) := by
  refine ⟨numberArray_mem 49, ?_⟩
  rintro ⟨p, es, hrun, hacc, -⟩
  have hno : (run parser (some yyStackDepth) (feed (toks (numberArray 49)) ++ [(none, ())]) init).map
      (fun x => decide (Event.parseAccept ∈ x.2)) = some false := by decide +kernel
  rw [hrun, Option.map_some, decide_eq_true hacc] at hno
  exact absurd hno (by decide)

/-- An empty array needs three entries, and one of 50 numbers more than there are. -/
theorem accepted_iff_arrays :
    (Accepted [.aBegin, .aEnd] ↔ [.aBegin, .aEnd] ∈ grammar.language) ∧
    ∃ u a v, numberArray 49 = u ++ a :: v ∧ need u ≤ yyStackDepth ∧ yyStackDepth < need (u ++ [a]) ∧
      (Accepted (numberArray 49) ↔ (∃ z, u ++ [a] ++ z ∈ grammar.language) ∧ Accepted v) :=
  ⟨(accepted_iff (by decide)).1 (by decide +kernel), (accepted_iff (by decide +kernel)).2 (by decide +kernel)⟩

/-! ## Documents in front of an overflow -/

/-- Tokens that are a document for a stack of 100 entries: the grammar derives them, or those behind a token that
    overflows the stack are a document, and what is in front begins one. -/
inductive Document : List Terminal → Prop
  | whole {w : List Terminal} (hneed : need w ≤ yyStackDepth) (h : w ∈ grammar.language) : Document w
  | behind {u v z : List Terminal} {a : Terminal} (hu : need u ≤ yyStackDepth) (ha : yyStackDepth < need (u ++ [a]))
      (hz : u ++ [a] ++ z ∈ grammar.language) (h : Document v) : Document (u ++ a :: v)

/-- Tokens that begin a document, in the same sense. -/
inductive Viable : List Terminal → Prop
  | whole {w z : List Terminal} (hneed : need w ≤ yyStackDepth) (hz : w ++ z ∈ grammar.language) : Viable w
  | behind {u v z : List Terminal} {a : Terminal} (hu : need u ≤ yyStackDepth) (ha : yyStackDepth < need (u ++ [a]))
      (hz : u ++ [a] ++ z ∈ grammar.language) (h : Viable v) : Viable (u ++ a :: v)

/-- A token that overflows the stack, if there is one, is the first that does. -/
theorem need_or_crossing (w : List Terminal) :
    need w ≤ yyStackDepth ∨ ∃ u a v, w = u ++ a :: v ∧ need u ≤ yyStackDepth ∧ yyStackDepth < need (u ++ [a]) := by
  by_cases hneed : need w ≤ yyStackDepth
  · exact .inl hneed
  · exact .inr (exists_crossing need (by decide) w (Nat.lt_of_not_le hneed))

theorem document_iff {w : List Terminal} (hlen : w.length < 2147483648) : Document w ↔ Accepted w := by
  constructor
  · intro h
    induction h with
    | whole hneed h => exact (accepted_iff_of_need hlen hneed).mpr h
    | behind hu ha hz _ ih =>
        refine (accepted_of_crossing hlen hu ha).1.mpr ⟨⟨_, hz⟩, ih ?_⟩
        rw [List.length_append, List.length_cons] at hlen
        omega
  · induction hn : w.length using Nat.strong_induction_on generalizing w with
    | _ n ih =>
        intro hacc
        rcases need_or_crossing w with hneed | ⟨u, a, v, rfl, hu, ha⟩
        · exact .whole hneed ((accepted_iff_of_need hlen hneed).mp hacc)
        · obtain ⟨⟨z, hz⟩, hv⟩ := (accepted_of_crossing hlen hu ha).1.mp hacc
          rw [List.length_append, List.length_cons] at hn hlen
          exact .behind hu ha hz (ih v.length (by omega) (by omega) rfl hv)

theorem viable_iff {w : List Terminal} (hlen : w.length < 2147483648) :
    Viable w ↔ ReadsFrom parser (some yyStackDepth) init (toks w) := by
  have hwhole : ∀ {w : List Terminal}, w.length < 2147483648 → need w ≤ yyStackDepth →
      (ReadsFrom parser (some yyStackDepth) init (toks w) ↔ ∃ z, w ++ z ∈ grammar.language) := by
    intro w hlen hneed
    rw [reads_iff_of_entriesNeeded sound hneed]
    exact readsAll_iff hlen
  constructor
  · intro h
    induction h with
    | whole hneed hz => exact (hwhole hlen hneed).mpr ⟨_, hz⟩
    | behind hu ha hz _ ih =>
        refine (accepted_of_crossing hlen hu ha).2.mpr ⟨⟨_, hz⟩, ih ?_⟩
        rw [List.length_append, List.length_cons] at hlen
        omega
  · induction hn : w.length using Nat.strong_induction_on generalizing w with
    | _ n ih =>
        intro hread
        rcases need_or_crossing w with hneed | ⟨u, a, v, rfl, hu, ha⟩
        · obtain ⟨z, hz⟩ := (hwhole hlen hneed).mp hread
          exact .whole hneed hz
        · obtain ⟨⟨z, hz⟩, hv⟩ := (accepted_of_crossing hlen hu ha).2.mp hread
          rw [List.length_append, List.length_cons] at hn hlen
          exact .behind hu ha hz (ih v.length (by omega) (by omega) rfl hv)

end Tokenizer
end CSamples
