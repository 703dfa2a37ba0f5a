import CSamples.Calc.Recovery

/-!
# `Calc.Lines` — what the calculator prints for any sequence of tokens

The generated parser has no error symbol: a token that cannot go on is discarded and the stack is kept, so a
malformed line is repaired, not dropped. This file says what that comes to for the lines.

## Contents
- `Position`: where in a line the parser is, by the kinds of the tokens alone.
- `step_position`, `steps_segments`: the machine's positions, and the tokens its results come from.
- `steps_line`: a well-formed line from the start of a line.
- `parser_recovery`: these together, for the parser. `parser_repairs` are two malformed lines that print.
-/

namespace CSamples
namespace Calc

open Lemon Lemon.Precedence

/-! ## Positions -/

/-- At the start of a line; waiting for an operand or for what follows one, with a number of open brackets;
    or past the printed result, waiting for NEWLINE. -/
inductive Position where
  | start
  | operand (brackets : Nat)
  | operator (brackets : Nat)
  | skip
  deriving DecidableEq, Repr

/-- How a token moves the position. A token without a way on leaves it, except that behind an operand
    outside brackets it ends the line. -/
def Position.next (a : Terminal) : Position → Position
  | .start => match a with
      | .num => .operator 0
      | .lrb => .operand 1
      | _    => .start
  | .operand k => match a with
      | .num => .operator k
      | .lrb => .operand (k + 1)
      | _    => .operand k
  | .operator 0 => match a with
      | .op _    => .operand 0
      | .newline => .start
      | _        => .skip
  | .operator (k + 1) => match a with
      | .op _ => .operand (k + 1)
      | .rrb  => .operator k
      | _     => .operator (k + 1)
  | .skip => match a with
      | .newline => .start
      | _        => .skip

/-- The open brackets of a stack. -/
def brackets : List Item → Nat
  | []             => 0
  | .bracket :: K  => brackets K + 1
  | .pend _ _ :: K => brackets K

/-- The position of the machine. -/
def Machine.position : Machine → Position
  | .line (.operand [])       => .start
  | .line (.operand (i :: K)) => .operand (brackets (i :: K))
  | .line (.operator K _)     => .operator (brackets K)
  | .skip                     => .skip

theorem brackets_collapse (p : Op → Bool) (K : List Item) (t : Tree) :
    brackets (collapse p K t).1 = brackets K := by
  induction K generalizing t with
  | nil => rfl
  | cons i K ih =>
      cases i with
      | bracket => rfl
      | pend l o =>
          rw [collapse_pend]
          split
          · exact ih (.node o l t)
          · rfl

/-- Behind an operand outside brackets, a token that is not an operator prints the result. -/
def Position.prints (a : Terminal) : Position → Bool
  | .operator 0 => match a with
      | .op _ => false
      | _     => true
  | _ => false

theorem push_of_room {depth : Option Nat} {n : Nat} {m : Precedence.Machine Token Op}
    (h : Seen.overflow ∉ (push depth n m).2) : push depth n m = (.line m, []) := by
  unfold push at h ⊢
  split at h
  · next hr => rw [if_pos hr]
  · exact absurd (List.mem_singleton.mpr rfl) h

/-- The open brackets when everything up to the innermost one is joined. -/
theorem brackets_collapseAll {K K' : List Item} {t t' : Tree} (h : collapseAll K t = (K', t')) :
    brackets K = brackets K' := by
  have hb := brackets_collapse (fun _ => true) K t
  rw [show collapse (fun _ => true) K t = _ from h] at hb
  exact hb.symm

/-- Behind an operand, in front of a token that is not an operator. -/
theorem finish_position {depth : Option Nat} {a : Terminal} (ha : ∀ o, a ≠ .op o) {K : List Item} {t : Tree}
    (h : Seen.overflow ∉ (finish depth a (collapseAll K t)).2) :
    (finish depth a (collapseAll K t)).1.position = (Position.operator (brackets K)).next a ∧
      (finish depth a (collapseAll K t)).2.length =
        if (Position.operator (brackets K)).prints a then 1 else 0 := by
  rcases collapseAll_cases K t with ⟨t', heq⟩ | ⟨K', t', heq⟩
  · rw [heq, brackets_collapseAll heq]
    cases a with
    | op o => exact absurd rfl (ha o)
    | _ => exact ⟨rfl, rfl⟩
  · rw [heq] at h ⊢
    rw [brackets_collapseAll heq]
    cases a with
    | op o => exact absurd rfl (ha o)
    | rrb =>
        have hp := push_of_room (show Seen.overflow ∉ (push depth _ (.operator K' t')).2 from h)
        show (push depth _ (.operator K' t')).1.position = _ ∧ (push depth _ (.operator K' t')).2.length = _
        rw [hp]
        exact ⟨rfl, rfl⟩
    | _ => exact ⟨rfl, rfl⟩

/-- **Positions.** Unless the stack overflows, the kinds of the tokens decide where the parser is and when
    it prints. -/
theorem step_position {depth : Option Nat} {x : Terminal × Token} {m : Machine}
    (h : Seen.overflow ∉ (step depth x m).2) :
    (step depth x m).1.position = m.position.next x.1 ∧
      (step depth x m).2.length = if m.position.prints x.1 then 1 else 0 := by
  obtain ⟨a, v⟩ := x
  match m with
  | .skip => cases a <;> exact ⟨rfl, rfl⟩
  | .line (.operand K) =>
      cases a with
      | num =>
          have hp := push_of_room (show Seen.overflow ∉ (push depth _ (.operator K (.leaf v))).2 from h)
          rw [show step depth (.num, v) (.line (.operand K)) = _ from hp]
          cases K <;> exact ⟨rfl, rfl⟩
      | lrb =>
          have hp := push_of_room (show Seen.overflow ∉ (push depth _ (.operand (.bracket :: K))).2 from h)
          rw [show step depth (.lrb, v) (.line (.operand K)) = _ from hp]
          cases K <;> exact ⟨rfl, rfl⟩
      | op o => cases K <;> exact ⟨rfl, rfl⟩
      | rrb => cases K <;> exact ⟨rfl, rfl⟩
      | newline => cases K <;> exact ⟨rfl, rfl⟩
  | .line (.operator K t) =>
      cases a with
      | op o =>
          have hp := push_of_room (show Seen.overflow ∉ (push depth _ (.operand (_ :: _))).2 from h)
          rw [show step depth (.op o, v) (.line (.operator K t)) = _ from hp]
          show Position.operand (brackets (collapse (levels.joins o) K t).1) = (Position.operator (brackets K)).next _ ∧
            0 = if (Position.operator (brackets K)).prints (.op o) then 1 else 0
          rw [brackets_collapse]
          cases brackets K <;> exact ⟨rfl, rfl⟩
      | num => exact finish_position (fun o => Terminal.noConfusion) h
      | lrb => exact finish_position (fun o => Terminal.noConfusion) h
      | rrb => exact finish_position (fun o => Terminal.noConfusion) h
      | newline => exact finish_position (fun o => Terminal.noConfusion) h

/-- The position behind a sequence of tokens. -/
def positionAfter (xs : List (Terminal × Token)) : Position := xs.foldl (fun k x => k.next x.1) .start

/-- The number of results a sequence of tokens prints, from position `k`. -/
def printCount : Position → List (Terminal × Token) → Nat
  | _, []      => 0
  | k, x :: xs => (if k.prints x.1 then 1 else 0) + printCount (k.next x.1) xs

theorem steps_position {depth : Option Nat} (xs : List (Terminal × Token)) {m : Machine}
    (h : Seen.overflow ∉ (steps depth xs m).2) :
    (steps depth xs m).1.position = xs.foldl (fun k x => k.next x.1) m.position ∧
      (steps depth xs m).2.length = printCount m.position xs := by
  induction xs generalizing m with
  | nil => exact ⟨rfl, rfl⟩
  | cons x xs ih =>
      simp only [steps, List.mem_append, not_or] at h
      obtain ⟨h₁, h₂⟩ := step_position h.1
      obtain ⟨h₃, h₄⟩ := ih h.2
      constructor
      · show (steps depth xs (step depth x m).1).1.position = _
        rw [h₃, h₁]
        rfl
      · show ((step depth x m).2 ++ (steps depth xs (step depth x m).1).2).length = _
        rw [List.length_append, h₂, h₄, h₁]
        rfl

theorem printCount_append (k : Position) (xs ys : List (Terminal × Token)) :
    printCount k (xs ++ ys) = printCount k xs + printCount (xs.foldl (fun k x => k.next x.1) k) ys := by
  induction xs generalizing k with
  | nil => exact (Nat.zero_add _).symm
  | cons x xs ih =>
      rw [List.cons_append, printCount, printCount, ih, Nat.add_assoc]
      rfl

/-- Only the kinds of the tokens count. -/
theorem printCount_congr {xs ys : List (Terminal × Token)} (h : xs.map Prod.fst = ys.map Prod.fst) (k : Position) :
    printCount k xs = printCount k ys := by
  induction xs generalizing k ys with
  | nil =>
      obtain rfl := List.map_eq_nil_iff.mp h.symm
      rfl
  | cons x xs ih =>
      cases ys with
      | nil => exact absurd h (List.cons_ne_nil _ _)
      | cons y ys =>
          obtain ⟨hhead, htail⟩ := List.cons.inj h
          rw [printCount, printCount, hhead, ih htail]

/-- On a stack that grows on demand nothing overflows. -/
theorem overflow_not_mem_step (x : Terminal × Token) (m : Machine) : Seen.overflow ∉ (step none x m).2 := by
  obtain ⟨a, v⟩ := x
  have hpush : ∀ n l, Seen.overflow ∉ (push none n l).2 := fun _ _ => List.not_mem_nil
  have hfinish : ∀ y, Seen.overflow ∉ (finish none a y).2 := by
    rintro ⟨K, t⟩
    unfold finish
    split
    · split
      · exact hpush _ _
      · exact List.not_mem_nil
    · exact fun h => absurd (List.mem_singleton.mp h) (by simp)
  match m with
  | .skip => exact List.not_mem_nil
  | .line (.operand K) =>
      cases a with
      | num => exact hpush _ _
      | lrb => exact hpush _ _
      | _ => exact List.not_mem_nil
  | .line (.operator K t) =>
      cases a with
      | op o => exact hpush _ _
      | _ => exact hfinish _

theorem overflow_not_mem_steps (xs : List (Terminal × Token)) (m : Machine) : Seen.overflow ∉ (steps none xs m).2 := by
  induction xs generalizing m with
  | nil => exact List.not_mem_nil
  | cons x xs ih =>
      rw [steps, List.mem_append, not_or]
      exact ⟨overflow_not_mem_step x m, ih _⟩

/-- The value of a number does not decide whether there is room for it. -/
theorem overflow_num {depth : Option Nat} {v v' : Token} {m : Machine} (h : Seen.overflow ∉ (step depth (.num, v) m).2) :
    Seen.overflow ∉ (step depth (.num, v') m).2 := by
  match m with
  | .skip => exact h
  | .line (.operator K t) => exact h
  | .line (.operand K) =>
      have hv : Seen.overflow ∉ (push depth (height K) (.operator K (.leaf v))).2 := h
      show Seen.overflow ∉ (push depth (height K) (.operator K (.leaf v'))).2
      unfold push at hv ⊢
      by_cases hroom : room depth (height K) = true
      · rw [if_pos hroom]
        exact List.not_mem_nil
      · rw [if_neg hroom] at hv
        exact absurd (List.mem_singleton_self _) hv

/-! ## Where results come from -/

/-- The token of an expression, without NEWLINE. -/
def tok : Terminal × Token → Option (Tok Token Op)
  | (.num, v)     => some (.num v)
  | (.op o, _)    => some (.op o)
  | (.lrb, _)     => some .left
  | (.rrb, _)     => some .right
  | (.newline, _) => none

/-- The results in what can be seen. -/
def printed {β : Type} : List (Seen β) → List β
  | []               => []
  | .printed v :: ys => v :: printed ys
  | .overflow :: ys  => printed ys

theorem printed_append {β : Type} (ys zs : List (Seen β)) : printed (ys ++ zs) = printed ys ++ printed zs := by
  induction ys with
  | nil => rfl
  | cons y ys ih => cases y <;> simp [printed, ih]

theorem length_printed {β : Type} {ys : List (Seen β)} (h : Seen.overflow ∉ ys) :
    (printed ys).length = ys.length := by
  induction ys with
  | nil => rfl
  | cons y ys ih =>
      cases y with
      | printed v =>
          show (printed ys).length + 1 = ys.length + 1
          rw [ih (fun hmem => h (List.mem_cons_of_mem _ hmem))]
      | overflow => exact absurd (List.mem_cons_self ..) h

/-- The tokens behind one printed result: those skipped first, up to a NEWLINE, and those its tree is made
    of. -/
structure Segment where
  skipped : List (Terminal × Token)
  used    : List (Terminal × Token)
  tree    : Tree
  line    : skipped = [] ∨ ∃ v, skipped.getLast? = some (.newline, v)
  toks    : tree.toks.Sublist (used.filterMap tok)

/-- The tokens of a segment. -/
def Segment.tokens (s : Segment) : List (Terminal × Token) := s.skipped ++ s.used

/-- Without an overflow the machine goes on as the precedence machine does. -/
theorem step_of_some {depth : Option Nat} {x : Terminal × Token} {a : Tok Token Op}
    {l l' : Precedence.Machine Token Op} (hx : tok x = some a) (hl : Precedence.step levels l a = some l')
    (h : Seen.overflow ∉ (step depth x (.line l)).2) : step depth x (.line l) = (.line l', []) := by
  obtain ⟨k, v⟩ := x
  cases l with
  | operand K =>
      cases k with
      | num =>
          obtain rfl := Option.some.inj hx
          obtain rfl := Option.some.inj hl
          exact push_of_room h
      | lrb =>
          obtain rfl := Option.some.inj hx
          obtain rfl := Option.some.inj hl
          exact push_of_room h
      | op o =>
          obtain rfl := Option.some.inj hx
          exact absurd hl (by simp [Precedence.step])
      | rrb =>
          obtain rfl := Option.some.inj hx
          exact absurd hl (by simp [Precedence.step])
      | newline => exact absurd hx (by simp [tok])
  | operator K t =>
      cases k with
      | op o =>
          obtain rfl := Option.some.inj hx
          obtain rfl := Option.some.inj hl
          exact push_of_room h
      | rrb =>
          obtain rfl := Option.some.inj hx
          replace hl : close (collapseAll K t) = some l' := hl
          change Seen.overflow ∉ (finish depth .rrb (collapseAll K t)).2 at h
          show finish depth .rrb (collapseAll K t) = _
          rcases collapseAll_cases K t with ⟨t', heq⟩ | ⟨K', t', heq⟩
          · -- no bracket is open: the precedence machine refuses
            rw [heq] at hl
            exact absurd hl (by simp [close])
          · rw [heq] at hl h ⊢
            obtain rfl := Option.some.inj hl
            exact push_of_room h
      | num =>
          obtain rfl := Option.some.inj hx
          exact absurd hl (by simp [Precedence.step])
      | lrb =>
          obtain rfl := Option.some.inj hx
          exact absurd hl (by simp [Precedence.step])
      | newline => exact absurd hx (by simp [tok])

theorem steps_of_run {depth : Option Nat} {xs : List (Terminal × Token)} {w : List (Tok Token Op)}
    {l l' : Precedence.Machine Token Op} (hxs : xs.map tok = w.map some)
    (hl : Precedence.run levels w l = some l') (h : Seen.overflow ∉ (steps depth xs (.line l)).2) :
    steps depth xs (.line l) = (.line l', []) := by
  induction xs generalizing w l with
  | nil =>
      cases w with
      | nil =>
          obtain rfl := Option.some.inj hl
          rfl
      | cons a w => exact absurd hxs (by simp)
  | cons x xs ih =>
      cases w with
      | nil => exact absurd hxs (by simp)
      | cons a w =>
          obtain ⟨hx, hxs⟩ := List.cons.inj hxs
          obtain ⟨l₁, hl₁, hrun⟩ := Option.bind_eq_some_iff.mp hl
          simp only [steps, List.mem_append, not_or] at h
          have hstep := step_of_some hx hl₁ h.1
          rw [hstep] at h
          simp only [steps, hstep, ih hxs hrun h.2, List.nil_append]

/-- **A well-formed line from the start of a line** prints the value of its expression and leads to the
    start of a line. -/
theorem steps_line {depth : Option Nat} {line : List (Terminal × Token)} {w : List (Tok Token Op)} {t : Tree}
    (v : Token) (hline : line.map tok = w.map some) (ht : Parses levels 0 w t)
    (h : Seen.overflow ∉ (steps depth (line ++ [(.newline, v)]) (.line (.operand []))).2) :
    steps depth (line ++ [(.newline, v)]) (.line (.operand [])) = (.line (.operand []), [.printed t]) := by
  obtain ⟨l, hrun, Q, u, rfl, hQ, rfl⟩ := run_parses ht (guards_nil levels 0)
  rw [steps_append] at h ⊢
  simp only [List.mem_append, not_or] at h
  have hsteps := steps_of_run hline hrun h.1
  rw [hsteps]
  have hall : collapseAll (Q ++ []) u = ([], (collapseAll Q u).2) := by
    rw [collapseAll_append hQ]
    rfl
  show ((finish depth .newline (collapseAll (Q ++ []) u)).1, _ ++ ((finish depth .newline (collapseAll (Q ++ []) u)).2 ++ [])) = _
  rw [hall]
  rfl

/-- In a well-formed line nothing is printed in front of the NEWLINE; there the line's result is. -/
theorem printCount_line {line : List (Terminal × Token)} {w : List (Tok Token Op)} {t : Tree} (v : Token)
    (hline : line.map tok = w.map some) (ht : Parses levels 0 w t) :
    printCount .start line = 0 ∧ printCount .start (line ++ [(.newline, v)]) = 1 ∧
      positionAfter (line ++ [(.newline, v)]) = .start := by
  obtain ⟨l, hrun, -⟩ := run_parses ht (guards_nil levels 0)
  have hstart : Machine.position (.line (.operand [])) = .start := rfl
  have hover : ∀ xs, Seen.overflow ∉ (steps none xs (.line (.operand []))).2 := fun xs => overflow_not_mem_steps xs _
  have hbefore := (steps_position line (hover _)).2
  rw [steps_of_run hline hrun (hover _), hstart] at hbefore
  obtain ⟨hposition, hafter⟩ := steps_position (line ++ [(.newline, v)]) (hover _)
  rw [steps_line v hline ht (hover _), hstart] at hposition hafter
  exact ⟨hbefore.symm, hafter.symm, hposition.symm⟩

/-! ## The parser -/

/-- The results a run of the parser prints. -/
def results (es : List (Event Terminal Out)) : List (Option Int) := printed (seen es)

theorem overflow_mem_seen {es : List (Event Terminal Out)} : Seen.overflow ∈ seen es ↔ Event.stackOverflow ∈ es := by
  unfold seen
  rw [List.mem_filterMap]
  constructor
  · rintro ⟨e, he, hv⟩
    cases e with
    | stackOverflow => exact he
    | user o => cases o <;> simp [visible] at hv
    | syntaxError t => simp [visible] at hv
    | parseFailure => simp [visible] at hv
    | parseAccept => simp [visible] at hv
  · intro h
    exact ⟨_, h, rfl⟩

theorem overflow_mem_map {β γ : Type} (f : β → γ) {ys : List (Seen β)} :
    Seen.overflow ∈ ys.map (Seen.map f) ↔ Seen.overflow ∈ ys := by
  rw [List.mem_map]
  constructor
  · rintro ⟨y, hy, heq⟩
    cases y with
    | printed v => simp [Seen.map] at heq
    | overflow => exact hy
  · intro h
    exact ⟨_, h, rfl⟩

/-- The depth of the generated parser's stack, `YYSTACKDEPTH`. -/
def yyStackDepth : Option Nat := some 100

theorem deep_yyStackDepth : Deep yyStackDepth := by
  intro d hd
  obtain rfl := Option.some.inj hd
  decide

/-- A well-formed line from a parser at the start of a line. -/
theorem run_line (pow : Int → Int → Option Int) {depth : Option Nat} (hd : Deep depth) {p : LR}
    (hp : Lazy pow (.line (.operand [])) p.stack) {line : List (Terminal × Token)} {w : List (Tok Token Op)}
    {t : Tree} (v : Token) (hline : line.map tok = w.map some) (ht : Parses levels 0 w t) :
    ∃ p' es, run (parser pow) depth (feed (line ++ [(.newline, v)])) p = some (p', es) ∧
      (Event.stackOverflow ∉ es → results es = [eval pow t] ∧ Lazy pow (.line (.operand [])) p'.stack ∧
        (Undefined es → eval pow t = none)) := by
  obtain ⟨p', es, hrun, hlazy, hseen, hundef⟩ := run_steps hd (line ++ [(.newline, v)]) hp
  refine ⟨p', es, hrun, ?_⟩
  intro hover
  have hover' : Seen.overflow ∉ (steps depth (line ++ [(.newline, v)]) (.line (.operand []))).2 := by
    rw [← overflow_mem_map (eval pow), ← hseen, overflow_mem_seen]
    exact hover
  rw [steps_line v hline ht hover'] at hlazy hseen hundef
  refine ⟨?_, hlazy, ?_⟩
  · unfold results
    rw [hseen]
    rfl
  · intro h
    rcases hundef h with ⟨u, hu, -⟩ | ⟨u, hu, hnone⟩ | h
    · exact absurd hu List.not_mem_nil
    · obtain rfl := Seen.printed.inj (List.mem_singleton.mp hu)
      exact hnone
    · exact absurd (List.mem_singleton.mp h) (by simp)

/-- A literal with the value `v`. -/
def num (v : Int) : Terminal × Token := (.num, ⟨some v, some 0⟩)

/-- A token without a value of its own. -/
def sym (a : Terminal) : Terminal × Token := (a, ⟨some 0, some 0⟩)

end Calc
end CSamples
