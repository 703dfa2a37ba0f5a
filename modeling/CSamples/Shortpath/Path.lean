import CSamples.C.Memory
import CSamples.Text.Lines

/-!
# `Shortpath.Path` — what a path means, and what it loses when components are taken out

A path leads from a directory, the stack of the names above it, to another one. Taking a name and the `..`
behind it out of a path changes nothing (`Same.of_name_dotdot`); taking out a `..` with the `.` or the `..` in front of
it loses it. `marks` tells which `..` are lost in the end, `owed` counts what that costs on the way from a given
depth: the two paths lead to the same directory exactly when nothing is owed (`walk_kept_iff`).
-/

namespace CSamples
namespace Shortpath

open C Text

/-- A component of a path. -/
abbrev Name := List UInt8

/-- `'/'` -/
def slash : UInt8 := ch '/'
/-- `.` -/
def dot : Name := [ch '.']
/-- `..` -/
def dotdot : Name := [ch '.', ch '.']

/-- The components of a path: what the slashes end, and what is behind the last one. -/
def components (p : List UInt8) : List Name := lines slash p ++ [rest slash p]

/-- One component followed from a directory: `..` at the root stays there. -/
def enter (dir : List Name) (c : Name) : List Name :=
  if c = [] ∨ c = dot then dir
  else if c = dotdot then dir.tail
  else c :: dir

/-- Components followed one after the other. -/
def walk (dir : List Name) (cs : List Name) : List Name := cs.foldl enter dir

/-- Where a path leads from a directory. -/
def resolve (start : List Name) (p : List UInt8) : List Name :=
  walk (if p.head? = some slash then [] else start) (components p)

@[simp] theorem walk_nil (dir : List Name) : walk dir [] = dir := rfl
@[simp] theorem walk_cons (dir : List Name) (c : Name) (cs : List Name) :
    walk dir (c :: cs) = walk (enter dir c) cs := rfl
@[simp] theorem walk_append (dir : List Name) (cs cs' : List Name) :
    walk dir (cs ++ cs') = walk (walk dir cs) cs' := List.foldl_append ..

@[simp] theorem enter_nil (dir : List Name) : enter dir [] = dir := rfl
@[simp] theorem enter_dot (dir : List Name) : enter dir dot = dir := rfl
@[simp] theorem enter_dotdot (dir : List Name) : enter dir dotdot = dir.tail := rfl

theorem enter_of_ne {c : Name} (h : c ≠ [] ∧ c ≠ dot ∧ c ≠ dotdot) (dir : List Name) : enter dir c = c :: dir := by
  simp [enter, h.1, h.2.1, h.2.2]

/-! ## Lost components -/

/-- Some `..` up to the next empty component finds no name left in front of it, with `n` names at hand; `d` tells
    that a `.` is just in front, which takes the `..` with it. -/
def unmatched : Nat → Bool → List Name → Bool
  | _, _, [] => false
  | n, d, c :: cs =>
      if c = [] then false
      else if c = dot then unmatched n true cs
      else if c = dotdot then
        if d then unmatched n false cs
        else if n = 0 then true
        else unmatched (n - 1) false cs
      else unmatched (n + 1) false cs

/-- The components between two slashes, each with whether it is a lost `..`: one behind a `.`, or one of two that
    find no name in front of them. `n` names are at hand, `o` tells that a lost `..` waits for its partner, `d` that a
    `.` is just in front. -/
def marks : Nat → Bool → Bool → List Name → List (Name × Bool)
  | _, _, _, [] => []
  | n, o, d, c :: cs =>
      if c = [] then (c, false) :: marks 0 false false cs
      else if c = dot then (c, false) :: marks n o true cs
      else if c = dotdot then
        if d then (c, true) :: marks n o false cs
        else if n ≠ 0 then (c, false) :: marks (n - 1) o false cs
        else if o then (c, true) :: marks 0 false false cs
        else if unmatched 0 false cs then (c, true) :: marks 0 true false cs
        else (c, false) :: marks 0 false false cs
      else (c, false) :: marks (n + 1) o false cs

/-- What is left of marked components. -/
def kept (ms : List (Name × Bool)) : List Name := (ms.filter fun m => !m.2).map Prod.fst

/-- What is owed at the end, from depth `h` with `d` owed: a lost `..` below the root adds one, a kept `..` at the
    root pays one back. -/
def owed : Nat → Nat → List (Name × Bool) → Nat
  | _, d, [] => d
  | h, d, (c, lost) :: ms =>
      if c = [] ∨ c = dot then owed h d ms
      else if c = dotdot then
        if lost then (if h = 0 then owed 0 d ms else owed (h - 1) (d + 1) ms)
        else (if h = 0 then owed 0 (d - 1) ms else owed (h - 1) d ms)
      else owed (h + 1) d ms

/-- Marked components, of which only `..` is lost. -/
def Marked (ms : List (Name × Bool)) : Prop := ∀ m ∈ ms, m.2 = true → m.1 = dotdot

/-! ### One component -/

/-- A component that is a name. -/
def IsName (c : Name) : Prop := c ≠ [] ∧ c ≠ dot ∧ c ≠ dotdot

@[simp] theorem unmatched_empty (n : Nat) (d : Bool) (cs : List Name) : unmatched n d ([] :: cs) = false := rfl

@[simp] theorem unmatched_dot (n : Nat) (d : Bool) (cs : List Name) :
    unmatched n d (dot :: cs) = unmatched n true cs := rfl

@[simp] theorem unmatched_dotdot (n : Nat) (d : Bool) (cs : List Name) :
    unmatched n d (dotdot :: cs) =
      if d then unmatched n false cs else if n = 0 then true else unmatched (n - 1) false cs := rfl

theorem unmatched_name {c : Name} (h : IsName c) (n : Nat) (d : Bool) (cs : List Name) :
    unmatched n d (c :: cs) = unmatched (n + 1) false cs := by
  rw [unmatched, if_neg h.1, if_neg h.2.1, if_neg h.2.2]

variable (n : Nat) (o d : Bool) (cs : List Name)

@[simp] theorem marks_empty : marks n o d ([] :: cs) = ([], false) :: marks 0 false false cs := rfl

@[simp] theorem marks_dot : marks n o d (dot :: cs) = (dot, false) :: marks n o true cs := rfl

@[simp] theorem marks_dotdot_dot : marks n o true (dotdot :: cs) = (dotdot, true) :: marks n o false cs := rfl

@[simp] theorem marks_dotdot_name :
    marks (n + 1) o false (dotdot :: cs) = (dotdot, false) :: marks n o false cs := rfl

@[simp] theorem marks_dotdot_partner :
    marks 0 true false (dotdot :: cs) = (dotdot, true) :: marks 0 false false cs := rfl

@[simp] theorem marks_dotdot_alone :
    marks 0 false false (dotdot :: cs) =
      (dotdot, unmatched 0 false cs) :: marks 0 (unmatched 0 false cs) false cs := by
  rw [marks, if_neg (by decide), if_neg (by decide), if_pos rfl, if_neg (by simp), if_neg (by simp), if_neg (by simp)]
  cases unmatched 0 false cs <;> rfl

theorem marks_name {c : Name} (h : IsName c) : marks n o d (c :: cs) = (c, false) :: marks (n + 1) o false cs := by
  rw [marks, if_neg h.1, if_neg h.2.1, if_neg h.2.2]

/-- A component is empty, a `.`, a `..` or a name. -/
theorem name_cases (c : Name) : c = [] ∨ c = dot ∨ c = dotdot ∨ IsName c := by
  unfold IsName
  by_cases h₁ : c = []
  · exact .inl h₁
  · by_cases h₂ : c = dot
    · exact .inr (.inl h₂)
    · by_cases h₃ : c = dotdot
      · exact .inr (.inr (.inl h₃))
      · exact .inr (.inr (.inr ⟨h₁, h₂, h₃⟩))

/-- The mark of one component, and the marks of the others from the state it leaves. -/
theorem marks_cons (c : Name) :
    ∃ l n' o' d', marks n o d (c :: cs) = (c, l) :: marks n' o' d' cs ∧ (l = true → c = dotdot) := by
  rcases name_cases c with rfl | rfl | rfl | hc
  · exact ⟨false, 0, false, false, rfl, nofun⟩
  · exact ⟨false, n, o, true, rfl, nofun⟩
  · match n, o, d with
    | n, o, true          => exact ⟨true, n, o, false, rfl, fun _ => rfl⟩
    | n + 1, o, false     => exact ⟨false, n, o, false, rfl, nofun⟩
    | 0, true, false      => exact ⟨true, 0, false, false, rfl, fun _ => rfl⟩
    | 0, false, false     => exact ⟨_, 0, _, false, marks_dotdot_alone cs, fun _ => rfl⟩
  · exact ⟨false, n + 1, o, false, marks_name n o d cs hc, nofun⟩

theorem marked_marks : Marked (marks n o d cs) := by
  induction cs generalizing n o d with
  | nil => simp [Marked, marks]
  | cons c cs ih =>
      obtain ⟨l, n', o', d', h, hl⟩ := marks_cons n o d cs c
      rw [h]
      exact List.forall_mem_cons.mpr ⟨hl, ih n' o' d'⟩

theorem map_fst_marks : (marks n o d cs).map Prod.fst = cs := by
  induction cs generalizing n o d with
  | nil => rfl
  | cons c cs ih =>
      obtain ⟨l, n', o', d', h, -⟩ := marks_cons n o d cs c
      rw [h, List.map_cons, ih]

/-- **The two walks.** Without the lost `..` a walk ends in the directory of the whole walk or further down, by what
    is owed. -/
theorem walk_kept {ms : List (Name × Bool)} (hms : Marked ms) {dir dir' : List Name} (hsub : dir.Sublist dir')
    {d : Nat} (hd : dir'.length = dir.length + d) :
    (walk dir (ms.map Prod.fst)).Sublist (walk dir' (kept ms)) ∧
      (walk dir' (kept ms)).length = (walk dir (ms.map Prod.fst)).length + owed dir.length d ms := by
  induction ms generalizing dir dir' d with
  | nil => exact ⟨hsub, hd⟩
  | cons m ms ih =>
      obtain ⟨c, l⟩ := m
      obtain ⟨hl, hms'⟩ := List.forall_mem_cons.mp hms
      have hkept : kept ((c, l) :: ms) = if l then kept ms else c :: kept ms := by cases l <;> rfl
      rw [List.map_cons, walk_cons, hkept, owed]
      by_cases h₁ : c = [] ∨ c = dot
      · have hl' : l = false := by
          cases l with
          | false => rfl
          | true =>
              obtain rfl : c = dotdot := hl rfl
              exact absurd h₁ (by decide)
        have henter (dir : List Name) : enter dir c = dir := if_pos h₁
        rw [hl', if_pos h₁, henter, if_neg (by simp), walk_cons, henter]
        exact ih hms' hsub hd
      · rw [if_neg h₁]
        by_cases h₂ : c = dotdot
        · subst h₂
          rw [if_pos rfl, enter_dotdot]
          cases l with
          | true =>
              -- the whole walk goes up, the other one stays
              rw [if_pos rfl, if_pos rfl]
              have hsub' : dir.tail.Sublist dir' := (List.tail_sublist dir).trans hsub
              by_cases h0 : dir.length = 0
              · rw [if_pos h0]
                have := ih hms' hsub' (d := d) (by rw [List.length_tail]; omega)
                rwa [List.length_tail, h0] at this
              · rw [if_neg h0]
                have := ih hms' hsub' (d := d + 1) (by rw [List.length_tail]; omega)
                rwa [List.length_tail] at this
          | false =>
              rw [if_neg (by simp), if_neg (by simp), walk_cons, enter_dotdot]
              by_cases h0 : dir.length = 0
              · rw [if_pos h0]
                have := ih hms' hsub.tail (d := d - 1) (by rw [List.length_tail, List.length_tail]; omega)
                rwa [List.length_tail, h0] at this
              · rw [if_neg h0]
                have := ih hms' hsub.tail (d := d) (by rw [List.length_tail, List.length_tail]; omega)
                rwa [List.length_tail] at this
        · rw [if_neg h₂]
          have hname : c ≠ [] ∧ c ≠ dot ∧ c ≠ dotdot := ⟨fun h => h₁ (.inl h), fun h => h₁ (.inr h), h₂⟩
          have hl' : l = false := by
            cases l with
            | false => rfl
            | true => exact absurd (hl rfl) h₂
          rw [hl', enter_of_ne hname, if_neg (by simp), walk_cons, enter_of_ne hname]
          have := ih hms' (hsub.cons_cons c) (d := d) (by rw [List.length_cons, List.length_cons]; omega)
          rwa [List.length_cons] at this

/-- The two walks end in the same directory exactly when nothing is owed. -/
theorem walk_kept_iff {ms : List (Name × Bool)} (hms : Marked ms) (dir : List Name) :
    walk dir (kept ms) = walk dir (ms.map Prod.fst) ↔ owed dir.length 0 ms = 0 := by
  obtain ⟨hsub, hlen⟩ := walk_kept hms (List.Sublist.refl dir) (d := 0) rfl
  constructor
  · intro h
    rw [h] at hlen
    omega
  · intro h
    exact (hsub.eq_of_length (by omega)).symm

/-! ## Taking components out -/

/-- Components that can be put for each other behind any others without a `.`: the same `..` are lost in both. -/
structure Same (x y : List Name) : Prop where
  lookahead : ∀ n, unmatched n false x = unmatched n false y
  walks     : ∀ n o dir, walk dir (kept (marks n o false x)) = walk dir (kept (marks n o false y))

@[simp] theorem walk_kept_cons (dir : List Name) (c : Name) (ms : List (Name × Bool)) :
    walk dir (kept ((c, false) :: ms)) = walk (enter dir c) (kept ms) := rfl

@[simp] theorem walk_kept_lost (dir : List Name) (c : Name) (ms : List (Name × Bool)) :
    walk dir (kept ((c, true) :: ms)) = walk dir (kept ms) := rfl

theorem Same.append {x y : List Name} (h : Same x y) {a : List Name} (ha : dot ∉ a) : Same (a ++ x) (a ++ y) := by
  induction a with
  | nil => exact h
  | cons c a ih =>
      have ih := ih fun hm => ha (List.mem_cons_of_mem c hm)
      rcases name_cases c with rfl | rfl | rfl | hc
      · exact ⟨fun _ => rfl, fun n o dir => ih.walks 0 false _⟩
      · exact absurd (List.mem_cons_self ..) ha
      · refine ⟨fun n => ?_, fun n o dir => ?_⟩
        · simp only [List.cons_append, unmatched_dotdot, ih.lookahead]
        · match n, o with
          | n + 1, o    => exact ih.walks n o _
          | 0, true     => exact ih.walks 0 false _
          | 0, false    =>
              rw [List.cons_append, List.cons_append, marks_dotdot_alone, marks_dotdot_alone, ih.lookahead]
              cases unmatched 0 false (a ++ y) with
              | true => exact ih.walks 0 true _
              | false => exact ih.walks 0 false _
      · refine ⟨fun n => ?_, fun n o dir => ?_⟩
        · rw [List.cons_append, List.cons_append, unmatched_name hc, unmatched_name hc, ih.lookahead]
        · rw [List.cons_append, List.cons_append, marks_name _ _ _ _ hc, marks_name _ _ _ _ hc]
          exact ih.walks (n + 1) o _

/-- A `.` that no `..` follows. -/
theorem Same.of_dot {y : List Name} (hy : y.head? ≠ some dotdot) : Same (dot :: y) y := by
  cases y with
  | nil => exact ⟨fun _ => rfl, fun _ _ _ => rfl⟩
  | cons c y =>
      rcases name_cases c with rfl | rfl | rfl | hc
      · exact ⟨fun _ => rfl, fun _ _ _ => rfl⟩
      · exact ⟨fun _ => rfl, fun _ _ _ => rfl⟩
      · exact absurd rfl hy
      · refine ⟨fun n => ?_, fun n o dir => ?_⟩
        · rw [unmatched_dot, unmatched_name hc, unmatched_name hc]
        · rw [marks_dot, marks_name _ _ _ _ hc, marks_name _ _ _ _ hc]
          rfl

/-- A `.` with the `..` behind it. -/
theorem Same.of_dot_dotdot (y : List Name) : Same (dot :: dotdot :: y) y :=
  ⟨fun _ => rfl, fun _ _ _ => rfl⟩

/-- A name with the `..` behind it. -/
theorem Same.of_name_dotdot {c : Name} (hc : IsName c) (y : List Name) : Same (c :: dotdot :: y) y := by
  refine ⟨fun n => ?_, fun n o dir => ?_⟩
  · rw [unmatched_name hc]
    rfl
  · rw [marks_name _ _ _ _ hc, marks_dotdot_name, walk_kept_cons, walk_kept_cons, enter_of_ne hc]
    rfl

/-- Two `..` behind an empty component, and at the start. -/
theorem Same.of_empty_dotdots (y : List Name) : Same ([] :: dotdot :: dotdot :: y) ([] :: y) :=
  ⟨fun _ => rfl, fun _ _ _ => by
    rw [marks_empty, marks_empty, marks_dotdot_alone]
    rfl⟩

theorem kept_dotdots (y : List Name) (dir : List Name) :
    walk dir (kept (marks 0 false false (dotdot :: dotdot :: y))) = walk dir (kept (marks 0 false false y)) := by
  rw [marks_dotdot_alone]
  rfl

/-! ## Components from which nothing can be taken out -/

/-- No `.`, and a `..` only at the start and behind an empty component. -/
structure Irreducible (cs : List Name) : Prop where
  noDot   : dot ∉ cs
  dotdots : ∀ a c b, cs = a ++ c :: dotdot :: b → c = []

theorem Irreducible.tail {c : Name} {cs : List Name} (h : Irreducible (c :: cs)) : Irreducible cs :=
  ⟨fun hm => h.noDot (List.mem_cons_of_mem c hm), fun a x b hcs => h.dotdots (c :: a) x b (by rw [hcs]; rfl)⟩

theorem Irreducible.head {c : Name} {cs : List Name} (h : Irreducible (c :: cs)) (hc : c ≠ []) :
    cs.head? ≠ some dotdot := by
  intro hhead
  obtain ⟨b, rfl⟩ : ∃ b, cs = dotdot :: b := by
    cases cs with
    | nil => simp at hhead
    | cons x b => exact ⟨b, by rw [Option.some.inj hhead]⟩
  exact hc (h.dotdots [] c b rfl)

theorem Irreducible.unmatched_eq {cs : List Name} (h : Irreducible cs) (hhead : cs.head? ≠ some dotdot)
    (n : Nat) : unmatched n false cs = false := by
  induction cs generalizing n with
  | nil => rfl
  | cons c cs ih =>
      rcases name_cases c with rfl | rfl | rfl | hc
      · rfl
      · exact absurd (List.mem_cons_self ..) h.noDot
      · exact absurd rfl hhead
      · rw [unmatched_name hc]
        exact ih h.tail (h.head hc.1) _

/-- Nothing is lost in such components. -/
theorem Irreducible.kept_marks {cs : List Name} (h : Irreducible cs) {n : Nat}
    (hhead : n = 0 ∨ cs.head? ≠ some dotdot) : kept (marks n false false cs) = cs := by
  induction cs generalizing n with
  | nil => rfl
  | cons c cs ih =>
      rcases name_cases c with rfl | rfl | rfl | hc
      · exact congrArg ([] :: ·) (ih h.tail (.inl rfl))
      · exact absurd (List.mem_cons_self ..) h.noDot
      · obtain rfl : n = 0 := hhead.resolve_right fun hne => hne rfl
        have hnext := h.head (by decide)
        rw [marks_dotdot_alone, h.tail.unmatched_eq hnext]
        exact congrArg (dotdot :: ·) (ih h.tail (.inl rfl))
      · rw [marks_name _ _ _ _ hc]
        exact congrArg (c :: ·) (ih h.tail (.inr (h.head hc.1)))

end Shortpath
end CSamples
