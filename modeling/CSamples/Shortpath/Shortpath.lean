import CSamples.Lex.Search
import CSamples.Shortpath.Path

/-!
# `Shortpath.Shortpath` — `shortpath` of `shortpath/shortpath`

The loop takes the leftmost longest `name/../` or `./` behind a slash out of the path until there is none.

## Contents
- **Model.** `shortpath`, with `regexec` as the POSIX leftmost longest match of the source's pattern and every
  access to the string checked.
- **One iteration.** `regexec_some`, what is taken out, as components; `regexec_none`, when there is nothing.
- **The loop.** `loop_spec`, and `shortpath_resolve_iff`: exactly when both paths lead to the same directory.
-/

namespace CSamples
namespace Shortpath

open C CSamples.Lex Text Regex

/-! ## The model -/

/-- `/([^/]+/\.\./|\./)` -/
def pattern : Regex UInt8 :=
  seq (cls (· == slash))
    (alt (seq (plus (cls (· != slash))) (word (slash :: dotdot ++ [slash]))) (word (dot ++ [slash])))

/-- `regexec(&re, path, 2, matches, REG_NOTBOL | REG_NOTEOL)`: `rm_so` and `rm_eo` of the group, which is all of the
    match but the slash in front. -/
def regexec (path : List UInt8) : Option (Nat × Nat) :=
  (search pattern path).map fun x => (x.1 + 1, x.1 + x.2)

/-- The loop, for at most as many iterations as the path has bytes. -/
def loop : Nat → Mem → Option Mem
  | 0, _ => none
  | fuel+1, path => do
      let str ← strAt path 0
      match regexec str with
      | none => some path
      | some (start, stop) =>
          let len ← strlen path 0
          let path ← memmove path start stop (len - stop)
          let path ← store path (len - (stop - start)) 0
          loop fuel path

/-- `shortpath(path)` -/
def shortpath (path : Mem) : Option Mem := do
  let len ← strlen path 0
  loop (len + 1) path

/-- The marks of all components of a path; the first and the last are never taken out. -/
def lostMarks (p : List UInt8) : List (Name × Bool) :=
  match lines slash p with
  | []      => [(rest slash p, false)]
  | c :: cs => (c, false) :: marks 0 false false cs ++ [(rest slash p, false)]

/-! ## One iteration -/

/-- What the pattern matches. -/
theorem mem_pattern {x : List UInt8} :
    x ∈ pattern.lang ↔
      (∃ c, c ≠ [] ∧ slash ∉ c ∧ x = slash :: (c ++ slash :: (dotdot ++ [slash]))) ∨ x = slash :: (dot ++ [slash]) := by
  simp only [pattern, mem_seq, mem_alt, mem_cls, mem_word]
  constructor
  · rintro ⟨_, ⟨b, hb, rfl⟩, v, hv, rfl⟩
    obtain rfl : b = slash := by simpa using hb
    rcases hv with ⟨c, hc, _, rfl, rfl⟩ | rfl
    · obtain ⟨hne, hall⟩ := mem_plus_cls.mp hc
      exact .inl ⟨c, hne, fun h => by simpa using hall slash h, rfl⟩
    · exact .inr rfl
  · rintro (⟨c, hne, hc, rfl⟩ | rfl)
    · have hall : ∀ b ∈ c, (b != slash) = true := fun b hb => by
        simpa using fun h : b = slash => hc (h ▸ hb)
      exact ⟨[slash], ⟨slash, by simp, rfl⟩, _, .inl ⟨c, mem_plus_cls.mpr ⟨hne, hall⟩, _, rfl, rfl⟩, rfl⟩
    · exact ⟨[slash], ⟨slash, by simp, rfl⟩, _, .inr rfl, rfl⟩

/-- Components with their slashes. -/
def join (cs : List Name) : List UInt8 := cs.flatMap (· ++ [slash])

@[simp] theorem join_append (cs cs' : List Name) : join (cs ++ cs') = join cs ++ join cs' := List.flatMap_append ..
@[simp] theorem join_cons (c : Name) (cs : List Name) : join (c :: cs) = c ++ slash :: join cs := by simp [join]
@[simp] theorem join_nil : join [] = [] := rfl

/-- In front of the last slash of some components. -/
theorem join_eq_concat {cs : List Name} (h : cs ≠ []) : ∃ w, join cs = w ++ [slash] := by
  obtain ⟨cs, c, rfl⟩ := List.eq_nil_or_concat cs |>.resolve_left h
  exact ⟨join cs ++ c, by simp⟩

theorem join_lines (p : List UInt8) : join (lines slash p) ++ rest slash p = p := unlines_append_rest p

/-- Behind a slash components start anew. -/
theorem components_append_slash {a : List UInt8} (ha : rest slash a = []) (w : List UInt8) :
    lines slash (a ++ w) = lines slash a ++ lines slash w ∧ rest slash (a ++ w) = rest slash w := by
  rw [lines_append, rest_append, ha]
  exact ⟨rfl, rfl⟩

/-- What one iteration takes out: the components it finds between `a` and `b`. -/
inductive Taken (a : List Name) : List Name → List Name → Prop
  | dot {b : List Name} (hb : b.head? ≠ some dotdot) : Taken a [dot] b
  | pair {b : List Name} {c : Name} (hc : c ≠ []) (hup : c = dotdot → a = [] ∨ ∃ a', a = a' ++ [[]]) :
      Taken a [c, dotdot] b

/-- Taking it out changes nothing but for the `..` that are lost. -/
theorem Taken.walk {a g b : List Name} (h : Taken a g b) (ha : Shortpath.dot ∉ a) (dir : List Name) :
    walk dir (kept (marks 0 false false (a ++ (g ++ b)))) = walk dir (kept (marks 0 false false (a ++ b))) := by
  cases h with
  | dot hb => exact ((Same.of_dot hb).append ha).walks 0 false dir
  | @pair _ c hc hup =>
      rcases name_cases c with rfl | rfl | rfl | hname
      · exact absurd rfl hc
      · exact ((Same.of_dot_dotdot b).append ha).walks 0 false dir
      · rcases hup rfl with rfl | ⟨a', rfl⟩
        · exact kept_dotdots b dir
        · have hsame := (Same.of_empty_dotdots b).append fun hm => ha (List.mem_append_left _ hm)
          simpa using hsame.walks 0 false dir
      · exact ((Same.of_name_dotdot hname b).append ha).walks 0 false dir

/-- No match starts at the slash in front of a later component of what stays in front of the group. -/
theorem leftmost_components {u g v : List UInt8} (hfound : Found pattern u (slash :: g) v) {c : Name}
    {cs₁ cs₂ : List Name} (hjoin : u ++ [slash] = join (c :: (cs₁ ++ cs₂))) (hne : cs₂ ≠ []) {x v' : List UInt8}
    (hx : slash :: x ∈ pattern.lang) (hw : join cs₂ ++ (g ++ v) = x ++ v') : False := by
  obtain ⟨w, hw₁⟩ := @join_eq_concat (c :: cs₁) (by simp)
  obtain ⟨w₂, hw₂⟩ := join_eq_concat hne
  rw [← List.cons_append, join_append, hw₁] at hjoin
  have hle := hfound.leftmost w (slash :: x) v' ?_ hx
  · have hlen := congrArg List.length hjoin
    rw [hw₂] at hlen
    simp only [List.length_append, List.length_singleton] at hlen
    omega
  · calc w ++ slash :: x ++ v' = w ++ [slash] ++ (x ++ v') := by simp
      _ = w ++ [slash] ++ join cs₂ ++ (g ++ v) := by
          rw [← hw]
          simp only [List.append_assoc]
      _ = u ++ [slash] ++ (g ++ v) := by rw [← hjoin]
      _ = u ++ slash :: g ++ v := by simp

/-- Where a `..` and the `..` behind it are taken out, no name is in front of them: that is further left. -/
theorem taken_pair {u d v : List UInt8} (hfound : Found pattern u (slash :: (d ++ slash :: (dotdot ++ [slash]))) v)
    (hd : d ≠ []) {c : Name} {cs : List Name} (hcs : lines slash (u ++ [slash]) = c :: cs)
    (hjoin : u ++ [slash] = join (c :: cs)) : Taken cs [d, dotdot] (lines slash v) := by
  refine .pair hd ?_
  rintro rfl
  rcases List.eq_nil_or_concat cs with hnil | ⟨cs', e, rfl⟩
  · exact .inl hnil
  · refine .inr ⟨cs', ?_⟩
    by_cases he : e = []
    · rw [he, List.concat_eq_append]
    · have hslash : slash ∉ e := sep_not_mem_of_mem_lines (w := u ++ [slash]) (by rw [hcs]; simp)
      rw [List.concat_eq_append] at hjoin
      exact absurd (@leftmost_components _ _ _ hfound _ _ _ hjoin (by simp) (e ++ slash :: (dotdot ++ [slash]))
        (dotdot ++ slash :: v) (mem_pattern.mpr (.inl ⟨e, he, hslash, rfl⟩)) (by simp)) id

/-- Where a `.` is taken out, no `..` is behind it: the match with it is longer. -/
theorem taken_dot {u v : List UInt8} (hfound : Found pattern u (slash :: (dot ++ [slash])) v) (cs : List Name) :
    Taken cs [dot] (lines slash v) := by
  refine .dot ?_
  intro hv
  obtain ⟨w, rfl⟩ : ∃ w, v = dotdot ++ slash :: w := by
    have hv' := join_lines v
    cases hl : lines slash v with
    | nil => simp [hl] at hv
    | cons e ls =>
        rw [hl] at hv hv'
        obtain rfl : e = dotdot := by simpa using hv
        exact ⟨join ls ++ rest slash v, by rw [join_cons] at hv'; simpa using hv'.symm⟩
  have hlong := hfound.longest (slash :: (dot ++ slash :: (dotdot ++ [slash]))) w (by simp)
    (mem_pattern.mpr (.inl ⟨dot, by decide, by decide, rfl⟩))
  simp [dot, dotdot] at hlong

/-- **What `regexec` finds.** -/
theorem regexec_some {p : List UInt8} {start stop : Nat} (h : regexec p = some (start, stop)) :
    ∃ a g b c cs gs bs, p = a ++ g ++ b ∧ start = a.length ∧ stop = a.length + g.length ∧ g ≠ [] ∧
      (a ++ b).head? = p.head? ∧ lines slash p = c :: (cs ++ (gs ++ bs)) ∧ lines slash (a ++ b) = c :: (cs ++ bs) ∧
      rest slash (a ++ b) = rest slash p ∧ dot ∉ cs ∧ Taken cs gs bs := by
  obtain ⟨⟨i, n⟩, hi, hout⟩ := Option.map_eq_some_iff.mp h
  obtain ⟨rfl, rfl⟩ := Prod.mk.inj hout
  obtain ⟨u, x, v, rfl, rfl, rfl, hfound⟩ := search_eq_some hi
  obtain ⟨g, rfl⟩ : ∃ g, x = slash :: g := by
    rcases mem_pattern.mp hfound.mem with ⟨c, -, -, rfl⟩ | rfl
    · exact ⟨_, rfl⟩
    · exact ⟨_, rfl⟩
  -- the components of what stays in front of the group
  have ha : rest slash (u ++ [slash]) = [] := by rw [rest_segment]; rfl
  obtain ⟨c, cs, hcs⟩ : ∃ c cs, lines slash (u ++ [slash]) = c :: cs := by
    cases hl : lines slash (u ++ [slash]) with
    | nil => exact absurd (by simp) (lines_eq_nil_iff.mp hl)
    | cons c cs => exact ⟨c, cs, rfl⟩
  have hjoin : u ++ [slash] = join (c :: cs) := by
    have := join_lines (u ++ [slash])
    rw [ha, hcs, List.append_nil] at this
    exact this.symm
  have hp : u ++ slash :: g ++ v = u ++ [slash] ++ g ++ v := by simp
  have hhead : (u ++ [slash] ++ v).head? = (u ++ slash :: g ++ v).head? := by
    cases u <;> rfl
  have hdot : dot ∉ cs := by
    intro hmem
    obtain ⟨cs₁, cs₂, rfl⟩ := List.append_of_mem hmem
    exact @leftmost_components _ _ _ hfound _ _ _ hjoin (by simp) (dot ++ [slash]) (join cs₂ ++ (g ++ v))
      (mem_pattern.mpr (.inr rfl)) (by simp)
  obtain ⟨gs, hgs, hrest, hne, htaken⟩ : ∃ gs, lines slash (g ++ v) = gs ++ lines slash v ∧
      rest slash (g ++ v) = rest slash v ∧ g ≠ [] ∧ Taken cs gs (lines slash v) := by
    rcases mem_pattern.mp hfound.mem with ⟨d, hd, hslash, hg⟩ | hg
    · obtain rfl := (List.cons.inj hg).2
      have hgv : d ++ slash :: (dotdot ++ [slash]) ++ v = d ++ slash :: (dotdot ++ slash :: v) := by simp
      refine ⟨[d, dotdot], ?_, ?_, by simp, taken_pair hfound hd hcs hjoin⟩
      · rw [hgv, lines_segment hslash, lines_segment (by decide)]
        rfl
      · rw [hgv, rest_segment, rest_segment]
    · obtain rfl := (List.cons.inj hg).2
      have hgv : dot ++ [slash] ++ v = dot ++ slash :: v := by simp
      refine ⟨[dot], ?_, ?_, by simp, taken_dot hfound cs⟩
      · rw [hgv, lines_segment (by decide)]
        rfl
      · rw [hgv, rest_segment]
  obtain ⟨hl₁, hr₁⟩ := components_append_slash ha (g ++ v)
  obtain ⟨hl₂, hr₂⟩ := components_append_slash ha v
  refine ⟨u ++ [slash], g, v, c, cs, gs, lines slash v, hp, by simp, by simp; omega, hne, hhead, ?_, ?_, ?_, hdot,
    htaken⟩
  · rw [hp, List.append_assoc, hl₁, hgs, hcs]
    rfl
  · rw [hl₂, hcs]
    rfl
  · rw [hr₂, hp, List.append_assoc, hr₁, hrest]

/-- **When `regexec` finds nothing.** -/
theorem regexec_none {p : List UInt8} (h : regexec p = none) {c : Name} {cs : List Name}
    (hlines : lines slash p = c :: cs) : Irreducible cs := by
  have hnone {u x v : List UInt8} (hp : p = u ++ x ++ v) : x ∉ pattern.lang :=
    search_eq_none (Option.map_eq_none_iff.mp h) hp
  have hjoin := join_lines p
  rw [hlines] at hjoin
  -- every component but the first has a slash in front
  have hmatch {cs₁ cs₂ : List Name} (hsplit : cs = cs₁ ++ cs₂) {x' v' : List UInt8} (hw : join cs₂ = x' ++ v') :
      slash :: x' ∉ pattern.lang := by
    obtain ⟨w, hw₁⟩ := @join_eq_concat (c :: cs₁) (by simp)
    refine hnone (u := w) (v := v' ++ rest slash p) (hjoin.symm.trans ?_)
    rw [hsplit, ← List.cons_append, join_append, hw₁, hw]
    simp
  refine ⟨fun hdot => ?_, fun a d b hcs => ?_⟩
  · obtain ⟨cs₁, cs₂, rfl⟩ := List.append_of_mem hdot
    exact @hmatch _ _ rfl (dot ++ [slash]) (join cs₂) (by simp) (mem_pattern.mpr (.inr rfl))
  · by_contra hne
    have hd : slash ∉ d := sep_not_mem_of_mem_lines (w := p) (by rw [hlines, hcs]; simp)
    exact @hmatch _ _ hcs (d ++ slash :: (dotdot ++ [slash])) (join b) (by simp)
      (mem_pattern.mpr (.inl ⟨d, hne, hd, rfl⟩))

/-! ## The loop -/

/-- One path was made from another by taking components out, and nothing can be taken out any more. -/
structure Reduced (p q : List UInt8) : Prop where
  head  : q.head? = p.head?
  rest  : rest slash q = rest slash p
  lines : (lines slash p = [] ∧ lines slash q = []) ∨ ∃ c cs cs', lines slash p = c :: cs ∧ lines slash q = c :: cs' ∧
    ∀ dir, walk dir (kept (marks 0 false false cs)) = walk dir cs'

/-- The two stores of a pass, with the bytes they leave behind the new NUL: those behind the old one are at the
    end of them. -/
theorem take_out (a g b r : List UInt8) (hg : g ≠ []) :
    ∃ m, memmove (a ++ g ++ b ++ 0 :: r) a.length (a.length + g.length) b.length = some m ∧
      store m (a.length + b.length) 0 = some (a ++ b ++ 0 :: ((g ++ b ++ [0]).drop (b.length + 1) ++ r)) := by
  have hm : a ++ g ++ b ++ 0 :: r = a ++ (g ++ (b ++ 0 :: r)) := by simp
  have hsrc : ((a ++ (g ++ (b ++ 0 :: r))).drop (a.length + g.length)).take b.length = b := by
    rw [← List.drop_drop, List.drop_left, List.drop_left, List.take_left]
  have hpos := List.length_pos_iff.mpr hg
  -- the byte behind `b`, where the new NUL goes
  obtain ⟨x, z, hz⟩ : ∃ x z, (g ++ b ++ [0]).drop b.length = x :: z := by
    cases hd : (g ++ b ++ [0]).drop b.length with
    | nil =>
        have := congrArg List.length hd
        simp only [List.length_drop, List.length_append, List.length_cons, List.length_nil] at this
        omega
    | cons x z => exact ⟨x, z, rfl⟩
  have hz' : (g ++ b ++ [0]).drop (b.length + 1) = z := by rw [← List.drop_drop, hz]; rfl
  have hdrop : (a ++ (g ++ (b ++ 0 :: r))).drop (a.length + b.length) = x :: (z ++ r) := by
    have hsplit : g ++ (b ++ 0 :: r) = g ++ b ++ [0] ++ r := by simp
    rw [← List.drop_drop, List.drop_left, hsplit, List.drop_append_of_le_length (by simp; omega), hz]
    rfl
  refine ⟨a ++ b ++ x :: (z ++ r), ?_, ?_⟩
  · rw [hm, memmove, if_pos (by simp; omega), hsrc, blit_eq_some (by simp; omega), List.take_left, hdrop]
  · rw [hz']
    exact store_append _ _ _ _ (by simp)

/-- **The loop** ends, and what it leaves is the path with components taken out. -/
theorem loop_spec (fuel : Nat) (p r : List UInt8) (hp : 0 ∉ p) (hfuel : p.length < fuel) :
    ∃ q r', loop fuel (p ++ 0 :: r) = some (q ++ 0 :: r') ∧ 0 ∉ q ∧ Reduced p q := by
  induction fuel generalizing p r with
  | zero => exact absurd hfuel (Nat.not_lt_zero _)
  | succ fuel ih =>
      have hstr : strAt (p ++ 0 :: r) 0 = some p := cstr_append_nul hp r
      unfold loop
      rw [hstr]
      simp only [Option.bind_eq_bind, Option.bind_some]
      cases hre : regexec p with
      | none =>
          refine ⟨p, r, rfl, hp, rfl, rfl, ?_⟩
          cases hl : lines slash p with
          | nil => exact .inl ⟨rfl, rfl⟩
          | cons c cs =>
              exact .inr ⟨c, cs, cs, rfl, rfl, fun dir => by rw [(regexec_none hre hl).kept_marks (.inl rfl)]⟩
      | some m =>
          obtain ⟨start, stop⟩ := m
          obtain ⟨a, g, b, c, cs, gs, bs, rfl, rfl, rfl, hg, hhead, hl, hl', hrest, hdot, htaken⟩ := regexec_some hre
          obtain ⟨m, hmove, hstore⟩ := take_out a g b r hg
          have hpos := List.length_pos_iff.mpr hg
          have hlen : (a ++ g ++ b).length = a.length + g.length + b.length := by simp only [List.length_append]
          have hab : 0 ∉ a ++ b := fun h => hp (by
            rcases List.mem_append.mp h with h | h
            · simp [h]
            · simp [h])
          obtain ⟨q, r'', hq, hq0, hred⟩ := ih (a ++ b) _ hab (by rw [List.length_append]; omega)
          refine ⟨q, r'', ?_, hq0, hred.head.trans hhead, hred.rest.trans hrest, .inr ?_⟩
          · simp only [strlen_append_nul hp, Option.bind_some, hlen]
            rw [show a.length + g.length + b.length - (a.length + g.length) = b.length by omega, hmove, Option.bind_some,
              show a.length + g.length + b.length - (a.length + g.length - a.length) = a.length + b.length by omega,
              hstore, Option.bind_some, hq]
          · rcases hred.lines with ⟨h, -⟩ | ⟨c₁, cs₁, cs', h₁, h₂, hwalk⟩
            · rw [hl'] at h
              exact absurd h (List.cons_ne_nil _ _)
            · rw [hl'] at h₁
              obtain ⟨rfl, rfl⟩ := List.cons.inj h₁
              refine ⟨c, _, cs', hl, h₂, fun dir => ?_⟩
              rw [htaken.walk hdot dir, hwalk dir]

/-- **`shortpath` and the directory a path leads to**: from any starting directory the shortened path leads to the
    same directory exactly when nothing is owed for its lost `..`. -/
theorem shortpath_resolve_iff (p : List UInt8) (hp : 0 ∉ p) (r : List UInt8) (start : List Name) :
    ∃ q r', shortpath (p ++ 0 :: r) = some (q ++ 0 :: r') ∧ 0 ∉ q ∧
      (resolve start q = resolve start p ↔
        owed (if p.head? = some slash then 0 else start.length) 0 (lostMarks p) = 0) := by
  obtain ⟨q, r', hq, hq0, hred⟩ := loop_spec (p.length + 1) p r hp (Nat.lt_succ_self _)
  have hrun : shortpath (p ++ 0 :: r) = some (q ++ 0 :: r') := by
    rw [shortpath, strlen_append_nul hp]
    exact hq
  refine ⟨q, r', hrun, hq0, ?_⟩
  -- both paths start in the same directory, and the shortened one is what the marks keep
  obtain ⟨hmarked, hall, hkept⟩ : Marked (lostMarks p) ∧ (lostMarks p).map Prod.fst = components p ∧
      ∀ dir, walk dir (kept (lostMarks p)) = walk dir (components q) := by
    unfold lostMarks components
    rw [hred.rest]
    rcases hred.lines with ⟨hp', hq'⟩ | ⟨c, cs, cs', hp', hq', hwalk⟩
    · rw [hp', hq']
      exact ⟨by simp [Marked], rfl, fun _ => rfl⟩
    · rw [hp', hq']
      refine ⟨?_, ?_, fun dir => ?_⟩
      · have := marked_marks 0 false false cs
        intro m hm
        simp only [List.cons_append, List.mem_cons, List.mem_append, List.not_mem_nil, or_false] at hm
        rcases hm with rfl | hm | rfl
        · simp
        · exact this m hm
        · simp
      · simp [map_fst_marks]
      · have hsplit : kept ((c, false) :: marks 0 false false cs ++ [(rest slash p, false)]) =
            c :: (kept (marks 0 false false cs) ++ [rest slash p]) := by
          simp [kept]
        rw [hsplit, List.cons_append, walk_cons, walk_cons, walk_append, walk_append, hwalk]
  have hstart : ∀ dir : List Name, dir = (if p.head? = some slash then [] else start) →
      dir.length = if p.head? = some slash then 0 else start.length := by
    rintro dir rfl
    split
    · rfl
    · rfl
  rw [resolve, resolve, hred.head, ← hkept, ← hall, walk_kept_iff hmarked, hstart _ rfl]

/-- `a/b/../c` leads where its shortening does. -/
theorem shortpath_resolve_name :
    ∃ q r', shortpath (['a', '/', 'b', '/', '.', '.', '/', 'c'].map ch ++ 0 :: []) = some (q ++ 0 :: r') ∧ 0 ∉ q ∧
      resolve [[ch 'x']] q = resolve [[ch 'x']] (['a', '/', 'b', '/', '.', '.', '/', 'c'].map ch) := by
  obtain ⟨q, r', hq, hq0, hiff⟩ :=
    shortpath_resolve_iff (['a', '/', 'b', '/', '.', '.', '/', 'c'].map ch) (by decide) [] [[ch 'x']]
  exact ⟨q, r', hq, hq0, hiff.mpr (by decide)⟩

/-- `a/../../b` becomes `a/b`: from `x` the one leads to `b`, the other to `x/a/b`. -/
theorem shortpath_dotdots :
    (shortpath (['a', '/', '.', '.', '/', '.', '.', '/', 'b'].map ch ++ [0])).bind cstr =
        some (['a', '/', 'b'].map ch) ∧
      resolve [[ch 'x']] (['a', '/', 'b'].map ch) ≠
        resolve [[ch 'x']] (['a', '/', '.', '.', '/', '.', '.', '/', 'b'].map ch) := by
  decide +kernel

end Shortpath
end CSamples
