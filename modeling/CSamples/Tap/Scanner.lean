import CSamples.C.Int
import CSamples.Lex.Reader
import CSamples.Tap.Input

/-!
# `Tap.Scanner` — the scanner of TAP files

The rules of `re2c/scanner/scanner.re`, run over the buffer with the checks of the generated `scanner.c`.

## Contents
- **Model.** `rules`; `need`, the checks; `lex`, `scannerScan` and `scanAll`, the calls up to the first `END`.
- **Words.** `mem_lang_rules`: only blanks and plans are longer than six bytes. `Goes`: what the rules go on behind.
- `Sees` and `lawful_reader`: what the scanner sees of the file from `tok` on.
- `Cut`: the bytes in front of the first NUL; `Cut.goes_window_iff`: the first lexeme is longer than what is in sight.
-/

namespace CSamples
namespace Tap

open C CSamples.Lex

/-! ## The rules -/

/-- What `lex` returns: `END` is -1 and `ANY` is 0. -/
inductive Id where
  | end_ | any | plan | testpoint | nl
  deriving DecidableEq, Repr

inductive Action where
  | skip
  | ret (i : Id)
  deriving DecidableEq, Repr

/-- `[ \t\v]` -/
def isBlank (b : UInt8) : Bool := b == 0x20 || b == 0x09 || b == 0x0B

/-- `[1-9]` -/
def isNonZero (b : UInt8) : Bool := ch '1' ≤ b && b ≤ ch '9'

/-- `dec = [1-9][0-9]*` -/
def dec : Regex UInt8 := .seq (.cls isNonZero) (.star (.cls isDigit))

/-- `plan = "1.." dec` -/
def plan : Regex UInt8 := .seq (.word [ch '1', ch '.', ch '.']) dec

/-- `testpoint = ("not ")? "ok"` -/
def testpoint : Regex UInt8 :=
  .seq (.opt (.word [ch 'n', ch 'o', ch 't', 0x20])) (.word [ch 'o', ch 'k'])

/-- `nl = ( "\x0D\x0A" | "\x0D" | "\x0A" )` -/
def nl : Regex UInt8 := .alt (.word [0x0D, 0x0A]) (.alt (.word [0x0D]) (.word [0x0A]))

/-- `ws = [ \t\v]+` -/
def ws : Regex UInt8 := .plus (.cls isBlank)

/-- The rules of `lex`; `nl` stands there twice. -/
def rules : Rules UInt8 Action :=
  [(.word [0], .ret .end_),
   (plan, .ret .plan),
   (testpoint, .ret .testpoint),
   (nl, .ret .nl),
   (ws, .skip),
   (nl, .ret .nl),
   (.cls (fun _ => true), .ret .any)]

/-! ## The model -/

/-- `"1.." dec`, as far as it has come behind its first digit. -/
def isPlan : List UInt8 → Bool
  | p :: q :: r :: d :: ds => p == ch '1' && q == ch '.' && r == ch '.' && isNonZero d && ds.all isDigit
  | _                      => false

/-- The generated code is in the loop of the blanks or of the digits of a plan. -/
def inLoop (u : List UInt8) : Bool := !u.isEmpty && u.all isBlank || isPlan u

/-- How many bytes the generated code asks for in front of a symbol, behind the bytes `u` of a match: six at the
    start, one in a loop; elsewhere it asks for none. -/
def need (u : List UInt8) : Nat := if u = [] then YYMAXFILL else if inLoop u then 1 else 0

/-- The buffer, and the calls of `fill` so far. -/
structure Scan where
  input : Input
  fills : List FillCall

/-- `YYFILL`: a call that fails makes `lex` return. -/
def yyfill (need : Nat) (s : Scan) : Option (Bool × Scan) :=
  (fill need s.input).map (fun x => (x.1 == 0, ⟨x.2, s.fills ++ [⟨need, s.input, x.1, x.2⟩]⟩))

/-- The generated code's `YYCURSOR`, `YYMARKER`, `YYLIMIT` and `YYFILL`. -/
def reader : Reader Scan UInt8 where
  more u s  := if need u ≠ 0 ∧ s.input.lim < s.input.cur + need u then yyfill (need u) s else some (true, s)
  next s    := (load s.input.buf s.input.cur).map
    (fun yych => (yych, { s with input := { s.input with cur := s.input.cur + 1 } }))
  mark s    := { s with input := { s.input with mar := s.input.cur } }
  restore s := { s with input := { s.input with cur := s.input.mar.toNat } }
  fallback  := false

/-- One match; `none` is a `fill` that failed. -/
def step (s : Scan) : Option (Option Action × Scan) :=
  reader.run (BUFSIZE + YYMAXFILL + 1) rules [] none { s with input := { s.input with tok := s.input.cur } }

/-- `lex`. Behind a `fill` that failed it returns -1, which is `END`. -/
def lex : Nat → Scan → Option (Id × Scan)
  | 0, _ => none
  | n + 1, s =>
      (step s).bind (fun x =>
        match x.1 with
        | none          => some (.end_, x.2)
        | some .skip    => lex n x.2
        | some (.ret i) => some (i, x.2))

/-- `Scanner_Scan`, with the id that it leaves in `*id`. -/
def scannerScan (n : Nat) (s : Scan) : Option (Int × Id × Scan) :=
  (lex n s).map (fun x =>
    match x.1 with
    | .any  => (1, x)
    | .end_ => (-1, x)
    | _     => (0, x))

/-- Calls of `Scanner_Scan` up to the first that returns -1. -/
def scanAll : Nat → Scan → Option (List Id × Scan)
  | 0, _ => none
  | n + 1, s =>
      (scannerScan (n + 1) s).bind (fun x =>
        if x.1 = -1 then some ([x.2.1], x.2.2)
        else (scanAll n x.2.2).map (fun y => (x.2.1 :: y.1, y.2)))

/-- The calls on a file. -/
def scanFile (mar : Int) (file : List UInt8) : Option (List Id × Scan) :=
  scanAll (file.length + 2) ⟨inputInit mar file, []⟩

/-! ## The words of the rules -/

theorem isPlan_iff {u : List UInt8} : isPlan u = true ↔
    ∃ d ds, isNonZero d = true ∧ (∀ b ∈ ds, isDigit b = true) ∧ u = ch '1' :: ch '.' :: ch '.' :: d :: ds := by
  constructor
  · intro h
    unfold isPlan at h
    split at h
    · next p q r d ds =>
        simp only [Bool.and_eq_true, beq_iff_eq, List.all_eq_true] at h
        obtain ⟨⟨⟨⟨rfl, rfl⟩, rfl⟩, hd⟩, hds⟩ := h
        exact ⟨d, ds, hd, hds, rfl⟩
    · exact nomatch h
  · rintro ⟨d, ds, hd, hds, rfl⟩
    simp only [isPlan, Bool.and_eq_true, beq_self_eq_true, true_and, List.all_eq_true]
    exact ⟨hd, hds⟩

theorem inLoop_iff {u : List UInt8} : inLoop u = true ↔ (u ≠ [] ∧ ∀ b ∈ u, isBlank b = true) ∨ isPlan u = true := by
  simp [inLoop]

theorem mem_plan {w : List UInt8} : w ∈ plan.lang ↔ isPlan w = true := by
  rw [isPlan_iff]
  constructor
  · rintro ⟨u, hu, v, ⟨x, ⟨d, hd, rfl⟩, ds, hds, rfl⟩, rfl⟩
    rw [Regex.mem_word.mp hu]
    exact ⟨d, ds, hd, Regex.mem_star_cls.mp hds, rfl⟩
  · rintro ⟨d, ds, hd, hds, rfl⟩
    exact ⟨_, Regex.mem_word.mpr rfl, d :: ds, ⟨[d], ⟨d, hd, rfl⟩, ds, Regex.mem_star_cls.mpr hds, rfl⟩, rfl⟩

/-- The words of more than one byte that no loop makes. -/
def shortWords : List (List UInt8) :=
  [[ch 'o', ch 'k'], [ch 'n', ch 'o', ch 't', 0x20, ch 'o', ch 'k'], [0x0D, 0x0A]]

/-- What the rules match. -/
theorem mem_lang_rules {x : Regex UInt8 × Action} (hx : x ∈ rules) {w : List UInt8} (hw : w ∈ x.1.lang) :
    w.length = 1 ∨ w ∈ shortWords ∨ inLoop w = true ∧ (x.2 = .skip ∨ x.2 = .ret .plan) := by
  have hnl : ∀ {w : List UInt8}, w ∈ nl.lang → w.length = 1 ∨ w ∈ shortWords := by
    rintro w (h | h | h) <;> rw [Regex.mem_word.mp h]
    · exact .inr (by decide)
    · exact .inl rfl
    · exact .inl rfl
  simp only [rules, List.mem_cons, List.not_mem_nil, or_false] at hx
  rcases hx with rfl | rfl | rfl | rfl | rfl | rfl | rfl
  · rw [Regex.mem_word.mp hw]
    exact .inl rfl
  · exact .inr (.inr ⟨inLoop_iff.mpr (.inr (mem_plan.mp hw)), .inr rfl⟩)
  · obtain ⟨u, hu, v, hv, rfl⟩ := hw
    rw [Regex.mem_word.mp hv]
    rcases hu with hu | rfl
    · rw [Regex.mem_word.mp hu]
      exact .inr (.inl (by decide))
    · exact .inr (.inl (by decide))
  · exact (hnl hw).imp_right .inl
  · exact .inr (.inr ⟨inLoop_iff.mpr (.inl (Regex.mem_plus_cls.mp hw)), .inl rfl⟩)
  · exact (hnl hw).imp_right .inl
  · obtain ⟨a, -, rfl⟩ := hw
    exact .inl rfl

/-- A run of blanks or a plan is a word. -/
theorem exists_rule_of_inLoop {u : List UInt8} (h : inLoop u = true) : ∃ x ∈ rules, u ∈ x.1.lang := by
  rcases inLoop_iff.mp h with h | h
  · exact ⟨(ws, .skip), by simp [rules], Regex.mem_plus_cls.mpr h⟩
  · exact ⟨(plan, .ret .plan), by simp [rules], mem_plan.mpr h⟩

theorem zero_not_mem_of_inLoop {u : List UInt8} (h : inLoop u = true) : 0 ∉ u := by
  intro h0
  rcases inLoop_iff.mp h with ⟨-, h⟩ | h
  · exact absurd (h 0 h0) (by decide)
  · obtain ⟨d, ds, hd, hds, rfl⟩ := isPlan_iff.mp h
    simp only [List.mem_cons] at h0
    rcases h0 with h0 | h0 | h0 | rfl | h0
    · exact absurd h0 (by decide)
    · exact absurd h0 (by decide)
    · exact absurd h0 (by decide)
    · exact absurd hd (by decide)
    · exact absurd (hds 0 h0) (by decide)

/-- The loops go on. -/
theorem exists_inLoop_append {u : List UInt8} (h : inLoop u = true) : ∃ c, inLoop (u ++ [c]) = true := by
  rcases inLoop_iff.mp h with ⟨-, h⟩ | h
  · refine ⟨0x20, inLoop_iff.mpr (.inl ⟨List.concat_ne_nil _ _, ?_⟩)⟩
    intro b hb
    rcases List.mem_append.mp hb with hb | hb
    · exact h b hb
    · rw [List.mem_singleton.mp hb]
      decide
  · obtain ⟨d, ds, hd, hds, rfl⟩ := isPlan_iff.mp h
    refine ⟨ch '0', inLoop_iff.mpr (.inr (isPlan_iff.mpr ⟨d, ds ++ [ch '0'], hd, ?_, rfl⟩))⟩
    intro b hb
    rcases List.mem_append.mp hb with hb | hb
    · exact hds b hb
    · rw [List.mem_singleton.mp hb]
      decide

/-- From the fourth byte on, they were in the loop all along. -/
theorem inLoop_of_append {u y : List UInt8} (h : inLoop (u ++ y) = true) (hu : 4 ≤ u.length) : inLoop u = true := by
  rcases inLoop_iff.mp h with ⟨-, h⟩ | h
  · refine inLoop_iff.mpr (.inl ⟨?_, fun b hb => h b (List.mem_append_left _ hb)⟩)
    rintro rfl
    exact absurd hu (by decide)
  · obtain ⟨d, ds, hd, hds, heq⟩ := isPlan_iff.mp h
    match u, hu with
    | p :: q :: r :: d' :: ds', _ =>
        simp only [List.cons_append, List.cons.injEq] at heq
        obtain ⟨rfl, rfl, rfl, rfl, rfl⟩ := heq
        exact inLoop_iff.mpr (.inr (isPlan_iff.mpr ⟨d', ds', hd, fun b hb => hds b (List.mem_append_left _ hb), rfl⟩))

/-! ## Where the rules go on -/

/-- The generated code looks at another byte behind `u`. -/
def Goes (u : List UInt8) : Prop := (rules.after u).canStep = true

theorem rules_live : ∀ x ∈ rules, x.1.Live := by
  have hdigit : Regex.Live (.cls isDigit) := ⟨ch '1', by decide⟩
  have hnonzero : Regex.Live (.cls isNonZero) := ⟨ch '1', by decide⟩
  have hblank : Regex.Live (.cls isBlank) := ⟨0x20, by decide⟩
  have hnl : Regex.Live nl := ⟨Regex.live_word _, Regex.live_word _, Regex.live_word _⟩
  intro x hx
  simp only [rules, List.mem_cons, List.not_mem_nil, or_false] at hx
  rcases hx with rfl | rfl | rfl | rfl | rfl | rfl | rfl
  · exact Regex.live_word _
  · exact ⟨Regex.live_word _, hnonzero, hdigit⟩
  · exact ⟨⟨Regex.live_word _, trivial⟩, Regex.live_word _⟩
  · exact hnl
  · exact Regex.live_plus hblank
  · exact hnl
  · exact ⟨0, rfl⟩

theorem goes_iff {u : List UInt8} : Goes u ↔ ∃ x ∈ rules, ∃ a w, u ++ a :: w ∈ x.1.lang :=
  canStep_after_iff rules_live

theorem goes_of_inLoop {u : List UInt8} (h : inLoop u = true) : Goes u := by
  obtain ⟨c, hc⟩ := exists_inLoop_append h
  obtain ⟨x, hx, hw⟩ := exists_rule_of_inLoop hc
  exact goes_iff.mpr ⟨x, hx, c, [], hw⟩

theorem Goes.prefix {u y : List UInt8} (h : Goes (u ++ y)) : Goes u := by
  obtain ⟨x, hx, a, w, hw⟩ := goes_iff.mp h
  cases y with
  | nil =>
      rw [List.append_nil] at hw
      exact goes_iff.mpr ⟨x, hx, a, w, hw⟩
  | cons b y =>
      rw [List.append_assoc] at hw
      exact goes_iff.mpr ⟨x, hx, b, y ++ a :: w, hw⟩

/-- The rules go on in the loops, and else not behind six bytes. -/
theorem Goes.inLoop_or_lt {u : List UInt8} (h : Goes u) (hu : u ≠ []) : inLoop u = true ∨ u.length < YYMAXFILL := by
  have hY : YYMAXFILL = 6 := rfl
  have hpos := List.length_pos_iff.mpr hu
  obtain ⟨x, hx, a, w, hw⟩ := goes_iff.mp h
  rcases mem_lang_rules hx hw with hlen | hshort | ⟨hloop, -⟩
  · rw [List.length_append, List.length_cons] at hlen
    omega
  · have hlen : (u ++ a :: w).length ≤ 6 :=
      (show ∀ y ∈ shortWords, y.length ≤ 6 by decide) _ hshort
    rw [List.length_append, List.length_cons] at hlen
    omega
  · rcases Nat.lt_or_ge u.length 4 with hlt | hge
    · omega
    · exact .inl (inLoop_of_append hloop hge)

/-- A NUL is matched alone. -/
theorem eq_of_zero_mem {x : Regex UInt8 × Action} (hx : x ∈ rules) {w : List UInt8} (hw : w ∈ x.1.lang) (h0 : 0 ∈ w) :
    w = [0] := by
  rcases mem_lang_rules hx hw with hlen | hshort | ⟨hloop, -⟩
  · obtain ⟨a, rfl⟩ := List.length_eq_one_iff.mp hlen
    rw [List.mem_singleton.mp h0]
  · exact absurd h0 ((show ∀ y ∈ shortWords, 0 ∉ y by decide) _ hshort)
  · exact absurd h0 (zero_not_mem_of_inLoop hloop)

theorem Goes.zero_not_mem {u : List UInt8} (h : Goes u) : 0 ∉ u := by
  intro h0
  obtain ⟨x, hx, a, w, hw⟩ := goes_iff.mp h
  have hlen := congrArg List.length (eq_of_zero_mem hx hw (List.mem_append_left _ h0))
  have hpos := List.length_pos_of_mem h0
  rw [List.length_append, List.length_cons, List.length_singleton] at hlen
  omega

/-! ## What the scanner sees -/

/-- The bytes from `tok` on that the buffer can hold. -/
def window (r : List UInt8) : List UInt8 := (r ++ padding).take (inSight r)

theorem length_window (r : List UInt8) : (window r).length = inSight r := by
  rw [window, List.length_take, Nat.min_eq_left (inSight_le r).1]

/-- In a match `u` was read and `v` can be read; the marker is behind its first `m` bytes. `r` is the file from the
    token on. -/
structure Sees (r u v : List UInt8) (m : Option Nat) (s : Scan) : Prop where
  holds  : Holds r s.input
  window : window r = u ++ v
  cur    : s.input.cur = s.input.tok + u.length
  mar    : ∀ k ∈ m, s.input.mar = ((s.input.tok + k : Nat) : Int)
  ahead  : u ≠ [] → s.input.tok + YYMAXFILL ≤ s.input.lim
  fills  : ∀ c ∈ s.fills, c.Sound ∧ c.ret = 0

theorem Sees.length {r u v : List UInt8} {m : Option Nat} {s : Scan} (h : Sees r u v m s) :
    inSight r = u.length + v.length := by
  rw [← length_window, h.window, List.length_append]

/-- Where `fill` is called for bytes that are in sight, it gets them. -/
theorem Sees.yyfill {r u v : List UInt8} {m : Option Nat} {s : Scan} (h : Sees r u v m s) {need : Nat}
    (hneed : need = 1 ∨ u = [] ∧ need = YYMAXFILL) (hsight : u.length + need ≤ inSight r)
    (hcall : s.input.lim < s.input.cur + need) :
    ∃ s', Tap.yyfill need s = some (true, s') ∧ Sees r u v m s' ∧ s'.input.cur + need ≤ s'.input.lim := by
  have hB : BUFSIZE = 4090 := rfl
  have hY : YYMAXFILL = 6 := rfl
  have hcur := h.cur
  have htok := h.holds.ordered.tok_le
  rcases fill_spec h.holds need with ⟨-, heof⟩ | ⟨-, heof, hlt⟩ | ⟨i, hfill, hholds, -, -, htok', hlim', hcur', hmar'⟩
  · -- all of the rest is in the buffer
    obtain ⟨hlen, hshort⟩ := h.holds.length_of_eof heof
    rw [inSight, if_pos hshort] at hsight
    omega
  · -- the token is at the start of a buffer that is full
    have hlim := h.holds.full heof
    rcases hneed with rfl | ⟨rfl, rfl⟩
    · have hlen := congrArg List.length (h.holds.bytes_of_not_eof heof)
      have hsize := h.holds.size
      rw [List.length_append, List.length_take, List.length_drop] at hlen
      unfold inSight at hsight
      split at hsight <;> omega
    · rw [List.length_nil] at hcur
      omega
  · -- all pointers move by the same distance
    have hzero : s.input.cur - s.input.tok = u.length := by omega
    refine ⟨⟨i, s.fills ++ [⟨need, s.input, 0, i⟩]⟩, ?_, ?_, ?_⟩
    · unfold Tap.yyfill
      rw [hfill]
      rfl
    · refine ⟨hholds, h.window, ?_, ?_, ?_, ?_⟩
      · show i.cur = i.tok + u.length
        omega
      · intro k hk
        have := h.mar k hk
        show i.mar = ((i.tok + k : Nat) : Int)
        omega
      · intro _
        have := (inSight_le r).2
        show i.tok + YYMAXFILL ≤ i.lim
        omega
      · intro c hc
        rcases List.mem_append.mp hc with hc | hc
        · exact h.fills c hc
        · obtain rfl := List.mem_singleton.mp hc
          refine ⟨⟨h.holds.ordered, hholds.ordered, fun _ => ?_⟩, rfl⟩
          show need ≤ i.lim - i.cur
          omega
    · show i.cur + need ≤ i.lim
      omega

theorem reader_more (u : List UInt8) (s : Scan) : reader.more u s =
    if need u ≠ 0 ∧ s.input.lim < s.input.cur + need u then yyfill (need u) s else some (true, s) := rfl

/-- The check in front of a byte in sight. -/
theorem Sees.more {r u v : List UInt8} {a : UInt8} {m : Option Nat} {s : Scan} (h : Sees r u (a :: v) m s)
    (hgoes : Goes u) : ∃ s', reader.more u s = some (true, s') ∧ Sees r u (a :: v) m s' ∧
      s'.input.cur < s'.input.lim ∧ s'.input.tok + YYMAXFILL ≤ s'.input.lim := by
  have hY : YYMAXFILL = 6 := rfl
  have hcur := h.cur
  have hlen := h.length
  have hsix := (inSight_le r).2
  rw [List.length_cons] at hlen
  rw [reader_more]
  by_cases hu : u = []
  · subst hu
    have hneed : need [] = YYMAXFILL := if_pos rfl
    rw [hneed]
    rw [List.length_nil] at hcur
    split
    · next hcall =>
        obtain ⟨s', hs', hsees, hahead⟩ := h.yyfill (.inr ⟨rfl, rfl⟩) (by simpa using hsix) hcall.2
        have hcur' := hsees.cur
        rw [List.length_nil] at hcur'
        exact ⟨s', hs', hsees, by omega, by omega⟩
    · next hno =>
        have hge : s.input.cur + YYMAXFILL ≤ s.input.lim := Nat.le_of_not_lt (fun hlt => hno ⟨by decide, hlt⟩)
        exact ⟨s, rfl, h, by omega, by omega⟩
  · by_cases hloop : inLoop u = true
    · have hneed : need u = 1 := by rw [need, if_neg hu, if_pos hloop]
      rw [hneed]
      split
      · next hcall =>
          obtain ⟨s', hs', hsees, hahead⟩ := h.yyfill (.inl rfl) (by omega) hcall.2
          exact ⟨s', hs', hsees, hahead, hsees.ahead hu⟩
      · next hno =>
          have hge : s.input.cur + 1 ≤ s.input.lim := Nat.le_of_not_lt (fun hlt => hno ⟨by decide, hlt⟩)
          exact ⟨s, rfl, h, hge, h.ahead hu⟩
    · have hneed : need u = 0 := by rw [need, if_neg hu, if_neg hloop]
      have hlt := (hgoes.inLoop_or_lt hu).resolve_left hloop
      have hahead := h.ahead hu
      rw [hneed, if_neg (fun hcall => hcall.1 rfl)]
      exact ⟨s, rfl, h, by omega, hahead⟩

theorem lawful_reader (r : List UInt8) : reader.LawfulOn Goes (Sees r) where
  next := by
    intro u a v m s hgoes h
    obtain ⟨s₁, hmore, h₁, hlt, hahead⟩ := h.more hgoes
    have hcur := h₁.cur
    -- the byte under the cursor is the next one of the window
    have hbyte : load s₁.input.buf s₁.input.cur = some a := by
      rw [hcur, h₁.holds.load (by omega)]
      have hw : (window r)[u.length]? = some a := by
        rw [h₁.window, List.getElem?_append_right (Nat.le_refl _), Nat.sub_self]
        rfl
      have hlen := h₁.length
      rw [List.length_cons] at hlen
      rwa [window, List.getElem?_take_of_lt (by omega)] at hw
    refine ⟨s₁, { s₁ with input := { s₁.input with cur := s₁.input.cur + 1 } }, hmore, ?_, ?_⟩
    · show (load s₁.input.buf s₁.input.cur).map _ = _
      rw [hbyte]
      rfl
    · have htok := h₁.holds.ordered.tok_le
      exact
        { holds  := { h₁.holds with ordered := ⟨Nat.le_succ_of_le htok, hlt, h₁.holds.ordered.lim_le⟩ }
          window := by rw [h₁.window, List.append_assoc, List.singleton_append]
          cur    := by
            rw [List.length_append, List.length_singleton]
            show s₁.input.cur + 1 = s₁.input.tok + (u.length + 1)
            omega
          mar    := h₁.mar
          ahead  := fun _ => hahead
          fills  := h₁.fills }
  mark := by
    intro u v m s h
    refine ⟨{ h.holds with ordered := ⟨h.holds.ordered.tok_le, h.holds.ordered.cur_le, h.holds.ordered.lim_le⟩ },
      h.window, h.cur, ?_, h.ahead, h.fills⟩
    intro k hk
    obtain rfl := Option.some.inj hk
    exact congrArg Int.ofNat h.cur
  restore := by
    intro u v k s h hk
    have hmar := h.mar k rfl
    have hcur := h.cur
    have hnat : s.input.mar.toNat = s.input.tok + k := by omega
    have hle : s.input.mar.toNat ≤ s.input.cur := by omega
    exact
      { holds  := { h.holds with
                    ordered := ⟨by show s.input.tok ≤ s.input.mar.toNat; omega,
                      Nat.le_trans hle h.holds.ordered.cur_le, h.holds.ordered.lim_le⟩ }
        window := by rw [h.window, ← List.append_assoc, List.take_append_drop]
        cur    := by
          show s.input.mar.toNat = _
          rw [hnat, List.length_take, Nat.min_eq_left hk]
          rfl
        mar    := h.mar
        ahead  := fun hne => h.ahead (fun hnil => hne (by rw [hnil, List.take_nil]))
        fills  := h.fills }

/-! ## The bytes in front of a NUL -/

/-- `v` are the bytes of `r` in front of its first NUL, which may be one of the padding. -/
structure Cut (r v : List UInt8) : Prop where
  nul   : 0 ∉ v
  split : ∃ z, r ++ padding = v ++ 0 :: z ∧ YYMAXFILL ≤ z.length + 1

theorem cut_takeWhile (file : List UInt8) : Cut file (file.takeWhile (· != 0)) where
  nul   := fun h => absurd (List.all_eq_true.mp List.all_takeWhile 0 h) (by decide)
  split := by
    have hfile := List.takeWhile_append_dropWhile (p := (· != 0)) (l := file)
    cases hd : file.dropWhile (· != 0) with
    | nil =>
        rw [hd, List.append_nil] at hfile
        rw [hfile]
        exact ⟨List.replicate 5 0, rfl, by decide⟩
    | cons b bs =>
        have hb : b = 0 := by
          have hhead := List.head_dropWhile_not (· != 0) (l := file) (by rw [hd]; exact List.cons_ne_nil b bs)
          simpa [hd] using hhead
        subst hb
        refine ⟨bs ++ padding, ?_, ?_⟩
        · rw [hd] at hfile
          conv_lhs => rw [← hfile]
          rw [List.append_assoc, List.cons_append]
        · rw [List.length_append, length_padding]
          omega

theorem Cut.length_le {r v : List UInt8} (h : Cut r v) : v.length ≤ r.length := by
  obtain ⟨z, hsplit, hz⟩ := h.split
  have hlen := congrArg List.length hsplit
  rw [List.length_append, length_padding, List.length_append, List.length_cons] at hlen
  omega

theorem Cut.drop {r v : List UInt8} (h : Cut r v) {n : Nat} (hn : n ≤ v.length) : Cut (r.drop n) (v.drop n) where
  nul   := fun h0 => h.nul (List.mem_of_mem_drop h0)
  split := by
    obtain ⟨z, hsplit, hz⟩ := h.split
    refine ⟨z, ?_, hz⟩
    rw [← List.drop_append_of_le_length (Nat.le_trans hn h.length_le), hsplit, List.drop_append_of_le_length hn]

/-- The NUL is in sight, or `BUFSIZE` bytes in front of it. -/
theorem Cut.window {r v : List UInt8} (h : Cut r v) :
    (∃ y, window r = v ++ 0 :: y) ∨ (window r = v.take BUFSIZE ∧ BUFSIZE ≤ v.length) := by
  have hle := h.length_le
  obtain ⟨z, hsplit, -⟩ := h.split
  unfold Tap.window
  rw [hsplit]
  rcases Nat.lt_or_ge v.length (inSight r) with hlt | hge
  · left
    obtain ⟨k, hk⟩ : ∃ k, inSight r = v.length + (k + 1) := ⟨inSight r - v.length - 1, by omega⟩
    rw [hk, List.take_length_add_append, List.take_succ_cons]
    exact ⟨_, rfl⟩
  · right
    have hlong : ¬ r.length < BUFSIZE := by
      intro hshort
      rw [inSight, if_pos hshort] at hge
      have hY : YYMAXFILL = 6 := rfl
      omega
    rw [inSight, if_neg hlong] at hge ⊢
    exact ⟨List.take_append_of_le_length hge, hge⟩

/-- Where the rules stop in what is in sight, they stop there in the whole. -/
theorem Cut.munch_window {r v : List UInt8} (h : Cut r v) (hstop : ¬ Goes (Tap.window r)) :
    munch rules (Tap.window r) = munch rules (v ++ [0]) := by
  rcases h.window with ⟨y, hy⟩ | ⟨hy, hlong⟩
  · have hnul : (rules.after (v ++ [0])).canStep = false :=
      Bool.eq_false_iff.mpr (fun hgoes => Goes.zero_not_mem hgoes (by simp))
    rw [hy, List.append_cons, munch_append_of_not_canStep hnul]
  · rw [hy] at hstop ⊢
    conv_rhs => rw [← List.take_append_drop BUFSIZE v, List.append_assoc]
    exact (munch_append_of_not_canStep (Bool.eq_false_iff.mpr hstop) _).symm

/-- A long match stays in a loop. -/
theorem inLoop_of_munch {v : List UInt8} {a : Action} {n : Nat} (hm : munch rules (v ++ [0]) = some (a, n))
    (hn : YYMAXFILL < n) : inLoop (v.take n) = true ∧ n ≤ v.length := by
  have hY : YYMAXFILL = 6 := rfl
  obtain ⟨x, hx, hw⟩ := mem_lang_of_munch hm
  have hle := munch_length_le hm
  have hlen : ((v ++ [0]).take n).length = n := by
    rw [List.length_take, Nat.min_eq_left hle]
  have hloop : inLoop ((v ++ [0]).take n) = true := by
    rcases mem_lang_rules hx hw with h1 | hshort | ⟨hloop, -⟩
    · omega
    · have := (show ∀ y ∈ shortWords, y.length ≤ 6 by decide) _ hshort
      omega
    · exact hloop
  have hv : n ≤ v.length := by
    by_contra hgt
    rw [List.take_of_length_le (by rw [List.length_append, List.length_singleton]; omega)] at hloop
    exact zero_not_mem_of_inLoop hloop (by simp)
  rw [List.take_append_of_le_length hv] at hloop
  exact ⟨hloop, hv⟩

/-- The rules go on behind everything in sight exactly if the first lexeme does not fit. -/
theorem Cut.goes_window_iff {r v : List UInt8} (h : Cut r v) {a : Action} {n : Nat}
    (hm : munch rules (v ++ [0]) = some (a, n)) : Goes (Tap.window r) ↔ BUFSIZE ≤ n := by
  have hB : BUFSIZE = 4090 := rfl
  have hY : YYMAXFILL = 6 := rfl
  constructor
  · intro hgoes
    rcases h.window with ⟨y, hy⟩ | ⟨hy, hlong⟩
    · rw [hy] at hgoes
      exact absurd (by simp) hgoes.zero_not_mem
    · rw [hy] at hgoes
      have hlen : (v.take BUFSIZE).length = BUFSIZE := by rw [List.length_take, Nat.min_eq_left hlong]
      have hne : v.take BUFSIZE ≠ [] := by
        intro hnil
        rw [hnil] at hlen
        exact absurd hlen (by decide)
      have hloop := (hgoes.inLoop_or_lt hne).resolve_right (by omega)
      obtain ⟨x, hx, hw⟩ := exists_rule_of_inLoop hloop
      rw [← List.take_append_drop BUFSIZE v, List.append_assoc] at hm
      exact hlen ▸ length_le_of_munch hm hx hw
  · intro hn
    obtain ⟨hloop, hv⟩ := inLoop_of_munch hm (by omega)
    have hlong : ¬ r.length < BUFSIZE := by
      have := h.length_le
      omega
    have hwindow : Tap.window r = v.take BUFSIZE := by
      rcases h.window with ⟨y, hy⟩ | ⟨hy, -⟩
      · have hlen := congrArg List.length hy
        rw [length_window, inSight, if_neg hlong, List.length_append, List.length_cons] at hlen
        omega
      · exact hy
    rw [hwindow]
    refine goes_of_inLoop (inLoop_of_append (y := (v.take n).drop BUFSIZE) ?_ ?_)
    · rwa [← List.take_append_drop BUFSIZE (v.take n), List.take_take, Nat.min_eq_left hn] at hloop
    · rw [List.length_take]
      omega

end Tap
end CSamples
