import CSamples.C.Int
import CSamples.Calc.Parser
import CSamples.Lex.Munch
import CSamples.Lex.Render

/-!
# `Calc.Scanner` — the scanner of the calculator

The rules of `calc/scanner/scanner.re` and the tokens they make of an input that is there as a whole, with
the newline that `fill` puts behind it.

## Contents
- `rules`, and `scanned`, the results of repeated calls of `scan` up to `EOF`.
- `munch_literal`, `munch_char`, `munch_blank`: the rule that wins, by the first byte.
- `scanned_renders`: the scanner finds the tokens that a text was made of.
-/

namespace CSamples
namespace Calc

open C CSamples.Lex

/-! ## The rules -/

/-- The actions of the rules. -/
inductive Tag where
  /-- `RET` with a token -/
  | ret (t : Terminal)
  /-- `[ \t\v\f]+`: `goto std` -/
  | blank
  /-- `"\r\n" | "\n"`: `EOF` at the end of the input, else `TOKEN_NEWLINE` -/
  | newline
  /-- `ANY`: a message, then `goto std` -/
  | any
  deriving DecidableEq, Repr

def isDigit19 (b : UInt8) : Bool := ch '1' ≤ b && b ≤ ch '9'

/-- Space, tab, vertical tab and form feed. -/
def isBlank (b : UInt8) : Bool := b == 0x20 || b == 0x09 || b == 0x0B || b == 0x0C

def CR : UInt8 := 0x0D
def LF : UInt8 := 0x0A

/-- `INTEGER = [1-9][0-9]*` -/
def integer : Regex UInt8 := .seq (.cls isDigit19) (.star (.cls isDigit))

/-- The rules of `scan`, in their order. -/
def rules : Rules UInt8 Tag :=
  [(integer, .ret .num),
   (.word [ch '%'], .ret (.op .mod)),
   (.word [ch '^'], .ret (.op .exp)),
   (.word [ch '('], .ret .lrb),
   (.word [ch ')'], .ret .rrb),
   (.word [ch '+'], .ret (.op .plus)),
   (.word [ch '-'], .ret (.op .minus)),
   (.word [ch '*'], .ret (.op .times)),
   (.word [ch '/'], .ret (.op .divide)),
   (.plus (.cls isBlank), .blank),
   (.alt (.word [CR, LF]) (.word [LF]), .newline),
   (.cls (fun _ => true), .any)]

/-- What a call of `scan` returns: a token with the text from `tok` to `cur`, or `EOF`. -/
inductive Scanned where
  | token (t : Terminal) (text : List UInt8)
  | eof
  deriving DecidableEq, Repr

/-- The results of repeated calls, from the matches: a newline that ends the input is `EOF`. -/
def scans : List (Tag × List UInt8) → List Scanned
  | []                  => []
  | (.ret t, u) :: ls   => .token t u :: scans ls
  | (.blank, _) :: ls   => scans ls
  | (.any, _) :: ls     => scans ls
  | (.newline, u) :: ls => if ls.isEmpty then [.eof] else .token .newline u :: scans ls

/-- The results of repeated calls on an input with the newline behind it in one buffer. -/
def scanned (input : List UInt8) : List Scanned := scans (lexemes rules (input ++ [LF]))

/-! ## The rule that wins -/

theorem mem_integer {w : List UInt8} :
    w ∈ integer.lang ↔ ∃ d ds, isDigit19 d = true ∧ (∀ b ∈ ds, isDigit b = true) ∧ w = d :: ds := by
  unfold integer
  simp only [Regex.mem_seq, Regex.mem_cls, Regex.mem_star_cls]
  constructor
  · rintro ⟨_, ⟨d, hd, rfl⟩, ds, hds, rfl⟩
    exact ⟨d, ds, hd, hds, rfl⟩
  · rintro ⟨d, ds, hd, hds, rfl⟩
    exact ⟨[d], ⟨d, hd, rfl⟩, ds, hds, rfl⟩

theorem isDigit_of_isDigit19 {b : UInt8} (h : isDigit19 b = true) : isDigit b = true := by
  revert h
  simp only [isDigit19, isDigit, Bool.and_eq_true, decide_eq_true_eq]
  intro h
  exact ⟨UInt8.le_trans (by decide) h.1, h.2⟩

/-- A beginning of a literal is a literal. -/
theorem integer_of_prefix {u u' : List UInt8} (hu : u ∈ integer.lang) (hpre : u' <+: u) (hne : u' ≠ []) :
    u' ∈ integer.lang := by
  obtain ⟨d, ds, hd, hds, rfl⟩ := mem_integer.mp hu
  obtain ⟨e, es, rfl⟩ := List.exists_cons_of_ne_nil hne
  obtain ⟨rfl, hes⟩ := List.cons_prefix_cons.mp hpre
  exact mem_integer.mpr ⟨e, es, hd, fun c hc => hds c (hes.subset hc), rfl⟩

/-- What a match of any rule looks like. -/
theorem mem_rules {x : Regex UInt8 × Tag} (hx : x ∈ rules) {w : List UInt8} (hw : w ∈ x.1.lang) :
    w ∈ integer.lang ∨ (w ≠ [] ∧ ∀ b ∈ w, isBlank b = true) ∨ w = [CR, LF] ∨ ∃ b, w = [b] := by
  simp only [rules, List.mem_cons, List.not_mem_nil, or_false] at hx
  rcases hx with rfl | rfl | rfl | rfl | rfl | rfl | rfl | rfl | rfl | rfl | rfl | rfl
  · exact .inl hw
  · exact .inr (.inr (.inr ⟨_, Regex.mem_word.mp hw⟩))
  · exact .inr (.inr (.inr ⟨_, Regex.mem_word.mp hw⟩))
  · exact .inr (.inr (.inr ⟨_, Regex.mem_word.mp hw⟩))
  · exact .inr (.inr (.inr ⟨_, Regex.mem_word.mp hw⟩))
  · exact .inr (.inr (.inr ⟨_, Regex.mem_word.mp hw⟩))
  · exact .inr (.inr (.inr ⟨_, Regex.mem_word.mp hw⟩))
  · exact .inr (.inr (.inr ⟨_, Regex.mem_word.mp hw⟩))
  · exact .inr (.inr (.inr ⟨_, Regex.mem_word.mp hw⟩))
  · exact .inr (.inl (Regex.mem_plus_cls.mp hw))
  · rcases hw with hw | hw
    · exact .inr (.inr (.inl (Regex.mem_word.mp hw)))
    · exact .inr (.inr (.inr ⟨_, Regex.mem_word.mp hw⟩))
  · obtain ⟨b, -, rfl⟩ := Regex.mem_cls.mp hw
    exact .inr (.inr (.inr ⟨b, rfl⟩))

theorem eq_of_isBlank {b : UInt8} (h : isBlank b = true) : b = 0x20 ∨ b = 0x09 ∨ b = 0x0B ∨ b = 0x0C := by
  simpa [isBlank, or_assoc] using h

theorem isDigit_of_isBlank {b : UInt8} (h : isBlank b = true) : isDigit b = false := by
  rcases eq_of_isBlank h with rfl | rfl | rfl | rfl <;> decide

theorem ne_CR_of_isDigit {b : UInt8} (h : isDigit b = true) : b ≠ CR := by
  rintro rfl
  revert h
  decide

/-- **A literal** ends where its digits end. -/
theorem munch_literal {u v : List UInt8} (hu : u ∈ integer.lang) (hv : ∀ b ∈ v.head?, isDigit b = false) :
    munch rules (u ++ v) = some (.ret .num, u.length) := by
  obtain ⟨d, ds, hd, hds, rfl⟩ := mem_integer.mp hu
  have hdigit := isDigit_of_isDigit19 hd
  apply munch_append (ruleOf_of_mem hu)
  intro x hx p hp hpv hmem
  obtain ⟨b, p, rfl⟩ := List.exists_cons_of_ne_nil hp
  rcases mem_rules hx hmem with h | ⟨-, h⟩ | h | ⟨c, h⟩
  · -- the literal would go on with `b`
    obtain ⟨d', ds', -, hds', heq⟩ := mem_integer.mp h
    have hb : b ∈ ds' := by
      rw [← (List.cons.inj heq).2]
      exact List.mem_append_right _ (List.mem_cons_self ..)
    have hhead : b ∈ v.head? := by
      obtain ⟨q, rfl⟩ := hpv
      rfl
    exact absurd (hds' b hb) (by rw [hv b hhead]; decide)
  · have hblank := h d (List.mem_cons_self ..)
    rw [isDigit_of_isBlank hblank] at hdigit
    exact absurd hdigit (by decide)
  · exact ne_CR_of_isDigit hdigit (List.cons.inj h).1
  · have hlen := congrArg List.length h
    simp at hlen

/-- **A byte of its own**: neither digit nor blank nor CR. -/
theorem munch_char {c : UInt8} {t : Tag} (hc : ruleOf rules [c] = some t) (hd : isDigit19 c = false)
    (hb : isBlank c = false) (hr : c ≠ CR) (v : List UInt8) : munch rules (c :: v) = some (t, 1) := by
  apply @munch_append _ _ rules [c] v t hc
  intro x hx p hp _ hmem
  rcases mem_rules hx hmem with h | ⟨-, h⟩ | h | ⟨b, h⟩
  · obtain ⟨d', ds', hd', -, heq⟩ := mem_integer.mp h
    rw [← (List.cons.inj heq).1, hd] at hd'
    exact absurd hd' (by decide)
  · have hblank := h c (List.mem_cons_self ..)
    rw [hb] at hblank
    exact absurd hblank (by decide)
  · exact hr (List.cons.inj h).1
  · exact hp (List.cons.inj h).2

/-- **A run of blanks.** -/
theorem munch_blank {u v : List UInt8} (hu : u ≠ []) (hall : ∀ b ∈ u, isBlank b = true)
    (hv : ∀ b ∈ v.head?, isBlank b = false) : munch rules (u ++ v) = some (.blank, u.length) := by
  obtain ⟨a, u, rfl⟩ := List.exists_cons_of_ne_nil hu
  have ha := hall a (List.mem_cons_self ..)
  have hnum : a :: u ∉ integer.lang := by
    intro h
    obtain ⟨d, ds, hd, -, heq⟩ := mem_integer.mp h
    have hdig := isDigit_of_isDigit19 hd
    rw [← (List.cons.inj heq).1, isDigit_of_isBlank ha] at hdig
    exact absurd hdig (by decide)
  have hword : ∀ c, isBlank c = false → a :: u ∉ (Regex.word [c]).lang := by
    intro c hc h
    rw [(List.cons.inj (Regex.mem_word.mp h)).1, hc] at ha
    exact absurd ha (by decide)
  apply munch_append
  · rw [rules, ruleOf_of_not_mem hnum, ruleOf_of_not_mem (hword _ (by decide)),
      ruleOf_of_not_mem (hword _ (by decide)), ruleOf_of_not_mem (hword _ (by decide)),
      ruleOf_of_not_mem (hword _ (by decide)), ruleOf_of_not_mem (hword _ (by decide)),
      ruleOf_of_not_mem (hword _ (by decide)), ruleOf_of_not_mem (hword _ (by decide)),
      ruleOf_of_not_mem (hword _ (by decide))]
    exact ruleOf_of_mem (Regex.mem_plus_cls.mpr ⟨hu, hall⟩)
  · intro x hx p hp hpv hmem
    obtain ⟨b, p, rfl⟩ := List.exists_cons_of_ne_nil hp
    have hhead : b ∈ v.head? := by
      obtain ⟨q, rfl⟩ := hpv
      rfl
    rcases mem_rules hx hmem with h | ⟨-, h⟩ | h | ⟨c, h⟩
    · obtain ⟨d, ds, hd, -, heq⟩ := mem_integer.mp h
      have hdig := isDigit_of_isDigit19 hd
      rw [← (List.cons.inj heq).1, isDigit_of_isBlank ha] at hdig
      exact absurd hdig (by decide)
    · -- the run would go on with `b`
      have hblank := h b (by simp)
      rw [hv b hhead] at hblank
      exact absurd hblank (by decide)
    · rw [(List.cons.inj h).1] at ha
      exact absurd ha (by decide)
    · have hlen := congrArg List.length h
      simp at hlen

/-- Some rule matches in front of any byte. -/
theorem lexemes_rules_ne_nil {w : List UInt8} (hw : w ≠ []) : lexemes rules w ≠ [] := by
  obtain ⟨b, w, rfl⟩ := List.exists_cons_of_ne_nil hw
  cases h : munch rules (b :: w) with
  | none =>
      have hnone := munch_eq_none_iff.mp h 1 (by simp)
      have hany := ruleOf_eq_none.mp hnone (.cls (fun _ => true), .any) (by simp [rules])
      exact absurd (Regex.mem_cls.mpr ⟨b, rfl, rfl⟩) hany
  | some x =>
      obtain ⟨t, n⟩ := x
      cases n with
      | zero =>
          -- the byte itself is matched, so the longest match is not empty
          have hl := munch_eq_some_iff.mp h
          have hnone := hl.longest 1 Nat.one_pos (by simp)
          have hany := ruleOf_eq_none.mp hnone (.cls (fun _ => true), .any) (by simp [rules])
          exact absurd (Regex.mem_cls.mpr ⟨b, rfl, rfl⟩) hany
      | succ n => exact lexemes_ne_nil h

/-- A leading blank makes no difference. -/
theorem scans_blank {b : UInt8} (hb : isBlank b = true) (w : List UInt8) :
    scans (lexemes rules (b :: w)) = scans (lexemes rules w) := by
  -- the run of blanks that starts with `b`
  have hsplit : w = w.takeWhile isBlank ++ w.dropWhile isBlank := (List.takeWhile_append_dropWhile).symm
  have hrun : ∀ c ∈ w.takeWhile isBlank, isBlank c = true := List.all_eq_true.mp List.all_takeWhile
  have hrest : ∀ c ∈ (w.dropWhile isBlank).head?, isBlank c = false := by
    intro c hc
    have hnot := List.head?_dropWhile_not isBlank w
    rw [Option.mem_def.mp hc] at hnot
    exact hnot
  have hcons : lexemes rules (b :: w)
      = (.blank, b :: w.takeWhile isBlank) :: lexemes rules (w.dropWhile isBlank) := by
    conv_lhs => rw [hsplit, ← List.cons_append]
    apply lexemes_append (List.cons_ne_nil _ _)
    apply munch_blank (List.cons_ne_nil _ _) _ hrest
    intro c hc
    rcases List.mem_cons.mp hc with rfl | hc
    · exact hb
    · exact hrun c hc
  have hw : scans (lexemes rules w) = scans (lexemes rules (w.dropWhile isBlank)) := by
    by_cases hnil : w.takeWhile isBlank = []
    · conv_lhs => rw [hsplit, hnil, List.nil_append]
    · conv_lhs => rw [hsplit]
      rw [lexemes_append hnil (munch_blank hnil hrun hrest)]
      rfl
  rw [hcons, hw]
  rfl

/-! ## Tokens with blanks between them -/

/-- The texts of the tokens. -/
inductive IsText : Terminal → List UInt8 → Prop
  | num {u : List UInt8} (hu : u ∈ integer.lang) : IsText .num u
  | char {t : Terminal} {c : UInt8} (hc : ruleOf rules [c] = some (.ret t)) (hd : isDigit19 c = false)
      (hb : isBlank c = false) (hr : c ≠ CR) : IsText t [c]
  | newline : IsText .newline [LF]

/-- Two tokens that blanks need not separate: not both are literals. -/
def Separate (x y : Terminal × List UInt8) : Prop := x.1 = .num → y.1 ≠ .num

theorem isDigit_of_isText {t : Terminal} {u : List UInt8} (h : IsText t u) (ht : t ≠ .num) :
    ∀ b ∈ u.head?, isDigit b = false := by
  intro b hb
  cases h with
  | num hu => exact absurd rfl ht
  | @char _ c hc hd hbl hr =>
      obtain rfl : c = b := Option.some.inj hb
      by_contra hdig
      -- the only digit that starts no literal is zero, and it is not a token
      have hzero : c = ch '0' := by
        simp only [Bool.not_eq_false] at hdig
        revert hd hdig
        simp only [isDigit, isDigit19, Bool.and_eq_true, Bool.and_eq_false_iff, decide_eq_true_eq,
          decide_eq_false_iff_not, ch, UInt8.le_iff_toNat_le, ← UInt8.toNat_inj]
        simp
        omega
      rw [hzero] at hc
      revert hc
      rw [show ruleOf rules [ch '0'] = some .any by decide +kernel]
      simp
  | newline =>
      obtain rfl : LF = b := Option.some.inj hb
      rfl

theorem IsText.ne_nil {t : Terminal} {u : List UInt8} (h : IsText t u) : u ≠ [] := by
  cases h with
  | num hu =>
      obtain ⟨d, ds, -, -, rfl⟩ := mem_integer.mp hu
      exact List.cons_ne_nil _ _
  | char hc hd hb hr => exact List.cons_ne_nil _ _
  | newline => exact List.cons_ne_nil _ _

/-- What stands behind a literal. -/
theorem isDigit_head_renders {ts : List (Terminal × List UInt8)} {w : List UInt8} (h : Renders isBlank ts w)
    (htext : ∀ x ∈ ts, IsText x.1 x.2) (hts : ∀ x ∈ ts.head?, x.1 ≠ .num) :
    ∀ b ∈ (w ++ [LF]).head?, isDigit b = false := by
  intro b hb
  cases w with
  | nil =>
      obtain rfl : LF = b := Option.some.inj hb
      rfl
  | cons c w =>
      rcases h.head (fun x hx => (htext x hx).ne_nil) b hb with hblank | ⟨x, hx, hbx⟩
      · exact isDigit_of_isBlank hblank
      · exact isDigit_of_isText (htext x (List.mem_of_mem_head? hx)) (hts x hx) b hbx

/-- **The scanner finds the tokens** of a text they were put into with blanks between them. -/
theorem scanned_renders {ts : List (Terminal × List UInt8)} {w : List UInt8} (h : Renders isBlank ts w)
    (htext : ∀ x ∈ ts, IsText x.1 x.2) (hts : ts.IsChain Separate) :
    scanned w = ts.map (fun x => .token x.1 x.2) ++ [.eof] := by
  induction h with
  | nil => decide +kernel
  | @blank b ts w hb _ ih =>
      rw [← ih htext hts]
      exact scans_blank hb (w ++ [LF])
  | @token t u ts w h ih =>
      have hu : IsText t u := htext (t, u) (List.mem_cons_self ..)
      have htext' : ∀ x ∈ ts, IsText x.1 x.2 := fun x hx => htext x (List.mem_cons_of_mem _ hx)
      obtain ⟨hhead, hts⟩ := List.isChain_cons.mp hts
      have hne : lexemes rules (w ++ [LF]) ≠ [] := lexemes_rules_ne_nil (by simp)
      rw [List.map_cons, List.cons_append, ← ih htext' hts]
      unfold scanned
      cases hu with
      | num hu =>
          have hnext := isDigit_head_renders h htext' (fun y hy => hhead y hy rfl)
          have hune : u ≠ [] := IsText.ne_nil (.num hu)
          rw [List.append_assoc, lexemes_append hune (munch_literal hu hnext)]
          rfl
      | @char _ c hc hd hbl hr =>
          have hmunch := munch_char hc hd hbl hr (w ++ [LF])
          rw [List.append_assoc, lexemes_append (List.cons_ne_nil _ _) hmunch]
          rfl
      | newline =>
          have hmunch := munch_char (show ruleOf rules [LF] = some .newline by decide +kernel) (by decide) (by decide)
            (by decide) (w ++ [LF])
          rw [List.append_assoc, lexemes_append (List.cons_ne_nil _ _) hmunch]
          show (if (lexemes rules (w ++ [LF])).isEmpty then _ else _) = _
          rw [if_neg]
          simpa using hne

end Calc
end CSamples
