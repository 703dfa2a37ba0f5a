import CSamples.Tokenizer.Json

/-!
# `Tokenizer.Comments` — comments in front of the tokenizer

Texts made of numbers, literals, punctuation, blanks, line ends and comments, and what the scanner makes of the
comments. A comment does not move `tok`, so that all of it must fit in the buffer; the end of the file and a NUL
are taken for what they are not.

## Contents
- **Specification.** `Piece`, `Text`, and `Text.Fits`, the condition.
- `events_commentC`, `events_line`: the inside of a comment that fits; `exit_commentC`, `exit_line`: of one that does not.
- `scanAll_comments`: the comments of a text leave no trace if, and unless a line comment holds a NUL only if,
  the text fits.
-/

namespace CSamples
namespace Tokenizer
namespace Comments

open C CSamples.Lex CSamples.Scanner

/-! ## Texts with comments -/

/-- The pieces of a text. A line comment starts with `#` or, if `slashes`, with `//`, and ends with `b`. -/
inductive Piece where
  | blank (b : UInt8)
  | eol (b : UInt8)
  | token (t : Terminal) (u : List UInt8)
  | block (body : List UInt8)
  | line (slashes : Bool) (body : List UInt8) (b : UInt8)

def opening (slashes : Bool) : List UInt8 := if slashes then [ch '/', ch '/'] else [ch '#']

def Piece.text : Piece → List UInt8
  | .blank b      => [b]
  | .eol b        => [b]
  | .token _ u    => u
  | .block body   => [ch '/', ch '*'] ++ (body ++ [ch '*', ch '/'])
  | .line s body b => opening s ++ (body ++ [b])

/-- `*/` closes the comment where it occurs first. -/
def Closed (body : List UInt8) : Prop := ∀ x y, body ++ [ch '*'] ≠ x ++ ch '*' :: ch '/' :: y

/-- The texts of tokens; strings are not among them. -/
def IsToken (t : Terminal) (u : List UInt8) : Prop :=
  (t = .number ∧ u ∈ number.lang) ∨ (t ≠ .number ∧ t ≠ .string ∧ u ∈ (Json.texts t).lang)

def Piece.Valid : Piece → Prop
  | .blank b      => isBlank b = true
  | .eol b        => isEol b = true
  | .token t u    => IsToken t u
  | .block body   => Closed body
  | .line _ body b => (∀ c ∈ body, isEol c = false) ∧ isEol b = true

/-- A number that directly follows a number starts with a minus. -/
def Apart : Piece → Piece → Prop
  | .token .number _, .token .number u => ∀ b ∈ u.head?, b = ch '-'
  | _, _ => True

/-- The bytes of pieces, and of a line comment that the end of the file ends. -/
def bytes (ps : List Piece) (last : Option (Bool × List UInt8)) : List UInt8 :=
  (ps.map Piece.text).flatten ++ (last.map (fun l => opening l.1 ++ l.2)).getD []

/-- A text. -/
structure Text where
  pieces : List Piece
  last   : Option (Bool × List UInt8)
  valid  : ∀ p ∈ pieces, p.Valid
  inLast : ∀ l ∈ last, ∀ c ∈ l.2, isEol c = false
  apart  : pieces.IsChain Apart

/-- What the driver should get: the tokens outside the comments, and then `EOF`. -/
def expected : List Piece → List (Event Scanned)
  | []               => [(.eof, [])]
  | .token t u :: ps => (.token t, u) :: expected ps
  | _ :: ps          => expected ps

/-- A number or a comment has at most `BUFSIZE` bytes, and there is no NUL in a comment. -/
def Piece.Fits : Piece → Prop
  | .token _ u    => u.length ≤ BUFSIZE
  | .block body   => body.length + 4 ≤ BUFSIZE ∧ 0 ∉ body
  | .line s body _ => (opening s).length + body.length + 1 ≤ BUFSIZE ∧ 0 ∉ body
  | _             => True

/-- Every piece fits, and no line comment is ended by the end of the file. -/
def Text.Fits (t : Text) : Prop := (∀ p ∈ t.pieces, p.Fits) ∧ t.last = none

/-- No line comment holds a NUL. -/
def Text.NoNul (t : Text) : Prop :=
  (∀ s body b, Piece.line s body b ∈ t.pieces → 0 ∉ body) ∧ ∀ l ∈ t.last, 0 ∉ l.2

/-! ## Inside a block comment -/

theorem munch_commentC_other {b : UInt8} {w : List UInt8} (hb : b ≠ 0) (h : b = ch '*' → ch '/' ∉ w.head?) :
    munch commentC (b :: w) = some (.goto none .commentC, 1) := by
  have hrule : ruleOf commentC [b] = some (.goto none .commentC) := by
    have hclose : [b] ∉ (Regex.word [ch '*', ch '/']).lang := by simp
    have hnul : [b] ∉ (Regex.word [(0 : UInt8)]).lang := by simpa using hb
    rw [commentC, ruleOf_of_not_mem hclose, ruleOf_of_not_mem hnul]
    exact ruleOf_of_mem (Regex.mem_cls.mpr ⟨b, rfl, rfl⟩)
  refine @munch_append _ _ commentC [b] w _ hrule ?_
  intro x hx p hp hpw hmem
  simp only [commentC, List.mem_cons, List.not_mem_nil, or_false] at hx
  rcases hx with rfl | rfl | rfl
  · -- the only longer match is the end of the comment
    obtain ⟨rfl, hp'⟩ := List.cons.inj (Regex.mem_word.mp hmem)
    refine h rfl ?_
    obtain ⟨q, rfl⟩ := hpw
    change p = [ch '/'] at hp'
    rw [hp']
    rfl
  · exact hp (List.cons.inj (Regex.mem_word.mp hmem)).2
  · obtain ⟨c, -, heq⟩ := Regex.mem_cls.mp hmem
    exact hp (List.cons.inj heq).2

/-- Inside a comment the bytes of the token are kept. -/
theorem token_of_ne {l : Label} (hl : l ≠ .std) (u : List UInt8) : blocks.token l u = u := if_neg hl

/-- One byte of a comment. -/
theorem events_byte {l : Label} (hl : l ≠ .std) {u v : List UInt8} {b : UInt8} (hu : u.length < BUFSIZE)
    (hm : munch (block l) (b :: v.take (BUFSIZE - (u.length + 1))) = some (.goto none l, 1)) :
    blocks.events (some BUFSIZE) l u (b :: v) = blocks.events (some BUFSIZE) l (u ++ [b]) v := by
  have hwindow : Blocks.window (some BUFSIZE) (blocks.token l u) (b :: v) = b :: v.take (BUFSIZE - (u.length + 1)) := by
    rw [token_of_ne hl]
    show (b :: v).take (BUFSIZE - u.length) = _
    rw [show BUFSIZE - u.length = BUFSIZE - (u.length + 1) + 1 by omega, List.take_succ_cons]
  rw [Blocks.events_goto (hwindow ▸ hm), token_of_ne hl]
  rfl

theorem Closed.tail {b : UInt8} {body : List UInt8} (h : Closed (b :: body)) : Closed body := by
  intro x y heq
  exact h (b :: x) y (by rw [List.cons_append, heq]; rfl)

/-- In a closed comment a star in front of the end is not followed by a slash, however little is in sight. -/
theorem Closed.head {body : List UInt8} (h : Closed (ch '*' :: body)) (rest : List UInt8) (n : Nat) :
    ch '/' ∉ ((body ++ ch '*' :: ch '/' :: rest).take n).head? := by
  intro hmem
  rw [List.head?_take] at hmem
  by_cases hn : n = 0
  · rw [if_pos hn] at hmem
    exact absurd hmem (by simp)
  · rw [if_neg hn] at hmem
    cases body with
    | nil => exact absurd (Option.some.inj hmem) (by decide)
    | cons c body =>
        obtain rfl : c = ch '/' := Option.some.inj hmem
        exact h [] (body ++ [ch '*']) rfl

/-- **A block comment that fits**: the scanner goes on behind it. -/
theorem events_commentC {body : List UInt8} (hclosed : Closed body) (hnul : 0 ∉ body) {u : List UInt8}
    (hlen : u.length + body.length + 2 ≤ BUFSIZE) (rest : List UInt8) :
    blocks.events (some BUFSIZE) .commentC u (body ++ ch '*' :: ch '/' :: rest) = scanned rest := by
  induction body generalizing u with
  | nil =>
      have hm : munch (blocks.block .commentC) (Blocks.window (some BUFSIZE) (blocks.token .commentC u)
          (ch '*' :: ch '/' :: rest)) = some (.goto none .std, 2) := by
        show munch commentC (([ch '*', ch '/'] ++ rest).take (BUFSIZE - u.length)) = _
        rw [List.take_append, List.take_of_length_le (by simp at hlen ⊢; omega)]
        exact munch_of_stuck (by decide +kernel) (by decide +kernel) _
      rw [List.nil_append, Blocks.events_goto hm]
      exact Blocks.events_std blocks _ _ _
  | cons b body ih =>
      rw [List.length_cons] at hlen
      have hb : b ≠ 0 := fun h => hnul (h ▸ List.mem_cons_self ..)
      rw [List.cons_append, events_byte (by decide) (by omega)]
      · refine ih hclosed.tail (fun h => hnul (List.mem_cons_of_mem b h)) ?_
        rw [List.length_append, List.length_singleton]
        omega
      · refine munch_commentC_other hb ?_
        rintro rfl
        exact hclosed.head rest _

/-- The window is used up inside a comment. -/
theorem exit_end {l : Label} (hl : l ≠ .std) {u : List UInt8} (v : List UInt8)
    (h : Blocks.window (some BUFSIZE) u v = []) : blocks.events (some BUFSIZE) l u v = [(.exit, u)] := by
  have hend := @Blocks.events_end _ _ _ blocks (some BUFSIZE) l u v (by rw [token_of_ne hl]; exact h)
  rw [hend, token_of_ne hl]
  cases l with
  | std => exact absurd rfl hl
  | _ => rfl

/-- **A block comment that does not fit**: the program is left. -/
theorem exit_commentC {body : List UInt8} (hclosed : Closed body) {u : List UInt8}
    (h : 0 ∈ body ∨ BUFSIZE < u.length + body.length + 2) (rest : List UInt8) :
    ∃ x, blocks.events (some BUFSIZE) .commentC u (body ++ ch '*' :: ch '/' :: rest) = [(.exit, x)] := by
  induction body generalizing u with
  | nil =>
      have hlen : BUFSIZE < u.length + 2 := h.resolve_left (by simp)
      by_cases hu : BUFSIZE ≤ u.length
      · -- no byte is in sight any more
        refine ⟨u, exit_end (by decide) _ ?_⟩
        show List.take (BUFSIZE - u.length) _ = _
        rw [Nat.sub_eq_zero_of_le hu, List.take_zero]
      · -- the star is in sight, the slash is not
        refine ⟨u ++ [ch '*'], ?_⟩
        have hzero : BUFSIZE - (u.length + 1) = 0 := by omega
        rw [List.nil_append, events_byte (by decide) (by omega)]
        · refine exit_end (by decide) _ ?_
          show List.take (BUFSIZE - (u ++ [ch '*']).length) _ = _
          rw [List.length_append, List.length_singleton, hzero, List.take_zero]
        · refine munch_commentC_other (by decide) (fun _ => ?_)
          rw [hzero, List.take_zero]
          simp
  | cons b body ih =>
      by_cases hu : BUFSIZE ≤ u.length
      · refine ⟨u, exit_end (by decide) _ ?_⟩
        show List.take (BUFSIZE - u.length) _ = _
        rw [Nat.sub_eq_zero_of_le hu, List.take_zero]
      · by_cases hb : b = 0
        · -- a NUL is taken for the end of the file
          subst hb
          have hm : munch (blocks.block .commentC) (Blocks.window (some BUFSIZE) (blocks.token .commentC u)
              (0 :: body ++ ch '*' :: ch '/' :: rest)) = some (.ret .exit, 1) := by
            show munch commentC (([0] ++ (body ++ ch '*' :: ch '/' :: rest)).take (BUFSIZE - u.length)) = _
            rw [List.take_append, List.take_of_length_le (by simp; omega)]
            exact munch_of_stuck (by decide +kernel) (by decide +kernel) _
          exact ⟨_, Blocks.events_ret hm⟩
        · rw [List.cons_append, events_byte (by decide) (by omega)]
          · refine ih hclosed.tail ?_
            rw [List.length_append, List.length_singleton]
            rw [List.length_cons] at h
            exact h.imp (fun h => (List.mem_cons.mp h).resolve_left (Ne.symm hb)) (fun h => by omega)
          · refine munch_commentC_other hb ?_
            rintro rfl
            exact hclosed.head rest _

/-! ## Inside a line comment -/

/-- The label of a line comment. -/
def lineLabel (slashes : Bool) : Label := if slashes then .commentCxx else .commentPerl

theorem block_lineLabel (s : Bool) : block (lineLabel s) = lineComment (lineLabel s) := by cases s <;> rfl

theorem lineLabel_ne (s : Bool) : lineLabel s ≠ .std := by cases s <;> decide

/-- A byte of a line comment is a match of its own. -/
theorem munch_line {l : Label} {b : UInt8} {t : Action} (h : ruleOf (lineComment l) [b] = some t) (w : List UInt8) :
    munch (lineComment l) (b :: w) = some (t, 1) := by
  refine @munch_append _ _ (lineComment l) [b] w t h ?_
  intro x hx p hp _ hmem
  simp only [lineComment, List.mem_cons, List.not_mem_nil, or_false] at hx
  rcases hx with rfl | rfl | rfl
  · obtain ⟨c, -, heq⟩ := Regex.mem_cls.mp hmem
    exact hp (List.cons.inj heq).2
  · exact hp (List.cons.inj (Regex.mem_word.mp hmem)).2
  · obtain ⟨c, -, heq⟩ := Regex.mem_cls.mp hmem
    exact hp (List.cons.inj heq).2

theorem ruleOf_line_eol {l : Label} {b : UInt8} (h : isEol b = true) :
    ruleOf (lineComment l) [b] = some (.goto none .std) :=
  ruleOf_of_mem (Regex.mem_cls.mpr ⟨b, h, rfl⟩)

theorem ruleOf_line_other {l : Label} {b : UInt8} (h : isEol b = false) (hb : b ≠ 0) :
    ruleOf (lineComment l) [b] = some (.goto none l) := by
  have heol : [b] ∉ (Regex.cls isEol).lang := by
    intro hmem
    obtain ⟨c, hc, heq⟩ := Regex.mem_cls.mp hmem
    rw [← (List.cons.inj heq).1, h] at hc
    exact absurd hc (by decide)
  have hnul : [b] ∉ (Regex.word [(0 : UInt8)]).lang := by simpa using hb
  rw [lineComment, ruleOf_of_not_mem heol, ruleOf_of_not_mem hnul]
  exact ruleOf_of_mem (Regex.mem_cls.mpr ⟨b, rfl, rfl⟩)

/-- **A line comment that fits**: the scanner goes on behind its end. -/
theorem events_line (s : Bool) {body : List UInt8} (hbody : ∀ c ∈ body, isEol c = false) (hnul : 0 ∉ body) {b : UInt8}
    (hb : isEol b = true) {u : List UInt8} (hlen : u.length + body.length + 1 ≤ BUFSIZE) (rest : List UInt8) :
    blocks.events (some BUFSIZE) (lineLabel s) u (body ++ b :: rest) = scanned rest := by
  induction body generalizing u with
  | nil =>
      have hm : munch (blocks.block (lineLabel s)) (Blocks.window (some BUFSIZE) (blocks.token (lineLabel s) u)
          (b :: rest)) = some (.goto none .std, 1) := by
        rw [token_of_ne (lineLabel_ne s)]
        show munch (block (lineLabel s)) (([b] ++ rest).take (BUFSIZE - u.length)) = _
        rw [block_lineLabel, List.take_append, List.take_of_length_le (by simp at hlen ⊢; omega)]
        exact munch_line (ruleOf_line_eol hb) _
      rw [List.nil_append, Blocks.events_goto hm]
      exact Blocks.events_std blocks _ _ _
  | cons c body ih =>
      rw [List.length_cons] at hlen
      have hc : c ≠ 0 := fun h => hnul (h ▸ List.mem_cons_self ..)
      rw [List.cons_append, events_byte (lineLabel_ne s) (by omega)]
      · refine ih (fun d hd => hbody d (List.mem_cons_of_mem c hd)) (fun h => hnul (List.mem_cons_of_mem c h)) ?_
        rw [List.length_append, List.length_singleton]
        omega
      · rw [block_lineLabel]
        exact munch_line (ruleOf_line_other (hbody c (List.mem_cons_self ..)) hc) _

/-- **A line comment without an end in sight**: the program is left. -/
theorem exit_line (s : Bool) {u v : List UInt8}
    (h : ∀ c ∈ Blocks.window (some BUFSIZE) u v, isEol c = false ∧ c ≠ 0) :
    ∃ x, blocks.events (some BUFSIZE) (lineLabel s) u v = [(.exit, x)] := by
  induction v generalizing u with
  | nil => exact ⟨u, exit_end (lineLabel_ne s) _ List.take_nil⟩
  | cons c v ih =>
      by_cases hu : BUFSIZE ≤ u.length
      · refine ⟨u, exit_end (lineLabel_ne s) _ ?_⟩
        show List.take (BUFSIZE - u.length) _ = _
        rw [Nat.sub_eq_zero_of_le hu, List.take_zero]
      · have hwindow : Blocks.window (some BUFSIZE) u (c :: v)
            = c :: Blocks.window (some BUFSIZE) (u ++ [c]) v := by
          show (c :: v).take (BUFSIZE - u.length) = c :: v.take (BUFSIZE - (u ++ [c]).length)
          rw [List.length_append, List.length_singleton,
            show BUFSIZE - u.length = BUFSIZE - (u.length + 1) + 1 by omega, List.take_succ_cons]
        rw [hwindow] at h
        obtain ⟨hc, hrest⟩ := List.forall_mem_cons.mp h
        rw [events_byte (lineLabel_ne s) (by omega)]
        · exact ih hrest
        · rw [block_lineLabel]
          exact munch_line (ruleOf_line_other hc.1 hc.2) _

/-! ## Texts -/

/-- A comment starts. -/
theorem scanned_goto {u : List UInt8} {l : Label} (hne : u ≠ []) (hlen : u.length ≤ BUFSIZE)
    (hu : ruleOf rules u = some (.goto none l))
    (hstuck : Rules.canStep (u.foldl (fun rs a => rs.deriv a) rules) = false) (v : List UInt8) :
    scanned (u ++ v) = blocks.events (some BUFSIZE) l u v := by
  obtain ⟨b, u, rfl⟩ := List.exists_cons_of_ne_nil hne
  have hm : munch (blocks.block .std) (Blocks.window (some BUFSIZE) (blocks.token .std []) (b :: u ++ v))
      = some (.goto none l, u.length + 1) := by
    show munch rules ((b :: u ++ v).take (BUFSIZE - 0)) = _
    rw [Nat.sub_zero, List.take_append, List.take_of_length_le hlen]
    exact munch_of_stuck hu hstuck _
  unfold scanned
  rw [Blocks.events_goto hm, ← @List.length_cons _ b, List.take_left, List.drop_left]
  rfl

theorem scanned_block (v : List UInt8) :
    scanned ([ch '/', ch '*'] ++ v) = blocks.events (some BUFSIZE) .commentC [ch '/', ch '*'] v :=
  scanned_goto (List.cons_ne_nil _ _) (by decide) (by decide +kernel) (by decide +kernel) v

theorem scanned_line (s : Bool) (v : List UInt8) :
    scanned (opening s ++ v) = blocks.events (some BUFSIZE) (lineLabel s) (opening s) v := by
  cases s
  · exact scanned_goto (List.cons_ne_nil _ _) (by decide) (by decide +kernel) (by decide +kernel) v
  · exact scanned_goto (List.cons_ne_nil _ _) (by decide) (by decide +kernel) (by decide +kernel) v

theorem bytes_cons (p : Piece) (ps : List Piece) (last : Option (Bool × List UInt8)) :
    bytes (p :: ps) last = p.text ++ bytes ps last := by
  unfold bytes
  rw [List.map_cons, List.flatten_cons, List.append_assoc]

theorem IsToken.ne_nil {t : Terminal} {u : List UInt8} (h : IsToken t u) : u ≠ [] := by
  rcases h with ⟨-, hu⟩ | ⟨-, -, hu⟩
  · obtain ⟨b, v, rfl, -⟩ := head_number hu
    exact List.cons_ne_nil _ _
  · exact Json.texts_ne_nil hu

theorem Piece.Valid.ne_nil {p : Piece} (h : p.Valid) : p.text ≠ [] := by
  cases p with
  | token t u => exact IsToken.ne_nil h
  | line s body b => cases s <;> exact List.cons_ne_nil _ _
  | _ => exact List.cons_ne_nil _ _

/-- What stands behind a number does not continue it. -/
theorem head_bytes {ps : List Piece} {last : Option (Bool × List UInt8)} {u : List UInt8} (hvalid : ∀ p ∈ ps, p.Valid)
    (hapart : ∀ p ∈ ps.head?, Apart (.token .number u) p) :
    ∀ b ∈ (bytes ps last).head?, isNumberByte b = false ∨ b = ch '-' := by
  intro b hb
  have hopening : ∀ s w, b ∈ (opening s ++ w).head? → isNumberByte b = false := by
    intro s w hmem
    cases s <;> rw [← Option.some.inj hmem] <;> decide
  cases ps with
  | nil =>
      cases last with
      | none => exact absurd hb (by simp [bytes])
      | some l => exact .inl (hopening _ _ hb)
  | cons p ps =>
      have hp : p.Valid := hvalid p (List.mem_cons_self ..)
      have hb' : b ∈ p.text.head? := by
        rw [bytes_cons] at hb
        obtain ⟨c, t, hc⟩ := List.exists_cons_of_ne_nil hp.ne_nil
        rw [hc] at hb ⊢
        exact hb
      cases p with
      | blank c =>
          obtain rfl := Option.some.inj hb'
          rcases eq_of_isBlank hp with rfl | rfl | rfl <;> exact .inl (by decide)
      | eol c =>
          obtain rfl := Option.some.inj hb'
          have hc : c = 0x0D ∨ c = 0x0A := by simpa [Piece.Valid, isEol] using hp
          rcases hc with rfl | rfl <;> exact .inl (by decide)
      | block body =>
          obtain rfl := Option.some.inj hb'
          exact .inl (by decide)
      | line s body c => exact .inl (hopening _ _ hb')
      | token t w =>
          rcases hp with ⟨rfl, -⟩ | ⟨hn, -, hw⟩
          · exact .inr (hapart _ rfl b hb')
          · exact .inl (Json.isNumberByte_head hn hw b hb')

/-- A token that fits is found. -/
theorem scanned_piece {t : Terminal} {u : List UInt8} (htok : IsToken t u) (hlen : u.length ≤ BUFSIZE) {ps : List Piece}
    {last : Option (Bool × List UInt8)} (hvalid : ∀ p ∈ ps, p.Valid)
    (hapart : ∀ p ∈ ps.head?, Apart (.token t u) p) :
    scanned (u ++ bytes ps last) = (.token t, u) :: scanned (bytes ps last) := by
  refine scanned_token htok.ne_nil hlen ?_
  intro v' hv'
  rcases htok with ⟨rfl, hu⟩ | ⟨hn, hs, hu⟩
  · refine munch_number hu ?_
    intro b hb
    refine @head_bytes ps last u hvalid hapart b ?_
    obtain ⟨q, hq⟩ := hv'
    rw [← hq]
    cases v' with
    | nil => exact absurd hb (by simp)
    | cons c v' => exact hb
  · exact Json.munch_texts hs hn hu v'

/-- A match that starts as a number does returns something. -/
theorem ret_of_isNumberStart {b : UInt8} (hb : isNumberStart b = true) {w : List UInt8} {a : Action}
    (h : ruleOf rules (b :: w) = some a) : ∃ e, a = .ret e := by
  obtain ⟨r, hmem, hr⟩ := mem_of_ruleOf h
  have hword : ∀ {c : UInt8} {cs : List UInt8}, isNumberStart c = false → b :: w ∉ (Regex.word (c :: cs)).lang :=
    fun hc h => ne_of_isNumberStart hb hc (List.cons.inj (Regex.mem_word.mp h)).1
  simp only [rules, List.mem_cons, List.not_mem_nil, or_false, Prod.mk.injEq] at hmem
  rcases hmem with ⟨rfl, -⟩ | ⟨rfl, -⟩ | ⟨rfl, -⟩ | ⟨rfl, -⟩ | h | h | h | h | h | h | h | h | h | h | h | h | ⟨rfl, -⟩ | h
  · exact absurd hr (hword (by decide))
  · exact absurd hr (hword (by decide))
  · exact absurd hr (hword (by decide))
  · obtain ⟨c, hc, heq⟩ := Regex.mem_cls.mp hr
    rw [← (List.cons.inj heq).1] at hc
    have hc' : b = 0x0D ∨ b = 0x0A := by simpa [isEol] using hc
    rcases hc' with rfl | rfl <;> exact absurd hb (by decide)
  all_goals try exact ⟨_, h.2⟩
  have hblank := Regex.mem_of_over (p := isBlank) (by simp [Regex.plus, Regex.Over]) hr b (List.mem_cons_self ..)
  rcases eq_of_isBlank hblank with rfl | rfl | rfl <;> exact absurd hb (by decide)

/-- A number that does not fit is cut. -/
theorem scanned_ne {u : List UInt8} (hu : u ∈ number.lang) (hlen : BUFSIZE < u.length) (v : List UInt8)
    (es : List (Event Scanned)) : scanned (u ++ v) ≠ (.token .number, u) :: es := by
  obtain ⟨b, w, rfl, hb⟩ := head_number hu
  have hwindow : (b :: w ++ v).take BUFSIZE = b :: w.take (BUFSIZE - 1) := by
    rw [List.take_append_of_le_length (Nat.le_of_lt hlen)]
    rfl
  obtain ⟨a, n, hm⟩ := munch_pos (blocks.nonempty .std) (blocks.any .std) (List.cons_ne_nil b (w.take (BUFSIZE - 1)))
  have hn := munch_length_le hm
  rw [← hwindow, List.length_take] at hn
  obtain ⟨e, rfl⟩ := ret_of_isNumberStart hb (munch_eq_some_iff.mp hm).rule
  have hm' : munch (blocks.block .std) (Blocks.window (some BUFSIZE) (blocks.token .std []) (b :: w ++ v))
      = some (.ret e, n + 1) := by
    show munch (blocks.block .std) ((b :: w ++ v).take BUFSIZE) = _
    rw [hwindow]
    exact hm
  intro heq
  unfold scanned at heq
  rw [Blocks.events_ret hm'] at heq
  have htext : (b :: w ++ v).take (n + 1) = b :: w := (Prod.mk.inj (List.cons.inj heq).1).2
  have htake := congrArg List.length htext
  rw [List.length_take] at htake
  omega

/-- The texts of the other tokens are short. -/
theorem length_texts {t : Terminal} {u : List UInt8} (hn : t ≠ .number) (hs : t ≠ .string)
    (hu : u ∈ (Json.texts t).lang) : u.length ≤ BUFSIZE := by
  cases t with
  | number => exact absurd rfl hn
  | string => exact absurd rfl hs
  | _ =>
      rw [Regex.mem_word.mp hu]
      decide

theorem expected_ne_exit (ps : List Piece) (x : List UInt8) : expected ps ≠ [(.exit, x)] := by
  induction ps with
  | nil => exact fun h => absurd (Prod.mk.inj (List.cons.inj h).1).1 (by decide)
  | cons p ps ih =>
      cases p with
      | token t u => exact fun h => absurd (Prod.mk.inj (List.cons.inj h).1).1 (by simp)
      | _ => exact ih

/-- What stands between tokens is skipped, if it fits. -/
theorem scanned_between {p : Piece} (hp : p.Valid) (hfits : p.Fits) (hcomment : ∀ t u, p ≠ .token t u) (v : List UInt8) :
    scanned (p.text ++ v) = scanned v := by
  cases p with
  | token t u => exact absurd rfl (hcomment t u)
  | blank b => exact scanned_blank hp v
  | eol b => exact scanned_eol hp v
  | block body =>
      have htext : (Piece.block body).text ++ v = [ch '/', ch '*'] ++ (body ++ ch '*' :: ch '/' :: v) := by
        simp [Piece.text]
      have hlen : [ch '/', ch '*'].length + body.length + 2 ≤ BUFSIZE := by
        have := hfits.1
        simp only [List.length_cons, List.length_nil]
        omega
      rw [htext, scanned_block]
      exact events_commentC hp hfits.2 hlen v
  | line s body b =>
      have htext : (Piece.line s body b).text ++ v = opening s ++ (body ++ b :: v) := by simp [Piece.text]
      rw [htext, scanned_line]
      exact events_line s hp.1 hfits.2 hp.2 hfits.1 v

/-- A block comment that does not fit makes the scanner leave the program. -/
theorem scanned_block_exit {body : List UInt8} (hp : Closed body) (hnot : ¬ (Piece.block body).Fits) (v : List UInt8) :
    ∃ x, scanned ((Piece.block body).text ++ v) = [(.exit, x)] := by
  have htext : (Piece.block body).text ++ v = [ch '/', ch '*'] ++ (body ++ ch '*' :: ch '/' :: v) := by
    simp [Piece.text]
  rw [htext, scanned_block]
  refine exit_commentC hp ?_ v
  by_cases hmem : 0 ∈ body
  · exact .inl hmem
  · have hlong : ¬ body.length + 4 ≤ BUFSIZE := fun h => hnot ⟨h, hmem⟩
    refine .inr ?_
    simp only [List.length_cons, List.length_nil]
    omega

/-- So does a line comment without a NUL. -/
theorem scanned_line_exit {s : Bool} {body : List UInt8} {b : UInt8} (hp : ∀ c ∈ body, isEol c = false)
    (hnul : 0 ∉ body) (hnot : ¬ (Piece.line s body b).Fits) (v : List UInt8) :
    ∃ x, scanned ((Piece.line s body b).text ++ v) = [(.exit, x)] := by
  have htext : (Piece.line s body b).text ++ v = opening s ++ (body ++ b :: v) := by simp [Piece.text]
  have hlong : ¬ (opening s).length + body.length + 1 ≤ BUFSIZE := fun h => hnot ⟨h, hnul⟩
  rw [htext, scanned_line]
  refine exit_line s ?_
  intro c hc
  -- the window ends in front of the line end
  have hc' : c ∈ (body ++ b :: v).take (BUFSIZE - (opening s).length) := hc
  rw [List.take_append_of_le_length (by omega)] at hc'
  have hbody : c ∈ body := List.mem_of_mem_take hc'
  exact ⟨hp c hbody, fun h => hnul (h ▸ hbody)⟩

/-- The comments of pieces leave no trace if all fit, and without a NUL in a line comment only then. -/
structure Traceless (ps : List Piece) (last : Option (Bool × List UInt8)) : Prop where
  of_fits : (∀ p ∈ ps, p.Fits) → last = none → scanned (bytes ps last) = expected ps
  fits_of : (∀ s body b, Piece.line s body b ∈ ps → 0 ∉ body) → (∀ l ∈ last, 0 ∉ l.2) →
    scanned (bytes ps last) = expected ps → (∀ p ∈ ps, p.Fits) ∧ last = none

/-- A piece more that fits, and that the scanner finds or skips. -/
theorem Traceless.cons {p : Piece} {ps : List Piece} {last : Option (Bool × List UInt8)} (h : Traceless ps last)
    (hfits : p.Fits)
    (hiff : scanned (bytes (p :: ps) last) = expected (p :: ps) ↔ scanned (bytes ps last) = expected ps) :
    Traceless (p :: ps) last where
  of_fits := fun hall hlast => hiff.mpr (h.of_fits (List.forall_mem_cons.mp hall).2 hlast)
  fits_of := by
    intro hnul hlast heq
    obtain ⟨hall, hnone⟩ := h.fits_of (fun s body b hmem => hnul s body b (List.mem_cons_of_mem p hmem)) hlast
      (hiff.mp heq)
    exact ⟨List.forall_mem_cons.mpr ⟨hfits, hall⟩, hnone⟩

/-- A piece that does not fit, and that the scanner does not get past. -/
theorem traceless_of_not_fits {p : Piece} {ps : List Piece} {last : Option (Bool × List UInt8)} (hnot : ¬ p.Fits)
    (hne : (∀ s body b, Piece.line s body b ∈ p :: ps → 0 ∉ body) →
      scanned (bytes (p :: ps) last) ≠ expected (p :: ps)) : Traceless (p :: ps) last where
  of_fits := fun hall _ => absurd (List.forall_mem_cons.mp hall).1 hnot
  fits_of := fun hnul _ heq => absurd heq (hne hnul)

theorem ne_expected_of_exit {bs : List UInt8} {ps : List Piece} (h : ∃ x, scanned bs = [(.exit, x)]) :
    scanned bs ≠ expected ps := by
  obtain ⟨x, hx⟩ := h
  exact fun heq => expected_ne_exit ps x (heq.symm.trans hx)

/-- Nothing is left but a line comment that the end of the file ends, if there is one. -/
theorem traceless_nil {last : Option (Bool × List UInt8)} (hlast : ∀ l ∈ last, ∀ c ∈ l.2, isEol c = false) :
    Traceless [] last where
  of_fits := by
    rintro - rfl
    exact scanned_nil
  fits_of := by
    intro _ hnul heq
    refine ⟨by simp, ?_⟩
    cases last with
    | none => rfl
    | some l =>
        have hexit : ∃ x, scanned (bytes [] (some l)) = [(.exit, x)] := by
          show ∃ x, scanned (opening l.1 ++ l.2) = [(.exit, x)]
          rw [scanned_line]
          refine exit_line l.1 ?_
          intro c hc
          have hmem : c ∈ l.2 := List.mem_of_mem_take hc
          exact ⟨hlast l rfl c hmem, fun h => hnul l rfl (h ▸ hmem)⟩
        exact absurd heq (ne_expected_of_exit hexit)

/-- What the scanner makes of pieces, by induction on them. -/
theorem scanned_pieces {ps : List Piece} {last : Option (Bool × List UInt8)} (hvalid : ∀ p ∈ ps, p.Valid)
    (hlast : ∀ l ∈ last, ∀ c ∈ l.2, isEol c = false) (hapart : ps.IsChain Apart) : Traceless ps last := by
  induction ps with
  | nil => exact traceless_nil hlast
  | cons p ps ih =>
      obtain ⟨hp, hps⟩ := List.forall_mem_cons.mp hvalid
      obtain ⟨hhead, hchain⟩ := List.isChain_cons.mp hapart
      have hrest := ih hps hchain
      by_cases hfits : p.Fits
      · refine hrest.cons hfits ?_
        rw [bytes_cons]
        cases p with
        | token t u =>
            -- the one piece that leaves a trace: its token
            show scanned (u ++ bytes ps last) = (.token t, u) :: expected ps ↔ _
            rw [scanned_piece hp hfits hps hhead, List.cons_inj_right]
        | blank b => rw [scanned_between hp hfits nofun]; rfl
        | eol b => rw [scanned_between hp hfits nofun]; rfl
        | block body => rw [scanned_between hp hfits nofun]; rfl
        | line s body b => rw [scanned_between hp hfits nofun]; rfl
      · refine traceless_of_not_fits hfits (fun hnul => ?_)
        rw [bytes_cons]
        cases p with
        | blank b => exact absurd trivial hfits
        | eol b => exact absurd trivial hfits
        | token t u =>
            have hlen : ¬ u.length ≤ BUFSIZE := hfits
            rcases hp with ⟨rfl, hu⟩ | ⟨hn, hs, hu⟩
            · exact scanned_ne hu (by omega) _ _
            · exact absurd (length_texts hn hs hu) hlen
        | block body => exact ne_expected_of_exit (scanned_block_exit hp hfits _)
        | line s body b =>
            exact ne_expected_of_exit (scanned_line_exit hp.1 (hnul s body b (List.mem_cons_self ..)) hfits _)

/-- **Comments are transparent** in texts that fit; and in a text without a NUL in its line comments they are
    transparent only if it fits. -/
theorem scanAll_comments (buf : Fin (BUFSIZE + 1) → UInt8) (t : Text) :
    (t.Fits → scanAll buf (bytes t.pieces t.last) = some (expected t.pieces)) ∧
      (t.NoNul → scanAll buf (bytes t.pieces t.last) = some (expected t.pieces) → t.Fits) := by
  have h := scanned_pieces t.valid t.inLast t.apart
  rw [scanAll_eq, Option.some.injEq]
  exact ⟨fun hfits => h.of_fits hfits.1 hfits.2, fun hnul => h.fits_of hnul.1 hnul.2⟩

/-- `1 # x`, without a newline. -/
def atEnd : Text where
  pieces := [.token .number [ch '1'], .blank 0x20]
  last   := some (false, [0x20, ch 'x'])
  valid  := by
    have hone : [ch '1'] ∈ number.lang := .inl (.inl ⟨ch '1', by decide, rfl⟩)
    exact List.forall_mem_cons.mpr ⟨.inl ⟨rfl, hone⟩, List.forall_mem_singleton.mpr (show isBlank 0x20 = true by decide)⟩
  inLast := by
    intro l hl c hc
    obtain rfl := Option.some.inj hl
    revert c
    decide +kernel
  apart  := List.isChain_cons.mpr ⟨fun p hp => by obtain rfl := Option.some.inj hp; trivial, List.isChain_singleton _⟩

/-- The end of the file leaves the program. -/
theorem scanAll_atEnd : scanAll (fun _ => 0) (bytes atEnd.pieces atEnd.last) ≠ some (expected atEnd.pieces) := by
  decide +kernel

end Comments
end Tokenizer
end CSamples
