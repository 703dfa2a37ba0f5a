import CSamples.Tokenizer.Language
import CSamples.Tokenizer.Scanner

/-!
# `Tokenizer.Main` — the driver of the tokenizer

The loop of `tokenizer/example/example.c` over one file, built with the parser and `DEBUG`: every token goes to the
parser, every negative result ends the loop behind an end marker.

## Contents
- **Model.** `Outcome`, `drive` and `main`.
- **Specification.** `Reads`: all texts fit in `buf`, and the parser accepts the tokens in front of the last result.
  `FitWhere`: the texts fit that the program gets to. `Right`: no text overflows, and a complete document is the file.
- `drive_spec`: the driver reports a complete document exactly where the results are read, and stops where the rules
  stop. `main_isSome`: when it overflows `buf`.
- `main_consumed_iff`: when a complete document is the whole file, by the grammar.
-/

namespace CSamples
namespace Tokenizer

open C CSamples.Scanner
open Lemon (AcceptsFrom NoSyntaxError ReadsFrom Steady parse)

/-! ## The model -/

/-- The size of `buf`. -/
def bufSize : Nat := 256

/-- `sprintf(buf, "%.*s", …)` stays in `buf`: it copies up to the first NUL, and adds one. -/
def fitsBuf (text : List UInt8) : Bool := (text.takeWhile (· != 0)).length < bufSize

/-- `%syntax_error`, which leaves the program. -/
def isSyntaxError : Lemon.Event Terminal Empty → Bool
  | .syntaxError _ => true
  | _              => false

/-- `%parse_accept`: `parsing complete!` -/
def isParseAccept : Lemon.Event Terminal Empty → Bool
  | .parseAccept => true
  | _            => false

/-- How the program leaves: its status, whether it has printed `parsing complete!`, the last result of
    `Scanner_Scan` and the input behind it. -/
structure Outcome where
  status   : Nat
  complete : Bool
  last     : Scanned
  input    : Input
  deriving DecidableEq, Repr

def Outcome.Complete (o : Outcome) : Prop := o.status = 0 ∧ o.complete = true

/-- The file was read to its end. -/
def Outcome.Consumed (o : Outcome) : Prop := o.last = .eof ∧ o.input.pending = []

/-- The loop. `none` is a text that overflows `buf`. -/
def drive : Nat → Input → LR → Option Outcome
  | 0, _, _ => none
  | n + 1, s, p =>
      (blocks.call (n + 1) blocks.std s).bind (fun x =>
        match x.2.1.1 with
        | .token t =>
            if fitsBuf x.2.1.2 then
              (parse parser (some yyStackDepth) (some t) () p).bind (fun y =>
                if y.2.any isSyntaxError then some ⟨1, y.2.any isParseAccept, .token t, x.2.2⟩
                else (drive n x.2.2 y.1).map (fun o => { o with complete := y.2.any isParseAccept || o.complete }))
            else none
        | .exit => some ⟨1, false, .exit, x.2.2⟩
        | e =>
            (parse parser (some yyStackDepth) none () p).map (fun y =>
              ⟨if y.2.any isSyntaxError then 1 else 0, y.2.any isParseAccept, e, x.2.2⟩))

/-- The program on one file. -/
def main (buf : Fin (BUFSIZE + 1) → UInt8) (file : List UInt8) : Option Outcome :=
  drive (file.length + 1) (inputInit buf file) Lemon.init

/-! ## The specification -/

/-- The tokens of a scan. -/
def tokens (es : List (Event Scanned)) : List Terminal :=
  es.filterMap (fun x => match x.1 with
    | .token t => some t
    | _        => none)

/-- The last result of a scan. -/
def last (es : List (Event Scanned)) : Option Scanned := es.getLast?.map (·.1)

/-- The texts of the tokens fit in `buf`. -/
def TextsFit (es : List (Event Scanned)) : Prop := ∀ x ∈ es, ∀ t, x.1 = .token t → fitsBuf x.2 = true

/-- From `p`, the program reads the results of a scan up to an accepted end marker. -/
def Reads (es : List (Event Scanned)) (p : LR) : Prop :=
  TextsFit es ∧ AcceptsFrom parser (some yyStackDepth) p (toks (tokens es)) () ∧ last es ≠ some .exit

/-- The texts fit in `buf` up to where the parser leaves the program; `Goes` says behind which tokens it has not. -/
def FitWhere (Goes : List Terminal → Prop) (es : List (Event Scanned)) : Prop :=
  ∀ es₁ t text es₂, es = es₁ ++ (.token t, text) :: es₂ → Goes (tokens es₁) → fitsBuf text = true

/-- The bytes behind the last result. -/
def rest (file : List UInt8) : List UInt8 := blocks.left (some BUFSIZE) .std [] file

/-- The scan stops at a byte that starts no token, or at a NUL with bytes behind it. -/
def StopsEarly (file : List UInt8) : Prop :=
  last (scanned file) = some .unknown ∨ last (scanned file) = some .eof ∧ rest file ≠ []

/-- What is said of the program: no text overflows `buf`, and where it reports a complete document with status 0, the
    file was read to its end. -/
def Right (buf : Fin (BUFSIZE + 1) → UInt8) (file : List UInt8) : Prop :=
  ∃ o, main buf file = some o ∧ (o.Complete → o.Consumed)

/-! ## The driver meets it -/

theorem any_isSyntaxError {es : List (Lemon.Event Terminal Empty)} :
    es.any isSyntaxError = false ↔ NoSyntaxError es := by
  rw [List.any_eq_false]
  constructor
  · intro h t ht
    exact h _ ht rfl
  · intro h e he
    cases e with
    | syntaxError t => exact absurd he (h t)
    | user | stackOverflow | parseFailure | parseAccept => exact Bool.false_ne_true

theorem any_isParseAccept {es : List (Lemon.Event Terminal Empty)} :
    es.any isParseAccept = true ↔ Lemon.Event.parseAccept ∈ es := by
  rw [List.any_eq_true]
  constructor
  · rintro ⟨e, he, hacc⟩
    cases e with
    | parseAccept => exact he
    | user | stackOverflow | parseFailure | syntaxError => exact nomatch hacc
  · intro h
    exact ⟨_, h, rfl⟩

/-- One token. -/
theorem reads_token {t : Terminal} {u : List UInt8} {es : List (Event Scanned)} (hne : es ≠ []) {p p' : LR}
    {evs : List (Lemon.Event Terminal Empty)} (hp : Steady parser p)
    (hparse : parse parser (some yyStackDepth) (some t) () p = some (p', evs)) :
    Reads ((.token t, u) :: es) p ↔ fitsBuf u = true ∧ NoSyntaxError evs ∧ Reads es p' := by
  have haccepts : AcceptsFrom parser (some yyStackDepth) p (toks (tokens ((.token t, u) :: es))) () ↔
      NoSyntaxError evs ∧ AcceptsFrom parser (some yyStackDepth) p' (toks (tokens es)) () :=
    Lemon.acceptsFrom_cons sound hp hparse
  have hlast : last ((.token t, u) :: es) = last es := by
    unfold last
    rw [List.getLast?_cons_of_ne_nil hne]
  have hfit : TextsFit ((.token t, u) :: es) ↔ fitsBuf u = true ∧ TextsFit es := by
    unfold TextsFit
    rw [List.forall_mem_cons]
    exact and_congr_left' ⟨fun h => h t rfl, fun h _ _ => h⟩
  unfold Reads
  rw [haccepts, hlast, hfit]
  tauto

/-- The last result. -/
theorem reads_last {e : Scanned} {u : List UInt8} (he : ∀ t, e ≠ .token t) {p p' : LR}
    {evs : List (Lemon.Event Terminal Empty)}
    (hparse : parse parser (some yyStackDepth) none () p = some (p', evs)) :
    Reads [(e, u)] p ↔ e ≠ .exit ∧ NoSyntaxError evs ∧ Lemon.Event.parseAccept ∈ evs := by
  have htokens : tokens [(e, u)] = [] := by
    cases e with
    | token t => exact absurd rfl (he t)
    | eof | unknown | exit => rfl
  have hfit : TextsFit [(e, u)] := by
    intro x hx t ht
    obtain rfl := List.mem_singleton.mp hx
    exact absurd ht (he t)
  have hlast : last [(e, u)] = some e := rfl
  unfold Reads
  rw [htokens, show toks [] = [] from rfl, Lemon.acceptsFrom_nil hparse, hlast]
  simp only [hfit, true_and, ne_eq, Option.some.injEq]
  tauto

theorem not_prints (e : Scanned) : ¬ blocks.Prints e := by
  rintro ⟨l, l', h⟩
  revert h
  cases l <;> simp [blocks, block, rules, commentC, lineComment]

theorem last_cons {x : Event Scanned} {es : List (Event Scanned)} (hne : es ≠ []) : last (x :: es) = last es := by
  unfold last
  rw [List.getLast?_cons_of_ne_nil hne]

/-- Behind a token the loop goes on, unless its text or the parser stops the program. -/
theorem drive_token {n : Nat} {s s' : Input} {p p' : LR} {es : List (Event Scanned)} {t : Terminal} {text : List UInt8}
    {evs : List (Lemon.Event Terminal Empty)} (hcall : blocks.call (n + 1) blocks.std s = some (es, (.token t, text), s'))
    (hparse : parse parser (some yyStackDepth) (some t) () p = some (p', evs)) (o : Outcome) :
    drive (n + 1) s p = some o ∧ o.Complete ↔ fitsBuf text = true ∧ NoSyntaxError evs ∧
      ∃ o', drive n s' p' = some o' ∧ o = { o' with complete := evs.any isParseAccept || o'.complete } ∧ o.Complete := by
  have hdrive : drive (n + 1) s p = if fitsBuf text = true then
      if evs.any isSyntaxError = true then some ⟨1, evs.any isParseAccept, .token t, s'⟩
      else (drive n s' p').map (fun o => { o with complete := evs.any isParseAccept || o.complete })
      else none := by
    conv_lhs => unfold drive
    rw [hcall, Option.bind_some]
    show (if fitsBuf text = true then (parse parser _ (some t) () p).bind _ else none) = _
    rw [hparse, Option.bind_some]
  rw [hdrive, ← any_isSyntaxError]
  by_cases hfit : fitsBuf text = true
  · rw [if_pos hfit]
    by_cases herr : evs.any isSyntaxError = true
    · rw [if_pos herr, herr]
      constructor
      · rintro ⟨ho, hstatus, -⟩
        obtain rfl := Option.some.inj ho
        exact nomatch hstatus
      · rintro ⟨-, hno, -⟩
        exact nomatch hno
    · rw [if_neg herr, Option.map_eq_some_iff]
      constructor
      · rintro ⟨⟨o', ho', rfl⟩, hcomplete⟩
        exact ⟨hfit, Bool.eq_false_iff.mpr herr, o', ho', rfl, hcomplete⟩
      · rintro ⟨-, -, o', ho', rfl, hcomplete⟩
        exact ⟨⟨o', ho', rfl⟩, hcomplete⟩
  · rw [if_neg hfit]
    exact ⟨fun h => (nomatch h.1), fun h => absurd h.1 hfit⟩

/-- Behind the last result the parser is given an end marker. -/
theorem drive_last {n : Nat} {s s' : Input} {p p' : LR} {es : List (Event Scanned)} {e : Scanned} {text : List UInt8}
    {evs : List (Lemon.Event Terminal Empty)} (he : ∀ t, e ≠ .token t)
    (hcall : blocks.call (n + 1) blocks.std s = some (es, (e, text), s'))
    (hparse : parse parser (some yyStackDepth) none () p = some (p', evs)) (o : Outcome) :
    drive (n + 1) s p = some o ∧ o.Complete ↔
      (e ≠ .exit ∧ NoSyntaxError evs ∧ Lemon.Event.parseAccept ∈ evs) ∧ o = ⟨0, true, e, s'⟩ := by
  unfold drive
  rw [hcall, Option.bind_some, ← any_isSyntaxError, ← any_isParseAccept]
  cases e with
  | token t => exact absurd rfl (he t)
  | exit =>
      constructor
      · rintro ⟨ho, hstatus, -⟩
        obtain rfl := Option.some.inj ho
        exact nomatch hstatus
      · rintro ⟨⟨hne, -⟩, -⟩
        exact absurd rfl hne
  | eof | unknown =>
      show (parse parser _ none () p).map _ = some o ∧ _ ↔ _
      rw [hparse, Option.map_some]
      constructor
      · rintro ⟨ho, hstatus, hcomplete⟩
        obtain rfl := Option.some.inj ho
        cases herr : evs.any isSyntaxError with
        | true =>
            rw [herr] at hstatus
            exact nomatch hstatus
        | false =>
            refine ⟨⟨nofun, rfl, hcomplete⟩, ?_⟩
            simp only [show evs.any isParseAccept = true from hcomplete]
            rfl
      · rintro ⟨⟨-, herr, hacc⟩, rfl⟩
        rw [herr, hacc]
        exact ⟨rfl, rfl, rfl⟩

/-- **The loop**, by induction on its turns: it reports a complete document exactly if the results of the scan
    are read, and leaves the input where the rules do. -/
theorem drive_spec {u v : List UInt8} {s : Input} {p : LR} {n : Nat} (h : Blocks.At u v s) (hn : v.length < n)
    (hp : Steady parser p) :
    (∀ o, drive n s p = some o → o.Complete → Reads (blocks.events (some BUFSIZE) blocks.std [] v) p ∧
      last (blocks.events (some BUFSIZE) blocks.std [] v) = some o.last ∧
      o.input.pending = blocks.left (some BUFSIZE) blocks.std [] v) ∧
    (Reads (blocks.events (some BUFSIZE) blocks.std [] v) p → ∃ o, drive n s p = some o ∧ o.Complete) := by
  induction n generalizing u v s p with
  | zero => exact absurd hn (Nat.not_lt_zero _)
  | succ n ih =>
      obtain ⟨es, ⟨e, text⟩, s', hcall, hprints, hres⟩ := @Blocks.call_spec _ _ _ blocks blocks.std _ _ _ _ h hn
      -- the tokenizer prints nothing: a call is one result
      obtain rfl : es = [] := List.eq_nil_iff_forall_not_mem.mpr (fun y hy => not_prints _ (hprints y hy))
      rw [blocks.events_std, blocks.left_std] at hres
      rcases hres with ⟨hfinal, hev, hleft⟩ | ⟨hfinal, u', v', h', hlen, hev, hleft⟩
      · -- the last result
        rw [hev, hleft, List.nil_append]
        have he : ∀ t, e ≠ .token t := by
          rintro t rfl
          exact nomatch hfinal
        obtain ⟨p', evs, hparse, -⟩ :=
          @Lemon.parse_total _ _ _ _ _ _ parser _ _ _ _ sound (some yyStackDepth) none () p hp.1
        rw [reads_last he hparse]
        constructor
        · intro o ho hcomplete
          obtain ⟨hreads, rfl⟩ := (drive_last he hcall hparse o).mp ⟨ho, hcomplete⟩
          exact ⟨hreads, rfl, rfl⟩
        · intro hreads
          exact ⟨_, (drive_last he hcall hparse _).mpr ⟨hreads, rfl⟩⟩
      · -- a token
        obtain ⟨t, rfl⟩ : ∃ t, e = .token t := by
          cases e with
          | token t => exact ⟨t, rfl⟩
          | eof | unknown | exit => exact nomatch hfinal
        have hne : blocks.events (some BUFSIZE) blocks.std [] v' ≠ [] := by
          obtain ⟨es, x, heq, -⟩ := blocks.events_final (some BUFSIZE) blocks.std [] v'
          rw [heq]
          exact List.concat_ne_nil x es
        obtain ⟨p', evs, hparse, -⟩ :=
          @Lemon.parse_total _ _ _ _ _ _ parser _ _ _ _ sound (some yyStackDepth) (some t) () p hp.1
        obtain ⟨hread, hdrive⟩ := @ih u' v' s' p' h' (by omega) (Lemon.parse_steady sound hp hparse).1
        rw [hev, hleft, List.nil_append, reads_token hne hp hparse, last_cons hne]
        constructor
        · intro o ho hcomplete
          obtain ⟨hfit, herr, o', ho', rfl, -⟩ := (drive_token hcall hparse o).mp ⟨ho, hcomplete⟩
          -- nothing is accepted in front of the end marker
          have hno : evs.any isParseAccept = false :=
            Bool.eq_false_iff.mpr (fun hacc => (Lemon.parse_steady sound hp hparse).2 (any_isParseAccept.mp hacc))
          have hcomplete' : o'.Complete := by
            obtain ⟨hstatus, hacc⟩ := hcomplete
            exact ⟨hstatus, by rwa [hno, Bool.false_or] at hacc⟩
          obtain ⟨hreads, hlast, hpending⟩ := hread o' ho' hcomplete'
          exact ⟨⟨hfit, herr, hreads⟩, hlast, hpending⟩
        · rintro ⟨hfit, herr, hreads⟩
          obtain ⟨o', ho', hstatus, hacc⟩ := hdrive hreads
          refine ⟨_, (drive_token hcall hparse _).mpr ⟨hfit, herr, o', ho', rfl, hstatus, ?_⟩⟩
          show (evs.any isParseAccept || o'.complete) = true
          rw [hacc, Bool.or_true]

/-! ## The texts -/

theorem FitWhere.mono {P Q : List Terminal → Prop} {es : List (Event Scanned)} (h : FitWhere P es)
    (hle : ∀ es₁ es₂, es = es₁ ++ es₂ → Q (tokens es₁) → P (tokens es₁)) : FitWhere Q es :=
  fun es₁ t text es₂ heq hgoes => h es₁ t text es₂ heq (hle es₁ _ heq hgoes)

/-- One token. -/
theorem fitWhere_token {t : Terminal} {u : List UInt8} {es : List (Event Scanned)} {p p' : LR}
    {evs : List (Lemon.Event Terminal Empty)}
    (hparse : parse parser (some yyStackDepth) (some t) () p = some (p', evs)) :
    FitWhere (fun ts => ReadsFrom parser (some yyStackDepth) p (toks ts)) ((.token t, u) :: es) ↔ fitsBuf u = true ∧
      (NoSyntaxError evs → FitWhere (fun ts => ReadsFrom parser (some yyStackDepth) p' (toks ts)) es) := by
  have hcons : ∀ es₁, ReadsFrom parser (some yyStackDepth) p (toks (tokens ((.token t, u) :: es₁))) ↔
      NoSyntaxError evs ∧ ReadsFrom parser (some yyStackDepth) p' (toks (tokens es₁)) :=
    fun es₁ => Lemon.readsFrom_cons hparse
  constructor
  · intro h
    refine ⟨h [] t u es rfl (Lemon.readsFrom_nil ..), ?_⟩
    intro herr es₁ t' text es₂ heq hgoes
    exact h ((.token t, u) :: es₁) t' text es₂ (congrArg _ heq) ((hcons es₁).mpr ⟨herr, hgoes⟩)
  · rintro ⟨hfit, hrest⟩ es₁ t' text es₂ heq hgoes
    cases es₁ with
    | nil =>
        obtain ⟨hx, -⟩ := List.cons.inj heq
        obtain ⟨-, rfl⟩ := Prod.mk.inj hx
        exact hfit
    | cons x es₁ =>
        obtain ⟨rfl, heq'⟩ := List.cons.inj heq
        obtain ⟨herr, hgoes'⟩ := (hcons es₁).mp hgoes
        exact hrest herr es₁ t' text es₂ heq' hgoes'

/-- **The loop leaves `buf` alone** exactly if the texts it gets to fit. -/
theorem drive_isSome {u v : List UInt8} {s : Input} {p : LR} {n : Nat} (h : Blocks.At u v s) (hn : v.length < n)
    (hp : Steady parser p) :
    (drive n s p).isSome = true ↔
      FitWhere (fun ts => ReadsFrom parser (some yyStackDepth) p (toks ts))
        (blocks.events (some BUFSIZE) blocks.std [] v) := by
  induction n generalizing u v s p with
  | zero => exact absurd hn (Nat.not_lt_zero _)
  | succ n ih =>
      obtain ⟨es, ⟨e, text⟩, s', hcall, hprints, hres⟩ := @Blocks.call_spec _ _ _ blocks blocks.std _ _ _ _ h hn
      obtain rfl : es = [] := List.eq_nil_iff_forall_not_mem.mpr (fun y hy => not_prints _ (hprints y hy))
      rw [blocks.events_std, blocks.left_std] at hres
      unfold drive
      rw [hcall, Option.bind_some]
      rcases hres with ⟨hfinal, hev, -⟩ | ⟨hfinal, u', v', h', hlen, hev, -⟩
      · -- the last result is no token
        have hsome : ∀ q : Option Outcome, q.isSome = true →
            (q.isSome = true ↔ FitWhere (fun ts => ReadsFrom parser (some yyStackDepth) p (toks ts))
              (blocks.events (some BUFSIZE) blocks.std [] v)) := by
          intro q hq
          refine ⟨fun _ => ?_, fun _ => hq⟩
          intro es₁ t text' es₂ heq
          rw [hev, List.nil_append] at heq
          have hmem : (Scanned.token t, text') ∈ [(e, text)] := heq ▸ List.mem_append_right es₁ (List.mem_cons_self ..)
          obtain ⟨rfl, -⟩ := Prod.mk.inj (List.mem_singleton.mp hmem)
          exact Bool.noConfusion hfinal
        obtain ⟨p', evs, hparse, -⟩ :=
          @Lemon.parse_total _ _ _ _ _ _ parser _ _ _ _ sound (some yyStackDepth) none () p hp.1
        cases e with
        | token t => exact Bool.noConfusion hfinal
        | exit => exact hsome _ rfl
        | eof | unknown =>
            apply hsome
            show (Option.map _ (parse parser _ none () p)).isSome = true
            rw [hparse]
            rfl
      · -- a token
        obtain ⟨t, rfl⟩ : ∃ t, e = .token t := by
          cases e with
          | token t => exact ⟨t, rfl⟩
          | eof | unknown | exit => exact Bool.noConfusion hfinal
        obtain ⟨p', evs, hparse, -⟩ :=
          @Lemon.parse_total _ _ _ _ _ _ parser _ _ _ _ sound (some yyStackDepth) (some t) () p hp.1
        have hrest := @ih u' v' s' p' h' (by omega) (Lemon.parse_steady sound hp hparse).1
        rw [hev, List.nil_append, fitWhere_token hparse, ← hrest]
        show (if fitsBuf text = true then (parse parser _ (some t) () p).bind _ else none).isSome = true ↔ _
        by_cases hfit : fitsBuf text = true
        · rw [if_pos hfit, hparse, Option.bind_some, ← any_isSyntaxError]
          by_cases herr : evs.any isSyntaxError = true
          · rw [if_pos herr, herr]
            exact ⟨fun _ => ⟨hfit, fun h => absurd h (by decide)⟩, fun _ => rfl⟩
          · rw [if_neg herr, Option.isSome_map]
            exact ⟨fun h => ⟨hfit, fun _ => h⟩, fun h => h.2 (Bool.eq_false_iff.mpr herr)⟩
        · rw [if_neg hfit]
          exact ⟨fun h => absurd h (by decide), fun h => absurd h.1 hfit⟩

/-- The program, for every file. -/
theorem main_isSome (buf : Fin (BUFSIZE + 1) → UInt8) (file : List UInt8) :
    (main buf file).isSome = true ↔
      FitWhere (fun ts => ReadsFrom parser (some yyStackDepth) Lemon.init (toks ts)) (scanned file) :=
  @drive_isSome [] file (inputInit buf file) Lemon.init (file.length + 1) ⟨holds_inputInit buf file, rfl⟩
    (Nat.lt_succ_self _) (Lemon.steady_nil rfl)

/-! ## When a complete document is the whole file -/

theorem last_ne_token (file : List UInt8) (t : Terminal) : last (scanned file) ≠ some (.token t) := by
  obtain ⟨es, x, heq, hfinal⟩ := blocks.events_final (some BUFSIZE) .std [] file
  unfold last scanned
  rw [heq, List.getLast?_concat]
  intro h
  have hx : x.1 = .token t := Option.some.inj h
  rw [hx] at hfinal
  exact nomatch hfinal

/-- An accepted document is read up to where the rules stop. -/
theorem consumed_iff (buf : Fin (BUFSIZE + 1) → UInt8) (file : List UInt8) :
    (∀ o, main buf file = some o → o.Complete → o.Consumed) ↔
      ¬ (StopsEarly file ∧ TextsFit (scanned file) ∧ Accepted (tokens (scanned file))) := by
  obtain ⟨hread, hdrive⟩ := @drive_spec [] file (inputInit buf file) Lemon.init (file.length + 1)
    ⟨holds_inputInit buf file, rfl⟩ (Nat.lt_succ_self _) (Lemon.steady_nil rfl)
  constructor
  · rintro hall ⟨hstops, hfit, hacc⟩
    have hexit : last (scanned file) ≠ some .exit := by
      rcases hstops with hlast | ⟨hlast, -⟩ <;> rw [hlast] <;> nofun
    obtain ⟨o, ho, hcomplete⟩ := hdrive ⟨hfit, hacc, hexit⟩
    obtain ⟨-, hlast, hpending⟩ := hread o ho hcomplete
    obtain ⟨heof, hnil⟩ := hall o ho hcomplete
    rcases hstops with h | ⟨-, hrest⟩
    · exact nomatch (hlast.symm.trans h).symm.trans (congrArg some heof)
    · exact hrest (hpending.symm.trans hnil)
  · intro hno o ho hcomplete
    obtain ⟨⟨hfit, hacc, hexit⟩, hlast, hpending⟩ := hread o ho hcomplete
    have hstops : ¬ StopsEarly file := fun hstops => hno ⟨hstops, hfit, hacc⟩
    have hlast' : last (scanned file) = some o.last := hlast
    have heof : o.last = .eof := by
      cases hl : o.last with
      | eof => rfl
      | unknown => exact absurd (.inl (hlast'.trans (congrArg some hl))) hstops
      | exit => exact absurd (hlast'.trans (congrArg some hl)) hexit
      | token t => exact absurd (hlast'.trans (congrArg some hl)) (last_ne_token file t)
    refine ⟨heof, by_contra fun hne => hstops (.inr ⟨hlast'.trans (congrArg some heof), ?_⟩)⟩
    exact fun hrest => hne (hpending.trans hrest)

theorem right_iff (buf : Fin (BUFSIZE + 1) → UInt8) (file : List UInt8) :
    Right buf file ↔ (main buf file).isSome = true ∧ ∀ o, main buf file = some o → o.Complete → o.Consumed := by
  constructor
  · rintro ⟨o, ho, hright⟩
    refine ⟨Option.isSome_iff_exists.mpr ⟨o, ho⟩, ?_⟩
    intro o' ho'
    obtain rfl := Option.some.inj (ho.symm.trans ho')
    exact hright
  · rintro ⟨hsome, hright⟩
    obtain ⟨o, ho⟩ := Option.isSome_iff_exists.mp hsome
    exact ⟨o, ho, hright o ho⟩

/-- Tokens that are accepted are read, and so are those in front. -/
theorem readsFrom_of_accepted {u v : List Terminal} (h : Accepted (u ++ v)) :
    ReadsFrom parser (some yyStackDepth) Lemon.init (toks u) := by
  obtain ⟨p', es, hrun, -, herr⟩ := h
  rw [toks_append, Lemon.feed, List.map_append, List.append_assoc, Lemon.run_append] at hrun
  obtain ⟨⟨p₁, es₁⟩, h₁, hrest⟩ := Option.bind_eq_some_iff.mp hrun
  obtain ⟨⟨p₂, es₂⟩, -, heq⟩ := Option.map_eq_some_iff.mp hrest
  obtain ⟨rfl, rfl⟩ := Prod.mk.inj heq
  exact ⟨p₁, es₁, h₁, (Lemon.noSyntaxError_append.mp herr).1⟩

theorem tokens_append (es fs : List (Event Scanned)) : tokens (es ++ fs) = tokens es ++ tokens fs :=
  List.filterMap_append ..

/-- Where all tokens are accepted, all texts are got to. -/
theorem textsFit_of_fitWhere {es : List (Event Scanned)}
    (h : FitWhere (fun ts => ReadsFrom parser (some yyStackDepth) Lemon.init (toks ts)) es)
    (hacc : Accepted (tokens es)) : TextsFit es := by
  intro x hx t ht
  obtain ⟨es₁, es₂, rfl⟩ := List.append_of_mem hx
  refine h es₁ t x.2 es₂ (by rw [← ht]) (@readsFrom_of_accepted (tokens es₁) (tokens (x :: es₂)) ?_)
  rwa [← tokens_append]

/-- **A complete document is the whole file**, and no text overflows `buf`, if all texts fit and the scan does not stop
    early. In a file of fewer than 2^31 tokens that is so exactly if the texts fit behind every beginning of a document,
    and the scan does not stop early behind a document. -/
theorem main_consumed_iff (buf : Fin (BUFSIZE + 1) → UInt8) (file : List UInt8) :
    (TextsFit (scanned file) → ¬ StopsEarly file → Right buf file) ∧
    ((tokens (scanned file)).length < 2147483648 →
      (Right buf file ↔ FitWhere Viable (scanned file) ∧ ¬ (StopsEarly file ∧ Document (tokens (scanned file))))) := by
  rw [right_iff, main_isSome, consumed_iff]
  constructor
  · intro hfit hstops
    refine ⟨?_, fun h => hstops h.1⟩
    intro es₁ t text es₂ heq _
    exact hfit _ (heq ▸ List.mem_append_right es₁ (List.mem_cons_self ..)) t rfl
  · intro hlen
    have hviable : ∀ es₁ es₂, scanned file = es₁ ++ es₂ →
        (Viable (tokens es₁) ↔ ReadsFrom parser (some yyStackDepth) Lemon.init (toks (tokens es₁))) := by
      intro es₁ es₂ heq
      apply viable_iff
      rw [heq, tokens_append, List.length_append] at hlen
      omega
    rw [document_iff hlen]
    constructor
    · rintro ⟨hfit, hstops⟩
      refine ⟨hfit.mono (fun es₁ es₂ heq => (hviable es₁ es₂ heq).mp), ?_⟩
      rintro ⟨hearly, hacc⟩
      exact hstops ⟨hearly, textsFit_of_fitWhere hfit hacc, hacc⟩
    · rintro ⟨hfit, hstops⟩
      refine ⟨hfit.mono (fun es₁ es₂ heq => (hviable es₁ es₂ heq).mpr), ?_⟩
      rintro ⟨hearly, -, hacc⟩
      exact hstops ⟨hearly, hacc⟩

/-- An empty array with more behind it. -/
theorem main_trailing : ¬ Right (fun _ => 0) [ch '[', ch ']', ch 'x', ch '1'] := by
  rintro ⟨o, ho, hright⟩
  have hrun : (main (fun _ => 0) [ch '[', ch ']', ch 'x', ch '1']).map (fun o => (o.status, o.complete, o.last)) =
      some (0, true, .unknown) := by decide +kernel
  rw [ho, Option.map_some] at hrun
  obtain ⟨hstatus, hrest⟩ := Prod.mk.inj (Option.some.inj hrun)
  obtain ⟨hcomplete, hlast⟩ := Prod.mk.inj hrest
  have heof := (hright ⟨hstatus, hcomplete⟩).1
  rw [show o.last = .unknown from hlast] at heof
  exact absurd heof (by decide)

end Tokenizer
end CSamples
