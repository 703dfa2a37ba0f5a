import CSamples.C.Memory
import CSamples.Lex.Reader

/-!
# `Scanner.Input` — the input buffer of the scanners in eof mode

`INPUT` and `fill` of `scanner/input.c`, which `tokenizer` and `any_parser` share, and how the generated code
reads through them: a NUL at `lim` stands for the end of the buffer, and only there is `fill` called. The
pointers are offsets into `buf`.

## Contents
- **Model.** `Input`, `inputInit`, `fill`, `reader`.
- **Invariant.** `Holds w s`: the buffer holds the beginning of `w`, the file from `tok` on.
- `fill_spec`: a call refuses and changes nothing, or the buffer holds as much of `w` as it can.
- `Sees` and `lawful_reader`: what the scanner sees from `tok` on is the first `BUFSIZE` bytes of the file.
-/

namespace CSamples
namespace Scanner

open C CSamples.Lex

/-! ## The model -/

def BUFSIZE : Nat := 4096

/-- `INPUT`. `file` is what `in` has not delivered yet. -/
structure Input where
  buf  : Mem
  lim  : Nat
  cur  : Nat
  mar  : Int
  tok  : Nat
  eof  : Bool
  file : List UInt8
  deriving DecidableEq, Repr

/-- `Input_Init`, on the bytes that `malloc` happens to deliver, and `Input_SetStream`. -/
def inputInit (buf : Fin (BUFSIZE + 1) → UInt8) (file : List UInt8) : Input where
  buf  := (List.ofFn buf).set BUFSIZE 0
  lim  := BUFSIZE
  cur  := BUFSIZE
  mar  := BUFSIZE
  tok  := BUFSIZE
  eof  := false
  file := file

/-- `fill`, with its result: 1 at the end of the file, 2 when nothing can be dropped. `fread` is short only
    at the end of the file. -/
def fill (s : Input) : Option (Nat × Input) :=
  let shift := s.tok
  let used := s.lim - s.tok
  if s.eof then some (1, s)
  else if shift < 1 then some (2, s)
  else
    (memmove s.buf 0 s.tok used).bind (fun buf =>
      let data := s.file.take (BUFSIZE - used)
      let lim := s.lim - shift + data.length
      (blit buf (s.lim - shift) data).bind (fun buf =>
        (store buf lim 0).map (fun buf =>
          (0, { buf := buf, lim := lim, cur := s.cur - shift, mar := s.mar - shift, tok := s.tok - shift,
                eof := lim < BUFSIZE, file := s.file.drop (BUFSIZE - used) }))))

/-- The check of a symbol: a NUL at `lim` calls `fill`, and is looked at again if that succeeds. A second
    turn that finds nothing cannot succeed again. -/
def refill : Nat → Input → Option (Bool × Input)
  | 0, _ => none
  | n + 1, s =>
      (load s.buf s.cur).bind (fun yych =>
        if yych = 0 ∧ s.lim ≤ s.cur then
          (fill s).bind (fun x => if x.1 = 0 then refill n x.2 else some (false, x.2))
        else some (true, s))

/-- The generated code's `YYCURSOR`, `YYMARKER`, `YYLIMIT` and `YYFILL`. -/
def reader : Reader Input UInt8 where
  more _ s  := refill 2 s
  next s    := (load s.buf s.cur).map (fun yych => (yych, { s with cur := s.cur + 1 }))
  mark s    := { s with mar := s.cur }
  restore s := { s with cur := s.mar.toNat }
  fallback  := true

/-- The bytes from `tok` to `cur`. -/
def Input.span (s : Input) : List UInt8 := (s.buf.drop s.tok).take (s.cur - s.tok)

/-- The bytes of the file behind `cur`. -/
def Input.pending (s : Input) : List UInt8 := (s.buf.drop s.cur).take (s.lim - s.cur) ++ s.file

/-! ## The invariant -/

/-- The buffer holds the beginning of `w`, the file from `tok` on. -/
structure Holds (w : List UInt8) (s : Input) : Prop where
  size   : s.buf.length = BUFSIZE + 1
  tok_le : s.tok ≤ s.cur
  cur_le : s.cur ≤ s.lim
  lim_le : s.lim ≤ BUFSIZE
  nul    : s.buf[s.lim]? = some 0
  bytes  : (s.buf.drop s.tok).take (s.lim - s.tok) ++ s.file = w
  full   : s.eof = false → s.lim = BUFSIZE
  last   : s.eof = true → s.file = []

theorem holds_inputInit (buf : Fin (BUFSIZE + 1) → UInt8) (file : List UInt8) :
    Holds file (inputInit buf file) where
  size   := by simp [inputInit]
  tok_le := Nat.le_refl _
  cur_le := Nat.le_refl _
  lim_le := Nat.le_refl _
  nul    := by simp [inputInit]
  bytes  := by simp [inputInit]
  full   := fun _ => rfl
  last   := nofun

/-- The bytes that are in the buffer, as a beginning of `w`. -/
theorem Holds.loaded {w : List UInt8} {s : Input} (h : Holds w s) :
    (s.buf.drop s.tok).take (s.lim - s.tok) = w.take (s.lim - s.tok) ∧ s.lim - s.tok ≤ w.length := by
  have hlen : ((s.buf.drop s.tok).take (s.lim - s.tok)).length = s.lim - s.tok := by
    have := h.size
    have := h.lim_le
    rw [List.length_take, List.length_drop]
    omega
  constructor
  · rw [← h.bytes, List.take_append_of_le_length (Nat.le_of_eq hlen.symm), List.take_of_length_le (Nat.le_of_eq hlen)]
  · rw [← h.bytes, List.length_append, hlen]
    exact Nat.le_add_right _ _

/-- A byte in the buffer. -/
theorem Holds.load {w : List UInt8} {s : Input} (h : Holds w s) {i : Nat} (hi : s.tok + i < s.lim) :
    C.load s.buf (s.tok + i) = w[i]? := by
  have hlt : i < s.lim - s.tok := by omega
  have hbyte := congrArg (fun l : List UInt8 => l[i]?) h.loaded.1
  simp only [List.getElem?_take_of_lt hlt, List.getElem?_drop] at hbyte
  exact hbyte

/-- The text of a match. -/
theorem Holds.span {w : List UInt8} {s : Input} (h : Holds w s) : s.span = w.take (s.cur - s.tok) := by
  have hle : s.cur - s.tok ≤ s.lim - s.tok := Nat.sub_le_sub_right h.cur_le _
  have htext := congrArg (List.take (s.cur - s.tok)) h.loaded.1
  rw [List.take_take, List.take_take, Nat.min_eq_left hle] at htext
  exact htext

/-- A token starts where the last one ended. -/
theorem Holds.start {w : List UInt8} {s : Input} (h : Holds w s) :
    Holds (w.drop (s.cur - s.tok)) { s with tok := s.cur } where
  size   := h.size
  tok_le := Nat.le_refl _
  cur_le := h.cur_le
  lim_le := h.lim_le
  nul    := h.nul
  bytes  := by
    have h1 := h.tok_le
    have h2 := h.cur_le
    have h3 := h.size
    have h4 := h.lim_le
    have hlen : s.cur - s.tok ≤ ((s.buf.drop s.tok).take (s.lim - s.tok)).length := by
      rw [List.length_take, List.length_drop]
      omega
    rw [← h.bytes, List.drop_append_of_le_length hlen, List.drop_take, List.drop_drop, Nat.add_sub_cancel' h1,
      Nat.sub_sub_sub_cancel_right h1]
  full   := h.full
  last   := h.last

/-! ## Refilling -/

/-- **A call of `fill`** refuses and changes nothing, or leaves `tok` at the start of the buffer, which then
    holds as much of `w` as it can. -/
theorem fill_spec {w : List UInt8} {s : Input} (h : Holds w s) :
    (fill s = some (1, s) ∧ s.eof = true) ∨ (fill s = some (2, s) ∧ s.eof = false ∧ s.tok = 0) ∨
    ∃ s', fill s = some (0, s') ∧ 0 < s.tok ∧ Holds w s' ∧ s'.tok = 0 ∧ s'.lim = min BUFSIZE w.length ∧
      s'.cur = s.cur - s.tok ∧ s'.mar = s.mar - s.tok := by
  have h1 := h.tok_le
  have h2 := h.cur_le
  have h3 := h.size
  have h4 := h.lim_le
  have hle := h.loaded.2
  unfold fill
  cases heof : s.eof with
  | true => exact .inl ⟨rfl, rfl⟩
  | false =>
      right
      by_cases hshift : s.tok < 1
      · left
        simp only [Bool.false_eq_true, if_false, if_pos hshift]
        exact ⟨trivial, trivial, by omega⟩
      · right
        simp only [Bool.false_eq_true, if_false, if_neg hshift]
        have hin : s.tok + (s.lim - s.tok) ≤ s.buf.length := by omega
        have hused : s.lim - s.tok ≤ BUFSIZE := by omega
        obtain ⟨m₁, m₂, hm₁, hm₂, hlen₂, hlim, hbytes, hfile⟩ := memmove_blit hin hused (by omega) h.bytes
        rw [hm₁, Option.bind_some, hm₂, Option.bind_some, hlim, store_eq_some (by omega), Option.map_some]
        refine ⟨_, rfl, Nat.pos_of_ne_zero (fun h0 => hshift (by omega)), ?_, Nat.sub_self _, rfl, rfl, rfl⟩
        have hlt : min BUFSIZE w.length < m₂.length := by omega
        exact
          { size   := by rw [List.length_set]; omega
            tok_le := Nat.le_trans (Nat.le_of_eq (Nat.sub_self _)) (Nat.zero_le _)
            cur_le := by show s.cur - s.tok ≤ min BUFSIZE w.length; omega
            lim_le := Nat.min_le_left _ _
            nul    := List.getElem?_set_self hlt
            bytes  := by
              show ((m₂.set (min BUFSIZE w.length) 0).drop (s.tok - s.tok)).take
                (min BUFSIZE w.length - (s.tok - s.tok)) ++ s.file.drop (BUFSIZE - (s.lim - s.tok)) = w
              rw [Nat.sub_self, Nat.sub_zero, List.drop_zero, List.take_set_of_le (Nat.le_refl _), hbytes, hfile,
                List.drop_drop, Nat.add_sub_cancel' hused, List.take_append_drop]
            full   := by
              intro hfull
              have hge : ¬ min BUFSIZE w.length < BUFSIZE := of_decide_eq_false hfull
              show min BUFSIZE w.length = BUFSIZE
              omega
            last   := by
              intro hlast
              have hlt : min BUFSIZE w.length < BUFSIZE := of_decide_eq_true hlast
              show s.file.drop (BUFSIZE - (s.lim - s.tok)) = []
              rw [hfile, List.drop_drop]
              exact List.drop_eq_nil_of_le (by omega) }

/-- In front of `lim` there is nothing to do. -/
theorem refill_of_lt {w : List UInt8} {s : Input} (h : Holds w s) (hlt : s.cur < s.lim) (n : Nat) :
    refill (n + 1) s = some (true, s) := by
  have hi : s.tok + (s.cur - s.tok) < s.lim := by
    have := h.tok_le
    omega
  have hload := h.load hi
  have hbyte : s.cur - s.tok < w.length := by
    have := h.loaded.2
    have := h.tok_le
    omega
  rw [Nat.add_sub_cancel' h.tok_le, List.getElem?_eq_getElem hbyte] at hload
  unfold refill
  rw [hload, Option.bind_some, if_neg (fun hc => Nat.not_le.mpr hlt hc.2)]

/-- At `lim` stands the NUL that calls `fill`. -/
theorem refill_of_eq {w : List UInt8} {s : Input} (h : Holds w s) (heq : s.cur = s.lim) (n : Nat) :
    refill (n + 1) s = (fill s).bind (fun x => if x.1 = 0 then refill n x.2 else some (false, x.2)) := by
  have hload : load s.buf s.cur = some 0 := by
    rw [heq]
    exact h.nul
  conv_lhs => unfold refill
  rw [hload, Option.bind_some, if_pos ⟨rfl, Nat.le_of_eq heq.symm⟩]

/-- Where `fill` refuses, nothing is left of the window. -/
theorem not_lt_of_refused {w : List UInt8} {s : Input} (h : Holds w s) (heq : s.cur = s.lim)
    (hrefused : s.eof = true ∨ (s.eof = false ∧ s.tok = 0)) : ¬ s.cur - s.tok < min BUFSIZE w.length := by
  rcases hrefused with heof | ⟨heof, htok⟩
  · have hlen := congrArg List.length h.bytes
    rw [h.last heof, List.append_nil, List.length_take] at hlen
    omega
  · have := h.full heof
    omega

/-- **A check of a symbol**: it succeeds while bytes are left among the first `BUFSIZE` of `w`. -/
theorem refill_spec {w : List UInt8} {s : Input} (h : Holds w s) :
    ∃ s', refill 2 s = some (decide (s.cur - s.tok < min BUFSIZE w.length), s') ∧ Holds w s' ∧
      s'.cur - s'.tok = s.cur - s.tok ∧ s'.mar - s'.tok = s.mar - s.tok ∧
      (s.cur - s.tok < min BUFSIZE w.length → s'.cur < s'.lim) := by
  rcases Nat.lt_or_ge s.cur s.lim with hlt | hge
  · have hpos : s.cur - s.tok < min BUFSIZE w.length := by
      have := h.loaded.2
      have := h.lim_le
      have := h.tok_le
      omega
    exact ⟨s, by rw [refill_of_lt h hlt, decide_eq_true hpos], h, rfl, rfl, fun _ => hlt⟩
  · have heq : s.cur = s.lim := Nat.le_antisymm h.cur_le hge
    rw [refill_of_eq h heq]
    rcases fill_spec h with ⟨hf, heof⟩ | ⟨hf, heof, htok⟩ | ⟨s₁, hf, hpos, h₁, htok₁, hlim₁, hcur₁, hmar₁⟩
    · have hno := not_lt_of_refused h heq (.inl heof)
      exact ⟨s, by rw [hf, decide_eq_false hno]; rfl, h, rfl, rfl, fun hc => absurd hc hno⟩
    · have hno := not_lt_of_refused h heq (.inr ⟨heof, htok⟩)
      exact ⟨s, by rw [hf, decide_eq_false hno]; rfl, h, rfl, rfl, fun hc => absurd hc hno⟩
    · have hcur : s₁.cur - s₁.tok = s.cur - s.tok := by omega
      have hmar : s₁.mar - s₁.tok = s.mar - s.tok := by omega
      rw [hf, Option.bind_some, if_pos rfl]
      rcases Nat.lt_or_ge s₁.cur s₁.lim with hlt₁ | hge₁
      · have hin : s.cur - s.tok < min BUFSIZE w.length := by omega
        exact ⟨s₁, by rw [refill_of_lt h₁ hlt₁, decide_eq_true hin], h₁, hcur, hmar, fun _ => hlt₁⟩
      · -- nothing was read: the second turn is refused
        have heq₁ : s₁.cur = s₁.lim := Nat.le_antisymm h₁.cur_le hge₁
        have hno : ¬ s.cur - s.tok < min BUFSIZE w.length := by omega
        refine ⟨s₁, ?_, h₁, hcur, hmar, fun hc => absurd hc hno⟩
        rw [refill_of_eq h₁ heq₁, decide_eq_false hno]
        rcases fill_spec h₁ with ⟨hf₁, -⟩ | ⟨hf₁, -, -⟩ | ⟨_, _, hpos₁, _⟩
        · rw [hf₁]
          rfl
        · rw [hf₁]
          rfl
        · omega

/-! ## What the scanner sees -/

/-- In a match that starts behind the bytes `base` of the token, `u` was read and `v` can be read; the
    marker is behind the first `m` bytes of the match. `w` is the file from the token on. -/
structure Sees (w base u v : List UInt8) (m : Option Nat) (s : Input) : Prop where
  holds  : Holds w s
  window : w.take BUFSIZE = base ++ (u ++ v)
  cur    : s.cur = s.tok + (base.length + u.length)
  mar    : ∀ k ∈ m, s.mar = ((s.tok + (base.length + k) : Nat) : Int)

/-- How much is left of the window. -/
theorem Sees.left {w base u v : List UInt8} {m : Option Nat} {s : Input} (h : Sees w base u v m s) :
    min BUFSIZE w.length = s.cur - s.tok + v.length := by
  have hlen := congrArg List.length h.window
  rw [List.length_take, List.length_append, List.length_append] at hlen
  have hcur := h.cur
  omega

/-- The check in front of a symbol changes nothing that the scanner sees. -/
theorem Sees.refill {w base u v : List UInt8} {m : Option Nat} {s : Input} (h : Sees w base u v m s) :
    ∃ s', Scanner.refill 2 s = some (decide (v ≠ []), s') ∧ Sees w base u v m s' ∧ (v ≠ [] → s'.cur < s'.lim) := by
  obtain ⟨s', hre, hholds, hcur, hmar, hlt⟩ := refill_spec h.holds
  have hleft := h.left
  have hpos : s.cur - s.tok < min BUFSIZE w.length ↔ v ≠ [] := by
    rw [hleft, ← List.length_pos_iff]
    omega
  refine ⟨s', ?_, ⟨hholds, h.window, ?_, ?_⟩, fun hv => hlt (hpos.mpr hv)⟩
  · rw [hre, decide_eq_decide.mpr hpos]
  · have h1 := hholds.tok_le
    have h2 := h.cur
    omega
  · intro k hk
    have := h.mar k hk
    omega

theorem lawful_reader (w base : List UInt8) : reader.Lawful (Sees w base) where
  next := by
    intro u a v m s h
    obtain ⟨s₁, hre, h₁, hlt⟩ := h.refill
    have hbyte : load s₁.buf s₁.cur = some a := by
      have hi : s₁.tok + (base.length + u.length) < s₁.lim := by
        rw [← h₁.cur]
        exact hlt (List.cons_ne_nil _ _)
      rw [h₁.cur, h₁.holds.load hi]
      have hw : (w.take BUFSIZE)[base.length + u.length]? = some a := by
        rw [h₁.window, ← List.append_assoc, ← List.length_append, List.getElem?_append_right (Nat.le_refl _),
          Nat.sub_self]
        rfl
      have hlt' : base.length + u.length < BUFSIZE := by
        have := h₁.holds.lim_le
        omega
      rwa [List.getElem?_take_of_lt hlt'] at hw
    refine ⟨s₁, { s₁ with cur := s₁.cur + 1 }, hre, ?_, ?_⟩
    · show (load s₁.buf s₁.cur).map _ = _
      rw [hbyte]
      rfl
    · have hcur := hlt (List.cons_ne_nil _ _)
      have htok := h₁.holds.tok_le
      exact
        { holds  := { h₁.holds with tok_le := Nat.le_succ_of_le htok, cur_le := hcur }
          window := by rw [h₁.window]; simp
          cur    := by
            have := h₁.cur
            rw [List.length_append]
            show s₁.cur + 1 = s₁.tok + (base.length + (u.length + 1))
            omega
          mar    := h₁.mar }
  mark := by
    intro u v m s h
    refine ⟨⟨h.holds.size, h.holds.tok_le, h.holds.cur_le, h.holds.lim_le, h.holds.nul, h.holds.bytes, h.holds.full,
      h.holds.last⟩, h.window, h.cur, ?_⟩
    intro k hk
    obtain rfl := Option.some.inj hk
    exact congrArg Int.ofNat h.cur
  restore := by
    intro u v k s h hk
    have hmar := h.mar k rfl
    have hcur := h.cur
    have hnat : s.mar.toNat = s.tok + (base.length + k) := by omega
    have hle : s.mar.toNat ≤ s.cur := by omega
    exact
      { holds  := { h.holds with
                    tok_le := by show s.tok ≤ s.mar.toNat; omega
                    cur_le := Nat.le_trans hle h.holds.cur_le }
        window := by rw [h.window, ← List.append_assoc (u.take k), List.take_append_drop]
        cur    := by
          show s.mar.toNat = _
          rw [hnat, List.length_take, Nat.min_eq_left hk]
          rfl
        mar    := h.mar }

theorem ends_reader (w base : List UInt8) : reader.Ends (Sees w base) where
  more := by
    intro u m s h
    obtain ⟨s', hre, h', -⟩ := h.refill
    exact ⟨s', hre, h'⟩
  fallback := rfl

end Scanner
end CSamples
