import CSamples.Machine.Runs
import CSamples.Scanner.Input

/-!
# `Scanner.Stream` — the input buffer over whole runs

What `INPUT` and `fill` of `scanner/input.c` are relied on for, in every state that a run of cursor moves and calls of
`fill` reaches from `Input_Init`. A pointer stands for a position in the file: `fill` moves the pointers, and their
positions stay.

## Contents
- **Model.** `Move` and `move`; `position`, the place of a pointer in the file.
- **Specification.** `Right`, of a state and of a call of `fill` in it.
- `At`: the invariant, with the position of `tok`; `at_move`, one move.
- `input_right`: every state is right.
-/

namespace CSamples
namespace Scanner

open C Machine

/-! ## The model -/

/-- What the generated code does between two symbols: a token starts, `n` bytes are read as far as there are any, the
    marker is set, the cursor goes back to it where it is in the token, and `fill` is called. -/
inductive Move where
  | token
  | advance (n : Nat)
  | mark
  | restore
  | fill
  deriving DecidableEq, Repr

/-- One move. -/
def move (s : Input) : Move → Option Input
  | .token     => some { s with tok := s.cur }
  | .advance n => some { s with cur := min (s.cur + n) s.lim }
  | .mark      => some { s with mar := s.cur }
  | .restore   => some (if s.tok ≤ s.mar ∧ s.mar ≤ s.cur then { s with cur := s.mar.toNat } else s)
  | .fill      => (fill s).map Prod.snd

/-- The bytes from `tok` to `lim`. -/
def Input.window (s : Input) : List UInt8 := (s.buf.drop s.tok).take (s.lim - s.tok)

/-- The place in the file that the pointer `p` stands for: `lim` is behind all bytes that were delivered. -/
def position (whole : List UInt8) (s : Input) (p : Nat) : Int :=
  whole.length - s.file.length - ((s.lim : Int) - p)

/-! ## The specification -/

/-- A call of `fill` refuses with 1 when the end has been read and with 2 when nothing can be dropped, and changes nothing
    then. Else it keeps the positions and appends the next bytes of the file, as many as there is room for. -/
def FillRight (whole : List UInt8) (s : Input) : Prop :=
  ∃ r s', fill s = some (r, s') ∧ r = (if s.eof then 1 else if s.tok < 1 then 2 else 0) ∧ (r ≠ 0 → s' = s) ∧
    (r = 0 → position whole s' s'.tok = position whole s s.tok ∧ position whole s' s'.cur = position whole s s.cur ∧
      s'.window = s.window ++ s.file.take (BUFSIZE - (s.lim - s.tok)) ∧ s'.file = s.file.drop (BUFSIZE - (s.lim - s.tok)))

/-- What is relied on. -/
structure Right (whole : List UInt8) (s : Input) : Prop where
  tok_le : s.tok ≤ s.cur
  cur_le : s.cur ≤ s.lim
  lim_le : s.lim ≤ BUFSIZE
  nul    : s.buf[s.lim]? = some 0
  bytes  : ∃ k : Nat, position whole s s.tok = k ∧ s.window = (whole.drop k).take (s.lim - s.tok)
  fill   : FillRight whole s
  eof    : s.eof = true → s.file = []

/-! ## The invariant -/

/-- `tok` stands for the place `k`. -/
def At (whole : List UInt8) (k : Nat) (s : Input) : Prop := k ≤ whole.length ∧ Holds (whole.drop k) s

theorem at_init (buf : Fin (BUFSIZE + 1) → UInt8) (whole : List UInt8) : At whole 0 (inputInit buf whole) :=
  ⟨Nat.zero_le _, holds_inputInit buf whole⟩

theorem Holds.length_window {w : List UInt8} {s : Input} (h : Holds w s) : s.window.length = s.lim - s.tok := by
  have h1 := h.size
  have h2 := h.lim_le
  rw [Input.window, List.length_take, List.length_drop]
  omega

/-- The place of `tok`, by the bytes that are delivered. -/
theorem At.position_tok {whole : List UInt8} {k : Nat} {s : Input} (h : At whole k s) :
    position whole s s.tok = k := by
  obtain ⟨hle, hholds⟩ := h
  have hlen := congrArg List.length hholds.bytes
  have hwin : ((s.buf.drop s.tok).take (s.lim - s.tok)).length = s.lim - s.tok := hholds.length_window
  have h1 := hholds.tok_le
  have h2 := hholds.cur_le
  rw [List.length_append, hwin, List.length_drop] at hlen
  unfold position
  omega

/-- Any other pointer is as far from `tok` in the file as in the buffer. -/
theorem position_sub (whole : List UInt8) (s : Input) (p : Nat) :
    position whole s p = position whole s s.tok + ((p : Int) - s.tok) := by
  unfold position
  omega

/-- **One move** is defined and keeps the invariant. -/
theorem at_move {whole : List UInt8} {k : Nat} {s : Input} (h : At whole k s) (m : Move) :
    ∃ s' k', move s m = some s' ∧ At whole k' s' := by
  obtain ⟨hle, hholds⟩ := h
  have htok := hholds.tok_le
  have hcur := hholds.cur_le
  cases m with
  | token =>
      refine ⟨_, k + (s.cur - s.tok), rfl, ?_, ?_⟩
      · have hloaded := hholds.loaded.2
        rw [List.length_drop] at hloaded
        omega
      · have hstart := hholds.start
        rwa [List.drop_drop] at hstart
  | advance n =>
      refine ⟨_, k, rfl, hle, { hholds with tok_le := ?_, cur_le := Nat.min_le_right _ _ }⟩
      show s.tok ≤ min (s.cur + n) s.lim
      omega
  | mark => exact ⟨_, k, rfl, hle, { hholds with }⟩
  | restore =>
      unfold move
      split_ifs with hmar
      · refine ⟨_, k, rfl, hle, { hholds with tok_le := ?_, cur_le := ?_ }⟩
        · show s.tok ≤ s.mar.toNat
          omega
        · show s.mar.toNat ≤ s.lim
          omega
      · exact ⟨s, k, rfl, hle, hholds⟩
  | fill =>
      unfold move
      rcases fill_spec hholds with ⟨hf, -⟩ | ⟨hf, -, -⟩ | ⟨s', hf, -, hholds', -⟩
      · exact ⟨s, k, by rw [hf]; rfl, hle, hholds⟩
      · exact ⟨s, k, by rw [hf]; rfl, hle, hholds⟩
      · exact ⟨s', k, by rw [hf]; rfl, hle, hholds'⟩

/-- **A run** is defined and keeps the invariant. -/
theorem at_run {whole : List UInt8} (ms : List Move) {k : Nat} {s : Input} (h : At whole k s) :
    ∃ s' k', run move ms s = some s' ∧ At whole k' s' := by
  induction ms generalizing k s with
  | nil => exact ⟨s, k, rfl, h⟩
  | cons m ms ih =>
      obtain ⟨s₁, k₁, hmove, h₁⟩ := at_move h m
      obtain ⟨s', k', hrun, h'⟩ := ih h₁
      exact ⟨s', k', by rw [run_cons hmove]; exact hrun, h'⟩

/-! ## What the invariant says -/

/-- What a call that succeeds appends. -/
theorem appended {w : List UInt8} {s s' : Input} (h : Holds w s) (h' : Holds w s') (htok : s'.tok = 0)
    (hlim : s'.lim = min BUFSIZE w.length) :
    s'.window = s.window ++ s.file.take (BUFSIZE - (s.lim - s.tok)) ∧ s'.file = s.file.drop (BUFSIZE - (s.lim - s.tok)) := by
  have hloaded := h.loaded.2
  have hle := h.lim_le
  have hlen := h.length_window
  -- both windows are beginnings of the same bytes
  have hw : s.window ++ s.file = w := h.bytes
  have hw' : s'.window ++ s'.file = w := h'.bytes
  have hfilled : s'.window = w.take BUFSIZE := by
    have htake : s'.window = w.take (s'.lim - s'.tok) := h'.loaded.1
    rw [htake, htok, hlim, Nat.sub_zero, ← List.take_take, List.take_length]
  have hwindow : s'.window = s.window ++ s.file.take (BUFSIZE - (s.lim - s.tok)) := by
    rw [hfilled, ← hw, List.take_append, hlen, List.take_of_length_le (by omega)]
  refine ⟨hwindow, ?_⟩
  have hrest : s'.window ++ s'.file = s'.window ++ s.file.drop (BUFSIZE - (s.lim - s.tok)) := by
    rw [hw', hwindow, List.append_assoc, List.take_append_drop, hw]
  exact List.append_cancel_left hrest

theorem eof_of_fill_zero {s s' : Input} (h : fill s = some (0, s')) : s.eof = false := by
  rw [Bool.eq_false_iff]
  intro heof
  unfold fill at h
  rw [if_pos heof] at h
  exact absurd (Prod.mk.inj (Option.some.inj h)).1 (by decide)

theorem At.fillRight {whole : List UInt8} {k : Nat} {s : Input} (h : At whole k s) : FillRight whole s := by
  obtain ⟨hle, hholds⟩ := h
  rcases fill_spec hholds with ⟨hf, heof⟩ | ⟨hf, heof, htok⟩ | ⟨s', hf, hpos, hholds', htok, hlim, hcur, -⟩
  · refine ⟨1, s, hf, ?_, fun _ => rfl, fun h0 => absurd h0 (by decide)⟩
    rw [if_pos heof]
  · refine ⟨2, s, hf, ?_, fun _ => rfl, fun h0 => absurd h0 (by decide)⟩
    rw [heof, if_neg (by decide), if_pos (by omega)]
  · have hsame : position whole s' s'.tok = position whole s s.tok := by
      rw [At.position_tok ⟨hle, hholds'⟩, At.position_tok ⟨hle, hholds⟩]
    refine ⟨0, s', hf, ?_, fun h0 => absurd rfl h0, fun _ => ⟨hsame, ?_, appended hholds hholds' htok hlim⟩⟩
    · rw [eof_of_fill_zero hf, if_neg (by decide), if_neg (by omega)]
    · have htokle := hholds.tok_le
      rw [position_sub whole s' s'.cur, position_sub whole s s.cur, hsame]
      omega

theorem At.right {whole : List UInt8} {k : Nat} {s : Input} (h : At whole k s) : Right whole s where
  tok_le := h.2.tok_le
  cur_le := h.2.cur_le
  lim_le := h.2.lim_le
  nul    := h.2.nul
  bytes  := ⟨k, h.position_tok, h.2.loaded.1⟩
  fill   := h.fillRight
  eof    := h.2.last

/-- **The input buffer**: any moves and calls of `fill` from `Input_Init` are defined and lead to a state that is right,
    for every file and whatever the allocated bytes were. -/
theorem input_right (buf : Fin (BUFSIZE + 1) → UInt8) (whole : List UInt8) (ms : List Move) :
    ∃ s, run move ms (inputInit buf whole) = some s ∧ Right whole s := by
  obtain ⟨s, k, hrun, h⟩ := at_run ms (at_init buf whole)
  exact ⟨s, hrun, h.right⟩

end Scanner
end CSamples
