import CSamples.C.Memory

/-!
# `Tap.Input` — the input buffer of the TAP scanner

`struct Input` and `fill` of `re2c/scanner/scanner.re`. The scanner asks for a number of bytes in advance; behind the
end of the file stand `YYMAXFILL` NULs, so that it can always look that far. The pointers are offsets into `buf`.

## Contents
- **Model.** `Input`, `inputInit`, `fill`; `FillCall`, the record of a call.
- **Invariant.** `Holds r s`: the buffer holds the beginning of `r`, the file from `tok` on, and the padding.
- `fill_spec`: a call refuses and changes nothing, or the buffer holds as much as it can.
- `FillCall.Sound`: the pointers stay in order and in the buffer, and what was asked for is there.
-/

namespace CSamples
namespace Tap

open C

/-! ## The model -/

def YYMAXFILL : Nat := 6

def BUFSIZE : Nat := 4096 - YYMAXFILL

/-- `struct Input`. `file` is what the stream has not delivered yet. -/
structure Input where
  buf  : Mem
  lim  : Nat
  cur  : Nat
  tok  : Nat
  mar  : Int
  eof  : Bool
  file : List UInt8

/-- `Scanner_Create`, `Scanner_Init` and `Scanner_Open`. They leave `mar` a null pointer, which is no offset: any
    number will do. -/
def inputInit (mar : Int) (file : List UInt8) : Input where
  buf  := List.replicate (BUFSIZE + YYMAXFILL) 0
  lim  := BUFSIZE
  cur  := BUFSIZE
  tok  := BUFSIZE
  mar  := mar
  eof  := false
  file := file

/-- The bytes behind the end of the file. -/
def padding : List UInt8 := List.replicate YYMAXFILL 0

/-- `fill`, with its result: 1 behind the end of the file, 2 when too little can be dropped. `fread` is short only at
    the end of the file. -/
def fill (need : Nat) (s : Input) : Option (Nat × Input) :=
  let shift := s.tok
  let used := s.lim - s.tok
  if s.eof then some (1, s)
  else if shift < need then some (2, s)
  else
    (memmove s.buf 0 s.tok used).bind (fun buf =>
      let data := s.file.take (BUFSIZE - used)
      let lim := s.lim - shift + data.length
      (blit buf (s.lim - shift) data).bind (fun buf =>
        let s' : Input :=
          { buf := buf, lim := lim, cur := s.cur - shift, tok := s.tok - shift, mar := s.mar - shift,
            eof := s.eof, file := s.file.drop (BUFSIZE - used) }
        if lim < BUFSIZE then
          (blit buf lim padding).map (fun buf => (0, { s' with buf := buf, lim := lim + YYMAXFILL, eof := true }))
        else some (0, s')))

/-- A call of `fill`. -/
structure FillCall where
  need   : Nat
  before : Input
  ret    : Nat
  after  : Input

/-- The bytes of the file behind `cur`; the padding is not counted. -/
def Input.unread (s : Input) : List UInt8 :=
  (s.buf.drop s.cur).take (s.lim - s.cur - if s.eof then YYMAXFILL else 0) ++ s.file

/-! ## The invariant -/

/-- `buf <= tok <= cur <= lim <= buf + BUFSIZE + YYMAXFILL` -/
structure Ordered (s : Input) : Prop where
  tok_le : s.tok ≤ s.cur
  cur_le : s.cur ≤ s.lim
  lim_le : s.lim ≤ BUFSIZE + YYMAXFILL

/-- The pointers are in order around a call of `fill`, and behind a call that succeeds there is what was asked for. -/
def FillCall.Sound (c : FillCall) : Prop :=
  Ordered c.before ∧ Ordered c.after ∧ (c.ret = 0 → c.need ≤ c.after.lim - c.after.cur)

/-- The buffer holds the beginning of `r`, the file from `tok` on; behind its end it holds the padding. -/
structure Holds (r : List UInt8) (s : Input) : Prop where
  ordered : Ordered s
  size    : s.buf.length = BUFSIZE + YYMAXFILL
  bytes   : (s.buf.drop s.tok).take (s.lim - s.tok) ++ (if s.eof then [] else s.file ++ padding) = r ++ padding
  full    : s.eof = false → s.lim = BUFSIZE
  last    : s.eof = true → s.file = [] ∧ s.lim < BUFSIZE + YYMAXFILL

theorem length_padding : padding.length = YYMAXFILL := List.length_replicate

theorem holds_inputInit (mar : Int) (file : List UInt8) : Holds file (inputInit mar file) where
  ordered := ⟨Nat.le_refl _, Nat.le_refl _, Nat.le_add_right _ _⟩
  size    := List.length_replicate
  bytes   := by
    show (List.drop BUFSIZE _).take (BUFSIZE - BUFSIZE) ++ (file ++ padding) = _
    rw [Nat.sub_self, List.take_zero, List.nil_append]
  full    := fun _ => rfl
  last    := nofun

/-- The bytes that are in the buffer. -/
theorem Holds.loaded {r : List UInt8} {s : Input} (h : Holds r s) :
    (s.buf.drop s.tok).take (s.lim - s.tok) = (r ++ padding).take (s.lim - s.tok) ∧
      s.lim - s.tok ≤ (r ++ padding).length := by
  have hlen : ((s.buf.drop s.tok).take (s.lim - s.tok)).length = s.lim - s.tok := by
    have := h.size
    have := h.ordered.lim_le
    rw [List.length_take, List.length_drop]
    omega
  constructor
  · rw [← h.bytes, List.take_append_of_le_length (Nat.le_of_eq hlen.symm), List.take_of_length_le (Nat.le_of_eq hlen)]
  · rw [← h.bytes, List.length_append, hlen]
    exact Nat.le_add_right _ _

/-- A byte in the buffer. -/
theorem Holds.load {r : List UInt8} {s : Input} (h : Holds r s) {i : Nat} (hi : s.tok + i < s.lim) :
    C.load s.buf (s.tok + i) = (r ++ padding)[i]? := by
  have hlt : i < s.lim - s.tok := by omega
  have hbyte := congrArg (fun l : List UInt8 => l[i]?) h.loaded.1
  simp only [List.getElem?_take_of_lt hlt, List.getElem?_drop] at hbyte
  exact hbyte

/-- While the file goes on, the buffer ends in the middle of it. -/
theorem Holds.bytes_of_not_eof {r : List UInt8} {s : Input} (h : Holds r s) (heof : s.eof = false) :
    (s.buf.drop s.tok).take (s.lim - s.tok) ++ s.file = r := by
  have hbytes := h.bytes
  rw [heof, if_neg Bool.false_ne_true, ← List.append_assoc] at hbytes
  exact List.append_cancel_right hbytes

/-- Behind its end, all of the rest is in the buffer. -/
theorem Holds.length_of_eof {r : List UInt8} {s : Input} (h : Holds r s) (heof : s.eof = true) :
    s.lim - s.tok = r.length + YYMAXFILL ∧ r.length < BUFSIZE := by
  have hlen := congrArg List.length h.bytes
  have hsize := h.size
  have hlast := (h.last heof).2
  have hle := h.ordered.lim_le
  rw [heof, if_pos rfl, List.append_nil, List.length_take, List.length_drop, List.length_append, length_padding] at hlen
  omega

/-- What is not read yet. -/
theorem Holds.unread {r : List UInt8} {s : Input} (h : Holds r s) : s.unread = r.drop (s.cur - s.tok) := by
  have htok := h.ordered.tok_le
  have hcur := h.ordered.cur_le
  have hbehind : (s.buf.drop s.cur).take (s.lim - s.cur) =
      ((s.buf.drop s.tok).take (s.lim - s.tok)).drop (s.cur - s.tok) := by
    rw [List.drop_take, List.drop_drop, Nat.add_sub_cancel' htok, Nat.sub_sub_sub_cancel_right htok]
  unfold Input.unread
  cases heof : s.eof with
  | false =>
      have hlen : s.cur - s.tok ≤ ((s.buf.drop s.tok).take (s.lim - s.tok)).length := by
        have := h.size
        have := h.ordered.lim_le
        rw [List.length_take, List.length_drop]
        omega
      rw [if_neg Bool.false_ne_true, Nat.sub_zero, hbehind, ← h.bytes_of_not_eof heof,
        List.drop_append_of_le_length hlen]
  | true =>
      have hlen := (h.length_of_eof heof).1
      have hbytes := h.bytes
      rw [heof, if_pos rfl, List.append_nil] at hbytes
      have hcount : s.lim - s.cur - YYMAXFILL = r.length - (s.cur - s.tok) := by omega
      have hle : r.length - (s.cur - s.tok) ≤ s.lim - s.cur := by omega
      rw [if_pos rfl, (h.last heof).1, List.append_nil, hcount, ← Nat.min_eq_left hle, ← List.take_take, hbehind,
        hbytes, ← List.drop_take, List.take_left]

/-- A token starts where the last one ended. -/
theorem Holds.start {r : List UInt8} {s : Input} (h : Holds r s) (hle : s.cur - s.tok ≤ r.length) :
    Holds (r.drop (s.cur - s.tok)) { s with tok := s.cur } where
  ordered := ⟨Nat.le_refl _, h.ordered.cur_le, h.ordered.lim_le⟩
  size    := h.size
  bytes   := by
    have h1 := h.ordered.tok_le
    have h2 := h.ordered.cur_le
    have h3 := h.size
    have h4 := h.ordered.lim_le
    have hlen : s.cur - s.tok ≤ ((s.buf.drop s.tok).take (s.lim - s.tok)).length := by
      rw [List.length_take, List.length_drop]
      omega
    rw [← List.drop_append_of_le_length hle, ← h.bytes, List.drop_append_of_le_length hlen, List.drop_take,
      List.drop_drop, Nat.add_sub_cancel' h1, Nat.sub_sub_sub_cancel_right h1]
  full    := h.full
  last    := h.last

/-! ## Refilling -/

/-- How many bytes from `tok` on the buffer can hold. -/
def inSight (r : List UInt8) : Nat := if r.length < BUFSIZE then r.length + YYMAXFILL else BUFSIZE

theorem inSight_le (r : List UInt8) : inSight r ≤ (r ++ padding).length ∧ YYMAXFILL ≤ inSight r := by
  have hB : BUFSIZE = 4090 := rfl
  have hY : YYMAXFILL = 6 := rfl
  unfold inSight
  rw [List.length_append, length_padding]
  split <;> omega

/-- **A call of `fill`** refuses and changes nothing, or leaves `tok` at the start of the buffer, which then holds as
    much as it can. -/
theorem fill_spec {r : List UInt8} {s : Input} (h : Holds r s) (need : Nat) :
    (fill need s = some (1, s) ∧ s.eof = true) ∨ (fill need s = some (2, s) ∧ s.eof = false ∧ s.tok < need) ∨
    ∃ s', fill need s = some (0, s') ∧ Holds r s' ∧ s.eof = false ∧ need ≤ s.tok ∧ s'.tok = 0 ∧ s'.lim = inSight r ∧
      s'.cur = s.cur - s.tok ∧ s'.mar = s.mar - s.tok := by
  have h1 := h.ordered.tok_le
  have h2 := h.ordered.cur_le
  have h3 := h.size
  have h4 := h.ordered.lim_le
  unfold fill
  cases heof : s.eof with
  | true => exact .inl ⟨rfl, rfl⟩
  | false =>
      right
      by_cases hshift : s.tok < need
      · left
        simp only [Bool.false_eq_true, if_false, if_pos hshift]
        exact ⟨trivial, trivial, hshift⟩
      · right
        have hlim := h.full heof
        have hr := h.bytes_of_not_eof heof
        simp only [Bool.false_eq_true, if_false, if_neg hshift]
        have hin : s.tok + (s.lim - s.tok) ≤ s.buf.length := by omega
        have hused : s.lim - s.tok ≤ BUFSIZE := by omega
        obtain ⟨m₁, m₂, hm₁, hm₂, hlen₂, hcopied, hbytes, hfile⟩ := memmove_blit hin hused (by omega) hr
        rw [hm₁, Option.bind_some, hm₂, Option.bind_some]
        simp only [hcopied]
        by_cases hshort : min BUFSIZE r.length < BUFSIZE
        · have hlt : r.length < BUFSIZE := by omega
          have hmin : min BUFSIZE r.length = r.length := Nat.min_eq_right (Nat.le_of_lt hlt)
          obtain ⟨m₃, hm₃, hlen₃, htake₃⟩ := @blit_take m₂ (min BUFSIZE r.length) padding (by
            rw [length_padding]
            omega)
          rw [if_pos hshort, hm₃, Option.map_some]
          rw [hbytes, hmin, length_padding, List.take_of_length_le (Nat.le_of_lt hlt)] at htake₃
          refine ⟨_, rfl, ?_, trivial, Nat.le_of_not_lt hshift, Nat.sub_self _, ?_, rfl, rfl⟩
          · exact
              { ordered := ⟨by show s.tok - s.tok ≤ s.cur - s.tok; omega,
                  by show s.cur - s.tok ≤ min BUFSIZE r.length + YYMAXFILL; omega,
                  by show min BUFSIZE r.length + YYMAXFILL ≤ BUFSIZE + YYMAXFILL; omega⟩
                size    := by show m₃.length = BUFSIZE + YYMAXFILL; omega
                bytes   := by
                  show (m₃.drop (s.tok - s.tok)).take (min BUFSIZE r.length + YYMAXFILL - (s.tok - s.tok)) ++ [] = _
                  rw [Nat.sub_self, List.drop_zero, Nat.sub_zero, hmin, htake₃, List.append_nil]
                full    := nofun
                last    := fun _ => ⟨by
                  show s.file.drop (BUFSIZE - (s.lim - s.tok)) = []
                  rw [hfile, List.drop_drop]
                  exact List.drop_eq_nil_of_le (by omega), by
                  show min BUFSIZE r.length + YYMAXFILL < BUFSIZE + YYMAXFILL
                  omega⟩ }
          · show min BUFSIZE r.length + YYMAXFILL = inSight r
            rw [hmin, inSight, if_pos hlt]
        · have hge : ¬ r.length < BUFSIZE := by omega
          have hmin : min BUFSIZE r.length = BUFSIZE := Nat.min_eq_left (Nat.le_of_not_lt hge)
          rw [if_neg hshort]
          refine ⟨_, rfl, ?_, trivial, Nat.le_of_not_lt hshift, Nat.sub_self _, ?_, rfl, rfl⟩
          · exact
              { ordered := ⟨by show s.tok - s.tok ≤ s.cur - s.tok; omega,
                  by show s.cur - s.tok ≤ min BUFSIZE r.length; omega,
                  by show min BUFSIZE r.length ≤ BUFSIZE + YYMAXFILL; omega⟩
                size    := by show m₂.length = BUFSIZE + YYMAXFILL; omega
                bytes   := by
                  show (m₂.drop (s.tok - s.tok)).take (min BUFSIZE r.length - (s.tok - s.tok)) ++
                    (s.file.drop (BUFSIZE - (s.lim - s.tok)) ++ padding) = _
                  rw [Nat.sub_self, List.drop_zero, Nat.sub_zero, hbytes, hfile, List.drop_drop,
                    Nat.add_sub_cancel' hused, ← List.append_assoc, List.take_append_drop]
                full    := fun _ => hmin
                last    := nofun }
          · show min BUFSIZE r.length = inSight r
            rw [hmin, inSight, if_neg hge]

end Tap
end CSamples
