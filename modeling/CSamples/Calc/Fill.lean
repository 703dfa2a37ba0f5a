import CSamples.C.Memory
import CSamples.Calc.Scanner
import CSamples.Lex.Reader

/-!
# `Calc.Fill` — the buffer of the calculator's scanner

`fill` of `calc/scanner/scanner.re`: it drops what is in front of the token, makes room for another block and reads
it. Behind the last byte it puts a newline. The pointers are offsets from `bot`.

## Contents
- **Model.** `Fd`, what `read(2)` delivers; `Scanner`; `shift`, `grow` and `fetch`, the three parts of `fill`.
- **Invariant.** `Holds w l s`: the buffer and the blocks to come hold `w`, from `tok` to the newline; behind them
  come the bytes `l`.
- `fill_full` and `fill_short`: a call keeps it, by one lemma for each part.
- `fill_moves`, what any call moves; `fill_block`, a call in front of a full block, whatever comes behind it.
-/

namespace CSamples
namespace Calc

open C CSamples.Lex

/-! ## The model -/

def BSIZE : Nat := 8192

/-- What calls of `read(2)` deliver: blocks, and then 0 for ever, or -1 if it fails. -/
structure Fd where
  blocks : List (List UInt8)
  fails  : Bool
  deriving DecidableEq, Repr

/-- All bytes. -/
def Fd.data (fd : Fd) : List UInt8 := fd.blocks.flatten

/-- The result of a `read(2)` that fails, as a `uint`. -/
def minusOne : Nat := 4294967295

/-- `read(fd, …, BSIZE)`: the bytes, the result as a `uint`, and what comes next. -/
def Fd.read (fd : Fd) : List UInt8 × Nat × Fd :=
  match fd.blocks with
  | d :: ds => (d, d.length, { fd with blocks := ds })
  | []      => ([], if fd.fails then minusOne else 0, fd)

/-- What the code does not say: the bytes that `malloc` delivers, and what becomes of a difference of pointers in
    a `uint`. -/
structure Platform where
  junk : Nat → UInt8
  conv : Nat → Option Nat

/-- `uint` has 32 bits. -/
def uint (junk : Nat → UInt8) : Platform := ⟨junk, fun d => some (d % 4294967296)⟩

/-- The same, as long as nothing is lost. -/
def checked (junk : Nat → UInt8) : Platform := ⟨junk, fun d => if d < 4294967296 then some d else none⟩

/-- A counter without a bound. -/
def unbounded (junk : Nat → UInt8) : Platform := ⟨junk, some⟩

/-- `Scanner`. `buf` is the allocated block at `bot`, from which `top` is its length away; a null pointer is offset 0
    of no block. -/
structure Scanner where
  fd   : Fd
  buf  : Mem
  tok  : Nat
  ptr  : Int
  cur  : Nat
  pos  : Int
  lim  : Nat
  top  : Nat
  eof  : Option Nat
  line : UInt32

/-- `memset(&in, 0, sizeof(in))` -/
def scannerInit (fd : Fd) : Scanner := ⟨fd, [], 0, 0, 0, 0, 0, 0, none, 0⟩

/-- The first part of `fill`: `cnt` bytes in front of the token are dropped. -/
def shift (cnt : Nat) (s : Scanner) : Option Scanner :=
  (memmove s.buf 0 s.tok (s.lim - s.tok)).map (fun buf =>
    { s with buf := buf, tok := 0, ptr := s.ptr - cnt, pos := s.pos - cnt, lim := s.lim - cnt })

/-- The second part: a block with room for `BSIZE` bytes behind `lim`. -/
def grow (P : Platform) (s : Scanner) : Option Scanner :=
  if s.tok + (s.lim - s.tok) ≤ s.buf.length then
    (blit ((List.range (s.lim + BSIZE)).map P.junk) 0 ((s.buf.drop s.tok).take (s.lim - s.tok))).map (fun buf =>
      { s with buf := buf, tok := 0, top := s.lim + BSIZE })
  else none

/-- The third part: a result other than `BSIZE` is taken for the end. -/
def fetch (s : Scanner) : Option Scanner :=
  let (data, cnt, fd) := s.fd.read
  (blit s.buf s.lim data).bind (fun buf =>
    if cnt ≠ BSIZE then
      (store buf (s.lim + cnt) LF).map (fun buf =>
        { s with fd := fd, buf := buf, lim := s.lim + cnt, eof := some (s.lim + cnt + 1) })
    else some { s with fd := fd, buf := buf, lim := s.lim + cnt })

/-- `fill`, with the cursor. -/
def fill (P : Platform) (s : Scanner) (cursor : Nat) : Option (Scanner × Nat) :=
  if s.eof.isSome then some (s, cursor)
  else
    (P.conv s.tok).bind (fun cnt =>
      (if cnt = 0 then some s else shift cnt s).bind (fun s =>
        (if s.top - s.lim < BSIZE then grow P s else some s).bind (fun s =>
          (fetch s).map (fun s => (s, cursor - cnt)))))

/-! ## The invariant -/

/-- The bytes that are taken from the blocks: up to the first that is short. -/
def taken : List (List UInt8) → List UInt8
  | []      => []
  | d :: ds => if d.length = BSIZE then d ++ taken ds else d

/-- The bytes behind them. -/
def untaken : List (List UInt8) → List UInt8
  | []      => []
  | d :: ds => if d.length = BSIZE then untaken ds else ds.flatten

/-- No block is longer than `BSIZE`, and a call that fails is not reached. -/
structure Fd.Sane (fd : Fd) : Prop where
  le    : ∀ d ∈ fd.blocks, d.length ≤ BSIZE
  short : fd.fails = true → ∃ d ∈ fd.blocks, d.length ≠ BSIZE

/-- The buffer and the blocks to come hold `w`, from `tok` up to the newline at the end; behind that come the
    bytes `l`. -/
structure Holds (w l : List UInt8) (s : Scanner) : Prop where
  tok_le : s.tok ≤ s.lim
  lim_le : s.lim ≤ s.top
  size   : s.buf.length = s.top
  going  : s.eof = none → s.fd.Sane ∧ l = untaken s.fd.blocks ∧
    w = (s.buf.drop s.tok).take (s.lim - s.tok) ++ (taken s.fd.blocks ++ [LF])
  ended  : ∀ e, s.eof = some e → e = s.lim + 1 ∧ l = s.fd.data ∧ s.lim < s.top ∧
    w = (s.buf.drop s.tok).take (s.lim - s.tok + 1)

theorem holds_scannerInit {fd : Fd} (h : fd.Sane) : Holds (taken fd.blocks ++ [LF]) (untaken fd.blocks) (scannerInit fd) where
  tok_le := Nat.le_refl _
  lim_le := Nat.le_refl _
  size   := rfl
  going  := fun _ => ⟨h, rfl, rfl⟩
  ended  := nofun

/-! ## The parts of `fill` -/

/-- What `s'` shares with `s` behind the first two parts: the token has moved to `bot`. -/
structure Moved (s s' : Scanner) : Prop where
  fd   : s'.fd = s.fd
  tok  : s'.tok = 0
  ptr  : s'.ptr = s.ptr - s.tok
  cur  : s'.cur = s.cur
  lim  : s'.lim = s.lim - s.tok
  eof  : s'.eof = s.eof
  line : s'.line = s.line

/-- Dropping what is in front of the token. -/
theorem shift_spec {w l : List UInt8} {s : Scanner} (h : Holds w l s) (heof : s.eof = none) :
    ∃ s', (if s.tok = 0 then some s else shift s.tok s) = some s' ∧ Holds w l s' ∧ Moved s s' := by
  have h1 := h.tok_le
  have h2 := h.lim_le
  have h3 := h.size
  obtain ⟨hsane, hl, hw⟩ := h.going heof
  by_cases htok : s.tok = 0
  · rw [if_pos htok]
    refine ⟨s, rfl, h, ⟨rfl, htok, ?_, rfl, ?_, rfl, rfl⟩⟩
    · rw [htok]
      simp
    · rw [htok, Nat.sub_zero]
  · obtain ⟨buf, hbuf, hlen, htake⟩ := memmove_front (show s.tok + (s.lim - s.tok) ≤ s.buf.length by omega)
    rw [if_neg htok, shift, hbuf, Option.map_some]
    refine ⟨_, rfl, ⟨Nat.zero_le _, ?_, ?_, fun _ => ⟨hsane, hl, ?_⟩, ?_⟩, ⟨rfl, rfl, rfl, rfl, rfl, rfl, rfl⟩⟩
    · show s.lim - s.tok ≤ s.top
      omega
    · show buf.length = s.top
      omega
    · show w = (buf.drop 0).take (s.lim - s.tok - 0) ++ _
      rw [List.drop_zero, Nat.sub_zero, htake]
      exact hw
    · intro e he
      exact absurd (heof.symm.trans he) nofun

/-- Making room behind `lim`. -/
theorem grow_spec {w l : List UInt8} {s : Scanner} (h : Holds w l s) (heof : s.eof = none) (htok : s.tok = 0)
    (P : Platform) : ∃ s', (if s.top - s.lim < BSIZE then grow P s else some s) = some s' ∧ Holds w l s' ∧
      Moved s s' ∧ s'.lim + BSIZE ≤ s'.top := by
  have h2 := h.lim_le
  have h3 := h.size
  obtain ⟨hsane, hl, hw⟩ := h.going heof
  have hself : s.lim - s.tok = s.lim := by omega
  have hptr : s.ptr = s.ptr - s.tok := by
    rw [htok]
    simp
  by_cases hroom : s.top - s.lim < BSIZE
  · have hlen : ((s.buf.drop s.tok).take (s.lim - s.tok)).length = s.lim := by
      rw [List.length_take, List.length_drop]
      omega
    obtain ⟨buf, hbuf, hbuflen, htake⟩ := @blit_take ((List.range (s.lim + BSIZE)).map P.junk) 0
      ((s.buf.drop s.tok).take (s.lim - s.tok)) (by
        rw [hlen, List.length_map, List.length_range]
        omega)
    rw [List.length_map, List.length_range] at hbuflen
    rw [Nat.zero_add, hlen, List.take_zero, List.nil_append] at htake
    rw [if_pos hroom, grow, if_pos (by omega), hbuf, Option.map_some]
    refine ⟨_, rfl, ⟨Nat.zero_le _, Nat.le_add_right _ _, hbuflen, fun _ => ⟨hsane, hl, ?_⟩, ?_⟩,
      ⟨rfl, rfl, hptr, rfl, hself.symm, rfl, rfl⟩, Nat.le_refl _⟩
    · show w = (buf.drop 0).take (s.lim - 0) ++ _
      rw [List.drop_zero, Nat.sub_zero, htake]
      exact hw
    · intro e he
      exact absurd (heof.symm.trans he) nofun
  · rw [if_neg hroom]
    exact ⟨s, rfl, h, ⟨rfl, htok, hptr, rfl, hself.symm, rfl, rfl⟩, by omega⟩

theorem Fd.read_cons {fd : Fd} {d : List UInt8} {ds : List (List UInt8)} (h : fd.blocks = d :: ds) :
    fd.read = (d, d.length, ⟨ds, fd.fails⟩) := by
  unfold Fd.read
  rw [h]

theorem Fd.read_nil {fd : Fd} (h : fd.blocks = []) : fd.read = ([], if fd.fails then minusOne else 0, fd) := by
  unfold Fd.read
  rw [h]

theorem fetch_eq {s : Scanner} {data : List UInt8} {cnt : Nat} {fd : Fd} (h : s.fd.read = (data, cnt, fd)) :
    fetch s = (blit s.buf s.lim data).bind (fun buf =>
      if cnt ≠ BSIZE then
        (store buf (s.lim + cnt) LF).map (fun buf =>
          { s with fd := fd, buf := buf, lim := s.lim + cnt, eof := some (s.lim + cnt + 1) })
      else some { s with fd := fd, buf := buf, lim := s.lim + cnt }) := by
  unfold fetch
  rw [h]

/-- Reading a full block. -/
theorem fetch_full {w l : List UInt8} {s : Scanner} (h : Holds w l s) (heof : s.eof = none) (htok : s.tok = 0)
    (hroom : s.lim + BSIZE ≤ s.top) {d : List UInt8} {ds : List (List UInt8)} (hd : s.fd.blocks = d :: ds)
    (hfull : d.length = BSIZE) : ∃ buf, let s' := { s with fd := ⟨ds, s.fd.fails⟩, buf := buf, lim := s.lim + BSIZE }
      fetch s = some s' ∧ Holds w l s' := by
  have h3 := h.size
  obtain ⟨hsane, hl, hw⟩ := h.going heof
  obtain ⟨buf, hbuf, hlen, htake⟩ := @blit_take s.buf s.lim d (by omega)
  have hread : s.fd.read = (d, BSIZE, ⟨ds, s.fd.fails⟩) := by
    rw [Fd.read_cons hd, hfull]
  refine ⟨buf, ?_, ⟨?_, ?_, ?_, fun _ => ⟨⟨?_, ?_⟩, ?_, ?_⟩, ?_⟩⟩
  · rw [fetch_eq hread, hbuf, Option.bind_some, if_neg (not_not_intro rfl)]
  · show s.tok ≤ s.lim + BSIZE
    omega
  · exact hroom
  · show buf.length = s.top
    omega
  · intro d' hd'
    exact hsane.le d' (hd ▸ List.mem_cons_of_mem d hd')
  · intro hfails
    obtain ⟨d', hd', hshort⟩ := hsane.short hfails
    rw [hd] at hd'
    rcases List.mem_cons.mp hd' with rfl | hd'
    · exact absurd hfull hshort
    · exact ⟨d', hd', hshort⟩
  · rw [hl, hd, untaken, if_pos hfull]
  · rw [hw, hd, taken, if_pos hfull, htok, List.drop_zero, Nat.sub_zero, List.drop_zero, Nat.sub_zero, ← hfull, htake]
    simp only [List.append_assoc]
  · intro e he
    exact absurd (heof.symm.trans he) nofun

/-- Reading the block that is taken for the last one, or nothing. -/
theorem fetch_short {w l : List UInt8} {s : Scanner} (h : Holds w l s) (heof : s.eof = none) (htok : s.tok = 0)
    (hroom : s.lim + BSIZE ≤ s.top) (hshort : ∀ d ∈ s.fd.blocks.head?, d.length ≠ BSIZE) :
    ∃ s', fetch s = some s' ∧ Holds w l s' ∧ s'.eof ≠ none ∧ s'.tok = 0 ∧ s'.ptr = s.ptr := by
  have h3 := h.size
  obtain ⟨hsane, hl, hw⟩ := h.going heof
  -- the short block, or nothing where all blocks are read
  obtain ⟨d, ds, hread, hlt, hdata, hrest⟩ : ∃ d ds, s.fd.read = (d, d.length, ⟨ds, s.fd.fails⟩) ∧ d.length < BSIZE ∧
      taken s.fd.blocks = d ∧ untaken s.fd.blocks = ds.flatten := by
    cases hb : s.fd.blocks with
    | nil =>
        have hfails : s.fd.fails = false := by
          by_contra hf
          obtain ⟨d, hd, -⟩ := hsane.short (by simpa using hf)
          rw [hb] at hd
          exact absurd hd List.not_mem_nil
        refine ⟨[], [], ?_, by decide, rfl, rfl⟩
        rw [Fd.read_nil hb, hfails, if_neg Bool.false_ne_true, ← hb, ← hfails]
        rfl
    | cons d ds =>
        have hd : d.length ≠ BSIZE := hshort d (by rw [hb]; rfl)
        have hle := hsane.le d (by rw [hb]; exact List.mem_cons_self ..)
        refine ⟨d, ds, Fd.read_cons hb, by omega, ?_, ?_⟩
        · rw [taken, if_neg hd]
        · rw [untaken, if_neg hd]
  obtain ⟨buf, hbuf, hlen, htake⟩ := @blit_take s.buf s.lim d (by omega)
  have hstore : store buf (s.lim + d.length) LF = some (buf.set (s.lim + d.length) LF) := store_eq_some (by omega) LF
  have hfetch : fetch s = some
      { s with
        fd  := ⟨ds, s.fd.fails⟩
        buf := buf.set (s.lim + d.length) LF
        lim := s.lim + d.length
        eof := some (s.lim + d.length + 1) } := by
    rw [fetch_eq hread, hbuf, Option.bind_some, if_pos (by omega), hstore]
    rfl
  refine ⟨_, hfetch, ⟨?_, ?_, ?_, nofun, ?_⟩, nofun, htok, rfl⟩
  · show s.tok ≤ s.lim + d.length
    omega
  · show s.lim + d.length ≤ s.top
    omega
  · show (buf.set (s.lim + d.length) LF).length = s.top
    rw [List.length_set]
    omega
  · intro e he
    -- the newline stands behind the last byte
    obtain rfl := Option.some.inj he
    refine ⟨rfl, by rw [hl, hrest]; rfl, by show s.lim + d.length < s.top; omega, ?_⟩
    show w = ((buf.set (s.lim + d.length) LF).drop s.tok).take (s.lim + d.length - s.tok + 1)
    have hset : (buf.set (s.lim + d.length) LF).take (s.lim + d.length + 1) = buf.take (s.lim + d.length) ++ [LF] := by
      rw [List.take_succ_eq_append_getElem (by rw [List.length_set]; omega), List.getElem_set_self,
        List.take_set_of_le (Nat.le_refl _)]
    rw [hw, hdata, htok, List.drop_zero, Nat.sub_zero, List.drop_zero, Nat.sub_zero, hset, htake, List.append_assoc]

/-! ## `fill` -/

/-- The first two parts together. -/
theorem room_spec {w l : List UInt8} {s : Scanner} (h : Holds w l s) (heof : s.eof = none) (P : Platform) :
    ∃ s', (if s.tok = 0 then some s else shift s.tok s).bind
        (fun s => if s.top - s.lim < BSIZE then grow P s else some s) = some s' ∧
      Holds w l s' ∧ Moved s s' ∧ s'.lim + BSIZE ≤ s'.top := by
  obtain ⟨s₁, hs₁, hholds₁, hmoved₁⟩ := shift_spec h heof
  obtain ⟨s₂, hs₂, hholds₂, hmoved₂, hroom⟩ := grow_spec hholds₁ (hmoved₁.eof.trans heof) hmoved₁.tok P
  refine ⟨s₂, by rw [hs₁, Option.bind_some, hs₂], hholds₂, ?_, hroom⟩
  have hself := hmoved₁.tok
  exact ⟨hmoved₂.fd.trans hmoved₁.fd, hmoved₂.tok, by rw [hmoved₂.ptr, hmoved₁.ptr, hself]; simp,
    hmoved₂.cur.trans hmoved₁.cur, by rw [hmoved₂.lim, hmoved₁.lim, hself]; rfl, hmoved₂.eof.trans hmoved₁.eof,
    hmoved₂.line.trans hmoved₁.line⟩

theorem fill_eq {P : Platform} {s : Scanner} (heof : s.eof = none) (hconv : P.conv s.tok = some s.tok) (cursor : Nat) :
    fill P s cursor = ((if s.tok = 0 then some s else shift s.tok s).bind
      (fun s => if s.top - s.lim < BSIZE then grow P s else some s)).bind
        (fun s' => (fetch s').map (fun s' => (s', cursor - s.tok))) := by
  rw [fill, heof, if_neg (by decide), hconv, Option.bind_some, Option.bind_assoc]

theorem fill_of_eof {P : Platform} {s : Scanner} (h : s.eof ≠ none) (cursor : Nat) : fill P s cursor = some (s, cursor) := by
  obtain ⟨e, he⟩ := Option.ne_none_iff_exists'.mp h
  rw [fill, he]
  rfl

/-- A call in front of a full block. -/
theorem fill_full {P : Platform} {w l : List UInt8} {s : Scanner} (h : Holds w l s) (heof : s.eof = none)
    (hconv : P.conv s.tok = some s.tok) (cursor : Nat) {d : List UInt8} {ds : List (List UInt8)}
    (hd : s.fd.blocks = d :: ds) (hfull : d.length = BSIZE) :
    ∃ s', fill P s cursor = some (s', cursor - s.tok) ∧ Holds w l s' ∧ s'.tok = 0 ∧ s'.ptr = s.ptr - s.tok ∧
      s'.eof = none ∧ s'.lim = s.lim - s.tok + BSIZE ∧ s'.fd.blocks = ds := by
  obtain ⟨s₁, hs₁, hholds, hmoved, hroom⟩ := room_spec h heof P
  obtain ⟨buf, hfetch, hholds'⟩ := fetch_full hholds (hmoved.eof.trans heof) hmoved.tok hroom (hmoved.fd ▸ hd) hfull
  refine ⟨_, ?_, hholds', hmoved.tok, hmoved.ptr, hmoved.eof.trans heof, congrArg (· + BSIZE) hmoved.lim, rfl⟩
  rw [fill_eq heof hconv, hs₁, Option.bind_some, hfetch]
  rfl

/-- A call at the end of what is taken. -/
theorem fill_short {P : Platform} {w l : List UInt8} {s : Scanner} (h : Holds w l s) (heof : s.eof = none)
    (hconv : P.conv s.tok = some s.tok) (cursor : Nat) (hshort : ∀ d ∈ s.fd.blocks.head?, d.length ≠ BSIZE) :
    ∃ s', fill P s cursor = some (s', cursor - s.tok) ∧ Holds w l s' ∧ s'.tok = 0 ∧ s'.ptr = s.ptr - s.tok ∧
      s'.eof ≠ none := by
  obtain ⟨s₁, hs₁, hholds, hmoved, hroom⟩ := room_spec h heof P
  obtain ⟨s₂, hfetch, hholds₂, heof₂, htok₂, hptr₂⟩ :=
    fetch_short hholds (hmoved.eof.trans heof) hmoved.tok hroom (hmoved.fd ▸ hshort)
  refine ⟨s₂, ?_, hholds₂, htok₂, hptr₂.trans hmoved.ptr, heof₂⟩
  rw [fill_eq heof hconv, hs₁, Option.bind_some, hfetch]
  rfl

/-! ## Where nothing is known of what comes -/

theorem fetch_moves {s s' : Scanner} (h : fetch s = some s') :
    s'.tok = s.tok ∧ s'.ptr = s.ptr ∧
      (s'.eof = none → s'.lim = s.lim + BSIZE ∧ ∃ d ds, s.fd.blocks = d :: ds ∧ d.length = BSIZE) := by
  cases hb : s.fd.blocks with
  | nil =>
      rw [fetch_eq (Fd.read_nil hb)] at h
      obtain ⟨buf, -, h⟩ := Option.bind_eq_some_iff.mp h
      have hne : (if s.fd.fails then minusOne else 0) ≠ BSIZE := by
        cases s.fd.fails <;> decide
      rw [if_pos hne] at h
      obtain ⟨buf', -, rfl⟩ := Option.map_eq_some_iff.mp h
      exact ⟨rfl, rfl, nofun⟩
  | cons d ds =>
      rw [fetch_eq (Fd.read_cons hb)] at h
      obtain ⟨buf, -, h⟩ := Option.bind_eq_some_iff.mp h
      by_cases hd : d.length = BSIZE
      · rw [if_neg (not_not_intro hd)] at h
        obtain rfl := Option.some.inj h
        exact ⟨rfl, rfl, fun _ => ⟨congrArg (s.lim + ·) hd, d, ds, rfl, hd⟩⟩
      · rw [if_pos hd] at h
        obtain ⟨buf', -, rfl⟩ := Option.map_eq_some_iff.mp h
        exact ⟨rfl, rfl, nofun⟩

/-- **What a call of `fill` moves**: the pointers by the distance that is left of the one to the token. -/
theorem fill_moves {P : Platform} {s : Scanner} {cursor : Nat} {y : Scanner × Nat} (heof : s.eof = none)
    (h : fill P s cursor = some y) :
    ∃ cnt, P.conv s.tok = some cnt ∧ y.2 = cursor - cnt ∧ y.1.ptr = s.ptr - cnt ∧
      (y.1.eof = none → y.1.lim = s.lim - cnt + BSIZE ∧ (y.1.tok = 0 ∨ cnt = 0 ∧ y.1.tok = s.tok) ∧
        ∃ d ds, s.fd.blocks = d :: ds ∧ d.length = BSIZE) := by
  rw [fill, heof, if_neg (by decide)] at h
  obtain ⟨cnt, hcnt, h⟩ := Option.bind_eq_some_iff.mp h
  obtain ⟨s₁, h₁, h⟩ := Option.bind_eq_some_iff.mp h
  obtain ⟨s₂, h₂, h⟩ := Option.bind_eq_some_iff.mp h
  obtain ⟨s₃, h₃, rfl⟩ := Option.map_eq_some_iff.mp h
  obtain ⟨htok₃, hptr₃, hlast⟩ := fetch_moves h₃
  have hshift : s₁.fd = s.fd ∧ s₁.ptr = s.ptr - cnt ∧ s₁.lim = s.lim - cnt ∧
      (s₁.tok = 0 ∨ cnt = 0 ∧ s₁.tok = s.tok) := by
    by_cases hzero : cnt = 0
    · rw [if_pos hzero] at h₁
      obtain rfl := Option.some.inj h₁
      exact ⟨rfl, by rw [hzero]; simp, by rw [hzero, Nat.sub_zero], .inr ⟨hzero, rfl⟩⟩
    · rw [if_neg hzero] at h₁
      obtain ⟨buf, -, rfl⟩ := Option.map_eq_some_iff.mp h₁
      exact ⟨rfl, rfl, rfl, .inl rfl⟩
  have hgrow : s₂.fd = s₁.fd ∧ s₂.ptr = s₁.ptr ∧ s₂.lim = s₁.lim ∧ (s₂.tok = 0 ∨ s₂.tok = s₁.tok) := by
    split at h₂
    · obtain ⟨-, h₂⟩ := Option.ite_none_right_eq_some.mp h₂
      obtain ⟨buf, -, rfl⟩ := Option.map_eq_some_iff.mp h₂
      exact ⟨rfl, rfl, rfl, .inl rfl⟩
    · obtain rfl := Option.some.inj h₂
      exact ⟨rfl, rfl, rfl, .inr rfl⟩
  obtain ⟨hfd₁, hptr₁, hlim₁, htok₁⟩ := hshift
  obtain ⟨hfd₂, hptr₂, hlim₂, htok₂⟩ := hgrow
  refine ⟨cnt, hcnt, rfl, by rw [hptr₃, hptr₂, hptr₁], ?_⟩
  intro hnone
  obtain ⟨hlim₃, d, ds, hd, hfull⟩ := hlast hnone
  refine ⟨by rw [hlim₃, hlim₂, hlim₁], ?_, d, ds, by rw [← hfd₁, ← hfd₂]; exact hd, hfull⟩
  show s₃.tok = 0 ∨ cnt = 0 ∧ s₃.tok = s.tok
  rw [htok₃]
  rcases htok₂ with htok₂ | htok₂
  · exact .inl htok₂
  · rw [htok₂]
    exact htok₁

/-- The first two parts of `fill`. -/
def makeRoom (P : Platform) (s : Scanner) : Option Scanner :=
  (if s.tok = 0 then some s else shift s.tok s).bind (fun s => if s.top - s.lim < BSIZE then grow P s else some s)

/-- They do not look at what comes. -/
theorem makeRoom_fd (P : Platform) (s : Scanner) (f : Fd) :
    makeRoom P { s with fd := f } = (makeRoom P s).map (fun s' => { s' with fd := f }) := by
  have hgrow : ∀ s' : Scanner,
      (if s'.top - s'.lim < BSIZE then grow P { s' with fd := f } else some { s' with fd := f }) =
      (if s'.top - s'.lim < BSIZE then grow P s' else some s').map (fun s' => { s' with fd := f }) := by
    intro s'
    split
    · unfold grow
      split
      · cases blit ((List.range (s'.lim + BSIZE)).map P.junk) 0 ((s'.buf.drop s'.tok).take (s'.lim - s'.tok)) <;> rfl
      · rfl
    · rfl
  unfold makeRoom
  by_cases htok : s.tok = 0
  · rw [if_pos htok, if_pos htok]
    exact hgrow s
  · rw [if_neg htok, if_neg htok, shift, shift]
    cases memmove s.buf 0 s.tok (s.lim - s.tok) with
    | none => rfl
    | some buf =>
        exact hgrow { s with buf := buf, tok := 0, ptr := s.ptr - s.tok, pos := s.pos - s.tok, lim := s.lim - s.tok }

theorem makeRoom_spec {w l : List UInt8} {s : Scanner} (h : Holds w l s) (heof : s.eof = none) (P : Platform) :
    ∃ s', makeRoom P s = some s' ∧ Holds w l s' ∧ Moved s s' ∧ s'.lim + BSIZE ≤ s'.top :=
  room_spec h heof P

/-- **A call of `fill` in front of a full block**, whatever comes behind it. -/
theorem fill_block {P : Platform} {s : Scanner} (heof : s.eof = none) (hconv : P.conv s.tok = some s.tok)
    (htok : s.tok ≤ s.lim) (hlim : s.lim ≤ s.top) (hsize : s.buf.length = s.top) (cursor : Nat) {d : List UInt8}
    {ds : List (List UInt8)} (hd : s.fd.blocks = d :: ds) (hfull : d.length = BSIZE) :
    ∃ s', fill P s cursor = some (s', cursor - s.tok) ∧ s'.tok = 0 ∧ s'.lim = s.lim - s.tok + BSIZE ∧ s'.eof = none ∧
      s'.fd.blocks = ds ∧ s'.buf.length = s'.top ∧ s'.lim ≤ s'.top ∧
      s'.buf.take s'.lim = (s.buf.drop s.tok).take (s.lim - s.tok) ++ d := by
  -- the room is made as if nothing came
  have hholds : Holds ((s.buf.drop s.tok).take (s.lim - s.tok) ++ [LF]) [] { s with fd := ⟨[], false⟩ } :=
    ⟨htok, hlim, hsize, fun _ => ⟨⟨nofun, nofun⟩, rfl, rfl⟩, fun e he => absurd (heof.symm.trans he) nofun⟩
  obtain ⟨s₀, hroom₀, hholds₀, hmoved, hspace⟩ := makeRoom_spec hholds heof P
  rw [makeRoom_fd] at hroom₀
  obtain ⟨s₁, hroom₁, rfl⟩ := Option.map_eq_some_iff.mp hroom₀
  have hfd : s₁.fd = s.fd := by
    have hsame := makeRoom_fd P s s.fd
    rw [show ({ s with fd := s.fd } : Scanner) = s from rfl, hroom₁] at hsame
    have heq : s₁ = { s₁ with fd := s.fd } := Option.some.inj hsame
    rw [heq]
  have hsize₁ : s₁.buf.length = s₁.top := hholds₀.size
  have heof₁ : s₁.eof = none := hmoved.eof.trans heof
  have htok₁ : s₁.tok = 0 := hmoved.tok
  have hlim₁ : s₁.lim = s.lim - s.tok := hmoved.lim
  have hspace₁ : s₁.lim + BSIZE ≤ s₁.top := hspace
  have hbytes : s₁.buf.take s₁.lim = (s.buf.drop s.tok).take (s.lim - s.tok) := by
    have hw : (s.buf.drop s.tok).take (s.lim - s.tok) ++ [LF] = (s₁.buf.drop s₁.tok).take (s₁.lim - s₁.tok) ++ [LF] :=
      (hholds₀.going heof₁).2.2
    rw [htok₁, List.drop_zero, Nat.sub_zero] at hw
    exact (List.append_cancel_right hw).symm
  obtain ⟨buf, hblit, hlen, htake⟩ := @blit_take s₁.buf s₁.lim d (by omega)
  have hfetch : fetch s₁ = some { s₁ with fd := ⟨ds, s₁.fd.fails⟩, buf := buf, lim := s₁.lim + d.length } := by
    rw [fetch_eq (Fd.read_cons (hfd ▸ hd)), hblit, Option.bind_some, if_neg (not_not_intro hfull)]
  refine ⟨{ s₁ with fd := ⟨ds, s₁.fd.fails⟩, buf := buf, lim := s₁.lim + d.length }, ?_, htok₁, ?_, heof₁, rfl, ?_, ?_,
    ?_⟩
  · rw [fill_eq heof hconv]
    show (makeRoom P s).bind _ = _
    rw [hroom₁, Option.bind_some, hfetch]
    rfl
  · show s₁.lim + d.length = _
    rw [hlim₁, hfull]
  · show buf.length = s₁.top
    rw [hlen, hsize₁]
  · show s₁.lim + d.length ≤ s₁.top
    rw [hfull]
    exact hspace₁
  · show buf.take (s₁.lim + d.length) = _
    rw [htake, hbytes]

end Calc
end CSamples
