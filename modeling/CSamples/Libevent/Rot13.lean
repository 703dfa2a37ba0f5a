import CSamples.C.Memory
import CSamples.Machine.Runs

/-!
# `Libevent.Rot13` — one connection of the rot13 server of `libevent/rot13`

`do_read` appends what it receives, rotated, to the buffer of the connection and marks what ends in a newline to be
written; `do_write` sends what is marked and starts anew when nothing is left. Both are called by the event loop
in any order.

## Contents
- **Model.** `doRead` and `doWrite` with their loops, every access to the array checked; `step` is a callback, with
  what `recv` and `send` return in it.
- **Callbacks.** `readBytes_spec`: what is received is added to what waits to be sent, as far as there is room;
  `writeLoop_spec`: what is sent is taken from its front.
- **Whole runs.** `rot13_kept_iff`: nothing is lost on the way exactly as long as every byte finds room.
-/

namespace CSamples
namespace Libevent
namespace Rot13

open C

/-- `#define MAX_LINE 16384` -/
def MAX_LINE : Nat := 16384

theorem one_le_maxLine : 1 ≤ MAX_LINE := by decide

/-- `sizeof(buf)` in `do_read` -/
def sizeofBuf : Nat := 1024

/-- `'\n'` -/
def lf : UInt8 := 0x0A

/-! ## The model -/

/-- `rot13_char`; a byte from `0x80` on is negative as a `char` and in none of the ranges. -/
def rot13Char (c : UInt8) : UInt8 :=
  if (ch 'a' ≤ c ∧ c ≤ ch 'm') ∨ (ch 'A' ≤ c ∧ c ≤ ch 'M') then c + 13
  else if (ch 'n' ≤ c ∧ c ≤ ch 'z') ∨ (ch 'N' ≤ c ∧ c ≤ ch 'Z') then c - 13
  else c

/-- `struct fd_state`, but for its events. -/
structure FdState where
  buffer     : Mem
  bufferUsed : Nat
  nWritten   : Nat
  writeUpto  : Nat

/-- What one successful `recv` returns: at least one byte, and no more than it has room for. -/
structure Chunk where
  bytes : List UInt8
  pos   : bytes ≠ []
  fits  : bytes.length ≤ sizeofBuf

/-- What ends the loop of `do_read`: the end of the stream, `EAGAIN` or another error. -/
inductive RecvEnd where
  | eof
  | again
  | error
  deriving DecidableEq

/-- What ends the loop of `do_write` early: `EAGAIN` or another error. -/
inductive SendEnd where
  | again
  | error
  deriving DecidableEq

/-- The body of `for (i=0; i < result; ++i)`. -/
def readByte (s : FdState) (b : UInt8) : Option FdState := do
  let s ←
    if s.bufferUsed < MAX_LINE then do
      let buffer ← store s.buffer s.bufferUsed (rot13Char b)
      some { s with buffer := buffer, bufferUsed := s.bufferUsed + 1 }
    else some s
  some (if b = lf then { s with writeUpto := s.bufferUsed } else s)

/-- The bytes of one `recv`, or of several. -/
def readBytes : List UInt8 → FdState → Option FdState
  | [], s     => some s
  | b :: w, s => do
      let s ← readByte s b
      readBytes w s

/-- The loop of `do_read` up to the `recv` that ends it. -/
def doRead : List Chunk → FdState → Option FdState
  | [], s      => some s
  | d :: ds, s => do
      let s ← readBytes d.bytes s
      doRead ds s

/-- `send(fd, buffer + n_written, n, 0)` when it accepts all of these bytes. -/
def slice (m : Mem) (i n : Nat) : Option (List UInt8) :=
  if i + n ≤ m.length then some ((m.drop i).take n) else none

/-- The loop of `do_write`: `k` tells that a `send` accepts `k + 1` bytes or all there are (it never accepts none,
    which is asserted). What is left, the bytes sent, and whether the loop came to its end. -/
def writeLoop : List Nat → FdState → Option (FdState × List UInt8 × Bool)
  | [], s      => some (s, [], s.writeUpto ≤ s.nWritten)
  | k :: ks, s =>
      if s.nWritten < s.writeUpto then do
        let result := min (k + 1) (s.writeUpto - s.nWritten)
        let sent ← slice s.buffer s.nWritten result
        let (s, more, done) ← writeLoop ks { s with nWritten := s.nWritten + result }
        some (s, sent ++ more, done)
      else some (s, [], true)

/-- `do_write`: what is left, and the bytes sent. -/
def doWrite (ks : List Nat) (s : FdState) : Option (FdState × List UInt8 × Bool) := do
  let (s, sent, done) ← writeLoop ks s
  if done then
    if s.nWritten = s.bufferUsed then
      some ({ s with nWritten := 1, writeUpto := 1, bufferUsed := 1 }, sent, true)
    else some (s, sent, true)
  else some (s, sent, false)

/-- What the event loop calls, and what the calls of the system return in it. -/
inductive Callback where
  | doRead (chunks : List Chunk) (stop : RecvEnd)
  | doWrite (accepts : List Nat) (stop : SendEnd)

/-- A connection, with all it received and sent. `live` until `free_fd_state`. -/
structure Conn where
  state    : FdState
  live     : Bool
  received : List UInt8
  sent     : List UInt8

/-- The bytes a call of `do_read` receives. -/
def bytesOf (ds : List Chunk) : List UInt8 := ds.flatMap Chunk.bytes

/-- One callback; none comes to a connection that was freed. -/
def step (c : Conn) : Callback → Option Conn
  | .doRead ds stop =>
      if c.live then do
        let s ← doRead ds c.state
        some ⟨s, stop = .again, c.received ++ bytesOf ds, c.sent⟩
      else some c
  | .doWrite ks stop =>
      if c.live then do
        let (s, sent, done) ← doWrite ks c.state
        some ⟨s, done || stop = .again, c.received, c.sent ++ sent⟩
      else some c

/-- A new connection: the array holds whatever `malloc` returned. -/
def start (buffer : Mem) : Conn := ⟨⟨buffer, 0, 0, 0⟩, true, [], []⟩

/-! ## The state of a connection -/

/-- The array and the indices into it. -/
structure FdState.Valid (s : FdState) : Prop where
  size    : s.buffer.length = MAX_LINE
  written : s.nWritten ≤ s.writeUpto
  upto    : s.writeUpto ≤ s.bufferUsed
  used    : s.bufferUsed ≤ MAX_LINE

/-- The bytes that wait to be sent. -/
def FdState.pending (s : FdState) : List UInt8 := (s.buffer.take s.bufferUsed).drop s.nWritten

/-- **Nothing was lost on the way**: what was received, rotated, is what was sent and what waits to be, and the
    indices are in order. -/
structure Intact (c : Conn) : Prop where
  stream : c.received.map rot13Char = c.sent ++ c.state.pending
  valid  : c.state.Valid

theorem Intact.sent_prefix {c : Conn} (h : Intact c) : c.sent <+: c.received.map rot13Char :=
  ⟨c.state.pending, h.stream.symm⟩

theorem intact_start {buffer : Mem} (h : buffer.length = MAX_LINE) : Intact (start buffer) :=
  ⟨rfl, h, Nat.le_refl _, Nat.le_refl _, Nat.zero_le _⟩

/-! ## Callbacks -/

/-- One byte: it is stored if there is room, and dropped if not. -/
theorem readByte_spec {s : FdState} (hs : s.Valid) (b : UInt8) :
    ∃ s', readByte s b = some s' ∧ s'.Valid ∧ s'.bufferUsed = min (s.bufferUsed + 1) MAX_LINE ∧
      s'.pending = s.pending ++ ([b].map rot13Char).take (MAX_LINE - s.bufferUsed) := by
  obtain ⟨hsize, hw, hu, hm⟩ := hs
  by_cases hroom : s.bufferUsed < MAX_LINE
  · have hstore := store_eq_some (m := s.buffer) (i := s.bufferUsed) (by omega) (rot13Char b)
    have hpend : ((s.buffer.set s.bufferUsed (rot13Char b)).take (s.bufferUsed + 1)).drop s.nWritten =
        s.pending ++ [rot13Char b] := by
      have hlast : (s.buffer.set s.bufferUsed (rot13Char b))[s.bufferUsed]? = some (rot13Char b) :=
        List.getElem?_set_self (by omega)
      rw [List.take_add_one, List.take_set_of_le (Nat.le_refl _), hlast, List.drop_append_of_le_length]
      · rfl
      · rw [List.length_take]
        omega
    have htake : ([b].map rot13Char).take (MAX_LINE - s.bufferUsed) = [rot13Char b] :=
      List.take_of_length_le (by simp; omega)
    rw [readByte, if_pos hroom, hstore]
    simp only [Option.bind_eq_bind, Option.bind_some]
    refine ⟨_, rfl, ?_, ?_, ?_⟩
    · split
      · exact ⟨by simpa using hsize, by simp; omega, Nat.le_refl _, hroom⟩
      · exact ⟨by simpa using hsize, hw, by simp; omega, hroom⟩
    · rw [Nat.min_eq_left hroom]
      split <;> rfl
    · rw [htake, ← hpend]
      split <;> rfl
  · have hfull : s.bufferUsed = MAX_LINE := by omega
    rw [readByte, if_neg hroom]
    simp only [Option.bind_eq_bind, Option.bind_some]
    refine ⟨_, rfl, ?_, ?_, ?_⟩
    · split
      · exact ⟨hsize, by simp; omega, Nat.le_refl _, hm⟩
      · exact ⟨hsize, hw, hu, hm⟩
    · split
      · simp [hfull]
      · simp [hfull]
    · rw [hfull, Nat.sub_self, List.take_zero, List.append_nil, FdState.pending, FdState.pending, hfull]
      split <;> simp [hfull]

/-- **The bytes of a read** follow what waits, as far as there is room for them. -/
theorem readBytes_spec (w : List UInt8) {s : FdState} (hs : s.Valid) :
    ∃ s', readBytes w s = some s' ∧ s'.Valid ∧ s'.bufferUsed = min (s.bufferUsed + w.length) MAX_LINE ∧
      s'.pending = s.pending ++ (w.map rot13Char).take (MAX_LINE - s.bufferUsed) := by
  induction w generalizing s with
  | nil =>
      refine ⟨s, rfl, hs, ?_, by simp⟩
      have := hs.used
      simp [this]
  | cons b w ih =>
      obtain ⟨s₁, h₁, hv₁, hu₁, hp₁⟩ := readByte_spec hs b
      obtain ⟨s₂, h₂, hv₂, hu₂, hp₂⟩ := ih hv₁
      refine ⟨s₂, ?_, hv₂, ?_, ?_⟩
      · rw [readBytes, h₁]
        exact h₂
      · rw [hu₂, hu₁, List.length_cons]
        omega
      · rw [hp₂, hp₁, hu₁, List.append_assoc]
        congr 1
        by_cases hroom : s.bufferUsed < MAX_LINE
        · rw [Nat.min_eq_left hroom, show MAX_LINE - s.bufferUsed = MAX_LINE - (s.bufferUsed + 1) + 1 by omega]
          simp
        · have hfull := hs.used
          rw [Nat.min_eq_right (by omega), show MAX_LINE - s.bufferUsed = 0 by omega, Nat.sub_self]
          rfl

theorem readBytes_append (u w : List UInt8) (s : FdState) :
    readBytes (u ++ w) s = (readBytes u s).bind (readBytes w) := by
  induction u generalizing s with
  | nil => rfl
  | cons b u ih =>
      simp only [List.cons_append, readBytes, Option.bind_eq_bind, Option.bind_assoc]
      exact Option.bind_congr fun s' _ => ih s'

/-- How the bytes are cut into chunks does not matter. -/
theorem doRead_eq (ds : List Chunk) (s : FdState) : doRead ds s = readBytes (bytesOf ds) s := by
  induction ds generalizing s with
  | nil => rfl
  | cons d ds ih =>
      rw [doRead, bytesOf, List.flatMap_cons, readBytes_append, Option.bind_eq_bind]
      exact Option.bind_congr fun s' _ => ih s'

/-- **The loop of `do_write`** sends from the front of what waits. -/
theorem writeLoop_spec (ks : List Nat) {s : FdState} (hs : s.Valid) :
    ∃ s' sent done, writeLoop ks s = some (s', sent, done) ∧ s'.Valid ∧ s.pending = sent ++ s'.pending := by
  induction ks generalizing s with
  | nil => exact ⟨s, [], _, rfl, hs, rfl⟩
  | cons k ks ih =>
      obtain ⟨hsize, hw, hu, hm⟩ := hs
      by_cases hlt : s.nWritten < s.writeUpto
      · set n := min (k + 1) (s.writeUpto - s.nWritten) with hn
        have hle : s.nWritten + n ≤ s.writeUpto := by omega
        have hslice : slice s.buffer s.nWritten n = some ((s.buffer.drop s.nWritten).take n) := by
          rw [slice, if_pos (by omega)]
        obtain ⟨s', more, done, h', hv', hp'⟩ :=
          ih (s := { s with nWritten := s.nWritten + n }) ⟨hsize, hle, hu, hm⟩
        refine ⟨s', (s.buffer.drop s.nWritten).take n ++ more, done, ?_, hv', ?_⟩
        · rw [writeLoop, if_pos hlt]
          simp only [← hn, hslice, Option.bind_eq_bind, Option.bind_some, h']
        · have hfront : (s.buffer.drop s.nWritten).take n = s.pending.take n := by
            rw [FdState.pending, List.drop_take, List.take_take, Nat.min_eq_left (by omega)]
          have hrest : FdState.pending { s with nWritten := s.nWritten + n } = s.pending.drop n := by
            rw [FdState.pending, FdState.pending, List.drop_drop]
          rw [List.append_assoc, ← hp', hfront, hrest, List.take_append_drop]
      · refine ⟨s, [], true, ?_, ⟨hsize, hw, hu, hm⟩, rfl⟩
        rw [writeLoop, if_neg hlt]

/-- `do_write` as a whole: the indices start anew only when nothing waits. -/
theorem doWrite_spec (ks : List Nat) {s : FdState} (hs : s.Valid) :
    ∃ s' sent done, doWrite ks s = some (s', sent, done) ∧ s'.Valid ∧ s.pending = sent ++ s'.pending := by
  obtain ⟨s', sent, done, h, hv, hp⟩ := writeLoop_spec ks hs
  rw [doWrite, h]
  simp only [Option.bind_eq_bind, Option.bind_some]
  cases done with
  | false => exact ⟨s', sent, false, rfl, hv, hp⟩
  | true =>
      rw [if_pos rfl]
      by_cases hall : s'.nWritten = s'.bufferUsed
      · rw [if_pos hall]
        refine ⟨_, sent, true, rfl, ⟨hv.size, Nat.le_refl _, Nat.le_refl _, one_le_maxLine⟩, ?_⟩
        rw [hp, FdState.pending, FdState.pending, hall]
        simp
      · rw [if_neg hall]
        exact ⟨s', sent, true, rfl, hv, hp⟩

/-! ## Whole runs -/

/-- Every byte that is read in a callback finds room in the buffer. -/
def Room (c : Conn) : Callback → Prop
  | .doRead ds _  => c.live → c.state.bufferUsed + (bytesOf ds).length ≤ MAX_LINE
  | .doWrite _ _  => True

/-- **One callback**: the indices stay in order, and nothing is lost in it exactly if there is room for what it
    reads. -/
theorem step_intact_iff {c : Conn} (hc : Intact c) (cb : Callback) :
    ∃ c', step c cb = some c' ∧ c'.state.Valid ∧ (Intact c' ↔ Room c cb) := by
  by_cases hlive : c.live
  · cases cb with
    | doRead ds stop =>
        obtain ⟨s, h, hv, hu, hp⟩ := readBytes_spec (bytesOf ds) hc.valid
        refine ⟨⟨s, stop = .again, c.received ++ bytesOf ds, c.sent⟩, ?_, hv, ?_⟩
        · rw [step, if_pos hlive, doRead_eq, h]
          rfl
        have hused := hc.valid.used
        constructor
        · intro hi _
          -- the bytes are counted
          have hcount := congrArg List.length hi.stream
          have hbefore := congrArg List.length hc.stream
          simp only [List.length_map, List.length_append, hp, List.length_take] at hcount hbefore
          omega
        · intro hroom
          have hroom := hroom hlive
          have htake : ((bytesOf ds).map rot13Char).take (MAX_LINE - c.state.bufferUsed) = (bytesOf ds).map rot13Char :=
            List.take_of_length_le (by rw [List.length_map]; omega)
          refine ⟨?_, hv⟩
          dsimp only
          rw [List.map_append, hc.stream, hp, htake, List.append_assoc]
    | doWrite ks stop =>
        obtain ⟨s, sent, done, h, hv, hp⟩ := doWrite_spec ks hc.valid
        refine ⟨⟨s, done || stop = .again, c.received, c.sent ++ sent⟩, ?_, hv, ?_⟩
        · rw [step, if_pos hlive, h]
          rfl
        · refine ⟨fun _ => trivial, fun _ => ⟨?_, hv⟩⟩
          dsimp only
          rw [hc.stream, hp, List.append_assoc]
  · refine ⟨c, ?_, hc.valid, ?_⟩
    · cases cb <;> rw [step, if_neg hlive]
    · refine ⟨fun _ => ?_, fun _ => hc⟩
      cases cb with
      | doRead ds stop => exact fun h => absurd h hlive
      | doWrite ks stop => trivial

/-- What is asked of a connection after each callback: the bytes sent are the front of the rotated bytes received,
    those that wait in the buffer are the others, and the indices are in order. -/
def Kept (c : Conn) : Prop :=
  c.sent <+: c.received.map rot13Char ∧ c.received.map rot13Char = c.sent ++ c.state.pending ∧
    c.state.nWritten ≤ c.state.writeUpto ∧ c.state.writeUpto ≤ c.state.bufferUsed ∧
    c.state.bufferUsed ≤ MAX_LINE ∧ c.state.buffer.length = MAX_LINE

theorem kept_iff (c : Conn) : Kept c ↔ Intact c := by
  constructor
  · rintro ⟨-, hstream, hw, hu, hm, hlen⟩
    exact ⟨hstream, hlen, hw, hu, hm⟩
  · intro h
    exact ⟨h.sent_prefix, h.stream, h.valid.written, h.valid.upto, h.valid.used, h.valid.size⟩

/-- One callback decides. -/
theorem step_kept_iff (c : Conn) (cb : Callback) (hc : Kept c) :
    (∃ c', step c cb = some c' ∧ Kept c') ↔ Room c cb := by
  obtain ⟨c', h, -, hiff⟩ := step_intact_iff ((kept_iff c).mp hc) cb
  rw [← hiff]
  constructor
  · rintro ⟨c'', h', hk⟩
    obtain rfl := Option.some.inj (h.symm.trans h')
    exact (kept_iff c').mp hk
  · intro hi
    exact ⟨c', h, (kept_iff c').mpr hi⟩

/-- **A connection loses nothing**, in any interleaving of its callbacks and with any chunks and partial sends,
    exactly as long as every byte read finds room. -/
theorem rot13_kept_iff (buffer : Mem) (hsize : buffer.length = MAX_LINE) (cbs : List Callback) :
    Machine.Throughout step Kept cbs (start buffer) ↔ Machine.Along step Room (start buffer) cbs :=
  Machine.throughout_iff step_kept_iff cbs ((kept_iff _).mpr (intact_start hsize))

/-- `a LF` is received, and its answer sent in two pieces. -/
def shortLine : List Callback :=
  [.doRead [⟨[ch 'a', lf], by decide, by decide⟩] .again, .doWrite [0, 7] .again]

theorem rot13_kept_shortLine : Machine.Throughout step Kept shortLine (start (List.replicate MAX_LINE 0)) :=
  (rot13_kept_iff (List.replicate MAX_LINE 0) List.length_replicate shortLine).mpr
    ⟨fun _ => by decide, fun _ _ => ⟨trivial, fun _ _ => trivial⟩⟩

/-- A full `recv`. -/
def fullChunk : Chunk :=
  ⟨List.replicate 1024 (ch 'a'), by decide +kernel, by decide +kernel⟩

/-- A line of `MAX_LINE` bytes, and its newline. -/
def longLine : List Chunk := List.replicate 16 fullChunk ++ [⟨[lf], by decide, by decide⟩]

/-- **The newline of a line of `MAX_LINE` bytes** is neither sent nor waits to be. -/
theorem rot13_longLine :
    ∃ c, step (start (List.replicate MAX_LINE 0)) (.doRead longLine .again) = some c ∧
      c.received.map rot13Char ≠ c.sent ++ c.state.pending := by
  have hstart : Intact (start (List.replicate MAX_LINE 0)) := intact_start List.length_replicate
  obtain ⟨c, hc, hvalid, hiff⟩ := step_intact_iff hstart (.doRead longLine .again)
  have hbytes : (bytesOf longLine).length = MAX_LINE + 1 := by decide +kernel
  refine ⟨c, hc, fun hstream => ?_⟩
  have hroom := hiff.mp ⟨hstream, hvalid⟩ rfl
  rw [hbytes] at hroom
  exact absurd hroom (by simp [start])

end Rot13
end Libevent
end CSamples
