import CSamples.C.Memory
import CSamples.Text.Lines

/-!
# `Line.Recvline` — the receiver of the UDP line pair

`recv_handler` of `line/recvline/recvline.c`: a datagram is appended to the partial line kept in
`data->lines`, every LF is overwritten by a NUL and ends one processed line, and the unfinished tail is
moved to the front of the array.

## Contents
- **Model.** `recvHandler`, with its three loops (`copyLoop`, `splitLoop`) and every access to the
  1024-byte array checked; `run` is any number of calls.
- **One call.** `recvHandler_spec`: the lines processed are those of carry and datagram together, and what
  is carried over is what follows the last LF. The length recomputed through the old `pos` after the
  overlapping `memmove` is the right one (`strlen_after_memmove`).
- **Whole runs.** `recvline_lines`, over every sequence of datagrams.
-/

namespace CSamples
namespace Line

open C Text

/-- LF, `0x0A` -/
def lf : UInt8 := 0x0A

/-- The bytes of a string literal. -/
def chars (s : List Char) : List UInt8 := s.map (fun c => UInt8.ofNat c.toNat)

namespace Recvline

/-- `STATE_DEFAULT` -/
def stateDefault : Int := 0
/-- `STATE_WAITRES` -/
def stateWaitres : Int := 2

/-- `struct userdata`: `info` holds the first `info_len` bytes of the peer's address. -/
structure UserData where
  state : Int
  lines : Mem
  soc   : Int
  info  : List UInt8
  deriving DecidableEq

/-- `sizeof(data->lines)` -/
def sizeofLines : Nat := 1024
/-- `sizeof(buf)` in `recv_handler` -/
def sizeofBuf : Nat := 512

/-- What `recvfrom` does: it fails, or a datagram arrives (the call stores what fits its buffer). -/
inductive Recvfrom where
  | error
  | packet (info : List UInt8) (datagram : List UInt8)

/-- What a call does besides changing the user data. `lineFound` records the state and the string at `pos`
    when an LF is found; it is printed in `STATE_DEFAULT` and `STATE_WAITRES`. -/
inductive Event where
  | lineFound (state : Int) (pos : List UInt8)
  | eventDel
  | freeEv
  | close
  | loopexit
  deriving DecidableEq

/-! ## The model -/

/-- `for(i = 0; i < buf_len; i++) lines[lines_len + i] = buf[i];` from index `i`, `n` iterations left. -/
def copyLoop (linesLen : Nat) (buf : Mem) : Nat → Nat → Mem → Option Mem
  | 0, _, lines => some lines
  | n+1, i, lines => do
      let b ← load buf i
      let lines ← store lines (linesLen + i) b
      copyLoop linesLen buf n (i + 1) lines

/-- The variables of the splitting loop. -/
structure Split where
  state : Int
  lines : Mem
  pos   : Nat
  out   : List Event

/-- What a line does to `data->state`: `endcmd` ends a command's response. -/
def afterLine (state : Int) (line : List UInt8) : Int :=
  if state = stateDefault then state
  else if state = stateWaitres then
    if line = chars ['e', 'n', 'd', 'c', 'm', 'd'] then stateDefault else state
  else state

/-- `for(i = 0; i < lines_len; i++){ if(lines[i] == 0x0A){ ... pos = lines + i + 1; } }` -/
def splitLoop : Nat → Nat → Split → Option Split
  | 0, _, s => some s
  | n+1, i, s => do
      let b ← load s.lines i
      if b = lf then
        let lines ← store s.lines i 0
        let str ← strAt lines s.pos
        splitLoop n (i + 1)
          ⟨afterLine s.state str, lines, i + 1, s.out ++ [.lineFound s.state str]⟩
      else splitLoop n (i + 1) s

/-- `recv_handler`; `buf` is what the uninitialised stack buffer holds when the call is entered. -/
def recvHandler (soc : Int) (buf : Mem) (r : Recvfrom) (data : UserData) :
    Option (UserData × List Event) :=
  match r with
  | .error => some (data, [.eventDel, .freeEv, .close])
  | .packet info datagram =>
      let received := datagram.take sizeofBuf
      if received.length = 0 then some (data, [.eventDel, .close])
      else do
        let buf ← blit buf 0 received
        -- copy to line buffer
        let linesLen ← strlen data.lines 0
        let lines ← copyLoop linesLen buf received.length 0 data.lines
        let lines ← store lines (linesLen + received.length) 0
        let linesLen ← strlen lines 0
        let s ← splitLoop linesLen 0 ⟨data.state, lines, 0, []⟩
        -- the tail goes to the front; its length is read again through the old `pos`
        let n ← strlen s.lines s.pos
        let lines ← memmove s.lines 0 s.pos n
        let linesLen ← strlen lines s.pos
        let lines ← store lines linesLen 0
        let shutdown ← strEq buf (chars ['s', 'h', 'u', 't', 'd', 'o', 'w', 'n'])
        some (⟨s.state, lines, soc, info⟩,
          if shutdown then s.out ++ [.eventDel, .close, .loopexit] else s.out)

/-- One delivery: the stale content of the stack buffer, the sender and the datagram. -/
structure Call where
  buf      : Mem
  info     : List UInt8
  datagram : List UInt8
  size     : buf.length = sizeofBuf

/-- The bytes `recvfrom` hands over. -/
def Call.handed (c : Call) : List UInt8 := c.datagram.take sizeofBuf

/-- Any number of calls, in order. -/
def run (soc : Int) : List Call → UserData → Option (UserData × List Event)
  | [], data => some (data, [])
  | c :: cs, data => do
      let (data, out) ← recvHandler soc c.buf (.packet c.info c.datagram) data
      let (data, out') ← run soc cs data
      some (data, out ++ out')

/-- The user data `main` starts with: `memset` to zero, then the socket. -/
def init (soc : Int) : UserData := ⟨stateDefault, List.replicate sizeofLines 0, soc, []⟩

/-- The lines processed: the strings `pos` points at when an LF is found. -/
def processed : List Event → List (List UInt8)
  | []                   => []
  | .lineFound _ l :: es => l :: processed es
  | .eventDel :: es      => processed es
  | .freeEv :: es        => processed es
  | .close :: es         => processed es
  | .loopexit :: es      => processed es

theorem processed_append (es fs : List Event) : processed (es ++ fs) = processed es ++ processed fs := by
  induction es with
  | nil => rfl
  | cons e es ih => cases e <;> simp [processed, ih]

/-- The events of a sequence of lines met in state `state`. -/
def lineEvents : Int → List (List UInt8) → List Event
  | _, []          => []
  | state, l :: ls => .lineFound state l :: lineEvents (afterLine state l) ls

@[simp] theorem processed_lineEvents (state : Int) (ls : List (List UInt8)) :
    processed (lineEvents state ls) = ls := by
  induction ls generalizing state with
  | nil => rfl
  | cons l ls ih => simp [lineEvents, processed, ih]

/-! ## The loops -/

/-- The copying loop writes what is left of the datagram. -/
theorem copyLoop_eq_blit {linesLen : Nat} {buf : Mem} {n i : Nat} {lines : Mem}
    (hbuf : i + n ≤ buf.length) (hlines : linesLen + i + n ≤ lines.length) :
    copyLoop linesLen buf n i lines = blit lines (linesLen + i) ((buf.drop i).take n) := by
  induction n generalizing i lines with
  | zero =>
      rw [copyLoop, List.take_zero, blit_eq_some (by simpa using hlines)]
      simp
  | succ n ih =>
      have hi : i < buf.length := by omega
      have hcons : (buf.drop i).take (n + 1) = buf[i] :: (buf.drop (i + 1)).take n := by
        rw [List.drop_eq_getElem_cons hi, List.take_succ_cons]
      have hlen : ((buf.drop (i + 1)).take n).length = n := by
        rw [List.length_take, List.length_drop]
        omega
      have hfits : linesLen + i + (((buf.drop (i + 1)).take n).length + 1) ≤ lines.length := by
        rw [hlen]
        omega
      have hstore : linesLen + i < lines.length := by omega
      rw [hcons, ← blit_cons hfits]
      simp only [copyLoop, load, List.getElem?_eq_getElem hi, store_eq_some hstore, Option.bind_eq_bind,
        Option.bind_some]
      exact @ih (i + 1) (lines.set (linesLen + i) buf[i]) (by omega) (by rw [List.length_set]; omega)

/-- The splitting loop, from a state whose unfinished segment is `t` with `w` still to be scanned. -/
theorem splitLoop_spec (w : List UInt8) (t junk : List UInt8) (i : Nat) (s : Split)
    (hw : 0 ∉ w) (ht : 0 ∉ t) (htl : lf ∉ t)
    (hmem : s.lines.drop s.pos = t ++ w ++ 0 :: junk) (hi : i = s.pos + t.length) :
    ∃ s', splitLoop w.length i s = some s'
      ∧ s'.state = (lines lf (t ++ w)).foldl afterLine s.state
      ∧ s'.out = s.out ++ lineEvents s.state (lines lf (t ++ w))
      ∧ s'.lines.length = s.lines.length
      ∧ s'.lines.drop s'.pos = rest lf (t ++ w) ++ 0 :: junk := by
  induction w generalizing t i s with
  | nil =>
      refine ⟨s, rfl, ?_, ?_, rfl, ?_⟩ <;>
        simp [lines_eq_nil_iff.mpr htl, rest_of_not_mem htl, lineEvents, hmem]
  | cons b w ih =>
      have hb : b ≠ 0 := fun h => hw (by simp [h])
      have hw' : 0 ∉ w := fun h => hw (List.mem_cons_of_mem b h)
      -- the byte under the index is the head of what is left
      have hdrop : s.lines.drop i = b :: (w ++ 0 :: junk) := by
        rw [hi, ← List.drop_drop, hmem, List.append_assoc, List.drop_left]
        rfl
      have hlt : i < s.lines.length := by
        have hlen := congrArg List.length hdrop
        simp only [List.length_drop, List.length_cons] at hlen
        omega
      have hload : load s.lines i = some b := by
        have h0 := congrArg (·[0]?) hdrop
        simpa [load, List.getElem?_drop] using h0
      by_cases hbl : b = lf
      · -- LF: the segment `t` ends here, scanning goes on behind it
        subst hbl
        have hset : (s.lines.set i 0).drop s.pos = t ++ 0 :: (w ++ 0 :: junk) := by
          rw [List.drop_set, if_neg (by omega), hmem, hi, Nat.add_sub_cancel_left]
          rw [List.append_assoc, List.set_append_right _ _ (Nat.le_refl _), Nat.sub_self]
          rfl
        have hstr : strAt (s.lines.set i 0) s.pos = some t := by
          rw [strAt, hset, cstr_append_nul ht]
        have htail : (s.lines.set i 0).drop (i + 1) = [] ++ w ++ 0 :: junk := by
          rw [List.drop_set_of_lt (Nat.lt_succ_self i), ← List.tail_drop, hdrop]
          rfl
        obtain ⟨s', hs', hst, hout, hlen, hrest⟩ := ih [] (i + 1)
          ⟨afterLine s.state t, s.lines.set i 0, i + 1, s.out ++ [.lineFound s.state t]⟩
          hw' (by simp) (by simp) htail rfl
        refine ⟨s', ?_, ?_, ?_, ?_, ?_⟩
        · rw [List.length_cons, splitLoop, hload, Option.bind_eq_bind, Option.bind_some, if_pos rfl,
            store_eq_some hlt, Option.bind_eq_bind, Option.bind_some, hstr]
          exact hs'
        · rw [hst, lines_segment htl]
          rfl
        · rw [hout, lines_segment htl]
          simp [lineEvents]
        · simpa using hlen
        · rw [hrest, rest_segment]
          rfl
      · obtain ⟨s', hs', hst, hout, hlen, hrest⟩ := ih (t ++ [b]) (i + 1) s hw'
          (by simp [ht, Ne.symm hb]) (by simp [htl, Ne.symm hbl]) (by simpa using hmem)
          (by rw [List.length_append, hi]; rfl)
        refine ⟨s', ?_, ?_, ?_, hlen, ?_⟩
        · rw [List.length_cons, splitLoop, hload, Option.bind_eq_bind, Option.bind_some, if_neg hbl]
          exact hs'
        · simpa using hst
        · simpa using hout
        · simpa using hrest

/-- A text with a datagram copied behind it and terminated. -/
theorem copy_terminate {m : Mem} {t d : List UInt8} (hm : strAt m 0 = some t) (hfit : t.length + d.length < m.length)
    (back : List UInt8) :
    ∃ m' junk, copyLoop t.length (d ++ back) d.length 0 m = some m'
      ∧ store m' (t.length + d.length) 0 = some (t ++ d ++ 0 :: junk)
      ∧ (t ++ d ++ 0 :: junk).length = m.length := by
  obtain ⟨-, r, hr⟩ := cstr_eq_some_iff.mp hm
  rw [List.drop_zero] at hr
  have htake : m.take t.length = t := by rw [hr, List.take_left]
  obtain ⟨m', junk, hblit, hstore, hlen⟩ := blit_store htake hfit
  refine ⟨m', junk, ?_, hstore, hlen⟩
  rw [copyLoop_eq_blit (by simp) (by omega), List.drop_zero, List.take_left, Nat.add_zero]
  exact hblit

/-! ## Moving the tail to the front -/

/-- **The recomputed length.** After the tail `t` was copied to the front, the bytes read through the old
    pointer are the tail's own bytes or copies of others of them, none of them NUL, and the terminator
    behind them was not touched. -/
theorem strlen_after_memmove {m : Mem} {p : Nat} {t junk : List UInt8} (ht : 0 ∉ t)
    (hp : p ≤ m.length) (hmem : m.drop p = t ++ 0 :: junk) :
    strlen (t ++ m.drop t.length) p = some t.length := by
  have hlen : m.length = p + (t.length + (junk.length + 1)) := by
    have h := congrArg List.length hmem
    simp only [List.length_drop, List.length_append, List.length_cons] at h
    omega
  have hget : ∀ k, m[p + k]? = (t ++ 0 :: junk)[k]? := by
    intro k
    rw [← hmem, List.getElem?_drop]
  have hnz : ∀ k (hk : k < t.length), t[k] ≠ 0 := fun k hk h => ht (h ▸ List.getElem_mem hk)
  unfold strlen strAt
  apply cstr_length
  · intro k hk
    rw [List.getElem?_drop]
    by_cases hkt : p + k < t.length
    · -- overwritten by another byte of the tail
      exact ⟨t[p + k], by rw [List.getElem?_append_left hkt, List.getElem?_eq_getElem hkt], hnz _ hkt⟩
    · -- the tail's own byte
      refine ⟨t[k], ?_, hnz k hk⟩
      rw [List.getElem?_append_right (by omega), List.getElem?_drop,
        show t.length + (p + k - t.length) = p + k by omega, hget,
        List.getElem?_append_left hk, List.getElem?_eq_getElem hk]
  · rw [List.getElem?_drop, List.getElem?_append_right (by omega), List.getElem?_drop,
      show t.length + (p + t.length - t.length) = p + t.length by omega, hget,
      List.getElem?_append_right (Nat.le_refl _), Nat.sub_self]
    rfl

/-- **The tail at the front**, with the terminator behind it. -/
theorem move_tail {m : Mem} {p : Nat} {t junk : List UInt8} (ht : 0 ∉ t) (hmem : m.drop p = t ++ 0 :: junk) :
    ∃ m₁ m₂, memmove m 0 p t.length = some m₁ ∧ strlen m₁ p = some t.length ∧ store m₁ t.length 0 = some m₂
      ∧ m₂.length = m.length ∧ strAt m₂ 0 = some t := by
  have hlen : m.length - p = t.length + (junk.length + 1) := by
    have h := congrArg List.length hmem
    simpa using h
  have htake : (m.drop p).take t.length = t := by rw [hmem, List.take_left]
  refine ⟨t ++ m.drop t.length, t ++ 0 :: m.drop (t.length + 1), memmove_text htake (by omega),
    strlen_after_memmove ht (by omega) hmem, store_behind (by omega) 0, ?_, ?_⟩
  · simp only [List.length_append, List.length_cons, List.length_drop]
    omega
  · rw [strAt, List.drop_zero, cstr_append_nul ht]

/-! ## One call -/

/-- The array holds the string `t`. -/
def Carries (data : UserData) (t : List UInt8) : Prop :=
  data.lines.length = sizeofLines ∧ strAt data.lines 0 = some t

theorem carries_init (soc : Int) : Carries (init soc) [] := ⟨by simp [init], rfl⟩

/-- The events of the shutdown check at the end of a call: `strcmp(buf, "shutdown")` on the whole buffer. -/
def Call.quit (c : Call) : List Event :=
  if strEq (c.handed ++ c.buf.drop c.handed.length) (chars ['s', 'h', 'u', 't', 'd', 'o', 'w', 'n'])
      = some true
  then [.eventDel, .close, .loopexit] else []

@[simp] theorem processed_quit (c : Call) : processed c.quit = [] := by
  unfold Call.quit
  split <;> rfl

theorem Call.handed_length_le (c : Call) : c.handed.length ≤ c.buf.length := by
  rw [c.size]
  exact List.length_take_le _ _

/-- The bytes that are looked at: what is behind a NUL in a datagram is not. -/
def Call.text (c : Call) : List UInt8 := c.handed.takeWhile (fun b => b ≠ 0)

theorem Call.text_of_not_mem {c : Call} (h : 0 ∉ c.handed) : c.text = c.handed := by
  unfold Call.text
  rw [← List.append_nil c.handed, List.takeWhile_append_of_pos, List.takeWhile_nil]
  intro b hb
  exact decide_eq_true (fun h0 => h (h0 ▸ hb))

theorem Call.not_mem_text (c : Call) : 0 ∉ c.text := fun h => by
  have hb := List.all_eq_true.mp List.all_takeWhile 0 h
  simp at hb

/-- A datagram with a NUL behind it shows its text. -/
theorem Call.exists_text (c : Call) (junk : List UInt8) : ∃ z, c.handed ++ 0 :: junk = c.text ++ 0 :: z := by
  unfold Call.text
  induction c.handed with
  | nil => exact ⟨junk, rfl⟩
  | cons b d ih =>
      by_cases hb : b = 0
      · subst hb
        exact ⟨d ++ 0 :: junk, rfl⟩
      · obtain ⟨z, hz⟩ := ih
        refine ⟨z, ?_⟩
        rw [List.takeWhile_cons, if_pos (decide_eq_true hb), List.cons_append, List.cons_append, hz]

/-- **One call** on a nonempty datagram: carry and text together are cut at their LFs. -/
theorem recvHandler_text (soc : Int) {data : UserData} {t : List UInt8} (hc : Carries data t) (c : Call)
    (hne : c.handed ≠ []) (hfit : t.length + c.handed.length ≤ 1023) :
    ∃ ls, recvHandler soc c.buf (.packet c.info c.datagram) data
        = some (⟨(lines lf (t ++ c.text)).foldl afterLine data.state, ls, soc, c.info⟩,
            lineEvents data.state (lines lf (t ++ c.text)) ++ c.quit)
      ∧ ls.length = sizeofLines ∧ strAt ls 0 = some (rest lf (t ++ c.text)) := by
  obtain ⟨hlen, hstr⟩ := hc
  obtain ⟨ht, -⟩ := cstr_eq_some_iff.mp hstr
  have hsize : sizeofLines = 1024 := rfl
  set d := c.handed with hd
  have hdne : d.length ≠ 0 := fun h => hne (List.eq_nil_of_length_eq_zero h)
  have hdt : c.datagram.take sizeofBuf = d := rfl
  -- the buffer after `recvfrom`, and the line buffer after the copy and its terminator
  have hblit : blit c.buf 0 d = some (d ++ c.buf.drop d.length) := blit_front c.handed_length_le
  have hroom : t.length + d.length < data.lines.length := by omega
  obtain ⟨lines₁, junk, hcopy, hstore, hjlen⟩ := copy_terminate hstr hroom (c.buf.drop d.length)
  -- the string that is there now
  obtain ⟨z, hz⟩ := c.exists_text junk
  have hshown : t ++ d ++ 0 :: junk = t ++ c.text ++ 0 :: z := by
    rw [List.append_assoc, hz, List.append_assoc]
  have htd : 0 ∉ t ++ c.text := by simp [ht, c.not_mem_text]
  obtain ⟨s, hs, hstate, hout, hslen, hsmem⟩ :=
    splitLoop_spec (t ++ c.text) [] z 0 ⟨data.state, t ++ d ++ 0 :: junk, 0, []⟩
      htd (by simp) (by simp) (by simpa using hshown) rfl
  simp only [List.nil_append] at hstate hout hsmem
  -- the tail and its move
  have hu0 : 0 ∉ rest lf (t ++ c.text) := fun h => htd ((rest_suffix (t ++ c.text)).subset h)
  obtain ⟨lines₂, lines₃, hmove, hlen3, hfin, hflen, hfstr⟩ := move_tail hu0 hsmem
  obtain ⟨q, hq⟩ : ∃ q, strEq (d ++ c.buf.drop d.length)
      (chars ['s', 'h', 'u', 't', 'd', 'o', 'w', 'n']) = some q :=
    Option.isSome_iff_exists.mp (strEq_isSome (by rw [blit_length hblit, c.size]; decide))
  refine ⟨lines₃, ?_, ?_, hfstr⟩
  · have hlen0 : strlen data.lines 0 = some t.length := by rw [strlen, hstr]; rfl
    have hlen1 : strlen (t ++ d ++ 0 :: junk) 0 = some (t ++ c.text).length := by
      rw [hshown, strlen_append_nul htd]
    have hlen2 : strlen s.lines s.pos = some (rest lf (t ++ c.text)).length := by
      rw [strlen, strAt, hsmem, cstr_append_nul hu0]
      rfl
    simp only [recvHandler, hdt, if_neg hdne, hblit, hlen0, hcopy, hstore, hlen1, hs, hlen2, hmove,
      hlen3, hfin, hq, Option.bind_eq_bind, Option.bind_some, hstate, hout, Call.quit, ← hd]
    cases q <;> simp
  · rw [hflen, hslen, hjlen, hlen]

/-- The same for a datagram without a NUL. -/
theorem recvHandler_spec (soc : Int) {data : UserData} {t : List UInt8} (hc : Carries data t) (c : Call)
    (hne : c.handed ≠ []) (hnul : 0 ∉ c.handed) (hfit : t.length + c.handed.length ≤ 1023) :
    ∃ ls, recvHandler soc c.buf (.packet c.info c.datagram) data
        = some (⟨(lines lf (t ++ c.handed)).foldl afterLine data.state, ls, soc, c.info⟩,
            lineEvents data.state (lines lf (t ++ c.handed)) ++ c.quit)
      ∧ ls.length = sizeofLines ∧ strAt ls 0 = some (rest lf (t ++ c.handed)) := by
  have h := recvHandler_text soc hc c hne hfit
  rwa [Call.text_of_not_mem hnul] at h

/-! ## Whole runs -/

/-- The bytes handed over by a sequence of calls. -/
def stream (cs : List Call) : List UInt8 := cs.flatMap Call.handed

/-- Carried bytes and the next datagram together never exceed 1023 bytes. -/
def Fits : List UInt8 → List Call → Prop
  | _, []     => True
  | t, c :: cs => t.length + c.handed.length ≤ 1023 ∧ Fits (rest lf (t ++ c.handed)) cs

theorem Fits.take {t : List UInt8} {cs : List Call} (h : Fits t cs) (k : Nat) : Fits t (cs.take k) := by
  induction cs generalizing t k with
  | nil => simpa using h
  | cons c cs ih =>
      cases k with
      | zero => trivial
      | succ k => exact ⟨h.1, ih h.2 k⟩

/-- One call, the empty datagram (which closes the socket) included. -/
theorem recvHandler_lines (soc : Int) {data : UserData} {t : List UInt8} (hc : Carries data t)
    (htl : lf ∉ t) (c : Call) (hnul : 0 ∉ c.handed) (hfit : t.length + c.handed.length ≤ 1023) :
    ∃ data' out, recvHandler soc c.buf (.packet c.info c.datagram) data = some (data', out)
      ∧ Carries data' (rest lf (t ++ c.handed)) ∧ processed out = lines lf (t ++ c.handed) := by
  by_cases hne : c.handed = []
  · have h0 : (c.datagram.take sizeofBuf).length = 0 := by
      have := congrArg List.length hne
      simpa [Call.handed] using this
    refine ⟨data, [.eventDel, .close], ?_, ?_, ?_⟩
    · simp only [recvHandler, if_pos h0]
    · rw [hne, List.append_nil, rest_of_not_mem htl]
      exact hc
    · rw [hne, List.append_nil, lines_eq_nil_iff.mpr htl]
      rfl
  · obtain ⟨ls, heq, hlen, hstr⟩ := recvHandler_spec soc hc c hne hnul hfit
    exact ⟨_, _, heq, ⟨hlen, hstr⟩, by simp [processed_append]⟩

/-- A run from a state that carries `t`. -/
theorem run_lines (soc : Int) (cs : List Call) {data : UserData} {t : List UInt8} (hc : Carries data t)
    (htl : lf ∉ t) (hnul : ∀ c ∈ cs, 0 ∉ c.handed) (hfit : Fits t cs) :
    ∃ data' out, run soc cs data = some (data', out)
      ∧ Carries data' (rest lf (t ++ stream cs)) ∧ processed out = lines lf (t ++ stream cs) := by
  induction cs generalizing data t with
  | nil =>
      refine ⟨data, [], rfl, ?_, ?_⟩
      · rw [stream, List.flatMap_nil, List.append_nil, rest_of_not_mem htl]
        exact hc
      · rw [stream, List.flatMap_nil, List.append_nil, lines_eq_nil_iff.mpr htl]
        rfl
  | cons c cs ih =>
      obtain ⟨d1, o1, h1, hc1, hp1⟩ :=
        recvHandler_lines soc hc htl c (hnul c (by simp)) hfit.1
      obtain ⟨d2, o2, h2, hc2, hp2⟩ :=
        ih hc1 (sep_not_mem_rest _) (fun x hx => hnul x (List.mem_cons_of_mem c hx)) hfit.2
      have hstream : t ++ stream (c :: cs) = (t ++ c.handed) ++ stream cs := by
        simp [stream]
      refine ⟨d2, o1 ++ o2, ?_, ?_, ?_⟩
      · simp [run, h1, h2]
      · rw [hstream, rest_append]
        exact hc2
      · rw [processed_append, hp1, hp2, hstream, lines_append (t ++ c.handed)]

/-- **`recv_handler` over whole runs.** From the zeroed user data, whatever the stack buffer held at each
    call: after each call the lines processed are the LF-terminated lines of the bytes handed over so far
    and `data->lines` holds the string after the last LF; another run over the same bytes, cut into other
    datagrams, processes the same lines. -/
theorem recvline_lines (soc : Int) (cs : List Call) (hnul : ∀ c ∈ cs, 0 ∉ c.handed) (hfit : Fits [] cs) :
    (∀ k, ∃ data out, run soc (cs.take k) (init soc) = some (data, out)
      ∧ processed out = lines lf (stream (cs.take k))
      ∧ strAt data.lines 0 = some (rest lf (stream (cs.take k)))) ∧
    ∀ cs', (∀ c ∈ cs', 0 ∉ c.handed) → Fits [] cs' → stream cs' = stream cs →
      (run soc cs' (init soc)).map (fun x => processed x.2)
        = (run soc cs (init soc)).map (fun x => processed x.2) := by
  constructor
  · intro k
    obtain ⟨data, out, h, hc, hp⟩ := run_lines soc (cs.take k) (carries_init soc) (by simp)
      (fun c hcs => hnul c (List.mem_of_mem_take hcs)) (hfit.take k)
    exact ⟨data, out, h, by simpa using hp, by simpa using hc.2⟩
  · intro cs' hnul' hfit' hstream
    obtain ⟨_, _, h, -, hp⟩ := run_lines soc cs (carries_init soc) (by simp) hnul hfit
    obtain ⟨_, _, h', -, hp'⟩ := run_lines soc cs' (carries_init soc) (by simp) hnul' hfit'
    rw [h, h', Option.map_some, Option.map_some, hp, hp', hstream]

theorem length_sevens : (List.replicate 512 7 : Mem).length = sizeofBuf := List.length_replicate

theorem length_zeros : (List.replicate 512 0 : Mem).length = sizeofBuf := List.length_replicate

/-- Two datagrams, a line across their border: `ab LF c` and `d LF e`. -/
def twoCalls : List Call :=
  [⟨List.replicate 512 7, [1], [97, 98, 10, 99], length_sevens⟩,
   ⟨List.replicate 512 0, [2], [100, 10, 101], length_zeros⟩]

theorem recvline_lines_twoCalls :
    (run 3 twoCalls (init 3)).map (fun x => processed x.2) = some [[97, 98], [99, 100]] := by
  obtain ⟨data, out, h, hp, -⟩ :=
    (recvline_lines 3 twoCalls (by decide) ⟨by decide, by decide, trivial⟩).1 2
  have h2 : run 3 twoCalls (init 3) = some (data, out) := h
  rw [h2, Option.map_some, hp]
  decide

end Recvline
end Line
end CSamples
