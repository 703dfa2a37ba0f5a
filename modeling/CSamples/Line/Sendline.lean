import CSamples.Line.Recvline

/-!
# `Line.Sendline` — the command side of the UDP line pair, and the pair as a system

`recv_handler` of `line/sendline/sendline.c` runs a received line as a command and sends its output back in
chunks of at most 1024 bytes; the end of the output is marked by the byte `(char)EOF`, which goes out with
it. `recvline` receives into 512 bytes.

## Contents
- **Model.** `sendLoop` and `recvHandler` of the sender, `stdinHandler` of the receiver, and the system
  `Net`: both programs with the datagrams in flight each way, under any interleaving of `Act`s. A datagram
  is neither lost nor duplicated nor reordered; the receiver's `recvfrom` truncates it.
- **What goes out.** `sendLoop_spec`: the chunks are the output and its marker, cut every 1024 bytes.
- **Whole runs.** `run_faithful`: which runs keep the reported lines equal to the lines of the outputs.
  `run_marker_in_line` is a run of two commands that does not.
-/

namespace CSamples
namespace Line
namespace Sendline

open C Text Recvline

/-- `(char)EOF` -/
def eofChar : UInt8 := 0xFF

/-- `sizeof(line)` in `recv_handler` -/
def sizeofLine : Nat := 1024

/-! ## The model -/

/-- The loop over the command's output: `line[pos]` is stored before the byte is compared with `EOF`, and
    a datagram goes out when the array is full or the output ends. -/
def sendLoop : List UInt8 → Mem → Nat → Option (List (List UInt8))
  | [], line, pos => do
      let line ← store line pos eofChar
      some [line.take (pos + 1)]
  | ch :: out, line, pos => do
      let line ← store line pos ch
      if sizeofLine ≤ pos + 1 then do
        let ds ← sendLoop out line 0
        some (line.take (pos + 1) :: ds)
      else sendLoop out line (pos + 1)

/-- The command in a received line: up to the first NUL, CR or LF. -/
def command (s : List UInt8) : List UInt8 := s.takeWhile (fun b => b != 0 && b != 0x0D && b != lf)

/-- What the sender does with a datagram: the command line, the output of the command if it was run, the
    datagrams sent back, and whether the socket is closed. -/
structure Served where
  command : List UInt8
  output  : Option (List UInt8)
  replies : List (List UInt8)
  closed  : Bool
  deriving DecidableEq

/-- `recv_handler` of the sender. `buf` and `line` are the stale stack arrays; `popen` yields the
    command's output, or nothing when it fails. -/
def recvHandler (buf line : Mem) (datagram : List UInt8) (popen : Option (List UInt8)) : Option Served :=
  let received := datagram.take sizeofBuf
  if received.length = 0 then some ⟨[], none, [], true⟩
  else do
    let buf ← blit buf 0 received
    let buf ← store buf received.length 0
    let str ← strAt buf 0
    match popen with
    | none => some ⟨command str, none, [], false⟩
    | some out => do
        let ds ← sendLoop out line 0
        some ⟨command str, some out, ds, false⟩

/-- `stdin_handler` of the receiver on a line typed there: the datagram for the sender when a peer is
    known, and whether the program leaves its loop. -/
def stdinHandler (buf : Mem) (typed : List UInt8) (data : UserData) :
    Option (List (List UInt8) × Bool) :=
  let len := (typed.take (buf.length - 1)).length
  if len = 0 then some ([], false)
  else do
    let buf ← blit buf 0 (typed.take (buf.length - 1))
    let last ← load buf (len - 1)
    let buf ← (if last = lf then store buf (len - 1) 0 else store buf len 0)
    let exit ← strEq buf (chars ['e', 'x', 'i', 't'])
    some (if data.soc ≠ 0 ∧ data.info.length ≠ 0 then [buf.take len] else [], exit)

/-- The pair: the receiver, whether it is in its event loop and its socket still open, whether the sender's
    socket is open, the datagrams in flight each way, what the receiver did so far, and the outputs of the
    commands run so far. -/
structure Net where
  recv      : UserData
  serving   : Bool
  listening : Bool
  sending   : Bool
  toSend    : List (List UInt8)
  toRecv    : List (List UInt8)
  events    : List Event
  outputs   : List (List UInt8)
  deriving DecidableEq

/-- One step of the pair: a line is typed at the receiver, the sender handles the next datagram, or the
    receiver does. The stale contents of the stack arrays and the outcome of `popen` are part of it. -/
inductive Act where
  | typed (buf : Mem) (line : List UInt8)
  | exec (buf line : Mem) (popen : Option (List UInt8))
  | deliver (buf : Mem)

/-- A step; `none` when a handler does something undefined. A handler with nothing to read is not called,
    nor is the receiver's once its event is deleted; `sendto` on a closed socket sends nothing. -/
def step (s : Net) : Act → Option Net
  | .typed buf line =>
      if s.serving then do
        let (ds, exit) ← stdinHandler buf line s.recv
        some { s with toSend := if s.listening then s.toSend ++ ds else s.toSend, serving := !exit }
      else some s
  | .exec buf line popen =>
      match s.sending, s.toSend with
      | true, d :: ds => do
          let r ← recvHandler buf line d popen
          some { s with toSend := ds, toRecv := s.toRecv ++ r.replies, sending := !r.closed,
                        outputs := s.outputs ++ r.output.toList }
      | _, _ => some s
  | .deliver buf =>
      match s.serving && s.listening, s.toRecv with
      | true, d :: ds => do
          let (data, out) ← Recvline.recvHandler s.recv.soc buf (.packet s.recv.info d) s.recv
          some { s with recv := data, toRecv := ds, events := s.events ++ out,
                        serving := !out.contains .loopexit, listening := !out.contains .eventDel }
      | _, _ => some s

/-- A run of the pair. -/
def run : List Act → Net → Option Net
  | [], s => some s
  | a :: as, s => (step s a).bind (run as)

/-- The state once the sender has made itself known from address `info`: nothing carried over, nothing in
    flight. -/
def start (soc : Int) (info : List UInt8) : Net :=
  ⟨{ Recvline.init soc with info := info }, true, true, true, [], [], [], []⟩

/-! ## What goes out -/

/-- Storing one byte behind the first `pos` extends what was gathered. -/
private theorem take_store {line line' : Mem} {pos : Nat} {b : UInt8} (h : store line pos b = some line') :
    line'.take (pos + 1) = line.take pos ++ [b] ∧ line'.length = line.length := by
  unfold store at h
  split at h
  · next hlt =>
      obtain rfl := Option.some.inj h
      refine ⟨?_, List.length_set⟩
      rw [List.take_succ_eq_append_getElem (by rw [List.length_set]; exact hlt), List.take_set_of_le (Nat.le_refl _)]
      simp
  · simp at h

/-- **The chunks.** From `pos` bytes gathered: the datagrams are those bytes, the rest of the output and
    the marker, in order; each is full or ends in the marker. -/
theorem sendLoop_spec (out : List UInt8) (line : Mem) (pos : Nat) (hlen : line.length = sizeofLine)
    (hpos : pos < sizeofLine) :
    ∃ d ds, sendLoop out line pos = some (d :: ds)
      ∧ d = (line.take pos ++ out ++ [eofChar]).take sizeofLine
      ∧ (d :: ds).flatten = line.take pos ++ out ++ [eofChar]
      ∧ ∀ x ∈ d :: ds, x ≠ [] ∧ (x.getLast? = some eofChar ∨ sizeofBuf ≤ x.length) := by
  induction out generalizing line pos with
  | nil =>
      -- the EOF is stored as a byte and sent with what was gathered
      have hst := store_eq_some (show pos < line.length by omega) eofChar
      obtain ⟨htake, -⟩ := take_store hst
      have hle : (line.take pos ++ [eofChar]).length ≤ sizeofLine := by
        rw [List.length_append, List.length_take]
        simp only [List.length_singleton]
        omega
      refine ⟨line.take pos ++ [eofChar], [], ?_, ?_, ?_, ?_⟩
      · simp only [sendLoop, hst, Option.bind_eq_bind, Option.bind_some, htake]
      · rw [List.append_nil, List.take_of_length_le hle]
      · simp
      · intro x hx
        obtain rfl := List.mem_singleton.mp hx
        exact ⟨by simp, .inl (by simp)⟩
  | cons ch out ih =>
      have hst := store_eq_some (show pos < line.length by omega) ch
      obtain ⟨htake, hlen'⟩ := take_store hst
      by_cases hfull : sizeofLine ≤ pos + 1
      · -- the array is full: a chunk goes out and gathering starts again
        obtain ⟨d, ds, heq, -, hflat, hne⟩ := ih (line.set pos ch) 0 (by rw [hlen', hlen]) (by decide)
        have hexact : (line.take pos ++ [ch]).length = sizeofLine := by
          rw [List.length_append, List.length_take]
          simp only [List.length_singleton]
          omega
        refine ⟨line.take pos ++ [ch], d :: ds, ?_, ?_, ?_, ?_⟩
        · simp only [sendLoop, hst, Option.bind_eq_bind, Option.bind_some, if_pos hfull, heq, htake]
        · rw [show line.take pos ++ ch :: out ++ [eofChar]
              = (line.take pos ++ [ch]) ++ (out ++ [eofChar]) by simp, List.take_left' hexact]
        · rw [List.flatten_cons, hflat]
          simp
        · intro x hx
          rcases List.mem_cons.mp hx with rfl | hx
          · refine ⟨by simp, .inr ?_⟩
            rw [hexact]
            decide
          · exact hne x hx
      · obtain ⟨d, ds, heq, hd, hflat, hne⟩ :=
          ih (line.set pos ch) (pos + 1) (by rw [hlen', hlen]) (by omega)
        rw [htake] at hd hflat
        refine ⟨d, ds, ?_, ?_, ?_, hne⟩
        · simp only [sendLoop, hst, Option.bind_eq_bind, Option.bind_some, if_neg hfull, heq]
        · rw [hd]
          simp
        · rw [hflat]
          simp

/-- What the receiver is handed of a sequence of datagrams. -/
def received (ds : List (List UInt8)) : List UInt8 := ds.flatMap (·.take sizeofBuf)

theorem received_append (ds es : List (List UInt8)) : received (ds ++ es) = received ds ++ received es := by
  simp [received]

/-- Every byte handed over was sent. -/
theorem received_subset (ds : List (List UInt8)) : received ds ⊆ ds.flatten := by
  intro b hb
  obtain ⟨d, hd, hbd⟩ := List.mem_flatMap.mp hb
  exact List.mem_flatten.mpr ⟨d, hd, List.mem_of_mem_take hbd⟩

/-- **One command's output at the receiver**: its first 512 bytes (with the marker when there is room),
    then bytes from behind them or the marker. -/
theorem received_sendLoop {out : List UInt8} {line : Mem} {ds : List (List UInt8)}
    (hlen : line.length = sizeofLine) (h : sendLoop out line 0 = some ds) :
    ∃ junk, received ds = (out ++ [eofChar]).take sizeofBuf ++ junk ∧ junk ⊆ eofChar :: out.drop sizeofBuf := by
  obtain ⟨d, ds', heq, hd, hflat, -⟩ := sendLoop_spec out line 0 hlen (by decide)
  obtain rfl := Option.some.inj (h.symm.trans heq)
  rw [List.take_zero, List.nil_append] at hd hflat
  refine ⟨received ds', ?_, ?_⟩
  · rw [received, List.flatMap_cons, hd, List.take_take]
    rfl
  · intro b hb
    have hb' : b ∈ (out ++ [eofChar]).drop sizeofLine := by
      have hdrop : (out ++ [eofChar]).drop sizeofLine = ds'.flatten := by
        have hsplit : d ++ ds'.flatten = d ++ (out ++ [eofChar]).drop sizeofLine := by
          rw [← List.flatten_cons, hflat]
          conv_rhs => rw [hd]
          rw [List.take_append_drop]
        exact (List.append_cancel_left hsplit).symm
      rw [hdrop]
      exact received_subset ds' hb
    rw [List.drop_append] at hb'
    rcases List.mem_append.mp hb' with hb' | hb'
    · refine List.mem_cons_of_mem _ ?_
      rw [show sizeofLine = sizeofBuf + 512 from rfl, ← List.drop_drop] at hb'
      exact List.mem_of_mem_drop hb'
    · have := List.mem_of_mem_drop hb'
      simp only [List.mem_singleton] at this
      rw [this]
      exact List.mem_cons_self ..

/-! ## Whole runs -/

/-- The lines the receiver prints: those it splits off in `STATE_DEFAULT` and `STATE_WAITRES`. -/
def reported : List Event → List (List UInt8)
  | []                       => []
  | .lineFound state l :: es =>
      if state = stateDefault ∨ state = stateWaitres then l :: reported es else reported es
  | _ :: es                  => reported es

theorem reported_append (es fs : List Event) : reported (es ++ fs) = reported es ++ reported fs := by
  induction es with
  | nil => rfl
  | cons e es ih =>
      cases e with
      | lineFound state l =>
          simp only [List.cons_append, reported, ih]
          split <;> rfl
      | _ => exact ih

/-- In `STATE_DEFAULT` every line is printed, and the state stays. -/
theorem reported_lineEvents (ls : List (List UInt8)) : reported (lineEvents stateDefault ls) = ls := by
  induction ls with
  | nil => rfl
  | cons l ls ih =>
      show l :: reported (lineEvents stateDefault ls) = l :: ls
      rw [ih]

theorem foldl_afterLine_default (ls : List (List UInt8)) : ls.foldl afterLine stateDefault = stateDefault := by
  induction ls with
  | nil => rfl
  | cons l ls ih => exact ih

/-- **The property**: the receiver never reports anything but the LF-terminated lines of the outputs of the
    commands run, in order, and once nothing is in flight to it, it has reported all of them. -/
def Faithful (s : Net) : Prop :=
  reported s.events <+: lines lf s.outputs.flatten ∧
    (s.toRecv = [] → reported s.events = lines lf s.outputs.flatten)

/-- What a command's output must be, after the outputs `prev`: if it completes a line, then no marker is
    in the receiver's stream yet (every earlier output had exactly 512 bytes, so its marker was cut off)
    and no line ends beyond its first 512 bytes. -/
def OutputOk (prev : List (List UInt8)) (out : List UInt8) : Prop :=
  lf ∈ out → (∀ o ∈ prev, o.length = sizeofBuf) ∧ lf ∉ out.drop sizeofBuf

/-- The condition on one step, where the handler is called: the stack arrays have their sizes; an output is
    NUL-free and `OutputOk`; a delivered datagram fits behind what `data->lines` carries. -/
def StepOk (s : Net) : Act → Prop
  | .typed buf _ => s.serving = true → buf.length = 256
  | .exec buf line popen =>
      s.sending = true → s.toSend ≠ [] → buf.length = sizeofBuf ∧ line.length = sizeofLine ∧
        ∀ out ∈ popen, 0 ∉ out ∧ OutputOk s.outputs out
  | .deliver buf =>
      (s.serving && s.listening) = true → ∀ d ∈ s.toRecv.head?,
        buf.length = sizeofBuf ∧ ∀ t ∈ strAt s.recv.lines 0, t.length + (d.take sizeofBuf).length ≤ 1023

/-- Every step of the run meets its condition. -/
def RunOk : Net → List Act → Prop
  | _, []      => True
  | s, a :: as => StepOk s a ∧ ∀ s' ∈ step s a, RunOk s' as

instance (prev : List (List UInt8)) (out : List UInt8) : Decidable (OutputOk prev out) := by
  unfold OutputOk
  infer_instance

instance (s : Net) (a : Act) : Decidable (StepOk s a) := by
  cases a <;> unfold StepOk <;> infer_instance

instance : ∀ (s : Net) (as : List Act), Decidable (RunOk s as)
  | _, []      => .isTrue trivial
  | s, a :: as =>
      have : ∀ s', Decidable (RunOk s' as) := fun s' => instDecidableRunOk s' as
      inferInstanceAs (Decidable (StepOk s a ∧ ∀ s' ∈ step s a, RunOk s' as))

/-- The invariant: the datagrams for the sender are not empty and fit its buffer with a NUL; those for the receiver are
    NUL-free, not empty and not the shutdown word; `delivered` is what the receiver was handed; with what
    is in flight it has the lines of the outputs, and is the outputs as long as each had 512 bytes. -/
structure Inv (s : Net) (delivered : List UInt8) : Prop where
  toSend  : ∀ d ∈ s.toSend, d ≠ [] ∧ d.length < sizeofBuf
  toRecv  : ∀ d ∈ s.toRecv, 0 ∉ d ∧ d ≠ [] ∧ (d.getLast? = some eofChar ∨ sizeofBuf ≤ d.length)
  carries : Carries s.recv (rest lf delivered)
  state   : s.recv.state = stateDefault
  done    : reported s.events = lines lf delivered
  lines   : Text.lines lf (delivered ++ received s.toRecv) = Text.lines lf s.outputs.flatten
  exact   : (∀ o ∈ s.outputs, o.length = sizeofBuf) →
              delivered ++ received s.toRecv = s.outputs.flatten

theorem inv_start (soc : Int) (info : List UInt8) : Inv (start soc info) [] where
  toSend  := by simp [start]
  toRecv  := by simp [start]
  carries := carries_init soc
  state   := rfl
  done    := rfl
  lines   := rfl
  exact   := fun _ => rfl

/-- A datagram that ends in the marker, or fills the receiver's buffer, is never the shutdown word. -/
theorem quit_eq_nil (c : Call) (hnul : 0 ∉ c.datagram)
    (h : c.datagram.getLast? = some eofChar ∨ sizeofBuf ≤ c.datagram.length) : c.quit = [] := by
  unfold Call.quit
  rw [if_neg]
  intro hq
  obtain ⟨r, hr⟩ := eq_of_strEq hq
  have hget : ∀ k : Nat, (c.handed ++ c.buf.drop c.handed.length)[k]? =
      (chars ['s', 'h', 'u', 't', 'd', 'o', 'w', 'n'] ++ 0 :: r)[k]? := fun k => by rw [hr]
  have hlen8 : c.handed.length ≤ 8 := by
    by_contra hgt
    have h8 := hget 8
    rw [List.getElem?_append_left (by omega)] at h8
    have : c.handed[8]? = some 0 := h8
    have hmem := List.mem_of_getElem? this
    exact hnul (List.mem_of_mem_take hmem)
  rcases h with hlast | hfull
  · -- the last byte handed over is the marker, at one of the first eight places
    have hhd : c.handed = c.datagram := by
      have hmin : c.handed.length = min sizeofBuf c.datagram.length := List.length_take
      have hsz : sizeofBuf = 512 := rfl
      exact List.take_of_length_le (by omega)
    rw [List.getLast?_eq_getElem?, ← hhd] at hlast
    have hpos : c.handed.length - 1 < c.handed.length := by
      by_contra hz
      rw [List.getElem?_eq_none (by omega)] at hlast
      simp at hlast
    have hk := hget (c.handed.length - 1)
    rw [List.getElem?_append_left hpos, hlast, List.getElem?_append_left (by simp [chars]; omega)] at hk
    have hmem : eofChar ∈ chars ['s', 'h', 'u', 't', 'd', 'o', 'w', 'n'] := List.mem_of_getElem? hk.symm
    revert hmem
    decide
  · have hmin : c.handed.length = min sizeofBuf c.datagram.length := List.length_take
    have hsz : sizeofBuf = 512 := rfl
    omega

/-- A typed line adds at most a datagram of 1 to 255 bytes for the sender. -/
theorem stdinHandler_spec {buf : Mem} (hbuf : buf.length = 256) (typed : List UInt8) (data : UserData) :
    ∃ ds exit, stdinHandler buf typed data = some (ds, exit) ∧
      ∀ d ∈ ds, d ≠ [] ∧ d.length < sizeofBuf := by
  unfold stdinHandler
  rw [hbuf]
  by_cases h0 : (typed.take (256 - 1)).length = 0
  · exact ⟨[], false, by rw [if_pos h0], by simp⟩
  · have hle : (typed.take (256 - 1)).length ≤ 255 := List.length_take_le _ _
    have hb : blit buf 0 (typed.take (256 - 1))
        = some (buf.take 0 ++ typed.take (256 - 1) ++ buf.drop (0 + (typed.take (256 - 1)).length)) :=
      blit_eq_some (by omega)
    set buf' := buf.take 0 ++ typed.take (256 - 1) ++ buf.drop (0 + (typed.take (256 - 1)).length)
    set len := (typed.take (256 - 1)).length
    have hlen' : buf'.length = 256 := by rw [blit_length hb, hbuf]
    have hlast : len - 1 < buf'.length := by omega
    have hload : load buf' (len - 1) = some buf'[len - 1] := List.getElem?_eq_getElem hlast
    have hterm : ∃ buf'', (if buf'[len - 1] = lf then store buf' (len - 1) 0
        else store buf' len 0) = some buf'' ∧ buf''.length = 256 := by
      split
      · exact ⟨_, store_eq_some (by omega) 0, by rw [List.length_set, hlen']⟩
      · exact ⟨_, store_eq_some (by omega) 0, by rw [List.length_set, hlen']⟩
    obtain ⟨buf'', hb'', hlen''⟩ := hterm
    obtain ⟨q, hq⟩ : ∃ q, strEq buf'' (chars ['e', 'x', 'i', 't']) = some q :=
      Option.isSome_iff_exists.mp (strEq_isSome (by rw [hlen'']; decide))
    refine ⟨if data.soc ≠ 0 ∧ data.info.length ≠ 0 then [buf''.take len] else [], q, ?_, ?_⟩
    · simp only [if_neg h0, hb, hload, hb'', hq, Option.bind_eq_bind, Option.bind_some]
    · intro d hd
      split at hd
      · obtain rfl := List.mem_singleton.mp hd
        have hdl : (buf''.take len).length = len := by
          rw [List.length_take]
          omega
        refine ⟨fun hnil => h0 ?_, ?_⟩
        · rw [← hdl, hnil]
          rfl
        · have hsz : sizeofBuf = 512 := rfl
          omega
      · simp at hd

/-- The sender handles a datagram that leaves room for its NUL: the command's output goes out. -/
theorem recvHandler_spec {buf line : Mem} {d : List UInt8} (popen : Option (List UInt8))
    (hbuf : buf.length = sizeofBuf) (hline : line.length = sizeofLine) (hne : d ≠ [])
    (hd : d.length < sizeofBuf) :
    ∃ r, recvHandler buf line d popen = some r ∧ r.closed = false ∧ r.output = popen ∧
      match popen with
      | none     => r.replies = []
      | some out => sendLoop out line 0 = some r.replies := by
  have htake : d.take sizeofBuf = d := List.take_of_length_le (by omega)
  have h0 : d.length ≠ 0 := fun h => hne (List.eq_nil_of_length_eq_zero h)
  have hb : blit buf 0 d = some (buf.take 0 ++ d ++ buf.drop (0 + d.length)) :=
    blit_eq_some (by omega)
  set buf' := buf.take 0 ++ d ++ buf.drop (0 + d.length)
  have hlen' : buf'.length = sizeofBuf := by rw [blit_length hb, hbuf]
  have hst := store_eq_some (show d.length < buf'.length by omega) 0
  -- the stored NUL terminates the string
  obtain ⟨str, hstr⟩ : ∃ str, strAt (buf'.set d.length 0) 0 = some str :=
    cstr_isSome_iff.mpr (List.mem_set (by omega) 0)
  unfold recvHandler
  rw [htake]
  cases popen with
  | none =>
      refine ⟨⟨command str, none, [], false⟩, ?_, rfl, rfl, rfl⟩
      simp only [if_neg h0, hb, hst, hstr, Option.bind_eq_bind, Option.bind_some]
  | some out =>
      obtain ⟨x, ds, heq, -, -, -⟩ := sendLoop_spec out line 0 hline (by decide)
      refine ⟨⟨command str, some out, x :: ds, false⟩, ?_, rfl, rfl, heq⟩
      simp only [if_neg h0, hb, hst, hstr, heq, Option.bind_eq_bind, Option.bind_some]

/-- Bytes without an LF add no line. -/
theorem lines_append_of_not_mem (x : List UInt8) {y : List UInt8} (hy : lf ∉ y) :
    lines lf (x ++ y) = lines lf x := by
  have hno : lf ∉ rest lf x ++ y := by
    rw [List.mem_append]
    rintro (h | h)
    · exact sep_not_mem_rest x h
    · exact hy h
  rw [lines_append, lines_eq_nil_iff.mpr hno, List.append_nil]

/-- An output of 512 bytes reaches the receiver without its marker. -/
theorem received_sendLoop_exact {out : List UInt8} {line : Mem} {ds : List (List UInt8)}
    (hlen : line.length = sizeofLine) (h : sendLoop out line 0 = some ds) (hout : out.length = sizeofBuf) :
    received ds = out := by
  obtain ⟨d, ds', heq, hd, hflat, hne⟩ := sendLoop_spec out line 0 hlen (by decide)
  obtain rfl := Option.some.inj (h.symm.trans heq)
  rw [List.take_zero, List.nil_append] at hd hflat
  have hall : d = out ++ [eofChar] := by
    rw [hd]
    apply List.take_of_length_le
    rw [List.length_append, hout]
    decide
  -- nothing is left for a second datagram
  have hnil : ds' = [] := by
    rw [List.flatten_cons, hall] at hflat
    have hz : ds'.flatten = [] := List.append_right_eq_self.mp hflat
    cases ds' with
    | nil => rfl
    | cons x xs =>
        exact absurd (List.append_eq_nil_iff.mp hz).1 (hne x (by simp)).1
  rw [hnil, received, List.flatMap_cons, List.flatMap_nil, List.append_nil, hall, ← hout, List.take_left]

/-- What a command adds to the receiver's stream completes the lines its output completes. -/
theorem lines_received {stream prev out : List UInt8} {os : List (List UInt8)} {line : Mem}
    {ds : List (List UInt8)} (hlen : line.length = sizeofLine) (h : sendLoop out line 0 = some ds)
    (hok : OutputOk os out) (hlines : lines lf stream = lines lf prev)
    (hexact : (∀ o ∈ os, o.length = sizeofBuf) → stream = prev) :
    lines lf (stream ++ received ds) = lines lf (prev ++ out) := by
  obtain ⟨junk, hr, hjunk⟩ := received_sendLoop hlen h
  have hlfe : lf ≠ eofChar := by decide
  by_cases hmem : lf ∈ out
  · obtain ⟨hprev, hcut⟩ := hok hmem
    have hj : lf ∉ ([eofChar].take (sizeofBuf - out.length)) ++ junk := by
      rw [List.mem_append]
      rintro (hin | hin)
      · exact hlfe (List.mem_singleton.mp (List.mem_of_mem_take hin))
      · rcases List.mem_cons.mp (hjunk hin) with heq | hin
        · exact hlfe heq
        · exact hcut hin
    -- both sides have the lines of the first 512 bytes
    calc lines lf (stream ++ received ds)
        = lines lf ((prev ++ out.take sizeofBuf) ++ ([eofChar].take (sizeofBuf - out.length) ++ junk)) := by
          rw [hexact hprev, hr, List.take_append]
          simp only [List.append_assoc]
      _ = lines lf (prev ++ out.take sizeofBuf) := lines_append_of_not_mem _ hj
      _ = lines lf ((prev ++ out.take sizeofBuf) ++ out.drop sizeofBuf) :=
          (lines_append_of_not_mem _ hcut).symm
      _ = lines lf (prev ++ out) := by rw [List.append_assoc, List.take_append_drop]
  · have hin : lf ∉ received ds := by
      rw [hr, List.mem_append]
      rintro (hin | hin)
      · rcases List.mem_append.mp (List.mem_of_mem_take hin) with hin | hin
        · exact hmem hin
        · exact hlfe (List.mem_singleton.mp hin)
      · rcases List.mem_cons.mp (hjunk hin) with heq | hin
        · exact hlfe heq
        · exact hmem (List.mem_of_mem_drop hin)
    rw [lines_append_of_not_mem _ hin, hlines, lines_append_of_not_mem _ hmem]

/-- **Step lemma: a line is typed.** -/
theorem inv_typed {s : Net} {delivered : List UInt8} (hi : Inv s delivered) (buf : Mem) (line : List UInt8)
    (hok : StepOk s (.typed buf line)) : ∃ s', step s (.typed buf line) = some s' ∧ Inv s' delivered := by
  by_cases hs : s.serving = true
  · obtain ⟨ds, exit, heq, hds⟩ := stdinHandler_spec (hok hs) line s.recv
    refine ⟨{ s with toSend := if s.listening then s.toSend ++ ds else s.toSend, serving := !exit }, ?_, ?_⟩
    · simp only [step, if_pos hs, heq, Option.bind_eq_bind, Option.bind_some]
    · exact { hi with
        toSend := by
          intro d hd
          simp only at hd
          split at hd
          · rcases List.mem_append.mp hd with hd | hd
            · exact hi.toSend d hd
            · exact hds d hd
          · -- nothing is sent
            exact hi.toSend d hd }
  · exact ⟨s, by simp only [step, if_neg hs], hi⟩

/-- **Step lemma: the sender runs a command.** -/
theorem inv_exec {s : Net} {delivered : List UInt8} (hi : Inv s delivered) (buf line : Mem)
    (popen : Option (List UInt8)) (hok : StepOk s (.exec buf line popen)) :
    ∃ s', step s (.exec buf line popen) = some s' ∧ Inv s' delivered := by
  rcases hsend : s.sending with _ | _
  · exact ⟨s, by simp only [step, hsend], hi⟩
  rcases hds : s.toSend with _ | ⟨d, ds⟩
  · exact ⟨s, by simp only [step, hsend, hds], hi⟩
  obtain ⟨hbuf, hline, hout⟩ := hok hsend (by simp [hds])
  have hd := hi.toSend d (by rw [hds]; exact List.mem_cons_self ..)
  obtain ⟨r, heq, -, hro, hrep⟩ := recvHandler_spec popen hbuf hline hd.1 hd.2
  refine ⟨{ s with toSend := ds, toRecv := s.toRecv ++ r.replies, sending := !r.closed,
                   outputs := s.outputs ++ r.output.toList }, ?_, ?_⟩
  · simp only [step, hsend, hds, heq, Option.bind_eq_bind, Option.bind_some]
  have htoSend : ∀ x ∈ ds, x ≠ [] ∧ x.length < sizeofBuf := fun x hx =>
    hi.toSend x (by rw [hds]; exact List.mem_cons_of_mem d hx)
  cases popen with
  | none =>
      replace hrep : r.replies = [] := hrep
      refine ⟨htoSend, ?_, hi.carries, hi.state, hi.done, ?_, ?_⟩
      · simpa [hrep] using hi.toRecv
      · simpa [hrep, hro] using hi.lines
      · simpa [hrep, hro] using hi.exact
  | some out =>
      replace hrep : sendLoop out line 0 = some r.replies := hrep
      obtain ⟨hnul, hoOk⟩ := hout out rfl
      have houts : s.outputs ++ r.output.toList = s.outputs ++ [out] := by rw [hro]; rfl
      have hflat : (s.outputs ++ r.output.toList).flatten = s.outputs.flatten ++ out := by
        rw [houts]
        simp
      refine ⟨htoSend, ?_, hi.carries, hi.state, hi.done, ?_, ?_⟩
      · intro x hx
        rcases List.mem_append.mp hx with hx | hx
        · exact hi.toRecv x hx
        · obtain ⟨y, ys, heq', -, hfl, hne⟩ := sendLoop_spec out line 0 hline (by decide)
          obtain hys := Option.some.inj (hrep.symm.trans heq')
          rw [hys] at hx
          refine ⟨fun h0 => ?_, hne x hx⟩
          -- a NUL in a datagram would be one of the output
          have hin : (0 : UInt8) ∈ (y :: ys).flatten := List.mem_flatten.mpr ⟨x, hx, h0⟩
          rw [hfl, List.take_zero, List.nil_append, List.mem_append] at hin
          rcases hin with hin | hin
          · exact hnul hin
          · exact absurd (List.mem_singleton.mp hin) (by decide)
      · show Text.lines lf (delivered ++ received (s.toRecv ++ r.replies)) = _
        rw [hflat, received_append, ← List.append_assoc]
        exact lines_received hline hrep hoOk hi.lines hi.exact
      · intro hall
        show delivered ++ received (s.toRecv ++ r.replies) = _
        replace hall : ∀ o ∈ s.outputs ++ [out], o.length = sizeofBuf := by rw [← houts]; exact hall
        rw [hflat, received_append, ← List.append_assoc,
          hi.exact (fun o ho => hall o (List.mem_append_left _ ho)),
          received_sendLoop_exact hline hrep (hall out (by simp))]

/-- **Step lemma: the receiver is handed a datagram.** -/
theorem inv_deliver {s : Net} {delivered : List UInt8} (hi : Inv s delivered) (buf : Mem)
    (hok : StepOk s (.deliver buf)) :
    ∃ s' delivered', step s (.deliver buf) = some s' ∧ Inv s' delivered' := by
  rcases hserve : s.serving && s.listening with _ | _
  · exact ⟨s, delivered, by simp only [step, hserve], hi⟩
  rcases hds : s.toRecv with _ | ⟨d, ds⟩
  · exact ⟨s, delivered, by simp only [step, hserve, hds], hi⟩
  obtain ⟨hbuf, hfit⟩ := hok hserve d (by rw [hds]; rfl)
  obtain ⟨hnul, hdne, hlast⟩ := hi.toRecv d (by rw [hds]; exact List.mem_cons_self ..)
  let c : Call := ⟨buf, s.recv.info, d, hbuf⟩
  have hne : c.handed ≠ [] := by
    intro h
    rcases List.take_eq_nil_iff.mp (show d.take sizeofBuf = [] from h) with h | h
    · exact absurd h (by decide)
    · exact hdne h
  -- the receiver's own specification, on this datagram
  obtain ⟨ls, heq, hlen, hstr⟩ := Recvline.recvHandler_spec s.recv.soc hi.carries c hne
    (fun h => hnul (List.mem_of_mem_take h))
    (hfit _ hi.carries.2)
  rw [quit_eq_nil c hnul hlast, List.append_nil, hi.state, foldl_afterLine_default] at heq
  have hin : received s.toRecv = c.handed ++ received ds := by
    rw [hds]
    rfl
  let out := lineEvents stateDefault (lines lf (rest lf delivered ++ c.handed))
  refine ⟨⟨⟨stateDefault, ls, s.recv.soc, s.recv.info⟩, !out.contains .loopexit, !out.contains .eventDel, s.sending,
    s.toSend, ds, s.events ++ out, s.outputs⟩, delivered ++ c.handed, ?_, ?_⟩
  · have heq' : Recvline.recvHandler s.recv.soc buf (.packet s.recv.info d) s.recv = _ := heq
    simp only [step, hserve, hds, heq', Option.bind_eq_bind, Option.bind_some]
    rfl
  · -- what was in flight is delivered now, so that the stream as a whole stays
    refine ⟨hi.toSend, ?_, ⟨hlen, ?_⟩, rfl, ?_, ?_, ?_⟩
    · intro x hx
      exact hi.toRecv x (by rw [hds]; exact List.mem_cons_of_mem d hx)
    · rw [rest_append]
      exact hstr
    · show reported (s.events ++ out) = _
      rw [reported_append, hi.done, reported_lineEvents, lines_append delivered]
    · show Text.lines lf (delivered ++ c.handed ++ received ds) = _
      rw [List.append_assoc, ← hin]
      exact hi.lines
    · intro hall
      show delivered ++ c.handed ++ received ds = _
      rw [List.append_assoc, ← hin]
      exact hi.exact hall

theorem inv_step {s : Net} {delivered : List UInt8} (hi : Inv s delivered) (a : Act) (hok : StepOk s a) :
    ∃ s' delivered', step s a = some s' ∧ Inv s' delivered' := by
  cases a with
  | typed buf line =>
      obtain ⟨s', hs, hi'⟩ := inv_typed hi buf line hok
      exact ⟨s', delivered, hs, hi'⟩
  | exec buf line popen =>
      obtain ⟨s', hs, hi'⟩ := inv_exec hi buf line popen hok
      exact ⟨s', delivered, hs, hi'⟩
  | deliver buf => exact inv_deliver hi buf hok

/-- **Run lemma.** -/
theorem inv_run (as : List Act) {s : Net} {delivered : List UInt8} (hi : Inv s delivered) (hok : RunOk s as) :
    ∃ s' delivered', run as s = some s' ∧ Inv s' delivered' := by
  induction as generalizing s delivered with
  | nil => exact ⟨s, delivered, rfl, hi⟩
  | cons a as ih =>
      obtain ⟨hstep, hrest⟩ := hok
      obtain ⟨s1, d1, h1, hi1⟩ := inv_step hi a hstep
      obtain ⟨s2, d2, h2, hi2⟩ := ih hi1 (hrest s1 h1)
      exact ⟨s2, d2, by rw [run, h1, Option.bind_some, h2], hi2⟩

theorem Inv.faithful {s : Net} {delivered : List UInt8} (hi : Inv s delivered) : Faithful s := by
  constructor
  · rw [hi.done, ← hi.lines, lines_append]
    exact List.prefix_append _ _
  · intro hnil
    have h := hi.lines
    rw [hnil, show received [] = [] from rfl, List.append_nil] at h
    rw [hi.done, h]

theorem RunOk.take {s : Net} {as : List Act} (h : RunOk s as) (k : Nat) : RunOk s (as.take k) := by
  induction as generalizing s k with
  | nil => simpa using h
  | cons a as ih =>
      cases k with
      | zero => trivial
      | succ k => exact ⟨h.1, fun s' hs' => ih (h.2 s' hs') k⟩

/-- **Runs that are faithful.** In a run whose steps all meet their condition nothing undefined happens,
    and every state reached is faithful, whatever the interleaving and the stale stack contents. -/
theorem run_faithful (soc : Int) (info : List UInt8) (as : List Act) (hok : RunOk (start soc info) as)
    (k : Nat) : ∃ s, run (as.take k) (start soc info) = some s ∧ Faithful s := by
  obtain ⟨s, delivered, hrun, hi⟩ := inv_run (as.take k) (inv_start soc info) (hok.take k)
  exact ⟨s, hrun, hi.faithful⟩

/-- Two commands: each line typed, run, and its output received before the next. -/
def twoCommands (out₁ out₂ : List UInt8) : List Act :=
  [.typed (List.replicate 256 0) (chars ['a', '\n']),
   .exec (List.replicate 512 0) (List.replicate 1024 0) (some out₁), .deliver (List.replicate 512 0),
   .typed (List.replicate 256 0) (chars ['b', '\n']),
   .exec (List.replicate 512 0) (List.replicate 1024 0) (some out₂), .deliver (List.replicate 512 0)]

theorem length_twoCommands (out₁ out₂ : List UInt8) : (twoCommands out₁ out₂).length = 6 := rfl

/-- The second output completes no line. -/
theorem run_faithful_twoCommands :
    ∃ s, run (twoCommands [120, lf, 122] [121]) (start 3 [1]) = some s ∧ reported s.events = [[120]] := by
  obtain ⟨s, hrun, hf⟩ := run_faithful 3 [1] (twoCommands [120, lf, 122] [121]) (by decide +kernel) 6
  rw [List.take_of_length_le (Nat.le_of_eq (length_twoCommands _ _))] at hrun
  have hobs : (run (twoCommands [120, lf, 122] [121]) (start 3 [1])).map
      (fun s => (s.toRecv, s.outputs)) = some ([], [[120, lf, 122], [121]]) := by
    decide +kernel
  rw [hrun, Option.map_some] at hobs
  obtain ⟨hnil, houts⟩ := Prod.mk.inj (Option.some.inj hobs)
  refine ⟨s, hrun, ?_⟩
  rw [hf.2 hnil, houts]
  decide

/-- **A run that is not**: the marker of the first output starts the line of the second. -/
theorem run_marker_in_line :
    ∃ s, run (twoCommands [120, lf] [121, lf]) (start 3 [1]) = some s
      ∧ s.toRecv = [] ∧ s.outputs = [[120, lf], [121, lf]]
      ∧ reported s.events = [[120], [eofChar, 121]] ∧ ¬ Faithful s := by
  obtain ⟨s, hrun⟩ : ∃ s, run (twoCommands [120, lf] [121, lf]) (start 3 [1]) = some s :=
    Option.isSome_iff_exists.mp (by decide +kernel)
  have hobs : (run (twoCommands [120, lf] [121, lf]) (start 3 [1])).map
      (fun s => (s.toRecv, s.outputs, reported s.events))
        = some ([], [[120, lf], [121, lf]], [[120], [eofChar, 121]]) := by
    decide +kernel
  rw [hrun, Option.map_some] at hobs
  simp only [Option.some.injEq, Prod.mk.injEq] at hobs
  obtain ⟨hnil, houts, hrep⟩ := hobs
  refine ⟨s, hrun, hnil, houts, hrep, ?_⟩
  intro hf
  have h := hf.2 hnil
  rw [houts, hrep] at h
  exact absurd h (by decide)

end Sendline
end Line
end CSamples
