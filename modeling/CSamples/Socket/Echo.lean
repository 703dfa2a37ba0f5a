import CSamples.Socket.RecvHandler

/-!
# `Socket.Echo` — a client and the socket server

The client of `socket/client/client.c` sends each line typed at it without its terminator; the server takes what
one `recv` returns for one message. Between them is a stream of bytes that keeps no borders.

## Contents
- **Model.** `readStdin`, the client's handler; `Step`, the moves of both parties over the bytes in flight.
- **Runs.** `Run.sent`, nothing is lost or reordered; `Run.replies`, what the server made of what it received.
- **`answers_iff`**: every line is answered exactly when every `recv` returns one line.
-/

namespace CSamples
namespace Socket

open C

/-! ## The client -/

/-- `sizeof(buf)` in `read_stdin` -/
def sizeofLine : Nat := 256

/-- `"exit"` -/
def exitLine : List UInt8 := ['e', 'x', 'i', 't'].map ch

/-- `if(buf[len - 1] == '\n'){ buf[len - 1] = '\0'; } else { buf[len] = '\0'; }` -/
def terminate (buf : Mem) (len : Nat) : Option Mem := do
  let b ← load buf (len - 1)
  if b = lf then store buf (len - 1) 0 else store buf len 0

/-- `read_stdin`, with the array `buf` as it finds it, what `read` does, and whether `send` fails: the bytes it sends,
    and whether it leaves the event loop. -/
def readStdin (buf : Mem) (i : Input) (sendFails : Bool) : Option (Option (List UInt8) × Bool) :=
  match i with
  | .error      => some (none, false)
  | .data bytes =>
      if bytes.length = 0 then some (none, false)
      else do
        let buf ← blit buf 0 bytes
        let buf ← terminate buf bytes.length
        let str ← strAt buf 0
        let stop ← strEq buf exitLine
        some (some str, sendFails || stop)

/-- A line a user types: not empty, at most 250 printable bytes, not `shutdown`. -/
structure Line where
  bytes       : List UInt8
  nonempty    : bytes ≠ []
  short       : bytes.length ≤ 250
  printable   : ∀ b ∈ bytes, 0x20 ≤ b ∧ b ≤ 0x7E
  notShutdown : bytes ≠ shutdown

/-- The lines the client reads: it leaves at `exit`. -/
def typed : List Line → List Line
  | []      => []
  | l :: ls => if l.bytes = exitLine then [l] else l :: typed ls

/-- `<line>:OK` CR LF -/
def answer (bytes : List UInt8) : List UInt8 := bytes ++ ok

/-! ## Both parties -/

/-- The server: waiting for the next message, gone (or its connection is), or past an access outside its array. -/
inductive Server where
  | running
  | stopped
  | undefined
  deriving DecidableEq

/-- The lines to be typed, whether the client runs, the bytes in flight, the server and the replies it sent. -/
structure State where
  lines   : List Line
  client  : Bool
  stream  : List UInt8
  server  : Server
  replies : List (List UInt8)

/-- Before the first line. -/
def State.init (ls : List Line) : State := ⟨ls, true, [], .running, []⟩

/-- What a call of `recv_handler` makes of the server. -/
def State.handled (s : State) (stream : List UInt8) : Option Outcome → State
  | none   => { s with stream := stream, server := .undefined }
  | some o => { s with
      stream  := stream
      server  := if o.closed then .stopped else .running
      replies := s.replies ++ o.sent.toList }

/-- A move, with the bytes a `recv` returned: the client sends the next line; the server receives any number of
    bytes that are in flight; or it sees the end of the stream, once the client is gone. -/
inductive Step : State → List (List UInt8) → State → Prop
  | type {s : State} {l : Line} {ls : List Line} {buf : Mem} {sent : List UInt8} {stop : Bool}
      (hclient : s.client = true) (hlines : s.lines = l :: ls) (hbuf : buf.length = sizeofLine)
      (hread : readStdin buf (.data (l.bytes ++ [lf])) false = some (some sent, stop)) :
      Step s [] { s with lines := ls, client := !stop, stream := s.stream ++ sent }
  | recv {s : State} {buf : Mem} {n : Nat} (hserver : s.server = .running) (hbuf : buf.length = sizeofBuf)
      (hpos : 0 < n) (hn : n ≤ sizeofBuf) (hle : n ≤ s.stream.length) :
      Step s [s.stream.take n] (s.handled (s.stream.drop n) (recvHandler buf (.data (s.stream.take n)) false))
  | eof {s : State} {buf : Mem} (hserver : s.server = .running) (hbuf : buf.length = sizeofBuf)
      (hclient : s.client = false) (hstream : s.stream = []) :
      Step s [] (s.handled [] (recvHandler buf (.data []) false))

/-- Any number of moves, with what the server received. -/
inductive Run : State → List (List UInt8) → State → Prop
  | refl (s : State) : Run s [] s
  | snoc {s s' s'' : State} {cs ds : List (List UInt8)} (hrun : Run s cs s') (hstep : Step s' ds s'') :
      Run s (cs ++ ds) s''

/-- Nothing more will happen: all lines are read, and received if the server still runs. -/
def State.Final (s : State) : Prop :=
  (s.lines = [] ∨ s.client = false) ∧ (s.stream = [] ∨ s.server = .undefined ∨ s.server = .stopped)

/-! ## One move -/

theorem Line.not_mem {l : Line} {b : UInt8} (hb : b ∈ l.bytes) : b ≠ 0 ∧ b ≠ cr ∧ b ≠ lf := by
  obtain ⟨hge, -⟩ := l.printable b hb
  refine ⟨?_, ?_, ?_⟩
  · rintro rfl
    exact absurd hge (by decide)
  · rintro rfl
    exact absurd hge (by decide)
  · rintro rfl
    exact absurd hge (by decide)

/-- The client sends the line it reads, and leaves at `exit`. -/
theorem readStdin_line {buf : Mem} (hbuf : buf.length = sizeofLine) (l : Line) :
    readStdin buf (.data (l.bytes ++ [lf])) false = some (some l.bytes, decide (l.bytes = exitLine)) := by
  have hshort := l.short
  have hnul : 0 ∉ l.bytes := fun h => (Line.not_mem h).1 rfl
  have hblit : blit buf 0 (l.bytes ++ [lf]) = some (l.bytes ++ lf :: buf.drop (l.bytes.length + 1)) := by
    rw [blit_eq_some (by simp [hbuf, sizeofLine]; omega)]
    simp
  have hterm : terminate (l.bytes ++ lf :: buf.drop (l.bytes.length + 1)) (l.bytes ++ [lf]).length =
      some (l.bytes ++ 0 :: buf.drop (l.bytes.length + 1)) := by
    rw [terminate, load_append _ _ _ (by simp), Option.bind_eq_bind, Option.bind_some, if_pos rfl,
      store_append _ _ _ _ (by simp)]
  rw [readStdin, if_neg (by simp), hblit]
  simp only [Option.bind_eq_bind, Option.bind_some]
  rw [hterm, Option.bind_some, strAt, List.drop_zero, cstr_append_nul hnul, Option.bind_some,
    strEq_append_nul hnul (by decide)]
  simp

/-- The reply to a message without a line end. -/
def reply (msg : List UInt8) : List UInt8 := (answer msg).take (sizeofBuf - 1)

theorem firstLine_eq {msg : List UInt8} (h : ∀ b ∈ msg, b ≠ 0 ∧ b ≠ cr ∧ b ≠ lf) : firstLine msg = msg := by
  induction msg with
  | nil => rfl
  | cons b msg ih =>
      obtain ⟨h₁, h₂, h₃⟩ := h b (List.mem_cons_self ..)
      have htail := ih fun c hc => h c (List.mem_cons_of_mem b hc)
      rw [firstLine, List.takeWhile_cons_of_pos (by simp [h₁, h₂, h₃])]
      exact congrArg (b :: ·) htail

/-- What the server makes of a message without a line end. -/
theorem handled_recv (s : State) {buf : Mem} (hbuf : buf.length = sizeofBuf) {msg : List UInt8}
    (hplain : ∀ b ∈ msg, b ≠ 0 ∧ b ≠ cr ∧ b ≠ lf) (hne : msg ≠ []) (hle : msg.length ≤ sizeofBuf) (stream : List UInt8) :
    s.handled stream (recvHandler buf (.data msg) false) =
      if msg.length = sizeofBuf then { s with stream := stream, server := .undefined }
      else if msg = shutdown then { s with stream := stream, server := .stopped }
      else { s with stream := stream, server := .running, replies := s.replies ++ [reply msg] } := by
  by_cases hfull : msg.length = sizeofBuf
  · rw [recvHandler_full hbuf (Nat.le_of_eq hfull.symm), if_pos hfull]
    rfl
  · rw [recvHandler_data hbuf hne (by omega), if_neg hfull, firstLine_eq hplain]
    by_cases hstop : msg = shutdown
    · rw [if_pos hstop, if_pos hstop]
      simp [State.handled]
    · rw [if_neg hstop, if_neg hstop]
      simp [State.handled, reply, answer]

/-! ## Runs -/

/-- What holds after any run from the start, `cs` being what the server received. -/
structure Inv (ls : List Line) (cs : List (List UInt8)) (s : State) : Prop where
  sent    : ∃ done, typed ls = done ++ (if s.client then typed s.lines else []) ∧
              cs.flatten ++ s.stream = done.flatMap Line.bytes
  replies : ∃ good bad, cs = good ++ bad ∧ s.replies = good.map reply ∧
              ((bad = [] ∧ (s.server = .running ∨ s.client = false ∧ s.stream = [])) ∨
                ∃ c, bad = [c] ∧ s.server ≠ .running ∧ (c.length = sizeofBuf ∨ c = shutdown))

theorem inv_init (ls : List Line) : Inv ls [] (State.init ls) :=
  ⟨⟨[], rfl, rfl⟩, [], [], rfl, rfl, .inl ⟨rfl, .inl rfl⟩⟩

/-- Bytes in flight are bytes of lines. -/
theorem Inv.plain {ls : List Line} {cs : List (List UInt8)} {s : State} (h : Inv ls cs s) :
    ∀ b ∈ s.stream, b ≠ 0 ∧ b ≠ cr ∧ b ≠ lf := by
  obtain ⟨done, -, hsent⟩ := h.sent
  intro b hb
  have hmem : b ∈ done.flatMap Line.bytes := hsent ▸ List.mem_append_right _ hb
  obtain ⟨l, -, hl⟩ := List.mem_flatMap.mp hmem
  exact Line.not_mem hl

/-- **One move** keeps the invariant. -/
theorem Inv.step {ls : List Line} {cs ds : List (List UInt8)} {s s' : State} (h : Inv ls cs s) (hstep : Step s ds s') :
    Inv ls (cs ++ ds) s' := by
  have hplain := h.plain
  obtain ⟨⟨done, hdone, hsent⟩, good, bad, rfl, hreplies, hbad⟩ := h
  cases hstep with
  | @type l ls' buf sent stop hclient hlines hbuf hread =>
      rw [readStdin_line hbuf, Option.some.injEq, Prod.mk.injEq, Option.some.injEq] at hread
      obtain ⟨rfl, rfl⟩ := hread
      rw [if_pos hclient, hlines, typed] at hdone
      rw [List.append_nil]
      refine ⟨⟨done ++ [l], ?_, ?_⟩, good, bad, rfl, hreplies, ?_⟩
      · rw [hdone]
        by_cases hexit : l.bytes = exitLine
        · simp [hexit]
        · simp [hexit]
      · rw [← List.append_assoc, hsent]
        simp
      · -- a server that is gone at the end of the stream has no client any more
        refine hbad.imp_left fun ⟨hnil, hup⟩ => ⟨hnil, hup.imp_right fun hdown => ?_⟩
        rw [hclient] at hdown
        exact Bool.noConfusion hdown.1
  | @recv buf n hserver hbuf hpos hn hle =>
      have hlen : (s.stream.take n).length = n := by rw [List.length_take, Nat.min_eq_left hle]
      have hne : s.stream.take n ≠ [] := List.ne_nil_of_length_pos (by omega)
      have hbad' : bad = [] := by
        rcases hbad with ⟨hnil, -⟩ | ⟨_, -, hdown, -⟩
        · exact hnil
        · exact absurd hserver hdown
      subst hbad'
      rw [handled_recv s hbuf (fun b hb => hplain b (List.mem_of_mem_take hb)) hne (by omega)]
      have hflat : (good ++ [] ++ [s.stream.take n]).flatten ++ s.stream.drop n = done.flatMap Line.bytes := by
        rw [← hsent]
        simp
      by_cases hfull : (s.stream.take n).length = sizeofBuf
      · rw [if_pos hfull]
        exact ⟨⟨done, hdone, hflat⟩, good, [_], by simp, hreplies, .inr ⟨_, rfl, nofun, .inl hfull⟩⟩
      · rw [if_neg hfull]
        by_cases hstop : s.stream.take n = shutdown
        · rw [if_pos hstop]
          exact ⟨⟨done, hdone, hflat⟩, good, [_], by simp, hreplies, .inr ⟨_, rfl, nofun, .inr hstop⟩⟩
        · rw [if_neg hstop]
          exact ⟨⟨done, hdone, hflat⟩, good ++ [s.stream.take n], [], by simp, by simp [hreplies], .inl ⟨rfl, .inl rfl⟩⟩
  | @eof buf hserver hbuf hclient hstream =>
      have hbad' : bad = [] := by
        rcases hbad with ⟨hnil, -⟩ | ⟨_, -, hdown, -⟩
        · exact hnil
        · exact absurd hserver hdown
      subst hbad'
      rw [List.append_nil]
      exact ⟨⟨done, hdone, by rw [← hsent, hstream]; rfl⟩, good, [], rfl, by simpa [State.handled, recvHandler] using hreplies,
        .inl ⟨rfl, .inr ⟨hclient, rfl⟩⟩⟩

theorem inv_run {ls : List Line} {cs : List (List UInt8)} {s : State} (hrun : Run (State.init ls) cs s) :
    Inv ls cs s := by
  generalize hs : State.init ls = s₀ at hrun
  induction hrun with
  | refl => exact hs ▸ inv_init ls
  | snoc _ hstep ih => exact ih.step hstep

/-! ## Answers -/

/-- A reply that is the answer to a line is the reply to that line. -/
theorem eq_of_reply {c : List UInt8} {l : Line} (h : reply c = answer l.bytes) : c = l.bytes := by
  have hshort := l.short
  have hlen := congrArg List.length h
  simp only [reply, answer, List.length_take, List.length_append, sizeofBuf, show ok.length = 5 from rfl] at hlen
  rw [reply, List.take_of_length_le (by simp [answer, sizeofBuf, show ok.length = 5 from rfl]; omega)] at h
  exact List.append_cancel_right h

theorem reply_line (l : Line) : reply l.bytes = answer l.bytes := by
  have hshort := l.short
  exact List.take_of_length_le (by simp [answer, sizeofBuf, show ok.length = 5 from rfl]; omega)

/-- Messages that are lines leave the server running. -/
theorem bad_eq_nil {ls : List Line} {good bad : List (List UInt8)} (h : good ++ bad <+: ls.map Line.bytes)
    (hbad : bad = [] ∨ ∃ c, bad = [c] ∧ (c.length = sizeofBuf ∨ c = shutdown)) : bad = [] := by
  rcases hbad with hnil | ⟨c, rfl, hc⟩
  · exact hnil
  · obtain ⟨l, -, rfl⟩ := List.mem_map.mp (h.subset (List.mem_append_right good (List.mem_singleton_self c)))
    have hshort := l.short
    rcases hc with hc | hc
    · exact absurd hc (by unfold sizeofBuf; omega)
    · exact absurd hc l.notShutdown

/-- Replies that are the answers to lines are the replies to these lines. -/
theorem eq_of_replies {ls : List Line} {good : List (List UInt8)}
    (h : good.map reply = ls.map fun l => answer l.bytes) : good = ls.map Line.bytes := by
  induction ls generalizing good with
  | nil => simpa using h
  | cons l ls ih =>
      cases good with
      | nil => simp at h
      | cons c good =>
          rw [List.map_cons, List.map_cons, List.cons.injEq] at h
          rw [List.map_cons, eq_of_reply h.1, ih h.2]

section Answers

variable {ls : List Line} {cs : List (List UInt8)} {s : State}

/-- As long as every `recv` returned one line, these are answered, and the server runs until the client is gone. -/
theorem Inv.replies_eq (h : Inv ls cs s) (hpre : cs <+: (typed ls).map Line.bytes) :
    s.replies = cs.map answer ∧ (s.server = .running ∨ s.client = false ∧ s.stream = []) := by
  obtain ⟨good, bad, rfl, hreplies, hbad⟩ := h.replies
  obtain rfl := bad_eq_nil hpre (hbad.imp And.left fun ⟨c, hc, _, hlast⟩ => ⟨c, hc, hlast⟩)
  constructor
  · rw [List.append_nil] at hpre ⊢
    rw [hreplies]
    refine List.map_congr_left fun c hc => ?_
    obtain ⟨l, -, rfl⟩ := List.mem_map.mp (hpre.subset hc)
    exact reply_line l
  · rcases hbad with ⟨-, hup⟩ | ⟨c, hc, -⟩
    · exact hup
    · exact absurd hc (List.cons_ne_nil _ _).symm

/-- When nothing more will happen, these are all lines. -/
theorem Inv.all_received (h : Inv ls cs s) (hfinal : s.Final) (hpre : cs <+: (typed ls).map Line.bytes) :
    cs = (typed ls).map Line.bytes := by
  obtain ⟨done, hdone, hsent⟩ := h.sent
  -- all lines are sent and received
  have hstream : s.stream = [] := by
    rcases (h.replies_eq hpre).2 with hup | hdown
    · rcases hfinal.2 with hnil | hdown | hdown
      · exact hnil
      · rw [hup] at hdown
        exact Server.noConfusion hdown
      · rw [hup] at hdown
        exact Server.noConfusion hdown
    · exact hdown.2
  have hdone' : typed ls = done := by
    rcases hfinal.1 with hnil | hdown
    · rw [hdone, hnil, typed, ite_self, List.append_nil]
    · rw [hdone, hdown, if_neg Bool.false_ne_true, List.append_nil]
  obtain ⟨t, ht⟩ := hpre
  have hflat : cs.flatten ++ t.flatten = cs.flatten ++ [] := by
    rw [← List.flatten_append, ht, ← List.flatMap_def, hdone', ← hsent, hstream]
  -- a line has a byte at least
  cases t with
  | nil => rwa [List.append_nil] at ht
  | cons c t =>
      have hnil := List.append_cancel_left hflat
      rw [List.flatten_cons] at hnil
      have hc : c = [] := (List.append_eq_nil_iff.mp hnil).1
      obtain ⟨l, -, rfl⟩ := List.mem_map.mp (ht ▸ List.mem_append_right cs (List.mem_cons_self ..))
      exact absurd hc l.nonempty

/-- Where all lines are answered, nothing was left for another message. -/
theorem Inv.prefix_of_replies (h : Inv ls cs s) (hall : s.replies = (typed ls).map fun l => answer l.bytes) :
    cs <+: (typed ls).map Line.bytes := by
  obtain ⟨⟨done, hdone, hsent⟩, good, bad, rfl, hreplies, hbad⟩ := h
  have hgood := eq_of_replies (hreplies.symm.trans hall)
  have hnil : bad = [] := by
    rcases hbad with ⟨hnil, -⟩ | ⟨c, rfl, -, hc⟩
    · exact hnil
    · have hpos : 0 < c.length := by
        rcases hc with hc | rfl
        · rw [hc]
          decide
        · decide
      have hlen := congrArg List.length hsent
      have hlen' := congrArg (fun ls => (ls.flatMap Line.bytes).length) hdone
      rw [hgood, List.flatten_append, ← List.flatMap_def] at hlen
      simp only [List.flatMap_append, List.length_append, List.flatten_cons, List.flatten_nil, List.append_nil] at hlen hlen'
      omega
  rw [hnil, List.append_nil]
  exact hgood ▸ List.prefix_rfl

end Answers

/-- **Answers**: in every run, as long as every `recv` returned one line these lines are answered, each with its own
    text; and when nothing more will happen, all lines are answered exactly in the runs in which every `recv`
    returned one line. -/
theorem answers_iff (ls : List Line) {cs : List (List UInt8)} {s : State} (hrun : Run (State.init ls) cs s) :
    (cs <+: (typed ls).map Line.bytes → s.replies = cs.map answer) ∧
      (s.Final → (s.replies = (typed ls).map (fun l => answer l.bytes) ↔ cs <+: (typed ls).map Line.bytes)) := by
  have h := inv_run hrun
  refine ⟨fun hpre => (h.replies_eq hpre).1, fun hfinal => ⟨h.prefix_of_replies, fun hpre => ?_⟩⟩
  rw [(h.replies_eq hpre).1, h.all_received hfinal hpre, List.map_map]
  rfl

/-- `a` and `b`, typed one after the other. -/
def lineA : Line := ⟨[ch 'a'], by decide +kernel, by decide +kernel, by decide +kernel, by decide +kernel⟩
def lineB : Line := ⟨[ch 'b'], by decide +kernel, by decide +kernel, by decide +kernel, by decide +kernel⟩

/-- The client's move for a line other than `exit`. -/
theorem step_type {s : State} {l : Line} {ls : List Line} (hclient : s.client = true) (hlines : s.lines = l :: ls)
    (hexit : l.bytes ≠ exitLine) : Step s [] { s with lines := ls, stream := s.stream ++ l.bytes } := by
  have h := Step.type hclient hlines List.length_replicate
    (@readStdin_line (List.replicate sizeofLine 0) List.length_replicate l)
  rw [decide_eq_false hexit, Bool.not_false, ← hclient] at h
  exact h

/-- The server's move when it receives all that is in flight, and that is no `shutdown`. -/
theorem step_recv {s : State} (hserver : s.server = .running) (hne : s.stream ≠ [])
    (hlen : s.stream.length < sizeofBuf) (hplain : ∀ b ∈ s.stream, b ≠ 0 ∧ b ≠ cr ∧ b ≠ lf)
    (hstop : s.stream ≠ shutdown) :
    Step s [s.stream] { s with stream := [], replies := s.replies ++ [reply s.stream] } := by
  have h := @Step.recv s (List.replicate sizeofBuf 0) s.stream.length hserver List.length_replicate
    (List.length_pos_iff.mpr hne) (Nat.le_of_lt hlen) (Nat.le_refl _)
  rw [List.take_length, List.drop_length, handled_recv s List.length_replicate hplain hne (Nat.le_of_lt hlen),
    if_neg (by omega), if_neg hstop, ← hserver] at h
  exact h

/-- Both lines are sent before the server receives: it takes them for one. -/
theorem run_merged :
    ∃ s, Run (State.init [lineA, lineB]) [[ch 'a', ch 'b']] s ∧ s.Final ∧ s.replies = [answer [ch 'a', ch 'b']] ∧
      s.replies ≠ (typed [lineA, lineB]).map fun l => answer l.bytes := by
  have h₁ := Run.snoc (.refl _) (@step_type (State.init [lineA, lineB]) lineA [lineB] rfl rfl (by decide))
  have h₂ := h₁.snoc (@step_type _ lineB [] rfl rfl (by decide))
  have h₃ := h₂.snoc (@step_recv _ rfl (by decide +kernel) (by decide +kernel) (by decide +kernel) (by decide +kernel))
  exact ⟨_, h₃, ⟨.inl rfl, .inl rfl⟩, rfl, by decide⟩

/-- Two lines, each received before the next one is sent. -/
theorem answers_two :
    ∃ s, Run (State.init [lineA, lineB]) [[ch 'a'], [ch 'b']] s ∧ s.replies = [answer [ch 'a'], answer [ch 'b']] ∧
      (s.Final → s.replies = (typed [lineA, lineB]).map fun l => answer l.bytes) := by
  have h₁ := Run.snoc (.refl _) (@step_type (State.init [lineA, lineB]) lineA [lineB] rfl rfl (by decide))
  have h₂ := h₁.snoc (@step_recv _ rfl (by decide +kernel) (by decide +kernel) (by decide +kernel) (by decide +kernel))
  have h₃ := h₂.snoc (@step_type _ lineB [] rfl rfl (by decide))
  have h₄ := h₃.snoc (@step_recv _ rfl (by decide +kernel) (by decide +kernel) (by decide +kernel) (by decide +kernel))
  have h := answers_iff [lineA, lineB] h₄
  exact ⟨_, h₄, h.1 (by decide), fun hfinal => (h.2 hfinal).mpr (by decide)⟩

end Socket
end CSamples
