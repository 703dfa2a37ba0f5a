import CSamples.Socket.RecvHandler
import CSamples.Line.Datagrams

/-!
# `Network.Receiver` — the UDP receivers and how long they listen

`recv_handler` of `network/receiver/receiver.c` (and of `recv_handler.c` beside it, which is the same) is the
socket server's handler with `recvfrom` and `sendto` in place of `recv` and `send`: it still takes an empty
message for the end of a stream. Only `shutdown` is meant to end such a receiver.

## Contents
- **Model.** `recvHandler` over the same `mystrlcat` and line cut; `run` is any number of datagrams.
- **One call.** `recvHandler_open_iff`.
- **Whole runs.** `run_open_iff`; `receivers_open_iff` says the same of this receiver and of `recvline`.
-/

namespace CSamples
namespace Network
namespace Receiver

open C Socket

/-- What `recvfrom` does: it fails, or a datagram arrives (the call stores what fits its buffer). -/
inductive Recvfrom where
  | error
  | packet (datagram : List UInt8)

/-- What a call does. -/
inductive Op where
  | sendto (reply : List UInt8)
  | eventDel
  | freeEv
  | close
  | loopexit
  deriving DecidableEq

/-- `recv_handler`, with the array `buf` as it finds it, what `recvfrom` does, and whether `sendto` fails. -/
def recvHandler (buf : Mem) (r : Recvfrom) (sendtoFails : Bool) : Option (List Op) :=
  match r with
  | .error => some [.eventDel, .freeEv, .close]
  | .packet datagram =>
      let received := datagram.take sizeofBuf
      if received.length = 0 then some [.eventDel, .close]
      else do
        let buf ← blit buf 0 received
        let buf ← store buf received.length 0
        let buf ← cutLine buf
        let stop ← strEq buf shutdown
        if stop then some [.eventDel, .close, .loopexit]
        else
          let (buf, _) ← mystrlcat buf (ok ++ [0]) sizeofBuf
          let reply ← strAt buf 0
          some (if sendtoFails then [.sendto reply, .eventDel, .close] else [.sendto reply])

/-- One delivery: the stale content of the stack buffer, the datagram, and whether its answer fails. -/
structure Call where
  buf         : Mem
  datagram    : List UInt8
  sendtoFails : Bool
  size        : buf.length = sizeofBuf

/-- The bytes `recvfrom` hands over. -/
def Call.received (c : Call) : List UInt8 := c.datagram.take sizeofBuf

/-- Any number of calls, in order. -/
def run : List Call → Option (List Op)
  | []      => some []
  | c :: cs => do
      let ops ← recvHandler c.buf (.packet c.datagram) c.sendtoFails
      let ops' ← run cs
      some (ops ++ ops')

/-- The event is registered and the socket open: nothing removed the one or closed the other. -/
def Open (ops : List Op) : Prop := .eventDel ∉ ops ∧ .close ∉ ops

theorem open_append_iff {os ps : List Op} : Open (os ++ ps) ↔ Open os ∧ Open ps := by
  simp only [Open, List.mem_append, not_or]
  exact and_and_and_comm

/-! ## One call -/

/-- What the socket server's handler does with the same message, as this one does it. -/
def ofOutcome (o : Outcome) : List Op :=
  (match o.sent with
    | some reply => [.sendto reply]
    | none       => [])
  ++ (if o.closed then [.eventDel, .close] else []) ++ (if o.loopexit then [.loopexit] else [])

/-- **The handler of the stream server, on a datagram.** -/
theorem recvHandler_eq (buf : Mem) (datagram : List UInt8) (sendtoFails : Bool) :
    recvHandler buf (.packet datagram) sendtoFails
      = (Socket.recvHandler buf (.data (datagram.take sizeofBuf)) sendtoFails).map ofOutcome := by
  unfold recvHandler Socket.recvHandler
  dsimp only
  split
  · rfl
  · simp only [Option.bind_eq_bind, Option.map_bind, Function.comp_def]
    refine Option.bind_congr (fun b1 _ => Option.bind_congr (fun b2 _ => Option.bind_congr (fun b3 _ =>
      Option.bind_congr (fun stop _ => ?_))))
    cases stop with
    | true => rfl
    | false =>
        simp only [Bool.false_eq_true, if_false, Option.map_bind, Function.comp_def]
        cases sendtoFails <;> rfl

/-- **One datagram** that is not the word to stop: it leaves the receiver listening unless it is empty, fills the
    array, or cannot be answered. -/
theorem recvHandler_open_iff (c : Call) (hfirst : firstLine c.received ≠ shutdown) :
    (∃ ops, recvHandler c.buf (.packet c.datagram) c.sendtoFails = some ops ∧ Open ops)
      ↔ c.received ≠ [] ∧ c.received.length < sizeofBuf ∧ c.sendtoFails = false := by
  have hdef : c.datagram.take sizeofBuf = c.received := rfl
  rw [recvHandler_eq, hdef]
  by_cases hne : c.received = []
  · -- `recv:EOF`
    rw [hne]
    simp [Socket.recvHandler, ofOutcome, Open]
  rcases Nat.lt_or_ge c.received.length sizeofBuf with hlt | hge
  · rw [recvHandler_data c.size hne hlt, if_neg hfirst]
    cases c.sendtoFails with
    | true => simp [ofOutcome, Open]
    | false => simp [ofOutcome, Open, hne, hlt]
  · rw [recvHandler_full c.size hge]
    simp [Nat.not_lt.mpr hge]

/-! ## Whole runs -/

theorem run_cons_open_iff (c : Call) (cs : List Call) :
    (∃ ops, run (c :: cs) = some ops ∧ Open ops)
      ↔ (∃ ops, recvHandler c.buf (.packet c.datagram) c.sendtoFails = some ops ∧ Open ops)
        ∧ ∃ ops, run cs = some ops ∧ Open ops := by
  constructor
  · rintro ⟨ops, hrun, ho⟩
    rw [run, Option.bind_eq_bind, Option.bind_eq_some_iff] at hrun
    obtain ⟨o1, h1, hrun⟩ := hrun
    rw [Option.bind_eq_some_iff] at hrun
    obtain ⟨o2, h2, hrun⟩ := hrun
    rw [← Option.some.inj hrun, open_append_iff] at ho
    exact ⟨⟨o1, h1, ho.1⟩, o2, h2, ho.2⟩
  · rintro ⟨⟨o1, h1, ho1⟩, o2, h2, ho2⟩
    exact ⟨o1 ++ o2, by rw [run, h1, h2]; rfl, open_append_iff.mpr ⟨ho1, ho2⟩⟩

/-- A whole run, by induction on its datagrams. -/
theorem run_open_iff (cs : List Call) (hfirst : ∀ c ∈ cs, firstLine c.received ≠ shutdown) :
    (∃ ops, run cs = some ops ∧ Open ops)
      ↔ ∀ c ∈ cs, c.received ≠ [] ∧ c.received.length < sizeofBuf ∧ c.sendtoFails = false := by
  induction cs with
  | nil => simp [run, Open]
  | cons c cs ih =>
      rw [run_cons_open_iff, recvHandler_open_iff c (hfirst c (by simp)),
        ih (fun x hx => hfirst x (List.mem_cons_of_mem c hx)), List.forall_mem_cons]

/-- **The UDP receivers listen on after every datagram** exactly under these conditions on the datagrams. For
    `receiver`, to which none is sent whose first line is the word to stop: none is empty or fills the array, and
    each can be answered. For `recvline`: none is empty, none spells the word together with what the array held
    before, and the line buffer holds them. -/
theorem receivers_open_iff (cs : List Call) (hfirst : ∀ c ∈ cs, firstLine c.received ≠ shutdown) (soc : Int)
    (ls : List Line.Recvline.Call) :
    ((∀ k, ∃ ops, run (cs.take k) = some ops ∧ Open ops)
        ↔ ∀ c ∈ cs, c.received ≠ [] ∧ c.received.length < sizeofBuf ∧ c.sendtoFails = false) ∧
    ((∀ k, ∃ data out, Line.Recvline.run soc (ls.take k) (Line.Recvline.init soc) = some (data, out)
          ∧ Line.Recvline.Open out)
        ↔ Line.Recvline.Bounded [] ls ∧ ∀ c ∈ ls, c.handed ≠ [] ∧ ¬ c.Quits) := by
  constructor
  · constructor
    · intro h
      have hall := h cs.length
      rw [List.take_length] at hall
      exact (run_open_iff cs hfirst).mp hall
    · intro h k
      refine (run_open_iff (cs.take k) ?_).mpr ?_
      · exact fun c hc => hfirst c (List.mem_of_mem_take hc)
      · exact fun c hc => h c (List.mem_of_mem_take hc)
  · exact Line.Recvline.recvline_open_iff soc ls

theorem length_zeros : (List.replicate 512 0 : Mem).length = sizeofBuf := List.length_replicate

/-- The datagram `a`, and another with a line and the beginning of the next, for each program. -/
def letterCall : Call := ⟨List.replicate 512 0, [0x61], false, length_zeros⟩
def lineCall : Call := ⟨List.replicate 512 0, [0x62, lf, 0x63], false, length_zeros⟩
def letterLine : Line.Recvline.Call := ⟨List.replicate 512 0, [1], [0x61], Line.Recvline.length_zeros⟩
def endLine : Line.Recvline.Call := ⟨List.replicate 512 0, [1], [0x62, lf, 0x63], Line.Recvline.length_zeros⟩

theorem receivers_open_two :
    (∀ k, ∃ ops, run ([letterCall, lineCall].take k) = some ops ∧ Open ops) ∧
    ∀ k, ∃ data out, Line.Recvline.run 3 ([letterLine, endLine].take k) (Line.Recvline.init 3) = some (data, out)
      ∧ Line.Recvline.Open out :=
  have h := receivers_open_iff [letterCall, lineCall] (by decide +kernel) 3 [letterLine, endLine]
  ⟨h.1.mpr (by decide +kernel), h.2.mpr
    ⟨⟨by decide, by decide +kernel, trivial⟩, by unfold Line.Recvline.Call.Quits; decide +kernel⟩⟩

/-- The empty datagram. -/
def emptyCall : Call := ⟨List.replicate 512 0, [], false, length_zeros⟩
def emptyLine : Line.Recvline.Call := ⟨List.replicate 512 0, [1], [], Line.Recvline.length_zeros⟩

/-- **It ends both programs' listening.** -/
theorem receivers_empty_datagram :
    firstLine emptyCall.received ≠ shutdown ∧ run [emptyCall] = some [.eventDel, .close] ∧
    firstLine emptyLine.handed ≠ shutdown ∧ Line.Recvline.run 3 [emptyLine] (Line.Recvline.init 3)
      = some (Line.Recvline.init 3, [.eventDel, .close]) := by
  refine ⟨?_, rfl, ?_, rfl⟩
  · decide
  · decide

end Receiver
end Network
end CSamples
