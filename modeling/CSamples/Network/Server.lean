import CSamples.Libevent.Evbuffer

/-!
# `Network.Server` — the echo server of `network/server`

`read_callback` of `network/server/server.c`: complete lines are copied to the output buffer, and a remainder
that reached `MAX_LINE` bytes is flushed in pieces of 1024 bytes with a LF behind it.

## Contents
- **Model.** `readCallback` with its two loops, over any `Evbuffer`; `run` is any number of invocations.
- **One call.** `readCallback_spec`: what is removed from the input is what is added to the output, but for
  the LF of a flush; what stays is an unterminated remainder below `MAX_LINE`.
- **Whole runs.** `echo`: the same over every segmentation of every stream, and the lines of the stream when
  no remainder gets that long.
-/

namespace CSamples
namespace Network
namespace Server

open Libevent Text

/-- `#define MAX_LINE 16384` -/
def MAX_LINE : Nat := 16384

/-- `sizeof(buf)` in `read_callback` -/
def sizeofBuf : Nat := 1024

/-- The read watermarks `do_accept` sets: `bufferevent_setwatermark(bev, EV_READ, 0, MAX_LINE)`. -/
def watermark : Nat × Nat := (0, MAX_LINE)

variable {B : Type}

/-- The buffers of a connection, `bufferevent_get_input(bev)` and `bufferevent_get_output(bev)`. -/
structure Conn (B : Type) where
  input  : B
  output : B

/-- One invocation of `read_callback`: the buffers it finds, those it leaves, and whether it flushed. -/
structure Call (B : Type) where
  before  : Conn B
  after   : Conn B
  flushed : Bool

/-! ## The model -/

/-- `while(1){ line = evbuffer_readln(in, &n, EVBUFFER_EOL_LF); if(!line) break; ... }` -/
def readlnLoop (ev : Evbuffer B) : Nat → Conn B → Option (Conn B)
  | 0, _ => none
  | fuel+1, c =>
      match ev.readln c.input with
      | none => some c
      | some (line, input) => readlnLoop ev fuel ⟨input, ev.add (ev.add c.output line) [lf]⟩

/-- `while(evbuffer_get_length(in)){ int n = evbuffer_remove(in, buf, sizeof(buf)); evbuffer_add(out, buf, n); }` -/
def removeLoop (ev : Evbuffer B) : Nat → Conn B → Option (Conn B)
  | 0, _ => none
  | fuel+1, c =>
      if ev.length c.input = 0 then some c
      else
        let (buf, input) := ev.remove c.input sizeofBuf
        removeLoop ev fuel ⟨input, ev.add c.output buf⟩

/-- `read_callback`. Each loop takes at least one byte off the input, which bounds its iterations. -/
def readCallback (ev : Evbuffer B) (c : Conn B) : Option (Conn B × Bool) := do
  let c ← readlnLoop ev (ev.length c.input + 1) c
  if ev.length c.input ≥ MAX_LINE then
    let c ← removeLoop ev (ev.length c.input + 1) c
    some ({ c with output := ev.add c.output [lf] }, true)
  else
    some (c, false)

/-- libevent adds each chunk it read to the input buffer and calls `read_callback`. -/
def run (ev : Evbuffer B) (c : Conn B) : List (List UInt8) → Option (List (Call B) × Conn B)
  | [] => some ([], c)
  | chunk :: chunks => do
      let before : Conn B := { c with input := ev.add c.input chunk }
      let (after, flushed) ← readCallback ev before
      let (calls, last) ← run ev after chunks
      some (⟨before, after, flushed⟩ :: calls, last)

/-- libevent stops reading while the input holds as many bytes as the high watermark. -/
def Suspended (bytes : B → List UInt8) (c : Conn B) : Prop := watermark.2 ≤ (bytes c.input).length

/-- The bytes a call removed from the input buffer. -/
def Call.removed (bytes : B → List UInt8) (c : Call B) : List UInt8 :=
  (bytes c.before.input).take ((bytes c.before.input).length - (bytes c.after.input).length)

/-- The LF a flush adds. -/
def Call.extra (c : Call B) : List UInt8 := if c.flushed then [lf] else []

/-- What a call does: the bytes it removes are the front of the input, it adds them to the output with the LF
    of a flush behind them, and it flushes exactly when the remainder is too long. -/
structure Call.Echoes (bytes : B → List UInt8) (c : Call B) : Prop where
  input   : c.removed bytes ++ bytes c.after.input = bytes c.before.input
  output  : bytes c.after.output = bytes c.before.output ++ (c.removed bytes ++ c.extra)
  flushed : c.flushed = true ↔ MAX_LINE ≤ (rest lf (bytes c.before.input)).length

/-! ## One call -/

section Call

variable {ev : Evbuffer B} {bytes : B → List UInt8}

/-- The first loop copies the complete lines and leaves the remainder. -/
theorem readlnLoop_spec (h : ev.Fifo bytes) (fuel : Nat) (c : Conn B) (hfuel : (bytes c.input).length < fuel) :
    ∃ c', readlnLoop ev fuel c = some c' ∧ bytes c'.input = rest lf (bytes c.input) ∧
      bytes c'.output = bytes c.output ++ (lines lf (bytes c.input)).flatMap (· ++ [lf]) := by
  induction fuel generalizing c with
  | zero => exact absurd hfuel (Nat.not_lt_zero _)
  | succ fuel ih =>
      unfold readlnLoop
      cases hr : ev.readln c.input with
      | none =>
          have hlf := h.readln_none _ hr
          exact ⟨c, rfl, (rest_of_not_mem hlf).symm, by simp [lines_eq_nil_iff.mpr hlf]⟩
      | some p =>
          obtain ⟨line, input⟩ := p
          obtain ⟨hline, hin⟩ := h.readln_some _ _ _ hr
          have hlen : (bytes input).length < fuel := by
            rw [hin, List.length_append, List.length_cons] at hfuel
            omega
          obtain ⟨c', hc', hi, ho⟩ := ih ⟨input, ev.add (ev.add c.output line) [lf]⟩ hlen
          refine ⟨c', hc', ?_, ?_⟩
          · rw [hi, hin, rest_segment]
          · rw [ho, h.add, h.add, hin, lines_segment hline]
            simp

/-- The second loop empties the input. -/
theorem removeLoop_spec (h : ev.Fifo bytes) (fuel : Nat) (c : Conn B) (hfuel : (bytes c.input).length < fuel) :
    ∃ c', removeLoop ev fuel c = some c' ∧ bytes c'.input = [] ∧
      bytes c'.output = bytes c.output ++ bytes c.input := by
  induction fuel generalizing c with
  | zero => exact absurd hfuel (Nat.not_lt_zero _)
  | succ fuel ih =>
      unfold removeLoop
      by_cases hz : ev.length c.input = 0
      · have hnil : bytes c.input = [] := List.eq_nil_of_length_eq_zero (h.length c.input ▸ hz)
        exact ⟨c, if_pos hz, hnil, by simp [hnil]⟩
      · rw [h.length] at hz
        have hlen : (bytes (ev.remove c.input sizeofBuf).2).length < fuel := by
          rw [h.remove, List.length_drop, sizeofBuf]
          omega
        obtain ⟨c', hc', hi, ho⟩ := ih ⟨_, ev.add c.output (ev.remove c.input sizeofBuf).1⟩ hlen
        refine ⟨c', by rw [h.length, if_neg hz]; exact hc', hi, ?_⟩
        rw [ho, h.add, h.removed, h.remove, List.append_assoc, List.take_append_drop]

/-- **One call**: nothing is lost or added but the LF of a flush, and what stays in the input is an
    unterminated remainder below `MAX_LINE`. -/
theorem readCallback_spec (h : ev.Fifo bytes) (c : Conn B) :
    ∃ c' flushed, readCallback ev c = some (c', flushed) ∧ Call.Echoes bytes ⟨c, c', flushed⟩ ∧
      bytes c'.input = (if flushed then [] else rest lf (bytes c.input)) := by
  obtain ⟨c₁, h₁, hi₁, ho₁⟩ := readlnLoop_spec h (ev.length c.input + 1) c (by rw [h.length]; omega)
  have hsplit := @unlines_append_rest _ _ lf (bytes c.input)
  by_cases hlong : MAX_LINE ≤ (rest lf (bytes c.input)).length
  · obtain ⟨c₂, h₂, hi₂, ho₂⟩ := removeLoop_spec h (ev.length c₁.input + 1) c₁ (by rw [h.length]; omega)
    have hcall : readCallback ev c = some ({ c₂ with output := ev.add c₂.output [lf] }, true) := by
      have hlen : MAX_LINE ≤ ev.length c₁.input := by rw [h.length, hi₁]; exact hlong
      rw [readCallback, h₁, Option.bind_eq_bind, Option.bind_some, if_pos hlen, h₂]
      rfl
    refine ⟨_, true, hcall, ⟨?_, ?_, by simp [hlong]⟩, by simp [hi₂]⟩
    · simp [Call.removed, hi₂]
    · rw [h.add, ho₂, ho₁, hi₁, List.append_assoc, List.append_assoc, ← List.append_assoc (List.flatMap _ _), hsplit]
      simp [Call.removed, Call.extra, hi₂]
  · have hcall : readCallback ev c = some (c₁, false) := by
      have hlen : ¬ MAX_LINE ≤ ev.length c₁.input := by rw [h.length, hi₁]; exact hlong
      rw [readCallback, h₁, Option.bind_eq_bind, Option.bind_some, if_neg hlen]
    have hremoved : Call.removed bytes ⟨c, c₁, false⟩ = (lines lf (bytes c.input)).flatMap (· ++ [lf]) := by
      have hlen := congrArg List.length hsplit
      rw [List.length_append] at hlen
      show (bytes c.input).take ((bytes c.input).length - (bytes c₁.input).length) = _
      rw [hi₁]
      conv => lhs; arg 2; rw [← hsplit]
      exact List.take_left' (by omega)
    refine ⟨c₁, false, hcall, ⟨?_, ?_, by simp [hlong]⟩, by simp [hi₁]⟩
    · rw [hremoved, hi₁, hsplit]
    · rw [hremoved, ho₁]
      simp [Call.extra]

/-- What a call leaves in the input has no LF and does not suspend the connection. -/
theorem readCallback_input {c c' : Conn B} {flushed : Bool} (he : Call.Echoes bytes ⟨c, c', flushed⟩)
    (hi : bytes c'.input = if flushed then [] else rest lf (bytes c.input)) :
    lf ∉ bytes c'.input ∧ ¬ Suspended bytes c' := by
  unfold Suspended
  cases flushed with
  | true => simp [hi, watermark, MAX_LINE]
  | false =>
      have hlong : ¬ MAX_LINE ≤ (rest lf (bytes c.input)).length := fun hle =>
        Bool.false_ne_true (he.flushed.mpr hle)
      rw [hi]
      exact ⟨sep_not_mem_rest _, hlong⟩

end Call

/-! ## Whole runs -/

section Run

variable {ev : Evbuffer B} {bytes : B → List UInt8}

/-- Any number of calls, from any state of the connection. -/
theorem run_spec (h : ev.Fifo bytes) (chunks : List (List UInt8)) (c : Conn B) :
    ∃ calls last, run ev c chunks = some (calls, last) ∧
      (∀ call ∈ calls, call.Echoes bytes ∧ lf ∉ bytes call.after.input ∧ ¬ Suspended bytes call.after) ∧
      calls.flatMap (Call.removed bytes) ++ bytes last.input = bytes c.input ++ chunks.flatten ∧
      bytes last.output = bytes c.output ++ calls.flatMap (fun call => call.removed bytes ++ call.extra) := by
  induction chunks generalizing c with
  | nil => exact ⟨[], c, rfl, by simp, by simp, by simp⟩
  | cons chunk chunks ih =>
      obtain ⟨c', flushed, hcall, hechoes, hinput⟩ := readCallback_spec h { c with input := ev.add c.input chunk }
      obtain ⟨calls, last, hrun, hall, hin, hout⟩ := ih c'
      refine ⟨⟨{ c with input := ev.add c.input chunk }, c', flushed⟩ :: calls, last, by simp [run, hcall, hrun],
        ?_, ?_, ?_⟩
      · intro call hmem
        rcases List.mem_cons.mp hmem with rfl | hmem
        · exact ⟨hechoes, readCallback_input hechoes hinput⟩
        · exact hall call hmem
      · have hi := hechoes.input
        rw [h.add] at hi
        rw [List.flatMap_cons, List.append_assoc, hin, List.flatten_cons, ← List.append_assoc, hi, List.append_assoc]
      · rw [hout, hechoes.output, List.flatMap_cons, List.append_assoc]

/-- A run of at least one call. -/
theorem run_cons {chunk : List UInt8} {chunks : List (List UInt8)} {c c' last : Conn B} {flushed : Bool}
    {calls : List (Call B)} (hcall : readCallback ev { c with input := ev.add c.input chunk } = some (c', flushed))
    (hrun : run ev c (chunk :: chunks) = some (calls, last)) :
    ∃ calls', run ev c' chunks = some (calls', last) ∧
      calls = ⟨{ c with input := ev.add c.input chunk }, c', flushed⟩ :: calls' := by
  simp only [run, hcall, Option.bind_eq_bind, Option.bind_some, Option.bind_eq_some_iff, Option.some.injEq,
    Prod.mk.injEq, Prod.exists] at hrun
  obtain ⟨calls', last', hrun', rfl, rfl⟩ := hrun
  exact ⟨calls', hrun', rfl⟩

/-- No call leaves a LF in the input. -/
theorem input_of_run (h : ev.Fifo bytes) {chunks : List (List UInt8)} {c : Conn B} {calls : List (Call B)}
    {last : Conn B} (hrun : run ev c chunks = some (calls, last)) (hc : lf ∉ bytes c.input) :
    lf ∉ bytes last.input := by
  induction chunks generalizing c calls with
  | nil =>
      obtain ⟨-, rfl⟩ : [] = calls ∧ c = last := by simpa [run] using hrun
      exact hc
  | cons chunk chunks ih =>
      obtain ⟨c', flushed, hcall, hechoes, hinput⟩ := readCallback_spec h { c with input := ev.add c.input chunk }
      obtain ⟨calls', hrun', -⟩ := run_cons hcall hrun
      exact ih hrun' (readCallback_input hechoes hinput).1

/-- While no remainder is too long, every byte up to the last LF has been copied and the others wait. -/
theorem run_lines (h : ev.Fifo bytes) (chunks : List (List UInt8)) (c : Conn B)
    (hshort : ∀ k, (rest lf (bytes c.input ++ (chunks.take k).flatten)).length < MAX_LINE)
    {calls : List (Call B)} {last : Conn B} (hrun : run ev c chunks = some (calls, last)) :
    (∀ call ∈ calls, call.flushed = false) ∧
      rest lf (bytes last.input) = rest lf (bytes c.input ++ chunks.flatten) := by
  induction chunks generalizing c calls with
  | nil =>
      obtain ⟨rfl, rfl⟩ : [] = calls ∧ c = last := by simpa [run] using hrun
      simp
  | cons chunk chunks ih =>
      obtain ⟨c', flushed, hcall, hechoes, hinput⟩ := readCallback_spec h { c with input := ev.add c.input chunk }
      have hbefore : bytes (ev.add c.input chunk) = bytes c.input ++ chunk := h.add _ _
      obtain rfl : flushed = false := by
        by_contra hne
        have hlong := hechoes.flushed.mp (by simpa using hne)
        rw [hbefore] at hlong
        have := hshort 1
        simp only [List.take_succ_cons, List.take_zero, List.flatten_cons, List.flatten_nil, List.append_nil] at this
        omega
      have hc' : bytes c'.input = rest lf (bytes c.input ++ chunk) := by
        rw [hinput, if_neg (by simp), hbefore]
      obtain ⟨calls', hrun', rfl⟩ := run_cons hcall hrun
      obtain ⟨hno, hrest⟩ := ih c' (fun k => by
        rw [hc', ← rest_append, List.append_assoc]
        exact hshort (k + 1)) hrun'
      refine ⟨?_, ?_⟩
      · intro call hmem
        rcases List.mem_cons.mp hmem with rfl | hmem
        · rfl
        · exact hno call hmem
      · rw [hrest, hc', ← rest_append, List.append_assoc, List.flatten_cons]

end Run

/-- **The echo server**, over every segmentation of every stream: what it adds to the output is what it removes
    from the input, in order, but for the LF of each flush; after every call the input holds no LF and reading
    goes on; and while no unterminated remainder reaches `MAX_LINE`, the output is the stream up to its
    last LF. -/
theorem echo {ev : Evbuffer B} {bytes : B → List UInt8} (h : ev.Fifo bytes) (c : Conn B)
    (hin : bytes c.input = []) (hout : bytes c.output = []) (chunks : List (List UInt8)) :
    ∃ calls last, run ev c chunks = some (calls, last) ∧
      (∀ call ∈ calls, call.Echoes bytes) ∧
      calls.flatMap (Call.removed bytes) ++ bytes last.input = chunks.flatten ∧
      bytes last.output = calls.flatMap (fun call => call.removed bytes ++ call.extra) ∧
      (∀ call ∈ calls, lf ∉ bytes call.after.input ∧ (bytes call.after.input).length < MAX_LINE ∧
        ¬ Suspended bytes call.after) ∧
      ((∀ k, (rest lf (chunks.take k).flatten).length < MAX_LINE) →
        ∃ tail, chunks.flatten = bytes last.output ++ tail ∧ lf ∉ tail ∧
          (bytes last.output = [] ∨ ∃ u, bytes last.output = u ++ [lf])) := by
  obtain ⟨calls, last, hrun, hall, hinput, houtput⟩ := run_spec h chunks c
  rw [hin, List.nil_append] at hinput
  rw [hout, List.nil_append] at houtput
  refine ⟨calls, last, hrun, fun call hc => (hall call hc).1, hinput, houtput, ?_, ?_⟩
  · intro call hc
    obtain ⟨-, hlf, hgo⟩ := hall call hc
    exact ⟨hlf, Nat.lt_of_not_le hgo, hgo⟩
  · intro hshort
    obtain ⟨hno, hrest⟩ := run_lines h chunks c (by simpa [hin] using hshort) hrun
    rw [hin, List.nil_append] at hrest
    have hremoved : bytes last.output = calls.flatMap (Call.removed bytes) := by
      rw [houtput]
      exact List.flatMap_congr fun call hc => by simp [Call.extra, hno call hc]
    -- the last call left no LF, and before any call the input is empty
    have hlast : lf ∉ bytes last.input := input_of_run h hrun (by simp [hin])
    have hlines : bytes last.output = (lines lf chunks.flatten).flatMap (· ++ [lf]) := by
      have hsplit := @unlines_append_rest _ _ lf chunks.flatten
      rw [← hrest, rest_of_not_mem hlast, ← hinput, ← hremoved] at hsplit
      rw [← hinput, ← hremoved]
      exact (List.append_cancel_right hsplit).symm
    refine ⟨bytes last.input, by rw [hremoved, hinput], hlast, ?_⟩
    rw [hlines]
    rcases List.eq_nil_or_concat (lines lf chunks.flatten) with hnil | ⟨ls, l, hl⟩
    · exact .inl (by rw [hnil]; rfl)
    · exact .inr ⟨ls.flatMap (· ++ [lf]) ++ l, by rw [hl]; simp⟩

/-- A line over two calls, and the start of the next one. -/
theorem echo_queue :
    ∃ calls last, run queue ⟨[], []⟩ [[0x61], [0x62, lf, 0x63]] = some (calls, last) ∧
      (∀ call ∈ calls, call.Echoes id ∧ ¬ Suspended id call.after) ∧
      ∃ tail, [0x61, 0x62, lf, 0x63] = last.output ++ tail ∧ lf ∉ tail ∧
        (last.output = [] ∨ ∃ u, last.output = u ++ [lf]) := by
  obtain ⟨calls, last, hrun, hechoes, -, -, hinput, hlines⟩ :=
    echo queue_fifo ⟨[], []⟩ rfl rfl [[0x61], [0x62, lf, 0x63]]
  refine ⟨calls, last, hrun, fun call hc => ⟨hechoes call hc, (hinput call hc).2.2⟩, hlines ?_⟩
  intro k
  match k with
  | 0     => decide
  | 1     => decide
  | k + 2 => simp only [List.take_succ_cons, List.take_nil]; decide

end Server
end Network
end CSamples
