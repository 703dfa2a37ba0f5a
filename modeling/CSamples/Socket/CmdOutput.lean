import CSamples.C.Fgets
import CSamples.Socket.CmdHandler

/-!
# `Socket.CmdOutput` — what the command service sends of an output

`receive_cmd` of `socket/server/cmd_handler.c` (and of `daemon`, which is the same) reads the output of a command
with `fgets(line, 128, pipe)` and sends `strlen(line)` bytes of every piece. The way the output is cut does not
matter; a NUL in it does, as all that follows it in its piece stays behind.

## Contents
- **Model.** `sendLines`: the loop with its buffer `line`; `Call.Outputs`: a call whose command writes an output and
  where all of it could be sent.
- `sendLines_eq`, `sendLines_output`: the loop sends the pieces as strings, as `receiveCmd` has them.
- `sent_receiveCmd_iff`: what is sent is the output exactly if there is no NUL in it.
-/

namespace CSamples
namespace Socket
namespace CmdHandler

open C

/-! ## The model -/

/-- `char line[256]` -/
def sizeofLine : Nat := 256

/-- `fgets(line, 128, pipe)` leaves a byte of its 128 for the NUL. -/
def room : Nat := 127

/-- `while(1){ p = fgets(line, 128, pipe); ... send(acc, line, strlen(line), 0) ... }` on the pieces of an output. -/
def sendLines (line : Mem) : List (List UInt8) → Option (List (List UInt8))
  | []      => some []
  | d :: ds => do
      let line ← storeLine line d
      let s ← strAt line 0
      let ss ← sendLines line ds
      some (s :: ss)

/-- The bytes that the client is sent. -/
def sent (ops : List Op) : List UInt8 :=
  ops.flatMap fun a =>
    match a with
    | .send bytes => bytes
    | _           => []

/-- A command is run. -/
def Call.Executes (c : Call) : Prop := ∃ cmd, .popen cmd ∈ receiveCmd c

/-- The command writes `out`, and no `send` fails. -/
def Call.Outputs (c : Call) (out : List UInt8) : Prop :=
  ∃ ds, c.popen = some ds ∧ ds.map Piece.bytes = pieces room out ∧ ∀ d ∈ ds, d.sendFails = false

/-! ## The loop -/

/-- **The loop with its buffer** sends the pieces as strings: what an earlier piece left behind is never sent. -/
theorem sendLines_eq {line : Mem} (hline : line.length = sizeofLine) {ds : List (List UInt8)}
    (hds : ∀ d ∈ ds, d.length ≤ room) : sendLines line ds = some (ds.map stringOf) := by
  induction ds generalizing line with
  | nil => rfl
  | cons d ds ih =>
      have hd : d.length ≤ room := hds d (List.mem_cons_self ..)
      have hroom : room < sizeofLine := by decide
      obtain ⟨line', hstore, hlen, hstr⟩ := @stored_string line d (by omega)
      have hrest := ih (hlen.trans hline) (fun e he => hds e (List.mem_cons_of_mem _ he))
      rw [sendLines, hstore]
      simp only [Option.bind_eq_bind, Option.bind_some]
      rw [hstr, Option.bind_some, hrest]
      rfl

theorem sent_append (ops ops' : List Op) : sent (ops ++ ops') = sent ops ++ sent ops' := List.flatMap_append

theorem sent_sendLoop {ds : List Piece} (h : ∀ d ∈ ds, d.sendFails = false) :
    sent (sendLoop ds) = (ds.map Piece.bytes).flatMap stringOf := by
  induction ds with
  | nil => rfl
  | cons d ds ih =>
      have hd : d.sendFails = false := h d (List.mem_cons_self ..)
      have hds := ih (fun e he => h e (List.mem_cons_of_mem _ he))
      rw [sendLoop, hd, if_neg (by simp), List.map_cons, List.flatMap_cons, ← hds]
      rfl

/-! ## The call -/

/-- A call that runs a command ends in `runCmd`. -/
theorem receiveCmd_of_executes {c : Call} (h : c.Executes) : ∃ cmd, receiveCmd c = runCmd cmd c.popen := by
  obtain ⟨cmd, hmem⟩ := h
  rw [receiveCmd_eq] at hmem ⊢
  cases hrecv : c.recv with
  | error =>
      rw [hrecv] at hmem
      simp [release] at hmem
  | data bytes =>
      rw [hrecv] at hmem
      dsimp only at hmem ⊢
      split_ifs at hmem ⊢ with hempty hfull hstop
      · simp [release] at hmem
      · simp at hmem
      · simp [release] at hmem
      · exact ⟨_, rfl⟩

/-- What the client is sent of an output. -/
theorem sent_receiveCmd {c : Call} {out : List UInt8} (hexec : c.Executes) (hout : c.Outputs out) :
    sent (receiveCmd c) = (pieces room out).flatMap stringOf := by
  obtain ⟨cmd, hcmd⟩ := receiveCmd_of_executes hexec
  obtain ⟨ds, hpopen, hpieces, hsent⟩ := hout
  have hloop := sent_sendLoop hsent
  rw [hcmd, hpopen, runCmd, sent_append, ← hpieces, ← hloop]
  simp [sent]

/-- It is what the loop with its buffer sends of it, whatever the buffer held. -/
theorem sendLines_output {c : Call} {out : List UInt8} (hexec : c.Executes) (hout : c.Outputs out) {line : Mem}
    (hline : line.length = sizeofLine) :
    ∃ ss, sendLines line (pieces room out) = some ss ∧ sent (receiveCmd c) = ss.flatten := by
  refine ⟨_, sendLines_eq hline ?_, ?_⟩
  · intro d hd
    exact length_le_of_mem_pieces hd
  · rw [sent_receiveCmd hexec hout, List.flatMap_def]

/-- **The client is sent the output** of a command exactly if there is no NUL in it, whatever its length and its line
    ends. -/
theorem sent_receiveCmd_iff {c : Call} {out : List UInt8} (hexec : c.Executes) (hout : c.Outputs out) :
    sent (receiveCmd c) = out ↔ 0 ∉ out := by
  have hflat : (pieces room out).flatten = out := flatten_pieces (by decide) out
  rw [sent_receiveCmd hexec hout]
  conv_lhs => rhs; rw [← hflat]
  rw [strings_eq_iff, hflat]

theorem length_stale : (List.replicate 512 0 : Mem).length = sizeofBuf := List.length_replicate

/-- The command `l`, whose output is read in these pieces. -/
def writer (ds : List Piece) : Call where
  buf   := List.replicate 512 0
  recv  := .data [0x6C]
  popen := some ds
  size  := length_stale

/-- It is run. -/
theorem receiveCmd_writer (ds : List Piece) : receiveCmd (writer ds) = runCmd [0x6C] (some ds) := by
  rw [receiveCmd_eq]
  rfl

theorem writer_executes (ds : List Piece) : (writer ds).Executes := by
  refine ⟨[0x6C], ?_⟩
  rw [receiveCmd_writer, runCmd]
  exact List.mem_cons_self ..

/-- Two lines, the second without its end. -/
theorem sent_receiveCmd_lines :
    (sent (receiveCmd (writer [⟨[0x61, lf], false, by decide⟩, ⟨[0x62], false, by decide⟩])) = [0x61, lf, 0x62] ↔
      0 ∉ [0x61, lf, 0x62]) ∧ 0 ∉ [0x61, lf, 0x62] := by
  refine ⟨sent_receiveCmd_iff (writer_executes _) ⟨_, rfl, ?_, by simp⟩, by decide⟩
  simp [pieces, fgets, room, lf]

/-- **The rest of the line is lost**, here of `a`, a NUL, `b` and a line end. -/
theorem sent_nul_lost :
    ¬ ∀ (c : Call) (out : List UInt8), c.Executes → c.Outputs out → sent (receiveCmd c) = out := by
  intro h
  have hout : (writer [⟨[0x61, 0, 0x62, lf], false, by decide⟩]).Outputs [0x61, 0, 0x62, lf] := by
    refine ⟨_, rfl, ?_, by simp⟩
    simp [pieces, fgets, room, lf]
  have hsent := h _ _ (writer_executes _) hout
  rw [receiveCmd_writer] at hsent
  exact absurd hsent (by decide)

end CmdHandler
end Socket
end CSamples
