import CSamples.C.Memory

/-!
# `Network.Client` — what the client sends of a line

`stdin_handler` of `network/client/client.c` (and of `network2`, which is the same) reads at most 255 bytes into an
array on its stack and sends `strlen(buf)` of them. It puts no NUL behind what it reads: what is sent depends on what
an earlier call left there.

## Contents
- **Model.** `stdinHandler`, as what it prints and sends, on an array with any contents.
- `stdinHandler_eq`: what is sent of a line.
- `stdinHandler_same_iff`: when that is the line, for two contents.
-/

namespace CSamples
namespace Network
namespace Client

open C

/-! ## The model -/

/-- `char buf[256]` -/
def sizeofBuf : Nat := 256

/-- What `read(fd, buf, sizeof(buf) - 1)` does; no bytes are the end of the input. -/
inductive Read where
  | error
  | data (bytes : List UInt8)

inductive Op where
  | perror
  | fprintf (text : List UInt8)
  | send (bytes : List UInt8)
  | loopexit
  | prompt
  deriving DecidableEq, Repr

/-- `stdin_handler`; `none` where a string function runs past the end of `buf`. -/
def stdinHandler (buf : Mem) (r : Read) (sendFails : Bool) : Option (List Op) :=
  match r with
  | .error      => some [.perror]
  | .data bytes =>
      if bytes.length = 0 then some []
      else do
        let buf ← blit buf 0 bytes
        let text ← strAt buf 0
        let n ← strlen buf 0
        some (.fprintf text :: .send (buf.take n) :: (if sendFails then [.perror, .loopexit] else []) ++ [.prompt])

/-- The bytes that the server is sent. -/
def sent (ops : List Op) : List UInt8 :=
  ops.flatMap fun a =>
    match a with
    | .send bytes => bytes
    | _           => []

/-! ## One call -/

variable {buf : Mem} {line : List UInt8}

/-- **What is sent** is the string that starts with the line and goes on with what was in the array. -/
theorem stdinHandler_eq (hne : line ≠ []) (hle : line.length ≤ buf.length) (sendFails : Bool) :
    (stdinHandler buf (.data line) sendFails).map sent = cstr (line ++ buf.drop line.length) := by
  have hlen : line.length ≠ 0 := fun h => hne (List.eq_nil_of_length_eq_zero h)
  have hstr : strAt (line ++ buf.drop line.length) 0 = cstr (line ++ buf.drop line.length) := by
    rw [strAt, List.drop_zero]
  unfold stdinHandler
  dsimp only
  rw [if_neg hlen, blit_front hle]
  simp only [Option.bind_eq_bind, Option.bind_some, strlen, hstr]
  cases h : cstr (line ++ buf.drop line.length) with
  | none => rfl
  | some s =>
      -- as many bytes as the string has are the string
      obtain ⟨-, t, heq⟩ := cstr_eq_some_iff.mp h
      simp only [Option.bind_some, Option.map_some]
      rw [heq, List.take_left]
      cases sendFails <;> simp [sent]

/-- It is the line exactly where the array had a NUL behind it, and the line has none. -/
theorem sent_line_iff (hne : line ≠ []) (hle : line.length ≤ buf.length) (sendFails : Bool) :
    (stdinHandler buf (.data line) sendFails).map sent = some line ↔ 0 ∉ line ∧ buf[line.length]? = some 0 := by
  rw [stdinHandler_eq hne hle, cstr_append_eq_iff, List.head?_drop]

/-! ## Two calls -/

/-- A line that is read, and an array. -/
def IsLine (line : List UInt8) : Prop := line ≠ [] ∧ line.length ≤ sizeofBuf - 1

/-- **The client** sends the line, whatever two earlier calls left in the array, exactly if there is no NUL in it and
    both left one behind it. -/
theorem stdinHandler_same_iff {buf₁ buf₂ : Mem} (h₁ : buf₁.length = sizeofBuf) (h₂ : buf₂.length = sizeofBuf)
    (hline : IsLine line) (sendFails : Bool) :
    ((stdinHandler buf₁ (.data line) sendFails).map sent = (stdinHandler buf₂ (.data line) sendFails).map sent ∧
      (stdinHandler buf₁ (.data line) sendFails).map sent = some line) ↔
      0 ∉ line ∧ buf₁[line.length]? = some 0 ∧ buf₂[line.length]? = some 0 := by
  obtain ⟨hne, hle⟩ := hline
  have hsize : sizeofBuf - 1 ≤ sizeofBuf := Nat.sub_le _ _
  have hsent₁ := @sent_line_iff buf₁ line hne (by omega) sendFails
  have hsent₂ := @sent_line_iff buf₂ line hne (by omega) sendFails
  constructor
  · rintro ⟨hsame, hfirst⟩
    obtain ⟨hnul, hbehind₁⟩ := hsent₁.mp hfirst
    obtain ⟨-, hbehind₂⟩ := hsent₂.mp (hsame ▸ hfirst)
    exact ⟨hnul, hbehind₁, hbehind₂⟩
  · rintro ⟨hnul, hbehind₁, hbehind₂⟩
    have hfirst := hsent₁.mpr ⟨hnul, hbehind₁⟩
    have hsecond := hsent₂.mpr ⟨hnul, hbehind₂⟩
    exact ⟨hfirst.trans hsecond.symm, hfirst⟩

/-- An array of zeros. -/
def zeros : Mem := List.replicate sizeofBuf 0

/-- `a` and a line end, over zeros twice. -/
theorem stdinHandler_same_zeros :
    ((stdinHandler zeros (.data [0x61, 0x0A]) false).map sent = (stdinHandler zeros (.data [0x61, 0x0A]) false).map sent ∧
      (stdinHandler zeros (.data [0x61, 0x0A]) false).map sent = some [0x61, 0x0A]) :=
  (@stdinHandler_same_iff [0x61, 0x0A] zeros zeros List.length_replicate List.length_replicate
    ⟨by decide, by decide⟩ false).mpr ⟨by decide, by decide, by decide⟩

/-- The array behind an earlier, longer line. -/
def earlier : Mem := [0x62, 0x62, 0x62, 0x62] ++ List.replicate 252 0

theorem length_earlier : earlier.length = sizeofBuf := by
  rw [earlier, List.length_append, List.length_replicate]
  rfl

/-- **A short line behind a longer one** is sent with the rest of that. -/
theorem stdinHandler_stale :
    (stdinHandler earlier (.data [0x61, 0x0A]) false).map sent = some [0x61, 0x0A, 0x62, 0x62] ∧
    ¬ ∀ (buf₁ buf₂ : Mem) (line : List UInt8), buf₁.length = sizeofBuf → buf₂.length = sizeofBuf → IsLine line →
      (stdinHandler buf₁ (.data line) false).map sent = (stdinHandler buf₂ (.data line) false).map sent ∧
        (stdinHandler buf₁ (.data line) false).map sent = some line := by
  have hsent : (stdinHandler earlier (.data [0x61, 0x0A]) false).map sent = some [0x61, 0x0A, 0x62, 0x62] := by
    rw [stdinHandler_eq (by simp) (by rw [length_earlier]; decide)]
    rfl
  refine ⟨hsent, ?_⟩
  intro h
  have hsame := (h earlier earlier [0x61, 0x0A] length_earlier length_earlier ⟨by decide, by decide⟩).2
  rw [hsent] at hsame
  exact absurd hsame (by decide)

end Client
end Network
end CSamples
