import CSamples.Text.Lines

/-!
# `Libevent.Evbuffer` — byte queues

The functions of libevent's `evbuffer` a program calls, as the fields of a structure, and what their
documentation promises about the bytes in the queue. A program is modelled over any such structure;
`queue` is one, on lists.
-/

namespace CSamples
namespace Libevent

open Text

/-- LF, the terminator of `EVBUFFER_EOL_LF` -/
def lf : UInt8 := 0x0A

/-- `evbuffer_get_length`, `evbuffer_readln` with `EVBUFFER_EOL_LF`, `evbuffer_remove` and `evbuffer_add`. -/
structure Evbuffer (B : Type) where
  length : B → Nat
  readln : B → Option (List UInt8 × B)
  remove : B → Nat → List UInt8 × B
  add    : B → List UInt8 → B

/-- The buffer is a first-in first-out queue of bytes; `readln` takes the next line off it, without the LF. -/
structure Evbuffer.Fifo {B : Type} (ev : Evbuffer B) (bytes : B → List UInt8) : Prop where
  length      : ∀ b, ev.length b = (bytes b).length
  readln_none : ∀ b, ev.readln b = none → lf ∉ bytes b
  readln_some : ∀ b line b', ev.readln b = some (line, b') → lf ∉ line ∧ bytes b = line ++ lf :: bytes b'
  removed     : ∀ b n, (ev.remove b n).1 = (bytes b).take n
  remove      : ∀ b n, bytes (ev.remove b n).2 = (bytes b).drop n
  add         : ∀ b d, bytes (ev.add b d) = bytes b ++ d

/-- A queue that is the list of its bytes. -/
def queue : Evbuffer (List UInt8) where
  length b   := b.length
  readln b   :=
    match lines lf b with
    | []        => none
    | line :: _ => some (line, b.drop (line.length + 1))
  remove b n := (b.take n, b.drop n)
  add b d    := b ++ d

theorem queue_fifo : queue.Fifo id where
  length _        := rfl
  readln_none b h := by
    cases hl : lines lf b with
    | nil => exact lines_eq_nil_iff.mp hl
    | cons line ls => simp [queue, hl] at h
  readln_some b line b' h := by
    cases hl : lines lf b with
    | nil => simp [queue, hl] at h
    | cons l ls =>
        simp only [queue, hl, Option.some.injEq, Prod.mk.injEq] at h
        obtain ⟨rfl, rfl⟩ := h
        refine ⟨sep_not_mem_of_mem_lines (hl ▸ List.mem_cons_self ..), ?_⟩
        have hb := @unlines_append_rest _ _ lf b
        rw [hl, List.flatMap_cons, List.append_assoc, List.append_assoc, List.singleton_append] at hb
        have hdrop : b.drop (l.length + 1) = ls.flatMap (· ++ [lf]) ++ rest lf b := by
          conv => lhs; rw [← hb]
          simp
        rw [id, id, hdrop, hb]
  removed _ _     := rfl
  remove _ _      := rfl
  add _ _         := rfl

end Libevent
end CSamples
