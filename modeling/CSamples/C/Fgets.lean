import CSamples.C.Memory

/-!
# `C.Fgets` — a stream read by `fgets`

`fgets` stores what a stream has up to its first line feed, as far as the buffer has room, and a NUL behind it. Read
until nothing is left, a stream is cut into pieces; what a piece is as a string ends at its first NUL.

## Contents
- `fgets` and `pieces`: one call, and the calls up to the end of the stream.
- `flatten_pieces`, `length_le_of_mem_pieces`: nothing is lost, and every piece has room.
- `stored_string`: the string behind a call, in any buffer.
- `strings_eq_iff`: the strings together are the bytes exactly where no byte is a NUL.
-/

namespace CSamples
namespace C

/-! ## Pieces of a stream -/

/-- The bytes that `fgets` takes of a stream with room for `n` in front of the NUL. -/
def fgets : Nat → List UInt8 → List UInt8
  | 0, _          => []
  | _ + 1, []     => []
  | n + 1, b :: s => if b = 0x0A then [b] else b :: fgets n s

/-- It takes them from the front. -/
theorem fgets_append_drop (n : Nat) (s : List UInt8) : fgets n s ++ s.drop (fgets n s).length = s := by
  induction n, s using fgets.induct with
  | case1 s => simp [fgets]
  | case2 n => simp [fgets]
  | case3 n s => simp [fgets]
  | case4 n b s hlf ih => simp [fgets, hlf, ih]

theorem length_fgets_le (n : Nat) (s : List UInt8) : (fgets n s).length ≤ n := by
  induction n, s using fgets.induct with
  | case1 s => simp [fgets]
  | case2 n => simp [fgets]
  | case3 n s => simp [fgets]
  | case4 n b s hlf ih => simpa [fgets, hlf] using ih

/-- With room for a byte it takes one of a stream that has any. -/
theorem fgets_progress {n : Nat} {s : List UInt8} (h : ¬(n = 0 ∨ s = [])) :
    (s.drop (fgets n s).length).length < s.length := by
  rw [not_or] at h
  cases n with
  | zero => exact absurd rfl h.1
  | succ n =>
      cases s with
      | nil => exact absurd rfl h.2
      | cons b s =>
          have hpos : 0 < (fgets (n + 1) (b :: s)).length := by
            unfold fgets
            split_ifs <;> simp
          rw [List.length_drop, List.length_cons]
          omega

/-- The calls of `fgets` until nothing is left. -/
def pieces (n : Nat) (s : List UInt8) : List (List UInt8) :=
  if n = 0 ∨ s = [] then [] else fgets n s :: pieces n (s.drop (fgets n s).length)
  termination_by s.length
  decreasing_by exact fgets_progress ‹_›

/-- **Nothing is lost.** -/
theorem flatten_pieces {n : Nat} (hn : n ≠ 0) (s : List UInt8) : (pieces n s).flatten = s := by
  induction s using pieces.induct n with
  | case1 s h =>
      have hs : s = [] := h.resolve_left hn
      rw [pieces, if_pos h, hs]
      rfl
  | case2 s h ih =>
      rw [pieces, if_neg h, List.flatten_cons, ih]
      exact fgets_append_drop n s

theorem length_le_of_mem_pieces {n : Nat} {s d : List UInt8} (hd : d ∈ pieces n s) : d.length ≤ n := by
  induction s using pieces.induct n with
  | case1 s h =>
      rw [pieces, if_pos h] at hd
      simp at hd
  | case2 s h ih =>
      rw [pieces, if_neg h] at hd
      rcases List.mem_cons.mp hd with rfl | hd
      · exact length_fgets_le n s
      · exact ih hd

/-! ## Pieces as strings -/

/-- What a piece is as a string. -/
def stringOf (d : List UInt8) : List UInt8 := d.takeWhile (fun b => b ≠ 0)

/-- A piece and its NUL, stored in a buffer that has room for them. -/
def storeLine (m : Mem) (d : List UInt8) : Option Mem := do
  let m ← blit m 0 d
  store m d.length 0

theorem cstr_piece (d r : List UInt8) : cstr (d ++ 0 :: r) = some (stringOf d) := by
  induction d with
  | nil => rfl
  | cons b d ih =>
      unfold stringOf
      by_cases hb : b = 0
      · subst hb
        rfl
      · rw [List.cons_append, cstr, if_neg hb, ih, List.takeWhile_cons, if_pos (by simpa using hb)]
        rfl

/-- **The string behind a call** is the piece up to its first NUL, whatever the buffer held. -/
theorem stored_string {m : Mem} {d : List UInt8} (h : d.length < m.length) :
    ∃ m', storeLine m d = some m' ∧ m'.length = m.length ∧ strAt m' 0 = some (stringOf d) := by
  obtain ⟨m₁, r, hblit, hstore, hlen⟩ := @blit_store m [] d rfl (by simpa using h)
  refine ⟨d ++ 0 :: r, ?_, by simpa using hlen, cstr_piece d r⟩
  rw [storeLine]
  simp only [List.length_nil, Nat.zero_add, List.nil_append] at hblit hstore
  rw [hblit]
  exact hstore

theorem stringOf_eq_iff (d : List UInt8) : stringOf d = d ↔ 0 ∉ d := by
  unfold stringOf
  induction d with
  | nil => simp
  | cons b d ih =>
      by_cases hb : b = 0
      · simp [hb]
      · have hb' : ¬ (0 : UInt8) = b := fun h => hb h.symm
        rw [List.takeWhile_cons, if_pos (by simpa using hb)]
        simp only [List.cons.injEq, true_and, List.mem_cons, hb', false_or]
        exact ih

theorem length_stringOf_le (d : List UInt8) : (stringOf d).length ≤ d.length :=
  (List.takeWhile_prefix _).length_le

theorem length_strings_le (ds : List (List UInt8)) : (ds.flatMap stringOf).length ≤ ds.flatten.length := by
  induction ds with
  | nil => simp
  | cons d ds ih =>
      rw [List.flatMap_cons, List.flatten_cons, List.length_append, List.length_append]
      have := length_stringOf_le d
      omega

/-- **The strings of all pieces** are all their bytes exactly where no byte is a NUL. -/
theorem strings_eq_iff (ds : List (List UInt8)) : ds.flatMap stringOf = ds.flatten ↔ 0 ∉ ds.flatten := by
  induction ds with
  | nil => simp
  | cons d ds ih =>
      have hsplit : stringOf d ++ ds.flatMap stringOf = d ++ ds.flatten ↔
          stringOf d = d ∧ ds.flatMap stringOf = ds.flatten := by
        constructor
        · intro h
          -- neither part is longer than what it is compared with
          have hlen := congrArg List.length h
          have hd := length_stringOf_le d
          have hds := length_strings_le ds
          rw [List.length_append, List.length_append] at hlen
          apply List.append_inj h
          omega
        · rintro ⟨hd, hds⟩
          rw [hd, hds]
      rw [List.flatMap_cons, List.flatten_cons, hsplit, List.mem_append, not_or, stringOf_eq_iff, ih]

end C
end CSamples
