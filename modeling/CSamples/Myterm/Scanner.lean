import CSamples.C.Memory
import CSamples.Lex.Lookahead
import CSamples.Lex.Munch

/-!
# `Myterm.Scanner` — the scanner of the serial terminal

`lex` of `myterm/scanner.re`. `YYFILL(3)` stands at the start of a token and returns -1, so a token is only
started when three bytes are there; the four rules match one to three of them.

## Contents
- **Model.** `Scanner`, `rules` and `lex`, on offsets into the receive buffer.
- **Meaning.** `munch_rules`: the rule that wins is decided by the first three bytes (`tokenAt`);
  `lex_spec`: what a call does to the scanner.
-/

namespace CSamples
namespace Myterm

open C CSamples.Lex

/-- The named characters of the scanner. -/
def FF : UInt8 := 0xFF
def FD : UInt8 := 0xFD
def LF : UInt8 := 0x0A

inductive Token where
  | ffFd
  | ffAnyAny
  | lf
  | any
  deriving DecidableEq, Repr

/-- The fields of `SCANNER` that the program computes with, as offsets from `top`. -/
structure Scanner where
  cur : Nat
  lim : Nat
  tok : Nat
  deriving DecidableEq

/-- `.`: any byte but LF -/
def dot : Regex UInt8 := .cls (· != LF)

/-- `FF [^\xFD] .` -/
def ffAnyAny : Regex UInt8 := .seq (.cls (· == FF)) (.seq (.cls (· != FD)) dot)

/-- The rules of `lex`, in their order. -/
def rules : Rules UInt8 Token :=
  [(.word [FF, FD], .ffFd),
   (ffAnyAny, .ffAnyAny),
   (.word [LF], .lf),
   (dot, .any)]

/-- `lex`: the token, or `none` for the -1 that `YYFILL` returns. -/
def lex (buf : Mem) (s : Scanner) : Option (Option Token × Scanner) :=
  let s := { s with tok := s.cur }
  if s.lim - s.cur < 3 then some (none, s)
  else do
    let (t, n) ← munch rules ((buf.drop s.cur).take (s.lim - s.cur))
    some (some t, { s with cur := s.cur + n })

/-! ## Meaning -/

/-- The token that starts with the bytes `a b c`, and its length. -/
def tokenAt (a b c : UInt8) : Token × Nat :=
  if a = FF ∧ b = FD then (.ffFd, 2)
  else if a = FF ∧ c ≠ LF then (.ffAnyAny, 3)
  else if a = LF then (.lf, 1)
  else (.any, 1)

theorem tokenAt_length (a b c : UInt8) : 0 < (tokenAt a b c).2 ∧ (tokenAt a b c).2 ≤ 3 := by
  unfold tokenAt
  split
  · decide
  · split
    · decide
    · split <;> decide

theorem mem_dot {w : List UInt8} : w ∈ dot.lang ↔ ∃ a, a ≠ LF ∧ w = [a] := by
  simp [dot]

theorem mem_ffAnyAny {w : List UInt8} : w ∈ ffAnyAny.lang ↔ ∃ b c, b ≠ FD ∧ c ≠ LF ∧ w = [FF, b, c] := by
  unfold ffAnyAny
  simp only [Regex.mem_seq, Regex.mem_cls, mem_dot]
  constructor
  · rintro ⟨_, ⟨a, ha, rfl⟩, _, ⟨_, ⟨b, hb, rfl⟩, _, ⟨c, hc, rfl⟩, rfl⟩, rfl⟩
    obtain rfl : a = FF := by simpa using ha
    exact ⟨b, c, by simpa using hb, hc, rfl⟩
  · rintro ⟨b, c, hb, hc, rfl⟩
    exact ⟨[FF], ⟨FF, by simp, rfl⟩, [b, c], ⟨[b], ⟨b, by simpa using hb, rfl⟩, [c], ⟨c, hc, rfl⟩, rfl⟩, rfl⟩

/-- What a match of any rule looks like. -/
theorem mem_rules {x : Regex UInt8 × Token} (hx : x ∈ rules) {w : List UInt8} (hw : w ∈ x.1.lang) :
    w = [FF, FD] ∨ (∃ b c, b ≠ FD ∧ c ≠ LF ∧ w = [FF, b, c]) ∨ ∃ a, w = [a] := by
  simp only [rules, List.mem_cons, List.not_mem_nil, or_false] at hx
  rcases hx with rfl | rfl | rfl | rfl
  · exact .inl (Regex.mem_word.mp hw)
  · exact .inr (.inl (mem_ffAnyAny.mp hw))
  · exact .inr (.inr ⟨LF, Regex.mem_word.mp hw⟩)
  · obtain ⟨a, -, rfl⟩ := mem_dot.mp hw
    exact .inr (.inr ⟨a, rfl⟩)

/-- **The rule that wins** is decided by three bytes. -/
theorem munch_rules (a b c : UInt8) (w : List UInt8) : munch rules (a :: b :: c :: w) = some (tokenAt a b c) := by
  unfold tokenAt
  split_ifs with h1 h2 h3
  · -- `FF FD`: `ff_any_any` excludes it
    obtain ⟨rfl, rfl⟩ := h1
    apply @munch_append _ _ rules [FF, FD] (c :: w) Token.ffFd
    · exact ruleOf_of_mem (Regex.mem_word.mpr rfl)
    · intro x hx p hp _ hmem
      rcases mem_rules hx hmem with h | ⟨b, c, hb, -, h⟩ | ⟨a, h⟩
      · exact hp (by simpa using h)
      · simp only [List.cons_append, List.cons.injEq] at h
        exact hb h.2.1.symm
      · simp at h
  · -- three bytes, the longest of all matches
    obtain ⟨rfl, hc⟩ := h2
    have hb : b ≠ FD := fun h => h1 ⟨rfl, h⟩
    apply @munch_append _ _ rules [FF, b, c] w Token.ffAnyAny
    · rw [rules, ruleOf_of_not_mem (by simp [Regex.mem_word])]
      exact ruleOf_of_mem (mem_ffAnyAny.mpr ⟨b, c, hb, hc, rfl⟩)
    · intro x hx p hp _ hmem
      rcases mem_rules hx hmem with h | ⟨b, c, -, -, h⟩ | ⟨a, h⟩
      · simp at h
      · exact hp (by simpa using congrArg (List.drop 3) h)
      · simp at h
  · subst h3
    apply @munch_append _ _ rules [LF] (b :: c :: w) Token.lf
    · rw [rules, ruleOf_of_not_mem (by simp [Regex.mem_word]),
        ruleOf_of_not_mem (by simp [mem_ffAnyAny])]
      exact ruleOf_of_mem (Regex.mem_word.mpr rfl)
    · intro x hx p hp _ hmem
      rcases mem_rules hx hmem with h | ⟨b, c, -, -, h⟩ | ⟨a, h⟩
      · exact absurd (List.cons.inj h).1 (by decide)
      · exact absurd (List.cons.inj h).1 (by decide)
      · exact hp (List.cons.inj h).2
  · apply @munch_append _ _ rules [a] (b :: c :: w) Token.any
    · rw [rules, ruleOf_of_not_mem (by simp [Regex.mem_word]), ruleOf_of_not_mem (by simp [mem_ffAnyAny]),
        ruleOf_of_not_mem (by simpa [Regex.mem_word] using h3)]
      exact ruleOf_of_mem (mem_dot.mpr ⟨a, h3, rfl⟩)
    · intro x hx p hp hpre hmem
      obtain ⟨q, hq⟩ := hpre
      rcases mem_rules hx hmem with h | ⟨b', c', hb', hc', h⟩ | ⟨a', h⟩
      · -- `FF FD` would be the first rule
        obtain ⟨rfl, rfl⟩ : a = FF ∧ p = [FD] := by simpa using h
        exact h1 ⟨rfl, by simpa using (List.cons.inj hq).1.symm⟩
      · obtain ⟨rfl, rfl⟩ : a = FF ∧ p = [b', c'] := by simpa using h
        simp only [List.cons_append, List.nil_append, List.cons.injEq] at hq
        obtain ⟨rfl, rfl, -⟩ := hq
        exact h2 ⟨rfl, hc'⟩
      · exact hp (by simpa using (List.cons.inj h).2)

/-- **One call** in front of the bytes `w`: -1 with fewer than three of them, else the token they start. -/
theorem lex_spec {buf : Mem} {s : Scanner} {w : List UInt8} (hlim : s.lim = s.cur + w.length)
    (hw : (buf.drop s.cur).take w.length = w) :
    lex buf s = match w with
      | a :: b :: c :: _ => some (some (tokenAt a b c).1, ⟨s.cur + (tokenAt a b c).2, s.lim, s.cur⟩)
      | _                => some (none, ⟨s.cur, s.lim, s.cur⟩) := by
  have hsub : s.lim - s.cur = w.length := by rw [hlim, Nat.add_sub_cancel_left]
  unfold lex
  match w with
  | [] | [_] | [_, _] =>
      rw [if_pos (by simp only [hsub, List.length_cons, List.length_nil]; decide)]
  | a :: b :: c :: w =>
      rw [if_neg (by simp only [hsub, List.length_cons]; omega)]
      simp only [hsub, hw, munch_rules, Option.bind_eq_bind, Option.bind_some]

end Myterm
end CSamples
