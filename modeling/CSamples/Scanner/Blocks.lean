import CSamples.Scanner.Input

/-!
# `Scanner.Blocks` — scanner functions made of blocks of rules

`Scanner_Scan` of the tokenizer and `AnyScanner_Scan` of `any_parser` have one shape: a block of rules at
`std`, which starts a token, blocks for the insides of comments, and actions that return a result or go on at
a label. This module runs such a function over the input buffer, and says what it makes of the bytes of a
file: each match sees the first `BUFSIZE` bytes from `tok` on, no more.

## Contents
- **Model.** `Act`, `Blocks`; `step`, one match; `call`, one call of the function; `run`, calls up to the last.
- **Specification.** `events limit`: the results over a list of bytes of which a match sees `limit` from `tok` on;
  `left limit`, the bytes behind the last result.
- `run_eq_events`: the function computes `events (some BUFSIZE)`, for every file.
- `events_none`: where no match looks `BUFSIZE` bytes far, a buffer without a bound gives the same.
-/

namespace CSamples
namespace Scanner

open C CSamples.Lex

/-! ## The model -/

/-- An action: print something and go on at a label, or return a result. -/
inductive Act (L E : Type) where
  | goto (e : Option E) (l : L)
  | ret (e : E)
  deriving DecidableEq, Repr

/-- What an action prints or returns. -/
def Act.emits {L E : Type} : Act L E → Option E
  | .goto e _ => e
  | .ret e    => some e

/-- The blocks of a scanner function. A token starts at `std`; `atEnd` is the rule `$`; behind a `final` result
    the function is not called again. -/
structure Blocks (L E : Type) where
  std      : L
  block    : L → Rules UInt8 (Act L E)
  atEnd    : L → E
  final    : E → Bool
  atEnd_final : ∀ l, final (atEnd l) = true
  nonempty : ∀ l, accepting (block l) = none
  any      : ∀ l a, ruleOf (block l) [a] ≠ none

/-- A result, or something printed, with the bytes from `tok` to `cur`. -/
abbrev Event (E : Type) := E × List UInt8

namespace Blocks

variable {L E : Type} [DecidableEq L]

/-- One match. -/
def step (B : Blocks L E) (l : L) (s : Input) : Option (Act L E × Input) :=
  let s' := if l = B.std then { s with tok := s.cur } else s
  (reader.run (BUFSIZE + 1) (B.block l) [] none s').map (fun x => (x.1.getD (.ret (B.atEnd l)), x.2))

/-- One call, from a label on: what it prints, what it returns, and the buffer behind it. -/
def call (B : Blocks L E) : Nat → L → Input → Option (List (Event E) × Event E × Input)
  | 0, _, _ => none
  | n + 1, l, s =>
      (B.step l s).bind (fun x =>
        match x.1 with
        | .ret e     => some ([], (e, x.2.span), x.2)
        | .goto e l' => (call B n l' x.2).map (fun y => (e.toList.map (fun e => (e, x.2.span)) ++ y.1, y.2)))

/-- The calls, up to a final result. -/
def run (B : Blocks L E) : Nat → Input → Option (List (Event E))
  | 0, _ => none
  | n + 1, s =>
      (B.call (n + 1) B.std s).bind (fun x =>
        if B.final x.2.1.1 then some (x.1 ++ [x.2.1])
        else (run B n x.2.2).map (fun es => x.1 ++ x.2.1 :: es))

/-! ## The specification -/

/-- What a match can see behind the bytes `u` of its token. -/
def window (limit : Option Nat) (u v : List UInt8) : List UInt8 :=
  match limit with
  | none   => v
  | some n => v.take (n - u.length)

theorem window_length_le (limit : Option Nat) (u v : List UInt8) : (window limit u v).length ≤ v.length := by
  cases limit with
  | none => exact Nat.le_refl _
  | some n => exact List.length_take_le' ..

/-- The bytes of the token in front of a match. -/
def token (B : Blocks L E) (l : L) (u : List UInt8) : List UInt8 := if l = B.std then [] else u

/-- What is printed and returned over the bytes `v`, at label `l`, behind the bytes `u` of the token. -/
def events (B : Blocks L E) (limit : Option Nat) (l : L) (u v : List UInt8) : List (Event E) :=
  match _h : munch (B.block l) (window limit (B.token l u) v) with
  | some (.goto e l', n + 1) =>
      e.toList.map (fun e => (e, B.token l u ++ v.take (n + 1))) ++
        events B limit l' (B.token l u ++ v.take (n + 1)) (v.drop (n + 1))
  | some (.ret e, n + 1) =>
      (e, B.token l u ++ v.take (n + 1)) :: if B.final e then [] else events B limit B.std [] (v.drop (n + 1))
  | _ => [(B.atEnd l, B.token l u)]
  termination_by v.length
  decreasing_by
    all_goals
      have hle : n + 1 ≤ v.length :=
        Nat.le_trans (munch_length_le (by assumption)) (window_length_le limit (B.token l u) v)
      rw [List.length_drop]
      omega

/-- One match, and the results behind it. -/
theorem events_eq (B : Blocks L E) (limit : Option Nat) (l : L) (u v : List UInt8) :
    B.events limit l u v =
      match munch (B.block l) (window limit (B.token l u) v) with
      | some (.goto e l', n + 1) =>
          e.toList.map (fun e => (e, B.token l u ++ v.take (n + 1))) ++
            B.events limit l' (B.token l u ++ v.take (n + 1)) (v.drop (n + 1))
      | some (.ret e, n + 1) =>
          (e, B.token l u ++ v.take (n + 1)) :: if B.final e then [] else B.events limit B.std [] (v.drop (n + 1))
      | _ => [(B.atEnd l, B.token l u)] := by
  rw [events]
  generalize munch (B.block l) (window limit (B.token l u) v) = m
  match m with
  | none | some (.goto _ _, 0) | some (.goto _ _, _ + 1) | some (.ret _, 0) | some (.ret _, _ + 1) => rfl

theorem events_goto {B : Blocks L E} {limit : Option Nat} {l l' : L} {u v : List UInt8} {e : Option E} {n : Nat}
    (h : munch (B.block l) (window limit (B.token l u) v) = some (.goto e l', n + 1)) :
    B.events limit l u v = e.toList.map (fun e => (e, B.token l u ++ v.take (n + 1))) ++
      B.events limit l' (B.token l u ++ v.take (n + 1)) (v.drop (n + 1)) := by
  rw [events_eq, h]

theorem events_ret {B : Blocks L E} {limit : Option Nat} {l : L} {u v : List UInt8} {e : E} {n : Nat}
    (h : munch (B.block l) (window limit (B.token l u) v) = some (.ret e, n + 1)) :
    B.events limit l u v = (e, B.token l u ++ v.take (n + 1)) ::
      if B.final e then [] else B.events limit B.std [] (v.drop (n + 1)) := by
  rw [events_eq, h]

/-- Where nothing is left to see nothing is matched. -/
theorem munch_end {B : Blocks L E} {limit : Option Nat} {l : L} {u v : List UInt8}
    (h : window limit (B.token l u) v = []) : munch (B.block l) (window limit (B.token l u) v) = none := by
  rw [h]
  exact munch_nil (B.nonempty l)

theorem events_end {B : Blocks L E} {limit : Option Nat} {l : L} {u v : List UInt8}
    (h : window limit (B.token l u) v = []) : B.events limit l u v = [(B.atEnd l, B.token l u)] := by
  rw [events_eq, munch_end h]

/-- At `std` a token starts, whatever was in front of it. -/
theorem token_std (B : Blocks L E) (u : List UInt8) : B.token B.std u = B.token B.std [] := by
  unfold token
  rw [if_pos rfl, if_pos rfl]

theorem events_std (B : Blocks L E) (limit : Option Nat) (u v : List UInt8) :
    B.events limit B.std u v = B.events limit B.std [] v := by
  rw [events_eq B limit B.std u v, token_std]
  exact (events_eq B limit B.std [] v).symm

/-- The results end with a final one. -/
theorem events_final (B : Blocks L E) (limit : Option Nat) (l : L) (u v : List UInt8) :
    ∃ es x, B.events limit l u v = es ++ [x] ∧ B.final x.1 = true := by
  induction hlen : v.length using Nat.strong_induction_on generalizing l u v with
  | _ len ih =>
      by_cases hw : window limit (B.token l u) v = []
      · exact ⟨[], _, events_end hw, B.atEnd_final l⟩
      · obtain ⟨a, n, hm⟩ := munch_pos (B.nonempty l) (B.any l) hw
        have hdrop : (v.drop (n + 1)).length < len := by
          have := Nat.le_trans (munch_length_le hm) (window_length_le limit (B.token l u) v)
          rw [List.length_drop]
          omega
        cases a with
        | goto e l' =>
            obtain ⟨es, x, heq, hf⟩ := ih _ hdrop l' (B.token l u ++ v.take (n + 1)) _ rfl
            rw [events_goto hm, heq, ← List.append_assoc]
            exact ⟨_, x, rfl, hf⟩
        | ret e =>
            rw [events_ret hm]
            by_cases hf : B.final e = true
            · rw [if_pos hf]
              exact ⟨[], _, rfl, hf⟩
            · obtain ⟨es, x, heq, hx⟩ := ih _ hdrop B.std [] _ rfl
              rw [if_neg hf, heq]
              exact ⟨_ :: es, x, rfl, hx⟩

/-- The bytes behind the final result. -/
def left (B : Blocks L E) (limit : Option Nat) (l : L) (u v : List UInt8) : List UInt8 :=
  match _h : munch (B.block l) (window limit (B.token l u) v) with
  | some (.goto _ l', n + 1) => left B limit l' (B.token l u ++ v.take (n + 1)) (v.drop (n + 1))
  | some (.ret e, n + 1) =>
      if B.final e then v.drop (n + 1) else left B limit B.std [] (v.drop (n + 1))
  | _ => v
  termination_by v.length
  decreasing_by
    all_goals
      have hle : n + 1 ≤ v.length :=
        Nat.le_trans (munch_length_le (by assumption)) (window_length_le limit (B.token l u) v)
      rw [List.length_drop]
      omega

theorem left_eq (B : Blocks L E) (limit : Option Nat) (l : L) (u v : List UInt8) :
    B.left limit l u v =
      match munch (B.block l) (window limit (B.token l u) v) with
      | some (.goto _ l', n + 1) => B.left limit l' (B.token l u ++ v.take (n + 1)) (v.drop (n + 1))
      | some (.ret e, n + 1) =>
          if B.final e then v.drop (n + 1) else B.left limit B.std [] (v.drop (n + 1))
      | _ => v := by
  rw [left]
  generalize munch (B.block l) (window limit (B.token l u) v) = m
  match m with
  | none | some (.goto _ _, 0) | some (.goto _ _, _ + 1) | some (.ret _, 0) | some (.ret _, _ + 1) => rfl

theorem left_goto {B : Blocks L E} {limit : Option Nat} {l l' : L} {u v : List UInt8} {e : Option E} {n : Nat}
    (h : munch (B.block l) (window limit (B.token l u) v) = some (.goto e l', n + 1)) :
    B.left limit l u v = B.left limit l' (B.token l u ++ v.take (n + 1)) (v.drop (n + 1)) := by
  rw [left_eq, h]

theorem left_ret {B : Blocks L E} {limit : Option Nat} {l : L} {u v : List UInt8} {e : E} {n : Nat}
    (h : munch (B.block l) (window limit (B.token l u) v) = some (.ret e, n + 1)) :
    B.left limit l u v = if B.final e then v.drop (n + 1) else B.left limit B.std [] (v.drop (n + 1)) := by
  rw [left_eq, h]

theorem left_end {B : Blocks L E} {limit : Option Nat} {l : L} {u v : List UInt8}
    (h : window limit (B.token l u) v = []) : B.left limit l u v = v := by
  rw [left_eq, munch_end h]

theorem left_std (B : Blocks L E) (limit : Option Nat) (u v : List UInt8) :
    B.left limit B.std u v = B.left limit B.std [] v := by
  rw [left_eq B limit B.std u v, token_std]
  exact (left_eq B limit B.std [] v).symm

/-- What the function can print on its way. -/
def Prints (B : Blocks L E) (e : E) : Prop := ∃ l l', Act.goto (some e) l' ∈ (B.block l).map Prod.snd

/-- What the function can print or return. -/
def Emits (B : Blocks L E) (e : E) : Prop :=
  (∃ l, B.atEnd l = e) ∨ ∃ l, ∃ a ∈ (B.block l).map Prod.snd, a.emits = some e

theorem emits_of_mem_events {B : Blocks L E} {limit : Option Nat} {l : L} {u v : List UInt8} {x : Event E}
    (h : x ∈ B.events limit l u v) : B.Emits x.1 := by
  induction hlen : v.length using Nat.strong_induction_on generalizing l u v with
  | _ len ih =>
      by_cases hw : window limit (B.token l u) v = []
      · rw [events_end hw] at h
        obtain rfl := List.mem_singleton.mp h
        exact .inl ⟨l, rfl⟩
      · obtain ⟨a, n, hm⟩ := munch_pos (B.nonempty l) (B.any l) hw
        have hrule := mem_of_munch hm
        have hdrop : (v.drop (n + 1)).length < len := by
          have := Nat.le_trans (munch_length_le hm) (window_length_le limit (B.token l u) v)
          rw [List.length_drop]
          omega
        cases a with
        | goto e l' =>
            rw [events_goto hm] at h
            rcases List.mem_append.mp h with h | h
            · obtain ⟨e', he, rfl⟩ := List.mem_map.mp h
              have he := Option.mem_toList.mp he
              exact .inr ⟨l, _, hrule, he⟩
            · exact ih _ hdrop h rfl
        | ret e =>
            rw [events_ret hm] at h
            rcases List.mem_cons.mp h with rfl | h
            · exact .inr ⟨l, _, hrule, rfl⟩
            · by_cases hf : B.final e = true
              · rw [if_pos hf] at h
                exact absurd h List.not_mem_nil
              · rw [if_neg hf] at h
                exact ih _ hdrop h rfl

/-! ## Where the function gets to -/

/-- On the bytes of a file the function gets to label `l`, behind the bytes `u` of a token and in front of the bytes `v`,
    with the events `es` so far. -/
inductive Visits (B : Blocks L E) (limit : Option Nat) (file : List UInt8) :
    L → List UInt8 → List UInt8 → List (Event E) → Prop
  | start : Visits B limit file B.std [] file []
  | goto {l l' : L} {u v : List UInt8} {es : List (Event E)} {e : Option E} {n : Nat}
      (h : Visits B limit file l u v es)
      (hm : munch (B.block l) (window limit (B.token l u) v) = some (.goto e l', n + 1)) :
      Visits B limit file l' (B.token l u ++ v.take (n + 1)) (v.drop (n + 1))
        (es ++ e.toList.map (fun e => (e, B.token l u ++ v.take (n + 1))))
  | ret {l : L} {u v : List UInt8} {es : List (Event E)} {e : E} {n : Nat} (h : Visits B limit file l u v es)
      (hm : munch (B.block l) (window limit (B.token l u) v) = some (.ret e, n + 1)) (hf : B.final e = false) :
      Visits B limit file B.std [] (v.drop (n + 1)) (es ++ [(e, B.token l u ++ v.take (n + 1))])

/-- What is to come are the events of what is left. -/
theorem Visits.events_eq {B : Blocks L E} {limit : Option Nat} {file : List UInt8} {l : L} {u v : List UInt8}
    {es : List (Event E)} (h : Visits B limit file l u v es) :
    B.events limit B.std [] file = es ++ B.events limit l u v := by
  induction h with
  | start => rfl
  | goto h hm ih => rw [ih, events_goto hm, List.append_assoc]
  | ret h hm hf ih =>
      rw [ih, events_ret hm, if_neg (by rw [hf]; exact Bool.false_ne_true), List.append_assoc]
      rfl

/-- `cur` is behind the bytes `u` of the token, in front of the bytes `v` of the file. -/
structure At (u v : List UInt8) (s : Input) : Prop where
  holds : Holds (u ++ v) s
  cur   : s.cur = s.tok + u.length

/-- A token starts. -/
theorem At.start {u v : List UInt8} {s : Input} (h : At u v s) : At [] v { s with tok := s.cur } := by
  have hpos : s.cur - s.tok = u.length := by
    have := h.cur
    omega
  have hstart := h.holds.start
  rw [hpos, List.drop_left] at hstart
  exact ⟨hstart, rfl⟩

theorem At.span {u v : List UInt8} {s : Input} (h : At u v s) : s.span = u := by
  have hpos : s.cur - s.tok = u.length := by
    have := h.cur
    omega
  rw [h.holds.span, hpos, List.take_left]

theorem At.pending {u v : List UInt8} {s : Input} (h : At u v s) : s.pending = v := by
  have hpos : s.cur - s.tok = u.length := by
    have := h.cur
    omega
  have hbytes := h.holds.start.bytes
  rwa [hpos, List.drop_left] at hbytes

/-- What is in sight in front of a match. -/
theorem At.sees {u v : List UInt8} {s : Input} (h : At u v s) :
    Sees (u ++ v) u [] (window (some BUFSIZE) u v) none s where
  holds  := h.holds
  window := by
    have hle : u.length ≤ BUFSIZE := by
      have := h.cur
      have := h.holds.cur_le
      have := h.holds.lim_le
      omega
    rw [List.take_append, List.take_of_length_le hle]
    rfl
  cur    := h.cur
  mar    := nofun

/-- **One match**: the longest one in the window, or the end of what is in sight. -/
theorem step_spec (B : Blocks L E) {l : L} {u v : List UInt8} {s : Input} (h : At u v s) :
    (window (some BUFSIZE) (B.token l u) v = [] ∧
      ∃ s', B.step l s = some (.ret (B.atEnd l), s') ∧ At (B.token l u) v s') ∨
    ∃ a n s', munch (B.block l) (window (some BUFSIZE) (B.token l u) v) = some (a, n + 1) ∧
      B.step l s = some (a, s') ∧ At (B.token l u ++ v.take (n + 1)) (v.drop (n + 1)) s' := by
  -- the state in front of the match
  obtain ⟨s₀, hs₀, h₀⟩ : ∃ s₀, (if l = B.std then { s with tok := s.cur } else s) = s₀ ∧ At (B.token l u) v s₀ := by
    unfold token
    by_cases hl : l = B.std
    · rw [if_pos hl, if_pos hl]
      exact ⟨_, rfl, h.start⟩
    · rw [if_neg hl, if_neg hl]
      exact ⟨_, rfl, h⟩
  have hfuel : (window (some BUFSIZE) (B.token l u) v).length < BUFSIZE + 1 := by
    refine Nat.lt_succ_of_le (Nat.le_trans ?_ (Nat.sub_le BUFSIZE (B.token l u).length))
    exact List.length_take_le _ _
  obtain ⟨s', hrun, n, hsees, hn⟩ := @Reader.run_spec _ _ _ _ _ (lawful_reader (B.token l u ++ v) (B.token l u))
    _ [] (B.block l) none s₀ _ (.inl (ends_reader _ _)) h₀.sees nofun hfuel
  have hmunch : munchFrom (window (some BUFSIZE) (B.token l u) v) (B.block l) none 0
      = munch (B.block l) (window (some BUFSIZE) (B.token l u) v) := rfl
  rw [List.length_nil, hmunch] at hrun
  rw [List.length_nil, hmunch] at hn
  have hstep : B.step l s = (reader.run (BUFSIZE + 1) (B.block l) [] none s₀).map
      (fun x => (x.1.getD (.ret (B.atEnd l)), x.2)) := by
    rw [← hs₀]
    rfl
  rw [Option.map_none] at hrun
  by_cases hw : window (some BUFSIZE) (B.token l u) v = []
  · left
    rw [hw] at hrun hsees
    rw [munch_nil (B.nonempty l)] at hrun
    refine ⟨hw, s', by rw [hstep, hrun]; rfl, hsees.holds, ?_⟩
    have hcur := hsees.cur
    simpa using hcur
  · right
    obtain ⟨a, k, hm⟩ := munch_pos (B.nonempty l) (B.any l) hw
    rw [hm] at hrun
    obtain rfl : k + 1 = n := hn (a, k + 1) hm
    have hle : k + 1 ≤ v.length :=
      Nat.le_trans (munch_length_le hm) (window_length_le (some BUFSIZE) (B.token l u) v)
    refine ⟨a, k, s', hm, by rw [hstep, hrun]; rfl, ?_, ?_⟩
    · rw [List.append_assoc, List.take_append_drop]
      exact hsees.holds
    · have hcur := hsees.cur
      have hk := munch_length_le hm
      rw [List.nil_append, List.length_take, Nat.min_eq_left hk] at hcur
      rw [List.length_append, List.length_take, Nat.min_eq_left hle]
      exact hcur

/-- A call whose first match returns. -/
theorem call_ret {B : Blocks L E} {u v : List UInt8} {s : Input} (h : At u v s) {e : E} {k : Nat}
    (hm : munch (B.block B.std) (v.take BUFSIZE) = some (.ret e, k + 1)) (n : Nat) :
    ∃ s', B.call (n + 1) B.std s = some ([], (e, v.take (k + 1)), s') ∧ At (v.take (k + 1)) (v.drop (k + 1)) s' := by
  have htoken : B.token B.std u = [] := if_pos rfl
  have hwindow : window (some BUFSIZE) (B.token B.std u) v = v.take BUFSIZE := by
    rw [htoken]
    rfl
  rcases B.step_spec h with ⟨hw, -⟩ | ⟨a, j, s', hm', hstep, h'⟩
  · -- the window is not empty
    rw [hwindow] at hw
    rw [hw, munch_nil (B.nonempty B.std)] at hm
    exact absurd hm (by simp)
  · rw [hwindow, hm] at hm'
    obtain ⟨rfl, hj⟩ := Prod.mk.inj (Option.some.inj hm')
    obtain rfl : k = j := Nat.succ.inj hj
    rw [htoken, List.nil_append] at h'
    refine ⟨s', ?_, h'⟩
    rw [call, hstep, Option.bind_some]
    show some ([], (e, s'.span), s') = _
    rw [h'.span]

/-- **A call on a word** that a rule matches and none goes beyond. -/
theorem call_word {B : Blocks L E} {u w v : List UInt8} {s : Input} (h : At u (w ++ v) s) {e : E} (hw : w ≠ [])
    (hlen : w.length ≤ BUFSIZE) (hrule : ruleOf (B.block B.std) w = some (.ret e))
    (hlongest : ∀ x ∈ B.block B.std, ∀ p, p ≠ [] → p <+: v → w ++ p ∉ x.1.lang) (n : Nat) :
    ∃ s', B.call (n + 1) B.std s = some ([], (e, w), s') ∧ At w v s' := by
  obtain ⟨k, hk⟩ : ∃ k, w.length = k + 1 := Nat.exists_eq_succ_of_ne_zero (mt List.length_eq_zero_iff.mp hw)
  have hm : munch (B.block B.std) ((w ++ v).take BUFSIZE) = some (.ret e, k + 1) := by
    rw [← hk, List.take_append, List.take_of_length_le hlen]
    exact munch_append hrule (fun x hx p hp hpv => hlongest x hx p hp (hpv.trans (List.take_prefix _ _)))
  have hcall := call_ret h hm n
  rwa [← hk, List.take_left, List.drop_left] at hcall

/-- Where no action goes on, the call returns a word of the rule. -/
theorem ruleOf_of_call {B : Blocks L E} {u w v : List UInt8} {s s' : Input} (h : At u (w ++ v) s) {e : E} {n : Nat}
    (hw : w ≠ []) (hgoto : ∀ e l k, munch (B.block B.std) ((w ++ v).take BUFSIZE) ≠ some (.goto e l, k))
    (hcall : B.call (n + 1) B.std s = some ([], (e, w), s')) : ruleOf (B.block B.std) w = some (.ret e) := by
  have hne : (w ++ v).take BUFSIZE ≠ [] := by
    obtain ⟨b, w, rfl⟩ := List.exists_cons_of_ne_nil hw
    exact List.cons_ne_nil _ _
  obtain ⟨a, k, hm⟩ := munch_pos (B.nonempty B.std) (B.any B.std) hne
  cases a with
  | goto e l => exact absurd hm (hgoto e l (k + 1))
  | ret e' =>
      obtain ⟨s'', hcall', -⟩ := call_ret h hm n
      have heq := hcall.symm.trans hcall'
      simp only [Option.some.injEq, Prod.mk.injEq, true_and] at heq
      obtain ⟨⟨rfl, htake⟩, -⟩ := heq
      have hle : k + 1 ≤ BUFSIZE := Nat.le_trans (munch_length_le hm) (List.length_take_le _ _)
      have hrule := (munch_eq_some_iff.mp hm).rule
      rwa [List.take_take, Nat.min_eq_left hle, ← htake] at hrule

/-- **One call** makes the first part of the events; behind a final result the file is where they leave it. -/
theorem call_spec (B : Blocks L E) {l : L} {u v : List UInt8} {s : Input} {n : Nat} (h : At u v s)
    (hn : v.length < n) : ∃ es x s', B.call n l s = some (es, x, s') ∧ (∀ y ∈ es, B.Prints y.1) ∧
      ((B.final x.1 = true ∧ B.events (some BUFSIZE) l u v = es ++ [x] ∧
          B.left (some BUFSIZE) l u v = s'.pending) ∨
        (B.final x.1 = false ∧ ∃ u' v', At u' v' s' ∧ v'.length < v.length ∧
          B.events (some BUFSIZE) l u v = es ++ x :: B.events (some BUFSIZE) B.std [] v' ∧
          B.left (some BUFSIZE) l u v = B.left (some BUFSIZE) B.std [] v')) := by
  induction n generalizing l u v s with
  | zero => exact absurd hn (Nat.not_lt_zero _)
  | succ n ih =>
      unfold call
      rcases B.step_spec h with ⟨hw, s', hstep, h'⟩ | ⟨a, k, s', hm, hstep, h'⟩
      · -- nothing is left in the window
        refine ⟨[], (B.atEnd l, B.token l u), s', ?_, nofun, .inl ⟨B.atEnd_final l, events_end hw, ?_⟩⟩
        · rw [hstep, Option.bind_some, h'.span]
        · rw [left_end hw, h'.pending]
      · have hk : k + 1 ≤ v.length :=
          Nat.le_trans (munch_length_le hm) (window_length_le (some BUFSIZE) (B.token l u) v)
        have hlen : (v.drop (k + 1)).length < v.length := by
          rw [List.length_drop]
          omega
        rw [hstep, Option.bind_some, h'.span]
        cases a with
        | ret e =>
            refine ⟨[], (e, B.token l u ++ v.take (k + 1)), s', rfl, nofun, ?_⟩
            have hev := events_ret hm
            have hleft := left_ret hm
            by_cases hf : B.final e = true
            · rw [if_pos hf] at hev hleft
              exact .inl ⟨hf, hev, hleft.trans h'.pending.symm⟩
            · rw [if_neg hf] at hev hleft
              exact .inr ⟨by simpa using hf, _, _, h', hlen, hev, hleft⟩
        | goto e l' =>
            -- what the action prints comes in front of what the block at `l'` makes of the rest
            obtain ⟨es, x, s'', hcall, hprints, hres⟩ := @ih l' _ _ _ h' (by omega)
            have hev := events_goto hm
            refine ⟨e.toList.map (fun e => (e, B.token l u ++ v.take (k + 1))) ++ es, x, s'', ?_, ?_, ?_⟩
            · show (B.call n l' s').map _ = _
              rw [hcall]
              rfl
            · intro y hy
              rcases List.mem_append.mp hy with hy | hy
              · obtain ⟨e', he, rfl⟩ := List.mem_map.mp hy
                obtain rfl := Option.mem_toList.mp he
                exact ⟨l, l', mem_of_munch hm⟩
              · exact hprints y hy
            · have hleft := left_goto hm
              rcases hres with ⟨hf, heq, hl⟩ | ⟨hf, u', v', h'', hlen', heq, hl⟩
              · exact .inl ⟨hf, by rw [hev, heq, List.append_assoc], hleft.trans hl⟩
              · exact .inr ⟨hf, u', v', h'', by omega, by rw [hev, heq, List.append_assoc], hleft.trans hl⟩

/-- What the function can return. -/
def Returns (B : Blocks L E) (e : E) : Prop := (∃ l, B.atEnd l = e) ∨ ∃ l, Act.ret e ∈ (B.block l).map Prod.snd

theorem call_returns {B : Blocks L E} {n : Nat} {l : L} {u v : List UInt8} {s s' : Input} {es : List (Event E)}
    {x : Event E} (h : At u v s) (hcall : B.call n l s = some (es, x, s')) : B.Returns x.1 := by
  induction n generalizing l u v s es with
  | zero => exact absurd hcall (by simp [call])
  | succ n ih =>
      unfold call at hcall
      rcases B.step_spec h with ⟨hw, s₁, hstep, h'⟩ | ⟨a, k, s₁, hm, hstep, h'⟩
      · rw [hstep] at hcall
        obtain ⟨-, heq⟩ := Prod.mk.inj (Option.some.inj hcall)
        obtain ⟨rfl, -⟩ := Prod.mk.inj heq
        exact .inl ⟨l, rfl⟩
      · rw [hstep, Option.bind_some] at hcall
        cases a with
        | ret e =>
            obtain ⟨-, heq⟩ := Prod.mk.inj (Option.some.inj hcall)
            obtain ⟨rfl, -⟩ := Prod.mk.inj heq
            exact .inr ⟨l, mem_of_munch hm⟩
        | goto e l' =>
            obtain ⟨⟨es', x', s₂⟩, hnext, heq⟩ := Option.map_eq_some_iff.mp hcall
            obtain ⟨-, heq'⟩ := Prod.mk.inj heq
            obtain ⟨rfl, rfl⟩ := Prod.mk.inj heq'
            exact ih h' hnext

/-- **The calls** make all of them. -/
theorem run_spec (B : Blocks L E) {u v : List UInt8} {s : Input} {n : Nat} (h : At u v s) (hn : v.length < n) :
    B.run n s = some (B.events (some BUFSIZE) B.std [] v) := by
  induction n generalizing u v s with
  | zero => exact absurd hn (Nat.not_lt_zero _)
  | succ n ih =>
      obtain ⟨es, x, s', hcall, -, hres⟩ := @call_spec _ _ _ B B.std _ _ _ _ h hn
      rw [events_std] at hres
      unfold run
      rw [hcall, Option.bind_some]
      rcases hres with ⟨hf, heq, -⟩ | ⟨hf, u', v', h', hlen, heq, -⟩
      · rw [if_pos hf, heq]
      · rw [if_neg (by simp [hf]), ih h' (by omega), heq]
        rfl

/-- **A run over a file**: whatever the buffer held before, the results are those of the specification. -/
theorem run_eq_events (B : Blocks L E) (buf : Fin (BUFSIZE + 1) → UInt8) (file : List UInt8) {n : Nat}
    (hn : file.length < n) : B.run n (inputInit buf file) = some (B.events (some BUFSIZE) B.std [] file) :=
  @run_spec _ _ _ B [] file _ _ ⟨holds_inputInit buf file, rfl⟩ hn

/-! ## A buffer without a bound -/

/-- How far the matches look, from `tok` on, when the whole file is in sight. -/
def extents (B : Blocks L E) (l : L) (u v : List UInt8) : List Nat :=
  match _h : munch (B.block l) v with
  | some (.goto _ l', n + 1) =>
      ((B.token l u).length + reach (B.block l) v) :: extents B l' (B.token l u ++ v.take (n + 1)) (v.drop (n + 1))
  | some (.ret e, n + 1) =>
      ((B.token l u).length + reach (B.block l) v) ::
        if B.final e then [] else extents B B.std [] (v.drop (n + 1))
  | _ => []
  termination_by v.length
  decreasing_by
    all_goals
      have hle : n + 1 ≤ v.length := munch_length_le (by assumption)
      rw [List.length_drop]
      omega

theorem extents_eq (B : Blocks L E) (l : L) (u v : List UInt8) :
    B.extents l u v =
      match munch (B.block l) v with
      | some (.goto _ l', n + 1) =>
          ((B.token l u).length + reach (B.block l) v) :: B.extents l' (B.token l u ++ v.take (n + 1)) (v.drop (n + 1))
      | some (.ret e, n + 1) =>
          ((B.token l u).length + reach (B.block l) v) ::
            if B.final e then [] else B.extents B.std [] (v.drop (n + 1))
      | _ => [] := by
  rw [extents]
  generalize munch (B.block l) v = m
  match m with
  | none | some (.goto _ _, 0) | some (.goto _ _, _ + 1) | some (.ret _, 0) | some (.ret _, _ + 1) => rfl

theorem extents_goto {B : Blocks L E} {l l' : L} {u v : List UInt8} {e : Option E} {n : Nat}
    (h : munch (B.block l) v = some (.goto e l', n + 1)) :
    B.extents l u v = ((B.token l u).length + reach (B.block l) v) ::
      B.extents l' (B.token l u ++ v.take (n + 1)) (v.drop (n + 1)) := by
  rw [extents_eq, h]

theorem extents_ret {B : Blocks L E} {l : L} {u v : List UInt8} {e : E} {n : Nat}
    (h : munch (B.block l) v = some (.ret e, n + 1)) :
    B.extents l u v = ((B.token l u).length + reach (B.block l) v) ::
      if B.final e then [] else B.extents B.std [] (v.drop (n + 1)) := by
  rw [extents_eq, h]

/-- **Where no match looks farther than the buffer reaches**, its size makes no difference. -/
theorem events_none (B : Blocks L E) {l : L} {u v : List UInt8} {N : Nat} (h : ∀ k ∈ B.extents l u v, k ≤ N) :
    B.events (some N) l u v = B.events none l u v := by
  induction hlen : v.length using Nat.strong_induction_on generalizing l u v with
  | _ len ih =>
      by_cases hv : v = []
      · subst hv
        rw [@events_end _ _ _ B none l u [] rfl, events_end]
        exact List.take_nil
      · obtain ⟨a, n, hm⟩ := munch_pos (B.nonempty l) (B.any l) hv
        have hdrop : (v.drop (n + 1)).length < len := by
          have := munch_length_le hm
          rw [List.length_drop]
          omega
        -- what the match looks at is in the window
        have hwindow : munch (B.block l) (window (some N) (B.token l u) v) = munch (B.block l) v := by
          apply munch_take
          have hfirst : (B.token l u).length + reach (B.block l) v ≤ N := by
            cases a with
            | goto e l' => exact h _ (by rw [extents_goto hm]; exact List.mem_cons_self ..)
            | ret e => exact h _ (by rw [extents_ret hm]; exact List.mem_cons_self ..)
          omega
        cases a with
        | goto e l' =>
            rw [events_goto (hwindow.trans hm), @events_goto _ _ _ B none _ _ _ _ _ _ hm]
            congr 1
            refine ih _ hdrop ?_ rfl
            intro k hk
            exact h k (by rw [extents_goto hm]; exact List.mem_cons_of_mem _ hk)
        | ret e =>
            rw [events_ret (hwindow.trans hm), @events_ret _ _ _ B none _ _ _ _ _ hm]
            congr 1
            by_cases hf : B.final e = true
            · rw [if_pos hf, if_pos hf]
            · rw [if_neg hf, if_neg hf]
              refine ih _ hdrop ?_ rfl
              intro k hk
              apply h k
              rw [extents_ret hm, if_neg hf]
              exact List.mem_cons_of_mem _ hk

end Blocks
end Scanner
end CSamples
