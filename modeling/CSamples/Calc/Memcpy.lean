import CSamples.Calc.Delivery
import CSamples.Lex.Turns

/-!
# `Calc.Memcpy` — the copies that `fill` makes

`fill` of `calc/scanner/scanner.re` (and of `unittest/scanner`, which is the same) moves what is left of the token to
`bot` with `memcpy`, within one block: the ranges have to be apart, and they are where the token is not longer than what
stands in front of it. The other `memcpy` is to a new block.

## Contents
- **Model.** `memcpys`, the calls of `memcpy` in a call of `fill`; `again` and `Reached`, the states of the scanner from
  its first call to `EOF`, between any two bytes.
- `scanFile_reaches`: the calls of `scan` go through these states.
- **Specification.** `MemcpysDisjoint`, in every state that is reached; `held`, the token that is under way at the end
  of some bytes; `Apart`, the files whose tokens are short where a block ends.
- The token under way: what `held` is behind a match, and behind bytes with a match in front.
-/

namespace CSamples
namespace Calc

open C CSamples.Lex

/-! ## The model -/

/-- The allocation that a pointer points into: the one at `bot`, or the one that `malloc` has just delivered. -/
inductive Block where
  | bot
  | buf
  deriving DecidableEq, Repr

/-- `memcpy(dst, src, n)` -/
structure Copy where
  dst : Block × Nat
  src : Block × Nat
  n   : Nat
  deriving DecidableEq, Repr

/-- The ranges have no byte in common. -/
def Copy.Disjoint (c : Copy) : Prop := c.dst.1 ≠ c.src.1 ∨ c.dst.2 + c.n ≤ c.src.2 ∨ c.src.2 + c.n ≤ c.dst.2

/-- The calls of `memcpy` that `fill` makes. -/
def memcpys (P : Platform) (s : Scanner) : List Copy :=
  if s.eof.isSome then []
  else
    match P.conv s.tok with
    | none     => []
    | some cnt =>
        let first : List Copy := if cnt = 0 then [] else [⟨(.bot, 0), (.bot, s.tok), s.lim - s.tok⟩]
        match if cnt = 0 then some s else shift cnt s with
        | none   => first
        | some s => first ++ if s.top - s.lim < BSIZE then [⟨(.buf, 0), (.bot, s.tok), s.lim - s.tok⟩] else []

/-- From the end of a match to the start of the next one: the action of the rule, the next call of `scan` where it
    returns, and `std`. Behind `EOF` there is none. -/
def again : Option Tag × (Scanner × Nat) → Option (Scanner × Nat)
  | (some (.ret _), x) => some (std ({ x.1 with cur := x.2 }, x.2))
  | (some .blank, x)   => some (std x)
  | (some .any, x)     => some (std x)
  | (some .newline, x) =>
      if x.1.eof = some x.2 then none
      else some (std ({ x.1 with cur := x.2, line := x.1.line + 1 }, x.2))
  | (none, _)          => none

/-- The scanner between two bytes of a match. -/
abbrev Point : Type := Lex.Point (Scanner × Nat) UInt8 Tag

def advance (P : Platform) : Point → Option Point := (reader P).step rules again

/-- The first call of `scan`. -/
def start (fd : Fd) : Point := .start rules (std (scannerInit fd, 0))

/-- The scanner gets from the one state to the other. -/
abbrev Onward (P : Platform) (p q : Point) : Prop := StateTransition.Reaches (advance P) p q

/-- The states that the scanner reaches on a file. -/
def Reached (P : Platform) (fd : Fd) (p : Point) : Prop := Onward P (start fd) p

/-- The scanner for which the check in front of the next byte calls `fill`. -/
def filling (P : Platform) (p : Point) : Option Scanner :=
  let x := (reader P).marked p
  if p.rules.canStep ∧ 0 < need p.read ∧ x.1.lim < x.2 + need p.read then some x.1 else none

/-! ## The specification -/

/-- A call of `fill` here makes only copies between ranges that are apart. -/
def Safe (P : Platform) (p : Point) : Prop := ∀ s ∈ filling P p, ∀ c ∈ memcpys P s, c.Disjoint

/-- In every state that is reached. -/
def MemcpysDisjoint (P : Platform) (fd : Fd) : Prop := ∀ p, Reached P fd p → Safe P p

/-- What the scanner holds of the token under way at the end of these bytes: the last token, as far as it goes, if it is
    not a line end of two bytes. -/
def held (w : List UInt8) : List UInt8 :=
  match (lexemes rules w).getLast? with
  | none   => []
  | some x => if x.2 = [CR, LF] then [] else x.2

/-- The token under way at the end of the bytes in the buffer starts at its front, or has half of them in front. -/
def Short (w : List UInt8) : Prop := (held w).length = w.length ∨ 2 * (held w).length ≤ w.length

instance (w : List UInt8) : Decidable (Short w) := inferInstanceAs (Decidable (_ ∨ _))

/-- With the bytes `w` in the buffer and these blocks to come: at the end of the bytes, and at the end of each full
    block behind what is held of the ones before, the token under way is short. Behind a distance that is lost, nothing
    is asked for. -/
def Apart : List (List UInt8) → List UInt8 → Prop
  | [], w      => Short w
  | d :: ds, w => Short w ∧ (w.length - (held w).length < 4294967296 → d.length = BSIZE → Apart ds (held w ++ d))

/-! ## The calls of `scan` -/

/-- One call of `scan` goes through these states. -/
theorem scan_reaches {P : Platform} {n k : Nat} {x : Scanner × Nat} {z : Scanned} {s : Scanner}
    (h : scan P n k x = some (z, s)) :
    ∃ q t y, Onward P (.start rules (std x)) q ∧ (reader P).turn q = some (.inr (t, y)) ∧
      (z ≠ .eof → again (t, y) = some (std (s, s.cur))) ∧
      (z = .eof → again (t, y) = none ∧ s = { y.1 with cur := y.2 }) := by
  induction k generalizing x with
  | zero => cases h
  | succ k ih =>
      unfold scan at h
      obtain ⟨⟨t, y⟩, hrun, h⟩ := Option.bind_eq_some_iff.mp h
      obtain ⟨q, hq, hend⟩ := @Reader.run_reaches _ _ _ (reader P) rules again n (.start rules (std x)) (t, y) hrun
      -- behind what is skipped the call goes on
      have hskip : ∀ x', again (t, y) = some (std x') → scan P n k x' = some (z, s) →
          ∃ q t y, Onward P (.start rules (std x)) q ∧ (reader P).turn q = some (.inr (t, y)) ∧
            (z ≠ .eof → again (t, y) = some (std (s, s.cur))) ∧
            (z = .eof → again (t, y) = none ∧ s = { y.1 with cur := y.2 }) := by
        intro x' hagain hrest
        obtain ⟨q', t', y', hq', hend', hres⟩ := ih hrest
        have hstep : advance P q = some (.start rules (std x')) := Reader.step_of_inr hend hagain
        exact ⟨q', t', y', hq.trans (Relation.ReflTransGen.head hstep hq'), hend', hres⟩
      cases t with
      | none => cases h
      | some t =>
      cases t with
      | ret t =>
          obtain ⟨rfl, rfl⟩ := Prod.mk.inj (Option.some.inj h)
          refine ⟨q, _, y, hq, hend, fun _ => rfl, ?_⟩
          intro heof
          cases heof
      | blank => exact hskip y rfl h
      | any => exact hskip y rfl h
      | newline =>
          simp only at h
          by_cases heof : y.1.eof = some y.2
          · rw [if_pos heof] at h
            obtain ⟨rfl, rfl⟩ := Prod.mk.inj (Option.some.inj h)
            exact ⟨q, _, y, hq, hend, fun hne => absurd rfl hne, fun _ => ⟨if_pos heof, rfl⟩⟩
          · rw [if_neg heof] at h
            obtain ⟨rfl, rfl⟩ := Prod.mk.inj (Option.some.inj h)
            refine ⟨q, _, y, hq, hend, fun _ => if_neg heof, ?_⟩
            intro hz
            cases hz

theorem scanAll_reaches {P : Platform} {n k : Nat} {s s' : Scanner} {zs : List Scanned}
    (h : scanAll P n k s = some (zs, s')) :
    ∃ q t y, Onward P (.start rules (std (s, s.cur))) q ∧ (reader P).turn q = some (.inr (t, y)) ∧
      again (t, y) = none ∧ s' = { y.1 with cur := y.2 } := by
  induction k generalizing s zs with
  | zero => exact absurd h nofun
  | succ k ih =>
      unfold scanAll at h
      obtain ⟨⟨z, s₁⟩, hscan, h⟩ := Option.bind_eq_some_iff.mp h
      obtain ⟨q, t, y, hq, hend, hnext, hlast⟩ := scan_reaches hscan
      simp only at h
      by_cases hz : z = .eof
      · rw [if_pos hz] at h
        obtain ⟨-, rfl⟩ := Prod.mk.inj (Option.some.inj h)
        exact ⟨q, t, y, hq, hend, hlast hz⟩
      · rw [if_neg hz] at h
        obtain ⟨⟨zs', s₂⟩, hrest, heq⟩ := Option.map_eq_some_iff.mp h
        obtain ⟨-, rfl⟩ := Prod.mk.inj heq
        obtain ⟨q', t', y', hq', hend'⟩ := ih hrest
        have hstep : advance P q = some (.start rules (std (s₁, s₁.cur))) := Reader.step_of_inr hend (hnext hz)
        exact ⟨q', t', y', hq.trans (Relation.ReflTransGen.head hstep hq'), hend'⟩

/-- **The calls of `scan` on a file** go through the states that are reached, up to one behind which there is none. -/
theorem scanFile_reaches {P : Platform} {n : Nat} {fd : Fd} {zs : List Scanned} {s : Scanner}
    (h : scanFile P n fd = some (zs, s)) :
    ∃ q t y, Reached P fd q ∧ (reader P).turn q = some (.inr (t, y)) ∧ again (t, y) = none ∧
      s = { y.1 with cur := y.2 } :=
  scanAll_reaches h

/-! ## The token under way -/

/-- What the automaton can go on behind: a number, blanks, or a CR. -/
theorem eq_of_goes {u : List UInt8} (hne : u ≠ []) (hgo : (rules.after u).canStep = true) :
    u ∈ integer.lang ∨ (∀ b ∈ u, isBlank b = true) ∨ u = [CR] := by
  obtain ⟨x, hx, a, w, hw⟩ := goes_iff.mp hgo
  obtain ⟨c, u, rfl⟩ := List.exists_cons_of_ne_nil hne
  rcases mem_rules hx hw with h | ⟨-, h⟩ | h | ⟨b, h⟩
  · obtain ⟨d, ds, hd, hds, heq⟩ := mem_integer.mp h
    obtain ⟨rfl, rfl⟩ := List.cons.inj heq
    exact .inl (mem_integer.mpr ⟨c, u, hd, fun b hb => hds b (List.mem_append_left _ hb), rfl⟩)
  · exact .inr (.inl fun b hb => h b (List.mem_append_left _ hb))
  · have hlen := congrArg List.length h
    simp only [List.length_append, List.length_cons, List.length_nil] at hlen
    obtain rfl : u = [] := List.length_eq_zero_iff.mp (by omega)
    exact .inr (.inr (by rw [(List.cons.inj h).1]))
  · have hlen := congrArg List.length h
    simp only [List.length_append, List.length_cons, List.length_nil] at hlen
    omega

/-- Behind a number and behind blanks the automaton goes on. -/
theorem goes_of_eq {u : List UInt8} (h : u ∈ integer.lang ∨ u ≠ [] ∧ ∀ b ∈ u, isBlank b = true) :
    (rules.after u).canStep = true := by
  rw [goes_iff]
  rcases h with h | ⟨-, h⟩
  · obtain ⟨d, ds, hd, hds, rfl⟩ := mem_integer.mp h
    refine ⟨(integer, .ret .num), by simp [rules], ch '1', [], mem_integer.mpr ⟨d, ds ++ [ch '1'], hd, ?_, rfl⟩⟩
    intro b hb
    rcases List.mem_append.mp hb with hb | hb
    · exact hds b hb
    · rw [List.mem_singleton.mp hb]
      rfl
  · refine ⟨(.plus (.cls isBlank), .blank), by simp [rules], 0x20, [], ?_⟩
    refine Regex.mem_plus_cls.mpr ⟨List.concat_ne_nil _ _, ?_⟩
    intro b hb
    rcases List.mem_append.mp hb with hb | hb
    · exact h b hb
    · rw [List.mem_singleton.mp hb]
      rfl

/-- **Every beginning of a match is a match.** -/
theorem rules_dense : rules.Dense where
  nil := rfl
  one := ruleOf_any
  go  := by
    intro u hne hgo hnone
    rw [ruleOf_eq_none] at hnone
    rcases eq_of_goes hne hgo with h | h | rfl
    · exact hnone (integer, .ret .num) (by simp [rules]) h
    · exact hnone (.plus (.cls isBlank), .blank) (by simp [rules]) (Regex.mem_plus_cls.mpr ⟨hne, h⟩)
    · exact hnone (.cls (fun _ => true), .any) (by simp [rules]) ⟨CR, rfl, rfl⟩

/-- Two bytes or more that are a match which cannot go on are a line end. -/
theorem eq_crlf_of_stops {u : List UInt8} (hrule : ruleOf rules u ≠ none) (hstop : (rules.after u).canStep = false)
    (hlen : 2 ≤ u.length) : u = [CR, LF] := by
  obtain ⟨t, ht⟩ := Option.ne_none_iff_exists'.mp hrule
  obtain ⟨r, hr, hmem⟩ := mem_of_ruleOf ht
  have hgoes : ¬ (u ∈ integer.lang ∨ u ≠ [] ∧ ∀ b ∈ u, isBlank b = true) := by
    intro h
    rw [goes_of_eq h] at hstop
    exact absurd hstop nofun
  rcases mem_rules hr hmem with h | h | h | ⟨b, rfl⟩
  · exact absurd (.inl h) hgoes
  · exact absurd (.inr h) hgoes
  · exact h
  · exact absurd hlen (by simp)

@[simp] theorem held_nil : held [] = [] := by
  rw [held, lexemes_nil]
  rfl

/-- All of a match that is no line end. -/
theorem held_of_rule {u : List UInt8} (hne : u ≠ []) (hrule : ruleOf rules u ≠ none) (hcrlf : u ≠ [CR, LF]) :
    held u = u := by
  obtain ⟨t, ht⟩ := Option.ne_none_iff_exists'.mp hrule
  have hmunch : munch rules (u ++ []) = some (t, u.length) := by
    apply munch_append ht
    intro x _ p hp hpre
    exact absurd (List.prefix_nil.mp hpre) hp
  have hlex := lexemes_append hne hmunch
  rw [List.append_nil, lexemes_nil] at hlex
  rw [held, hlex]
  show (if u = [CR, LF] then [] else u) = u
  rw [if_neg hcrlf]

theorem held_line_end : held [CR, LF] = [] := by
  have hmunch : munch rules ([CR, LF] ++ []) = some (.newline, [CR, LF].length) := by decide +kernel
  have hlex := lexemes_append (List.cons_ne_nil _ _) hmunch
  rw [List.append_nil, lexemes_nil] at hlex
  rw [held, hlex]
  rfl

/-- At most one byte. -/
theorem held_of_short {w : List UInt8} (h : w.length ≤ 1) : held w = w := by
  cases w with
  | nil => exact held_nil
  | cons b w =>
      obtain rfl : w = [] := List.length_eq_zero_iff.mp (Nat.le_zero.mp (Nat.le_of_succ_le_succ h))
      exact held_of_rule (List.cons_ne_nil _ _) (ruleOf_any b) (by simp)

/-- **A match in front** is not held, if it is not all there is, or a line end. -/
theorem held_drop {w : List UInt8} {t : Tag} {n : Nat} (h : munch rules w = some (t, n + 1))
    (hend : w.drop (n + 1) ≠ [] ∨ w = [CR, LF]) : held (w.drop (n + 1)) = held w := by
  by_cases hrest : w.drop (n + 1) = []
  · rw [hrest, held_nil, hend.resolve_left (fun hne => hne hrest), held_line_end]
  · obtain ⟨x, ls, hls⟩ := List.exists_cons_of_ne_nil (lexemes_rules_ne_nil hrest)
    rw [held, held, lexemes_of_munch h, hls, List.getLast?_cons_cons]

/-- It is at the end. -/
theorem held_suffix (w : List UInt8) : held w <:+ w := by
  unfold held
  cases h : (lexemes rules w).getLast? with
  | none => exact List.nil_suffix
  | some x =>
      show (if x.2 = [CR, LF] then [] else x.2) <:+ w
      split
      · exact List.nil_suffix
      · exact suffix_of_getLast?_lexemes (fun _ hw => munch_pos rfl ruleOf_any hw) h

/-- Digits, or blanks. -/
def IsRun (u : List UInt8) : Prop := (∀ b ∈ u, isDigit b = true) ∨ ∀ b ∈ u, isBlank b = true

/-- It is a run, or at most one byte. -/
theorem held_cases (w : List UInt8) : IsRun (held w) ∨ (held w).length ≤ 1 := by
  unfold held
  cases h : (lexemes rules w).getLast? with
  | none => exact .inr (Nat.zero_le _)
  | some x =>
      obtain ⟨r, hr, hmem⟩ := mem_lexemes (List.mem_of_getLast? h)
      show IsRun (if x.2 = [CR, LF] then [] else x.2) ∨ (if x.2 = [CR, LF] then [] else x.2).length ≤ 1
      by_cases hcrlf : x.2 = [CR, LF]
      · rw [if_pos hcrlf]
        exact .inr (Nat.zero_le _)
      · rw [if_neg hcrlf]
        rcases mem_rules hr hmem with hint | ⟨-, hblank⟩ | hline | ⟨b, hb⟩
        · obtain ⟨d, ds, hd, hds, heq⟩ := mem_integer.mp hint
          rw [heq]
          exact .inl (.inl (List.forall_mem_cons.mpr ⟨isDigit_of_isDigit19 hd, hds⟩))
        · exact .inl (.inr hblank)
        · exact absurd hline hcrlf
        · exact .inr (by rw [hb]; exact Nat.le_refl _)

end Calc
end CSamples
