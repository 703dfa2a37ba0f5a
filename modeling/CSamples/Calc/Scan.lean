import CSamples.Calc.Fill

/-!
# `Calc.Scan` — the calculator's scanner over its buffer

`scan` of `calc/scanner/scanner.re` with the code that re2c generates for its rules: a check of the buffer in front of
a byte, `YYFILL`, a step of the automaton, and the action of the rule. Where no difference of pointers is lost, the
calls find the tokens of the bytes in one buffer.

## Contents
- **Model.** `need`, the checks; `reader`; `scan`, a call, and `scanFile`, the calls up to `EOF`.
- `lawful_reader`: a refill in the middle of a token changes nothing in sight.
- `scan_spec`, one call, and from it `scanFile_spec`, all of them.
- `scanFile_mono`: where differences are kept by a platform, they are kept by one that keeps more.
-/

namespace CSamples
namespace Calc

open C CSamples.Lex

/-! ## The model -/

/-- The argument of `YYFILL` behind the bytes `u` of a match, 0 where there is no check. The check in front of a token
    is for `\r\n` too; digits and blanks are read in loops, with a check for each. -/
def need (u : List UInt8) : Nat :=
  if u = [] then 2
  else if u = [CR] then 0
  else 1

/-- The generated code, with `*s` and the cursor. -/
def reader (P : Platform) : Reader (Scanner × Nat) UInt8 where
  more u x  :=
    if 0 < need u ∧ x.1.lim < x.2 + need u then (fill P x.1 x.2).map (fun x => (true, x)) else some (true, x)
  next x    := (load x.1.buf x.2).map (fun b => (b, (x.1, x.2 + 1)))
  mark x    := ({ x.1 with ptr := x.2 }, x.2)
  restore x := (x.1, x.1.ptr.toNat)
  fallback  := true

/-- `std: s->tok = cursor;` -/
def std (x : Scanner × Nat) : Scanner × Nat := ({ x.1 with tok := x.2 }, x.2)

/-- The bytes from `tok` to the cursor. -/
def text (x : Scanner × Nat) : List UInt8 := (x.1.buf.drop x.1.tok).take (x.2 - x.1.tok)

/-- `scan` from `std` on, with `n` bytes of fuel for a match and `k` matches. -/
def scan (P : Platform) (n : Nat) : Nat → Scanner × Nat → Option (Scanned × Scanner)
  | 0, _     => none
  | k + 1, x =>
      ((reader P).run n rules [] none (std x)).bind (fun y =>
        match y with
        | (some (.ret t), x) => some (.token t (text x), { x.1 with cur := x.2 })
        | (some .blank, x)   => scan P n k x
        | (some .any, x)     => scan P n k x
        | (some .newline, x) =>
            if x.1.eof = some x.2 then some (.eof, { x.1 with cur := x.2 })
            else some (.token .newline (text x), { x.1 with cur := x.2, line := x.1.line + 1 })
        | (none, _)          => none)

/-- Calls of `scan` up to `EOF`. -/
def scanAll (P : Platform) (n : Nat) : Nat → Scanner → Option (List Scanned × Scanner)
  | 0, _     => none
  | k + 1, s =>
      (scan P n n (s, s.cur)).bind (fun x =>
        if x.1 = .eof then some ([.eof], x.2)
        else (scanAll P n k x.2).map (fun y => (x.1 :: y.1, y.2)))

/-- All calls on a file. -/
def scanFile (P : Platform) (n : Nat) (fd : Fd) : Option (List Scanned × Scanner) := scanAll P n n (scannerInit fd)

/-- The check in front of a byte goes on, behind a call of `fill` or without one. -/
theorem reader_more_cases {P : Platform} {u : List UInt8} {x y : Scanner × Nat} {b : Bool}
    (h : (reader P).more u x = some (b, y)) :
    b = true ∧ (0 < need u ∧ x.1.lim < x.2 + need u ∧ fill P x.1 x.2 = some y ∨
      ¬ (0 < need u ∧ x.1.lim < x.2 + need u) ∧ y = x) := by
  simp only [reader] at h
  split at h
  · next hcheck =>
      obtain ⟨z, hz, heq⟩ := Option.map_eq_some_iff.mp h
      obtain ⟨rfl, rfl⟩ := Prod.mk.inj heq
      exact ⟨rfl, .inl ⟨hcheck.1, hcheck.2, hz⟩⟩
  · next hcheck =>
      obtain ⟨rfl, rfl⟩ := Prod.mk.inj (Option.some.inj h)
      exact ⟨rfl, .inr ⟨hcheck, rfl⟩⟩

/-- A byte is read. -/
theorem reader_next_eq {P : Platform} {x y : Scanner × Nat} {a : UInt8} (h : (reader P).next x = some (a, y)) :
    load x.1.buf x.2 = some a ∧ y = (x.1, x.2 + 1) := by
  obtain ⟨b, hb, heq⟩ := Option.map_eq_some_iff.mp h
  obtain ⟨rfl, rfl⟩ := Prod.mk.inj heq
  exact ⟨hb, rfl⟩

/-! ## What the scanner sees -/

/-- In a match `u` was read and `v` is to come, then the bytes `l`; the marker is behind the first `m` bytes. Up to
    `T` bytes come into the buffer. -/
structure Sees (T : Nat) (w l u v : List UInt8) (m : Option Nat) (x : Scanner × Nat) : Prop where
  holds  : Holds w l x.1
  word   : w = u ++ v
  cursor : x.2 = x.1.tok + u.length
  marked : ∀ k ∈ m, x.1.ptr = ((x.1.tok + k : Nat) : Int)
  read   : x.1.eof = none → x.1.tok + u.length ≤ x.1.lim
  ahead  : x.1.eof = none → u ≠ [] → x.1.tok + 2 ≤ x.1.lim
  bound  : x.1.eof = none → x.1.lim + (taken x.1.fd.blocks).length ≤ T

theorem Holds.length {w l : List UInt8} {s : Scanner} (h : Holds w l s) :
    (s.eof = none → w.length = s.lim - s.tok + (taken s.fd.blocks).length + 1) ∧
    (s.eof ≠ none → w.length = s.lim - s.tok + 1) := by
  have h1 := h.tok_le
  have h2 := h.lim_le
  have h3 := h.size
  constructor
  · intro heof
    obtain ⟨-, -, hw⟩ := h.going heof
    rw [hw, List.length_append, List.length_append, List.length_take, List.length_drop, List.length_singleton]
    omega
  · intro heof
    obtain ⟨e, he⟩ := Option.ne_none_iff_exists'.mp heof
    obtain ⟨-, -, hlt, hw⟩ := h.ended e he
    rw [hw, List.length_take, List.length_drop]
    omega

/-- The bytes in the buffer. -/
theorem Holds.take {w l : List UInt8} {s : Scanner} (h : Holds w l s) {n : Nat} (hn : n ≤ w.length)
    (hread : s.eof = none → s.tok + n ≤ s.lim) : w.take n = (s.buf.drop s.tok).take n := by
  have h1 := h.tok_le
  have h2 := h.lim_le
  have h3 := h.size
  have hlen := h.length
  by_cases heof : s.eof = none
  · obtain ⟨-, -, hw⟩ := h.going heof
    have hle : n ≤ s.lim - s.tok := by
      have := hread heof
      omega
    rw [hw, List.take_append_of_le_length (by rw [List.length_take, List.length_drop]; omega), List.take_take,
      Nat.min_eq_left hle]
  · obtain ⟨e, he⟩ := Option.ne_none_iff_exists'.mp heof
    obtain ⟨-, -, hlt, hw⟩ := h.ended e he
    have hle : n ≤ s.lim - s.tok + 1 := by
      rw [← hlen.2 heof]
      exact hn
    rw [hw, List.take_take, Nat.min_eq_left hle]

/-- The next byte is in the buffer. -/
theorem Sees.load {T : Nat} {w l u v : List UInt8} {a : UInt8} {m : Option Nat} {x : Scanner × Nat}
    (h : Sees T w l u (a :: v) m x) (hread : x.1.eof = none → x.1.tok + u.length + 1 ≤ x.1.lim) :
    C.load x.1.buf x.2 = some a := by
  have htake := @Holds.take w l x.1 h.holds (u.length + 1) (by rw [h.word]; simp) (by
    intro heof
    have := hread heof
    omega)
  have hget := congrArg (fun w => w[u.length]?) htake
  simp only [h.word, List.getElem?_take, Nat.lt_succ_self, if_true, List.getElem?_drop] at hget
  rw [List.getElem?_append_right (Nat.le_refl _), Nat.sub_self] at hget
  rw [C.load, h.cursor]
  exact hget.symm

/-- A call of `fill` in a match. -/
theorem Sees.fill {P : Platform} {T : Nat} {w l u v : List UInt8} {m : Option Nat} {x : Scanner × Nat}
    (h : Sees T w l u v m x) (hconv : x.1.eof = none → P.conv x.1.tok = some x.1.tok) :
    ∃ y, Calc.fill P x.1 x.2 = some y ∧ Sees T w l u v m y ∧ (y.1.eof = none → y.1.tok + u.length + 2 ≤ y.1.lim) := by
  have h1 := h.holds.tok_le
  have hcur := h.cursor
  by_cases heof : x.1.eof = none
  · have hT := h.bound heof
    have hread := h.read heof
    have htok := hconv heof
    have hself : x.2 - x.1.tok = 0 + u.length := by omega
    have hmark : ∀ k ∈ m, x.1.ptr - (x.1.tok : Int) = ((0 + k : Nat) : Int) := by
      intro k hk
      rw [h.marked k hk]
      omega
    by_cases hfull : ∃ d ds, x.1.fd.blocks = d :: ds ∧ d.length = BSIZE
    · -- as many bytes come in as a check may ask for
      obtain ⟨d, ds, hd, hlen⟩ := hfull
      obtain ⟨s, hs, hholds, htok', hptr, heof', hlim, hblocks⟩ := fill_full h.holds heof htok x.2 hd hlen
      have hB : BSIZE = 8192 := rfl
      rw [hd, taken, if_pos hlen, List.length_append] at hT
      refine ⟨(s, x.2 - x.1.tok), hs, ⟨hholds, h.word, ?_, ?_, ?_, ?_, ?_⟩, ?_⟩
      · rw [htok']
        exact hself
      · rw [htok', hptr]
        exact hmark
      · intro _
        show s.tok + u.length ≤ s.lim
        omega
      · intro _ _
        show s.tok + 2 ≤ s.lim
        omega
      · intro _
        show s.lim + (taken s.fd.blocks).length ≤ T
        rw [hblocks]
        omega
      · intro _
        show s.tok + u.length + 2 ≤ s.lim
        omega
    · -- the end is found: nothing is promised about the room
      obtain ⟨s, hs, hholds, htok', hptr, heof'⟩ := fill_short h.holds heof htok x.2 (by
        intro d hd hlen
        obtain ⟨ds, hds⟩ := List.head?_eq_some_iff.mp hd
        exact hfull ⟨d, ds, hds, hlen⟩)
      refine ⟨(s, x.2 - x.1.tok), hs, ⟨hholds, h.word, ?_, ?_, ?_, ?_, ?_⟩, ?_⟩
      · rw [htok']
        exact hself
      · rw [htok', hptr]
        exact hmark
      all_goals exact fun he => absurd he heof'
  · exact ⟨x, fill_of_eof heof x.2, h, fun he => absurd he heof⟩

/-- The check in front of the next byte. -/
theorem Sees.more {P : Platform} {T : Nat} {w l u v : List UInt8} {m : Option Nat} {x : Scanner × Nat}
    (h : Sees T w l u v m x) (hconv : x.1.eof = none → P.conv x.1.tok = some x.1.tok) :
    ∃ y, (reader P).more u x = some (true, y) ∧ Sees T w l u v m y ∧
      (y.1.eof = none → y.1.tok + u.length + 1 ≤ y.1.lim ∧ y.1.tok + 2 ≤ y.1.lim) := by
  have hcur := h.cursor
  by_cases hcheck : 0 < need u ∧ x.1.lim < x.2 + need u
  · obtain ⟨y, hy, hsees, hroom⟩ := h.fill hconv
    refine ⟨y, ?_, hsees, ?_⟩
    · show (if 0 < need u ∧ x.1.lim < x.2 + need u then _ else _) = _
      rw [if_pos hcheck, hy]
      rfl
    · intro heof
      have := hroom heof
      omega
  · refine ⟨x, if_neg hcheck, h, ?_⟩
    intro heof
    by_cases hu : u = []
    · have hneed : need u = 2 := by rw [need, if_pos hu]
      have hlen : u.length = 0 := by rw [hu]; rfl
      omega
    · have hahead := h.ahead heof hu
      by_cases hcr : u = [CR]
      · have hlen : u.length = 1 := by rw [hcr]; rfl
        omega
      · have hneed : need u = 1 := by rw [need, if_neg hu, if_neg hcr]
        omega

/-- The next byte is read. -/
theorem Sees.next {T : Nat} {w l u v : List UInt8} {a : UInt8} {m : Option Nat} {x : Scanner × Nat}
    (h : Sees T w l u (a :: v) m x)
    (hroom : x.1.eof = none → x.1.tok + u.length + 1 ≤ x.1.lim ∧ x.1.tok + 2 ≤ x.1.lim) (P : Platform) :
    (reader P).next x = some (a, (x.1, x.2 + 1)) ∧ Sees T w l (u ++ [a]) v m (x.1, x.2 + 1) := by
  constructor
  · show (C.load x.1.buf x.2).map _ = _
    rw [h.load (fun heof => (hroom heof).1)]
    rfl
  · refine ⟨h.holds, ?_, ?_, h.marked, ?_, fun heof _ => (hroom heof).2, h.bound⟩
    · rw [h.word, List.append_assoc]
      rfl
    · show x.2 + 1 = _
      rw [h.cursor, List.length_append, List.length_singleton, Nat.add_assoc]
    · intro heof
      have := (hroom heof).1
      rw [List.length_append, List.length_singleton]
      omega

theorem Sees.mark {T : Nat} {w l u v : List UInt8} {m : Option Nat} {x : Scanner × Nat} (h : Sees T w l u v m x)
    (P : Platform) : Sees T w l u v (some u.length) ((reader P).mark x) := by
  refine ⟨⟨h.holds.tok_le, h.holds.lim_le, h.holds.size, h.holds.going, h.holds.ended⟩, h.word, h.cursor, ?_, h.read,
    h.ahead, h.bound⟩
  intro k hk
  obtain rfl := Option.some.inj hk
  show ((x.2 : Nat) : Int) = _
  rw [h.cursor]
  rfl

theorem Sees.restore {T : Nat} {w l u v : List UInt8} {k : Nat} {x : Scanner × Nat} (h : Sees T w l u v (some k) x)
    (hk : k ≤ u.length) (P : Platform) :
    Sees T w l (u.take k) (u.drop k ++ v) (some k) ((reader P).restore x) := by
  refine ⟨h.holds, ?_, ?_, h.marked, ?_, ?_, h.bound⟩
  · rw [h.word, ← List.append_assoc, List.take_append_drop]
  · show x.1.ptr.toNat = _
    rw [h.marked k rfl, Int.toNat_natCast, List.length_take, Nat.min_eq_left hk]
    rfl
  · intro heof
    have := h.read heof
    show x.1.tok + (u.take k).length ≤ x.1.lim
    rw [List.length_take]
    omega
  · intro heof hne
    refine h.ahead heof ?_
    rintro rfl
    exact hne List.take_nil

/-- **A refill changes nothing in sight.** -/
theorem lawful_reader {P : Platform} {T : Nat} (hconv : ∀ d ≤ T, P.conv d = some d) (w l : List UInt8) :
    (reader P).Lawful (Sees T w l) where
  next := by
    intro u a v m x h
    have htok : x.1.eof = none → P.conv x.1.tok = some x.1.tok := by
      intro heof
      have := h.bound heof
      have := h.holds.tok_le
      exact hconv x.1.tok (by omega)
    obtain ⟨y, hy, hsees, hroom⟩ := h.more htok
    obtain ⟨hnext, hsees'⟩ := hsees.next hroom P
    exact ⟨y, _, hy, hnext, hsees'⟩
  mark h    := h.mark P
  restore h := fun hk => h.restore hk P

/-! ## Between the matches -/

/-- At the end of the buffer nothing is to come, and only there. -/
theorem Sees.eof_iff {T : Nat} {w l u v : List UInt8} {m : Option Nat} {x : Scanner × Nat} (h : Sees T w l u v m x) :
    x.1.eof = some x.2 ↔ v = [] := by
  have h1 := h.holds.tok_le
  have hcur := h.cursor
  have hlen := h.holds.length
  rw [h.word, List.length_append] at hlen
  constructor
  · intro heof
    obtain ⟨hlim, -⟩ := h.holds.ended _ heof
    have hall := hlen.2 (by rw [heof]; nofun)
    exact List.length_eq_zero_iff.mp (by omega)
  · intro hv
    rw [hv, List.length_nil] at hlen
    have heof : x.1.eof ≠ none := by
      intro heof
      have := h.read heof
      have := hlen.1 heof
      omega
    obtain ⟨e, he⟩ := Option.ne_none_iff_exists'.mp heof
    obtain ⟨hlim, -⟩ := h.holds.ended e he
    have := hlen.2 heof
    rw [he]
    congr 1
    omega

/-- The next match starts where the last one ended. -/
theorem Sees.std {T : Nat} {w l u v : List UInt8} {m : Option Nat} {x : Scanner × Nat} (h : Sees T w l u v m x)
    (hv : v ≠ []) : Sees T v l [] v none (std x) := by
  have h1 := h.holds.tok_le
  have hcur := h.cursor
  have hpos := List.length_pos_iff.mpr hv
  have hlen := h.holds.length
  rw [h.word, List.length_append] at hlen
  have hdrop : v = w.drop u.length := by rw [h.word, List.drop_left]
  have hle : x.2 ≤ x.1.lim := by
    by_cases heof : x.1.eof = none
    · have := h.read heof
      omega
    · have := hlen.2 heof
      omega
  refine ⟨⟨hle, h.holds.lim_le, h.holds.size, ?_, ?_⟩, rfl, rfl, nofun, fun _ => hle, fun _ hne => absurd rfl hne,
    h.bound⟩
  · intro heof
    obtain ⟨hsane, hl, hw⟩ := h.holds.going heof
    refine ⟨hsane, hl, ?_⟩
    show v = (x.1.buf.drop x.2).take (x.1.lim - x.2) ++ _
    have h3 := h.holds.size
    have h2 := h.holds.lim_le
    rw [hdrop, hw, List.drop_append_of_le_length (by rw [List.length_take, List.length_drop]; omega), List.drop_take,
      List.drop_drop, hcur, Nat.sub_sub]
    rfl
  · intro e he
    obtain ⟨hlim, hl, hlt, hw⟩ := h.holds.ended e he
    refine ⟨hlim, hl, hlt, ?_⟩
    show v = (x.1.buf.drop x.2).take (x.1.lim - x.2 + 1)
    rw [hdrop, hw, List.drop_take, List.drop_drop, ← hcur]
    congr 1
    omega

/-- What a call stores between two tokens is not looked at. -/
theorem Sees.setCur {T : Nat} {v l : List UInt8} {x : Scanner × Nat} (h : Sees T v l [] v none (Calc.std x))
    (c : Nat) (line : UInt32) : Sees T v l [] v none (Calc.std ({ x.1 with cur := c, line := line }, x.2)) :=
  ⟨⟨h.holds.tok_le, h.holds.lim_le, h.holds.size, h.holds.going, h.holds.ended⟩, h.word, h.cursor, nofun, h.read, h.ahead,
    h.bound⟩

theorem Sees.text {T : Nat} {w l u v : List UInt8} {m : Option Nat} {x : Scanner × Nat} (h : Sees T w l u v m x) :
    text x = u := by
  have htake := @Holds.take w l x.1 h.holds u.length (by rw [h.word]; simp) h.read
  rw [h.word, List.take_left] at htake
  rw [Calc.text, h.cursor, Nat.add_sub_cancel_left]
  exact htake.symm

theorem sees_scannerInit {fd : Fd} (h : fd.Sane) :
    Sees (taken fd.blocks).length (taken fd.blocks ++ [LF]) (untaken fd.blocks) [] (taken fd.blocks ++ [LF]) none
      (std (scannerInit fd, 0)) :=
  ⟨holds_scannerInit h, rfl, rfl, nofun, fun _ => Nat.le_refl _, fun _ hne => absurd rfl hne,
    fun _ => Nat.le_of_eq (Nat.zero_add _)⟩

/-! ## One match -/

theorem rules_live : ∀ x ∈ rules, x.1.Live := by
  have hdigit : Regex.Live (.cls isDigit) := ⟨ch '1', by decide⟩
  have hdigit19 : Regex.Live (.cls isDigit19) := ⟨ch '1', by decide⟩
  have hblank : Regex.Live (.cls isBlank) := ⟨0x20, by decide⟩
  intro x hx
  simp only [rules, List.mem_cons, List.not_mem_nil, or_false] at hx
  rcases hx with rfl | rfl | rfl | rfl | rfl | rfl | rfl | rfl | rfl | rfl | rfl | rfl
  · exact ⟨hdigit19, hdigit⟩
  · exact Regex.live_word _
  · exact Regex.live_word _
  · exact Regex.live_word _
  · exact Regex.live_word _
  · exact Regex.live_word _
  · exact Regex.live_word _
  · exact Regex.live_word _
  · exact Regex.live_word _
  · exact Regex.live_plus hblank
  · exact ⟨Regex.live_word _, Regex.live_word _⟩
  · exact ⟨0, rfl⟩

/-- The generated code looks at another byte behind `u`. -/
theorem goes_iff {u : List UInt8} : (rules.after u).canStep = true ↔ ∃ x ∈ rules, ∃ a w, u ++ a :: w ∈ x.1.lang :=
  canStep_after_iff rules_live

/-- A byte that is neither a digit nor a blank nor CR is matched with nothing behind it. -/
theorem eq_nil_of_mem_rules {x : Regex UInt8 × Tag} (hx : x ∈ rules) {u w : List UInt8} {b : UInt8}
    (hd : isDigit b = false) (hb : isBlank b = false) (hr : b ≠ CR) (h : u ++ b :: w ∈ x.1.lang) : w = [] := by
  have hmem : b ∈ u ++ b :: w := List.mem_append_right _ (List.mem_cons_self ..)
  rcases mem_rules hx h with h | ⟨-, h⟩ | h | ⟨c, h⟩
  · obtain ⟨d, ds, hd19, hds, heq⟩ := mem_integer.mp h
    rw [heq] at hmem
    rcases List.mem_cons.mp hmem with rfl | hmem
    · exact absurd (isDigit_of_isDigit19 hd19) (by rw [hd]; decide)
    · exact absurd (hds b hmem) (by rw [hd]; decide)
  · exact absurd (h b hmem) (by rw [hb]; decide)
  · cases u with
    | nil => exact absurd (List.cons.inj h).1 hr
    | cons a u =>
        have hlen := congrArg List.length h
        simp only [List.length_append, List.length_cons, List.length_nil] at hlen
        exact List.length_eq_zero_iff.mp (by omega)
  · have hlen := congrArg List.length h
    simp only [List.length_append, List.length_cons, List.length_nil] at hlen
    exact List.length_eq_zero_iff.mp (by omega)

/-- Behind a newline no rule goes on. -/
theorem not_goes_newline (w : List UInt8) : (rules.after (w ++ [LF])).canStep = false := by
  rw [Bool.eq_false_iff]
  intro hgoes
  obtain ⟨x, hx, a, y, hy⟩ := goes_iff.mp hgoes
  rw [List.append_assoc] at hy
  exact absurd (eq_nil_of_mem_rules hx rfl rfl (by decide) hy) nofun

theorem ruleOf_any (b : UInt8) : ruleOf rules [b] ≠ none := by
  intro hnone
  exact ruleOf_eq_none.mp hnone (.cls (fun _ => true), .any) (by simp [rules]) ⟨b, rfl, rfl⟩

/-- A match with the newline at its end is that of the newline. -/
theorem eq_newline_of_ruleOf {w : List UInt8} {t : Tag} (h : ruleOf rules (w ++ [LF]) = some t) : t = .newline := by
  obtain ⟨r, hr, hmem⟩ := mem_of_ruleOf h
  have hword : ∀ c, LF ≠ ch c → w ++ [LF] ∉ (Regex.word [ch c]).lang := by
    intro c hc hw
    have hlast := List.mem_append_right w (List.mem_singleton_self LF)
    rw [Regex.mem_word.mp hw] at hlast
    exact hc (List.mem_singleton.mp hlast)
  have hsuffix : LF ∈ w ++ [LF] := List.mem_append_right w (List.mem_singleton_self LF)
  simp only [rules, List.mem_cons, List.not_mem_nil, or_false, Prod.mk.injEq] at hr
  rcases hr with ⟨rfl, -⟩ | ⟨rfl, -⟩ | ⟨rfl, -⟩ | ⟨rfl, -⟩ | ⟨rfl, -⟩ | ⟨rfl, -⟩ | ⟨rfl, -⟩ | ⟨rfl, -⟩ | ⟨rfl, -⟩ |
    ⟨rfl, -⟩ | ⟨-, rfl⟩ | ⟨rfl, rfl⟩
  · obtain ⟨d, ds, hd19, hds, heq⟩ := mem_integer.mp hmem
    rw [heq] at hsuffix
    rcases List.mem_cons.mp hsuffix with rfl | hin
    · exact absurd hd19 (by decide)
    · exact absurd (hds LF hin) (by decide)
  · exact absurd hmem (hword _ (by decide))
  · exact absurd hmem (hword _ (by decide))
  · exact absurd hmem (hword _ (by decide))
  · exact absurd hmem (hword _ (by decide))
  · exact absurd hmem (hword _ (by decide))
  · exact absurd hmem (hword _ (by decide))
  · exact absurd hmem (hword _ (by decide))
  · exact absurd hmem (hword _ (by decide))
  · exact absurd ((Regex.mem_plus_cls.mp hmem).2 LF hsuffix) (by decide)
  · rfl
  · obtain ⟨b, -, hb⟩ := Regex.mem_cls.mp hmem
    rw [hb] at h hsuffix
    rw [← List.mem_singleton.mp hsuffix] at h
    exact absurd h (by decide +kernel)

/-- **One match** is the first lexeme. -/
theorem match_spec {P : Platform} {T : Nat} (hconv : ∀ d ≤ T, P.conv d = some d) {w l : List UInt8}
    {x : Scanner × Nat} (h : Sees T (w ++ [LF]) l [] (w ++ [LF]) none x) {n : Nat} (hn : w.length + 1 < n) :
    ∃ t u v y, w ++ [LF] = u ++ v ∧ u ≠ [] ∧ ruleOf rules u = some t ∧
      lexemes rules (w ++ [LF]) = (t, u) :: lexemes rules v ∧
      (reader P).run n rules [] none x = some (some t, y) ∧ Sees T (w ++ [LF]) l u v (some u.length) y := by
  obtain ⟨t, k, hm⟩ := @munch_pos _ _ rules rfl ruleOf_any _ (List.concat_ne_nil LF w)
  have hle := munch_length_le hm
  obtain ⟨y, hrun, k', hsees, hk'⟩ := @Reader.run_spec _ _ _ _ _ (lawful_reader hconv (w ++ [LF]) l) (w ++ [LF]) [] rules
    none x n (.inr (not_goes_newline w)) h nofun (by rw [List.length_append]; exact hn)
  have hfrom : munchFrom (w ++ [LF]) rules none ([] : List UInt8).length = some (t, k + 1) := hm
  rw [hfrom] at hrun hsees hk'
  obtain rfl : k + 1 = k' := hk' (t, k + 1) rfl
  have hlen : ((w ++ [LF]).take (k + 1)).length = k + 1 := by
    rw [List.length_take, Nat.min_eq_left hle]
  refine ⟨t, (w ++ [LF]).take (k + 1), (w ++ [LF]).drop (k + 1), y, (List.take_append_drop _ _).symm, ?_,
    (munch_eq_some_iff.mp hm).rule, lexemes_of_munch hm, hrun, ?_⟩
  · intro hnil
    rw [hnil] at hlen
    exact absurd hlen nofun
  · rw [hlen]
    exact hsees

/-! ## The calls -/

/-- What a call of `scan` leaves: it has returned `EOF` at the end of the buffer, with the bytes `l` unread, or
    another result in front of `w'`. -/
def Called (T : Nat) (w l : List UInt8) (y : Scanned) (s : Scanner) : Prop :=
  (y = .eof ∧ scans (lexemes rules (w ++ [LF])) = [.eof] ∧ s.fd.data = l ∧ s.eof = some s.cur) ∨
  (y ≠ .eof ∧ ∃ w', w'.length < w.length ∧ scans (lexemes rules (w ++ [LF])) = y :: scans (lexemes rules (w' ++ [LF])) ∧
    Sees T (w' ++ [LF]) l [] (w' ++ [LF]) none (std (s, s.cur)))

/-- Behind what is skipped, the call goes on with the rest. -/
theorem Called.of_skip {T : Nat} {w w' l : List UInt8} {y : Scanned} {s : Scanner} (hlt : w'.length < w.length)
    (hskip : scans (lexemes rules (w ++ [LF])) = scans (lexemes rules (w' ++ [LF]))) (h : Called T w' l y s) :
    Called T w l y s := by
  unfold Called at h ⊢
  rw [hskip]
  exact h.imp_right (fun ⟨hne, w'', hlt', hscans⟩ => ⟨hne, w'', Nat.lt_trans hlt' hlt, hscans⟩)

/-- **One call of `scan`** returns the first token. -/
theorem scan_spec {P : Platform} {T : Nat} (hconv : ∀ d ≤ T, P.conv d = some d) {n k : Nat} {w l : List UInt8}
    {x : Scanner × Nat} (h : Sees T (w ++ [LF]) l [] (w ++ [LF]) none (std x)) (hn : w.length + 1 < n) (hk : w.length < k) :
    ∃ y s, scan P n k x = some (y, s) ∧ Called T w l y s := by
  induction k generalizing w x with
  | zero => exact absurd hk (Nat.not_lt_zero _)
  | succ k ih =>
      obtain ⟨t, u, v, y, hw, hu, hrule, hlex, hrun, hsees⟩ := match_spec hconv h hn
      unfold scan
      rw [hrun, Option.bind_some]
      rcases List.eq_nil_or_concat v with rfl | ⟨w', b, rfl⟩
      · -- the newline behind the last byte
        rw [List.append_nil] at hw
        rw [← hw] at hrule
        obtain rfl := eq_newline_of_ruleOf hrule
        have heof := hsees.eof_iff.mpr rfl
        have hdata := (hsees.holds.ended _ heof).2.1
        refine ⟨.eof, _, if_pos heof, .inl ⟨rfl, ?_, hdata.symm, heof⟩⟩
        rw [hlex, lexemes_nil]
        rfl
      · rw [List.concat_eq_append, ← List.append_assoc] at hw
        obtain ⟨hsplit, hb⟩ := List.append_inj' hw rfl
        obtain rfl := List.singleton_inj.mp hb
        rw [List.concat_eq_append] at hsees hlex
        have hlt : w'.length < w.length := by
          have hpos := List.length_pos_iff.mpr hu
          rw [hsplit, List.length_append]
          omega
        have hnext := hsees.std (List.concat_ne_nil LF w')
        have hne : lexemes rules (w' ++ [LF]) ≠ [] := lexemes_rules_ne_nil (List.concat_ne_nil LF w')
        have heof : y.1.eof ≠ some y.2 := fun heof => absurd (hsees.eof_iff.mp heof) (List.concat_ne_nil LF w')
        -- by the action of the rule
        cases t with
        | ret t =>
            refine ⟨.token t (text y), _, rfl, .inr ⟨nofun, w', hlt, ?_, hnext.setCur y.2 y.1.line⟩⟩
            rw [hlex, hsees.text]
            rfl
        | blank =>
            obtain ⟨z, s, hs, hz⟩ := ih hnext (by omega) (by omega)
            exact ⟨z, s, hs, hz.of_skip hlt (by rw [hlex]; rfl)⟩
        | any =>
            obtain ⟨z, s, hs, hz⟩ := ih hnext (by omega) (by omega)
            exact ⟨z, s, hs, hz.of_skip hlt (by rw [hlex]; rfl)⟩
        | newline =>
            refine ⟨.token .newline (text y), _, if_neg heof, .inr ⟨nofun, w', hlt, ?_, hnext.setCur y.2 _⟩⟩
            rw [hlex, hsees.text]
            show (if (lexemes rules (w' ++ [LF])).isEmpty then _ else _) = _
            rw [if_neg (by simpa using hne)]

theorem scanAll_spec {P : Platform} {T : Nat} (hconv : ∀ d ≤ T, P.conv d = some d) {n k : Nat} {w l : List UInt8}
    {s : Scanner} (h : Sees T (w ++ [LF]) l [] (w ++ [LF]) none (std (s, s.cur))) (hn : w.length + 1 < n)
    (hk : w.length < k) :
    ∃ s', scanAll P n k s = some (scans (lexemes rules (w ++ [LF])), s') ∧ s'.fd.data = l ∧ s'.eof = some s'.cur := by
  induction k generalizing w s with
  | zero => exact absurd hk (Nat.not_lt_zero _)
  | succ k ih =>
      obtain ⟨y, s₁, hs₁, hcalled⟩ := scan_spec hconv h hn (by omega : w.length < n)
      unfold scanAll
      rw [hs₁, Option.bind_some]
      rcases hcalled with ⟨rfl, hscans, hdata, heof⟩ | ⟨hne, w', hlt, hscans, hnext⟩
      · exact ⟨s₁, by rw [if_pos rfl, hscans], hdata, heof⟩
      · obtain ⟨s', hs', hdata, heof⟩ := ih hnext (by omega) (by omega)
        exact ⟨s', by rw [if_neg hne, hs', Option.map_some, hscans], hdata, heof⟩

/-- **The calls on a file**: the tokens of the bytes up to the first short block, if no difference of pointers up to
    the number of these bytes is lost. -/
theorem scanFile_spec {P : Platform} {fd : Fd} (h : fd.Sane) (hconv : ∀ d ≤ (taken fd.blocks).length, P.conv d = some d)
    {n : Nat} (hn : (taken fd.blocks).length + 1 < n) :
    ∃ s', scanFile P n fd = some (scanned (taken fd.blocks), s') ∧ s'.fd.data = untaken fd.blocks ∧ s'.eof = some s'.cur :=
  scanAll_spec hconv (sees_scannerInit h) hn (by omega)

/-! ## Platforms that keep more -/

/-- `Q` keeps the differences that `P` keeps. -/
structure Platform.Le (P Q : Platform) : Prop where
  junk : Q.junk = P.junk
  conv : ∀ {d c}, P.conv d = some c → Q.conv d = some c

theorem Platform.Le.refl (P : Platform) : P.Le P := ⟨rfl, id⟩

theorem fill_mono {P Q : Platform} (h : P.Le Q) {s : Scanner} {cursor : Nat} {x : Scanner × Nat}
    (hfill : fill P s cursor = some x) : fill Q s cursor = some x := by
  have hgrow : grow Q = grow P := by
    funext s
    unfold grow
    rw [h.junk]
  unfold fill at hfill ⊢
  split at hfill
  · next heof =>
      rw [if_pos heof]
      exact hfill
  · next heof =>
      rw [if_neg heof, hgrow]
      obtain ⟨c, hc, hfill⟩ := Option.bind_eq_some_iff.mp hfill
      rw [h.conv hc]
      exact hfill

theorem reader_le {P Q : Platform} (h : P.Le Q) : (reader P).Le (reader Q) where
  more := by
    intro u s x hmore
    simp only [reader] at hmore ⊢
    split at hmore
    · next hcheck =>
        obtain ⟨y, hy, hx⟩ := Option.map_eq_some_iff.mp hmore
        rw [if_pos hcheck, fill_mono h hy, ← hx]
        rfl
    · next hcheck =>
        rw [if_neg hcheck]
        exact hmore
  next     := id
  mark     := rfl
  restore  := rfl
  fallback := rfl

theorem scan_mono {P Q : Platform} (h : P.Le Q) {n m : Nat} (hnm : n ≤ m) {k j : Nat} (hkj : k ≤ j)
    {x : Scanner × Nat} {y : Scanned × Scanner} (hscan : scan P n k x = some y) : scan Q m j x = some y := by
  induction k generalizing j x with
  | zero => exact absurd hscan nofun
  | succ k ih =>
      obtain ⟨j, rfl⟩ : ∃ i, j = i + 1 := ⟨j - 1, by omega⟩
      unfold scan at hscan ⊢
      obtain ⟨z, hz, hscan⟩ := Option.bind_eq_some_iff.mp hscan
      rw [Reader.run_mono (reader_le h) hnm hz, Option.bind_some]
      split at hscan
      · exact hscan
      · exact ih (Nat.le_of_succ_le_succ hkj) hscan
      · exact ih (Nat.le_of_succ_le_succ hkj) hscan
      · exact hscan
      · exact absurd hscan nofun

theorem scanAll_mono {P Q : Platform} (h : P.Le Q) {n m : Nat} (hnm : n ≤ m) {k j : Nat} (hkj : k ≤ j)
    {s : Scanner} {y : List Scanned × Scanner} (hscan : scanAll P n k s = some y) : scanAll Q m j s = some y := by
  induction k generalizing j s y with
  | zero => exact absurd hscan nofun
  | succ k ih =>
      obtain ⟨j, rfl⟩ : ∃ i, j = i + 1 := ⟨j - 1, by omega⟩
      unfold scanAll at hscan ⊢
      obtain ⟨z, hz, hscan⟩ := Option.bind_eq_some_iff.mp hscan
      rw [scan_mono h hnm hnm hz, Option.bind_some]
      split at hscan
      · next heof =>
          rw [if_pos heof]
          exact hscan
      · next heof =>
          obtain ⟨r, hr, hy⟩ := Option.map_eq_some_iff.mp hscan
          rw [if_neg heof, ih (Nat.le_of_succ_le_succ hkj) hr, ← hy]
          rfl

/-- A run that returns does the same with more fuel and on a platform that keeps more. -/
theorem scanFile_mono {P Q : Platform} (h : P.Le Q) {n m : Nat} (hnm : n ≤ m) {fd : Fd} {y : List Scanned × Scanner}
    (hrun : scanFile P n fd = some y) : scanFile Q m fd = some y :=
  scanAll_mono h hnm hnm hrun

end Calc
end CSamples
