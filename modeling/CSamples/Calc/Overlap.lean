import CSamples.Calc.Memcpy

/-!
# `Calc.Overlap` — the files on which the ranges of `memcpy` overlap

`fill` moves `lim - tok` bytes down by `tok - bot`. When it is called, what is behind `tok` is the token under way, and
the ranges overlap where this is longer than what is in front of it and does not start the buffer.

## Contents
- **Invariants.** `InMatch`: where the cursor and the marker of a match are. `Past`: behind the end of the file, or a
  distance that is lost, no ranges overlap any more. `Holding w`: the bytes `w` are in the buffer.
- `Holding.safe_iff`: from any such state on, the copies are apart where `Apart` says so; and from it the result, for
  all files.
- A file on which they overlap, and the files without long tokens, on which they do not.
-/

namespace CSamples
namespace Calc

open C CSamples.Lex

/-! ## The check for more -/

/-- Only the marker is set at the check for more, behind a match to the byte in front of the cursor. -/
theorem marked_eq (P : Platform) (p : Point) :
    ∃ ptr, (reader P).marked p = ({ p.src.1 with ptr := ptr }, p.src.2) ∧
      ((accepting p.rules).isSome = true → ptr = p.src.2) ∧
      ((accepting p.rules).isSome = false → ptr = p.src.1.ptr) := by
  unfold Reader.marked
  cases h : (accepting p.rules).isSome with
  | true => exact ⟨p.src.2, rfl, fun _ => rfl, nofun⟩
  | false => exact ⟨p.src.1.ptr, rfl, nofun, fun _ => rfl⟩

/-- Where a call of `fill` is made. -/
theorem filling_eq_some {P : Platform} {p : Point} {s : Scanner} (h : filling P p = some s) :
    ∃ ptr, s = { p.src.1 with ptr := ptr } ∧ (reader P).marked p = (s, p.src.2) ∧ p.rules.canStep = true ∧
      0 < need p.read ∧ p.src.1.lim < p.src.2 + need p.read := by
  obtain ⟨ptr, hmarked, -⟩ := marked_eq P p
  unfold filling at h
  simp only at h
  rw [hmarked] at h
  obtain ⟨⟨hgo, hneed, hlim⟩, hs⟩ := Option.ite_none_right_eq_some.mp h
  obtain rfl := Option.some.inj hs
  exact ⟨ptr, rfl, hmarked, hgo, hneed, hlim⟩

/-- Where none is made. -/
theorem not_short_of_filling {P : Platform} {p : Point} (hgo : p.rules.canStep = true) (hnone : filling P p = none) :
    ¬ (0 < need p.read ∧ p.src.1.lim < p.src.2 + need p.read) := by
  obtain ⟨ptr, hmarked, -⟩ := marked_eq P p
  intro hcheck
  unfold filling at hnone
  simp only at hnone
  rw [hmarked, if_pos ⟨hgo, hcheck⟩] at hnone
  exact absurd hnone nofun

/-- The check for more calls `fill` or does nothing. -/
theorem more_cases {P : Platform} {p : Point} {x : Scanner × Nat} (hgo : p.rules.canStep = true)
    (h : (reader P).more p.read ((reader P).marked p) = some (true, x)) :
    (filling P p = none ∧ x = (reader P).marked p) ∨
    (filling P p = some ((reader P).marked p).1 ∧ p.src.1.lim < p.src.2 + need p.read ∧
      fill P ((reader P).marked p).1 p.src.2 = some x) := by
  obtain ⟨ptr, hmarked, -⟩ := marked_eq P p
  unfold filling
  simp only
  rw [hmarked] at h ⊢
  obtain ⟨-, ⟨hneed, hlim, hfill⟩ | ⟨hcheck, rfl⟩⟩ := reader_more_cases h
  · exact .inr ⟨if_pos ⟨hgo, hneed, hlim⟩, hlim, hfill⟩
  · exact .inl ⟨if_neg (fun hall => hcheck hall.2), rfl⟩

theorem need_le_two (u : List UInt8) : need u ≤ 2 := by
  by_cases hu : u = []
  · rw [need, if_pos hu]
  · exact Nat.le_succ_of_le (need_le hu)

/-! ## In a match -/

/-- The bytes of the match start at `b`; the marker is in front of the last of them; two bytes or more are in the buffer
    where one was read, and no more than a block behind the byte in front of the cursor. -/
structure InMatch (b : Nat) (p : Point) : Prop where
  follows : Follows rules p
  tok_le  : p.src.1.tok ≤ b
  cursor  : p.src.2 = b + p.read.length
  ptr     : ∀ u a, p.read = u ++ [a] → u ≠ [] → p.src.1.ptr = ((b + u.length : Nat) : Int)
  within  : p.src.2 ≤ p.src.1.lim
  ahead   : p.read ≠ [] → b + 2 ≤ p.src.1.lim
  near    : p.src.1.lim ≤ p.src.2 + BSIZE + 1
  nearer  : p.read ≠ [] → p.src.1.lim ≤ p.src.2 + BSIZE

theorem inMatch_start {s : Scanner} {cursor : Nat} (htok : s.tok ≤ cursor) (hlim : cursor ≤ s.lim)
    (hnear : s.lim ≤ cursor + BSIZE + 1) : InMatch cursor (.start rules (s, cursor)) where
  follows := follows_start rules (s, cursor)
  tok_le  := htok
  cursor  := rfl
  ptr     := fun u a hu => absurd hu.symm (List.concat_ne_nil a u)
  within  := hlim
  ahead   := fun hne => absurd rfl hne
  near    := hnear
  nearer  := fun hne => absurd rfl hne

/-- **Without a call of `fill`** the byte is in the buffer, and the second one of the match. -/
theorem InMatch.there {P : Platform} {b : Nat} {p : Point} (h : InMatch b p) (hgo : p.rules.canStep = true)
    (hnone : filling P p = none) : p.src.2 < p.src.1.lim ∧ b + 2 ≤ p.src.1.lim := by
  have hcursor := h.cursor
  have hcheck := not_short_of_filling hgo hnone
  by_cases hnil : p.read = []
  · rw [hnil] at hcheck hcursor
    change ¬ (0 < 2 ∧ p.src.1.lim < p.src.2 + 2) at hcheck
    rw [List.length_nil] at hcursor
    omega
  · have hahead := h.ahead hnil
    by_cases hcr : p.read = [CR]
    · -- there is no check behind a CR
      rw [hcr, List.length_singleton] at hcursor
      omega
    · have hneed : need p.read = 1 := by
        rw [need, if_neg hnil, if_neg hcr]
      omega

/-- Behind the first byte of a match the marker has just been set, to the byte in front of the cursor. -/
theorem InMatch.marked {P : Platform} {b : Nat} {p q : Point} (h : InMatch b p) (hgo : p.rules.canStep = true)
    {a : UInt8} (hread : q.read = p.read ++ [a]) :
    ∃ ptr, (reader P).marked p = ({ p.src.1 with ptr := ptr }, p.src.2) ∧
      ∀ u c, q.read = u ++ [c] → u ≠ [] → u = p.read ∧ ptr = ((b + u.length : Nat) : Int) := by
  obtain ⟨ptr, hmarked, hset, -⟩ := marked_eq P p
  refine ⟨ptr, hmarked, fun u c hu hne => ?_⟩
  rw [hread] at hu
  obtain ⟨rfl, -⟩ := List.append_inj' hu rfl
  have hrule := rules_dense.go p.read hne (h.follows.rules ▸ hgo)
  refine ⟨rfl, ?_⟩
  rw [hset (by rw [h.follows.accepting]; exact Option.isSome_iff_ne_none.mpr hrule), h.cursor]

/-- A byte that is in the buffer is read. -/
theorem InMatch.reads {b : Nat} {p q : Point} (h : InMatch b p) (hfollows : Follows rules q) {a : UInt8} {ptr : Int}
    (hread : q.read = p.read ++ [a]) (hsrc : q.src = ({ p.src.1 with ptr := ptr }, p.src.2 + 1))
    (hptr : ∀ u c, q.read = u ++ [c] → u ≠ [] → ptr = ((b + u.length : Nat) : Int))
    (hthere : p.src.2 < p.src.1.lim) (hahead : b + 2 ≤ p.src.1.lim) : InMatch b q := by
  have hcursor := h.cursor
  have hnear := h.near
  refine ⟨hfollows, ?_, ?_, ?_, ?_, ?_, ?_, ?_⟩
  · rw [hsrc]
    exact h.tok_le
  · rw [hsrc, hread, List.length_append, List.length_singleton, hcursor, Nat.add_assoc]
  · intro u c hu hne
    rw [hsrc]
    exact hptr u c hu hne
  · rw [hsrc]
    exact hthere
  · intro _
    rw [hsrc]
    exact hahead
  · rw [hsrc]
    show p.src.1.lim ≤ p.src.2 + 1 + BSIZE + 1
    omega
  · intro _
    rw [hsrc]
    show p.src.1.lim ≤ p.src.2 + 1 + BSIZE
    omega

/-- A byte is read behind a call of `fill` that has moved the buffer by `cnt`. -/
theorem InMatch.refilled {P : Platform} {b cnt : Nat} {p q : Point} (h : InMatch b p) (hfollows : Follows rules q)
    {a : UInt8} {ptr : Int} {x : Scanner × Nat} (hread : q.read = p.read ++ [a]) (hsrc : q.src = (x.1, x.2 + 1))
    (hptr : ∀ u c, q.read = u ++ [c] → u ≠ [] → ptr = ((b + u.length : Nat) : Int))
    (hfill : fill P { p.src.1 with ptr := ptr } p.src.2 = some x) (heof : p.src.1.eof = none) (heof' : x.1.eof = none)
    (hcnt : P.conv p.src.1.tok = some cnt) (hle : cnt ≤ p.src.1.tok)
    (hlim : p.src.1.lim < p.src.2 + need p.read) : InMatch (b - cnt) q := by
  obtain ⟨cnt', hcnt', hcur', hptr', hmoved⟩ := fill_moves (by exact heof) hfill
  obtain rfl := Option.some.inj (hcnt.symm.trans hcnt')
  obtain ⟨hlim', htok', -⟩ := hmoved heof'
  have hcursor := h.cursor
  have hnear := h.near
  have htok := h.tok_le
  have hwithin := h.within
  have hneed := need_le_two p.read
  have hblock : BSIZE = 8192 := rfl
  change x.1.lim = p.src.1.lim - cnt + BSIZE at hlim'
  change x.1.tok = 0 ∨ cnt = 0 ∧ x.1.tok = p.src.1.tok at htok'
  refine ⟨hfollows, ?_, ?_, ?_, ?_, ?_, ?_, ?_⟩
  · rw [hsrc]
    show x.1.tok ≤ b - cnt
    omega
  · rw [hsrc, hread, List.length_append, List.length_singleton]
    show x.2 + 1 = _
    omega
  · intro u c hu hne
    have hval := hptr u c hu hne
    rw [hsrc]
    show x.1.ptr = _
    rw [hptr']
    show ptr - (cnt : Int) = _
    omega
  · rw [hsrc]
    show x.2 + 1 ≤ x.1.lim
    omega
  · intro _
    rw [hsrc]
    show b - cnt + 2 ≤ x.1.lim
    omega
  · rw [hsrc]
    show x.1.lim ≤ x.2 + 1 + BSIZE + 1
    omega
  · intro _
    rw [hsrc]
    show x.1.lim ≤ x.2 + 1 + BSIZE
    omega

/-- **A turn that reads a byte**, without a call of `fill` or behind one. -/
theorem InMatch.stays {P : Platform} {b : Nat} {p q : Point} (h : InMatch b p)
    (hturn : (reader P).turn p = some (.inl q)) :
    (filling P p = none ∧ InMatch b q ∧ q.src.2 = p.src.2 + 1 ∧ ∃ ptr, q.src.1 = { p.src.1 with ptr := ptr }) ∨
    ∃ ptr s' cursor', filling P p = some { p.src.1 with ptr := ptr } ∧ q.src = (s', cursor' + 1) ∧
      fill P { p.src.1 with ptr := ptr } p.src.2 = some (s', cursor') ∧
      (p.src.1.eof = none → s'.eof = none → ∀ cnt, P.conv p.src.1.tok = some cnt → cnt ≤ p.src.1.tok →
        InMatch (b - cnt) q) := by
  obtain ⟨hgo, x, a, hmore, hnext, hread, hfollows⟩ := h.follows.inl rules_dense hturn
  obtain ⟨-, hsrc⟩ := reader_next_eq hnext
  obtain ⟨ptr, hmarked, hptr⟩ := h.marked (P := P) hgo hread
  rcases more_cases hgo hmore with ⟨hnone, rfl⟩ | ⟨hsome, hlim, hfill⟩
  · obtain ⟨hthere, hahead⟩ := h.there hgo hnone
    rw [hmarked] at hsrc
    have hq := h.reads hfollows hread hsrc (fun u c hu hne => (hptr u c hu hne).2) hthere hahead
    exact .inl ⟨hnone, hq, by rw [hsrc], ptr, by rw [hsrc]⟩
  · rw [hmarked] at hsome hfill
    refine .inr ⟨ptr, x.1, x.2, hsome, hsrc, hfill, fun heof heof' cnt hcnt hle => ?_⟩
    refine h.refilled hfollows hread hsrc (fun u c hu hne => ?_) hfill heof heof' hcnt hle hlim
    exact (hptr u c hu hne).2

/-- The loop is left where the automaton stops. -/
theorem stops_of_turn {P : Platform} {p : Point} {y : Option Tag × (Scanner × Nat)}
    (h : (reader P).turn p = some (.inr y)) : p.rules.canStep = false := by
  by_contra hgo
  rw [Bool.not_eq_false] at hgo
  unfold Reader.turn at h
  simp only at h
  rw [if_pos hgo] at h
  obtain ⟨⟨more, x⟩, hmore, h⟩ := Option.bind_eq_some_iff.mp h
  obtain ⟨rfl, -⟩ := reader_more_cases hmore
  rw [if_pos rfl] at h
  obtain ⟨z, -, heq⟩ := Option.map_eq_some_iff.mp h
  cases heq

/-- **A step out of the match**, in front of the end of the file: to the front of the next one, which is behind the
    byte in front of the cursor or the one before it. -/
theorem InMatch.leaves {P : Platform} {b : Nat} {p : Point} (h : InMatch b p) (hstop : p.rules.canStep = false)
    (heof : p.src.1.eof = none) :
    ∃ t n ptr cur line, advance P p = some (.start rules
        ({ p.src.1 with tok := b + (n + 1), ptr := ptr, cur := cur, line := line }, b + (n + 1))) ∧
      n + 1 ≤ p.read.length ∧ p.read.length ≤ n + 2 ∧ ∀ v, munch rules (p.read ++ v) = some (t, n + 1) := by
  have hread : p.read ≠ [] := by
    intro hnil
    rw [h.follows.rules, hnil] at hstop
    exact absurd (hstop.symm.trans (show (rules.after []).canStep = true from rfl)) nofun
  obtain ⟨t, n, hturn, hn, hmunch⟩ := h.follows.inr rules_dense (R := reader P) hstop hread
  obtain ⟨ptr, hmarked, hset, hkept⟩ := marked_eq P p
  -- the marker is where the match ends
  have hptr : ptr = ((b + (n + 1) : Nat) : Int) := by
    rw [h.follows.accepting] at hset hkept
    cases hrule : (ruleOf rules p.read).isSome with
    | true =>
        rw [hset hrule, h.cursor, hn, if_pos hrule]
    | false =>
        obtain ⟨u, a, hu⟩ := List.eq_nil_or_concat p.read |>.resolve_left hread
        rw [List.concat_eq_append] at hu
        have hne : u ≠ [] := by
          rintro rfl
          rw [hu, List.nil_append] at hrule
          exact rules_dense.one a (Option.not_isSome_iff_eq_none.mp (by rw [hrule]; exact Bool.false_ne_true))
        rw [hkept hrule, h.ptr u a hu hne, hn, if_neg (by rw [hrule]; exact Bool.false_ne_true), hu, List.length_append,
          List.length_singleton, Nat.add_sub_cancel]
  have hrestore : (reader P).restore ((reader P).marked p) = ({ p.src.1 with ptr := ptr }, b + (n + 1)) := by
    rw [hmarked]
    show (_, ptr.toNat) = _
    rw [hptr]
    rfl
  rw [hrestore] at hturn
  have hlen : n + 1 ≤ p.read.length ∧ p.read.length ≤ n + 2 := by
    split at hn <;> omega
  cases t with
  | ret t =>
      exact ⟨.ret t, n, ptr, b + (n + 1), p.src.1.line, Reader.step_of_inr hturn rfl, hlen.1, hlen.2, hmunch⟩
  | blank => exact ⟨.blank, n, ptr, p.src.1.cur, p.src.1.line, Reader.step_of_inr hturn rfl, hlen.1, hlen.2, hmunch⟩
  | any => exact ⟨.any, n, ptr, p.src.1.cur, p.src.1.line, Reader.step_of_inr hturn rfl, hlen.1, hlen.2, hmunch⟩
  | newline =>
      have hnext : again (some .newline, ({ p.src.1 with ptr := ptr }, b + (n + 1))) =
          some (std ({ p.src.1 with ptr := ptr, cur := b + (n + 1), line := p.src.1.line + 1 }, b + (n + 1))) :=
        if_neg (show p.src.1.eof ≠ some (b + (n + 1)) by rw [heof]; exact nofun)
      exact ⟨.newline, n, ptr, b + (n + 1), p.src.1.line + 1, Reader.step_of_inr hturn hnext, hlen.1, hlen.2, hmunch⟩

/-- The next match, behind such a step. -/
theorem InMatch.next {b c : Nat} {p : Point} (h : InMatch b p) {s : Scanner} (htok : s.tok = c)
    (hlim : s.lim = p.src.1.lim) (hread : p.read ≠ []) (hle : c ≤ p.src.2) (hlt : p.src.2 ≤ c + 1) :
    InMatch c (.start rules (s, c)) := by
  have hwithin := h.within
  have hnearer := h.nearer hread
  apply inMatch_start
  · exact Nat.le_of_eq htok
  · omega
  · omega

/-! ## Any step -/

/-- The end of the file stays. -/
theorem eof_step {P : Platform} {p q : Point} (hstep : advance P p = some q) (h : p.src.1.eof ≠ none) :
    q.src.1.eof ≠ none := by
  refine @Reader.step_keeps _ _ _ (reader P) (fun x => x.1.eof ≠ none) rules again ?_ ?_ ?_ ?_ ?_ p q hstep h
  · intro u x more y hmore hx
    obtain ⟨-, ⟨-, -, hfill⟩ | ⟨-, rfl⟩⟩ := reader_more_cases hmore
    · obtain rfl := Option.some.inj ((fill_of_eof hx x.2).symm.trans hfill)
      exact hx
    · exact hx
  · intro x a y hnext hx
    obtain ⟨-, rfl⟩ := reader_next_eq hnext
    exact hx
  · exact fun hx => hx
  · exact fun hx => hx
  · rintro ⟨t, y⟩ x hagain hy
    cases t with
    | none => cases hagain
    | some t =>
    cases t with
    | ret t => exact Option.some.inj hagain ▸ hy
    | blank => exact Option.some.inj hagain ▸ hy
    | any => exact Option.some.inj hagain ▸ hy
    | newline =>
        obtain ⟨-, hx⟩ := Option.ite_none_left_eq_some.mp hagain
        exact Option.some.inj hx ▸ hy

/-- **A step in front of the end of the file** reads a byte, with or without a call of `fill`, or leaves the match. -/
theorem InMatch.step {junk : Nat → UInt8} {b : Nat} {p q : Point} (h : InMatch b p) (heof : p.src.1.eof = none)
    (hstep : advance (uint junk) p = some q) (heof' : q.src.1.eof = none) :
    (InMatch b q ∧ q.src.1.tok = p.src.1.tok ∧ q.src.1.lim = p.src.1.lim) ∨
    (InMatch (b - p.src.1.tok % 4294967296) q ∧
      (q.src.1.tok = 0 ∨ p.src.1.tok % 4294967296 = 0 ∧ q.src.1.tok = p.src.1.tok)) ∨
    (∃ c, b < c ∧ InMatch c q ∧ q.src.1.tok = c ∧ q.read = []) := by
  rcases Reader.step_cases hstep with hturn | ⟨y, s, hturn, -⟩
  · rcases h.stays hturn with ⟨-, hq, -, ptr, hsrc⟩ | ⟨ptr, s', cursor', -, hsrc, hfill, hq⟩
    · exact .inl ⟨hq, by rw [hsrc], by rw [hsrc]⟩
    · rw [hsrc] at heof'
      obtain ⟨cnt, hcnt, -, -, hmoved⟩ := fill_moves (by exact heof) hfill
      obtain rfl := Option.some.inj hcnt
      obtain ⟨-, htok, -⟩ := hmoved heof'
      refine .inr (.inl ⟨hq heof heof' _ rfl (Nat.mod_le _ _), ?_⟩)
      rw [hsrc]
      exact htok
  · obtain ⟨t, n, ptr, cur, line, hq, hn, hn', -⟩ := h.leaves (P := uint junk) (stops_of_turn hturn) heof
    obtain rfl := Option.some.inj (hq.symm.trans hstep)
    have hcursor := h.cursor
    refine .inr (.inr ⟨b + (n + 1), by omega, ?_, rfl, rfl⟩)
    exact h.next rfl rfl (List.ne_nil_of_length_pos (by omega)) (by omega) (by omega)

/-! ## The copies -/

/-- Behind the end of the file there are none. -/
theorem memcpys_of_eof {P : Platform} {s : Scanner} (h : s.eof ≠ none) : memcpys P s = [] :=
  if_pos (Option.isSome_iff_ne_none.mpr h)

/-- **The ranges are apart** where nothing is moved, or what is left is not longer than the distance. -/
theorem memcpys_apart_iff {P : Platform} {s : Scanner} {cnt : Nat} (heof : s.eof = none)
    (hcnt : P.conv s.tok = some cnt) : (∀ c ∈ memcpys P s, c.Disjoint) ↔ cnt = 0 ∨ s.lim - s.tok ≤ s.tok := by
  have hgrow : ∀ {s : Scanner}, ∀ c ∈ (if s.top - s.lim < BSIZE then
      [(⟨(.buf, 0), (.bot, s.tok), s.lim - s.tok⟩ : Copy)] else []), c.Disjoint := by
    intro s c hc
    split at hc
    · rw [List.mem_singleton.mp hc]
      exact .inl nofun
    · exact absurd hc List.not_mem_nil
  unfold memcpys
  rw [heof, hcnt, if_neg (by decide)]
  simp only
  by_cases hzero : cnt = 0
  · rw [if_pos hzero, if_pos hzero]
    exact ⟨fun _ => .inl hzero, fun _ => hgrow⟩
  · rw [if_neg hzero, if_neg hzero]
    have hfirst : (⟨(.bot, 0), (.bot, s.tok), s.lim - s.tok⟩ : Copy).Disjoint ↔ cnt = 0 ∨ s.lim - s.tok ≤ s.tok := by
      simp only [Copy.Disjoint, ne_eq, not_true_eq_false, false_or, hzero]
      omega
    rw [← hfirst]
    cases shift cnt s with
    | none => exact List.forall_mem_singleton
    | some s' =>
        show (∀ c ∈ (_ :: _ : List Copy), c.Disjoint) ↔ _
        rw [List.forall_mem_cons]
        exact and_iff_left hgrow

/-! ## Behind a distance that is lost -/

/-- The end of the file has been read; or the match starts where the distance to `bot` does not fit a `uint`, and the
    token too, unless nothing of its distance is left. -/
def Past (p : Point) : Prop :=
  p.src.1.eof ≠ none ∨ ∃ b, InMatch b p ∧ 4294967296 ≤ b ∧
    (p.src.1.tok % 4294967296 = 0 ∨ p.src.1.tok = b ∧ p.src.1.lim ≤ p.src.1.tok + BSIZE + 1)

theorem Past.safe {junk : Nat → UInt8} {p : Point} (h : Past p) : Safe (uint junk) p := by
  intro s hs
  obtain ⟨ptr, rfl, -⟩ := filling_eq_some hs
  by_cases heof : p.src.1.eof = none
  · obtain ⟨b, -, hb, htok⟩ := h.resolve_left (not_not_intro heof)
    refine (memcpys_apart_iff (P := uint junk) (s := { p.src.1 with ptr := ptr }) heof rfl).mpr ?_
    rcases htok with hzero | ⟨htok, hlim⟩
    · exact .inl hzero
    · have hsize : BSIZE = 8192 := rfl
      refine .inr ?_
      show p.src.1.lim - p.src.1.tok ≤ p.src.1.tok
      omega
  · rw [@memcpys_of_eof (uint junk) { p.src.1 with ptr := ptr } heof]
    exact nofun

/-- A step keeps it. -/
theorem Past.step {junk : Nat → UInt8} {p q : Point} (h : Past p) (hstep : advance (uint junk) p = some q) :
    Past q := by
  by_cases heof' : q.src.1.eof = none
  · have heof : p.src.1.eof = none := by_contra fun hne => eof_step hstep hne heof'
    obtain ⟨b, hmatch, hb, htok⟩ := h.resolve_left (not_not_intro heof)
    rcases hmatch.step heof hstep heof' with ⟨hq, htok', hlim'⟩ | ⟨hq, htok'⟩ | ⟨c, hlt, hq, htok', hread⟩
    · refine .inr ⟨b, hq, hb, ?_⟩
      rw [htok', hlim']
      exact htok
    · -- what is lost stays
      refine .inr ⟨_, hq, ?_, .inl ?_⟩
      · rcases htok with hzero | ⟨htok, -⟩ <;> omega
      · rcases htok' with hzero | ⟨hzero, hsame⟩
        · exact congrArg (· % 4294967296) hzero
        · exact hsame ▸ hzero
    · have hnear := hq.near
      have hcursor := hq.cursor
      rw [hread, List.length_nil] at hcursor
      exact .inr ⟨c, hq, by omega, .inr ⟨htok', by omega⟩⟩
  · exact .inl heof'

/-- And so the ranges are apart from there on. -/
theorem Past.safe_of_reaches {junk : Nat → UInt8} {p q : Point} (h : Past p)
    (hq : Onward (uint junk) p q) : Safe (uint junk) q := by
  induction hq using Relation.ReflTransGen.head_induction_on with
  | refl => exact h.safe
  | head hstep _ ih => exact ih (h.step hstep)

/-! ## The bytes in the buffer -/

/-- The bytes `w` are in the buffer, and the match is read from them; what is held of them has not been passed. -/
structure Holding (w : List UInt8) (p : Point) : Prop where
  inMatch : InMatch p.src.1.tok p
  going   : p.src.1.eof = none
  size    : p.src.1.buf.length = p.src.1.top
  lim_le  : p.src.1.lim ≤ p.src.1.top
  bytes   : p.src.1.buf.take p.src.1.lim = w
  read    : p.read <+: w.drop p.src.1.tok
  front   : p.src.1.tok = 0 ∨ p.src.1.lim ≤ p.src.1.tok + BSIZE + 1
  held    : Calc.held (w.drop p.src.1.tok) = Calc.held w

theorem holding_start (fd : Fd) : Holding [] (start fd) where
  inMatch := inMatch_start (Nat.le_refl _) (Nat.le_refl _) (Nat.zero_le _)
  going   := rfl
  size    := rfl
  lim_le  := Nat.le_refl _
  bytes   := rfl
  read    := List.nil_prefix
  front   := .inl rfl
  held    := rfl

variable {P : Platform} {w : List UInt8} {p : Point}

theorem Holding.length (h : Holding w p) : w.length = p.src.1.lim := by
  have hsize := h.size
  have hlim := h.lim_le
  rw [← h.bytes, List.length_take]
  omega

theorem Holding.tok_le (h : Holding w p) : p.src.1.tok ≤ p.src.1.lim := by
  have hcursor := h.inMatch.cursor
  have hwithin := h.inMatch.within
  omega

/-- The byte that is read is the next one. -/
theorem prefix_concat {u v : List UInt8} {a : UInt8} (h : u <+: v) (ha : v[u.length]? = some a) : u ++ [a] <+: v := by
  obtain ⟨hlt, rfl⟩ := List.getElem?_eq_some_iff.mp ha
  exact List.concat_get_prefix h hlt

/-- **A byte that is in the buffer** is read. -/
theorem Holding.reads (h : Holding w p) (hgo : p.rules.canStep = true) (hnone : filling P p = none) :
    ∃ q, advance P p = some q ∧ Holding w q ∧ q.src.1.tok = p.src.1.tok ∧ q.src.1.lim = p.src.1.lim ∧
      q.src.1.fd = p.src.1.fd ∧ q.src.2 = p.src.2 + 1 ∧ p.src.2 < p.src.1.lim := by
  obtain ⟨ptr, hmarked, -⟩ := marked_eq P p
  have hcursor := h.inMatch.cursor
  have hlength := h.length
  have hsize := h.size
  have hlim := h.lim_le
  obtain ⟨hthere, -⟩ := h.inMatch.there hgo hnone
  obtain ⟨a, ha⟩ : ∃ a, p.src.1.buf[p.src.2]? = some a :=
    ⟨_, List.getElem?_eq_getElem (by omega)⟩
  have hturn : (reader P).turn p = some (.inl ⟨p.rules.deriv a, p.read ++ [a], (accepting p.rules).or p.best,
      ({ p.src.1 with ptr := ptr }, p.src.2 + 1)⟩) := by
    refine Reader.turn_of_next hgo (s := ({ p.src.1 with ptr := ptr }, p.src.2)) ?_ ?_
    · rw [hmarked]
      exact if_neg (not_short_of_filling hgo hnone)
    · show (load p.src.1.buf p.src.2).map _ = _
      rw [load, ha]
      rfl
  refine ⟨⟨p.rules.deriv a, p.read ++ [a], (accepting p.rules).or p.best, ({ p.src.1 with ptr := ptr }, p.src.2 + 1)⟩,
    Reader.step_of_inl hturn, ⟨?_, h.going, hsize, hlim, h.bytes, ?_, h.front, h.held⟩, rfl, rfl, rfl, rfl, hthere⟩
  · rcases h.inMatch.stays hturn with ⟨-, hmatch, -⟩ | ⟨_, _, _, hsome, -⟩
    · exact hmatch
    · rw [hnone] at hsome
      cases hsome
  · refine prefix_concat h.read ?_
    rw [← h.bytes, List.getElem?_drop, ← hcursor, List.getElem?_take, if_pos hthere]
    exact ha

/-- **A match is left**: what is behind it is held as before. -/
theorem Holding.leaves (h : Holding w p) (hstop : p.rules.canStep = false) :
    ∃ q, advance P p = some q ∧ Holding w q ∧ p.src.1.tok < q.src.1.tok ∧ q.src.1.lim = p.src.1.lim ∧
      q.src.1.fd = p.src.1.fd ∧ p.src.2 ≤ q.src.2 + 1 := by
  obtain ⟨t, n, ptr, cur, line, hq, hn, hn', hmunch⟩ := h.inMatch.leaves (P := P) hstop h.going
  have hread : p.read ≠ [] := List.ne_nil_of_length_pos (by omega)
  have hcursor := h.inMatch.cursor
  have hwithin := h.inMatch.within
  have hnext := h.inMatch.next (c := p.src.1.tok + (n + 1))
    (s := { p.src.1 with tok := p.src.1.tok + (n + 1), ptr := ptr, cur := cur, line := line }) rfl rfl hread (by omega)
    (by omega)
  refine ⟨_, hq, ⟨hnext, h.going, h.size, h.lim_le, h.bytes, List.nil_prefix, .inr hnext.near, ?_⟩, ?_, rfl, rfl, ?_⟩
  · show Calc.held (w.drop (p.src.1.tok + (n + 1))) = Calc.held w
    obtain ⟨v, hv⟩ := h.read
    rw [← h.held, ← List.drop_drop, ← hv]
    apply held_drop (hmunch v)
    by_cases hrest : (p.read ++ v).drop (n + 1) = []
    · -- a match to the end, of two bytes or more
      have hahead := h.inMatch.ahead hread
      have hlength := congrArg List.length hv
      rw [List.length_append, List.length_drop, h.length] at hlength
      have hle := List.drop_eq_nil_iff.mp hrest
      rw [List.length_append] at hle
      obtain rfl : v = [] := List.length_eq_zero_iff.mp (by omega)
      rw [List.append_nil]
      have hrule : ruleOf rules p.read ≠ none := by
        have htake := (munch_eq_some_iff.mp (hmunch [])).rule
        rw [List.append_nil, List.take_of_length_le (by omega)] at htake
        rw [htake]
        exact nofun
      exact .inr (eq_crlf_of_stops hrule (h.inMatch.follows.rules ▸ hstop) (by omega))
    · exact .inl hrest
  · show p.src.1.tok < p.src.1.tok + (n + 1)
    omega
  · show p.src.2 ≤ p.src.1.tok + (n + 1) + 1
    omega

/-- **When `fill` is called**, what is behind the start of the match is held. -/
theorem Holding.held_eq {s : Scanner} (h : Holding w p) (hs : filling P p = some s) :
    Calc.held w = w.drop p.src.1.tok := by
  obtain ⟨ptr, -, -, hgo, hpos, hlim⟩ := filling_eq_some hs
  have hcursor := h.inMatch.cursor
  have hdrop : (w.drop p.src.1.tok).length = p.src.1.lim - p.src.1.tok := by rw [List.length_drop, h.length]
  rw [← h.held]
  by_cases hnil : p.read = []
  · rw [hnil] at hcursor hlim
    change p.src.1.lim < p.src.2 + 2 at hlim
    rw [List.length_nil] at hcursor
    exact held_of_short (by omega)
  · have hneed := need_le hnil
    have hwithin := h.inMatch.within
    obtain ⟨v, hv⟩ := h.read
    have hall := congrArg List.length hv
    rw [List.length_append, hdrop] at hall
    obtain rfl : v = [] := List.length_eq_zero_iff.mp (by omega)
    rw [List.append_nil] at hv
    have hgo' : (rules.after p.read).canStep = true := h.inMatch.follows.rules ▸ hgo
    rw [← hv]
    refine held_of_rule hnil (rules_dense.go _ hnil hgo') ?_
    intro hcrlf
    rw [hcrlf] at hgo'
    rcases eq_of_goes (List.cons_ne_nil _ _) hgo' with hint | hblank | hcr
    · obtain ⟨c, cs, hc, -, heq⟩ := mem_integer.mp hint
      obtain ⟨rfl, -⟩ := List.cons.inj heq
      exact absurd hc (by decide)
    · exact absurd (hblank CR (List.mem_cons_self ..)) (by decide)
    · exact absurd hcr (by decide)

variable {junk : Nat → UInt8}

/-- The ranges are apart where it is short. -/
theorem Holding.safe_iff_short {s : Scanner} (h : Holding w p) (hs : filling (uint junk) p = some s)
    (htok : p.src.1.tok < 4294967296) : Safe (uint junk) p ↔ Short w := by
  have hheld : (Calc.held w).length = p.src.1.lim - p.src.1.tok := by
    rw [h.held_eq hs, List.length_drop, h.length]
  have hlength := h.length
  have htok_le := h.tok_le
  have hsafe : Safe (uint junk) p ↔ ∀ c ∈ memcpys (uint junk) s, c.Disjoint := by
    unfold Safe
    rw [hs]
    simp only [Option.mem_def, Option.some.injEq, forall_eq']
  obtain ⟨ptr, rfl, -⟩ := filling_eq_some hs
  rw [hsafe, @memcpys_apart_iff (uint junk) { p.src.1 with ptr := ptr } (p.src.1.tok % 4294967296) h.going rfl,
    Nat.mod_eq_of_lt htok, Short, hheld, hlength]
  show p.src.1.tok = 0 ∨ p.src.1.lim - p.src.1.tok ≤ p.src.1.tok ↔ _
  omega

/-- **A byte that is read behind a full block**: the match goes on with what was held, and the block. -/
theorem Holding.fills {s : Scanner} (h : Holding w p) (hs : filling (uint junk) p = some s)
    (htok : p.src.1.tok < 4294967296) {d : List UInt8} {ds : List (List UInt8)} (hd : p.src.1.fd.blocks = d :: ds)
    (hfull : d.length = BSIZE) :
    ∃ q, advance (uint junk) p = some q ∧ Holding (Calc.held w ++ d) q ∧ q.src.1.tok = 0 ∧
      q.src.1.lim = p.src.1.lim - p.src.1.tok + BSIZE ∧ q.src.1.fd.blocks = ds ∧
      q.src.2 = p.src.2 - p.src.1.tok + 1 := by
  have hheld := h.held_eq hs
  have hcursor := h.inMatch.cursor
  have hwithin := h.inMatch.within
  have hblock : BSIZE = 8192 := rfl
  obtain ⟨ptr, rfl, hmarked, hgo, hcheck⟩ := filling_eq_some hs
  obtain ⟨s', hfill, htok', hlim', heof', hblocks', hsize', hle', htake'⟩ :=
    @fill_block (uint junk) { p.src.1 with ptr := ptr } h.going (congrArg some (Nat.mod_eq_of_lt htok)) h.tok_le
      h.lim_le h.size p.src.2 d ds hd hfull
  have hbytes : s'.buf.take s'.lim = Calc.held w ++ d := by
    rw [htake', hheld, ← h.bytes, List.drop_take]
  change s'.lim = p.src.1.lim - p.src.1.tok + BSIZE at hlim'
  obtain ⟨a, ha⟩ : ∃ a, s'.buf[p.src.2 - p.src.1.tok]? = some a :=
    ⟨_, List.getElem?_eq_getElem (by omega)⟩
  have hturn : (reader (uint junk)).turn p = some (.inl ⟨p.rules.deriv a, p.read ++ [a], (accepting p.rules).or p.best,
      (s', p.src.2 - p.src.1.tok + 1)⟩) := by
    refine Reader.turn_of_next hgo (s := (s', p.src.2 - p.src.1.tok)) ?_ ?_
    · rw [hmarked]
      show (if _ then (fill _ _ _).map _ else _) = _
      rw [if_pos hcheck]
      show (fill (uint junk) { p.src.1 with ptr := ptr } p.src.2).map _ = _
      rw [hfill]
      rfl
    · show (load s'.buf (p.src.2 - p.src.1.tok)).map _ = _
      rw [load, ha]
      rfl
  refine ⟨⟨p.rules.deriv a, p.read ++ [a], (accepting p.rules).or p.best, (s', p.src.2 - p.src.1.tok + 1)⟩,
    Reader.step_of_inl hturn, ⟨?_, heof', hsize', hle', hbytes, ?_, .inl htok', ?_⟩, htok', hlim', hblocks', rfl⟩
  · rcases h.inMatch.stays hturn with ⟨hnone, -⟩ | ⟨_, _, _, -, hsrc, -, hmatch⟩
    · rw [hnone] at hs
      cases hs
    · obtain ⟨rfl, -⟩ := Prod.mk.inj hsrc
      have hin := hmatch h.going heof' p.src.1.tok (congrArg some (Nat.mod_eq_of_lt htok)) (Nat.le_refl _)
      rw [Nat.sub_self] at hin
      show InMatch s'.tok _
      rw [htok']
      exact hin
  · show p.read ++ [a] <+: (Calc.held w ++ d).drop s'.tok
    rw [htok', List.drop_zero]
    refine prefix_concat (h.read.trans (hheld ▸ List.prefix_append _ _)) ?_
    rw [← hbytes, List.getElem?_take, if_pos (by omega)]
    rw [show p.read.length = p.src.2 - p.src.1.tok by omega]
    exact ha
  · show Calc.held ((Calc.held w ++ d).drop s'.tok) = _
    rw [htok', List.drop_zero]

/-- In front of anything else the end of the file is read. -/
theorem Holding.past_step {s : Scanner} {q : Point} (h : Holding w p) (hs : filling (uint junk) p = some s)
    (hblocks : ∀ d ds, p.src.1.fd.blocks = d :: ds → d.length ≠ BSIZE) (hstep : advance (uint junk) p = some q) :
    Past q := by
  obtain ⟨ptr, -, -, hgo, -⟩ := filling_eq_some hs
  refine .inl ?_
  rcases Reader.step_cases hstep with hturn | ⟨y, x, hturn, -⟩
  · rcases h.inMatch.stays hturn with ⟨hnone, -⟩ | ⟨_, s', _, -, hsrc, hfill, -⟩
    · exact absurd (hnone.symm.trans hs) nofun
    · rw [hsrc]
      intro heof'
      obtain ⟨_, -, -, -, hmoved⟩ := fill_moves (by exact h.going) hfill
      obtain ⟨-, -, d, ds, hd, hfull⟩ := hmoved heof'
      exact hblocks d ds hd hfull
  · exact absurd (hgo.symm.trans (stops_of_turn hturn)) nofun

/-- Where the distance to the token is lost. -/
theorem Holding.past (h : Holding w p) (htok : 4294967296 ≤ p.src.1.tok) : Past p :=
  .inr ⟨p.src.1.tok, h.inMatch, htok, .inr ⟨rfl, h.front.resolve_left (by omega)⟩⟩

theorem Holding.apart_of_past {s : Scanner} (h : Holding w p) (hs : filling P p = some s)
    (htok : 4294967296 ≤ p.src.1.tok) (ds : List (List UInt8)) : Apart ds w := by
  have hheld : (Calc.held w).length = p.src.1.lim - p.src.1.tok := by
    rw [h.held_eq hs, List.length_drop, h.length]
  have hlength := h.length
  have htok_le := h.tok_le
  have hblock : BSIZE = 8192 := rfl
  have hshort : Short w := by
    have hfront := h.front.resolve_left (by omega)
    refine .inr ?_
    omega
  cases ds with
  | nil => exact hshort
  | cons d ds => exact ⟨hshort, fun hlt => by omega⟩

/-! ## The result -/

/-- **From such a state on** the copies are apart if and only if the tokens are short where the blocks end. The
    induction is on what is left of the file, from the start of the match and from the cursor on. -/
theorem Holding.safe_iff (h : Holding w p) :
    (∀ q, Onward (uint junk) p q → Safe (uint junk) q) ↔ Apart p.src.1.fd.blocks w := by
  generalize hm : 2 * (p.src.1.lim - p.src.1.tok + p.src.1.fd.data.length) +
    (p.src.1.lim - p.src.2 + p.src.1.fd.data.length) = m
  induction m using Nat.strong_induction_on generalizing w p with
  | _ m ih =>
  have hwithin := h.inMatch.within
  have htok_le := h.tok_le
  have hblock : BSIZE = 8192 := rfl
  rw [Reader.forall_reaches_iff]
  cases hgo : p.rules.canStep with
  | false =>
      obtain ⟨q, hstep, hq, htok, hlim, hfd, hcursor⟩ := h.leaves (P := uint junk) hgo
      have hsafe : Safe (uint junk) p := by
        intro s hs
        obtain ⟨-, -, -, hgo', -⟩ := filling_eq_some hs
        exact absurd (hgo.symm.trans hgo') nofun
      have hleft := hq.tok_le
      have hrest := ih _ (by rw [← hm, hfd, hlim]; omega) hq rfl
      simp only [hstep, Option.some.injEq, forall_eq', hsafe, true_and]
      rw [hrest, hfd]
  | true =>
  cases hfill : filling (uint junk) p with
  | none =>
      obtain ⟨q, hstep, hq, htok, hlim, hfd, hcursor, hlt⟩ := h.reads hgo hfill
      have hsafe : Safe (uint junk) p := by
        intro s hs
        exact absurd (hfill.symm.trans hs) nofun
      have hrest := ih _ (by rw [← hm, hfd, hlim, htok, hcursor]; omega) hq rfl
      simp only [hstep, Option.some.injEq, forall_eq', hsafe, true_and]
      rw [hrest, hfd]
  | some s =>
  by_cases htok : p.src.1.tok < 4294967296
  · have hsafe := h.safe_iff_short hfill htok
    have hheld : w.length - (Calc.held w).length = p.src.1.tok := by
      rw [h.held_eq hfill, List.length_drop, h.length]
      omega
    by_cases hfull : ∃ d ds, p.src.1.fd.blocks = d :: ds ∧ d.length = BSIZE
    · obtain ⟨d, ds, hd, hfull⟩ := hfull
      obtain ⟨q, hstep, hq, htok', hlim', hblocks', hcursor'⟩ := h.fills hfill htok hd hfull
      have hdata : p.src.1.fd.data.length = BSIZE + q.src.1.fd.data.length := by
        rw [Fd.data, Fd.data, hd, hblocks', List.flatten_cons, List.length_append, hfull]
      have hrest := ih _ (by rw [← hm, hdata, hlim', htok', hcursor']; omega) hq rfl
      simp only [hstep, Option.some.injEq, forall_eq']
      rw [hrest, hsafe, hblocks', hd, Apart, hheld]
      simp only [htok, hfull, forall_const]
    · have hpast : ∀ q, advance (uint junk) p = some q → ∀ r, Onward (uint junk) q r → Safe (uint junk) r := by
        intro q hstep r hr
        refine Past.safe_of_reaches (h.past_step hfill ?_ hstep) hr
        exact fun d ds hd hlen => hfull ⟨d, ds, hd, hlen⟩
      rw [hsafe, and_iff_left hpast]
      cases hd : p.src.1.fd.blocks with
      | nil => rfl
      | cons d ds => exact (and_iff_left fun _ hlen => absurd ⟨d, ds, hd, hlen⟩ hfull).symm
  · have hpast := h.past (Nat.le_of_not_lt htok)
    refine iff_of_true ⟨hpast.safe, fun q hstep r hr => ?_⟩ (h.apart_of_past hfill (Nat.le_of_not_lt htok) _)
    exact Past.safe_of_reaches (hpast.step hstep) hr

/-- **The ranges of every `memcpy` are apart** if and only if the tokens are short where the blocks end. -/
theorem memcpys_disjoint_iff (junk : Nat → UInt8) (fd : Fd) : MemcpysDisjoint (uint junk) fd ↔ Apart fd.blocks [] :=
  (holding_start fd).safe_iff

/-! ## Two kinds of files -/

/-- A number behind a bracket is held. -/
theorem held_bracket (n : Nat) :
    held (ch '(' :: List.replicate (n + 1) (ch '1')) = List.replicate (n + 1) (ch '1') := by
  have hnumber : held (List.replicate (n + 1) (ch '1')) = List.replicate (n + 1) (ch '1') := by
    have hrule : ruleOf rules (List.replicate (n + 1) (ch '1')) = some (.ret .num) := ruleOf_of_mem (mem_integer_ones n)
    refine held_of_rule (by simp) (by rw [hrule]; exact nofun) ?_
    intro hcrlf
    exact absurd (List.cons.inj hcrlf).1 (by decide)
  obtain ⟨t, ht⟩ := Option.ne_none_iff_exists'.mp (ruleOf_any (ch '('))
  have hdrop := held_drop (munch_char ht (by decide) (by decide) (by decide) (List.replicate (n + 1) (ch '1')))
    (.inl (by simp))
  rw [← hdrop]
  exact hnumber

/-- A block that is a bracket and a number. -/
def bracket : Fd := ⟨[ch '(' :: List.replicate 8191 (ch '1')], false⟩

/-- At its end, 8191 bytes are moved down by one. -/
theorem bracket_overlaps : ¬ MemcpysDisjoint (uint (fun _ => 0)) bracket := by
  intro h
  have hapart : Apart bracket.blocks [] := (holding_start bracket).safe_iff.mp h
  obtain ⟨-, hnext⟩ := hapart
  have hlen : (ch '(' :: List.replicate 8191 (ch '1')).length = BSIZE := by
    rw [List.length_cons, List.length_replicate]
    rfl
  have hshort : Short (held [] ++ ch '(' :: List.replicate 8191 (ch '1')) := hnext (by simp) hlen
  rw [held_nil, List.nil_append, Short, held_bracket 8190, hlen, List.length_replicate] at hshort
  exact absurd hshort (by decide)

/-- A token of up to half a block is short. -/
theorem short_of_runs {w : List UInt8} (hw : w = [] ∨ BSIZE ≤ w.length)
    (h : ∀ u, u <:+: w → IsRun u → 2 * u.length ≤ BSIZE) : Short w := by
  rcases hw with rfl | hw
  · exact .inl (by rw [held_nil])
  · right
    rcases held_cases w with hrun | hone
    · exact Nat.le_trans (h _ (held_suffix w).isInfix hrun) hw
    · have hblock : BSIZE = 8192 := rfl
      omega

/-- Behind the first block there is never less than one in the buffer. -/
theorem apart_of_runs {ds : List (List UInt8)} {w : List UInt8} (hw : w = [] ∨ BSIZE ≤ w.length)
    (h : ∀ u, u <:+: w ++ ds.flatten → IsRun u → 2 * u.length ≤ BSIZE) :
    Apart ds w := by
  have hshort : Short w := short_of_runs hw (fun u hu => h u (hu.trans (List.prefix_append _ _).isInfix))
  induction ds generalizing w with
  | nil => exact hshort
  | cons d ds ih =>
      refine ⟨hshort, fun _ hfull => ?_⟩
      have hlen : BSIZE ≤ (held w ++ d).length := by
        rw [List.length_append]
        omega
      -- what is dropped is in front of it
      have hall : ∀ u, u <:+: held w ++ d ++ ds.flatten → IsRun u → 2 * u.length ≤ BSIZE := by
        intro u hu
        refine h u (hu.trans ?_)
        obtain ⟨v, hv⟩ := held_suffix w
        refine ⟨v, [], ?_⟩
        rw [List.append_nil, List.flatten_cons, List.append_assoc, ← List.append_assoc v, hv]
      have hshort' : Short (held w ++ d) :=
        short_of_runs (.inr hlen) (fun u hu => hall u (hu.trans (List.prefix_append _ _).isInfix))
      exact ih (.inr hlen) hall hshort'

/-- **No overlap**: where no number and no run of blanks is longer than half a block. -/
theorem memcpys_disjoint_of_runs (junk : Nat → UInt8) {fd : Fd}
    (h : ∀ u, u <:+: fd.data → IsRun u → 2 * u.length ≤ BSIZE) :
    MemcpysDisjoint (uint junk) fd :=
  (holding_start fd).safe_iff.mpr (apart_of_runs (.inl rfl) h)

end Calc
end CSamples
