import CSamples.Tap.Scanner
import Mathlib.Data.List.TakeWhile

/-!
# `Tap.Run` — the TAP scanner on whole files

What the calls of `Scanner_Scan` make of a file: the ids of its lexemes up to the first NUL, as long as these fit in
the buffer.

## Contents
- `step_spec`: one match is the first lexeme, if that has less than `BUFSIZE` bytes; else `fill` refuses.
- **Specification.** `lexemesOf`, `delivered`, `ids`.
- `scanAll_spec`: the calls, by the step and by induction.
- `scanFile_unbounded`: where all lexemes fit, the buffer makes no difference.
- `scanFile_reports_iff`: only there does -1 mean the end of the file.
-/

namespace CSamples
namespace Tap

open C CSamples.Lex

/-! ## One match -/

/-- A token can start: `r` is the file from here on, and no call of `fill` has failed. -/
structure Ready (r : List UInt8) (s : Scan) : Prop where
  holds : Holds r { s.input with tok := s.input.cur }
  fills : ∀ c ∈ s.fills, c.Sound ∧ c.ret = 0

/-- A call of `fill` has refused because the token that starts with `r` is too long. -/
structure GaveUp (r : List UInt8) (s : Scan) : Prop where
  unread  : s.input.unread = r.drop BUFSIZE
  sound   : ∀ c ∈ s.fills, c.Sound
  refused : ∃ c ∈ s.fills, c.ret = 2

theorem ready_inputInit (mar : Int) (file : List UInt8) : Ready file ⟨inputInit mar file, []⟩ :=
  ⟨holds_inputInit mar file, nofun⟩

/-- The token that starts. -/
theorem Ready.sees {r : List UInt8} {s : Scan} (h : Ready r s) :
    Sees r [] (window r) none { s with input := { s.input with tok := s.input.cur } } :=
  ⟨h.holds, rfl, rfl, nofun, fun hne => absurd rfl hne, h.fills⟩

/-- In a loop that fills the buffer, the next check fails. -/
theorem Sees.refused {r u : List UInt8} {m : Option Nat} {s : Scan} (h : Sees r u [] m s) (hr : BUFSIZE ≤ r.length)
    (hloop : inLoop u = true) : ∃ s', reader.more u s = some (false, s') ∧ GaveUp r s' := by
  have hne : u ≠ [] := by
    rintro rfl
    cases hloop
  have hneed : need u = 1 := by rw [need, if_neg hne, if_pos hloop]
  have hlen := h.length
  rw [inSight, if_neg (Nat.not_lt.mpr hr), List.length_nil, Nat.add_zero] at hlen
  have heof : s.input.eof = false :=
    Bool.eq_false_iff.mpr (fun heof => absurd (h.holds.length_of_eof heof).2 (Nat.not_lt.mpr hr))
  have hlim := h.holds.full heof
  have hcur := h.cur
  have hle := h.holds.ordered.cur_le
  have hfill : fill 1 s.input = some (2, s.input) := by
    rcases fill_spec h.holds 1 with ⟨-, h1⟩ | ⟨h2, -⟩ | ⟨_, -, -, -, htok, -⟩
    · exact absurd (h1.symm.trans heof) (by decide)
    · exact h2
    · omega
  refine ⟨⟨s.input, s.fills ++ [⟨1, s.input, 2, s.input⟩]⟩, ?_, ?_, ?_, ?_⟩
  · rw [reader_more, hneed, if_pos ⟨by decide, by omega⟩, Tap.yyfill, hfill]
    rfl
  · show s.input.unread = _
    rw [h.holds.unread, show s.input.cur - s.input.tok = BUFSIZE by omega]
  · intro c hc
    rcases List.mem_append.mp hc with hc | hc
    · exact (h.fills c hc).1
    · obtain rfl := List.mem_singleton.mp hc
      exact ⟨h.holds.ordered, h.holds.ordered, by simp⟩
  · exact ⟨_, List.mem_append_right _ (List.mem_singleton_self _), rfl⟩

theorem length_inSight_lt (r : List UInt8) : (window r).length < BUFSIZE + YYMAXFILL + 1 := by
  have hB : BUFSIZE = 4090 := rfl
  have hY : YYMAXFILL = 6 := rfl
  rw [length_window]
  unfold inSight
  split <;> omega

/-- **One match**: the first lexeme of the file, if it has less than `BUFSIZE` bytes; else `fill` refuses. -/
theorem step_spec {r v : List UInt8} (hcut : Cut r v) {s : Scan} (h : Ready r s) {a : Action} {n : Nat}
    (hm : munch rules (v ++ [0]) = some (a, n)) :
    (n < BUFSIZE ∧ ∃ s', step s = some (some a, s') ∧ s'.input.unread = r.drop n ∧
      (∀ c ∈ s'.fills, c.Sound ∧ c.ret = 0) ∧ (n ≤ v.length → Ready (r.drop n) s')) ∨
    (BUFSIZE ≤ n ∧ ∃ s', step s = some (none, s') ∧ GaveUp r s') := by
  by_cases hgoes : Goes (window r)
  · -- the match needs more than the buffer can hold
    right
    have hn := (hcut.goes_window_iff hm).mp hgoes
    have hv := (inLoop_of_munch hm (Nat.lt_of_lt_of_le (by decide) hn)).2
    have hr : BUFSIZE ≤ r.length := Nat.le_trans (Nat.le_trans hn hv) hcut.length_le
    have hlen : (window r).length = BUFSIZE := by
      rw [length_window, inSight, if_neg (Nat.not_lt.mpr hr)]
    have hne : window r ≠ [] := by
      intro hnil
      rw [hnil] at hlen
      exact absurd hlen (by decide)
    have hloop : inLoop (window r) = true :=
      (hgoes.inLoop_or_lt hne).resolve_right (by rw [hlen]; decide)
    have hlive : ∀ p, p <+: window r → (rules.after p).canStep = true ∧ Goes ([] ++ p) := by
      rintro p ⟨q, hq⟩
      have hp : Goes p := Goes.prefix (hq ▸ hgoes)
      exact ⟨hp, hp⟩
    exact ⟨hn, Reader.run_gives_up (lawful_reader r) rfl hlive (fun m s h' => h'.refused hr hloop) h.sees
      (length_inSight_lt r)⟩
  · -- it ends in sight
    left
    have hn : n < BUFSIZE := Nat.lt_of_not_le (fun hge => hgoes ((hcut.goes_window_iff hm).mpr hge))
    have hmunch := (hcut.munch_window hgoes).trans hm
    obtain ⟨s', hrun, k, hsees, hk⟩ := @Reader.run_spec_on _ _ _ _ _ _ (lawful_reader r) (window r) [] rules none _
      (BUFSIZE + YYMAXFILL + 1) (fun p _ hp => hp) (.inr (Bool.eq_false_iff.mpr hgoes)) h.sees (by simp)
      (length_inSight_lt r)
    have hfrom : munchFrom (window r) rules none ([] : List UInt8).length = some (a, n) := hmunch
    rw [hfrom] at hrun hsees hk
    obtain rfl : n = k := hk (a, n) rfl
    have hle : n ≤ (window r).length := munch_length_le hmunch
    have hcur : s'.input.cur - s'.input.tok = n := by
      have := hsees.cur
      rw [List.nil_append, List.length_take, Nat.min_eq_left hle] at this
      omega
    refine ⟨hn, s', hrun, ?_, hsees.fills, ?_⟩
    · rw [hsees.holds.unread, hcur]
    · intro hv
      have hr := Nat.le_trans hv hcut.length_le
      have hstart := hsees.holds.start (by rw [hcur]; exact hr)
      rw [hcur] at hstart
      exact ⟨hstart, hsees.fills⟩

/-! ## The specification -/

/-- The lexemes of the bytes `v` with a NUL behind them, in a buffer without a bound. -/
def lexemesOf (v : List UInt8) : List (Action × List UInt8) := lexemes rules (v ++ [0])

/-- The ids that the rules return. -/
def ids (L : List (Action × List UInt8)) : List Id :=
  L.filterMap (fun x => match x.1 with
    | .skip  => none
    | .ret i => some i)

/-- The ids up to the first lexeme that does not fit in the buffer, for which there is an `END`. -/
def delivered : List (Action × List UInt8) → List Id
  | []          => []
  | (a, u) :: L =>
      if BUFSIZE ≤ u.length then [.end_]
      else match a with
        | .skip  => delivered L
        | .ret i => i :: delivered L

/-- A lexeme does not fit. -/
def TooLong (L : List (Action × List UInt8)) : Prop := ∃ x ∈ L, BUFSIZE ≤ x.2.length

theorem delivered_of_not_tooLong {L : List (Action × List UInt8)} (h : ¬ TooLong L) : delivered L = ids L := by
  induction L with
  | nil => rfl
  | cons x L ih =>
      obtain ⟨a, u⟩ := x
      have hu : ¬ BUFSIZE ≤ u.length := fun hle => h ⟨_, List.mem_cons_self .., hle⟩
      have hrest := ih (fun ⟨y, hy, hle⟩ => h ⟨y, List.mem_cons_of_mem _ hy, hle⟩)
      unfold delivered
      rw [if_neg hu]
      cases a with
      | skip => exact hrest
      | ret i => exact congrArg (i :: ·) hrest

theorem tooLong_cons {a : Action} {u : List UInt8} {L : List (Action × List UInt8)} :
    TooLong ((a, u) :: L) ↔ BUFSIZE ≤ u.length ∨ TooLong L := by
  unfold TooLong
  simp only [List.mem_cons, exists_eq_or_imp]

/-- The first lexeme of some bytes, and whether it is the NUL behind them. -/
theorem first_lexeme {v : List UInt8} (h0 : 0 ∉ v) : ∃ a n, munch rules (v ++ [0]) = some (a, n + 1) ∧
    ((v = [] ∧ n = 0 ∧ a = .ret .end_ ∧ lexemesOf v = [(a, [0])]) ∨
      (n + 1 ≤ v.length ∧ a ≠ .ret .end_ ∧ lexemesOf v = (a, v.take (n + 1)) :: lexemesOf (v.drop (n + 1)))) := by
  have hany : ∀ b, ruleOf rules [b] ≠ none := by
    intro b hnone
    exact ruleOf_eq_none.mp hnone (.cls (fun _ => true), .ret .any) (by simp [rules]) ⟨b, rfl, rfl⟩
  obtain ⟨a, n, hm⟩ := @munch_pos _ _ rules rfl hany _ (List.concat_ne_nil 0 v)
  refine ⟨a, n, hm, ?_⟩
  have hle := munch_length_le hm
  rw [List.length_append, List.length_singleton] at hle
  have hlex := lexemes_of_munch hm
  obtain ⟨x, hx, hw⟩ := mem_lang_of_munch hm
  rcases Nat.lt_or_ge v.length (n + 1) with hlt | hge
  · left
    have hn : n = v.length := by omega
    subst hn
    rw [List.take_of_length_le (by rw [List.length_append, List.length_singleton])] at hw hlex
    rw [List.drop_eq_nil_of_le (by rw [List.length_append, List.length_singleton])] at hlex
    have hzero := eq_of_zero_mem hx hw (by simp)
    have hv : v = [] := by
      have hlen := congrArg List.length hzero
      rw [List.length_append, List.length_singleton] at hlen
      exact List.length_eq_zero_iff.mp (by simpa using hlen)
    subst hv
    have hnul : munch rules [0] = some (.ret .end_, 1) := by decide +kernel
    obtain rfl : a = .ret .end_ := congrArg Prod.fst (Option.some.inj (hm.symm.trans hnul))
    exact ⟨rfl, rfl, rfl, by rw [lexemesOf, hlex, lexemes_nil]; rfl⟩
  · right
    rw [List.take_append_of_le_length hge] at hw hlex
    rw [List.drop_append_of_le_length hge] at hlex
    refine ⟨hge, ?_, hlex⟩
    rintro rfl
    have hzero : v.take (n + 1) = [0] := by
      simp only [rules, List.mem_cons, Prod.mk.injEq, reduceCtorEq, and_false, List.not_mem_nil, or_false,
        Action.ret.injEq, and_true] at hx
      subst hx
      exact Regex.mem_word.mp hw
    exact h0 (List.mem_of_mem_take (hzero ▸ List.mem_singleton_self _))

/-- A lexeme that fits. -/
theorem delivered_cons {a : Action} {u : List UInt8} (hu : u.length < BUFSIZE) (L : List (Action × List UInt8)) :
    delivered ((a, u) :: L) = match a with | .skip => delivered L | .ret i => i :: delivered L :=
  if_neg (Nat.not_le.mpr hu)

/-- A lexeme that does not. -/
theorem delivered_of_tooLong {a : Action} {u : List UInt8} (hu : BUFSIZE ≤ u.length) (L : List (Action × List UInt8)) :
    delivered ((a, u) :: L) = [.end_] := if_pos hu

theorem tooLong_of_fits {a : Action} {u : List UInt8} (hu : u.length < BUFSIZE) {L : List (Action × List UInt8)} :
    TooLong ((a, u) :: L) ↔ TooLong L := by
  rw [tooLong_cons, or_iff_right (Nat.not_le.mpr hu)]

/-! ## The calls -/

/-- The scanner behind its first `END`: all bytes `v` in front of the NUL are read, unless a lexeme was too long. -/
structure Stops (r v : List UInt8) (s : Scan) : Prop where
  read   : ¬ TooLong (lexemesOf v) → s.input.unread = r.drop (v.length + 1) ∧ ∀ c ∈ s.fills, c.Sound ∧ c.ret = 0
  gaveUp : TooLong (lexemesOf v) → ∃ k, GaveUp (r.drop k) s

/-- The same seen from in front of a lexeme that fits. -/
theorem Stops.of_drop {r v : List UInt8} {s : Scan} {k : Nat} (hk : k ≤ v.length)
    (hlong : TooLong (lexemesOf v) ↔ TooLong (lexemesOf (v.drop k))) (h : Stops (r.drop k) (v.drop k) s) :
    Stops r v s where
  read   := by
    intro hno
    obtain ⟨hunread, hfills⟩ := h.read (fun hyes => hno (hlong.mpr hyes))
    rw [List.drop_drop, List.length_drop] at hunread
    rw [hunread]
    exact ⟨congrArg (r.drop ·) (by omega), hfills⟩
  gaveUp := by
    intro hyes
    obtain ⟨j, hgave⟩ := h.gaveUp (hlong.mp hyes)
    rw [List.drop_drop] at hgave
    exact ⟨k + j, hgave⟩

/-- **One call**: the first id. -/
theorem lex_spec {n : Nat} {r v : List UInt8} (hcut : Cut r v) {s : Scan} (h : Ready r s) (hn : v.length < n) :
    ∃ i s', lex n s = some (i, s') ∧
      ((i = .end_ ∧ delivered (lexemesOf v) = [.end_] ∧ Stops r v s') ∨
        (i ≠ .end_ ∧ ∃ k, 0 < k ∧ k ≤ v.length ∧ Ready (r.drop k) s' ∧
          delivered (lexemesOf v) = i :: delivered (lexemesOf (v.drop k)) ∧
          (TooLong (lexemesOf v) ↔ TooLong (lexemesOf (v.drop k))))) := by
  induction n generalizing r v s with
  | zero => exact absurd hn (Nat.not_lt_zero _)
  | succ n ih =>
      obtain ⟨a, k, hm, hfirst⟩ := first_lexeme hcut.nul
      unfold lex
      rcases step_spec hcut h hm with ⟨hfits, s', hstep, hunread, hfills, hready⟩ | ⟨hlong, s', hstep, hgave⟩
      · rw [hstep, Option.bind_some]
        rcases hfirst with ⟨rfl, rfl, rfl, hlex⟩ | ⟨hle, hne, hlex⟩
        · -- the NUL
          refine ⟨.end_, s', rfl, .inl ⟨rfl, by rw [hlex]; rfl, ⟨fun _ => ⟨hunread, hfills⟩, ?_⟩⟩⟩
          rw [hlex, tooLong_of_fits (by decide)]
          rintro ⟨x, hx, -⟩
          exact absurd hx List.not_mem_nil
        · have hlen : (v.take (k + 1)).length < BUFSIZE := by
            rw [List.length_take, Nat.min_eq_left hle]
            exact hfits
          have hlong : TooLong (lexemesOf v) ↔ TooLong (lexemesOf (v.drop (k + 1))) := by
            rw [hlex, tooLong_of_fits hlen]
          cases a with
          | skip =>
              -- `lex` goes on behind it, with the same file
              obtain ⟨i, s'', hlexed, hres⟩ := ih (hcut.drop hle) (hready hle) (by rw [List.length_drop]; omega)
              have hdel : delivered (lexemesOf v) = delivered (lexemesOf (v.drop (k + 1))) := by
                rw [hlex, delivered_cons hlen]
              refine ⟨i, s'', hlexed, ?_⟩
              rcases hres with ⟨hi, hend, hstops⟩ | ⟨hi, j, hj, hjle, hready', hdel', hlong'⟩
              · exact .inl ⟨hi, hdel.trans hend, hstops.of_drop hle hlong⟩
              · rw [List.length_drop] at hjle
                rw [List.drop_drop] at hready' hdel' hlong'
                exact .inr ⟨hi, k + 1 + j, by omega, by omega, hready', hdel.trans hdel', hlong.trans hlong'⟩
          | ret i =>
              refine ⟨i, s', rfl, .inr ⟨fun hi => hne (congrArg Action.ret hi), k + 1, Nat.succ_pos _, hle, hready hle,
                ?_, hlong⟩⟩
              rw [hlex, delivered_cons hlen]
      · -- the first lexeme is too long
        rw [hstep, Option.bind_some]
        obtain ⟨hlex, hlen⟩ : lexemesOf v = (a, v.take (k + 1)) :: lexemesOf (v.drop (k + 1)) ∧
            BUFSIZE ≤ (v.take (k + 1)).length := by
          rcases hfirst with ⟨-, rfl, -, -⟩ | ⟨hle, -, hlex⟩
          · exact absurd hlong (by decide)
          · refine ⟨hlex, ?_⟩
            rw [List.length_take, Nat.min_eq_left hle]
            exact hlong
        refine ⟨.end_, s', rfl, .inl ⟨rfl, by rw [hlex, delivered_of_tooLong hlen], ⟨fun hno => ?_, fun _ => ⟨0, hgave⟩⟩⟩⟩
        exact absurd (by rw [hlex]; exact tooLong_cons.mpr (.inl hlen)) hno

theorem scannerScan_end {n : Nat} {s s' : Scan} (h : lex n s = some (.end_, s')) :
    scannerScan n s = some (-1, .end_, s') := by
  rw [scannerScan, h]
  rfl

theorem scannerScan_of_ne {n : Nat} {s s' : Scan} {i : Id} (h : lex n s = some (i, s')) (hi : i ≠ .end_) :
    ∃ ret, scannerScan n s = some (ret, i, s') ∧ ret ≠ -1 := by
  rw [scannerScan, h]
  cases i with
  | end_ => exact absurd rfl hi
  | any => exact ⟨1, rfl, by decide⟩
  | plan | testpoint | nl => exact ⟨0, rfl, by decide⟩

/-- **All calls**, by induction on their number. -/
theorem scanAll_spec {n : Nat} {r v : List UInt8} (hcut : Cut r v) {s : Scan} (h : Ready r s) (hn : v.length < n) :
    ∃ s', scanAll n s = some (delivered (lexemesOf v), s') ∧ Stops r v s' := by
  induction n generalizing r v s with
  | zero => exact absurd hn (Nat.not_lt_zero _)
  | succ n ih =>
      obtain ⟨i, s', hlex, hres⟩ := lex_spec hcut h hn
      unfold scanAll
      rcases hres with ⟨rfl, hdel, hstops⟩ | ⟨hi, k, hk, hle, hready, hdel, hlong⟩
      · refine ⟨s', ?_, hstops⟩
        rw [scannerScan_end hlex, Option.bind_some, if_pos rfl, hdel]
      · obtain ⟨ret, hscan, hret⟩ := scannerScan_of_ne hlex hi
        obtain ⟨s'', hrest, hstops⟩ := ih (hcut.drop hle) hready (by rw [List.length_drop]; omega)
        refine ⟨s'', ?_, hstops.of_drop hle hlong⟩
        rw [hscan, Option.bind_some, if_neg hret, hrest, hdel]
        rfl

/-- The bytes in front of the first NUL of a file. -/
def upToNul (file : List UInt8) : List UInt8 := file.takeWhile (· != 0)

theorem upToNul_eq {file : List UInt8} (h0 : 0 ∉ file) : upToNul file = file := by
  refine List.takeWhile_eq_self_iff.mpr ?_
  intro b hb
  rw [bne_iff_ne]
  rintro rfl
  exact h0 hb

theorem scanFile_spec (mar : Int) (file : List UInt8) :
    ∃ s', scanFile mar file = some (delivered (lexemesOf (upToNul file)), s') ∧ Stops file (upToNul file) s' :=
  scanAll_spec (cut_takeWhile file) (ready_inputInit mar file)
    (Nat.lt_of_le_of_lt (List.takeWhile_sublist _).length_le (by omega))

/-! ## Files without long lexemes -/

/-- No run of blanks and no plan fills the buffer. -/
def LoopsFit (v : List UInt8) : Prop :=
  ∀ x ∈ lexemesOf v, x.1 = .skip ∨ x.1 = .ret .plan → x.2.length < BUFSIZE

/-- No other lexeme comes near. -/
theorem loopsFit_iff {v : List UInt8} : LoopsFit v ↔ ¬ TooLong (lexemesOf v) := by
  constructor
  · rintro h ⟨x, hx, hlong⟩
    obtain ⟨r, hr, hw⟩ := mem_lexemes hx
    rcases mem_lang_rules hr hw with hone | hshort | ⟨-, hact⟩
    · rw [hone] at hlong
      exact absurd hlong (by decide)
    · have hle := (show ∀ y ∈ shortWords, y.length ≤ 6 by decide) _ hshort
      exact absurd (Nat.le_trans hlong hle) (by decide)
    · exact Nat.not_lt.mpr hlong (h x hx hact)
  · intro h x hx _
    exact Nat.lt_of_not_le (fun hle => h ⟨x, hx, hle⟩)

/-- Every lexeme of a file that is shorter than the buffer fits. -/
theorem loopsFit_of_length {v : List UInt8} (h : v.length + 1 < BUFSIZE) : LoopsFit v := by
  intro x hx _
  have hle := length_le_of_mem_lexemes hx
  rw [List.length_append, List.length_singleton] at hle
  exact Nat.lt_of_le_of_lt hle h

/-- **Where they fit, the buffer makes no difference**: the ids are those of the whole file with a NUL behind it,
    and every call of `fill` keeps the pointers in order and gets what it was asked for. -/
theorem scanFile_unbounded (mar : Int) {file : List UInt8} (h0 : 0 ∉ file) (hfit : LoopsFit file) :
    ∃ s', scanFile mar file = some (ids (lexemesOf file), s') ∧ ∀ c ∈ s'.fills, c.Sound := by
  obtain ⟨s', hrun, hstops⟩ := scanFile_spec mar file
  rw [upToNul_eq h0] at hrun hstops
  have hno := loopsFit_iff.mp hfit
  exact ⟨s', by rw [hrun, delivered_of_not_tooLong hno], fun c hc => ((hstops.read hno).2 c hc).1⟩

theorem scanFile_unbounded_plan : ∃ s', scanFile 0 [ch '1', ch '.', ch '.', ch '2', 0x0A, ch 'o', ch 'k'] =
    some (ids (lexemesOf [ch '1', ch '.', ch '.', ch '2', 0x0A, ch 'o', ch 'k']), s') ∧ ∀ c ∈ s'.fills, c.Sound :=
  scanFile_unbounded 0 (by decide) (loopsFit_of_length (by decide))

/-- What -1 should mean: the bytes that are not read lie behind the first NUL, and no call of `fill` has failed. -/
def Reports (file : List UInt8) (s : Scan) : Prop :=
  s.input.unread <:+ file.dropWhile (· != 0) ∧ ∀ c ∈ s.fills, c.ret ≠ 2

/-- **When -1 means the end of the file**: exactly if no run of blanks and no plan in front of the first NUL fills the
    buffer. -/
theorem scanFile_reports_iff (mar : Int) (file : List UInt8) :
    (∃ is s', scanFile mar file = some (is, s') ∧ Reports file s') ↔ LoopsFit (upToNul file) := by
  obtain ⟨s', hrun, hstops⟩ := scanFile_spec mar file
  rw [loopsFit_iff]
  constructor
  · rintro ⟨is, s'', hrun', hunread, hfills⟩ hlong
    obtain ⟨-, rfl⟩ := Prod.mk.inj (Option.some.inj (hrun.symm.trans hrun'))
    obtain ⟨_, hgave⟩ := hstops.gaveUp hlong
    obtain ⟨c, hc, hret⟩ := hgave.refused
    exact hfills c hc hret
  · intro hno
    obtain ⟨hunread, hfills⟩ := hstops.read hno
    refine ⟨_, s', hrun, ?_, fun c hc => by rw [(hfills c hc).2]; decide⟩
    have hsplit : upToNul file ++ file.dropWhile (· != 0) = file := List.takeWhile_append_dropWhile
    have hdrop := congrArg (List.drop (upToNul file).length) hsplit
    rw [List.drop_left] at hdrop
    rw [hunread, ← List.drop_drop, ← hdrop]
    exact List.drop_suffix 1 _

/-! ## A file that is not read -/

/-- The driver on one file: it leaves its loop behind the first result that is not 0, and makes -1 status 0. What it
    gives the parser is left out. -/
def drive : Nat → Scan → Option (Int × Scan)
  | 0, _ => none
  | n + 1, s =>
      (scannerScan (n + 1) s).bind (fun x =>
        if x.1 ≠ 0 then some (if x.1 = -1 then 0 else x.1, x.2.2) else drive n x.2.2)

/-- A token that is too long ends the program with status 0, and the rest of the file is not read. -/
theorem drive_gaveUp {n : Nat} {s s' : Scan} (h : step s = some (none, s')) :
    scanAll (n + 1) s = some ([.end_], s') ∧ drive (n + 1) s = some (0, s') := by
  have hlex : lex (n + 1) s = some (.end_, s') := by
    rw [lex, h]
    rfl
  constructor
  · rw [scanAll, scannerScan_end hlex]
    rfl
  · rw [drive, scannerScan_end hlex]
    rfl

/-- Blanks that fill the buffer, in front of a test point. -/
def blanksOk : List UInt8 := List.replicate BUFSIZE 0x20 ++ [ch 'o', ch 'k']

theorem scanFile_blanksOk : ∃ s', scanFile 0 blanksOk = some ([.end_], s') ∧
    drive 1 ⟨inputInit 0 blanksOk, []⟩ = some (0, s') ∧ s'.input.unread = [ch 'o', ch 'k'] ∧ ¬ Reports blanksOk s' := by
  have h0 : 0 ∉ blanksOk := by
    intro h
    rcases List.mem_append.mp h with h | h
    · exact absurd (List.eq_of_mem_replicate h) (by decide)
    · exact absurd h (by decide)
  have hcut : Cut blanksOk (upToNul blanksOk) := cut_takeWhile blanksOk
  rw [upToNul_eq h0] at hcut
  obtain ⟨a, k, hm, -⟩ := first_lexeme h0
  have hws : List.replicate BUFSIZE 0x20 ∈ ws.lang := by
    refine Regex.mem_plus_cls.mpr ⟨?_, ?_⟩
    · intro hnil
      exact absurd (congrArg List.length hnil) (by rw [List.length_replicate]; decide)
    · intro b hb
      rw [List.eq_of_mem_replicate hb]
      decide
  have hlong : BUFSIZE ≤ k + 1 := by
    have hle := @length_le_of_munch _ _ rules _ _ _ _ (by rw [blanksOk, List.append_assoc] at hm; exact hm)
      (ws, .skip) (by simp [rules]) hws
    rwa [List.length_replicate] at hle
  rcases step_spec hcut (ready_inputInit 0 blanksOk) hm with ⟨hfits, -⟩ | ⟨-, s', hstep, hgave⟩
  · omega
  · refine ⟨s', (drive_gaveUp hstep).1, (drive_gaveUp hstep).2, ?_, ?_⟩
    · rw [hgave.unread, blanksOk]
      exact List.drop_left' List.length_replicate
    · rintro ⟨-, hfills⟩
      obtain ⟨c, hc, hret⟩ := hgave.refused
      exact hfills c hc hret

end Tap
end CSamples
