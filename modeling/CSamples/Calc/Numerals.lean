import CSamples.Calc.Mycalc
import CSamples.Calc.Scan
import Mathlib.Data.List.DropRight

/-!
# `Calc.Numerals` — numerals in the input of the calculator

A numeral is a run of digits with no digit on either side. The rule `INTEGER` starts with a digit from 1 to 9, so
the zeros in front of a numeral go to the rule `ANY`, which drops them.

## Contents
- `inside`: the results of the calls in front of more input.
- `scanned_eq_inside`, `length_inside_le`: what is found in a beginning of the input.
- `scanned_digits`: what the scanner makes of a numeral.
- `scanFile_numeral_iff`: when that is the numeral itself, whatever the reads deliver.
-/

namespace CSamples
namespace Calc

open C CSamples.Lex

/-- The results of calls that do not reach the end of the input. -/
def inside : List (Tag × List UInt8) → List Scanned
  | []                  => []
  | (.ret t, u) :: ls   => .token t u :: inside ls
  | (.blank, _) :: ls   => inside ls
  | (.any, _) :: ls     => inside ls
  | (.newline, u) :: ls => .token .newline u :: inside ls

theorem scans_append (ls : List (Tag × List UInt8)) {ms : List (Tag × List UInt8)} (hms : ms ≠ []) :
    scans (ls ++ ms) = inside ls ++ scans ms := by
  induction ls with
  | nil => rfl
  | cons x ls ih =>
      obtain ⟨t, u⟩ := x
      cases t with
      | ret t =>
          show Scanned.token t u :: scans (ls ++ ms) = _
          rw [ih]
          rfl
      | blank => exact ih
      | any => exact ih
      | newline =>
          show (if (ls ++ ms).isEmpty then [.eof] else .token .newline u :: scans (ls ++ ms)) = _
          rw [if_neg (by simp [hms]), ih]
          rfl

/-! ## Where numerals start and end -/

theorem munch_rules_pos {w : List UInt8} (hw : w ≠ []) : ∃ t n, munch rules w = some (t, n + 1) :=
  munch_pos (by decide +kernel) ruleOf_any hw

theorem isBlank_of_isDigit {b : UInt8} (h : isDigit b = true) : isBlank b = false := by
  by_contra hb
  rw [isDigit_of_isBlank (Bool.not_eq_false _ ▸ hb)] at h
  exact absurd h (by decide)

/-- No match crosses the boundary between a byte that is no digit and a digit. -/
theorem not_mem_rules_cross {w p : List UInt8} {x : Regex UInt8 × Tag} (hx : x ∈ rules) {c d : UInt8}
    (hc : w.getLast? = some c) (hcd : isDigit c = false) (hd : p.head? = some d) (hdd : isDigit d = true) :
    w ++ p ∉ x.1.lang := by
  have hcw : c ∈ w := List.mem_of_getLast? hc
  have hdp : d ∈ p := List.mem_of_mem_head? hd
  intro hmem
  rcases mem_rules hx hmem with h | ⟨-, h⟩ | h | ⟨b, h⟩
  · obtain ⟨e, es, he, hes, heq⟩ := mem_integer.mp h
    have hall : ∀ b ∈ w ++ p, isDigit b = true := by
      rw [heq]
      intro b hb
      rcases List.mem_cons.mp hb with rfl | hb
      · exact isDigit_of_isDigit19 he
      · exact hes b hb
    rw [hall c (List.mem_append_left _ hcw)] at hcd
    exact absurd hcd (by decide)
  · have hblank := h d (List.mem_append_right _ hdp)
    rw [isBlank_of_isDigit hdd] at hblank
    exact absurd hblank (by decide)
  · have hmem : d ∈ [CR, LF] := h ▸ List.mem_append_right _ hdp
    simp only [List.mem_cons, List.not_mem_nil, or_false] at hmem
    rcases hmem with rfl | rfl <;> exact absurd hdd (by decide)
  · -- a byte of its own is not two
    have hlen := congrArg List.length h
    have hw := List.length_pos_of_mem hcw
    have hp := List.length_pos_of_mem hdp
    rw [List.length_append, List.length_singleton] at hlen
    omega

/-- Digits behind a byte that is none: what is in front is scanned on its own. -/
theorem lexemes_digits {u ds v : List UInt8} (hds : ds ≠ []) (hdigits : ∀ b ∈ ds, isDigit b = true)
    (hu : ∀ b ∈ u.getLast?, isDigit b = false) :
    lexemes rules (u ++ (ds ++ v)) = lexemes rules u ++ lexemes rules (ds ++ v) := by
  apply lexemes_append_of_cut (fun w hw => munch_rules_pos hw)
  intro w hw hne x hx p hp hpv
  obtain ⟨c, hc⟩ : ∃ c, w.getLast? = some c := ⟨w.getLast hne, List.getLast?_eq_some_getLast hne⟩
  obtain ⟨d, ds, rfl⟩ := List.exists_cons_of_ne_nil hds
  obtain ⟨e, p, rfl⟩ := List.exists_cons_of_ne_nil hp
  obtain ⟨q, hq⟩ := hpv
  obtain rfl : e = d := (List.cons.inj hq).1
  refine not_mem_rules_cross hx hc (hu c ?_) rfl (hdigits e (List.mem_cons_self ..))
  obtain ⟨r, rfl⟩ := hw
  rw [List.getLast?_append, hc]
  rfl

/-! ## The results in front of a cut -/

theorem inside_append (ls ms : List (Tag × List UInt8)) : inside (ls ++ ms) = inside ls ++ inside ms := by
  induction ls with
  | nil => rfl
  | cons x ls ih =>
      obtain ⟨t, u⟩ := x
      cases t with
      | ret t => exact congrArg (Scanned.token t u :: ·) ih
      | blank => exact ih
      | any => exact ih
      | newline => exact congrArg (Scanned.token .newline u :: ·) ih

/-- The newline behind the input makes the last result, and no other. -/
theorem scanned_eq_inside (w : List UInt8) : scanned w = inside (lexemes rules w) ++ [.eof] := by
  obtain ⟨ls, r, hboth, hleft, hr⟩ := lexemes_cut (fun w hw => munch_rules_pos hw) w [LF]
  unfold scanned
  rw [hboth, scans_append _ (lexemes_rules_ne_nil (by simp)), hleft, inside_append, List.append_assoc]
  congr 1
  rcases hr with rfl | ⟨t, n, hm, hlt⟩
  · rw [lexemes_nil]
    decide +kernel
  · -- a match of more than the newline is CR LF
    obtain ⟨x, hx, hmem⟩ := mem_lang_of_munch hm
    have hle := munch_length_le hm
    rw [List.length_append, List.length_singleton] at hle
    rw [List.take_of_length_le (by simp; omega)] at hmem
    rcases mem_rules hx hmem with h | ⟨-, h⟩ | h | ⟨b, h⟩
    · obtain ⟨d, ds, hd, hds, heq⟩ := mem_integer.mp h
      have hlf : LF ∈ d :: ds := heq ▸ List.mem_append_right r (List.mem_singleton_self LF)
      rcases List.mem_cons.mp hlf with rfl | hlf
      · exact absurd hd (by decide)
      · exact absurd (hds LF hlf) (by decide)
    · exact absurd (h LF (List.mem_append_right r (List.mem_singleton_self LF))) (by decide)
    · obtain rfl : r = [CR] := List.append_cancel_right (h : r ++ [LF] = [CR] ++ [LF])
      decide +kernel
    · cases r with
      | nil => decide +kernel
      | cons c r => exact absurd (congrArg List.length h) (by simp)

/-- A token comes from a match. -/
theorem mem_of_mem_inside {ls : List (Tag × List UInt8)} {t : Terminal} {u : List UInt8}
    (h : Scanned.token t u ∈ inside ls) : (.ret t, u) ∈ ls ∨ t = .newline ∧ (.newline, u) ∈ ls := by
  induction ls with
  | nil => exact absurd h List.not_mem_nil
  | cons x ls ih =>
      obtain ⟨tag, w⟩ := x
      have htail : Scanned.token t u ∈ inside ls →
          (.ret t, u) ∈ (tag, w) :: ls ∨ t = .newline ∧ (.newline, u) ∈ (tag, w) :: ls := fun hmem =>
        (ih hmem).imp (List.mem_cons_of_mem _) (fun hnew => ⟨hnew.1, List.mem_cons_of_mem _ hnew.2⟩)
      cases tag with
      | blank => exact htail h
      | any => exact htail h
      | newline =>
          rcases List.mem_cons.mp h with heq | h
          · obtain ⟨rfl, rfl⟩ := Scanned.token.inj heq
            exact .inr ⟨rfl, List.mem_cons_self ..⟩
          · exact htail h
      | ret t' =>
          rcases List.mem_cons.mp h with heq | h
          · obtain ⟨rfl, rfl⟩ := Scanned.token.inj heq
            exact .inl (List.mem_cons_self ..)
          · exact htail h

/-- **The text of a token**: a literal, or two bytes at most. -/
theorem text_of_mem_scanned {w u : List UInt8} {t : Terminal} (h : Scanned.token t u ∈ scanned w) :
    t = .num ∧ u ∈ integer.lang ∨ t ≠ .num ∧ u.length ≤ 2 := by
  rw [scanned_eq_inside] at h
  rcases List.mem_append.mp h with h | h
  · rcases mem_of_mem_inside h with hmem | ⟨rfl, hmem⟩
    · obtain ⟨r, hr, hu⟩ := mem_lexemes hmem
      simp only [rules, List.mem_cons, List.not_mem_nil, or_false, Prod.mk.injEq, Tag.ret.injEq, reduceCtorEq,
        and_false] at hr
      rcases hr with ⟨rfl, rfl⟩ | ⟨rfl, rfl⟩ | ⟨rfl, rfl⟩ | ⟨rfl, rfl⟩ | ⟨rfl, rfl⟩ | ⟨rfl, rfl⟩ | ⟨rfl, rfl⟩ |
        ⟨rfl, rfl⟩ | ⟨rfl, rfl⟩
      · exact .inl ⟨rfl, hu⟩
      all_goals
        have hone : u.length = 1 := congrArg List.length (Regex.mem_word.mp hu)
        exact .inr ⟨by simp, by omega⟩
    · obtain ⟨r, hr, hu⟩ := mem_lexemes hmem
      simp only [rules, List.mem_cons, List.not_mem_nil, or_false, Prod.mk.injEq, reduceCtorEq, and_false, and_true,
        false_or] at hr
      subst hr
      refine .inr ⟨by simp, ?_⟩
      rcases hu with hu | hu
      · exact Nat.le_of_eq (congrArg List.length (Regex.mem_word.mp hu))
      · have hone : u.length = 1 := congrArg List.length (Regex.mem_word.mp hu)
        omega
  · exact absurd (List.mem_singleton.mp h) (by rintro ⟨⟩)

/-- The text of a literal that is returned. -/
theorem literal_of_mem_scanned {w u : List UInt8} (h : Scanned.token .num u ∈ scanned w) : u ∈ integer.lang :=
  (text_of_mem_scanned h).elim And.right (fun hne => absurd rfl hne.1)

/-- A beginning of the input does not give more results. -/
theorem length_inside_le (u v : List UInt8) :
    (inside (lexemes rules u)).length ≤ (inside (lexemes rules (u ++ v))).length := by
  obtain ⟨ls, r, hboth, hleft, hr⟩ := lexemes_cut (fun w hw => munch_rules_pos hw) u v
  rw [hboth, hleft, inside_append, inside_append, List.length_append, List.length_append]
  apply Nat.add_le_add_left
  rcases hr with rfl | ⟨t, n, hm, hlt⟩
  · rw [lexemes_nil]
    exact Nat.zero_le _
  · by_cases hne : r = []
    · rw [hne, lexemes_nil]
      exact Nat.zero_le _
    -- a match that crosses the cut begins with `r`
    obtain ⟨x, hx, hmem⟩ := mem_lang_of_munch hm
    have hrule := (munch_eq_some_iff.mp hm).rule
    have htake := List.length_take_of_le (munch_length_le hm)
    obtain ⟨p, hp⟩ : ∃ p, (r ++ v).take n = r ++ p :=
      ⟨_, by rw [List.take_append, List.take_of_length_le (Nat.le_of_lt hlt)]⟩
    rw [hp] at hmem hrule htake
    rcases mem_rules hx hmem with h | ⟨-, h⟩ | h | ⟨b, h⟩
    · have hr := integer_of_prefix h (List.prefix_append r p) hne
      have hone := @lexemes_append _ _ rules r [] _ hne (munch_literal hr (by rintro b ⟨⟩))
      obtain rfl : t = .ret .num := Option.some.inj (hrule.symm.trans (ruleOf_of_mem h))
      obtain ⟨m, rfl⟩ := Nat.exists_eq_succ_of_ne_zero (Nat.ne_of_gt (Nat.zero_lt_of_lt hlt))
      rw [List.append_nil, lexemes_nil] at hone
      rw [hone, lexemes_of_munch hm]
      exact Nat.succ_le_succ (Nat.zero_le _)
    · have hone := @lexemes_append _ _ rules r [] _ hne
        (munch_blank hne (fun b hb => h b (List.mem_append_left p hb)) (by rintro b ⟨⟩))
      rw [List.append_nil, lexemes_nil] at hone
      rw [hone]
      exact Nat.zero_le _
    · obtain rfl : r = [CR] := by
        rw [h] at htake
        obtain ⟨c, r, rfl⟩ := List.exists_cons_of_ne_nil hne
        obtain rfl : r = [] := by
          cases r with
          | nil => rfl
          | cons d r => simp at htake hlt; omega
        rw [(List.cons.inj h).1]
      rw [show inside (lexemes rules [CR]) = [] by decide +kernel]
      exact Nat.zero_le _
    · rw [h, List.length_singleton] at htake
      exact absurd (Nat.lt_one_iff.mp (htake ▸ hlt)) (fun h => hne (List.length_eq_zero_iff.mp h))

/-! ## Zeros -/

theorem ruleOf_zero : ruleOf rules [ch '0'] = some .any := by decide +kernel

/-- A zero that starts no literal is dropped. -/
theorem scans_zero (w : List UInt8) : scans (lexemes rules (ch '0' :: w)) = scans (lexemes rules w) := by
  have hmunch := munch_char ruleOf_zero (by decide) (by decide) (by decide) w
  have hcons : lexemes rules ([ch '0'] ++ w) = (.any, [ch '0']) :: lexemes rules w :=
    lexemes_append (List.cons_ne_nil _ _) hmunch
  show scans (lexemes rules ([ch '0'] ++ w)) = _
  rw [hcons]
  rfl

/-- The digits without the zeros in front. -/
def significant (ds : List UInt8) : List UInt8 := ds.dropWhile (· == ch '0')

theorem scans_significant (ds w : List UInt8) :
    scans (lexemes rules (ds ++ w)) = scans (lexemes rules (significant ds ++ w)) := by
  induction ds with
  | nil => rfl
  | cons d ds ih =>
      unfold significant
      by_cases hd : d = ch '0'
      · subst hd
        rw [List.dropWhile_cons_of_pos (by decide), List.cons_append, scans_zero]
        exact ih
      · rw [List.dropWhile_cons_of_neg (by simpa using hd)]

theorem significant_eq {ds : List UInt8} (h : ds.head? ≠ some (ch '0')) : significant ds = ds := by
  cases ds with
  | nil => rfl
  | cons d ds => exact List.dropWhile_cons_of_neg (fun hzero => h (congrArg some (eq_of_beq hzero)))

/-- Digits of which the first is no zero are a literal. -/
theorem mem_integer_iff {ds : List UInt8} (hds : ds ≠ []) (hdigits : ∀ b ∈ ds, isDigit b = true) :
    ds ∈ integer.lang ↔ ds.head? ≠ some (ch '0') := by
  obtain ⟨d, ds, rfl⟩ := List.exists_cons_of_ne_nil hds
  have hd : isDigit19 d = true ↔ d ≠ ch '0' := by
    have hdig := hdigits d (List.mem_cons_self ..)
    revert hdig
    simp only [isDigit, isDigit19, Bool.and_eq_true, decide_eq_true_eq, ch, UInt8.le_iff_toNat_le, ne_eq,
      ← UInt8.toNat_inj]
    simp
    omega
  rw [mem_integer, List.head?_cons, ne_eq, Option.some.injEq, ← ne_eq, ← hd]
  constructor
  · rintro ⟨e, es, he, -, heq⟩
    rw [(List.cons.inj heq).1]
    exact he
  · intro h
    exact ⟨d, ds, h, fun b hb => hdigits b (List.mem_cons_of_mem _ hb), rfl⟩

/-! ## Numerals -/

/-- **What the scanner makes of a numeral**: a literal with the text from the first digit that is no zero on, or
    nothing. -/
theorem scanned_digits {u ds v : List UInt8} (hds : ds ≠ []) (hdigits : ∀ b ∈ ds, isDigit b = true)
    (hu : ∀ b ∈ u.getLast?, isDigit b = false) (hv : ∀ b ∈ v.head?, isDigit b = false) :
    scanned (u ++ ds ++ v) = inside (lexemes rules u) ++
      ((if significant ds = [] then [] else [.token .num (significant ds)]) ++ scanned v) := by
  have hne : lexemes rules (ds ++ (v ++ [LF])) ≠ [] := lexemes_rules_ne_nil (by simp)
  have hsplit : scanned (u ++ ds ++ v) = inside (lexemes rules u) ++ scans (lexemes rules (ds ++ (v ++ [LF]))) := by
    unfold scanned
    rw [List.append_assoc, List.append_assoc, lexemes_digits hds hdigits hu, scans_append _ hne]
  rw [hsplit, scans_significant]
  by_cases hnil : significant ds = []
  · rw [if_pos hnil, hnil]
    rfl
  · rw [if_neg hnil]
    have hmem : significant ds ∈ integer.lang := by
      rw [mem_integer_iff hnil (fun b hb => hdigits b ((List.dropWhile_sublist _).subset hb))]
      intro hhead
      have hnot := List.head?_dropWhile_not (· == ch '0') ds
      rw [show ds.dropWhile (· == ch '0') = significant ds from rfl, hhead] at hnot
      exact absurd hnot (by decide)
    have hhead : ∀ b ∈ (v ++ [LF]).head?, isDigit b = false := by
      intro b hb
      cases v with
      | nil =>
          obtain rfl : LF = b := Option.some.inj hb
          rfl
      | cons c v => exact hv b hb
    rw [lexemes_append hnil (munch_literal hmem hhead)]
    rfl

/-- In one buffer, a numeral that fits in `int` is a literal with all its digits, and the value handed to the parser is
    the numeral's, unless it starts with a zero. -/
theorem scanned_numeral {u ds v : List UInt8} (hds : ds ≠ []) (hdigits : ∀ b ∈ ds, isDigit b = true)
    (hval : InInt (decimal ds)) (hu : ∀ b ∈ u.getLast?, isDigit b = false) (hv : ∀ b ∈ v.head?, isDigit b = false)
    (hzero : ds.head? ≠ some (ch '0')) :
    scanned (u ++ ds ++ v) = inside (lexemes rules u) ++ .token .num ds :: scanned v ∧
      (Mycalc.tokenOf ds).map Token.value = some (some (decimal ds : Int)) := by
  have hmem := (mem_integer_iff hds hdigits).mpr hzero
  rw [scanned_digits hds hdigits hu hv, significant_eq hzero, if_neg hds, Mycalc.tokenOf_literal hmem hval]
  exact ⟨rfl, rfl⟩

/-- The literal that is found in a part of the digits has fewer of them. -/
theorem no_numeral_of_part {u ds ds' : List UInt8} (hlt : ds'.length < ds.length)
    (hdigits : ∀ b ∈ ds', isDigit b = true) (hu : ∀ b ∈ u.getLast?, isDigit b = false) (rest : List Scanned) :
    scanned (u ++ ds') ≠ inside (lexemes rules u) ++ .token .num ds :: rest := by
  by_cases hne : ds' = []
  · subst hne
    rw [List.append_nil, scanned_eq_inside]
    intro h
    exact absurd (List.cons.inj (List.append_cancel_left h)).1 (by rintro ⟨⟩)
  · intro h
    have hscan := @scanned_digits u ds' [] hne hdigits hu (by rintro b ⟨⟩)
    rw [List.append_nil, h] at hscan
    have htail := List.append_cancel_left hscan
    by_cases hnil : significant ds' = []
    · rw [if_pos hnil, scanned_eq_inside, lexemes_nil] at htail
      exact absurd (List.cons.inj htail).1 (by rintro ⟨⟩)
    · rw [if_neg hnil] at htail
      have htext := (Scanned.token.inj (List.cons.inj htail).1).2
      have hle : (significant ds').length ≤ ds'.length := (List.dropWhile_sublist _).length_le
      rw [← htext] at hle
      omega

/-- A literal with all the digits of the numeral is found only where all of them are read. -/
theorem length_le_of_scanned {u ds v w w' v' : List UInt8} (hdigits : ∀ b ∈ ds, isDigit b = true)
    (hu : ∀ b ∈ u.getLast?, isDigit b = false) (hsplit : u ++ ds ++ v = w ++ w')
    (h : scanned w = inside (lexemes rules u) ++ .token .num ds :: scanned v') : (u ++ ds).length ≤ w.length := by
  by_contra hlt
  have hpre : w <+: u ++ ds := by
    refine List.prefix_of_prefix_length_le ⟨w', hsplit.symm⟩ (List.prefix_append _ v) ?_
    omega
  rcases List.prefix_or_prefix_of_prefix hpre (List.prefix_append u ds) with hpre | ⟨ds', rfl⟩
  · -- there are not more literals than in `u`
    obtain ⟨p, rfl⟩ := hpre
    have hle := length_inside_le w p
    have hlen := congrArg List.length h
    simp only [scanned_eq_inside, List.length_append, List.length_cons] at hlen
    omega
  · have hds' : ds' <+: ds := (List.prefix_append_right_inj u).mp hpre
    refine no_numeral_of_part ?_ (fun b hb => hdigits b (hds'.subset hb)) hu _ h
    simp only [List.length_append] at hlt
    omega

/-- **The numeral is read as it is written** when `fd` delivers `u ++ ds ++ v`: the calls of `scan` return one literal
    with all its digits between the results for `u` and those for what is read of `v`, and the value handed to the parser
    is the numeral's. -/
def Reads (junk : Nat → UInt8) (u ds v : List UInt8) (fd : Fd) : Prop :=
  (∃ n s v', scanFile (uint junk) n fd = some (inside (lexemes rules u) ++ .token .num ds :: scanned v', s) ∧ v' <+: v) ∧
    (Mycalc.tokenOf ds).map Token.value = some (some (decimal ds : Int))

theorem reads_iff_of_fits {junk : Nat → UInt8} {u ds v : List UInt8} (hds : ds ≠ [])
    (hdigits : ∀ b ∈ ds, isDigit b = true) (hval : InInt (decimal ds)) (hu : ∀ b ∈ u.getLast?, isDigit b = false)
    (hv : ∀ b ∈ v.head?, isDigit b = false) {fd : Fd} (hdata : fd.data = u ++ ds ++ v) (hsane : fd.Sane)
    (hfits : Fits junk fd) :
    Reads junk u ds v fd ↔ ds.head? ≠ some (ch '0') ∧ (u ++ ds).length ≤ (taken fd.blocks).length := by
  have hsplit : u ++ ds ++ v = taken fd.blocks ++ untaken fd.blocks := by
    rw [taken_append_untaken, ← hdata, Fd.data]
  constructor
  · rintro ⟨⟨n, s, v', hscan, hv'⟩, -⟩
    have heq := (eq_of_scanFile hsane hfits hscan).1.symm
    have hmem : Scanned.token .num ds ∈ scanned (taken fd.blocks) := by
      rw [heq]
      exact List.mem_append_right _ (List.mem_cons_self ..)
    exact ⟨(mem_integer_iff hds hdigits).mp (literal_of_mem_scanned hmem), length_le_of_scanned hdigits hu hsplit heq⟩
  · rintro ⟨hzero, hlen⟩
    obtain ⟨p, hp⟩ := List.prefix_of_prefix_length_le (List.prefix_append _ v) ⟨_, hsplit.symm⟩ hlen
    have hpv : p <+: v := ⟨_, by
      rw [← hp, List.append_assoc (u ++ ds)] at hsplit
      exact (List.append_cancel_left hsplit).symm⟩
    have hhead : ∀ b ∈ p.head?, isDigit b = false := by
      intro b hb
      obtain ⟨q, rfl⟩ := hpv
      exact hv b (by rw [List.head?_append, hb]; rfl)
    obtain ⟨hscan, hvalue⟩ := scanned_numeral hds hdigits hval hu hhead hzero
    obtain ⟨n, s, hrun, -⟩ := scanFile_of_fits hsane hfits
    rw [← hp, hscan] at hrun
    exact ⟨⟨n, s, p, hrun, hpv⟩, hvalue⟩

/-- **A numeral that fits in `int` is read as it is written** if and only if it does not start with a zero and no read
    is short in front of its end, where no distance is lost. -/
theorem scanFile_numeral_iff (junk : Nat → UInt8) {u ds v : List UInt8} (hds : ds ≠ [])
    (hdigits : ∀ b ∈ ds, isDigit b = true) (hval : InInt (decimal ds)) (hu : ∀ b ∈ u.getLast?, isDigit b = false)
    (hv : ∀ b ∈ v.head?, isDigit b = false) {fd : Fd} (hdata : fd.data = u ++ ds ++ v)
    (hblocks : ∀ d ∈ fd.blocks, d.length ≤ BSIZE) :
    (fd.Sane → Fits junk fd →
      (Reads junk u ds v fd ↔ ds.head? ≠ some (ch '0') ∧ (u ++ ds).length ≤ (taken fd.blocks).length)) ∧
    (fd.data.length + BSIZE < 4294967296 →
      (Reads junk u ds v fd ↔ ds.head? ≠ some (ch '0') ∧ (u ++ ds).length ≤ (taken fd.blocks).length ∧
        (fd.fails = true → ∃ d ∈ fd.blocks, d.length ≠ BSIZE))) := by
  have hsane : fd.Sane → Fits junk fd → _ := fun h hfits => reads_iff_of_fits hds hdigits hval hu hv hdata h hfits
  refine ⟨hsane, ?_⟩
  intro hlen
  have hfits : fd.Sane → Fits junk fd := fun h => fits_of_sane h (by omega) junk
  constructor
  · intro hreads
    obtain ⟨⟨n, s, v', hscan, -⟩, -⟩ := id hreads
    have h : fd.Sane := ⟨hblocks, short_of_scanFile hlen hscan⟩
    obtain ⟨hzero, hle⟩ := (hsane h (hfits h)).mp hreads
    exact ⟨hzero, hle, h.short⟩
  · rintro ⟨hzero, hle, hshort⟩
    have h : fd.Sane := ⟨hblocks, hshort⟩
    exact (hsane h (hfits h)).mpr ⟨hzero, hle⟩

/-- `(10)`, delivered as `(10` and `)`: the numeral is read, the bracket is not. -/
theorem scanFile_numeral_ten :
    Reads (fun _ => 0) [ch '('] [ch '1', ch '0'] [ch ')'] ⟨[[ch '(', ch '1', ch '0'], [ch ')']], false⟩ := by
  have hiff := @scanFile_numeral_iff (fun _ => 0) [ch '('] [ch '1', ch '0'] [ch ')'] (by decide)
    (List.all_eq_true.mp (by decide)) (by decide) (by rintro b ⟨⟩; decide) (by rintro b ⟨⟩; decide)
    ⟨[[ch '(', ch '1', ch '0'], [ch ')']], false⟩ (by decide) (by decide)
  exact (hiff.2 (by decide)).mpr ⟨by decide, by decide, by decide⟩

/-- `(0)` in one block is read as `()`, and of `007` the last digit is the literal; of `(12)` in two blocks `(1` is
    read. -/
theorem scanFile_zero_vanishes :
    (∃ n s, scanFile (uint (fun _ => 0)) n ⟨[[ch '(', ch '0', ch ')']], false⟩ =
      some ([.token .lrb [ch '('], .token .rrb [ch ')'], .eof], s)) ∧
    ¬ Reads (fun _ => 0) [ch '('] [ch '0'] [ch ')'] ⟨[[ch '(', ch '0', ch ')']], false⟩ ∧
    (∃ n s, scanFile (uint (fun _ => 0)) n ⟨[[ch '0', ch '0', ch '7']], false⟩ = some ([.token .num [ch '7'], .eof], s)) ∧
    ¬ Reads (fun _ => 0) [] [ch '0', ch '0', ch '7'] [] ⟨[[ch '0', ch '0', ch '7']], false⟩ ∧
    (∃ n s, scanFile (uint (fun _ => 0)) n ⟨[[ch '(', ch '1'], [ch '2', ch ')']], false⟩ =
      some ([.token .lrb [ch '('], .token .num [ch '1'], .eof], s)) ∧
    ¬ Reads (fun _ => 0) [ch '('] [ch '1', ch '2'] [ch ')'] ⟨[[ch '(', ch '1'], [ch '2', ch ')']], false⟩ := by
  have hrun : ∀ (fd : Fd) (ys : List Scanned), fd.Sane → (taken fd.blocks).length < 4294967296 →
      scanned (taken fd.blocks) = ys → ∃ n s, scanFile (uint (fun _ => 0)) n fd = some (ys, s) := by
    rintro fd ys h hlen rfl
    obtain ⟨n, s, hs, -⟩ := scanFile_of_fits h (fits_of_length h hlen (fun _ => 0))
    exact ⟨n, s, hs⟩
  refine ⟨hrun _ _ ⟨by decide, by decide⟩ (by decide) (by decide +kernel), ?_,
    hrun _ _ ⟨by decide, by decide⟩ (by decide) (by decide +kernel), ?_,
    hrun _ _ ⟨by decide, by decide⟩ (by decide) (by decide +kernel), ?_⟩
  all_goals
    rw [reads_iff_of_fits (by decide) (List.all_eq_true.mp (by decide)) (by decide) (by rintro b ⟨⟩ <;> decide)
      (by rintro b ⟨⟩ <;> decide) (by decide) ⟨by decide, by decide⟩
      (fits_of_length ⟨by decide, by decide⟩ (by decide) (fun _ => 0))]
    decide

end Calc
end CSamples
