import CSamples.Myterm.PortHandler

/-!
# `Myterm.Debug` — the terminal with its debug flag

With the flag set `port_handler` counts the tokens of a read down from 50 and leaves its loop at zero, with the token
of that round not shown. Up to there the flag changes nothing but the diagnostics.

## Contents
- **The loop.** `loop_debug_eq`, and `loop_forced` for the break.
- **One read.** `portHandler_debug` and `portHandler_forced`.
- **Whole runs.** `debug_display`.
-/

namespace CSamples
namespace Myterm

open C CSamples.Lex

/-- The initial value of `count`. -/
def forceBreak : Nat := 50

/-- In every read `lex` finds fewer tokens than `count` allows, behind the kept bytes `w`. -/
def Unforced : List UInt8 → List (List UInt8) → Prop
  | _, []      => True
  | w, bs :: bss => (decoder.scan (w ++ bs)).length < forceBreak ∧ Unforced (decoder.rest (w ++ bs)) bss

instance : ∀ (w : List UInt8) (bss : List (List UInt8)), Decidable (Unforced w bss)
  | _, []        => .isTrue trivial
  | w, bs :: bss =>
      have := instDecidableUnforced (decoder.rest (w ++ bs)) bss
      inferInstanceAs
        (Decidable ((decoder.scan (w ++ bs)).length < forceBreak ∧ Unforced (decoder.rest (w ++ bs)) bss))

/-! ## The loop -/

theorem scan_cons (a b c : UInt8) (v : List UInt8) :
    decoder.scan (a :: b :: c :: v) = shownAt a b c :: decoder.scan ((a :: b :: c :: v).drop (tokenAt a b c).2) :=
  Lookahead.scan_of_le (show 3 ≤ _ by simp)

/-- **Below the count** the loop is the one without the flag. -/
theorem loop_debug_eq (buf : Mem) (fuel : Nat) {count : Int} (count' : Int) (s : Scanner) (out w : List UInt8)
    (hlim : s.lim = s.cur + w.length) (hw : (buf.drop s.cur).take w.length = w)
    (hfew : ((decoder.scan w).length : Int) < count) :
    loop true buf fuel count s out = loop false buf fuel count' s out := by
  induction fuel generalizing count s out w with
  | zero => rfl
  | succ fuel ih =>
      by_cases h3 : w.length < 3
      · rw [loop_short true fuel count out hlim hw h3, loop_short false fuel count' out hlim hw h3]
      · match w with
        | [] | [_] | [_, _] => exact absurd h3 (by simp)
        | a :: b :: c :: v =>
            rw [scan_cons, List.length_cons] at hfew
            obtain ⟨hlim', hw'⟩ := window_drop (token_le a b c v) hlim hw
            have hgo : ¬(true = true ∧ count - 1 ≤ 0) := by omega
            have hstop : ¬(false = true ∧ count' ≤ 0) := fun h => Bool.false_ne_true h.1
            rw [loop_token true fuel count out hlim hw, loop_token false fuel count' out hlim hw, if_pos rfl,
              if_neg Bool.false_ne_true, if_neg hgo, if_neg hstop]
            exact ih ⟨s.cur + (tokenAt a b c).2, s.lim, s.cur⟩ _ _ hlim' hw' (by omega)

/-- **At the count** the loop has shown the tokens in front, and stops somewhere in the buffer. -/
theorem loop_forced (buf : Mem) (fuel n : Nat) (s : Scanner) (out w : List UInt8) (hfuel : w.length < fuel)
    (hlim : s.lim = s.cur + w.length) (hw : (buf.drop s.cur).take w.length = w) (hmany : n < (decoder.scan w).length) :
    ∃ s', loop true buf fuel (n + 1 : Nat) s out = some (s', out ++ ((decoder.scan w).take n).flatten) ∧
      s'.lim = s.lim ∧ s'.cur ≤ s.lim := by
  induction fuel generalizing n s out w with
  | zero => exact absurd hfuel (Nat.not_lt_zero _)
  | succ fuel ih =>
      by_cases h3 : w.length < 3
      · rw [Lookahead.scan_of_lt h3] at hmany
        exact absurd hmany (Nat.not_lt_zero n)
      · match w with
        | [] | [_] | [_, _] => exact absurd h3 (by simp)
        | a :: b :: c :: v =>
            obtain ⟨hlim', hw'⟩ := window_drop (token_le a b c v) hlim hw
            have htoken := tokenAt_length a b c
            rw [loop_token true fuel _ out hlim hw, if_pos rfl]
            cases n with
            | zero =>
                rw [if_pos ⟨rfl, Int.le_refl 0⟩, List.take_zero, List.flatten_nil, List.append_nil]
                exact ⟨_, rfl, rfl, by show s.cur + _ ≤ s.lim; omega⟩
            | succ n =>
                have hcount : (((n + 1 + 1 : Nat) : Int) - 1) = (n + 1 : Nat) := by omega
                have hgo : ¬(true = true ∧ ((n + 1 : Nat) : Int) ≤ 0) := by omega
                rw [hcount, if_neg hgo]
                rw [scan_cons, List.length_cons] at hmany
                have hshorter : ((a :: b :: c :: v).drop (tokenAt a b c).2).length < fuel := by
                  rw [List.length_drop]
                  omega
                obtain ⟨s', hrun, hsame, hle⟩ := ih n ⟨s.cur + (tokenAt a b c).2, s.lim, s.cur⟩
                  (out ++ shownAt a b c) _ hshorter hlim' hw' (Nat.lt_of_succ_lt_succ hmany)
                refine ⟨s', ?_, hsame, hle⟩
                rw [hrun, scan_cons, List.take_succ_cons, List.flatten_cons, List.append_assoc]

/-! ## One read -/

/-- The same user data, with the flag set. -/
def UserData.debugging (ud : UserData) : UserData := { ud with debug := true }

theorem leave_debugging (ud : UserData) (buf : Mem) (r : Scanner × List UInt8) :
    leave ud.debugging buf r = (leave ud buf r).map (fun x => (x.1.debugging, x.2)) := by
  unfold leave
  simp only [Option.bind_eq_bind, Option.map_bind, Function.comp_def, Option.map_some]
  rfl

/-- **A read below the count**: the flag makes no difference. -/
theorem portHandler_debug {ud : UserData} {w bs : List UInt8} (hk : Keeps ud w) (hle : bs.length ≤ ud.request)
    (hfew : (decoder.scan (w ++ bs)).length < forceBreak) :
    portHandler ud.debugging (.bytes bs) = (portHandler ud (.bytes bs)).map (fun r => (r.1.debugging, r.2)) := by
  obtain ⟨r, -, hread⟩ := portHandler_eq hk hle
  have hcount : ((decoder.scan (w ++ bs)).length : Int) < 50 := Int.ofNat_lt.mpr hfew
  have hloop := loop_debug_eq (w ++ bs ++ 0 :: r) (w.length + bs.length + 1) 50 ⟨0, w.length + bs.length, 0⟩ [] (w ++ bs)
    (by simp) (by rw [List.drop_zero]; exact List.take_left) hcount
  have hclear := hread false
  have hset := hread true
  rw [hk.eq_self] at hclear
  rw [hclear, Option.map_bind, UserData.debugging, hset, hloop]
  congr 1
  funext x
  exact leave_debugging ud _ x

/-- **A read at the count**: the characters of the tokens in front are shown. -/
theorem portHandler_forced {ud : UserData} {w bs : List UInt8} (hk : Keeps ud w) (hle : bs.length ≤ ud.request)
    (hmany : forceBreak ≤ (decoder.scan (w ++ bs)).length) :
    ∃ ud', portHandler ud.debugging (.bytes bs) =
      some (ud', (((decoder.scan (w ++ bs)).take (forceBreak - 1)).flatten).map .shown) := by
  obtain ⟨r, hsize, hread⟩ := portHandler_eq hk hle
  obtain ⟨s, hloop, hlim, hcur⟩ := loop_forced (w ++ bs ++ 0 :: r) (w.length + bs.length + 1) (forceBreak - 1)
    ⟨0, w.length + bs.length, 0⟩ [] (w ++ bs) (by rw [List.length_append]; exact Nat.lt_succ_self _) (by simp)
    (by rw [List.drop_zero]; exact List.take_left) hmany
  have hlim' : s.lim = w.length + bs.length := hlim
  have hcur' : s.cur ≤ w.length + bs.length := hcur
  have hroom : w.length + bs.length < (w ++ bs ++ 0 :: r).length := by
    simp only [List.length_append, List.length_cons]
    omega
  have hlast : s.cur + (s.lim - s.cur) ≤ (w ++ bs ++ 0 :: r).length := by omega
  obtain ⟨m, hmove, hm, -⟩ := memmove_front hlast
  have hnul : s.lim - s.cur < m.length := by omega
  have hcount : ((forceBreak - 1 + 1 : Nat) : Int) = 50 := rfl
  rw [hcount] at hloop
  rw [UserData.debugging, hread true, hloop, Option.bind_some, leave]
  simp only [hmove, store_eq_some hnul, Option.bind_eq_bind, Option.bind_some, List.nil_append]
  exact ⟨_, rfl⟩

/-! ## Whole runs -/

/-- A run below the count, from a state that keeps `w`. -/
theorem run_debug (bss : List (List UInt8)) {ud : UserData} {w : List UInt8} (hk : Keeps ud w)
    (hreads : Reads ud bss) (hfew : Unforced w bss) :
    run bss ud.debugging = (run bss ud).map (fun r => (r.1.debugging, r.2)) := by
  induction bss generalizing ud w with
  | nil => rfl
  | cons bs bss ih =>
      obtain ⟨-, hle, hnext⟩ := hreads
      obtain ⟨hlt, hfew⟩ := hfew
      obtain ⟨ud₁, h₁, hk₁⟩ := portHandler_spec hk hle
      have hdebug := portHandler_debug hk hle hlt
      have hrest := ih hk₁ (hnext _ h₁) hfew
      rw [h₁, Option.map_some] at hdebug
      simp only [run, h₁, hdebug, Option.bind_eq_bind, Option.bind_some, hrest]
      cases run bss ud₁ with
      | none => rfl
      | some r => rfl

theorem Reads.get {ud : UserData} {bss : List (List UInt8)} (hreads : Reads ud bss) {k : Nat} {bs : List UInt8}
    (hbs : bss[k]? = some bs) {ud' : UserData} {out : List Event} (hrun : run (bss.take k) ud = some (ud', out)) :
    bs.length ≤ ud'.request := by
  induction bss generalizing ud k out with
  | nil => exact absurd hbs (by simp)
  | cons c bss ih =>
      obtain ⟨-, hle, hnext⟩ := hreads
      cases k with
      | zero =>
          obtain rfl := Option.some.inj hbs
          obtain ⟨rfl, -⟩ := Prod.mk.inj (Option.some.inj hrun)
          exact hle
      | succ k =>
          obtain ⟨⟨ud₁, out₁⟩, h₁, hrest⟩ := Option.bind_eq_some_iff.mp hrun
          obtain ⟨⟨ud₂, out₂⟩, h₂, hlast⟩ := Option.bind_eq_some_iff.mp hrest
          obtain ⟨rfl, -⟩ := Prod.mk.inj (Option.some.inj hlast)
          exact ih (hnext _ h₁) hbs h₂

/-- **The flag over whole runs**: behind reads that stay below the count, the same is shown with the flag set as with
    the flag clear, and the same bytes are kept. In the next read, where it reaches the count, the flag shows the tokens
    in front of the one that ends the loop. -/
theorem debug_display (bss : List (List UInt8)) (hreads : Reads (createUserdata false) bss) (k : Nat)
    (hfew : Unforced [] (bss.take k)) :
    ∃ ud out, run (bss.take k) (createUserdata false) = some (ud, out) ∧
      run (bss.take k) (createUserdata true) = some (ud.debugging, out) ∧
      ∀ bs ∈ bss[k]?, forceBreak ≤ (decoder.scan (decoder.rest (bss.take k).flatten ++ bs)).length →
        ∃ ud', portHandler ud.debugging (.bytes bs) = some (ud',
          (((decoder.scan (decoder.rest (bss.take k).flatten ++ bs)).take (forceBreak - 1)).flatten).map .shown) := by
  obtain ⟨ud, out, hrun, -, hk⟩ := run_decode (bss.take k) keeps_createUserdata (hreads.take k)
  rw [List.nil_append] at hk
  have hdebug := run_debug (bss.take k) keeps_createUserdata (hreads.take k) hfew
  rw [hrun, Option.map_some] at hdebug
  exact ⟨ud, out, hrun, hdebug, fun bs hbs hmany => portHandler_forced hk (hreads.get hbs hrun) hmany⟩

/-- Two short reads. -/
theorem debug_display_short :
    ∃ ud out, run ([[0x61, 0x62], [0x63, LF]].take 2) (createUserdata false) = some (ud, out) ∧
      run ([[0x61, 0x62], [0x63, LF]].take 2) (createUserdata true) = some (ud.debugging, out) ∧
      ∀ bs ∈ ([[0x61, 0x62], [0x63, LF]] : List (List UInt8))[2]?,
        forceBreak ≤ (decoder.scan (decoder.rest ([[0x61, 0x62], [0x63, LF]].take 2).flatten ++ bs)).length →
        ∃ ud', portHandler ud.debugging (.bytes bs) = some (ud', (((decoder.scan (decoder.rest
          ([[0x61, 0x62], [0x63, LF]].take 2).flatten ++ bs)).take (forceBreak - 1)).flatten).map .shown) :=
  debug_display [[0x61, 0x62], [0x63, LF]] (by decide +kernel) 2 (by decide +kernel)

/-- A read of 52 letters has 50 tokens: 50 of them are shown without the flag, 49 with it. -/
theorem debug_force_break :
    (run [List.replicate 52 0x61] (createUserdata false)).map (fun r => (displayed r.2).length) = some 50 ∧
      (run [List.replicate 52 0x61] (createUserdata true)).map (fun r => (displayed r.2).length) = some 49 := by
  decide +kernel

end Myterm
end CSamples
