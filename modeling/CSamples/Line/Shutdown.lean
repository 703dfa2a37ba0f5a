import CSamples.Line.Datagrams

/-!
# `Line.Shutdown` — when the receiver is shut down

At its end `recv_handler` of `line/recvline/recvline.c` compares the whole array the datagram was read into with
`shutdown`. Behind a datagram there is a NUL only where an earlier call left one: the word alone is not always found, a
beginning of it sometimes is, and the word with a line end never is.

## Contents
- `quits_iff`: what the comparison finds, in the datagram and in what the array held behind it.
- `Decides`: the datagrams and contents on which that is the word; `quits_right_iff`.
- `carries_of_run`: the states that are reached; `shutdown_right_iff`: two calls in one of them.
-/

namespace CSamples
namespace Line
namespace Recvline

open C Text

/-- The word. -/
def shutdown : List UInt8 := chars ['s', 'h', 'u', 't', 'd', 'o', 'w', 'n']

/-- LF, CR LF and CR. -/
def lineEnds : List (List UInt8) := [[0x0A], [0x0D, 0x0A], [0x0D]]

/-- The word, optionally followed by a line end. -/
def IsWord (d : List UInt8) : Prop := d = shutdown ∨ ∃ e ∈ lineEnds, d = shutdown ++ e

/-- The server is shut down. -/
def ShutDown (out : List Event) : Prop := .loopexit ∈ out

/-! ## The comparison -/

/-- What begins with `s` is decided in `d`, or behind all of `d`. -/
theorem prefix_append_iff {s d r : List UInt8} : s <+: d ++ r ↔ s <+: d ∨ ∃ t, t ≠ [] ∧ d ++ t = s ∧ t <+: r := by
  constructor
  · intro h
    rcases Nat.le_total s.length d.length with hle | hle
    · exact .inl (List.prefix_of_prefix_length_le h (List.prefix_append d r) hle)
    · obtain ⟨t, rfl⟩ := List.prefix_of_prefix_length_le (List.prefix_append d r) h hle
      by_cases ht : t = []
      · subst ht
        rw [List.append_nil]
        exact .inl (List.prefix_refl d)
      · exact .inr ⟨t, ht, rfl, (List.prefix_append_right_inj d).mp h⟩
  · rintro (h | ⟨t, -, rfl, h⟩)
    · exact h.trans (List.prefix_append d r)
    · exact (List.prefix_append_right_inj d).mpr h

/-- `strcmp(buf, "shutdown")` finds the word and a NUL. -/
theorem strEq_shutdown_iff (m : Mem) : strEq m shutdown = some true ↔ shutdown ++ [0] <+: m := by
  constructor
  · intro h
    obtain ⟨r, rfl⟩ := eq_of_strEq h
    exact ⟨r, by rw [List.append_assoc]; rfl⟩
  · rintro ⟨r, rfl⟩
    rw [List.append_assoc]
    exact (strEq_append_nul (by decide) (by decide) r).trans (by simp)

/-- **What the comparison finds**: the word and a NUL in the datagram, or the datagram as a beginning of the word and
    its rest and a NUL behind. -/
theorem quits_iff (d r : List UInt8) :
    strEq (d ++ r) shutdown = some true ↔
      shutdown ++ [0] <+: d ∨ ∃ s, d ++ s = shutdown ∧ s ++ [0] <+: r := by
  rw [strEq_shutdown_iff, prefix_append_iff]
  apply or_congr Iff.rfl
  constructor
  · rintro ⟨t, ht, heq, hpre⟩
    -- the last byte of what is behind the datagram is the NUL
    rcases List.eq_nil_or_concat t with rfl | ⟨s, b, rfl⟩
    · exact absurd rfl ht
    · rw [List.concat_eq_append, ← List.append_assoc] at heq
      obtain ⟨hs, hb⟩ := List.append_inj' heq rfl
      rw [List.concat_eq_append, hb] at hpre
      exact ⟨s, hs, hpre⟩
  · rintro ⟨s, heq, hpre⟩
    exact ⟨s ++ [0], by simp, by rw [← List.append_assoc, heq], hpre⟩

/-- The comparison finds the word in this datagram, over this content, exactly if it is there. -/
structure Decides (d : List UInt8) (buf : Mem) : Prop where
  word   : d = shutdown → buf[d.length]? = some 0
  no_end : ∀ e ∈ lineEnds, d ≠ shutdown ++ e
  no_nul : ¬ shutdown ++ [0] <+: d
  no_old : ∀ s, s ≠ [] → d ++ s = shutdown → ¬ s ++ [0] <+: buf.drop d.length

theorem nul_prefix_iff {r : List UInt8} : [] ++ [0] <+: r ↔ r.head? = some 0 := by
  rw [List.nil_append, List.head?_eq_some_iff]
  constructor
  · rintro ⟨t, rfl⟩
    exact ⟨t, rfl⟩
  · rintro ⟨t, rfl⟩
    exact ⟨t, rfl⟩

/-- A line end has bytes, and starts with no NUL. -/
theorem head_lineEnd {e : List UInt8} (he : e ∈ lineEnds) : e ≠ [] ∧ e.head? ≠ some 0 := by
  simp only [lineEnds, List.mem_cons, List.not_mem_nil, or_false] at he
  rcases he with rfl | rfl | rfl
  · exact ⟨by decide, by decide⟩
  · exact ⟨by decide, by decide⟩
  · exact ⟨by decide, by decide⟩

/-- The word with a line end has no NUL behind the word, and is no beginning of the word. -/
theorem not_prefix_end {e : List UInt8} (he : e ∈ lineEnds) :
    ¬ shutdown ++ [0] <+: shutdown ++ e ∧ ∀ s, shutdown ++ e ++ s ≠ shutdown := by
  obtain ⟨hne, hhead⟩ := head_lineEnd he
  constructor
  · rw [List.prefix_append_right_inj]
    intro h
    exact hhead (nul_prefix_iff.mp h)
  · intro s h
    rw [List.append_assoc] at h
    have hnil := List.append_right_eq_self.mp h
    exact hne (List.append_eq_nil_iff.mp hnil).1

theorem not_prefix_word : ¬ shutdown ++ [0] <+: shutdown := by
  intro h
  have := h.length_le
  rw [List.length_append] at this
  exact Nat.not_succ_le_self _ this

/-- **One comparison** is right exactly there. -/
theorem quits_right_iff (d : List UInt8) (buf : Mem) :
    (strEq (d ++ buf.drop d.length) shutdown = some true ↔ IsWord d) ↔ Decides d buf := by
  rw [quits_iff]
  constructor
  · intro h
    refine ⟨?_, ?_, ?_, ?_⟩
    · intro hd
      rcases h.mpr (.inl hd) with hpre | ⟨s, hs, hpre⟩
      · rw [hd] at hpre
        exact absurd hpre not_prefix_word
      · rw [hd] at hs
        rw [List.append_right_eq_self.mp hs, nul_prefix_iff, List.head?_drop] at hpre
        exact hpre
    · intro e he hd
      obtain ⟨hpre, hs⟩ := not_prefix_end he
      rcases h.mpr (.inr ⟨e, he, hd⟩) with hpre' | ⟨s, hs', -⟩
      · exact hpre (hd ▸ hpre')
      · exact hs s (hd ▸ hs')
    · intro hpre
      rcases h.mp (.inl hpre) with hd | ⟨e, he, hd⟩
      · exact not_prefix_word (hd ▸ hpre)
      · exact (not_prefix_end he).1 (hd ▸ hpre)
    · intro s hne hs hpre
      rcases h.mp (.inr ⟨s, hs, hpre⟩) with hd | ⟨e, he, hd⟩
      · rw [hd] at hs
        exact hne (List.append_right_eq_self.mp hs)
      · exact (not_prefix_end he).2 s (hd ▸ hs)
  · intro h
    constructor
    · rintro (hpre | ⟨s, hs, hpre⟩)
      · exact absurd hpre h.no_nul
      · by_cases hne : s = []
        · rw [hne, List.append_nil] at hs
          exact .inl hs
        · exact absurd hpre (h.no_old s hne hs)
    · rintro (hd | ⟨e, he, hd⟩)
      · refine .inr ⟨[], by rw [hd, List.append_nil], ?_⟩
        rw [nul_prefix_iff, List.head?_drop]
        exact h.word hd
      · exact absurd hd (h.no_end e he)

/-! ## The states -/

/-- **Every state that is reached** carries a string without an LF. -/
theorem carries_of_run (soc : Int) (cs : List Call) {data data' : UserData} {out : List Event} {t : List UInt8}
    (hc : Carries data t) (htl : lf ∉ t) (hrun : run soc cs data = some (data', out)) :
    ∃ t', Carries data' t' ∧ lf ∉ t' := by
  induction cs generalizing data t out with
  | nil =>
      obtain ⟨rfl, -⟩ := Prod.mk.inj (Option.some.inj hrun)
      exact ⟨t, hc, htl⟩
  | cons c cs ih =>
      unfold run at hrun
      obtain ⟨⟨data₁, out₁⟩, h₁, hrun⟩ := Option.bind_eq_some_iff.mp hrun
      obtain ⟨⟨data₂, out₂⟩, h₂, heq⟩ := Option.bind_eq_some_iff.mp hrun
      obtain ⟨rfl, -⟩ := Prod.mk.inj (Option.some.inj heq)
      by_cases hfit : t.length + c.handed.length ≤ 1023
      · obtain ⟨data₁', out₁', h₁', hc₁, -⟩ := recvHandler_bounded soc hc htl c hfit
        obtain ⟨rfl, -⟩ := Prod.mk.inj (Option.some.inj (h₁'.symm.trans h₁))
        exact ih hc₁ (sep_not_mem_rest _) h₂
      · by_cases hne : c.handed = []
        · rw [recvHandler_empty soc c data hne] at h₁
          obtain ⟨rfl, -⟩ := Prod.mk.inj (Option.some.inj h₁)
          exact ih hc htl h₂
        · rw [recvHandler_overflow soc hc c hne (by omega)] at h₁
          exact absurd h₁ (by simp)

/-! ## Two calls -/

/-- What is received of one datagram. -/
def IsDatagram (d : List UInt8) : Prop := d ≠ [] ∧ d.length ≤ 511

theorem handed_of_isDatagram {d : List UInt8} (hd : IsDatagram d) {buf : Mem} (hbuf : buf.length = sizeofBuf)
    (info : List UInt8) : (⟨buf, info, d, hbuf⟩ : Call).handed = d := by
  have hle : d.length ≤ sizeofBuf := Nat.le_succ_of_le hd.2
  exact List.take_of_length_le hle

theorem shutDown_lineEvents (state : Int) (ls : List (List UInt8)) : ¬ ShutDown (lineEvents state ls) := by
  unfold ShutDown
  induction ls generalizing state with
  | nil => simp [lineEvents]
  | cons l ls ih => simp [lineEvents, ih]

/-- **One call** with room for the datagram shuts the server down exactly if the comparison finds the word. -/
theorem recvHandler_shutDown (soc : Int) {data : UserData} {t d : List UInt8} (hc : Carries data t) (hd : IsDatagram d)
    (hfit : t.length + d.length ≤ 1023) {buf : Mem} (hbuf : buf.length = sizeofBuf) (info : List UInt8) :
    ∃ x, recvHandler soc buf (.packet info d) data = some x ∧
      (ShutDown x.2 ↔ strEq (d ++ buf.drop d.length) shutdown = some true) := by
  have hhanded := handed_of_isDatagram hd hbuf info
  have hquit : ShutDown (⟨buf, info, d, hbuf⟩ : Call).quit ↔ strEq (d ++ buf.drop d.length) shutdown = some true := by
    unfold Call.quit ShutDown
    rw [hhanded, show chars ['s', 'h', 'u', 't', 'd', 'o', 'w', 'n'] = shutdown from rfl]
    split
    · next h => simpa using h
    · next h => simpa using h
  obtain ⟨ls, hrecv, -⟩ := recvHandler_text soc hc ⟨buf, info, d, hbuf⟩ (hhanded.symm ▸ hd.1) (hhanded.symm ▸ hfit)
  refine ⟨_, hrecv, ?_⟩
  rw [← hquit]
  have hlines := shutDown_lineEvents data.state (lines lf (t ++ (⟨buf, info, d, hbuf⟩ : Call).text))
  unfold ShutDown at hlines ⊢
  rw [List.mem_append]
  exact or_iff_right hlines

/-- Without room for the datagram a store runs past the array. -/
theorem recvHandler_no_room (soc : Int) {data : UserData} {t d : List UInt8} (hc : Carries data t) (hd : IsDatagram d)
    (hfit : ¬ t.length + d.length ≤ 1023) {buf : Mem} (hbuf : buf.length = sizeofBuf) (info : List UInt8) :
    recvHandler soc buf (.packet info d) data = none := by
  have hhanded := handed_of_isDatagram hd hbuf info
  exact recvHandler_overflow soc hc ⟨buf, info, d, hbuf⟩ (hhanded.symm ▸ hd.1) (by rw [hhanded]; omega)

/-- Over two contents of the array, both calls return, decide the same, and shut the server down for the word only. -/
def ShutsDownRight (soc : Int) (data : UserData) (d : List UInt8) (buf₁ buf₂ : Mem) (info : List UInt8) : Prop :=
  ∃ x₁ x₂, recvHandler soc buf₁ (.packet info d) data = some x₁ ∧ recvHandler soc buf₂ (.packet info d) data = some x₂ ∧
    (ShutDown x₁.2 ↔ ShutDown x₂.2) ∧ (ShutDown x₁.2 ↔ IsWord d)

/-- **The receiver** decides by the datagram alone, and for the word, exactly if there is room for the datagram behind
    the carried bytes and the comparison is right over both contents: behind the word alone both have a NUL, behind a
    beginning of it neither has its rest and a NUL; and the datagram is neither the word with a line end nor begins
    with the word and a NUL. -/
theorem shutdown_right_iff (soc : Int) {data : UserData} {t d : List UInt8} (hc : Carries data t) (hd : IsDatagram d)
    {buf₁ buf₂ : Mem} (h₁ : buf₁.length = sizeofBuf) (h₂ : buf₂.length = sizeofBuf) (info : List UInt8) :
    ShutsDownRight soc data d buf₁ buf₂ info ↔ t.length + d.length ≤ 1023 ∧ Decides d buf₁ ∧ Decides d buf₂ := by
  constructor
  · rintro ⟨x₁, x₂, hx₁, hx₂, hsame, hright⟩
    by_cases hfit : t.length + d.length ≤ 1023
    · obtain ⟨y₁, hy₁, hq₁⟩ := recvHandler_shutDown soc hc hd hfit h₁ info
      obtain ⟨y₂, hy₂, hq₂⟩ := recvHandler_shutDown soc hc hd hfit h₂ info
      obtain rfl := Option.some.inj (hx₁.symm.trans hy₁)
      obtain rfl := Option.some.inj (hx₂.symm.trans hy₂)
      refine ⟨hfit, (quits_right_iff d buf₁).mp ?_, (quits_right_iff d buf₂).mp ?_⟩
      · rw [← hq₁]
        exact hright
      · rw [← hq₂, ← hsame]
        exact hright
    · rw [recvHandler_no_room soc hc hd hfit h₁ info] at hx₁
      exact absurd hx₁ (by simp)
  · rintro ⟨hfit, hdec₁, hdec₂⟩
    obtain ⟨x₁, hx₁, hq₁⟩ := recvHandler_shutDown soc hc hd hfit h₁ info
    obtain ⟨x₂, hx₂, hq₂⟩ := recvHandler_shutDown soc hc hd hfit h₂ info
    have hright₁ := hq₁.trans ((quits_right_iff d buf₁).mpr hdec₁)
    have hright₂ := hq₂.trans ((quits_right_iff d buf₂).mpr hdec₂)
    exact ⟨x₁, x₂, hx₁, hx₂, hright₁.trans hright₂.symm, hright₁⟩

/-- The word over zeros. -/
theorem shutdown_right_zeros :
    ShutsDownRight 3 (init 3) shutdown (List.replicate 512 0) (List.replicate 512 0) [1] := by
  have hdec : Decides shutdown (List.replicate 512 0) := by
    refine ⟨fun _ => by decide, fun e he => by revert e; decide, not_prefix_word, ?_⟩
    intro s hne hs
    exact absurd (List.append_right_eq_self.mp hs) hne
  exact (shutdown_right_iff 3 (carries_init 3) ⟨by decide, by decide⟩ length_zeros length_zeros [1]).mpr
    ⟨by decide, hdec, hdec⟩

/-- **The word with its line end** shuts nothing down. -/
theorem shutdown_line_end :
    ¬ ∀ (soc : Int) (data : UserData) (t d : List UInt8) (buf₁ buf₂ : Mem) (info : List UInt8), Carries data t →
      IsDatagram d → buf₁.length = sizeofBuf → buf₂.length = sizeofBuf → ShutsDownRight soc data d buf₁ buf₂ info := by
  intro h
  have hd : IsDatagram (shutdown ++ [lf]) := ⟨by decide, by decide⟩
  have hright := h 3 (init 3) [] (shutdown ++ [lf]) _ _ [1] (carries_init 3) hd length_zeros length_zeros
  obtain ⟨x₁, x₂, hx₁, -, -, hword⟩ := hright
  obtain ⟨y, hy, hq⟩ := recvHandler_shutDown 3 (carries_init 3) hd (by decide) length_zeros [1]
  obtain rfl := Option.some.inj (hx₁.symm.trans hy)
  have hfound := hq.mp (hword.mpr (.inr ⟨[lf], by decide, rfl⟩))
  rw [quits_iff] at hfound
  obtain ⟨hpre, hs⟩ := @not_prefix_end [lf] (by decide)
  rcases hfound with h' | ⟨s, hs', -⟩
  · exact hpre h'
  · exact hs s hs'

end Recvline
end Line
end CSamples
