import CSamples.Line.Recvline

/-!
# `Line.Datagrams` — `recvline` and the datagrams it is sent

`data->lines` is one array for all senders, and nothing in `recv_handler` compares its length with what is
there already. This file says what that means for any sequence of datagrams, NULs in them included.

## Contents
- **The array.** `recvHandler_overflow`, and `recvline_in_bounds_iff`: the runs whose every access is inside it
  are those that are `Bounded`.
- **The stream.** `run_text`: the lines of a bounded run are those of the merged stream of all senders.
- **The senders.** `recvline_lines_of_senders`: where nobody writes into another sender's unfinished line, every
  line is one of its sender's own stream.
- **The socket.** `recvline_open_iff`, when the receiver is still listening after every datagram.
-/

namespace CSamples
namespace Line
namespace Recvline

open C Text

/-! ## The array -/

/-- Carried bytes and the next datagram together never exceed 1023 bytes. What is behind a NUL in a datagram
    takes room while it is copied and is not carried over. -/
def Bounded : List UInt8 → List Call → Prop
  | _, []      => True
  | t, c :: cs => t.length + c.handed.length ≤ 1023 ∧ Bounded (rest lf (t ++ c.text)) cs

theorem Bounded.take {t : List UInt8} {cs : List Call} (h : Bounded t cs) (k : Nat) : Bounded t (cs.take k) := by
  induction cs generalizing t k with
  | nil => simpa using h
  | cons c cs ih =>
      cases k with
      | zero => trivial
      | succ k => exact ⟨h.1, ih h.2 k⟩

/-- Copying changes no length. -/
theorem copyLoop_length {linesLen : Nat} {buf : Mem} {n i : Nat} {lines lines' : Mem}
    (h : copyLoop linesLen buf n i lines = some lines') : lines'.length = lines.length := by
  induction n generalizing i lines with
  | zero =>
      rw [copyLoop, Option.some.injEq] at h
      rw [h]
  | succ n ih =>
      rw [copyLoop, Option.bind_eq_bind, Option.bind_eq_some_iff] at h
      obtain ⟨b, -, h⟩ := h
      rw [Option.bind_eq_bind, Option.bind_eq_some_iff] at h
      obtain ⟨l, hl, h⟩ := h
      have hlen : l.length = lines.length := by
        unfold store at hl
        split at hl
        · rw [← Option.some.inj hl, List.length_set]
        · exact absurd hl (by simp)
      rw [ih h, hlen]

/-- **The overflow.** Where the string in the array and the datagram leave no room for a terminator, a store
    runs past the array: the loop's own or the terminator's. -/
theorem recvHandler_overflow (soc : Int) {data : UserData} {t : List UInt8} (hc : Carries data t) (c : Call)
    (hne : c.handed ≠ []) (hover : 1024 ≤ t.length + c.handed.length) :
    recvHandler soc c.buf (.packet c.info c.datagram) data = none := by
  obtain ⟨hlen, hstr⟩ := hc
  have hd : c.datagram.take sizeofBuf = c.handed := rfl
  have hdne : c.handed.length ≠ 0 := fun h => hne (List.eq_nil_of_length_eq_zero h)
  have hblit : blit c.buf 0 c.handed = some (c.handed ++ c.buf.drop c.handed.length) :=
    blit_front c.handed_length_le
  have hlen0 : strlen data.lines 0 = some t.length := by
    rw [strlen, hstr]
    rfl
  simp only [recvHandler, hd, if_neg hdne, hblit, hlen0, Option.bind_eq_bind, Option.bind_some]
  cases hcopy : copyLoop t.length (c.handed ++ c.buf.drop c.handed.length) c.handed.length 0 data.lines with
  | none => rfl
  | some lines =>
      have hlines : lines.length = 1024 := (copyLoop_length hcopy).trans hlen
      have hstore : store lines (t.length + c.handed.length) 0 = none := by
        rw [store, if_neg (by omega)]
      rw [Option.bind_some, hstore, Option.bind_none]

/-! ## The stream -/

/-- The bytes looked at in a sequence of calls, in the order of their arrival. -/
def texts (cs : List Call) : List UInt8 := cs.flatMap Call.text

@[simp] theorem texts_cons (c : Call) (cs : List Call) : texts (c :: cs) = c.text ++ texts cs := rfl

theorem Call.text_of_handed_nil {c : Call} (h : c.handed = []) : c.text = [] := by
  rw [Call.text, h]
  rfl

theorem Call.handed_eq_nil_iff {c : Call} : c.handed = [] ↔ c.datagram = [] := by
  rw [Call.handed, List.take_eq_nil_iff]
  simp [sizeofBuf]

/-- The empty datagram: nothing is carried over or processed that was not before. -/
theorem recvHandler_empty (soc : Int) (c : Call) (data : UserData) (h : c.handed = []) :
    recvHandler soc c.buf (.packet c.info c.datagram) data = some (data, [.eventDel, .close]) := by
  have hlen : (c.datagram.take sizeofBuf).length = 0 := congrArg List.length h
  simp only [recvHandler, if_pos hlen]

/-- One call within the bound. -/
theorem recvHandler_bounded (soc : Int) {data : UserData} {t : List UInt8} (hc : Carries data t)
    (htl : lf ∉ t) (c : Call) (hfit : t.length + c.handed.length ≤ 1023) :
    ∃ data' out, recvHandler soc c.buf (.packet c.info c.datagram) data = some (data', out)
      ∧ Carries data' (rest lf (t ++ c.text)) ∧ processed out = lines lf (t ++ c.text) := by
  by_cases hne : c.handed = []
  · refine ⟨data, _, recvHandler_empty soc c data hne, ?_, ?_⟩
    · rw [Call.text_of_handed_nil hne, List.append_nil, rest_of_not_mem htl]
      exact hc
    · rw [Call.text_of_handed_nil hne, List.append_nil, lines_eq_nil_iff.mpr htl]
      rfl
  · obtain ⟨ls, heq, hlen, hstr⟩ := recvHandler_text soc hc c hne hfit
    exact ⟨_, _, heq, ⟨hlen, hstr⟩, by simp [processed_append]⟩

/-- **A bounded run**, from a state that carries `t`. -/
theorem run_text (soc : Int) (cs : List Call) {data : UserData} {t : List UInt8} (hc : Carries data t)
    (htl : lf ∉ t) (hb : Bounded t cs) :
    ∃ data' out, run soc cs data = some (data', out)
      ∧ Carries data' (rest lf (t ++ texts cs)) ∧ processed out = lines lf (t ++ texts cs) := by
  induction cs generalizing data t with
  | nil =>
      refine ⟨data, [], rfl, ?_, ?_⟩
      · rw [texts, List.flatMap_nil, List.append_nil, rest_of_not_mem htl]
        exact hc
      · rw [texts, List.flatMap_nil, List.append_nil, lines_eq_nil_iff.mpr htl]
        rfl
  | cons c cs ih =>
      obtain ⟨d1, o1, h1, hc1, hp1⟩ := recvHandler_bounded soc hc htl c hb.1
      obtain ⟨d2, o2, h2, hc2, hp2⟩ := ih hc1 (sep_not_mem_rest _) hb.2
      have htexts : t ++ texts (c :: cs) = (t ++ c.text) ++ texts cs := by
        rw [texts_cons, List.append_assoc]
      refine ⟨d2, o1 ++ o2, ?_, ?_, ?_⟩
      · simp [run, h1, h2]
      · rw [htexts, rest_append]
        exact hc2
      · rw [processed_append, hp1, hp2, htexts, lines_append (t ++ c.text)]

/-- A run of nonempty datagrams is defined only while it is bounded. -/
theorem bounded_of_run (soc : Int) (cs : List Call) {data : UserData} {t : List UInt8} (hc : Carries data t)
    (htl : lf ∉ t) (hne : ∀ c ∈ cs, c.handed ≠ []) (hrun : (run soc cs data).isSome) : Bounded t cs := by
  induction cs generalizing data t with
  | nil => trivial
  | cons c cs ih =>
      by_cases hfit : t.length + c.handed.length ≤ 1023
      · obtain ⟨d1, o1, h1, hc1, -⟩ := recvHandler_bounded soc hc htl c hfit
        refine ⟨hfit, ih hc1 (sep_not_mem_rest _) (fun x hx => hne x (List.mem_cons_of_mem c hx)) ?_⟩
        cases h2 : run soc cs d1 with
        | none => simp [run, h1, h2] at hrun
        | some r => rfl
      · rw [run, recvHandler_overflow soc hc c (hne c (by simp)) (by omega)] at hrun
        exact absurd hrun (by simp)

/-- **Every access to `data->lines` is inside it** exactly as long as what is carried and the next datagram
    together are at most 1023 bytes. -/
theorem recvline_in_bounds_iff (soc : Int) (cs : List Call) (hne : ∀ c ∈ cs, c.datagram ≠ []) :
    (run soc cs (init soc)).isSome ↔ Bounded [] cs := by
  constructor
  · exact bounded_of_run soc cs (carries_init soc) (by simp)
      (fun c hc h => hne c hc (Call.handed_eq_nil_iff.mp h))
  · intro hb
    obtain ⟨data, out, h, -, -⟩ := run_text soc cs (carries_init soc) (by simp) hb
    rw [h]
    rfl

/-- One datagram of three bytes, the last of them behind a NUL. -/
def nulCall : Call := ⟨List.replicate 512 7, [1], [97, 0, 98], length_sevens⟩

/-- The end of a line, behind the byte that is carried. -/
def endCall : Call := ⟨List.replicate 512 7, [1], [98, lf, 99], length_sevens⟩

theorem recvline_in_bounds_iff_two : (run 3 [nulCall, endCall] (init 3)).isSome :=
  (recvline_in_bounds_iff 3 [nulCall, endCall] (by decide)).mpr ⟨by decide, by decide +kernel, trivial⟩

/-- A datagram of 512 bytes without LF. -/
def fullCall : Call := ⟨List.replicate 512 7, [1], List.replicate 512 97, length_sevens⟩

/-- **Two of them** do not fit. -/
theorem recvline_out_of_bounds :
    ¬ ∀ cs : List Call, (∀ c ∈ cs, c.datagram ≠ [] ∧ c.datagram.length ≤ 512) →
      (run 3 cs (init 3)).isSome := by
  intro h
  have hb := bounded_of_run 3 [fullCall, fullCall] (carries_init 3) (by simp) (by decide +kernel)
    (h _ (by decide +kernel))
  have hover : ¬ (rest lf ([] ++ fullCall.text)).length + fullCall.handed.length ≤ 1023 := by
    decide +kernel
  exact hover hb.2.1

/-! ## The senders -/

/-- What the sender with address `i` sent, as far as it is looked at. -/
def own (i : List UInt8) (cs : List Call) : List UInt8 := texts (cs.filter (fun c => c.info = i))

theorem own_cons_self (c : Call) (cs : List Call) : own c.info (c :: cs) = c.text ++ own c.info cs := by
  rw [own, List.filter_cons_of_pos (by simp), texts_cons, own]

theorem own_cons_of_ne {i : List UInt8} {c : Call} (h : c.info ≠ i) (cs : List Call) :
    own i (c :: cs) = own i cs := by
  rw [own, List.filter_cons_of_neg (by simpa using h), own]

/-- While `t` of sender `i` is carried, the next datagram is from `i` as well. -/
def Unmixed : List UInt8 → List UInt8 → List Call → Prop
  | _, _, []      => True
  | t, i, c :: cs => (t = [] ∨ c.info = i) ∧ Unmixed (rest lf (t ++ c.text)) c.info cs

/-- What is carried of sender `i` belongs in front of what `i` sends from here on, and of nobody else. -/
def carriedOf (t i j : List UInt8) : List UInt8 := if j = i then t else []

/-- The merged stream's lines are lines of one sender. The induction is on the calls, with the unfinished line
    and its sender general. -/
theorem mem_lines_own (cs : List Call) {t i l : List UInt8} (h : Unmixed t i cs)
    (hl : l ∈ lines lf (t ++ texts cs)) (htl : lf ∉ t) :
    ∃ j, l ∈ lines lf (carriedOf t i j ++ own j cs) := by
  induction cs generalizing t i with
  | nil =>
      rw [texts, List.flatMap_nil, List.append_nil, lines_eq_nil_iff.mpr htl] at hl
      exact absurd hl (by simp)
  | cons c cs ih =>
      -- `t` stands in front of what `c`'s sender sends
      have hcarried : carriedOf t i c.info = t := by
        unfold carriedOf
        split
        · rfl
        · next hne => exact (h.1.resolve_right hne).symm
      have hstream : carriedOf t i c.info ++ own c.info (c :: cs) = (t ++ c.text) ++ own c.info cs := by
        rw [hcarried, own_cons_self, List.append_assoc]
      rw [texts_cons, ← List.append_assoc, lines_append, List.mem_append] at hl
      rcases hl with hl | hl
      · -- ended by this datagram
        refine ⟨c.info, ?_⟩
        rw [hstream]
        exact mem_lines_append hl
      · obtain ⟨j, hj⟩ := ih h.2 hl (sep_not_mem_rest _)
        refine ⟨j, ?_⟩
        by_cases hji : j = c.info
        · subst hji
          rw [carriedOf, if_pos rfl] at hj
          rw [hstream]
          exact mem_lines_of_rest hj
        · -- another sender: nothing of it was carried
          have hnone : carriedOf t i j = [] := by
            unfold carriedOf
            split
            · next hj => exact h.1.resolve_right (fun hc => hji (hj.trans hc.symm))
            · rfl
          rw [carriedOf, if_neg hji] at hj
          rwa [hnone, own_cons_of_ne (Ne.symm hji)]

/-- **Whose bytes a line is made of.** A bounded run processes the lines of the merged stream, in the order of
    arrival; where nobody sends while another's unfinished line is carried, each of them is a line of its
    sender's own stream. -/
theorem recvline_lines_of_senders (soc : Int) (cs : List Call) (hb : Bounded [] cs) :
    ∃ data out, run soc cs (init soc) = some (data, out)
      ∧ processed out = lines lf (texts cs)
      ∧ (Unmixed [] [] cs →
          ∀ l ∈ processed out, ∃ i, l ∈ lines lf (own i cs) ∧ l ++ [lf] <:+: own i cs) := by
  obtain ⟨data, out, h, -, hp⟩ := run_text soc cs (carries_init soc) (by simp) hb
  refine ⟨data, out, h, hp, ?_⟩
  intro hu l hl
  rw [hp] at hl
  obtain ⟨j, hj⟩ := mem_lines_own cs hu hl (by simp)
  have hown : carriedOf [] [] j ++ own j cs = own j cs := by
    rw [carriedOf, ite_self, List.nil_append]
  rw [hown] at hj
  exact ⟨j, hj, infix_of_mem_lines hj⟩

theorem recvline_lines_of_senders_twoCalls :
    (run 3 twoCalls (init 3)).map (fun x => processed x.2) = some (lines lf (texts twoCalls)) := by
  obtain ⟨data, out, h, hp, -⟩ :=
    recvline_lines_of_senders 3 twoCalls ⟨by decide, by decide, trivial⟩
  rw [h, Option.map_some, hp]

/-- `ab` of sender 1, then `c LF` of sender 2. -/
def twoSenders : List Call :=
  [⟨List.replicate 512 0, [1], [97, 98], length_zeros⟩,
   ⟨List.replicate 512 0, [2], [99, 10], length_zeros⟩]

/-- **The line `abc`** is nobody's. -/
theorem recvline_mixed_line :
    ∃ data out, run 3 twoSenders (init 3) = some (data, out) ∧ processed out = [[97, 98, 99]]
      ∧ ∀ i, ¬ [97, 98, 99] <:+: stream (twoSenders.filter (fun c => c.info = i)) := by
  obtain ⟨data, out, h, -, hp⟩ := run_text 3 twoSenders (carries_init 3) (by simp)
    ⟨by decide, by decide, trivial⟩
  refine ⟨data, out, h, hp.trans (by decide), ?_⟩
  intro i hi
  by_cases h1 : i = [1]
  · subst h1
    exact absurd hi (by decide)
  by_cases h2 : i = [2]
  · subst h2
    exact absurd hi (by decide)
  have hnone : twoSenders.filter (fun c => c.info = i) = [] := by
    rw [List.filter_eq_nil_iff]
    rintro c hc
    rcases List.mem_cons.mp hc with rfl | hc
    · simpa using Ne.symm h1
    · rw [List.mem_singleton.mp hc]
      simpa using Ne.symm h2
  rw [hnone] at hi
  exact absurd hi (by decide)

/-! ## The socket -/

/-- The event is registered and the socket open: nothing removed the one or closed the other. -/
def Open (out : List Event) : Prop := .eventDel ∉ out ∧ .close ∉ out

theorem open_append_iff {es fs : List Event} : Open (es ++ fs) ↔ Open es ∧ Open fs := by
  simp only [Open, List.mem_append, not_or]
  exact and_and_and_comm

/-- Lines are only printed. -/
theorem open_lineEvents (state : Int) (ls : List (List UInt8)) : Open (lineEvents state ls) := by
  induction ls generalizing state with
  | nil => exact ⟨by simp [lineEvents], by simp [lineEvents]⟩
  | cons l ls ih =>
      obtain ⟨hd, hc⟩ := ih (afterLine state l)
      exact ⟨by simp [lineEvents, hd], by simp [lineEvents, hc]⟩

/-- `strcmp(buf, "shutdown")` finds the word: the datagram, or the datagram and what the buffer held before. -/
def Call.Quits (c : Call) : Prop :=
  strEq (c.handed ++ c.buf.drop c.handed.length) (chars ['s', 'h', 'u', 't', 'd', 'o', 'w', 'n']) = some true

theorem open_quit_iff (c : Call) : Open c.quit ↔ ¬ c.Quits := by
  unfold Call.quit Call.Quits
  split
  · next h => simp [Open, h]
  · next h => simp [Open, h]

/-- A run without a datagram that closes the socket, from a state that carries `t`. -/
theorem open_run (soc : Int) (cs : List Call) {data : UserData} {t : List UInt8} (hc : Carries data t)
    (htl : lf ∉ t) (hb : Bounded t cs) (hcs : ∀ c ∈ cs, c.handed ≠ [] ∧ ¬ c.Quits) :
    ∃ data' out, run soc cs data = some (data', out) ∧ Open out := by
  induction cs generalizing data t with
  | nil => exact ⟨data, [], rfl, by simp [Open]⟩
  | cons c cs ih =>
      obtain ⟨hne, hq⟩ := hcs c (by simp)
      obtain ⟨ls, h1, hlen, hstr⟩ := recvHandler_text soc hc c hne hb.1
      have hc1 : Carries ⟨(lines lf (t ++ c.text)).foldl afterLine data.state, ls, soc, c.info⟩
          (rest lf (t ++ c.text)) := ⟨hlen, hstr⟩
      obtain ⟨d2, o2, h2, ho2⟩ := ih hc1 (sep_not_mem_rest _) hb.2
        (fun x hx => hcs x (List.mem_cons_of_mem c hx))
      refine ⟨d2, lineEvents data.state (lines lf (t ++ c.text)) ++ c.quit ++ o2, ?_, ?_⟩
      · simp [run, h1, h2]
      · rw [open_append_iff, open_append_iff]
        exact ⟨⟨open_lineEvents _ _, (open_quit_iff c).mpr hq⟩, ho2⟩

/-- What such a run says about its datagrams. -/
theorem of_open_run (soc : Int) (cs : List Call) {data data' : UserData} {out : List Event} {t : List UInt8}
    (hc : Carries data t) (htl : lf ∉ t) (hrun : run soc cs data = some (data', out)) (ho : Open out) :
    Bounded t cs ∧ ∀ c ∈ cs, c.handed ≠ [] ∧ ¬ c.Quits := by
  induction cs generalizing data out t with
  | nil => exact ⟨trivial, by simp⟩
  | cons c cs ih =>
      rw [run, Option.bind_eq_bind, Option.bind_eq_some_iff] at hrun
      obtain ⟨⟨d1, o1⟩, h1, hrun⟩ := hrun
      dsimp only at hrun
      rw [Option.bind_eq_some_iff] at hrun
      obtain ⟨⟨d2, o2⟩, h2, hrun⟩ := hrun
      obtain ⟨rfl, rfl⟩ := Prod.mk.inj (Option.some.inj hrun)
      obtain ⟨ho1, ho2⟩ := open_append_iff.mp ho
      by_cases hne : c.handed = []
      · -- `recv:EOF`
        rw [recvHandler_empty soc c data hne, Option.some.injEq, Prod.mk.injEq] at h1
        rw [← h1.2] at ho1
        exact absurd ho1.1 (by simp)
      by_cases hfit : t.length + c.handed.length ≤ 1023
      · obtain ⟨ls, heq, hlen, hstr⟩ := recvHandler_text soc hc c hne hfit
        rw [heq, Option.some.injEq, Prod.mk.injEq] at h1
        obtain ⟨rfl, rfl⟩ := h1
        obtain ⟨hb, hcs⟩ := ih ⟨hlen, hstr⟩ (sep_not_mem_rest _) h2 ho2
        refine ⟨⟨hfit, hb⟩, ?_⟩
        intro x hx
        rcases List.mem_cons.mp hx with rfl | hx
        · exact ⟨hne, (open_quit_iff x).mp (open_append_iff.mp ho1).2⟩
        · exact hcs x hx
      · rw [recvHandler_overflow soc hc c hne (by omega)] at h1
        exact absurd h1 (by simp)

/-- **The receiver listens on after every datagram** exactly when none is empty, none is taken for the word and
    the array holds them. -/
theorem recvline_open_iff (soc : Int) (cs : List Call) :
    (∀ k, ∃ data out, run soc (cs.take k) (init soc) = some (data, out) ∧ Open out)
      ↔ Bounded [] cs ∧ ∀ c ∈ cs, c.handed ≠ [] ∧ ¬ c.Quits := by
  constructor
  · intro h
    obtain ⟨data, out, hrun, ho⟩ := h cs.length
    rw [List.take_length] at hrun
    exact of_open_run soc cs (carries_init soc) (by simp) hrun ho
  · rintro ⟨hb, hcs⟩ k
    exact open_run soc (cs.take k) (carries_init soc) (by simp) (hb.take k)
      (fun c hc => hcs c (List.mem_of_mem_take hc))

end Recvline
end Line
end CSamples
