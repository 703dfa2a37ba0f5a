import CSamples.Machine.Runs

/-!
# `Myterm.StdinHandler` — what is typed at the terminal

`stdin_handler` of `myterm/main.c` (and of `serial/serial.c`, the same text) sends what was typed to the port. An ESC
changes the mode inside the loop over the bytes of a read; which loop it is was decided in front of it.

## Contents
- **Model.** `stdinHandler` with its two loops; `step` is one read that brings bytes.
- **Specification.** `modeAfter` and `ctrlD`, on what was typed.
- **One read.** `stdinHandler_spec`.
- **Whole runs.** `segmentation_iff`: when a run depends on the bytes alone.
-/

namespace CSamples
namespace Myterm
namespace Stdin

/-! ## The model -/

/-- The fields of `USERDATA` that `stdin_handler` uses. -/
structure UserData where
  debug         : Bool
  canonicalMode : Bool
  deriving DecidableEq, Repr

/-- What `read` does: it fails, the terminal is closed, or bytes arrive. -/
inductive Read where
  | error
  | closed
  | bytes (bs : List UInt8)

/-- What the handler does besides changing the user data. -/
inductive Event where
  /-- `write(fd_port, buf + i, 1)` -/
  | write (b : UInt8)
  | setStdinCanonical (enabled : Bool)
  | loopexit
  | stderr (text : String)
  deriving DecidableEq, Repr

/-- Ctrl+[ -/
def ESC : UInt8 := 0x1B

/-- Ctrl+D -/
def EOT : UInt8 := 0x04

/-- `if(debug){ fprintf(stderr, text); }` -/
def UserData.diagnostic (ud : UserData) (text : String) : List Event := if ud.debug then [.stderr text] else []

/-- A byte of a read that began in canonical mode. -/
def canonicalByte (ud : UserData) (b : UInt8) : UserData × List Event :=
  if b = ESC then
    ({ ud with canonicalMode := false }, ud.diagnostic "(ESC)\n" ++ [.write b, .setStdinCanonical false])
  else (ud, [.write b])

/-- A byte of a read that did not. -/
def rawByte (ud : UserData) (b : UInt8) : UserData × List Event :=
  let eot := if b = EOT then ud.diagnostic "(Ctrl+D)\n" ++ [.loopexit] else []
  if b = ESC then
    ({ ud with canonicalMode := true }, eot ++ ud.diagnostic "(ESC)\n" ++ [.write b, .setStdinCanonical true])
  else if b = 0x7F then (ud, eot ++ [.write b])  -- backspace
  else (ud, eot ++ [.write b])

/-- `for(i = 0; i < len; i++){ ... }` -/
def each (byte : UserData → UInt8 → UserData × List Event) : UserData → List UInt8 → UserData × List Event
  | ud, []      => (ud, [])
  | ud, b :: bs =>
      let r := byte ud b
      let rest := each byte r.1 bs
      (rest.1, r.2 ++ rest.2)

/-- `stdin_handler` -/
def stdinHandler (ud : UserData) : Read → UserData × List Event
  | .error    => (ud, [.stderr "read error"])
  | .closed   => (ud, [.stderr "closed", .loopexit])
  | .bytes bs => if ud.canonicalMode then each canonicalByte ud bs else each rawByte ud bs

/-- The user data, the bytes typed so far and what was done about them. -/
structure Session where
  ud     : UserData
  typed  : List UInt8
  events : List Event

/-- One read that brings bytes. -/
def step (s : Session) (bs : List UInt8) : Option Session :=
  let r := stdinHandler s.ud (.bytes bs)
  some ⟨r.1, s.typed ++ bs, s.events ++ r.2⟩

/-- Nothing typed yet. -/
def start (ud : UserData) : Session := ⟨ud, [], []⟩

/-- The bytes written to the port. -/
def written : List Event → List UInt8
  | []            => []
  | .write b :: es => b :: written es
  | _ :: es       => written es

/-! ## The specification -/

/-- The mode behind bytes: every ESC toggles it. -/
def modeAfter (canonical : Bool) (bs : List UInt8) : Bool := canonical ^^ decide (bs.count ESC % 2 = 1)

/-- A Ctrl+D arrives while the mode, toggled by every ESC in front of it, is not canonical. -/
def ctrlD : Bool → List UInt8 → Bool
  | _, []              => false
  | canonical, b :: bs => (b == EOT && !canonical) || ctrlD (canonical ^^ (b == ESC)) bs

/-- All bytes typed were written, the mode is the toggled one, and the loop was asked to exit exactly by a Ctrl+D in
    non-canonical mode. -/
structure Toggled (canonical : Bool) (s : Session) : Prop where
  written : written s.events = s.typed
  mode    : s.ud.canonicalMode = modeAfter canonical s.typed
  exit    : .loopexit ∈ s.events ↔ ctrlD canonical s.typed = true

/-- A read without ESC or with an odd number of them. Unless exit was requested before it, no Ctrl+D in it comes after
    the mode left canonical, where it began there; and where it did not, one of its Ctrl+D comes in the other mode. -/
def Orderly (s : Session) (bs : List UInt8) : Prop :=
  (ESC ∉ bs ∨ bs.count ESC % 2 = 1) ∧
    (.loopexit ∈ s.events ∨
      if s.ud.canonicalMode then ctrlD true bs = false else EOT ∈ bs → ctrlD false bs = true)

instance (s : Session) (bs : List UInt8) : Decidable (Orderly s bs) :=
  inferInstanceAs (Decidable ((ESC ∉ bs ∨ bs.count ESC % 2 = 1) ∧
    (.loopexit ∈ s.events ∨
      if s.ud.canonicalMode then ctrlD true bs = false else EOT ∈ bs → ctrlD false bs = true)))

/-! ## Toggling, by parts -/

theorem modeAfter_append (m : Bool) (bs cs : List UInt8) : modeAfter m (bs ++ cs) = modeAfter (modeAfter m bs) cs := by
  unfold modeAfter
  rw [List.count_append, Bool.xor_assoc]
  congr 1
  by_cases hb : bs.count ESC % 2 = 1 <;> by_cases hc : cs.count ESC % 2 = 1
  · have h : ¬(bs.count ESC + cs.count ESC) % 2 = 1 := by omega
    simp [hb, hc, h]
  · have h : (bs.count ESC + cs.count ESC) % 2 = 1 := by omega
    simp [hb, hc, h]
  · have h : (bs.count ESC + cs.count ESC) % 2 = 1 := by omega
    simp [hb, hc, h]
  · have h : ¬(bs.count ESC + cs.count ESC) % 2 = 1 := by omega
    simp [hb, hc, h]

theorem modeAfter_cons (m : Bool) (b : UInt8) (bs : List UInt8) :
    modeAfter m (b :: bs) = modeAfter (m ^^ (b == ESC)) bs := by
  have h := modeAfter_append m [b] bs
  have hb : modeAfter m [b] = (m ^^ (b == ESC)) := by
    unfold modeAfter
    rw [List.count_singleton]
    cases b == ESC <;> rfl
  rwa [hb] at h

theorem ctrlD_append (m : Bool) (bs cs : List UInt8) :
    ctrlD m (bs ++ cs) = (ctrlD m bs || ctrlD (modeAfter m bs) cs) := by
  induction bs generalizing m with
  | nil =>
      rw [List.nil_append, ctrlD, Bool.false_or]
      congr 1
      exact (Bool.xor_false m).symm
  | cons b bs ih => rw [List.cons_append, ctrlD, ctrlD, ih, modeAfter_cons, Bool.or_assoc]

theorem written_append (es fs : List Event) : written (es ++ fs) = written es ++ written fs := by
  induction es with
  | nil => rfl
  | cons e es ih => cases e <;> simp [written, ih]

theorem written_diagnostic (ud : UserData) (text : String) : written (ud.diagnostic text) = [] := by
  unfold UserData.diagnostic
  cases ud.debug <;> rfl

theorem loopexit_not_mem_diagnostic (ud : UserData) (text : String) : Event.loopexit ∉ ud.diagnostic text := by
  unfold UserData.diagnostic
  cases ud.debug <;> simp

/-! ## One read -/

/-- A loop whose bytes are all written and which leaves the mode `m` behind an ESC. -/
theorem each_spec {byte : UserData → UInt8 → UserData × List Event} {m exits : Bool}
    (hbyte : ∀ ud b, (byte ud b).1.canonicalMode = (if b = ESC then m else ud.canonicalMode) ∧
      written (byte ud b).2 = [b] ∧ (.loopexit ∈ (byte ud b).2 ↔ exits = true ∧ b = EOT))
    (ud : UserData) (bs : List UInt8) :
    (each byte ud bs).1.canonicalMode = (if ESC ∈ bs then m else ud.canonicalMode) ∧
      written (each byte ud bs).2 = bs ∧ (.loopexit ∈ (each byte ud bs).2 ↔ exits = true ∧ EOT ∈ bs) := by
  induction bs generalizing ud with
  | nil => exact ⟨rfl, rfl, by simp [each]⟩
  | cons b bs ih =>
      obtain ⟨hmode, hwritten, hexit⟩ := hbyte ud b
      obtain ⟨hmode', hwritten', hexit'⟩ := ih (byte ud b).1
      refine ⟨?_, ?_, ?_⟩
      · rw [each, hmode', hmode]
        by_cases hb : b = ESC
        · simp [hb]
        · simp [hb, Ne.symm hb]
      · rw [each, written_append, hwritten, hwritten', List.singleton_append]
      · rw [each, List.mem_append, hexit, hexit', List.mem_cons]
        grind

theorem canonicalByte_spec (ud : UserData) (b : UInt8) :
    (canonicalByte ud b).1.canonicalMode = (if b = ESC then false else ud.canonicalMode) ∧
      written (canonicalByte ud b).2 = [b] ∧ (.loopexit ∈ (canonicalByte ud b).2 ↔ false = true ∧ b = EOT) := by
  unfold canonicalByte
  split_ifs
  · refine ⟨rfl, ?_, ?_⟩
    · rw [written_append, written_diagnostic]
      rfl
    · simp [loopexit_not_mem_diagnostic]
  · exact ⟨rfl, rfl, by simp⟩

theorem rawByte_spec (ud : UserData) (b : UInt8) :
    (rawByte ud b).1.canonicalMode = (if b = ESC then true else ud.canonicalMode) ∧
      written (rawByte ud b).2 = [b] ∧ (.loopexit ∈ (rawByte ud b).2 ↔ true = true ∧ b = EOT) := by
  have heot : written (if b = EOT then ud.diagnostic "(Ctrl+D)\n" ++ [.loopexit] else []) = [] := by
    split_ifs
    · rw [written_append, written_diagnostic]
      rfl
    · rfl
  have hmem : (Event.loopexit ∈ if b = EOT then ud.diagnostic "(Ctrl+D)\n" ++ [.loopexit] else []) ↔ b = EOT := by
    split_ifs with h
    · simp [h]
    · simp [h]
  unfold rawByte
  by_cases hesc : b = ESC
  · rw [if_pos hesc, if_pos hesc]
    refine ⟨rfl, ?_, ?_⟩
    · rw [written_append, written_append, heot, written_diagnostic]
      rfl
    · simp [hmem, loopexit_not_mem_diagnostic]
  · rw [if_neg hesc, if_neg hesc, ite_self]
    refine ⟨rfl, ?_, ?_⟩
    · rw [written_append, heot]
      rfl
    · simp [hmem]

/-- **One read**: every byte is written; an ESC, or any number of them, leaves the other mode than the read began in;
    a Ctrl+D counts where the read began in non-canonical mode. -/
theorem stdinHandler_spec (ud : UserData) (bs : List UInt8) :
    (stdinHandler ud (.bytes bs)).1.canonicalMode = (ud.canonicalMode ^^ decide (ESC ∈ bs)) ∧
      written (stdinHandler ud (.bytes bs)).2 = bs ∧
      (.loopexit ∈ (stdinHandler ud (.bytes bs)).2 ↔ ud.canonicalMode = false ∧ EOT ∈ bs) := by
  cases hm : ud.canonicalMode with
  | true =>
      have hloop : stdinHandler ud (.bytes bs) = each canonicalByte ud bs := by
        show (if ud.canonicalMode then _ else _) = _
        rw [if_pos hm]
      obtain ⟨hmode, hwritten, hexit⟩ := each_spec canonicalByte_spec ud bs
      rw [hloop]
      refine ⟨?_, hwritten, ?_⟩
      · rw [hmode, hm]
        by_cases h : ESC ∈ bs <;> simp [h]
      · rw [hexit]
        simp
  | false =>
      have hloop : stdinHandler ud (.bytes bs) = each rawByte ud bs := by
        show (if ud.canonicalMode then _ else _) = _
        rw [if_neg (ne_true_of_eq_false hm)]
      obtain ⟨hmode, hwritten, hexit⟩ := each_spec rawByte_spec ud bs
      rw [hloop]
      refine ⟨?_, hwritten, ?_⟩
      · rw [hmode, hm]
        by_cases h : ESC ∈ bs <;> simp [h]
      · rw [hexit]
        simp

/-! ## Whole runs -/

theorem eot_mem_of_ctrlD {m : Bool} {bs : List UInt8} (h : ctrlD m bs = true) : EOT ∈ bs := by
  induction bs generalizing m with
  | nil => exact absurd h Bool.false_ne_true
  | cons b bs ih =>
      rcases Bool.or_eq_true_iff.mp h with hb | hrest
      · rw [Bool.and_eq_true, beq_iff_eq] at hb
        exact hb.1 ▸ List.mem_cons_self ..
      · exact List.mem_cons_of_mem b (ih hrest)

/-- **A read keeps a run toggled** exactly when it is orderly. -/
theorem step_toggled_iff {m : Bool} (s : Session) (bs : List UInt8) (hs : Toggled m s) :
    (∃ s', step s bs = some s' ∧ Toggled m s') ↔ Orderly s bs := by
  obtain ⟨hmode, hwritten, hexit⟩ := stdinHandler_spec s.ud bs
  have hmode_iff : (stdinHandler s.ud (.bytes bs)).1.canonicalMode = modeAfter m (s.typed ++ bs) ↔
      (ESC ∉ bs ∨ bs.count ESC % 2 = 1) := by
    rw [modeAfter_append, ← hs.mode, hmode, modeAfter, Bool.xor_right_inj, decide_eq_decide]
    have hcount : ESC ∈ bs ↔ 0 < bs.count ESC := List.count_pos_iff.symm
    rw [hcount]
    omega
  have hexit_iff : (.loopexit ∈ s.events ++ (stdinHandler s.ud (.bytes bs)).2 ↔ ctrlD m (s.typed ++ bs) = true) ↔
      (.loopexit ∈ s.events ∨
        if s.ud.canonicalMode then ctrlD true bs = false else EOT ∈ bs → ctrlD false bs = true) := by
    rw [ctrlD_append, ← hs.mode, List.mem_append, hexit, Bool.or_eq_true, ← hs.exit]
    cases s.ud.canonicalMode with
    | true =>
        simp only [if_true, ← Bool.not_eq_true]
        grind
    | false =>
        have hmem : ctrlD false bs = true → EOT ∈ bs := eot_mem_of_ctrlD
        simp only [true_and, Bool.false_eq_true, if_false]
        grind
  rw [Orderly, ← hmode_iff, ← hexit_iff]
  constructor
  · rintro ⟨s', h, htoggled⟩
    obtain rfl := Option.some.inj h
    exact ⟨htoggled.mode, htoggled.exit⟩
  · rintro ⟨h₁, h₂⟩
    refine ⟨_, rfl, ⟨?_, h₁, h₂⟩⟩
    show written (s.events ++ _) = _
    rw [written_append, hs.written, hwritten]

theorem toggled_start (ud : UserData) : Toggled ud.canonicalMode (start ud) where
  written := rfl
  mode    := (Bool.xor_false _).symm
  exit    := iff_of_false List.not_mem_nil Bool.false_ne_true

theorem run_typed (bss : List (List UInt8)) {s s' : Session} (h : Machine.run step bss s = some s') :
    s'.typed = s.typed ++ bss.flatten := by
  induction bss generalizing s with
  | nil =>
      obtain rfl := Option.some.inj h
      exact (List.append_nil _).symm
  | cons bs bss ih =>
      obtain ⟨s₁, h₁, h₂⟩ := Option.bind_eq_some_iff.mp h
      obtain rfl := Option.some.inj h₁
      rw [ih h₂, List.flatten_cons, ← List.append_assoc]

/-- **Segmentations**: a run is toggled after every read if and only if every read is orderly; and any two runs over
    the same bytes whose reads are orderly write the same, end in the same mode, and agree on whether the loop was
    asked to exit. -/
theorem segmentation_iff (ud : UserData) (bss : List (List UInt8)) :
    (Machine.Throughout step (Toggled ud.canonicalMode) bss (start ud) ↔ Machine.Along step Orderly (start ud) bss) ∧
      ∀ bss', bss'.flatten = bss.flatten → Machine.Along step Orderly (start ud) bss →
        Machine.Along step Orderly (start ud) bss' →
        ∃ s s', Machine.run step bss (start ud) = some s ∧ Machine.run step bss' (start ud) = some s' ∧
          written s.events = written s'.events ∧ s.ud.canonicalMode = s'.ud.canonicalMode ∧
          (.loopexit ∈ s.events ↔ .loopexit ∈ s'.events) := by
  have hiff : ∀ bss, Machine.Throughout step (Toggled ud.canonicalMode) bss (start ud) ↔
      Machine.Along step Orderly (start ud) bss :=
    fun bss => Machine.throughout_iff step_toggled_iff bss (toggled_start ud)
  refine ⟨hiff bss, fun bss' hflat horderly horderly' => ?_⟩
  obtain ⟨s, hrun, hs⟩ := (hiff bss).mpr horderly bss.length
  obtain ⟨s', hrun', hs'⟩ := (hiff bss').mpr horderly' bss'.length
  rw [List.take_length] at hrun hrun'
  have htyped : s.typed = s'.typed := by
    rw [run_typed bss hrun, run_typed bss' hrun', hflat]
  refine ⟨s, s', hrun, hrun', ?_, ?_, ?_⟩
  · rw [hs.written, hs'.written, htyped]
  · rw [hs.mode, hs'.mode, htyped]
  · rw [hs.exit, hs'.exit, htyped]

/-- `a`, ESC and Ctrl+D from canonical mode, in two reads and in three. -/
theorem segmentation_iff_escape :
    ∃ s s', Machine.run step [[0x61, ESC], [EOT]] (start ⟨false, true⟩) = some s ∧
      Machine.run step [[0x61], [ESC], [EOT]] (start ⟨false, true⟩) = some s' ∧
      written s.events = written s'.events ∧ s.ud.canonicalMode = s'.ud.canonicalMode ∧
      (.loopexit ∈ s.events ↔ .loopexit ∈ s'.events) := by
  refine (segmentation_iff ⟨false, true⟩ [[0x61, ESC], [EOT]]).2 [[0x61], [ESC], [EOT]] rfl ?_ ?_
  · refine ⟨by decide, fun s' h => ?_⟩
    obtain rfl := Option.some.inj h
    exact ⟨by decide, fun _ _ => trivial⟩
  · refine ⟨by decide, fun s' h => ?_⟩
    obtain rfl := Option.some.inj h
    refine ⟨by decide, fun s' h => ?_⟩
    obtain rfl := Option.some.inj h
    exact ⟨by decide, fun _ _ => trivial⟩

/-- ESC and Ctrl+D from canonical mode: in one read, and in two. -/
theorem segmentation_escape :
    (Machine.run step [[ESC, EOT]] (start ⟨false, true⟩)).map (fun s => s.events) =
        some [.write ESC, .setStdinCanonical false, .write EOT] ∧
      (Machine.run step [[ESC], [EOT]] (start ⟨false, true⟩)).map (fun s => s.events) =
        some [.write ESC, .setStdinCanonical false, .loopexit, .write EOT] := by
  decide

end Stdin
end Myterm
end CSamples
