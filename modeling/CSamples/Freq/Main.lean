import CSamples.C.Getline
import CSamples.Machine.Runs
import CSamples.Myterm.Txt2bin

/-!
# `Freq.Main` — two buffers and one size

`main` of `freq` reads names of files from standard input and searches their lines. The names are read into `input`
and the lines into `line`, by two calls of `getline` that share the size variable `len`.

## Contents
- **Model.** `main` with its two loops, and every call of `getline` recorded.
- **One name.** `nameStep_ready_iff`: when the calls for one name leave `main` ready for the next.
- **All names.** `main_backed_iff`.
-/

namespace CSamples
namespace Freq

open C
open Myterm (LF)
open Myterm.Txt2bin (getline getline_length)

/-! ## The model -/

/-- What goes to `stderr`. -/
inductive Message where
  | notOpened (nread : Nat) (input : List UInt8)
  | name (input : List UInt8)
  | found (nline : Nat) (line : List UInt8)
  deriving DecidableEq, Repr

/-- The bytes allocated for `input` and for `line`, none for `NULL`; `len`; the calls so far and the messages. -/
structure State where
  input : Option Nat
  line  : Option Nat
  len   : Nat
  calls : List GetlineCall
  err   : List Message
  deriving DecidableEq, Repr

def State.init : State := ⟨none, none, 0, [], []⟩

/-- What repeated calls of `getline` return. -/
def lines (file : List UInt8) : List (List UInt8) :=
  match _hline : getline file with
  | none => []
  | some (line, rest) => line :: lines rest
  termination_by file.length
  decreasing_by exact getline_length (by assumption)

/-- The string in the buffer behind a call: without its LF, and up to a NUL. -/
def chomp (line : List UInt8) : List UInt8 :=
  (if line.getLast? = some LF then line.dropLast else line).takeWhile (· ≠ 0)

variable (g : Getline) (regexes : List (List UInt8 → Bool)) (fopen : List UInt8 → Option (List UInt8))

/-- `getline(&input, &len, stdin)` -/
def getlineInput (s : State) (need : Option Nat) : State :=
  let r := g.call s.calls.length s.input s.len need
  { s with input := r.1, len := r.2, calls := s.calls ++ [g.record s.calls.length s.input s.len need] }

/-- `getline(&line, &len, in)` -/
def getlineLine (s : State) (need : Option Nat) : State :=
  let r := g.call s.calls.length s.line s.len need
  { s with line := r.1, len := r.2, calls := s.calls ++ [g.record s.calls.length s.line s.len need] }

/-- `for(i = 0; i < nregex; i++){ ... }`, with the messages and `b_first`. -/
def regexLoop (input line : List UInt8) (nline : Nat) :
    List (List UInt8 → Bool) → Bool → List Message × Bool
  | [], first        => ([], first)
  | re :: res, first =>
      if re line then
        let r := regexLoop input line nline res false
        ((if first then [.name input] else []) ++ .found nline line :: r.1, r.2)
      else regexLoop input line nline res first

/-- `while(1){ nread = getline(&line, &len, in); ... }` over the lines of a file. -/
def lineLoop (input : List UInt8) : List (List UInt8) → Nat → Bool → State → State
  | [], _, _, s              => getlineLine g s none
  | l :: ls, nline, first, s =>
      let s := getlineLine g s (some (l.length + 1))
      let r := regexLoop input (chomp l) (nline + 1) regexes first
      lineLoop input ls (nline + 1) r.2 { s with err := s.err ++ r.1 }

/-- One name: the body of the outer loop. -/
def nameStep (s : State) (name : List UInt8) : State :=
  let s := getlineInput g s (some (name.length + 1))
  match fopen (chomp name) with
  | none      => { s with err := s.err ++ [.notOpened name.length (chomp name)] }
  | some file => lineLoop g regexes (chomp name) (lines file) 0 true s

/-- `while(1){ nread = getline(&input, &len, stdin); ... }` -/
def nameLoop : List (List UInt8) → State → State
  | [], s            => getlineInput g s none
  | name :: names, s => nameLoop names (nameStep g regexes fopen s name)

/-- `main` behind its options: `fopen` gives the bytes of the files that can be opened. -/
def main (stdin : List UInt8) : State := nameLoop g regexes fopen (lines stdin) State.init

/-! ## The specification -/

/-- A call was given a size that its buffer has. -/
def Sound (c : GetlineCall) : Prop := Backed c.allocated c.stated

/-- What `getline` needs for the lines of a file and for its end. -/
def needs (ls : List (List UInt8)) : List (Option Nat) := ls.map (fun l => some (l.length + 1)) ++ [none]

/-- For a name whose file can be opened: the size that its call leaves is one that `line` has, if there is one yet; and
    the size that the lines leave is one that `input` has. -/
def Fits (s : State) (name : List UInt8) : Prop :=
  ∀ file ∈ fopen (chomp name),
    let r := g.call s.calls.length s.input s.len (some (name.length + 1))
    Backed s.line r.2 ∧ Backed r.1 (g.calls (s.calls.length + 1) s.line r.2 (needs (lines file))).2

/-! ## One name -/

variable {g regexes fopen}

/-- A recorded call. -/
theorem sound_append_iff (cs : List GetlineCall) (k : Nat) (ptr : Option Nat) (n : Nat) (need : Option Nat) :
    (∀ c ∈ cs ++ [g.record k ptr n need], Sound c) ↔ (∀ c ∈ cs, Sound c) ∧ Backed ptr n := by
  rw [List.forall_mem_append, List.forall_mem_singleton]
  rfl

/-- **The loop over the lines**: its calls are sound if its first one is; `input` stays, and `line` and the size are
    what the lines leave. -/
theorem lineLoop_spec (input : List UInt8) (ls : List (List UInt8)) (nline : Nat) (first : Bool) (s : State) :
    ((∀ c ∈ (lineLoop g regexes input ls nline first s).calls, Sound c) ↔
        (∀ c ∈ s.calls, Sound c) ∧ Backed s.line s.len) ∧
      (lineLoop g regexes input ls nline first s).input = s.input ∧
      ((lineLoop g regexes input ls nline first s).line, (lineLoop g regexes input ls nline first s).len) =
        g.calls s.calls.length s.line s.len (needs ls) := by
  induction ls generalizing nline first s with
  | nil => exact ⟨sound_append_iff .., rfl, rfl⟩
  | cons l ls ih =>
      obtain ⟨hsound, hinput, hleft⟩ := ih (nline + 1) (regexLoop input (chomp l) (nline + 1) regexes first).2
        { getlineLine g s (some (l.length + 1)) with
          err := s.err ++ (regexLoop input (chomp l) (nline + 1) regexes first).1 }
      refine ⟨hsound.trans ?_, hinput, ?_⟩
      · show (∀ c ∈ s.calls ++ [g.record ..], Sound c) ∧ _ ↔ _
        rw [sound_append_iff]
        exact ⟨fun h => h.1, fun h => ⟨h, call_backed _ _ h.2⟩⟩
      · rw [needs, List.map_cons, List.cons_append, Getline.calls]
        apply hleft.trans
        show g.calls (s.calls ++ [_]).length _ _ _ = _
        rw [List.length_append]
        rfl

/-- What the loops need in front of a name: the calls were sound, and so is the next one for a name. -/
def Ready (s : State) : Prop := (∀ c ∈ s.calls, Sound c) ∧ Backed s.input s.len

theorem getlineInput_ready_iff (s : State) (need : Option Nat) :
    (∀ c ∈ (getlineInput g s need).calls, Sound c) ↔ Ready s :=
  sound_append_iff ..

/-- **One name** leaves `main` ready exactly when it fits. -/
theorem nameStep_ready_iff {s : State} (hs : Ready s) (name : List UInt8) :
    Ready (nameStep g regexes fopen s name) ↔ Fits g fopen s name := by
  have hcalls := (getlineInput_ready_iff (g := g) s (some (name.length + 1))).mpr hs
  have hinput := call_backed (g := g) s.calls.length (some (name.length + 1)) hs.2
  unfold nameStep Fits
  cases fopen (chomp name) with
  | none => exact iff_of_true ⟨hcalls, hinput⟩ fun _ h => absurd h (by simp)
  | some file =>
      obtain ⟨hsound, hsame, hleft⟩ := @lineLoop_spec g regexes (chomp name) (lines file) 0 true
        (getlineInput g s (some (name.length + 1)))
      have hcount : (getlineInput g s (some (name.length + 1))).calls.length = s.calls.length + 1 := List.length_append
      rw [hcount] at hleft
      have hlen : (lineLoop ..).len = (Getline.calls ..).2 := congrArg Prod.snd hleft
      simp only [Ready, hsound, hsame, hlen, Option.mem_def, Option.some.injEq, forall_eq']
      exact ⟨fun h => ⟨h.1.2, h.2⟩, fun h => ⟨⟨hcalls, h.1⟩, h.2⟩⟩

/-- Behind an unsound call, or in front of one, no name helps. -/
theorem ready_of_nameStep {s : State} {name : List UInt8}
    (h : ∀ c ∈ (nameStep g regexes fopen s name).calls, Sound c) : Ready s := by
  rw [← getlineInput_ready_iff (g := g) s (some (name.length + 1))]
  unfold nameStep at h
  cases hfile : fopen (chomp name) with
  | none =>
      rw [hfile] at h
      exact h
  | some file =>
      rw [hfile] at h
      exact (lineLoop_spec ..).1.mp h |>.1

theorem ready_of_nameLoop {names : List (List UInt8)} {s : State}
    (h : ∀ c ∈ (nameLoop g regexes fopen names s).calls, Sound c) : Ready s := by
  induction names generalizing s with
  | nil => exact (getlineInput_ready_iff s none).mp h
  | cons name names ih => exact ready_of_nameStep (ih h).1

/-! ## All names -/

/-- One name, as a step. -/
def step (g : Getline) (regexes : List (List UInt8 → Bool)) (fopen : List UInt8 → Option (List UInt8)) (s : State)
    (name : List UInt8) : Option State := some (nameStep g regexes fopen s name)

/-- Sound calls write within their buffers. -/
def Within (s : State) : Prop := ∀ c ∈ s.calls, Sound c → Backed c.buffer c.written

theorem within_append {cs : List GetlineCall} (h : ∀ c ∈ cs, Sound c → Backed c.buffer c.written) (k : Nat)
    (ptr : Option Nat) (n : Nat) (need : Option Nat) :
    ∀ c ∈ cs ++ [g.record k ptr n need], Sound c → Backed c.buffer c.written := by
  rw [List.forall_mem_append, List.forall_mem_singleton]
  exact ⟨h, written_le k need⟩

theorem lineLoop_within (input : List UInt8) (ls : List (List UInt8)) (nline : Nat) (first : Bool) {s : State}
    (h : Within s) : Within (lineLoop g regexes input ls nline first s) := by
  induction ls generalizing nline first s with
  | nil => exact within_append h _ _ _ _
  | cons l ls ih =>
      apply ih (nline + 1) _
      exact within_append h _ _ _ _

theorem nameLoop_within (names : List (List UInt8)) {s : State} (h : Within s) :
    Within (nameLoop g regexes fopen names s) := by
  induction names generalizing s with
  | nil => exact within_append h _ _ _ _
  | cons name names ih =>
      apply ih
      have hinput : Within (getlineInput g s (some (name.length + 1))) := within_append h _ _ _ _
      unfold nameStep
      cases fopen (chomp name) with
      | none => exact hinput
      | some file => exact lineLoop_within _ _ _ _ hinput

theorem nameLoop_sound_iff (names : List (List UInt8)) {s : State} (hs : Ready s) :
    (∀ c ∈ (nameLoop g regexes fopen names s).calls, Sound c) ↔
      Machine.Along (step g regexes fopen) (Fits g fopen) s names := by
  induction names generalizing s with
  | nil => exact iff_of_true ((getlineInput_ready_iff s none).mpr hs) trivial
  | cons name names ih =>
      have hready := @nameStep_ready_iff g regexes fopen s hs name
      rw [nameLoop, Machine.Along]
      constructor
      · intro h
        have hnext := ready_of_nameLoop h
        refine ⟨hready.mp hnext, fun s' h' => ?_⟩
        obtain rfl := Option.some.inj h'
        exact (ih hnext).mp h
      · rintro ⟨hfits, hrest⟩
        exact (ih (hready.mpr hfits)).mpr (hrest _ rfl)

/-- **Two buffers and one size**: in every call of `getline` the stated size is one that the buffer has, and what is
    written stays within it, if and only if every name fits in the state it is read in. -/
theorem main_backed_iff (g : Getline) (regexes : List (List UInt8 → Bool)) (fopen : List UInt8 → Option (List UInt8))
    (stdin : List UInt8) :
    (∀ c ∈ (main g regexes fopen stdin).calls, Backed c.allocated c.stated ∧ Backed c.buffer c.written) ↔
      Machine.Along (step g regexes fopen) (Fits g fopen) State.init (lines stdin) := by
  have hready : Ready State.init := ⟨fun c hc => absurd hc List.not_mem_nil, backed_none 0⟩
  have hwithin : Within (main g regexes fopen stdin) := nameLoop_within _ fun c hc => absurd hc List.not_mem_nil
  rw [← nameLoop_sound_iff (lines stdin) hready]
  exact ⟨fun h c hc => (h c hc).1, fun h c hc => ⟨h c hc, hwithin c hc (h c hc)⟩⟩

/-! ## Short names and lines -/

section
variable {A : Nat} (hfirst : ∀ k need, need ≤ A → g.size k 0 need = A)
include hfirst

/-- A call for what fits a first allocation leaves that size. -/
theorem call_short (hA : 1 ≤ A) (k : Nat) {ptr : Option Nat} (hptr : ptr = none ∨ ptr = some A) {need : Option Nat}
    (hneed : ∀ m ∈ need, m ≤ A) :
    ((g.call k ptr A need).1 = none ∨ (g.call k ptr A need).1 = some A) ∧ (g.call k ptr A need).2 = A := by
  rcases hptr with rfl | rfl
  · cases need with
    | none =>
        unfold Getline.call
        split_ifs
        · rw [hfirst k 1 hA]
          exact ⟨.inr rfl, rfl⟩
        · exact ⟨.inl rfl, rfl⟩
    | some m =>
        have hcall : g.call k none A (some m) = (some (g.size k 0 m), g.size k 0 m) := rfl
        rw [hcall, hfirst k m (hneed m rfl)]
        exact ⟨.inr rfl, rfl⟩
  · cases need with
    | none => exact ⟨.inr rfl, rfl⟩
    | some m =>
        rw [call_fits g k (hneed m rfl)]
        exact ⟨.inr rfl, rfl⟩

theorem calls_short (hA : 1 ≤ A) {needs : List (Option Nat)} (hneeds : ∀ need ∈ needs, ∀ m ∈ need, m ≤ A) (k : Nat)
    {ptr : Option Nat} (hptr : ptr = none ∨ ptr = some A) :
    ((g.calls k ptr A needs).1 = none ∨ (g.calls k ptr A needs).1 = some A) ∧ (g.calls k ptr A needs).2 = A := by
  induction needs generalizing k ptr with
  | nil => exact ⟨hptr, rfl⟩
  | cons need needs ih =>
      obtain ⟨hptr', hn⟩ := call_short hfirst hA k hptr (hneeds need (List.mem_cons_self ..))
      rw [Getline.calls, hn]
      exact ih (fun x hx => hneeds x (List.mem_cons_of_mem need hx)) (k + 1) hptr'

/-- Both buffers have the first size, as far as they are there, and `len` is that of `input`. -/
def Small (A : Nat) (s : State) : Prop :=
  (s.line = none ∨ s.line = some A) ∧ (s.input = none ∨ s.input = some A ∧ s.len = A)

theorem getlineInput_small {s : State} (hs : Small A s) {need : Nat} (hneed : need ≤ A) :
    g.call s.calls.length s.input s.len (some need) = (some A, A) := by
  rcases hs.2 with hnone | ⟨hsome, hlen⟩
  · have hcall : g.call s.calls.length none s.len (some need) =
      (some (g.size s.calls.length 0 need), g.size s.calls.length 0 need) := rfl
    rw [hnone, hcall, hfirst _ need hneed]
  · rw [hsome, hlen, call_fits g _ hneed]

/-- A short name of a file with short lines fits, and the buffers keep their size. -/
theorem nameStep_small (A_pos : 1 ≤ A) {s : State} (hs : Small A s) {name : List UInt8} (hname : name.length + 1 ≤ A)
    (hlines : ∀ file ∈ fopen (chomp name), ∀ l ∈ lines file, l.length + 1 ≤ A) :
    Fits g fopen s name ∧ Small A (nameStep g regexes fopen s name) := by
  have hinput := getlineInput_small hfirst hs hname
  have hs₁ : (getlineInput g s (some (name.length + 1))).input = some A ∧
      (getlineInput g s (some (name.length + 1))).len = A := by
    unfold getlineInput
    rw [hinput]
    exact ⟨rfl, rfl⟩
  -- the calls for the lines of the file keep the size
  have hcalls (file : List UInt8) (hfile : fopen (chomp name) = some file) (k : Nat) :=
    @calls_short g A hfirst A_pos (needs (lines file)) (by
      intro need hneed m hm
      rcases List.mem_append.mp hneed with hline | hend
      · obtain ⟨l, hl, rfl⟩ := List.mem_map.mp hline
        obtain rfl := Option.some.inj hm
        exact hlines file hfile l hl
      · rw [List.mem_singleton.mp hend] at hm
        exact absurd hm (by simp)) k s.line hs.1
  constructor
  · intro file hfile
    simp only [hinput]
    refine ⟨?_, ?_⟩
    · rcases hs.1 with hnone | hsome
      · rw [hnone]
        exact backed_none A
      · rw [hsome]
        exact backed_some.mpr (Nat.le_refl A)
    · rw [(hcalls file hfile _).2]
      exact backed_some.mpr (Nat.le_refl A)
  · unfold nameStep
    cases hfile : fopen (chomp name) with
    | none => exact ⟨hs.1, .inr hs₁⟩
    | some file =>
        obtain ⟨-, hsame, hleft⟩ := @lineLoop_spec g regexes (chomp name) (lines file) 0 true
          (getlineInput g s (some (name.length + 1)))
        have hline : (lineLoop ..).line = (Getline.calls ..).1 := congrArg Prod.fst hleft
        have hlen : (lineLoop ..).len = (Getline.calls ..).2 := congrArg Prod.snd hleft
        rw [hs₁.2] at hline hlen
        obtain ⟨hptr, hn⟩ := hcalls file hfile (getlineInput g s (some (name.length + 1))).calls.length
        refine ⟨?_, .inr ⟨hsame.trans hs₁.1, hlen.trans hn⟩⟩
        simp only [hline]
        exact hptr

/-- **Short names and lines**: where none needs more than a first allocation, every name fits. -/
theorem along_of_short (A_pos : 1 ≤ A) {names : List (List UInt8)} (hnames : ∀ name ∈ names, name.length + 1 ≤ A)
    (hlines : ∀ name ∈ names, ∀ file ∈ fopen (chomp name), ∀ l ∈ lines file, l.length + 1 ≤ A) {s : State}
    (hs : Small A s) : Machine.Along (step g regexes fopen) (Fits g fopen) s names := by
  induction names generalizing s with
  | nil => trivial
  | cons name names ih =>
      obtain ⟨hfits, hsmall⟩ := @nameStep_small g regexes fopen A hfirst A_pos s hs name
        (hnames name (List.mem_cons_self ..)) (hlines name (List.mem_cons_self ..))
      refine ⟨hfits, fun s' h' => ?_⟩
      obtain rfl := Option.some.inj h'
      exact ih (fun x hx => hnames x (List.mem_cons_of_mem name hx)) (fun x hx => hlines x (List.mem_cons_of_mem name hx))
        hsmall

end

/-- The sizes of glibc: 120 at first, then at least twice the size. -/
def glibcSize (_k n need : Nat) : Nat := if n = 0 ∧ need ≤ 120 then 120 else max (2 * max n 120) need

theorem glibc_need_le (k n need : Nat) : need ≤ glibcSize k n need := by
  unfold glibcSize
  split_ifs with h
  · exact h.2
  · exact Nat.le_max_right _ _

def glibc : Getline := ⟨glibcSize, true, glibc_need_le⟩

/-- The file `a` has a line of 200 bytes; the second name has 150, and no file. -/
theorem main_overflow :
    (main glibc [] (fun path => if path = [0x61] then some (List.replicate 199 0x78 ++ [LF]) else none)
      ([0x61, LF] ++ List.replicate 149 0x62 ++ [LF])).calls[3]? = some ⟨some 120, 240, 151, some 120⟩ := by
  decide +kernel

end Freq
end CSamples
