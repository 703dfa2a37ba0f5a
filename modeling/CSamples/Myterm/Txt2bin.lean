import CSamples.Myterm.PortHandler

/-!
# `Myterm.Txt2bin` — the encoder, and its agreement with the terminal

`txt2bin` copies text files to one binary file and puts a two-byte marker `FF bin` in front of the
characters that `rand` picks; with the marker byte 0 it ends the file with `FF FD`.

## Contents
- **Model.** `main`, with the `getline` loop and the loop over a line.
- **The loops.** `inputLoop_eq_lineLoop`: the lines and the files make no difference; the characters are written in
  order, each with its marker when it has one.
- **Agreement.** `decode_lineLoop`: the terminal shows the text and nothing else; `txt2bin_roundtrip` is
  that for every cut of the output into reads.
-/

namespace CSamples
namespace Myterm
namespace Txt2bin

open C CSamples.Lex

/-! ## The model -/

/-- `getline`: the line with its LF, and what is left of the file; `none` at the end of the file. -/
def getline : List UInt8 → Option (List UInt8 × List UInt8)
  | []        => none
  | b :: file =>
      if b = LF then some ([b], file)
      else match getline file with
        | none              => some ([b], [])
        | some (line, file) => some (b :: line, file)

/-- `for(i = 0; i < nread; i++){ ... }`; `rand n` is the value of call `n` of `rand`, of which `k` were
    made before. Returns what is written and the number of calls made. -/
def lineLoop (randMax : Nat) (rand : Nat → Nat) (bin : UInt8) : List UInt8 → Nat → List UInt8 × Nat
  | [], k         => ([], k)
  | ch :: line, k =>
      let marker := if rand k < randMax / 3 then [FF, bin] else []
      let (out, k) := lineLoop randMax rand bin line (k + 1)
      (marker ++ ch :: out, k)

theorem getline_length {file line rest : List UInt8} (h : getline file = some (line, rest)) :
    rest.length < file.length := by
  induction file generalizing line rest with
  | nil => simp [getline] at h
  | cons b file ih =>
      unfold getline at h
      split at h
      · obtain ⟨rfl, rfl⟩ := Prod.mk.inj (Option.some.inj h)
        exact Nat.lt_succ_self _
      · split at h
        · obtain ⟨rfl, rfl⟩ := Prod.mk.inj (Option.some.inj h)
          exact Nat.succ_pos _
        · next l r hr =>
            obtain ⟨rfl, rfl⟩ := Prod.mk.inj (Option.some.inj h)
            exact Nat.lt_succ_of_lt (ih hr)

/-- `while(1){ nread = getline(&line, &len, fp_in); ... }` -/
def fileLoop (randMax : Nat) (rand : Nat → Nat) (bin : UInt8) (file : List UInt8) (k : Nat) :
    List UInt8 × Nat :=
  match _hline : getline file with
  | none => ([], k)
  | some (line, rest) =>
      let (out, k) := lineLoop randMax rand bin line k
      let (out', k) := fileLoop randMax rand bin rest k
      (out ++ out', k)
  termination_by file.length
  decreasing_by exact getline_length (by assumption)

/-- `for(index = optind; index < argc; index++){ ... }`: an input that cannot be opened ends the loop and
    makes the exit code 1. -/
def inputLoop (randMax : Nat) (rand : Nat → Nat) (bin : UInt8) :
    List (Option (List UInt8)) → Nat → List UInt8 × Int
  | [], _               => ([], 0)
  | none :: _, _        => ([], 1)
  | some file :: fps, k =>
      let (out, k) := fileLoop randMax rand bin file k
      let (out', ret) := inputLoop randMax rand bin fps k
      (out ++ out', ret)

/-- `main` from the first input on: the bytes of the output file and the exit code. -/
def main (randMax : Nat) (rand : Nat → Nat) (bin : UInt8) (inputs : List (Option (List UInt8))) :
    List UInt8 × Int :=
  let (out, ret) := inputLoop randMax rand bin inputs 0
  if bin = 0 then (out ++ [FF, FD], ret) else (out, ret)

/-! ## The output -/

/-- The line and the rest of the file are the file. -/
theorem getline_append {file line rest : List UInt8} (h : getline file = some (line, rest)) :
    line ++ rest = file := by
  induction file generalizing line rest with
  | nil => simp [getline] at h
  | cons b file ih =>
      unfold getline at h
      split at h
      · obtain ⟨rfl, rfl⟩ := Prod.mk.inj (Option.some.inj h)
        rfl
      · split at h
        · next hnone =>
            obtain ⟨rfl, rfl⟩ := Prod.mk.inj (Option.some.inj h)
            cases file with
            | nil => rfl
            | cons c file =>
                unfold getline at hnone
                split at hnone
                · simp at hnone
                · split at hnone <;> simp at hnone
        · next l r hr =>
            obtain ⟨rfl, rfl⟩ := Prod.mk.inj (Option.some.inj h)
            rw [List.cons_append, ih hr]

theorem getline_eq_none {file : List UInt8} (h : getline file = none) : file = [] := by
  cases file with
  | nil => rfl
  | cons b file =>
      unfold getline at h
      split at h
      · simp at h
      · split at h <;> simp at h

theorem lineLoop_append (randMax : Nat) (rand : Nat → Nat) (bin : UInt8) (u v : List UInt8) (k : Nat) :
    lineLoop randMax rand bin (u ++ v) k =
      ((lineLoop randMax rand bin u k).1 ++ (lineLoop randMax rand bin v (lineLoop randMax rand bin u k).2).1,
        (lineLoop randMax rand bin v (lineLoop randMax rand bin u k).2).2) := by
  induction u generalizing k with
  | nil => rfl
  | cons ch u ih =>
      rw [List.cons_append]
      simp only [lineLoop, ih, List.append_assoc, List.cons_append]

theorem fileLoop_of_none {file : List UInt8} (h : getline file = none) (randMax : Nat) (rand : Nat → Nat)
    (bin : UInt8) (k : Nat) : fileLoop randMax rand bin file k = ([], k) := by
  rw [fileLoop]
  split
  · rfl
  · next h' => simp [h] at h'

theorem fileLoop_of_some {file line rest : List UInt8} (h : getline file = some (line, rest)) (randMax : Nat)
    (rand : Nat → Nat) (bin : UInt8) (k : Nat) :
    fileLoop randMax rand bin file k =
      ((lineLoop randMax rand bin line k).1 ++ (fileLoop randMax rand bin rest (lineLoop randMax rand bin line k).2).1,
        (fileLoop randMax rand bin rest (lineLoop randMax rand bin line k).2).2) := by
  rw [fileLoop]
  split
  · next h' => simp [h] at h'
  · next l r h' =>
      obtain ⟨rfl, rfl⟩ := Prod.mk.inj (Option.some.inj (h.symm.trans h'))
      rfl

/-- Reading a file line by line does what one pass over its bytes does. -/
theorem fileLoop_eq_lineLoop (randMax : Nat) (rand : Nat → Nat) (bin : UInt8) (file : List UInt8) (k : Nat) :
    fileLoop randMax rand bin file k = lineLoop randMax rand bin file k := by
  induction hn : file.length using Nat.strong_induction_on generalizing file k with
  | _ n ih =>
      cases h : getline file with
      | none =>
          rw [fileLoop_of_none h, getline_eq_none h]
          rfl
      | some lr =>
          obtain ⟨line, rest⟩ := lr
          have hrest := ih rest.length (hn ▸ getline_length h) rest (lineLoop randMax rand bin line k).2 rfl
          rw [fileLoop_of_some h, hrest, ← lineLoop_append, getline_append h]

/-- All inputs are one pass over their bytes when they can be opened. -/
theorem inputLoop_eq_lineLoop (randMax : Nat) (rand : Nat → Nat) (bin : UInt8) (files : List (List UInt8))
    (k : Nat) :
    inputLoop randMax rand bin (files.map some) k = ((lineLoop randMax rand bin files.flatten k).1, 0) := by
  induction files generalizing k with
  | nil => rfl
  | cons file files ih =>
      rw [List.map_cons, List.flatten_cons, lineLoop_append]
      simp only [inputLoop, fileLoop_eq_lineLoop, ih]

theorem main_zero (randMax : Nat) (rand : Nat → Nat) (files : List (List UInt8)) :
    main randMax rand 0 (files.map some) =
      ((lineLoop randMax rand 0 files.flatten 0).1 ++ [FF, FD], 0) := by
  unfold main
  rw [inputLoop_eq_lineLoop]
  exact if_pos rfl

/-! ## Agreement -/

/-- The characters of a text file: printable ones and LF. -/
def IsText (c : UInt8) : Prop := c = LF ∨ isprint c = true

instance (c : UInt8) : Decidable (IsText c) := inferInstanceAs (Decidable (c = LF ∨ isprint c = true))

theorem IsText.ne_ff {c : UInt8} (h : IsText c) : c ≠ FF := by
  rintro rfl
  revert h
  decide

theorem isprint_ne_zero {c : UInt8} (h : isprint c = true) : c ≠ 0 := by
  rintro rfl
  revert h
  decide

/-- A text character is a token of its own and shows itself. -/
theorem decode_text_cons {c : UInt8} (hc : IsText c) (x y : UInt8) (w : List UInt8) :
    decode (c :: x :: y :: w) = c :: decode (x :: y :: w) := by
  have hff := hc.ne_ff
  rw [decode_cons]
  by_cases hlf : c = LF
  · have htok : tokenAt c x y = (.lf, 1) := by
      unfold tokenAt
      rw [if_neg (fun h => hff h.1), if_neg (fun h => hff h.1), if_pos hlf]
    have hshow : shownAt c x y = [c] := by
      rw [shownAt, htok, hlf]
      rfl
    rw [hshow, htok]
    rfl
  · have htok : tokenAt c x y = (.any, 1) := by simp [tokenAt, hff, hlf]
    have hp : isprint c = true := hc.resolve_left hlf
    have hshow : shownAt c x y = [c] := by
      rw [shownAt, htok]
      simp [display, isprint_ne_zero hp, hp]
    rw [hshow, htok]
    rfl

/-- A marker in front of a character shows nothing, whichever rule matches it. -/
theorem decode_marker {c : UInt8} (hc : IsText c) (x y : UInt8) (w : List UInt8) :
    decode (FF :: 0 :: c :: x :: y :: w) = c :: decode (x :: y :: w) := by
  by_cases hlf : c = LF
  · -- the three-byte rule does not match LF: marker bytes and LF are tokens of their own
    have h1 : decode (FF :: 0 :: c :: x :: y :: w) = decode (0 :: c :: x :: y :: w) := by
      rw [decode_cons, hlf]
      rfl
    have h2 : decode (0 :: c :: x :: y :: w) = decode (c :: x :: y :: w) := by
      rw [decode_cons, show tokenAt 0 c x = (.any, 1) from rfl]
      rfl
    rw [h1, h2, decode_text_cons hc]
  · have hp : isprint c = true := hc.resolve_left hlf
    have htok : tokenAt FF 0 c = (.ffAnyAny, 3) := by
      unfold tokenAt
      rw [if_neg (by decide), if_pos ⟨rfl, hlf⟩]
    have hshow : shownAt FF 0 c = [c] := by
      rw [shownAt, htok]
      simp [display, isprint_ne_zero hp, hp]
    rw [decode_cons, hshow, htok]
    rfl

/-- **The terminal shows the text**, whatever `rand` yields; the end marker keeps its last characters from
    being held back. -/
theorem decode_lineLoop (randMax : Nat) (rand : Nat → Nat) (text : List UInt8) (htext : ∀ c ∈ text, IsText c)
    (k : Nat) : decode ((lineLoop randMax rand 0 text k).1 ++ [FF, FD]) = text := by
  induction text generalizing k with
  | nil => exact decode_of_lt (show 2 < 3 by decide)
  | cons c text ih =>
      have hc := htext c (List.mem_cons_self ..)
      have htail := ih (fun d hd => htext d (List.mem_cons_of_mem c hd)) (k + 1)
      -- at least the end marker follows the character
      obtain ⟨x, y, w, hxy⟩ : ∃ x y w, (lineLoop randMax rand 0 text (k + 1)).1 ++ [FF, FD] = x :: y :: w := by
        match (lineLoop randMax rand 0 text (k + 1)).1 with
        | [] => exact ⟨FF, FD, [], rfl⟩
        | [a] => exact ⟨a, FF, [FD], rfl⟩
        | a :: b :: w => exact ⟨a, b, w ++ [FF, FD], rfl⟩
      rw [hxy] at htail
      simp only [lineLoop, List.append_assoc, List.cons_append]
      rw [hxy]
      split
      · rw [List.cons_append, List.cons_append, List.nil_append, decode_marker hc, htail]
      · rw [List.nil_append, decode_text_cons hc, htail]

/-- **Encoder and decoder agree**: for text files, every outcome of `rand` and the default marker byte,
    every cut of the output file into reads makes the terminal show exactly the concatenated text. -/
theorem txt2bin_roundtrip (randMax : Nat) (rand : Nat → Nat) (files : List (List UInt8))
    (htext : ∀ file ∈ files, ∀ c ∈ file, IsText c) (bss : List (List UInt8))
    (hcut : bss.flatten = (main randMax rand 0 (files.map some)).1)
    (hreads : Reads (createUserdata false) bss) :
    ∃ ud out, run bss (createUserdata false) = some (ud, out) ∧ displayed out = files.flatten := by
  obtain ⟨ud, out, hrun, hshown, -⟩ := run_decode bss keeps_createUserdata hreads
  refine ⟨ud, out, hrun, ?_⟩
  have hall : ∀ c ∈ files.flatten, IsText c := by
    intro c hc
    obtain ⟨file, hfile, hcf⟩ := List.mem_flatten.mp hc
    exact htext file hfile c hcf
  rw [hshown, List.nil_append, hcut, main_zero, decode_lineLoop randMax rand _ hall]

/-- `a LF` and `b`, with markers in front of `a` and of the LF; one read ends inside a marker. -/
theorem txt2bin_roundtrip_marker :
    ∃ ud out, run [[FF], [0, 0x61, FF, 0], [LF, 0x62, FF], [FD]] (createUserdata false) = some (ud, out)
      ∧ displayed out = [0x61, LF, 0x62] :=
  txt2bin_roundtrip 9 (fun n => if n = 2 then 5 else 0) [[0x61, LF], [0x62]] (by decide +kernel)
    [[FF], [0, 0x61, FF, 0], [LF, 0x62, FF], [FD]] (by decide +kernel) (by decide +kernel)

end Txt2bin
end Myterm
end CSamples
