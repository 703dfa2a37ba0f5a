import CSamples.C.Memory

/-!
# `Tokenizer.Str` — the string object

`create_str` and `set_str` of `tokenizer/parser/str.c` (and of `re2c_lemon/any_parser`, which are the same).
`create_str` copies its argument only where that is `NULL`. `set_str` keeps the allocation for a text shorter than
the one it holds: its size is not stored, but what is held and its NUL are in it.

## Contents
- **Model.** `createStr`, `setStr` and `setStrs`, on the bytes allocated behind `self->s`.
- **The invariant.** `Reads`: what the object reads as. `setStr_reads`, `setStrs_reads`: after every call that is the
  text of the call.
- `created_never_sets_right`: the object never holds the text it is created with, and every text it is set to.
-/

namespace CSamples
namespace Tokenizer
namespace Str

open C

/-! ## The model -/

/-- A string argument, by its bytes in front of the NUL. -/
structure CString where
  bytes  : List UInt8
  no_nul : 0 ∉ bytes

/-- `STR`; the allocation behind `s` by its bytes, none for `NULL`. -/
structure STR where
  s : Option Mem

/-- `strdup(str)` -/
def strdup (str : CString) : Mem := str.bytes ++ [0]

/-- `strndup(str, n)`; undefined on `NULL`. -/
def strndup (str : Option CString) (n : Nat) : Option Mem := str.map fun w => w.bytes.take n ++ [0]

/-- `strcpy(s, str)`, which needs room for the NUL. -/
def strcpy (s : Mem) (str : CString) : Option Mem := blit s 0 (str.bytes ++ [0])

/-- `create_str`, for a length that is not negative. -/
def createStr (str : Option CString) (len : Nat) : Option STR :=
  match str with
  | none   => (strndup str len).map fun s => ⟨some s⟩
  | some _ => some ⟨none⟩

/-- `set_str` -/
def setStr (self : STR) (str : CString) : Option STR :=
  match self.s with
  | none   => some ⟨some (strdup str)⟩
  | some s => do
      let n ← strlen s 0
      if n ≤ str.bytes.length then some ⟨some (strdup str)⟩
      else
        let s ← strcpy s str
        some ⟨some s⟩

/-- Any calls of `set_str`. -/
def setStrs : STR → List CString → Option STR
  | self, []     => some self
  | self, w :: ws => do
      let self ← setStr self w
      setStrs self ws

/-! ## The invariant -/

/-- `self->s` reads as `w`. -/
def Reads (self : STR) (w : List UInt8) : Prop := ∃ s, self.s = some s ∧ strAt s 0 = some w

/-- `self->s` is `NULL` or reads as something. -/
def Valid (self : STR) : Prop := self.s = none ∨ ∃ w, Reads self w

/-- This call copies the text in place. -/
def InPlace (self : STR) (str : CString) : Prop :=
  ∃ s n, self.s = some s ∧ strlen s 0 = some n ∧ str.bytes.length < n

/-- The text and its NUL have room in the allocation. -/
def HasRoom (self : STR) (str : CString) : Prop := ∃ s, self.s = some s ∧ str.bytes.length + 1 ≤ s.length

theorem reads_strdup (str : CString) : Reads ⟨some (strdup str)⟩ str.bytes :=
  ⟨_, rfl, cstr_append_nul str.no_nul []⟩

/-- The text that is held and its NUL are in the allocation. -/
theorem length_lt_of_reads {s : Mem} {w : List UInt8} (h : strAt s 0 = some w) : w.length < s.length := by
  rw [strAt, List.drop_zero] at h
  obtain ⟨-, r, rfl⟩ := cstr_eq_some_iff.mp h
  simp

/-- **There is room for a shorter text.** -/
theorem hasRoom_of_inPlace {self : STR} {str : CString} (h : InPlace self str) : HasRoom self str := by
  obtain ⟨s, n, hs, hn, hlt⟩ := h
  obtain ⟨w, hw, rfl⟩ := Option.map_eq_some_iff.mp hn
  have hlen := length_lt_of_reads hw
  exact ⟨s, hs, by omega⟩

theorem strcpy_reads {s : Mem} {str : CString} (h : str.bytes.length + 1 ≤ s.length) :
    ∃ s', strcpy s str = some s' ∧ Reads ⟨some s'⟩ str.bytes := by
  refine ⟨_, blit_front (by simpa using h), _, rfl, ?_⟩
  rw [strAt, List.drop_zero, List.append_assoc]
  exact cstr_append_nul str.no_nul _

/-- **A call** leaves the object with its text. -/
theorem setStr_reads {self : STR} (h : Valid self) (str : CString) :
    ∃ self', setStr self str = some self' ∧ Reads self' str.bytes := by
  rcases h with hnone | ⟨w, s, hs, hw⟩
  · refine ⟨_, ?_, reads_strdup str⟩
    rw [setStr, hnone]
  · have hn : strlen s 0 = some w.length := by rw [strlen, hw]; rfl
    have hset : setStr self str =
        if w.length ≤ str.bytes.length then some ⟨some (strdup str)⟩
        else (strcpy s str).bind fun s => some ⟨some s⟩ := by
      rw [setStr, hs]
      simp only [hn, Option.bind_eq_bind, Option.bind_some]
    rw [hset]
    split_ifs with hle
    · exact ⟨_, rfl, reads_strdup str⟩
    · have hroom := length_lt_of_reads hw
      obtain ⟨s', hcopy, hreads⟩ := @strcpy_reads s str (by omega)
      rw [hcopy]
      exact ⟨_, rfl, hreads⟩

/-- **Any calls** succeed, and the last one decides. -/
theorem setStrs_reads {self : STR} (h : Valid self) (ws : List CString) :
    ∃ self', setStrs self ws = some self' ∧ Valid self' ∧ ∀ w ∈ ws.getLast?, Reads self' w.bytes := by
  induction ws generalizing self with
  | nil => exact ⟨self, rfl, h, by simp⟩
  | cons w ws ih =>
      obtain ⟨self₁, hset, hreads⟩ := setStr_reads h w
      obtain ⟨self', hsets, hvalid, hlast⟩ := ih (.inr ⟨_, hreads⟩)
      refine ⟨self', ?_, hvalid, ?_⟩
      · rw [setStrs, hset]
        exact hsets
      · cases ws with
        | nil =>
            obtain rfl : self₁ = self' := Option.some.inj hsets
            simpa using hreads
        | cons v ws => simpa using hlast

/-! ## The object from its creation -/

/-- The object holds the text it is created with, cut to `len`. -/
def Created (str : CString) (len : Nat) : Prop :=
  ∃ self, createStr (some str) len = some self ∧ Reads self (str.bytes.take len)

/-- Behind any calls, one more leaves the object with its text, and finds room for it where it copies in place. -/
def SetsRight (str : CString) (len : Nat) : Prop :=
  ∀ ws w, ∃ self₀ self self', createStr (some str) len = some self₀ ∧ setStrs self₀ ws = some self ∧
    (InPlace self w → HasRoom self w) ∧ setStr self w = some self' ∧ Reads self' w.bytes

/-- **The string object** never holds the text it is created with, as that is copied for `NULL` only; it holds every
    text it is set to, and copies in place only where there is room. -/
theorem created_never_sets_right (str : CString) (len : Nat) : ¬ Created str len ∧ SetsRight str len := by
  constructor
  · rintro ⟨self, hcreate, s, hs, -⟩
    obtain rfl := Option.some.inj hcreate
    exact absurd hs (by simp)
  · intro ws w
    have hvalid : Valid ⟨none⟩ := .inl rfl
    obtain ⟨self, hsets, hvalid', -⟩ := setStrs_reads hvalid ws
    obtain ⟨self', hset, hreads⟩ := setStr_reads hvalid' w
    exact ⟨⟨none⟩, self, self', rfl, hsets, hasRoom_of_inPlace, hset, hreads⟩

/-- **Created with `ab`** it is `NULL`. -/
theorem created_ab : createStr (some ⟨[ch 'a', ch 'b'], by decide⟩) 2 = some ⟨none⟩ ∧
    ¬ ∀ (str : CString) (len : Nat), Created str len ∧ SetsRight str len := by
  refine ⟨rfl, ?_⟩
  intro h
  obtain ⟨self, hcreate, s, hs, -⟩ := (h ⟨[ch 'a', ch 'b'], by decide⟩ 2).1
  obtain rfl := Option.some.inj hcreate
  exact absurd hs (by simp)

end Str
end Tokenizer
end CSamples
