import Mathlib.Data.List.Basic

/-!
# `Tokenizer.Userdata` — the insertion of a record

`Userdata_InsertRecord` of `tokenizer/parser/userdata.c` (and of `re2c_lemon/any_parser`, which is the same) steps the
statement until a step returns `SQLITE_DONE`. It looks at no other result, so that an error that stays is tried for
ever; where it returns, it has inserted the record and finalized the statement.

## Contents
- **Model.** `insertRecord`, as the calls of `sqlite3` that it makes; the results of the steps are any sequence.
- `stepLoop_spec`: the loop ends at the first `SQLITE_DONE`, and only there.
- `insertRecord_right_iff`: the function does what it is for exactly if there is one, or nothing was prepared.
-/

namespace CSamples
namespace Tokenizer
namespace Userdata

/-! ## The model -/

def SQLITE_OK : Int := 0
def SQLITE_BUSY : Int := 5
def SQLITE_DONE : Int := 101

/-- The calls of `sqlite3`, with what they are given and return. -/
inductive Call where
  | prepare (ret : Int)
  | bindText (i : Nat) (text : List UInt8) (n : Nat)
  | step (ret : Int)
  | finalize
  deriving DecidableEq, Repr

/-- `while(1){ ret = sqlite3_step(sth); if(ret == SQLITE_DONE){ break; } }`, from the step number `k` on; `none` where
    it is not left in so many turns. -/
def stepLoop (results : Nat → Int) : Nat → Nat → Option (List Call)
  | 0, _     => none
  | n + 1, k =>
      if results k = SQLITE_DONE then some [.step (results k)]
      else (stepLoop results n (k + 1)).map (fun calls => .step (results k) :: calls)

/-- `Userdata_InsertRecord`: what it returns, and its calls. -/
def insertRecord (n : Nat) (prepared : Int) (results : Nat → Int) (machine login password : List UInt8) :
    Option (Int × List Call) :=
  if prepared ≠ SQLITE_OK then some (1, [.prepare prepared])
  else
    (stepLoop results n 0).map fun steps =>
      (0, .prepare prepared :: .bindText 1 machine machine.length :: .bindText 2 login login.length ::
        .bindText 3 password password.length :: (steps ++ [.finalize]))

/-! ## The loop -/

theorem stepLoop_done {results : Nat → Int} {k : Nat} (h : results k = SQLITE_DONE) (n : Nat) :
    stepLoop results (n + 1) k = some [.step SQLITE_DONE] := by
  rw [stepLoop, if_pos h, h]

theorem stepLoop_other {results : Nat → Int} {k : Nat} (h : results k ≠ SQLITE_DONE) (n : Nat) :
    stepLoop results (n + 1) k = (stepLoop results n (k + 1)).map (fun calls => .step (results k) :: calls) := by
  rw [stepLoop, if_neg h]

/-- **The loop that is left** has stepped only, and to the end. -/
theorem stepLoop_spec {results : Nat → Int} {n k : Nat} {steps : List Call} (h : stepLoop results n k = some steps) :
    .step SQLITE_DONE ∈ steps ∧ Call.finalize ∉ steps ∧ ∃ j, results j = SQLITE_DONE := by
  induction n generalizing k steps with
  | zero => simp [stepLoop] at h
  | succ n ih =>
      by_cases hdone : results k = SQLITE_DONE
      · rw [stepLoop_done hdone] at h
        obtain rfl := Option.some.inj h
        exact ⟨by simp, by simp, k, hdone⟩
      · rw [stepLoop_other hdone] at h
        obtain ⟨steps', hsteps, rfl⟩ := Option.map_eq_some_iff.mp h
        obtain ⟨hmem, hfin, hj⟩ := ih hsteps
        exact ⟨List.mem_cons_of_mem _ hmem, by simp [hfin], hj⟩

/-- **A step that is done** ends the loop, in as many turns as there are steps up to it. -/
theorem stepLoop_of_done {results : Nat → Int} {n k : Nat} (h : results (k + n) = SQLITE_DONE) :
    ∃ steps, stepLoop results (n + 1) k = some steps := by
  induction n generalizing k with
  | zero => exact ⟨_, stepLoop_done h 0⟩
  | succ n ih =>
      by_cases hdone : results k = SQLITE_DONE
      · exact ⟨_, stepLoop_done hdone (n + 1)⟩
      · obtain ⟨steps, hsteps⟩ := @ih (k + 1) (by rw [← h]; congr 1; omega)
        rw [stepLoop_other hdone, hsteps]
        exact ⟨_, rfl⟩

/-! ## The function -/

/-- It returns; 0 only behind a step that is done; and a statement that was prepared is finalized once. -/
def Right (prepared : Int) (results : Nat → Int) (machine login password : List UInt8) : Prop :=
  ∃ n ret calls, insertRecord n prepared results machine login password = some (ret, calls) ∧
    (ret = 0 → .step SQLITE_DONE ∈ calls) ∧ calls.count .finalize = if prepared = SQLITE_OK then 1 else 0

/-- Where it returns, it does so rightly. -/
theorem insertRecord_returned {n : Nat} {prepared : Int} {results : Nat → Int} {machine login password : List UInt8}
    {ret : Int} {calls : List Call} (h : insertRecord n prepared results machine login password = some (ret, calls)) :
    (ret = 0 → .step SQLITE_DONE ∈ calls) ∧ calls.count .finalize = if prepared = SQLITE_OK then 1 else 0 := by
  unfold insertRecord at h
  by_cases hprep : prepared = SQLITE_OK
  · rw [if_neg (fun hne => hne hprep)] at h
    obtain ⟨steps, hsteps, heq⟩ := Option.map_eq_some_iff.mp h
    obtain ⟨rfl, rfl⟩ := Prod.mk.inj heq
    obtain ⟨hmem, hfin, -⟩ := stepLoop_spec hsteps
    have hcount : steps.count .finalize = 0 := List.count_eq_zero.mpr hfin
    refine ⟨fun _ => by simp [hmem], ?_⟩
    rw [if_pos hprep]
    simp [hcount]
  · rw [if_pos hprep] at h
    obtain ⟨rfl, rfl⟩ := Prod.mk.inj (Option.some.inj h)
    refine ⟨fun h0 => absurd h0 (by decide), ?_⟩
    rw [if_neg hprep]
    rfl

/-- **The insertion of a record** ends, inserts it where it returns 0 and finalizes the statement once, exactly if some
    step returns `SQLITE_DONE` or no statement could be prepared. -/
theorem insertRecord_right_iff (prepared : Int) (results : Nat → Int) (machine login password : List UInt8) :
    Right prepared results machine login password ↔ prepared ≠ SQLITE_OK ∨ ∃ k, results k = SQLITE_DONE := by
  constructor
  · rintro ⟨n, ret, calls, hcall, -⟩
    by_cases hprep : prepared = SQLITE_OK
    · unfold insertRecord at hcall
      rw [if_neg (fun hne => hne hprep)] at hcall
      obtain ⟨steps, hsteps, -⟩ := Option.map_eq_some_iff.mp hcall
      exact .inr (stepLoop_spec hsteps).2.2
    · exact .inl hprep
  · intro h
    obtain ⟨n, r, hcall⟩ : ∃ n r, insertRecord n prepared results machine login password = some r := by
      unfold insertRecord
      by_cases hprep : prepared = SQLITE_OK
      · obtain ⟨k, hk⟩ := h.resolve_left (fun hne => hne hprep)
        obtain ⟨steps, hsteps⟩ := @stepLoop_of_done results k 0 (by rwa [Nat.zero_add])
        refine ⟨k + 1, ?_⟩
        rw [if_neg (fun hne => hne hprep), hsteps]
        exact ⟨_, rfl⟩
      · exact ⟨0, _, if_pos hprep⟩
    obtain ⟨hdone, hfin⟩ := insertRecord_returned hcall
    exact ⟨n, r.1, r.2, hcall, hdone, hfin⟩

/-- **A database that stays locked** is tried for ever. -/
theorem insertRecord_locked : ¬ Right SQLITE_OK (fun _ => SQLITE_BUSY) [0x61] [0x62] [0x63] := by
  rintro ⟨n, ret, calls, hcall, -⟩
  unfold insertRecord at hcall
  rw [if_neg (by decide)] at hcall
  obtain ⟨steps, hsteps, -⟩ := Option.map_eq_some_iff.mp hcall
  obtain ⟨-, -, k, hk⟩ := stepLoop_spec hsteps
  exact absurd hk (by decide)

end Userdata
end Tokenizer
end CSamples
