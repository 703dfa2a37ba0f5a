import Mathlib.Data.List.Basic
import Mathlib.Tactic.SplitIfs

/-!
# `Socket.Daemonize` — the descriptors of a daemon

`daemonize` of `socket/server/myserver.c` (and of `daemon` and `libevent/server`, the same text) closes what is open,
opens `/dev/null` and puts it in the place of the three standard descriptors. The number that `open` returned is closed
again where it is below 2.

## Contents
- **Descriptors.** `Table`, with `close`, `open` and `dup2`; each has one lemma, about `get`.
- **Model.** `daemonize`.
- **The table behind it.** `daemonize_get`, and `daemonize_never`.
-/

namespace CSamples
namespace Socket
namespace Daemonize

/-! ## Descriptors -/

/-- What the descriptors of a process are open on, by number. -/
abbrev Table (α : Type) : Type := List (Option α)

section
variable {α : Type}

/-- What a number is open on; none where it is free. -/
def get : Table α → Nat → Option α
  | [], _          => none
  | x :: _, 0      => x
  | _ :: t, fd + 1 => get t fd

/-- The table with a number that is open on a file, or free. -/
def put : Table α → Nat → Option α → Table α
  | [], 0, f          => [f]
  | [], fd + 1, f     => none :: put [] fd f
  | _ :: t, 0, f      => f :: t
  | x :: t, fd + 1, f => x :: put t fd f

/-- `close(fd)` -/
def close (t : Table α) (fd : Nat) : Table α := put t fd none

/-- The number that `open` returns: the lowest that is free. -/
def lowestFree : Table α → Nat
  | []          => 0
  | none :: _   => 0
  | some _ :: t => lowestFree t + 1

/-- `dup2(fd, fd2)`: nothing where the two are one, or the first is free. -/
def dup2 (t : Table α) (fd fd2 : Nat) : Table α :=
  if fd = fd2 ∨ get t fd = none then t else put t fd2 (get t fd)

@[simp] theorem get_nil (fd : Nat) : get ([] : Table α) fd = none := rfl

@[simp] theorem get_put (t : Table α) (fd : Nat) (f : Option α) (i : Nat) :
    get (put t fd f) i = if i = fd then f else get t i := by
  induction t, fd, f using put.induct generalizing i with
  | case1 f => cases i <;> simp [put, get]
  | case2 fd f ih => cases i <;> simp [put, get, ih]
  | case3 x t f => cases i <;> simp [put, get]
  | case4 x t fd f ih => cases i <;> simp [put, get, ih]

@[simp] theorem get_close (t : Table α) (fd i : Nat) : get (close t fd) i = if i = fd then none else get t i :=
  get_put t fd none i

theorem get_dup2 {t : Table α} {fd fd2 : Nat} (hne : fd ≠ fd2) {f : α} (hopen : get t fd = some f) (i : Nat) :
    get (dup2 t fd fd2) i = if i = fd2 then some f else get t i := by
  have hnot : ¬(fd = fd2 ∨ get t fd = none) := by simp [hne, hopen]
  rw [dup2, if_neg hnot, hopen, get_put]

/-- What is free below a number bounds what `open` returns. -/
theorem lowestFree_le {t : Table α} {fd : Nat} (h : get t fd = none) : lowestFree t ≤ fd := by
  induction t generalizing fd with
  | nil => exact Nat.zero_le fd
  | cons x t ih =>
      cases x with
      | none => exact Nat.zero_le fd
      | some f =>
          cases fd with
          | zero => exact absurd h (by simp [get])
          | succ fd => exact Nat.succ_le_succ (ih h)

end

/-! ## The model -/

/-- `#define MAXFD 64` -/
def MAXFD : Nat := 64

/-- How `fork` returns. -/
inductive Fork where
  | fails
  | parent
  | child
  deriving DecidableEq, Repr

/-- How `daemonize` ends in a process. -/
inductive Outcome (α : Type) where
  | exit (status : Int)
  | returned (ret : Int) (t : Table α)
  deriving DecidableEq, Repr

variable {α : Type}

/-- `for(i = 0; i < MAXFD; i++){ close(i); }`, from `i` on with `n` iterations left. -/
def closeLoop : Nat → Nat → Table α → Table α
  | 0, _, t     => t
  | n + 1, i, t => closeLoop n (i + 1) (close t i)

/-- `daemonize`: `fork₁` and `fork₂` are the two calls of `fork`, `chdir` and `opens` tell whether these calls succeed.
    `chdir` returns 0 where it does, which is what the branch to `exit` asks for. -/
def daemonize (null : α) (flag : Int) (fork₁ fork₂ : Fork) (chdir opens : Bool) (t : Table α) : Outcome α :=
  match fork₁ with
  | .fails  => .returned (-1) t
  | .parent => .exit 0
  | .child  =>
      if fork₂ = .child then .exit 0
      else if flag = 0 ∧ chdir then .exit 0
      else
        let t := closeLoop MAXFD 0 t
        if opens then
          let fd := lowestFree t
          let t := put t fd (some null)
          let t := dup2 t fd 0
          let t := dup2 t fd 1
          let t := dup2 t fd 2
          .returned 0 (if fd < 2 then close t fd else t)
        else .returned 0 t

/-! ## The table behind it -/

/-- **The loop** closes the numbers that it counts. -/
theorem closeLoop_get (n i : Nat) (t : Table α) (fd : Nat) :
    get (closeLoop n i t) fd = if i ≤ fd ∧ fd < i + n then none else get t fd := by
  induction n generalizing i t with
  | zero => rw [closeLoop, if_neg (by omega)]
  | succ n ih =>
      rw [closeLoop, ih, get_close]
      split_ifs <;> first | rfl | omega

/-- `/dev/null` at number 0, copied to 1 and 2. -/
theorem standard_get (null : α) (t : Table α) (fd : Nat) :
    get (dup2 (dup2 (dup2 (put t 0 (some null)) 0 0) 0 1) 0 2) fd = if fd ≤ 2 then some null else get t fd := by
  have h₀ : ∀ i, get (dup2 (put t 0 (some null)) 0 0) i = if i = 0 then some null else get t i := by
    intro i
    rw [dup2, if_pos (.inl rfl), get_put]
  have h₁ := @get_dup2 α _ 0 1 (by decide) null (h₀ 0)
  have hsome : get (dup2 (dup2 (put t 0 (some null)) 0 0) 0 1) 0 = some null := by
    rw [h₁, h₀]
    rfl
  have h₂ := @get_dup2 α _ 0 2 (by decide) null hsome
  rw [h₂, h₁, h₀]
  split_ifs <;> first | rfl | omega

/-- What `daemonize` does where it returns 0 and `/dev/null` could be opened. -/
theorem daemonize_eq {null : α} {flag : Int} {fork₁ fork₂ : Fork} {chdir : Bool} {t t' : Table α}
    (h : daemonize null flag fork₁ fork₂ chdir true t = .returned 0 t') :
    t' = close (dup2 (dup2 (dup2 (put (closeLoop MAXFD 0 t) 0 (some null)) 0 0) 0 1) 0 2) 0 := by
  have hfd : lowestFree (closeLoop MAXFD 0 t) = 0 := by
    apply Nat.le_zero.mp
    apply lowestFree_le
    rw [closeLoop_get, if_pos (by decide)]
  unfold daemonize at h
  cases fork₁ with
  | fails => exact absurd (Outcome.returned.inj h).1 (by decide)
  | parent => exact absurd h (by simp)
  | child =>
      dsimp only at h
      by_cases hfork : fork₂ = .child
      · rw [if_pos hfork] at h
        exact absurd h (by simp)
      by_cases hexit : flag = 0 ∧ chdir = true
      · rw [if_neg hfork, if_pos hexit] at h
        exact absurd h (by simp)
      rw [if_neg hfork, if_neg hexit, if_pos rfl, hfd, if_pos (by decide)] at h
      exact (Outcome.returned.inj h).2.symm

/-- **The table behind `daemonize`**: `open` got number 0, which was closed again; 1 and 2 are open on `/dev/null`, and
    what the loop did not reach is open as it was. -/
theorem daemonize_get {null : α} {flag : Int} {fork₁ fork₂ : Fork} {chdir : Bool} {t t' : Table α}
    (h : daemonize null flag fork₁ fork₂ chdir true t = .returned 0 t') (fd : Nat) :
    get t' fd = if fd = 0 then none else if fd ≤ 2 then some null else if fd < MAXFD then none else get t fd := by
  rw [daemonize_eq h, get_close, standard_get, closeLoop_get, Nat.zero_add]
  simp only [Nat.zero_le, true_and]

/-- The three standard descriptors are open on `/dev/null`, and no other is open. -/
def Standard (null : α) (t : Table α) : Prop := ∀ fd, get t fd = if fd ≤ 2 then some null else none

/-- **No daemon has them**: whatever is open at entry, where `daemonize` returns 0 and `/dev/null` could be opened,
    descriptor 0 is closed. -/
theorem daemonize_never {null : α} {flag : Int} {fork₁ fork₂ : Fork} {chdir : Bool} {t t' : Table α}
    (h : daemonize null flag fork₁ fork₂ chdir true t = .returned 0 t') : get t' 0 = none ∧ ¬ Standard null t' := by
  have hzero : get t' 0 = none := by
    rw [daemonize_get h, if_pos rfl]
  refine ⟨hzero, ?_⟩
  intro hstandard
  rw [hstandard 0, if_pos (by decide)] at hzero
  exact absurd hzero (by simp)

/-- What the run from a terminal on 0, 1 and 2 leaves. -/
def terminalTable : Table Nat := none :: some 0 :: some 0 :: List.replicate 61 none

theorem daemonize_never_terminal : get terminalTable 0 = none ∧ ¬ Standard 0 terminalTable :=
  @daemonize_never Nat 0 1 .child .parent true [some 7, some 7, some 7] terminalTable (by decide)

/-- That run: descriptor 0 is closed behind it. -/
theorem daemonize_terminal :
    daemonize 0 1 .child .parent true true [some 7, some 7, some 7] = .returned 0 terminalTable ∧
      get terminalTable 0 = none := by
  decide

end Daemonize
end Socket
end CSamples
