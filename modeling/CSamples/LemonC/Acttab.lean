import CSamples.Table.Comb
import Mathlib.Data.List.Perm.Subperm

/-!
# `LemonC.Acttab` — how `lemon.c` packs the action table

The `acttab` module: the rows of all states are laid over one table `aAction`, each at an offset of its own, and an
offset is used twice only for rows that are the same.

## Contents
- **Model.** `acttabAction` collects a row, `acttabInsert` places it: `isDuplicate` and `isHole` are the two tests that
  the search for a place makes. A write outside the allocated table is `none`.
- **Spec.** `cells`, what the table says as a comb; `acttabInsert_spec`, one row; `insertRows_get`, all of them.
- **Where the search ends.** The search for a hole stops before the end of what is allocated and takes that place
  untested if it has found nothing (`Found` says that it has). `allFound_of_le` says when that cannot happen.
-/

namespace CSamples
namespace LemonC

open Comb

/-! ## The table -/

/-- `struct lookahead_action`: the lookahead and the action. -/
abbrev LookaheadAction := Int × Int

/-- What unused slots hold. -/
def unused : LookaheadAction := (-1, -1)

/-- `struct acttab`. The lists have `nActionAlloc` and `nLookahead` elements. -/
structure Acttab where
  nAction     : Nat
  aAction     : List LookaheadAction
  aLookahead  : List LookaheadAction
  mnLookahead : Int
  mnAction    : Int
  mxLookahead : Int
  nterminal   : Nat
  nsymbol     : Nat
  deriving DecidableEq

/-- `acttab_alloc` -/
def acttabAlloc (nsymbol nterminal : Nat) : Acttab := ⟨0, [], [], 0, 0, 0, nterminal, nsymbol⟩

/-- `p->aAction[k]` -/
def Acttab.slot (p : Acttab) (k : Int) : LookaheadAction :=
  if 0 ≤ k then p.aAction.getD k.toNat unused else unused

/-- `acttab_action` -/
def acttabAction (p : Acttab) (lookahead action : Int) : Acttab :=
  let p :=
    if p.aLookahead = [] then { p with mxLookahead := lookahead, mnLookahead := lookahead, mnAction := action }
    else
      let p := if p.mxLookahead < lookahead then { p with mxLookahead := lookahead } else p
      if p.mnLookahead > lookahead then { p with mnLookahead := lookahead, mnAction := action } else p
  { p with aLookahead := p.aLookahead ++ [(lookahead, action)] }

/-- The table with room for another row. -/
def Acttab.grow (p : Acttab) : Acttab :=
  let n := p.nsymbol + 1
  if p.nAction + n ≥ p.aAction.length then
    { p with aAction := p.aAction ++ List.replicate (p.nAction + n + 20) unused }
  else p

/-- Where the entry `e` of the row goes when `mnLookahead` goes to `i`. -/
def Acttab.position (p : Acttab) (i : Int) (e : LookaheadAction) : Int := e.1 - p.mnLookahead + i

/-- The row is already there, with `mnLookahead` at `i`, and nothing else is at that offset. -/
def Acttab.isDuplicate (p : Acttab) (i : Int) : Bool :=
  (p.slot i).1 = p.mnLookahead && (p.slot i).2 = p.mnAction &&
  p.aLookahead.all (fun e =>
    0 ≤ p.position i e && p.position i e < p.nAction && decide (e = p.slot (p.position i e))) &&
  (List.range p.nAction).countP (fun (j : Nat) => 0 ≤ (p.slot j).1 && (p.slot j).1 = j + p.mnLookahead - i) =
    p.aLookahead.length

/-- There is room for the row, with `mnLookahead` at `i`, and nothing else is at that offset. The last test takes the
    mark of an unused slot for a lookahead. -/
def Acttab.isHole (p : Acttab) (i : Int) : Bool :=
  (p.slot i).1 < 0 && p.aLookahead.all (fun e => 0 ≤ p.position i e && (p.slot (p.position i e)).1 < 0) &&
  (List.range p.nAction).all (fun (j : Nat) => (p.slot j).1 ≠ j + p.mnLookahead - i)

/-- `for(i=n-1; i>=lo; i--)` until `found`. -/
def searchDown (found : Int → Bool) (lo : Int) : Nat → Option Int
  | 0   => none
  | n+1 => if (n : Int) < lo then none else if found n then some n else searchDown found lo n

/-- `for(; i<hi; i++)` until `found`, with `n` places in front of `hi`: where it stops. -/
def searchUp (found : Int → Bool) : Nat → Int → Int
  | 0, i   => i
  | n+1, i => if found i then i else searchUp found n (i + 1)

/-- The index at which `mnLookahead` is inserted. -/
def Acttab.place (p : Acttab) (makeItSafe : Bool) : Int :=
  let lo := if makeItSafe then p.mnLookahead else 0
  match searchDown p.isDuplicate lo p.nAction with
  | some i => i
  | none   => searchUp p.isHole (p.aAction.length - p.mxLookahead - lo).toNat lo

/-- Write the row. -/
def Acttab.store (i : Int) : List LookaheadAction → Acttab → Option Acttab
  | [], p      => some p
  | e :: es, p =>
      let k := p.position i e
      if 0 ≤ k ∧ k < p.aAction.length then
        Acttab.store i es { p with aAction := p.aAction.set k.toNat e, nAction := max p.nAction (k.toNat + 1) }
      else none

/-- The end of `acttab_insert`. -/
def Acttab.finish (p : Acttab) (makeItSafe : Bool) (i : Int) : Acttab :=
  { p with
    nAction    := if makeItSafe ∧ i + p.nterminal ≥ p.nAction then (i + p.nterminal + 1).toNat else p.nAction
    aLookahead := [] }

/-- `acttab_insert`: the table and the offset of the row. -/
def acttabInsert (p : Acttab) (makeItSafe : Bool) : Option (Acttab × Int) :=
  let p := p.grow
  let i := p.place makeItSafe
  (p.store i p.aLookahead).map (fun q => (q.finish makeItSafe i, i - q.mnLookahead))

/-- `n`, without the unused slots at its end. -/
def Acttab.trim (p : Acttab) : Nat → Nat
  | 0   => 0
  | n+1 => if (p.slot n).1 < 0 then p.trim n else n + 1

/-- `acttab_action_size` -/
def acttabActionSize (p : Acttab) : Nat := p.trim p.nAction

/-! ## What the table says -/

/-- The used part of the table, as a comb. -/
def Acttab.cells (p : Acttab) : Cells Int :=
  fun k => if 0 ≤ k ∧ k < p.nAction ∧ 0 ≤ (p.slot k).1 then some (p.slot k) else none

/-- Nothing is written behind the used part, and a slot holds a lookahead or is unused. -/
structure Acttab.Wf (p : Acttab) : Prop where
  rest : ∀ k : Int, p.nAction ≤ k → p.slot k = unused
  ge   : ∀ k : Int, -1 ≤ (p.slot k).1

/-- The row that has been collected. -/
structure Acttab.Pending (p : Acttab) (row : List LookaheadAction) : Prop where
  aLookahead : p.aLookahead = row
  ne_nil     : row ≠ []
  nodup      : row.Nodup
  mn_nonneg  : 0 ≤ p.mnLookahead
  mn_le      : ∀ e ∈ row, p.mnLookahead ≤ e.1
  le_mx      : ∀ e ∈ row, e.1 ≤ p.mxLookahead
  mx_lt      : p.mxLookahead < p.nsymbol

variable {p q : Acttab} {row : List LookaheadAction} {makeItSafe : Bool}

theorem Acttab.cells_eq_some {k : Int} {e : LookaheadAction} :
    p.cells k = some e ↔ 0 ≤ k ∧ k < p.nAction ∧ 0 ≤ e.1 ∧ p.slot k = e := by
  unfold cells
  constructor
  · intro h
    split at h
    · next hk =>
        obtain rfl := Option.some.inj h
        exact ⟨hk.1, hk.2.1, hk.2.2, rfl⟩
    · exact absurd h (by simp)
  · rintro ⟨h0, hn, he, rfl⟩
    rw [if_pos ⟨h0, hn, he⟩]

theorem Acttab.cells_eq_none {k : Int} : p.cells k = none ↔ (0 ≤ k → k < p.nAction → (p.slot k).1 < 0) := by
  unfold cells
  constructor
  · intro h h0 hn
    by_contra hge
    rw [if_pos ⟨h0, hn, by omega⟩] at h
    exact absurd h (by simp)
  · intro h
    rw [if_neg]
    rintro ⟨h0, hn, hge⟩
    have := h h0 hn
    omega

/-! ## Searching -/

theorem searchDown_some {found : Int → Bool} {lo : Int} {n : Nat} {i : Int} (h : searchDown found lo n = some i) :
    lo ≤ i ∧ 0 ≤ i ∧ i < n ∧ found i = true := by
  induction n with
  | zero => exact absurd h (by simp [searchDown])
  | succ n ih =>
      rw [searchDown] at h
      split at h
      · exact absurd h (by simp)
      · next hlo =>
          split at h
          · next hfound =>
              obtain rfl := Option.some.inj h
              refine ⟨by omega, by omega, by omega, hfound⟩
          · obtain ⟨h1, h2, h3, h4⟩ := ih h
            exact ⟨h1, h2, by omega, h4⟩

/-- The search ends where it has found something, or where it runs out of places. -/
theorem searchUp_cases (found : Int → Bool) (n : Nat) (i : Int) :
    i ≤ searchUp found n i ∧
      ((searchUp found n i < i + n ∧ found (searchUp found n i) = true) ∨ searchUp found n i = i + n) := by
  induction n generalizing i with
  | zero => exact ⟨Int.le_refl _, .inr (by simp [searchUp])⟩
  | succ n ih =>
      rw [searchUp]
      split
      · next hfound => exact ⟨Int.le_refl _, .inl ⟨by omega, hfound⟩⟩
      · obtain ⟨hle, ⟨hlt, hfound⟩ | hend⟩ := ih (i + 1)
        · exact ⟨by omega, .inl ⟨by omega, hfound⟩⟩
        · exact ⟨by omega, .inr (by omega)⟩

/-- It does not go past anything. -/
theorem searchUp_le {found : Int → Bool} {n : Nat} {i j : Int} (hi : i ≤ j) (hj : j < i + n) (h : found j = true) :
    searchUp found n i ≤ j := by
  induction n generalizing i with
  | zero =>
      exfalso
      omega
  | succ n ih =>
      rw [searchUp]
      split
      · exact hi
      · next hno =>
          by_cases hij : i = j
          · subst hij
            exact absurd h hno
          · exact ih (by omega) (by omega)

/-! ## Growing -/

@[simp] theorem Acttab.grow_nAction (p : Acttab) : p.grow.nAction = p.nAction := by
  unfold grow
  simp only
  split <;> rfl

@[simp] theorem Acttab.grow_aLookahead (p : Acttab) : p.grow.aLookahead = p.aLookahead := by
  unfold grow
  simp only
  split <;> rfl

@[simp] theorem Acttab.grow_mnLookahead (p : Acttab) : p.grow.mnLookahead = p.mnLookahead := by
  unfold grow
  simp only
  split <;> rfl

@[simp] theorem Acttab.grow_mxLookahead (p : Acttab) : p.grow.mxLookahead = p.mxLookahead := by
  unfold grow
  simp only
  split <;> rfl

@[simp] theorem Acttab.grow_nsymbol (p : Acttab) : p.grow.nsymbol = p.nsymbol := by
  unfold grow
  simp only
  split <;> rfl

@[simp] theorem Acttab.grow_nterminal (p : Acttab) : p.grow.nterminal = p.nterminal := by
  unfold grow
  simp only
  split <;> rfl

/-- New slots are unused, as everything outside the table is taken to be. -/
@[simp] theorem Acttab.slot_grow (p : Acttab) (k : Int) : p.grow.slot k = p.slot k := by
  unfold slot grow
  simp only
  split
  · split
    · simp only [List.getD_eq_getElem?_getD]
      by_cases hlt : k.toNat < p.aAction.length
      · rw [List.getElem?_append_left hlt]
      · rw [List.getElem?_append_right (by omega), List.getElem?_replicate, List.getElem?_eq_none (by omega)]
        split <;> rfl
    · rfl
  · rfl

/-- After growing there is room behind the used part. -/
theorem Acttab.grow_room (p : Acttab) : p.grow.nAction + p.grow.nsymbol + 1 < p.grow.aAction.length := by
  unfold grow
  simp only
  split
  · simp only [List.length_append, List.length_replicate]
    omega
  · omega

theorem Acttab.cells_grow (p : Acttab) : p.grow.cells = p.cells := by
  funext k
  unfold cells
  simp only [slot_grow, grow_nAction]

theorem Acttab.Wf.grow (h : p.Wf) : p.grow.Wf :=
  ⟨fun k hk => by
      rw [slot_grow]
      exact h.rest k (by simpa using hk),
    fun k => by
      rw [slot_grow]
      exact h.ge k⟩

theorem Acttab.Pending.grow (h : p.Pending row) : p.grow.Pending row := by
  refine ⟨?_, h.ne_nil, h.nodup, ?_, ?_, ?_, ?_⟩
  · simpa using h.aLookahead
  · simpa using h.mn_nonneg
  · rw [grow_mnLookahead]
    exact h.mn_le
  · rw [grow_mxLookahead]
    exact h.le_mx
  · simpa using h.mx_lt

/-! ## Placing -/

/-- The place was found by one of the two searches: the search for a hole did not run to its end. -/
def Acttab.Found (p : Acttab) (makeItSafe : Bool) : Prop :=
  p.grow.place makeItSafe + p.mxLookahead < p.grow.aAction.length

/-- A place that was found is a duplicate or a hole. -/
theorem Acttab.place_cases (hfound : p.place makeItSafe + p.mxLookahead < p.aAction.length) :
    (if makeItSafe then p.mnLookahead else 0) ≤ p.place makeItSafe ∧
      (p.isDuplicate (p.place makeItSafe) = true ∨ p.isHole (p.place makeItSafe) = true) := by
  unfold place at hfound ⊢
  simp only at hfound ⊢
  generalize (if makeItSafe = true then p.mnLookahead else 0) = lo at hfound ⊢
  cases hdown : searchDown p.isDuplicate lo p.nAction with
  | some i =>
      obtain ⟨hlo, -, -, hdup⟩ := searchDown_some hdown
      exact ⟨hlo, .inl hdup⟩
  | none =>
      rw [hdown] at hfound
      obtain ⟨hle, ⟨-, hhole⟩ | hend⟩ := searchUp_cases p.isHole (p.aAction.length - p.mxLookahead - lo).toNat lo
      · exact ⟨hle, .inr hhole⟩
      · simp only at hfound
        omega

theorem Acttab.isDuplicate_iff {i : Int} : p.isDuplicate i = true ↔
    (p.slot i).1 = p.mnLookahead ∧ (p.slot i).2 = p.mnAction ∧
    (∀ e ∈ p.aLookahead, 0 ≤ p.position i e ∧ p.position i e < p.nAction ∧ p.slot (p.position i e) = e) ∧
    (List.range p.nAction).countP (fun (j : Nat) => 0 ≤ (p.slot j).1 && (p.slot j).1 = j + p.mnLookahead - i) =
      p.aLookahead.length := by
  simp only [isDuplicate, Bool.and_eq_true, decide_eq_true_eq, List.all_eq_true, and_assoc]
  refine and_congr_right fun _ => and_congr_right fun _ => and_congr_left fun _ => ?_
  exact forall₂_congr fun e _ => and_congr_right fun _ => and_congr_right fun _ => eq_comm

theorem Acttab.isHole_iff {i : Int} : p.isHole i = true ↔
    (p.slot i).1 < 0 ∧ (∀ e ∈ p.aLookahead, 0 ≤ p.position i e ∧ (p.slot (p.position i e)).1 < 0) ∧
    ∀ j < p.nAction, (p.slot j).1 ≠ j + p.mnLookahead - i := by
  simp [isHole, and_assoc]

/-- At the offset of a duplicate, exactly the row is read. -/
theorem Acttab.get_of_isDuplicate (hpend : p.Pending row) {i : Int} (hdup : p.isDuplicate i = true) :
    (∀ e ∈ row, p.cells (i - p.mnLookahead + e.1) = some e) ∧
      ∀ x, get p.cells (i - p.mnLookahead) x = rowGet row x := by
  obtain ⟨-, -, hall, hcount⟩ := isDuplicate_iff.mp hdup
  rw [hpend.aLookahead] at hall hcount
  have hcell : ∀ e ∈ row, p.cells (i - p.mnLookahead + e.1) = some e := by
    intro e he
    obtain ⟨h0, hlt, hslot⟩ := hall e he
    rw [position, show e.1 - p.mnLookahead + i = i - p.mnLookahead + e.1 by omega] at h0 hlt hslot
    have hmn := hpend.mn_le e he
    have h0' := hpend.mn_nonneg
    exact cells_eq_some.mpr ⟨h0, hlt, by omega, hslot⟩
  refine ⟨hcell, fun x => ?_⟩
  -- the slots that match at this offset are as many as the entries, so they are the entries' slots
  have hslots : ∀ j < p.nAction, 0 ≤ (p.slot j).1 → (p.slot j).1 = j + p.mnLookahead - i → p.slot j ∈ row := by
    rw [List.countP_eq_length_filter] at hcount
    have hinj : (row.map (fun e => (p.position i e).toNat)).Nodup := by
      refine hpend.nodup.map_on fun e he e' he' heq => ?_
      obtain ⟨h0, -, hslot⟩ := hall e he
      obtain ⟨h0', -, hslot'⟩ := hall e' he'
      have hpos : p.position i e = p.position i e' := by omega
      rw [← hslot, ← hslot', hpos]
    have hsub : row.map (fun e => (p.position i e).toNat) ⊆
        (List.range p.nAction).filter (fun (j : Nat) => 0 ≤ (p.slot j).1 && (p.slot j).1 = j + p.mnLookahead - i) := by
      intro j hj
      obtain ⟨e, he, rfl⟩ := List.mem_map.mp hj
      obtain ⟨h0, hlt, hslot⟩ := hall e he
      have hcast : ((p.position i e).toNat : Int) = p.position i e := Int.toNat_of_nonneg h0
      have hmn := hpend.mn_le e he
      have h0' := hpend.mn_nonneg
      refine List.mem_filter.mpr ⟨List.mem_range.mpr (by omega), ?_⟩
      rw [hcast, hslot, Bool.and_eq_true, decide_eq_true_eq, decide_eq_true_eq]
      unfold position
      omega
    have hperm := (hinj.subperm hsub).perm_of_length_le (Nat.le_of_eq (by rw [hcount, List.length_map]))
    intro j hj h0 hmatch
    have hmem := hperm.mem_iff.mpr (List.mem_filter.mpr ⟨List.mem_range.mpr hj, by
      rw [Bool.and_eq_true, decide_eq_true_eq, decide_eq_true_eq]
      exact ⟨h0, hmatch⟩⟩)
    obtain ⟨e, he, hej⟩ := List.mem_map.mp hmem
    obtain ⟨h0, -, hslot⟩ := hall e he
    rw [← hej, Int.toNat_of_nonneg h0, hslot]
    exact he
  have hread : ∀ a, get p.cells (i - p.mnLookahead) x = some a ↔ (x, a) ∈ row := by
    intro a
    rw [get_eq_some]
    constructor
    · intro h
      obtain ⟨h0, hlt, hx, hslot⟩ := cells_eq_some.mp h
      have hcast : ((i - p.mnLookahead + x).toNat : Int) = i - p.mnLookahead + x := Int.toNat_of_nonneg h0
      have hmem := hslots (i - p.mnLookahead + x).toNat (by omega) (by rw [hcast, hslot]; exact hx)
        (by rw [hcast, hslot]; simp only; omega)
      rwa [hcast, hslot] at hmem
    · exact fun hmem => hcell _ hmem
  cases hrow : rowGet row x with
  | some a => exact (hread a).mpr (mem_of_rowGet hrow)
  | none =>
      cases hget : get p.cells (i - p.mnLookahead) x with
      | none => rfl
      | some a => exact absurd rfl (rowGet_eq_none.mp hrow _ ((hread a).mp hget))

/-- At the offset of a hole, nothing is read, and the slots of the row are free. -/
theorem Acttab.get_of_isHole (hpend : p.Pending row) {i : Int} (hhole : p.isHole i = true) :
    (∀ e ∈ row, 0 ≤ p.position i e ∧ p.cells (i - p.mnLookahead + e.1) = none) ∧
      ∀ x, get p.cells (i - p.mnLookahead) x = none := by
  obtain ⟨-, hall, hno⟩ := isHole_iff.mp hhole
  rw [hpend.aLookahead] at hall
  refine ⟨fun e he => ?_, fun x => ?_⟩
  · obtain ⟨h0, hfree⟩ := hall e he
    refine ⟨h0, cells_eq_none.mpr fun _ _ => ?_⟩
    rwa [position, show e.1 - p.mnLookahead + i = i - p.mnLookahead + e.1 by omega] at hfree
  · cases hget : get p.cells (i - p.mnLookahead) x with
    | none => rfl
    | some a =>
        obtain ⟨h0, hlt, hx, hslot⟩ := cells_eq_some.mp (get_eq_some.mp hget)
        have hcast : ((i - p.mnLookahead + x).toNat : Int) = i - p.mnLookahead + x := Int.toNat_of_nonneg h0
        refine absurd ?_ (hno (i - p.mnLookahead + x).toNat (by omega))
        rw [hcast, hslot]
        simp only
        omega

/-! ## Writing -/

theorem Acttab.slot_set {k : Int} (h0 : 0 ≤ k) (hk : k < p.aAction.length) (e : LookaheadAction) (n : Nat) (j : Int) :
    ({ p with aAction := p.aAction.set k.toNat e, nAction := n } : Acttab).slot j = if j = k then e else p.slot j := by
  unfold slot
  by_cases hj : 0 ≤ j
  · simp only [if_pos hj, List.getD_eq_getElem?_getD, List.getElem?_set]
    by_cases hjk : j = k
    · subst hjk
      rw [if_pos rfl, if_pos rfl, if_pos (by omega)]
      rfl
    · rw [if_neg (by omega), if_neg hjk]
  · rw [if_neg hj, if_neg hj, if_neg (by omega)]

/-- What is the same after a row has been written. -/
structure Acttab.SameRow (p q : Acttab) : Prop where
  aLookahead  : q.aLookahead = p.aLookahead
  mnLookahead : q.mnLookahead = p.mnLookahead
  mxLookahead : q.mxLookahead = p.mxLookahead
  nsymbol     : q.nsymbol = p.nsymbol
  nterminal   : q.nterminal = p.nterminal
  length      : q.aAction.length = p.aAction.length
  nAction_le  : p.nAction ≤ q.nAction

/-- **The row is written**: the comb with the row laid over it at its offset. -/
theorem Acttab.store_eq (hwf : p.Wf) {i : Int} (hpos : ∀ e ∈ row, 0 ≤ p.position i e ∧ p.position i e < p.aAction.length)
    (hge : ∀ e ∈ row, 0 ≤ e.1) :
    ∃ q, p.store i row = some q ∧ q.Wf ∧ p.SameRow q ∧ q.cells = put (i - p.mnLookahead) row p.cells ∧
      ∀ e ∈ row, p.position i e < q.nAction := by
  induction row generalizing p with
  | nil =>
      refine ⟨p, rfl, hwf, ⟨rfl, rfl, rfl, rfl, rfl, rfl, Nat.le_refl _⟩, rfl, fun e he => absurd he List.not_mem_nil⟩
  | cons e row ih =>
      obtain ⟨h0, hlt⟩ := hpos e List.mem_cons_self
      have he := hge e List.mem_cons_self
      obtain ⟨p₁, hp₁⟩ : ∃ p₁ : Acttab, p₁ = { p with
          aAction := p.aAction.set (p.position i e).toNat e
          nAction := max p.nAction ((p.position i e).toNat + 1) } := ⟨_, rfl⟩
      have hslot : ∀ j, p₁.slot j = if j = p.position i e then e else p.slot j := by
        intro j
        rw [hp₁]
        exact slot_set h0 hlt e _ j
      have hn : p₁.nAction = max p.nAction ((p.position i e).toNat + 1) := by rw [hp₁]
      have hsame : p.SameRow p₁ := by
        rw [hp₁]
        exact ⟨rfl, rfl, rfl, rfl, rfl, List.length_set, Nat.le_max_left _ _⟩
      have hwf₁ : p₁.Wf := by
        refine ⟨fun k hk => ?_, fun k => ?_⟩
        · rw [hslot, if_neg (by omega)]
          exact hwf.rest k (by omega)
        · rw [hslot]
          split
          · omega
          · exact hwf.ge k
      have hpos₁ : ∀ e', p₁.position i e' = p.position i e' := by
        intro e'
        unfold position
        rw [hsame.mnLookahead]
      have hcells₁ : p₁.cells = Function.update p.cells (i - p.mnLookahead + e.1) (some e) := by
        have hk : i - p.mnLookahead + e.1 = p.position i e := by
          unfold position
          omega
        rw [hk]
        funext k
        by_cases hkk : k = p.position i e
        · subst hkk
          rw [Function.update_self]
          exact cells_eq_some.mpr ⟨h0, by omega, he, by rw [hslot, if_pos rfl]⟩
        · rw [Function.update_of_ne hkk]
          unfold cells
          rw [hslot, if_neg hkk]
          by_cases hold : 0 ≤ k ∧ k < p.nAction ∧ 0 ≤ (p.slot k).1
          · rw [if_pos hold, if_pos ⟨hold.1, by omega, hold.2.2⟩]
          · rw [if_neg hold, if_neg]
            rintro ⟨hk0, -, hk2⟩
            by_cases hkn : k < p.nAction
            · exact hold ⟨hk0, hkn, hk2⟩
            · rw [hwf.rest k (by omega)] at hk2
              exact absurd hk2 (by decide)
      obtain ⟨q, hrun, hq, hsame', hcells, hlast⟩ := ih hwf₁
        (fun e' he' => by
          rw [hpos₁, hsame.length]
          exact hpos e' (List.mem_cons_of_mem e he'))
        (fun e' he' => hge e' (List.mem_cons_of_mem e he'))
      refine ⟨q, ?_, hq, ⟨hsame'.aLookahead.trans hsame.aLookahead, hsame'.mnLookahead.trans hsame.mnLookahead,
        hsame'.mxLookahead.trans hsame.mxLookahead, hsame'.nsymbol.trans hsame.nsymbol,
        hsame'.nterminal.trans hsame.nterminal, hsame'.length.trans hsame.length,
        Nat.le_trans hsame.nAction_le hsame'.nAction_le⟩, ?_, fun e' he' => ?_⟩
      · rw [store, if_pos ⟨h0, hlt⟩, ← hp₁]
        exact hrun
      · rw [hcells, hcells₁, hsame.mnLookahead, put]
      · rcases List.mem_cons.mp he' with rfl | he'
        · have hle := hsame'.nAction_le
          omega
        · rw [← hpos₁]
          exact hlast e' he'

/-- More of the unused part may be counted as used. -/
theorem Acttab.finish_spec (hwf : p.Wf) (makeItSafe : Bool) (i : Int) :
    (p.finish makeItSafe i).Wf ∧ (p.finish makeItSafe i).cells = p.cells ∧
      p.nAction ≤ (p.finish makeItSafe i).nAction ∧
      (makeItSafe = true → i + p.nterminal < (p.finish makeItSafe i).nAction) := by
  have hslot : ∀ k, (p.finish makeItSafe i).slot k = p.slot k := fun _ => rfl
  have hle : p.nAction ≤ (p.finish makeItSafe i).nAction := by
    unfold finish
    simp only
    split
    · next h =>
        obtain ⟨-, h⟩ := h
        omega
    · exact Nat.le_refl _
  refine ⟨⟨fun k hk => ?_, fun k => ?_⟩, ?_, hle, fun hsafe => ?_⟩
  · rw [hslot]
    exact hwf.rest k (by omega)
  · rw [hslot]
    exact hwf.ge k
  · funext k
    unfold cells
    rw [hslot]
    by_cases hk : 0 ≤ k ∧ k < p.nAction ∧ 0 ≤ (p.slot k).1
    · rw [if_pos hk, if_pos ⟨hk.1, by omega, hk.2.2⟩]
    · rw [if_neg hk, if_neg]
      rintro ⟨h0, -, hge⟩
      by_cases hkn : k < p.nAction
      · exact hk ⟨h0, hkn, hge⟩
      · rw [hwf.rest k (by omega)] at hge
        exact absurd hge (by decide)
  · unfold finish
    simp only [hsafe, true_and]
    split
    · omega
    · omega

/-! ## One row -/

/-- **One row is placed.** It is read back at the offset returned. No other offset reads anything new, and at this one
    either nothing was to be read before or the row itself. -/
theorem acttabInsert_spec (hwf : p.Wf) (hpend : p.Pending row) (hfound : p.Found makeItSafe) :
    ∃ q o, acttabInsert p makeItSafe = some (q, o) ∧ q.Wf ∧ q.aLookahead = [] ∧ q.nsymbol = p.nsymbol ∧
      q.nterminal = p.nterminal ∧ p.nAction ≤ q.nAction ∧
      (∀ x, get q.cells o x = rowGet row x) ∧ (∀ o' ≠ o, ∀ x, get q.cells o' x = get p.cells o' x) ∧
      ((∀ x, get p.cells o x = none) ∨ ∀ x, get p.cells o x = rowGet row x) ∧
      (makeItSafe = true → 0 ≤ o ∧ o + p.nterminal < q.nAction) := by
  have hroom := p.grow_room
  have hpend' := hpend.grow
  have hwf' := hwf.grow
  obtain ⟨hlo, hplace⟩ := Acttab.place_cases (p := p.grow) (by
    rw [Acttab.grow_mxLookahead]
    exact hfound)
  have hge : ∀ e ∈ row, 0 ≤ e.1 := fun e he => Int.le_trans hpend.mn_nonneg (hpend.mn_le e he)
  have hfit : p.grow.place makeItSafe + p.mxLookahead < p.grow.aAction.length := hfound
  generalize hi : p.grow.place makeItSafe = i at hlo hplace hfit
  have hmn : p.grow.mnLookahead = p.mnLookahead := p.grow_mnLookahead
  have hmn0 := hpend.mn_nonneg
  have hi0 : 0 ≤ i := by
    cases makeItSafe with
    | true =>
        rw [if_pos rfl, hmn] at hlo
        omega
    | false =>
        rw [if_neg (by decide)] at hlo
        exact hlo
  have hpos : ∀ e ∈ row, 0 ≤ p.grow.position i e ∧ p.grow.position i e < p.grow.aAction.length := by
    intro e he
    have h1 := hpend.mn_le e he
    have h2 := hpend.le_mx e he
    unfold Acttab.position
    omega
  obtain ⟨q, hrun, hq, hsame, hcells, -⟩ := Acttab.store_eq hwf' hpos hge
  obtain ⟨hfwf, hfcells, hfle, hfsafe⟩ := Acttab.finish_spec hq makeItSafe i
  have hqmn : q.mnLookahead = p.mnLookahead := hsame.mnLookahead.trans hmn
  refine ⟨q.finish makeItSafe i, i - p.mnLookahead, ?_, hfwf, rfl, ?_, ?_, ?_, ?_, ?_, ?_, fun hsafe => ⟨?_, ?_⟩⟩
  · unfold acttabInsert
    simp only [hi, hpend'.aLookahead, hrun, Option.map_some, hqmn]
  · exact hsame.nsymbol.trans p.grow_nsymbol
  · exact hsame.nterminal.trans p.grow_nterminal
  · have := hsame.nAction_le
    rw [Acttab.grow_nAction] at this
    omega
  · rw [hfcells, hcells, hmn]
    rcases hplace with hdup | hhole
    · obtain ⟨hcell, hread⟩ := Acttab.get_of_isDuplicate hpend' hdup
      rw [hmn] at hcell hread
      rw [put_of_same hcell]
      exact hread
    · obtain ⟨-, hnone⟩ := Acttab.get_of_isHole hpend' hhole
      rw [hmn] at hnone
      exact get_put_self hnone row
  · intro o' ho' x
    rw [hfcells, hcells, hmn, Acttab.cells_grow]
    rcases hplace with hdup | hhole
    · obtain ⟨hcell, -⟩ := Acttab.get_of_isDuplicate hpend' hdup
      rw [hmn, Acttab.cells_grow] at hcell
      rw [put_of_same hcell]
    · obtain ⟨hfree, -⟩ := Acttab.get_of_isHole hpend' hhole
      rw [hmn, Acttab.cells_grow] at hfree
      exact get_put_other ho' (fun e he => (hfree e he).2) x
  · rcases hplace with hdup | hhole
    · obtain ⟨-, hread⟩ := Acttab.get_of_isDuplicate hpend' hdup
      rw [hmn, Acttab.cells_grow] at hread
      exact .inr hread
    · obtain ⟨-, hnone⟩ := Acttab.get_of_isHole hpend' hhole
      rw [hmn, Acttab.cells_grow] at hnone
      exact .inl hnone
  · rw [if_pos hsafe, hmn] at hlo
    omega
  · have := hfsafe hsafe
    have hnt := hsame.nterminal.trans p.grow_nterminal
    omega

/-- **When the search cannot fail**: the smallest and the largest lookahead of the row are not more than `nsymbol`
    together. Then there is a hole behind the used part, at the latest. -/
theorem Acttab.found_of_le (hwf : p.Wf) (hpend : p.Pending row) (h : p.mnLookahead + p.mxLookahead ≤ p.nsymbol) :
    p.Found makeItSafe := by
  have hroom := p.grow_room
  have hpend' := hpend.grow
  have hwf' := hwf.grow
  have hmn0 := hpend.mn_nonneg
  obtain ⟨e₀, he₀⟩ := List.exists_mem_of_ne_nil _ hpend.ne_nil
  have hmx : p.mnLookahead ≤ p.mxLookahead := Int.le_trans (hpend.mn_le e₀ he₀) (hpend.le_mx e₀ he₀)
  unfold Found place
  simp only
  have hlo : (if makeItSafe = true then p.grow.mnLookahead else 0) ≤ p.mnLookahead := by
    rw [grow_mnLookahead]
    split <;> omega
  generalize (if makeItSafe = true then p.grow.mnLookahead else 0) = lo at hlo ⊢
  rw [grow_nAction] at hroom ⊢
  rw [grow_nsymbol] at hroom
  cases hdown : searchDown p.grow.isDuplicate lo p.nAction with
  | some i =>
      obtain ⟨-, -, hlt, -⟩ := searchDown_some hdown
      have hns := hpend.mx_lt
      simp only
      omega
  | none =>
      -- the first place that the mark of an unused slot cannot spoil
      have hhole : p.grow.isHole (p.nAction + p.mnLookahead + 1) = true := by
        refine isHole_iff.mpr ⟨?_, fun e he => ?_, fun j hj => ?_⟩
        · rw [hwf'.rest _ (by rw [grow_nAction]; omega)]
          decide
        · rw [hpend'.aLookahead] at he
          have hpos : p.grow.position (p.nAction + p.mnLookahead + 1) e = p.nAction + 1 + e.1 := by
            unfold position
            rw [grow_mnLookahead]
            omega
          have hmn := hpend.mn_le e he
          rw [hpos, hwf'.rest _ (by rw [grow_nAction]; omega)]
          exact ⟨by omega, by decide⟩
        · have := hwf'.ge j
          rw [grow_nAction] at hj
          rw [grow_mnLookahead]
          omega
      rw [grow_mxLookahead]
      simp only
      have hle := searchUp_le (n := (p.grow.aAction.length - p.mxLookahead - lo).toNat) (i := lo)
        (by omega) (by omega) hhole
      omega

/-! ## All rows -/

/-- The calls of `acttab_action` for a row. -/
def acttabActions (row : List LookaheadAction) (p : Acttab) : Acttab :=
  row.foldl (fun p e => acttabAction p e.1 e.2) p

/-- The rows in the order of `ReportTable`, each with its `makeItSafe`: the table and the offsets. -/
def insertRows : List (Bool × List LookaheadAction) → Acttab → Option (Acttab × List Int)
  | [], p      => some (p, [])
  | r :: rs, p =>
      (acttabInsert (acttabActions r.2 p) r.1).bind (fun x => (insertRows rs x.1).map (fun y => (y.1, x.2 :: y.2)))

/-- A place is found for every row. -/
def AllFound : List (Bool × List LookaheadAction) → Acttab → Prop
  | [], _      => True
  | r :: rs, p => (acttabActions r.2 p).Found r.1 ∧ ∀ x, acttabInsert (acttabActions r.2 p) r.1 = some x → AllFound rs x.1

instance (p : Acttab) (makeItSafe : Bool) : Decidable (p.Found makeItSafe) := inferInstanceAs (Decidable (_ < _))

instance AllFound.decidable (rs : List (Bool × List LookaheadAction)) (p : Acttab) : Decidable (AllFound rs p) :=
  match rs with
  | []      => .isTrue trivial
  | r :: rs =>
      match h : acttabInsert (acttabActions r.2 p) r.1 with
      | none   => decidable_of_iff ((acttabActions r.2 p).Found r.1) ⟨fun hr => ⟨hr, fun x hx => by simp [h] at hx⟩, And.left⟩
      | some y =>
          have := AllFound.decidable rs y.1
          decidable_of_iff ((acttabActions r.2 p).Found r.1 ∧ AllFound rs y.1)
            ⟨fun hr => ⟨hr.1, fun x hx => Option.some.inj (h.symm.trans hx) ▸ hr.2⟩, fun hr => ⟨hr.1, hr.2 y h⟩⟩

/-- A row as `ReportTable` makes it: not empty, nothing twice, symbols for lookaheads. -/
def RowOk (nsymbol : Nat) (row : List LookaheadAction) : Prop :=
  row ≠ [] ∧ row.Nodup ∧ ∀ e ∈ row, 0 ≤ e.1 ∧ e.1 < nsymbol

instance (nsymbol : Nat) (row : List LookaheadAction) : Decidable (RowOk nsymbol row) :=
  inferInstanceAs (Decidable (row ≠ [] ∧ row.Nodup ∧ ∀ e ∈ row, 0 ≤ e.1 ∧ e.1 < nsymbol))

/-- What the bounds are while a row is collected. -/
structure Acttab.Collected (p q : Acttab) (row : List LookaheadAction) : Prop where
  aLookahead : q.aLookahead = row
  nAction    : q.nAction = p.nAction
  aAction    : q.aAction = p.aAction
  nsymbol    : q.nsymbol = p.nsymbol
  nterminal  : q.nterminal = p.nterminal
  mn_le      : ∀ e ∈ row, q.mnLookahead ≤ e.1
  le_mx      : ∀ e ∈ row, e.1 ≤ q.mxLookahead
  mn_mem     : row ≠ [] → q.mnLookahead ∈ row.map Prod.fst
  mx_mem     : row ≠ [] → q.mxLookahead ∈ row.map Prod.fst

theorem acttabAction_collected {p q : Acttab} {row : List LookaheadAction} (h : p.Collected q row)
    (lookahead action : Int) :
    p.Collected (acttabAction q lookahead action) (row ++ [(lookahead, action)]) := by
  obtain ⟨h1, h2, h3, h4, h5, hmn, hmx, hmnmem, hmxmem⟩ := h
  unfold acttabAction
  by_cases hrow : row = []
  · subst hrow
    rw [if_pos h1]
    refine ⟨by simp [h1], h2, h3, h4, h5, ?_, ?_, ?_, ?_⟩ <;> simp
  · rw [if_neg (by rw [h1]; exact hrow)]
    simp only
    have hmnmem := hmnmem hrow
    have hmxmem := hmxmem hrow
    by_cases hlt : q.mxLookahead < lookahead
    · have hmnle : ¬ q.mnLookahead > lookahead := by
        obtain ⟨e, he, hfst⟩ := List.mem_map.mp hmnmem
        have := hmx e he
        omega
      rw [if_pos hlt, if_neg hmnle]
      refine ⟨by simp [h1], h2, h3, h4, h5, fun e he => ?_, fun e he => ?_, fun _ => ?_, fun _ => by simp⟩
      · rcases List.mem_append.mp he with he | he
        · exact hmn e he
        · rw [List.mem_singleton.mp he]
          simp only
          omega
      · rcases List.mem_append.mp he with he | he
        · have := hmx e he
          simp only
          omega
        · obtain rfl := List.mem_singleton.mp he
          exact Int.le_refl _
      · rw [List.map_append]
        exact List.mem_append_left _ hmnmem
    · rw [if_neg hlt]
      by_cases hgt : q.mnLookahead > lookahead
      · rw [if_pos hgt]
        refine ⟨by simp [h1], h2, h3, h4, h5, fun e he => ?_, fun e he => ?_, fun _ => by simp, fun _ => ?_⟩
        · rcases List.mem_append.mp he with he | he
          · have := hmn e he
            simp only
            omega
          · obtain rfl := List.mem_singleton.mp he
            exact Int.le_refl _
        · rcases List.mem_append.mp he with he | he
          · exact hmx e he
          · rw [List.mem_singleton.mp he]
            simp only
            omega
        · rw [List.map_append]
          exact List.mem_append_left _ hmxmem
      · rw [if_neg hgt]
        refine ⟨by simp [h1], h2, h3, h4, h5, fun e he => ?_, fun e he => ?_, fun _ => ?_, fun _ => ?_⟩
        · rcases List.mem_append.mp he with he | he
          · exact hmn e he
          · rw [List.mem_singleton.mp he]
            simp only
            omega
        · rcases List.mem_append.mp he with he | he
          · exact hmx e he
          · rw [List.mem_singleton.mp he]
            simp only
            omega
        · rw [List.map_append]
          exact List.mem_append_left _ hmnmem
        · rw [List.map_append]
          exact List.mem_append_left _ hmxmem

theorem acttabActions_collected {p q : Acttab} {row : List LookaheadAction} (h : p.Collected q row)
    (more : List LookaheadAction) : p.Collected (acttabActions more q) (row ++ more) := by
  induction more generalizing q row with
  | nil =>
      rw [List.append_nil]
      exact h
  | cons e more ih =>
      rw [List.append_cons]
      exact ih (acttabAction_collected h e.1 e.2)

/-- Nothing is collected at first. -/
theorem Acttab.collected_nil (hnil : p.aLookahead = []) : p.Collected p [] := by
  refine ⟨hnil, rfl, rfl, rfl, rfl, ?_, ?_, ?_, ?_⟩ <;> simp

/-- The largest lookahead is one of the row. -/
theorem mxLookahead_mem (hnil : p.aLookahead = []) (hne : row ≠ []) :
    (acttabActions row p).mxLookahead ∈ row.map Prod.fst :=
  (acttabActions_collected (Acttab.collected_nil hnil) row).mx_mem hne

/-- A row is collected. -/
theorem pending_acttabActions (hwf : p.Wf) (hnil : p.aLookahead = []) (hrow : RowOk p.nsymbol row) :
    (acttabActions row p).Wf ∧ (acttabActions row p).Pending row ∧ (acttabActions row p).cells = p.cells ∧
      (acttabActions row p).nAction = p.nAction ∧ (acttabActions row p).nsymbol = p.nsymbol ∧
      (acttabActions row p).nterminal = p.nterminal := by
  obtain ⟨hne, hnodup, hkeys⟩ := hrow
  have h := acttabActions_collected (Acttab.collected_nil hnil) row
  rw [List.nil_append] at h
  have hslot : ∀ k, (acttabActions row p).slot k = p.slot k := by
    intro k
    unfold Acttab.slot
    rw [h.aAction]
  refine ⟨⟨fun k hk => ?_, fun k => ?_⟩, ⟨h.aLookahead, hne, hnodup, ?_, h.mn_le, h.le_mx, ?_⟩, ?_, h.nAction,
    h.nsymbol, h.nterminal⟩
  · rw [hslot]
    exact hwf.rest k (h.nAction ▸ hk)
  · rw [hslot]
    exact hwf.ge k
  · obtain ⟨e, he, hfst⟩ := List.mem_map.mp (h.mn_mem hne)
    rw [← hfst]
    exact (hkeys e he).1
  · obtain ⟨e, he, hfst⟩ := List.mem_map.mp (h.mx_mem hne)
    rw [← hfst, h.nsymbol]
    exact (hkeys e he).2
  · funext k
    unfold Acttab.cells
    rw [hslot, h.nAction]

/-- **When a place is found for every row**: each has a lookahead that is not more than `nsymbol` together with any of
    the row. -/
theorem allFound_of_le (rs : List (Bool × List LookaheadAction)) (hwf : p.Wf) (hnil : p.aLookahead = [])
    (hrs : ∀ r ∈ rs, RowOk p.nsymbol r.2) (hle : ∀ r ∈ rs, ∃ e ∈ r.2, ∀ e' ∈ r.2, e.1 + e'.1 ≤ p.nsymbol) :
    AllFound rs p := by
  induction rs generalizing p with
  | nil => exact trivial
  | cons r rs ih =>
      have hrow := hrs r List.mem_cons_self
      obtain ⟨hwf₁, hpend, -, -, hns, -⟩ := pending_acttabActions hwf hnil hrow
      have hfound : (acttabActions r.2 p).Found r.1 := by
        refine Acttab.found_of_le hwf₁ hpend ?_
        obtain ⟨e, he, hall⟩ := hle r List.mem_cons_self
        obtain ⟨e', he', hmx⟩ := List.mem_map.mp (mxLookahead_mem hnil hrow.1)
        have hmn := hpend.mn_le e he
        have hsum := hall e' he'
        rw [hns, ← hmx]
        omega
      refine ⟨hfound, fun x hx => ?_⟩
      obtain ⟨q, o, hrun, hwf₂, hnil₂, hns₂, -⟩ := acttabInsert_spec hwf₁ hpend hfound
      obtain rfl := Option.some.inj (hrun.symm.trans hx)
      have hsame : q.nsymbol = p.nsymbol := hns₂.trans hns
      exact ih hwf₂ hnil₂ (fun r' hr' => hsame ▸ hrs r' (List.mem_cons_of_mem r hr'))
        (fun r' hr' => hsame ▸ hle r' (List.mem_cons_of_mem r hr'))

/-- What a row is promised: it is read back, and a safe one can be read at any terminal. -/
def Placed (p : Acttab) (r : Bool × List LookaheadAction) (o : Int) : Prop :=
  (∀ x, get p.cells o x = rowGet r.2 x) ∧ (r.1 = true → 0 ≤ o ∧ o + p.nterminal < p.nAction)

/-- Rows placed earlier stay, and at the offset of no row nothing new is read. -/
theorem insertRows_placed (rs : List (Bool × List LookaheadAction)) (hwf : p.Wf) (hnil : p.aLookahead = [])
    (hrs : ∀ r ∈ rs, RowOk p.nsymbol r.2) (hfound : AllFound rs p) :
    ∃ q os, insertRows rs p = some (q, os) ∧ List.Forall₂ (Placed q) rs os ∧ q.nterminal = p.nterminal ∧
      (∀ r o, r.2 ≠ [] → Placed p r o → Placed q r o) ∧ ∀ o ∉ os, ∀ x, get q.cells o x = get p.cells o x := by
  induction rs generalizing p with
  | nil => exact ⟨p, [], rfl, .nil, rfl, fun _ _ _ h => h, fun _ _ _ => rfl⟩
  | cons r rs ih =>
      obtain ⟨hr, hrest⟩ := hfound
      obtain ⟨hwf₁, hpend, hcells, hn, hns, hnt⟩ := pending_acttabActions hwf hnil (hrs r List.mem_cons_self)
      obtain ⟨p₁, o, hrun, hwf₂, hnil₂, hns₂, hnt₂, hle, hself, hother, hbefore, hsafe⟩ :=
        acttabInsert_spec hwf₁ hpend hr
      have hkeep : ∀ r' o', r'.2 ≠ [] → Placed p r' o' → Placed p₁ r' o' := by
        rintro r' o' hne ⟨hread, hbound⟩
        refine ⟨fun x => ?_, fun h => ?_⟩
        · by_cases ho : o' = o
          · subst ho
            rw [hself]
            rcases hbefore with hnone | hsame
            · -- an offset with a row is not free
              obtain ⟨e, he⟩ := List.exists_mem_of_ne_nil _ hne
              have hx := hread e.1
              rw [← hcells, hnone] at hx
              exact absurd rfl (rowGet_eq_none.mp hx.symm e he)
            · rw [← hsame, hcells]
              exact hread x
          · rw [hother o' ho, hcells]
            exact hread x
        · obtain ⟨h0, hlt⟩ := hbound h
          rw [hn] at hle
          refine ⟨h0, ?_⟩
          rw [hnt₂, hnt]
          omega
      obtain ⟨q, os, hrun', hplaced, hnt', hkeep', hfree⟩ := ih hwf₂ hnil₂
        (fun r' hr' => by
          rw [hns₂, hns]
          exact hrs r' (List.mem_cons_of_mem r hr'))
        (hrest _ hrun)
      refine ⟨q, o :: os, ?_, .cons ?_ hplaced, hnt'.trans (hnt₂.trans hnt),
        fun r' o' hne h => hkeep' r' o' hne (hkeep r' o' hne h), fun o' ho' x => ?_⟩
      · rw [insertRows, hrun, Option.bind_some, hrun', Option.map_some]
      · refine hkeep' r o (hrs r List.mem_cons_self).1 ⟨hself, fun h => ?_⟩
        rw [hnt₂]
        exact hsafe h
      · rw [hfree o' (fun hin => ho' (List.mem_cons_of_mem o hin)), hother o' (fun heq => ho' (heq ▸ List.mem_cons_self)),
          hcells]

theorem wf_acttabAlloc (nsymbol nterminal : Nat) : (acttabAlloc nsymbol nterminal).Wf := by
  have hslot : ∀ k, (acttabAlloc nsymbol nterminal).slot k = unused := by
    intro k
    unfold Acttab.slot
    split <;> rfl
  refine ⟨fun k _ => hslot k, fun k => ?_⟩
  rw [hslot]
  decide

/-- The rows laid over an empty table. -/
theorem insertRows_alloc {nsymbol nterminal : Nat} {rs : List (Bool × List LookaheadAction)}
    (hrs : ∀ r ∈ rs, RowOk nsymbol r.2) (hfound : AllFound rs (acttabAlloc nsymbol nterminal)) :
    ∃ p os, insertRows rs (acttabAlloc nsymbol nterminal) = some (p, os) ∧ List.Forall₂ (Placed p) rs os ∧
      p.nterminal = nterminal ∧ ∀ o ∉ os, ∀ x, get p.cells o x = none := by
  obtain ⟨p, os, hrun, hplaced, hnt, -, hfree⟩ :=
    insertRows_placed rs (wf_acttabAlloc nsymbol nterminal) rfl hrs hfound
  refine ⟨p, os, hrun, hplaced, hnt, fun o ho x => ?_⟩
  have hcell : (acttabAlloc nsymbol nterminal).cells (o + x) = none := by
    refine Acttab.cells_eq_none.mpr fun h0 hn => ?_
    have hzero : (acttabAlloc nsymbol nterminal).nAction = 0 := rfl
    omega
  rw [hfree o ho, Comb.get, hcell]
  rfl

/-- **The packed table gives every row back.** Every lookahead, in the row or not, is answered at the row's offset as
    the row does, and the offset of a row for terminals stays within the table for all of them. At other offsets there
    is nothing to be read. -/
theorem insertRows_get {nsymbol nterminal : Nat} {rs : List (Bool × List LookaheadAction)}
    (hrs : ∀ r ∈ rs, RowOk nsymbol r.2) (hfound : AllFound rs (acttabAlloc nsymbol nterminal)) :
    ∃ p os, insertRows rs (acttabAlloc nsymbol nterminal) = some (p, os) ∧ List.Forall₂ (Placed p) rs os ∧
      ∀ o ∉ os, ∀ x, get p.cells o x = none := by
  obtain ⟨p, os, hrun, hplaced, -, hfree⟩ := insertRows_alloc hrs hfound
  exact ⟨p, os, hrun, hplaced, hfree⟩

theorem insertRows_get_two : ∃ p o o',
    insertRows [(true, [(0, 5), (2, 6)]), (false, [(3, 7)])] (acttabAlloc 6 3) = some (p, [o, o']) ∧
      (∀ x, get p.cells o x = rowGet [(0, 5), (2, 6)] x) ∧ ∀ x, get p.cells o' x = rowGet [(3, 7)] x := by
  have hrs : ∀ r ∈ [(true, [(0, 5), (2, 6)]), (false, [(3, 7)])], RowOk 6 r.2 := by decide
  have hfound : AllFound [(true, [(0, 5), (2, 6)]), (false, [(3, 7)])] (acttabAlloc 6 3) :=
    allFound_of_le _ (wf_acttabAlloc 6 3) rfl hrs (by decide)
  obtain ⟨p, os, hrun, hplaced, -⟩ := insertRows_get hrs hfound
  cases hplaced with
  | cons h hplaced =>
      cases hplaced with
      | cons h' hplaced =>
          cases hplaced
          exact ⟨p, _, _, hrun, h.1, h'.1⟩

end LemonC
end CSamples
