import Mathlib.Algebra.BigOperators.Group.List.Basic
import Mathlib.Data.List.Sort

/-!
# `Sort.Bins` — merge sort with bins

The sort that takes one element after the other and keeps sorted runs in bins, the bin `i` empty or with `2 ^ i`
elements: a new element is merged with the runs of the full bins, like a carry in a binary counter, and what comes out
goes to the first empty bin. The last bin is written without a look, so that `2 ^ n` elements are one too many for `n`
bins.

## Contents
- `insert`, `collect` and `sort`, over any way `m` to merge two runs.
- `sort_perm_iff`: the result is a permutation exactly below `2 ^ n` elements. `sort_sorted`: it is always sorted.
-/

namespace CSamples
namespace Bins

open List

variable {α : Type}

/-- What comes before `y` is put out: `rest` is the merge without the first element `x` of the other list. -/
def mergeFrom (le : α → α → Bool) (x : α) (rest : List α → List α) : List α → List α
  | []      => x :: rest []
  | y :: ys => if le x y then x :: rest (y :: ys) else y :: mergeFrom le x rest ys

/-- Merge two lists; `le` says that an element of the first one goes first. -/
def merge (le : α → α → Bool) : List α → List α → List α
  | [], ys      => ys
  | x :: xs, ys => mergeFrom le x (merge le xs) ys

/-- A run goes to the first empty bin, merged with what it passes; the last bin is overwritten. -/
def insert (m : List α → List α → List α) : List α → List (List α) → List (List α)
  | _, []            => []
  | ep, [_]          => [ep]
  | ep, b :: c :: bs => if b = [] then ep :: c :: bs else [] :: insert m (m ep b) (c :: bs)

/-- All runs merged, from the first bin to the last. -/
def collect (m : List α → List α → List α) (bins : List (List α)) : List α :=
  bins.foldl (fun ep b => if b = [] then ep else m b ep) []

/-- The sort, with `n` bins. -/
def sort (m m' : List α → List α → List α) (n : Nat) (l : List α) : List α :=
  collect m' (l.foldl (fun bins x => insert m [x] bins) (replicate n []))

theorem merge_eq (le : α → α → Bool) (xs ys : List α) : merge le xs ys = List.merge xs ys le := by
  induction xs generalizing ys with
  | nil => rw [merge, List.nil_merge]
  | cons x xs ih =>
      rw [merge]
      induction ys with
      | nil => rw [mergeFrom, ih, List.merge_right, List.merge_right]
      | cons y ys ihy =>
          rw [mergeFrom, ih, ihy, List.cons_merge_cons]

theorem merge_perm (le : α → α → Bool) (xs ys : List α) : merge le xs ys ~ xs ++ ys := by
  rw [merge_eq]
  exact List.merge_perm_append le

/-! ## The bins are a binary counter -/

/-- From the bin `i` on, every bin is empty or full. -/
def Sized : Nat → List (List α) → Prop
  | _, []      => True
  | i, b :: bs => (b = [] ∨ b.length = 2 ^ i) ∧ Sized (i + 1) bs

/-- What the bins hold together. -/
def total (bins : List (List α)) : Nat := bins.flatten.length

variable {m m' : List α → List α → List α}

theorem total_cons (b : List α) (bs : List (List α)) : total (b :: bs) = b.length + total bs := by
  simp [total]

theorem sized_replicate (n i : Nat) : Sized i (replicate n ([] : List α)) := by
  induction n generalizing i with
  | zero => trivial
  | succ n ih => exact ⟨.inl rfl, ih (i + 1)⟩

theorem length_insert (ep : List α) (bins : List (List α)) : (insert m ep bins).length = bins.length := by
  fun_induction insert m ep bins with
  | case1 => rfl
  | case2 => rfl
  | case3 => rfl
  | case4 ep b c bs _ ih => rw [List.length_cons, List.length_cons, ih]

/-- Full bins hold less than one more bin would. -/
theorem total_lt {i : Nat} {bins : List (List α)} (h : Sized i bins) : total bins + 2 ^ i ≤ 2 ^ (i + bins.length) := by
  induction bins generalizing i with
  | nil => simp [total]
  | cons b bs ih =>
      obtain ⟨hb, hbs⟩ := h
      have hrest := ih hbs
      have hle : b.length ≤ 2 ^ i := by
        rcases hb with rfl | hb
        · exact Nat.zero_le _
        · exact Nat.le_of_eq hb
      rw [total_cons, List.length_cons, show i + (bs.length + 1) = i + 1 + bs.length by omega]
      rw [pow_succ] at hrest
      omega

variable (hm : ∀ a b, m a b ~ a ++ b)
include hm

/-- A run as long as the first bin keeps the counter a counter. -/
theorem sized_insert {i : Nat} {ep : List α} {bins : List (List α)} (hep : ep.length = 2 ^ i) (h : Sized i bins) :
    Sized i (insert m ep bins) := by
  induction bins generalizing i ep with
  | nil => trivial
  | cons b bs ih =>
      cases bs with
      | nil => exact ⟨.inr hep, trivial⟩
      | cons c bs =>
          obtain ⟨hb, hrest⟩ := h
          rw [insert]
          split
          · exact ⟨.inr hep, hrest⟩
          · next hne =>
              refine ⟨.inl rfl, ih ?_ hrest⟩
              rw [(hm ep b).length_eq, List.length_append, hep, hb.resolve_left hne, pow_succ]
              omega

/-- **Nothing is lost while there is an empty bin.** -/
theorem insert_perm {i : Nat} {ep : List α} {bins : List (List α)} (hep : ep.length = 2 ^ i) (h : Sized i bins)
    (hroom : total bins + 2 ^ i < 2 ^ (i + bins.length)) : (insert m ep bins).flatten ~ ep ++ bins.flatten := by
  induction bins generalizing i ep with
  | nil =>
      rw [List.length_nil, Nat.add_zero] at hroom
      omega
  | cons b bs ih =>
      obtain ⟨hb, hrest⟩ := h
      cases bs with
      | nil =>
          rcases hb with rfl | hb
          · simp [insert]
          · rw [total_cons, hb, List.length_singleton, pow_succ] at hroom
            omega
      | cons c bs =>
          rw [insert]
          split
          · next he => simp [he]
          · next hne =>
              have hlen := hb.resolve_left hne
              have hmerged : (m ep b).length = 2 ^ (i + 1) := by
                rw [(hm ep b).length_eq, List.length_append, hep, hlen, pow_succ]
                omega
              have hroom' : total (c :: bs) + 2 ^ (i + 1) < 2 ^ (i + 1 + (c :: bs).length) := by
                rw [total_cons, hlen, List.length_cons,
                  show i + ((c :: bs).length + 1) = i + 1 + (c :: bs).length by omega] at hroom
                rw [pow_succ]
                omega
              calc ([] :: insert m (m ep b) (c :: bs)).flatten
                  ~ m ep b ++ (c :: bs).flatten := ih hmerged hrest hroom'
                _ ~ (ep ++ b) ++ (c :: bs).flatten := (hm ep b).append_right _
                _ ~ ep ++ (b :: c :: bs).flatten := by rw [List.append_assoc, List.flatten_cons (l := b)]

/-- The bins after some elements. -/
theorem sized_foldl {l : List α} {bins : List (List α)} (h : Sized 0 bins) :
    Sized 0 (l.foldl (fun bins x => insert m [x] bins) bins) := by
  induction l generalizing bins with
  | nil => exact h
  | cons x l ih => exact ih (sized_insert hm rfl h)

omit hm in
theorem length_foldl (l : List α) (bins : List (List α)) :
    (l.foldl (fun bins x => insert m [x] bins) bins).length = bins.length := by
  induction l generalizing bins with
  | nil => rfl
  | cons x l ih => rw [List.foldl_cons, ih, length_insert]

theorem foldl_perm {l : List α} {bins : List (List α)} (h : Sized 0 bins)
    (hroom : total bins + l.length < 2 ^ bins.length) :
    (l.foldl (fun bins x => insert m [x] bins) bins).flatten ~ bins.flatten ++ l := by
  induction l generalizing bins with
  | nil =>
      rw [List.append_nil]
      exact .refl _
  | cons x l ih =>
      rw [List.length_cons] at hroom
      have hstep : (insert m [x] bins).flatten ~ [x] ++ bins.flatten :=
        insert_perm hm (i := 0) rfl h (by rw [Nat.zero_add, pow_zero]; omega)
      have htotal : total (insert m [x] bins) = total bins + 1 := by
        rw [total, hstep.length_eq, List.length_append, List.length_singleton, total, Nat.add_comm]
      refine (ih (sized_insert hm rfl h) (by rw [htotal, length_insert]; omega)).trans ?_
      calc (insert m [x] bins).flatten ++ l
          ~ ([x] ++ bins.flatten) ++ l := hstep.append_right l
        _ ~ bins.flatten ++ x :: l := by
            rw [List.append_assoc]
            show x :: (bins.flatten ++ l) ~ _
            exact List.perm_middle.symm

omit hm in
theorem collect_perm (hm' : ∀ a b, m' a b ~ a ++ b) (bins : List (List α)) : collect m' bins ~ bins.flatten := by
  suffices ∀ ep, bins.foldl (fun ep b => if b = [] then ep else m' b ep) ep ~ ep ++ bins.flatten from this []
  intro ep
  induction bins generalizing ep with
  | nil => simp
  | cons b bs ih =>
      rw [List.foldl_cons, List.flatten_cons]
      split
      · next hb =>
          rw [hb, List.nil_append]
          exact ih ep
      · refine (ih (m' b ep)).trans ?_
        rw [← List.append_assoc]
        exact ((hm' b ep).trans List.perm_append_comm).append_right _

/-- **The result is a permutation exactly below `2 ^ n` elements.** -/
theorem sort_perm_iff (hm' : ∀ a b, m' a b ~ a ++ b) {n : Nat} (l : List α) :
    sort m m' n l ~ l ↔ l.length < 2 ^ n := by
  have hflat : (replicate n ([] : List α)).flatten = [] := by simp
  constructor
  · intro h
    -- the bins never hold more than the counter can count
    have hlen := h.length_eq
    rw [sort, (collect_perm hm' _).length_eq] at hlen
    have hlt := total_lt (sized_foldl hm (l := l) (sized_replicate n 0))
    rw [length_foldl, List.length_replicate, Nat.zero_add, pow_zero, total] at hlt
    omega
  · intro h
    have hall := foldl_perm hm (l := l) (sized_replicate n 0) (by
      rw [total, hflat, List.length_nil, Nat.zero_add, List.length_replicate]
      exact h)
    rw [hflat, List.nil_append] at hall
    exact (collect_perm hm' _).trans hall

omit hm

/-! ## Runs are sorted -/

variable {R : α → α → Prop}

theorem insert_sorted (hs : ∀ a b, a.Pairwise R → b.Pairwise R → (m a b).Pairwise R) {ep : List α}
    {bins : List (List α)} (hep : ep.Pairwise R) (h : ∀ b ∈ bins, b.Pairwise R) :
    ∀ b ∈ insert m ep bins, b.Pairwise R := by
  fun_induction insert m ep bins with
  | case1 => exact h
  | case2 ep => exact fun b hb => List.mem_singleton.mp hb ▸ hep
  | case3 ep c bs =>
      intro b' hb'
      rcases List.mem_cons.mp hb' with rfl | hb'
      · exact hep
      · exact h b' (List.mem_cons_of_mem _ hb')
  | case4 ep b c bs _ ih =>
      intro b' hb'
      rcases List.mem_cons.mp hb' with rfl | hb'
      · exact List.Pairwise.nil
      · exact ih (hs ep b hep (h b List.mem_cons_self)) (fun d hd => h d (List.mem_cons_of_mem _ hd)) b' hb'

theorem foldl_sorted (hs : ∀ a b, a.Pairwise R → b.Pairwise R → (m a b).Pairwise R) (l : List α)
    {bins : List (List α)} (h : ∀ b ∈ bins, b.Pairwise R) :
    ∀ b ∈ l.foldl (fun bins x => insert m [x] bins) bins, b.Pairwise R := by
  induction l generalizing bins with
  | nil => exact h
  | cons x l ih => exact ih (insert_sorted hs (List.pairwise_singleton R x) h)

theorem collect_sorted (hs : ∀ a b, a.Pairwise R → b.Pairwise R → (m' a b).Pairwise R) {bins : List (List α)}
    (h : ∀ b ∈ bins, b.Pairwise R) : (collect m' bins).Pairwise R := by
  suffices ∀ ep : List α, ep.Pairwise R → (bins.foldl (fun ep b => if b = [] then ep else m' b ep) ep).Pairwise R from
    this [] List.Pairwise.nil
  induction bins with
  | nil => exact fun _ hep => hep
  | cons b bs ih =>
      intro ep hep
      refine ih (fun b' hb' => h b' (List.mem_cons_of_mem b hb')) _ ?_
      beta_reduce
      split
      · exact hep
      · exact hs b ep (h b List.mem_cons_self) hep

/-- **The result is sorted.** -/
theorem sort_sorted (hs : ∀ a b, a.Pairwise R → b.Pairwise R → (m a b).Pairwise R)
    (hs' : ∀ a b, a.Pairwise R → b.Pairwise R → (m' a b).Pairwise R) (n : Nat) (l : List α) :
    (sort m m' n l).Pairwise R := by
  refine collect_sorted hs' (foldl_sorted hs l fun b hb => ?_)
  rw [List.eq_of_mem_replicate hb]
  exact List.Pairwise.nil

/-- Merging keeps runs sorted, if the test it goes by says which way round two elements belong. -/
theorem merge_sorted (htrans : ∀ a b c, R a b → R b c → R a c) {test : α → α → Bool}
    (htrue : ∀ a b, test a b = true → R a b) (hfalse : ∀ a b, test a b = false → R b a) {xs ys : List α}
    (hxs : xs.Pairwise R) (hys : ys.Pairwise R) : (merge test xs ys).Pairwise R := by
  rw [merge_eq]
  induction xs generalizing ys with
  | nil => rwa [List.nil_merge]
  | cons x xs ih =>
      induction ys with
      | nil => rwa [List.merge_right]
      | cons y ys ihy =>
          obtain ⟨hx, hxs'⟩ := List.pairwise_cons.mp hxs
          obtain ⟨hy, hys'⟩ := List.pairwise_cons.mp hys
          cases htest : test x y with
          | true =>
              rw [List.cons_merge_cons_pos test _ _ htest]
              refine List.pairwise_cons.mpr ⟨fun z hz => ?_, ih hxs' hys⟩
              rcases List.mem_merge.mp hz with hz | hz
              · exact hx z hz
              · have hxy := htrue x y htest
                rcases List.mem_cons.mp hz with rfl | hz
                · exact hxy
                · exact htrans x y z hxy (hy z hz)
          | false =>
              rw [List.cons_merge_cons_neg test _ _ (by rw [htest]; exact Bool.false_ne_true)]
              refine List.pairwise_cons.mpr ⟨fun z hz => ?_, ihy hys'⟩
              rcases List.mem_merge.mp hz with hz | hz
              · have hyx := hfalse x y htest
                rcases List.mem_cons.mp hz with rfl | hz
                · exact hyx
                · exact htrans y x z hyx (hx z hz)
              · exact hy z hz

end Bins
end CSamples
