import Mathlib.Logic.Relation
import CSamples.Shortpath.Shortpath

/-!
# `Shortpath.Iterations` — the loop of `shortpath`, one pass after the other

What every pass of the loop takes out, where in the string it works, and what is left in the end.

## Contents
- **One pass.** `iteration`, of which `loop` is the repetition (`loop_succ`); `regexec_span`, what stands around the
  bytes taken out; `iteration_spec`.
- **The loop.** `loop_shortens`, and `shortpath_shortens` with all of it.
-/

namespace CSamples
namespace Shortpath

open C CSamples.Lex Text Regex

/-! ## One pass -/

/-- The body of the loop: the path it leaves, or `none` at `break`. -/
def iteration (path : Mem) : Option (Option Mem) := do
  let str ← strAt path 0
  match regexec str with
  | none => some none
  | some (start, stop) =>
      let len ← strlen path 0
      let path ← memmove path start stop (len - stop)
      let path ← store path (len - (stop - start)) 0
      some (some path)

theorem loop_succ (fuel : Nat) (path : Mem) :
    loop (fuel + 1) path = (iteration path).bind fun
      | none       => some path
      | some path' => loop fuel path' := by
  rw [loop, iteration]
  simp only [Option.bind_eq_bind, Option.bind_assoc]
  refine Option.bind_congr fun str _ => ?_
  cases regexec str with
  | none => rfl
  | some m => simp only [Option.bind_assoc, Option.bind_some]

/-- One memory is that of the other after a pass of the loop. -/
def Passes (m m' : Mem) : Prop := iteration m = some (some m')

/-- **What stands around the span**: a slash that stays in front of it, and a slash at its end. -/
theorem regexec_span {p : List UInt8} {start stop : Nat} (h : regexec p = some (start, stop)) :
    ∃ a g b, p = a ++ slash :: (g ++ slash :: b) ∧ g ≠ [] ∧ start = a.length + 1 ∧
      stop = a.length + 1 + (g.length + 1) := by
  obtain ⟨⟨i, n⟩, hi, hout⟩ := Option.map_eq_some_iff.mp h
  obtain ⟨rfl, rfl⟩ := Prod.mk.inj hout
  obtain ⟨a, x, b, rfl, rfl, rfl, hfound⟩ := search_eq_some hi
  obtain ⟨g, hg, rfl⟩ : ∃ g, g ≠ [] ∧ x = slash :: (g ++ [slash]) := by
    rcases mem_pattern.mp hfound.mem with ⟨c, hc, -, rfl⟩ | rfl
    · exact ⟨c ++ slash :: dotdot, by simp, by simp⟩
    · exact ⟨dot, by decide, rfl⟩
  refine ⟨a, g, b, by simp, hg, rfl, ?_⟩
  simp only [List.length_cons, List.length_append, List.length_nil]
  omega

/-- What a pass takes out, and what it leaves of the memory. -/
inductive Removes : Mem → Mem → Prop
  | intro (a g b r r' : List UInt8) (hg : g ≠ []) (hr : r'.length = r.length + (g.length + 1))
      (hp : 0 ∉ a ++ slash :: (g ++ slash :: b)) :
      Removes (a ++ slash :: (g ++ slash :: b) ++ 0 :: r) (a ++ slash :: b ++ 0 :: r')

/-- **One pass** over the string `p`: nothing is matched, or a span is taken out; `z` does not depend on what is
    behind the NUL. -/
theorem iteration_spec (p : List UInt8) (hp : 0 ∉ p) :
    (regexec p = none ∧ ∀ r, iteration (p ++ 0 :: r) = some none) ∨
    ∃ a g b z, p = a ++ slash :: (g ++ slash :: b) ∧ g ≠ [] ∧ z.length = g.length + 1 ∧
      ∀ r, iteration (p ++ 0 :: r) = some (some (a ++ slash :: b ++ 0 :: (z ++ r))) := by
  have hstr : ∀ r, strAt (p ++ 0 :: r) 0 = some p := cstr_append_nul hp
  cases hre : regexec p with
  | none =>
      refine .inl ⟨rfl, fun r => ?_⟩
      rw [iteration, hstr, Option.bind_eq_bind, Option.bind_some, hre]
  | some m =>
      obtain ⟨start, stop⟩ := m
      obtain ⟨a, g, b, hsplit, hg, rfl, rfl⟩ := regexec_span hre
      refine .inr ⟨a, g, b, (g ++ [slash] ++ b ++ [0]).drop (b.length + 1), hsplit, hg, ?_, fun r => ?_⟩
      · simp only [List.length_drop, List.length_append, List.length_cons, List.length_nil]
        omega
      · obtain ⟨m, hmove, hstore⟩ := take_out (a ++ [slash]) (g ++ [slash]) b r (by simp)
        have hmem : a ++ [slash] ++ (g ++ [slash]) ++ b ++ 0 :: r = p ++ 0 :: r := by simp [hsplit]
        have hlen : p.length = a.length + 1 + (g.length + 1) + b.length := by
          simp only [hsplit, List.length_append, List.length_cons]
          omega
        rw [hmem, List.length_append, List.length_append, List.length_singleton] at hmove
        rw [List.length_append, List.length_singleton] at hstore
        rw [iteration, hstr, Option.bind_eq_bind, Option.bind_some, hre]
        simp only [strlen_append_nul hp, Option.bind_eq_bind, Option.bind_some, hlen]
        rw [show a.length + 1 + (g.length + 1) + b.length - (a.length + 1 + (g.length + 1)) = b.length by omega, hmove,
          Option.bind_some,
          show a.length + 1 + (g.length + 1) + b.length - (a.length + 1 + (g.length + 1) - (a.length + 1)) =
            a.length + 1 + b.length by omega, hstore, Option.bind_some, List.append_assoc a, List.singleton_append]

/-- **Every pass takes out two bytes or more**, from behind a slash that stays to the next one. -/
theorem Passes.removes {p r m : List UInt8} (hp : 0 ∉ p) (h : Passes (p ++ 0 :: r) m) : Removes (p ++ 0 :: r) m := by
  rcases iteration_spec p hp with ⟨-, hnone⟩ | ⟨a, g, b, z, rfl, hg, hz, hsome⟩
  · rw [Passes, hnone] at h
    exact absurd h (by simp)
  · rw [Passes, hsome, Option.some.injEq, Option.some.injEq] at h
    rw [← h]
    exact .intro a g b r (z ++ r) hg (by rw [List.length_append, hz, Nat.add_comm]) hp

/-- Memories that hold a string, of one length: what a pass leaves is one again. -/
def Holds (n : Nat) (m : Mem) : Prop := m.length = n ∧ ∃ p r, 0 ∉ p ∧ m = p ++ 0 :: r

theorem Removes.holds {n : Nat} {m m' : Mem} (h : Removes m m') (hm : Holds n m) : Holds n m' := by
  cases h with
  | intro a g b r r' hg hr hp =>
      refine ⟨?_, a ++ slash :: b, r', fun h0 => hp ?_, rfl⟩
      · rw [← hm.1]
        simp only [List.length_append, List.length_cons]
        omega
      · simp only [List.mem_append, List.mem_cons] at h0 ⊢
        rcases h0 with h0 | h0 | h0
        · exact .inl h0
        · exact .inr (.inl h0)
        · exact .inr (.inr (.inr (.inr h0)))

theorem Holds.passes {n : Nat} {m m' : Mem} (hm : Holds n m) (h : Passes m m') : Removes m m' := by
  obtain ⟨-, p, r, hp, rfl⟩ := hm
  exact h.removes hp

/-- Every pass of a run, by induction on the run. -/
theorem Holds.reaches {n : Nat} {m m' : Mem} (hm : Holds n m) (h : Relation.ReflTransGen Passes m m') : Holds n m' := by
  induction h with
  | refl => exact hm
  | tail _ hstep ih => exact (ih.passes hstep).holds ih

/-! ## The loop -/

/-- What shortening leaves: nothing is matched in it, bytes were only deleted, and the parts in front of the first
    slash and behind the last one are there. -/
structure Shortened (p q : List UInt8) : Prop where
  noMatch : regexec q = none
  sublist : q.Sublist p
  front   : q.takeWhile (· != slash) = p.takeWhile (· != slash)
  back    : rest slash q = rest slash p
  slashes : slash ∈ q ↔ slash ∈ p

theorem Shortened.of_removed {a g b q : List UInt8} (h : Shortened (a ++ slash :: b) q) :
    Shortened (a ++ slash :: (g ++ slash :: b)) q := by
  refine ⟨h.noMatch, h.sublist.trans ?_, h.front.trans ?_, h.back.trans ?_, h.slashes.trans ?_⟩
  · refine (List.Sublist.refl a).append (List.Sublist.cons_cons slash ?_)
    exact (List.sublist_cons_self slash b).trans (List.sublist_append_right g _)
  · rw [List.takeWhile_append, List.takeWhile_append]
    simp
  · rw [rest_segment, rest_segment, rest_segment]
  · simp

/-- **The loop** ends with a string in which nothing is matched; `z` is what it leaves between the new NUL and the
    old one, and `r` is untouched. -/
theorem loop_shortens (fuel : Nat) (p w : List UInt8) (hp : 0 ∉ p) (hfuel : p.length < fuel) :
    ∃ q z, 0 ∉ q ∧ q.length + z.length = p.length + w.length ∧ Shortened p q ∧
      ∀ r, loop fuel (p ++ 0 :: (w ++ r)) = some (q ++ 0 :: (z ++ r)) ∧
        Relation.ReflTransGen Passes (p ++ 0 :: (w ++ r)) (q ++ 0 :: (z ++ r)) := by
  induction fuel generalizing p w with
  | zero => exact absurd hfuel (Nat.not_lt_zero _)
  | succ fuel ih =>
      rcases iteration_spec p hp with ⟨hre, hnone⟩ | ⟨a, g, b, z, rfl, hg, hz, hsome⟩
      · refine ⟨p, w, hp, rfl, ⟨hre, List.Sublist.refl p, rfl, rfl, Iff.rfl⟩, fun r => ⟨?_, .refl⟩⟩
        rw [loop_succ, hnone, Option.bind_some]
      · have hab : 0 ∉ a ++ slash :: b := fun h => hp (by
          simp only [List.mem_append, List.mem_cons] at h ⊢
          rcases h with h | h | h
          · exact .inl h
          · exact .inr (.inl h)
          · exact .inr (.inr (.inr (.inr h))))
        obtain ⟨q, z', hq, hlen, hshort, hrun⟩ := ih (a ++ slash :: b) (z ++ w) hab (by
          simp only [List.length_append, List.length_cons] at hfuel ⊢
          omega)
        refine ⟨q, z', hq, ?_, hshort.of_removed, fun r => ?_⟩
        · rw [hlen]
          simp only [List.length_append, List.length_cons]
          omega
        · obtain ⟨hloop, hreach⟩ := hrun r
          rw [List.append_assoc z] at hloop hreach
          refine ⟨?_, .head (hsome (w ++ r)) hreach⟩
          rw [loop_succ, hsome, Option.bind_some]
          exact hloop

/-- Where nothing is matched `shortpath` changes nothing. -/
theorem shortpath_of_none {q : List UInt8} (hq : 0 ∉ q) (h : regexec q = none) (r : List UInt8) :
    shortpath (q ++ 0 :: r) = some (q ++ 0 :: r) := by
  have hstr : strAt (q ++ 0 :: r) 0 = some q := cstr_append_nul hq r
  rw [shortpath, strlen_append_nul hq, Option.bind_eq_bind, Option.bind_some, loop_succ, iteration, hstr]
  simp only [Option.bind_eq_bind, Option.bind_some, h]

/-- **`shortpath`** ends for every path, inside the memory of the string (what is behind it is not read and stays);
    each pass takes two bytes or more out, from behind a slash that stays to another one; in what is left nothing
    is matched, and shortening it again changes nothing; bytes are only deleted, none in front of the first slash
    or behind the last. -/
theorem shortpath_shortens (p : List UInt8) (hp : 0 ∉ p) :
    ∃ q z, q.length + z.length = p.length ∧
      (∀ r, shortpath (p ++ 0 :: r) = some (q ++ 0 :: (z ++ r)) ∧
        Relation.ReflTransGen Passes (p ++ 0 :: r) (q ++ 0 :: (z ++ r)) ∧
        ∀ m m', Relation.ReflTransGen Passes (p ++ 0 :: r) m → Passes m m' → Removes m m') ∧
      (∀ u x v, q = u ++ x ++ v → x ∉ pattern.lang) ∧
      (∀ r, shortpath (q ++ 0 :: r) = some (q ++ 0 :: r)) ∧
      q.Sublist p ∧ (slash ∈ q ↔ slash ∈ p) ∧
      q.takeWhile (· != slash) = p.takeWhile (· != slash) ∧ rest slash q = rest slash p := by
  obtain ⟨q, z, hq, hlen, hshort, hrun⟩ := loop_shortens (p.length + 1) p [] hp (Nat.lt_succ_self _)
  refine ⟨q, z, hlen, fun r => ⟨?_, (hrun r).2, ?_⟩, ?_, shortpath_of_none hq hshort.noMatch, hshort.sublist,
    hshort.slashes, hshort.front, hshort.back⟩
  · rw [shortpath, strlen_append_nul hp, Option.bind_eq_bind, Option.bind_some]
    exact (hrun r).1
  · intro m m' hreach hstep
    have hm : Holds (p ++ 0 :: r).length (p ++ 0 :: r) := ⟨rfl, p, r, hp, rfl⟩
    exact (hm.reaches hreach).passes hstep
  · intro u x v hsplit
    exact search_eq_none (Option.map_eq_none_iff.mp hshort.noMatch) hsplit

/-- `x/a/./../b`: two passes. -/
theorem shortpath_shortens_twice :
    ∃ q z, q.length + z.length = (['x', '/', 'a', '/', '.', '/', '.', '.', '/', 'b'].map ch).length ∧
      shortpath (['x', '/', 'a', '/', '.', '/', '.', '.', '/', 'b'].map ch ++ [0]) = some (q ++ 0 :: z) := by
  obtain ⟨q, z, hlen, hrun, -⟩ :=
    shortpath_shortens (['x', '/', 'a', '/', '.', '/', '.', '.', '/', 'b'].map ch) (by decide)
  exact ⟨q, z, hlen, by simpa using (hrun []).1⟩

end Shortpath
end CSamples
