import Mathlib.Data.List.Basic

/-!
# `C.Memory` — a `char` array and the string functions on it

An array is the list of its bytes; its length is its size in C. Every access is checked: an index outside
the array, or a string function that runs past its end, gives `none` (undefined in C). The lemmas describe
an array by what `drop` shows from an index on, which is how a pointer into it is used.
-/

namespace CSamples
namespace C

/-- A character constant, by its byte. -/
def ch (c : Char) : UInt8 := UInt8.ofNat c.toNat

/-- A `char` array, by its bytes. -/
abbrev Mem := List UInt8

/-- `m[i]` -/
def load (m : Mem) (i : Nat) : Option UInt8 := m[i]?

/-- `m[i] = b` -/
def store (m : Mem) (i : Nat) (b : UInt8) : Option Mem :=
  if i < m.length then some (m.set i b) else none

/-- The bytes `d` written from index `i` on. -/
def blit (m : Mem) (i : Nat) (d : List UInt8) : Option Mem :=
  if i + d.length ≤ m.length then some (m.take i ++ d ++ m.drop (i + d.length)) else none

/-- `memmove(m + dst, m + src, n)`; also `memcpy` where the ranges are assumed to be copied the same way. -/
def memmove (m : Mem) (dst src n : Nat) : Option Mem :=
  if src + n ≤ m.length then blit m dst ((m.drop src).take n) else none

/-- The bytes before the first NUL. -/
def cstr : List UInt8 → Option (List UInt8)
  | []      => none
  | b :: bs => if b = 0 then some [] else (cstr bs).map (b :: ·)

/-- The string at index `i`. -/
def strAt (m : Mem) (i : Nat) : Option (List UInt8) := cstr (m.drop i)

/-- `strlen(m + i)` -/
def strlen (m : Mem) (i : Nat) : Option Nat := (strAt m i).map List.length

/-- `strchr(m, c)`, by its index; the NUL itself is not looked for. -/
def strchr (m : Mem) (c : UInt8) : Option (Option Nat) :=
  (cstr m).map fun s => if c ∈ s then some (s.idxOf c) else none

/-- `strcmp(bs, lit) == 0` for a string literal `lit`: bytes are read up to the first difference. -/
def strEq : List UInt8 → List UInt8 → Option Bool
  | [], _           => none
  | b :: _, []      => some (b == 0)
  | b :: bs, c :: cs => if b = c then strEq bs cs else some false

/-! ## Lengths and views -/

theorem store_eq_some {m : Mem} {i : Nat} (h : i < m.length) (b : UInt8) :
    store m i b = some (m.set i b) := if_pos h

theorem load_append (p : List UInt8) (b : UInt8) (r : List UInt8) {i : Nat} (hi : i = p.length) :
    load (p ++ b :: r) i = some b := by
  subst hi
  simp [load]

theorem store_append (p : List UInt8) (a : UInt8) (r : List UInt8) (b : UInt8) {i : Nat} (hi : i = p.length) :
    store (p ++ a :: r) i b = some (p ++ b :: r) := by
  subst hi
  rw [store_eq_some (by simp)]
  simp

/-- The byte behind the first ones replaced. -/
theorem store_behind {m : Mem} {p : List UInt8} (h : p.length < m.length) (b : UInt8) :
    store (p ++ m.drop p.length) p.length b = some (p ++ b :: m.drop (p.length + 1)) := by
  rw [List.drop_eq_getElem_cons h]
  exact store_append p _ _ b rfl

theorem blit_eq_some {m : Mem} {i : Nat} {d : List UInt8} (h : i + d.length ≤ m.length) :
    blit m i d = some (m.take i ++ d ++ m.drop (i + d.length)) := if_pos h

/-- A write to the front of an array. -/
theorem blit_front {m : Mem} {d : List UInt8} (h : d.length ≤ m.length) :
    blit m 0 d = some (d ++ m.drop d.length) := by
  rw [blit_eq_some (by omega), List.take_zero, List.nil_append, Nat.zero_add]

theorem blit_length {m m' : Mem} {i : Nat} {d : List UInt8} (h : blit m i d = some m') :
    m'.length = m.length := by
  unfold blit at h
  split at h
  · next hle =>
      obtain rfl := Option.some.inj h
      simp only [List.length_append, List.length_take, List.length_drop]
      omega
  · simp at h

/-- What is in front of the end of a write. -/
theorem blit_take {m : Mem} {i : Nat} {d : List UInt8} (h : i + d.length ≤ m.length) :
    ∃ m', blit m i d = some m' ∧ m'.length = m.length ∧ m'.take (i + d.length) = m.take i ++ d := by
  have hlen : (m.take i ++ d).length = i + d.length := by
    rw [List.length_append, List.length_take]
    omega
  refine ⟨m.take i ++ d ++ m.drop (i + d.length), blit_eq_some h, ?_, ?_⟩
  · rw [List.length_append, hlen, List.length_drop]
    omega
  · exact List.take_left' hlen

/-- What is behind the end of a write. -/
theorem blit_getElem? {m m' : Mem} {i j : Nat} {d : List UInt8} (h : blit m i d = some m') (hj : i + d.length ≤ j) :
    m'[j]? = m[j]? := by
  obtain ⟨hle, heq⟩ := Option.ite_none_right_eq_some.mp h
  have hlen : (m.take i ++ d).length = i + d.length := by
    rw [List.length_append, List.length_take]
    omega
  rw [← Option.some.inj heq, List.getElem?_append_right (hlen ▸ hj), hlen, List.getElem?_drop, Nat.add_sub_cancel' hj]

/-- What is written. -/
theorem blit_getElem?_of_lt {m m' : Mem} {i j : Nat} {d : List UInt8} (h : blit m i d = some m') (hj : j < d.length) :
    m'[i + j]? = d[j]? := by
  obtain ⟨hle, heq⟩ := Option.ite_none_right_eq_some.mp h
  have hlen : (m.take i).length = i := by
    rw [List.length_take]
    omega
  rw [← Option.some.inj heq, List.append_assoc, List.getElem?_append_right (by rw [hlen]; exact Nat.le_add_right i j), hlen,
    Nat.add_sub_cancel_left, List.getElem?_append_left hj]

theorem blit_nil {m m' : Mem} {i : Nat} (h : blit m i [] = some m') : m' = m := by
  obtain ⟨-, heq⟩ := Option.ite_none_right_eq_some.mp h
  rw [← Option.some.inj heq, List.append_nil, List.length_nil, Nat.add_zero, List.take_append_drop]

/-- Bytes read behind a text, and a terminator. -/
theorem blit_store {m : Mem} {s d : List UInt8} (hs : m.take s.length = s) (hlen : s.length + d.length < m.length) :
    ∃ m' r, blit m s.length d = some m' ∧ store m' (s.length + d.length) 0 = some (s ++ d ++ 0 :: r) ∧
      (s ++ d ++ 0 :: r).length = m.length := by
  have hlen' : (s ++ d).length = s.length + d.length := List.length_append
  refine ⟨s ++ d ++ m.drop (s ++ d).length, m.drop ((s ++ d).length + 1), ?_, ?_, ?_⟩
  · rw [blit_eq_some (by omega), hs, hlen']
  · rw [← hlen']
    exact store_behind (by omega) 0
  · simp only [List.length_append, List.length_cons, List.length_drop]
    omega

/-- A text moved to the front of an array. -/
theorem memmove_text {m : Mem} {i : Nat} {s : List UInt8} (hs : (m.drop i).take s.length = s)
    (hlen : i + s.length ≤ m.length) : memmove m 0 i s.length = some (s ++ m.drop s.length) := by
  rw [memmove, if_pos hlen, hs, blit_front (by omega)]

/-- `memmove` to the front of an array. -/
theorem memmove_front {m : Mem} {src n : Nat} (h : src + n ≤ m.length) :
    ∃ m', memmove m 0 src n = some m' ∧ m'.length = m.length ∧ m'.take n = (m.drop src).take n := by
  have hlen : ((m.drop src).take n).length = n := by
    rw [List.length_take, List.length_drop]
    omega
  obtain ⟨m', hm', hl, htake⟩ := @blit_take m 0 ((m.drop src).take n) (by omega)
  refine ⟨m', by rw [memmove, if_pos h, hm'], hl, ?_⟩
  rw [Nat.zero_add, hlen] at htake
  exact htake

/-- **A refill**: `n` bytes are moved to the front, and what fits of a file is read behind them. Then the array
    begins like the moved bytes and the file. -/
theorem memmove_blit {m : Mem} {i n size : Nat} {file w : List UInt8} (hi : i + n ≤ m.length) (hn : n ≤ size)
    (hsize : size ≤ m.length) (hw : (m.drop i).take n ++ file = w) :
    ∃ m₁ m₂, memmove m 0 i n = some m₁ ∧ blit m₁ n (file.take (size - n)) = some m₂ ∧ m₂.length = m.length ∧
      n + (file.take (size - n)).length = min size w.length ∧ m₂.take (min size w.length) = w.take size ∧
      file = w.drop n := by
  have hlen : ((m.drop i).take n).length = n := by
    rw [List.length_take, List.length_drop]
    omega
  have hfile : file = w.drop n := by rw [← hw, List.drop_left' hlen]
  have hcopied : n + (file.take (size - n)).length = min size w.length := by
    have hwlen := congrArg List.length hw
    rw [List.length_append, hlen] at hwlen
    rw [List.length_take]
    omega
  obtain ⟨m₁, hm₁, hlen₁, htake₁⟩ := memmove_front hi
  obtain ⟨m₂, hm₂, hlen₂, htake₂⟩ := @blit_take m₁ n (file.take (size - n)) (by omega)
  refine ⟨m₁, m₂, hm₁, hm₂, hlen₂.trans hlen₁, hcopied, ?_, hfile⟩
  rw [← hcopied, htake₂, htake₁, ← hw, List.take_append, List.take_of_length_le (Nat.le_trans (Nat.le_of_eq hlen) hn),
    hlen]

/-- A write of the first bytes of `d` and then of the others. -/
theorem blit_cons {m : Mem} {i : Nat} {b : UInt8} {d : List UInt8} (h : i + (d.length + 1) ≤ m.length) :
    (store m i b).bind (fun m' => blit m' (i + 1) d) = blit m i (b :: d) := by
  have hi : i < m.length := by omega
  rw [store_eq_some hi, Option.bind_some, blit_eq_some (by simpa using by omega),
    blit_eq_some (by simpa using h)]
  congr 1
  rw [List.take_set, List.drop_set_of_lt (by omega), List.length_cons,
    show i + 1 + d.length = i + (d.length + 1) by omega]
  congr 1
  rw [List.take_succ_eq_append_getElem hi, List.set_append_right _ _ (by rw [List.length_take]; omega), List.length_take]
  simp [Nat.min_eq_left (Nat.le_of_lt hi)]

@[simp] theorem cstr_nul_cons (bs : List UInt8) : cstr (0 :: bs) = some [] := rfl

theorem cstr_append_nul {s : List UInt8} (hs : 0 ∉ s) (r : List UInt8) : cstr (s ++ 0 :: r) = some s := by
  induction s with
  | nil => rfl
  | cons b s ih =>
      have hb : b ≠ 0 := fun h => hs (by simp [h])
      have hs' : 0 ∉ s := fun h => hs (List.mem_cons_of_mem b h)
      rw [List.cons_append, cstr, if_neg hb, ih hs']
      rfl

/-- A string found in memory: what precedes its NUL, and what follows. -/
theorem cstr_eq_some_iff {m s : List UInt8} : cstr m = some s ↔ 0 ∉ s ∧ ∃ r, m = s ++ 0 :: r := by
  constructor
  · intro h
    induction m generalizing s with
    | nil => simp [cstr] at h
    | cons b m ih =>
        unfold cstr at h
        by_cases hb : b = 0
        · rw [if_pos hb] at h
          obtain rfl := Option.some.inj h
          exact ⟨by simp, m, by simp [hb]⟩
        · rw [if_neg hb] at h
          obtain ⟨s', hs', rfl⟩ := Option.map_eq_some_iff.mp h
          obtain ⟨hn, r, rfl⟩ := ih hs'
          exact ⟨by simp [hn, Ne.symm hb], r, rfl⟩
  · rintro ⟨hs, r, rfl⟩
    exact cstr_append_nul hs r

/-- A string that is all of `w` has its NUL right behind it. -/
theorem cstr_append_eq_iff (w r : List UInt8) : cstr (w ++ r) = some w ↔ 0 ∉ w ∧ r.head? = some 0 := by
  rw [cstr_eq_some_iff]
  constructor
  · rintro ⟨hw, t, heq⟩
    rw [List.append_cancel_left heq]
    exact ⟨hw, rfl⟩
  · rintro ⟨hw, hr⟩
    obtain ⟨t, rfl⟩ := List.head?_eq_some_iff.mp hr
    exact ⟨hw, t, rfl⟩

/-! ## A string at the front of an array -/

theorem strlen_append_nul {s : List UInt8} (hs : 0 ∉ s) (r : List UInt8) : strlen (s ++ 0 :: r) 0 = some s.length := by
  rw [strlen, strAt, List.drop_zero, cstr_append_nul hs]
  rfl

theorem strlen_append {s t : List UInt8} (ht : 0 ∉ t) (r : List UInt8) :
    strlen (s ++ (t ++ 0 :: r)) s.length = some t.length := by
  rw [strlen, strAt, List.drop_left, cstr_append_nul ht]
  rfl

theorem strchr_of_not_mem {s : List UInt8} (hs : 0 ∉ s) {c : UInt8} (hc : c ∉ s) (r : List UInt8) :
    strchr (s ++ 0 :: r) c = some none := by
  rw [strchr, cstr_append_nul hs, Option.map_some, if_neg hc]

theorem strchr_of_mem {s t : List UInt8} (hs : 0 ∉ s) (ht : 0 ∉ t) {c : UInt8} (hc0 : c ≠ 0) (hc : c ∉ s)
    (r : List UInt8) : strchr (s ++ (c :: t ++ 0 :: r)) c = some (some s.length) := by
  have hst : 0 ∉ s ++ c :: t := by simp [hs, ht, Ne.symm hc0]
  have hidx : (s ++ c :: t).idxOf c = s.length := by
    rw [List.idxOf_append_of_notMem hc, List.idxOf_cons_self]
    rfl
  rw [← List.append_assoc, strchr, cstr_append_nul hst, Option.map_some, if_pos (by simp), hidx]

/-- `memmove(p, p + 1, strlen(p))` takes the byte at `p` out of the string and leaves the old NUL where it is. -/
theorem memmove_pred (s : List UInt8) (c : UInt8) (t r : List UInt8) :
    memmove (s ++ (c :: t ++ 0 :: r)) s.length (s.length + 1) (t.length + 1) = some (s ++ t ++ 0 :: 0 :: r) := by
  have hdrop : (s ++ (c :: t ++ 0 :: r)).drop (s.length + 1) = t ++ [0] ++ r := by
    rw [← List.drop_drop, List.drop_left]
    simp
  have htake : (t ++ [0] ++ r).take (t.length + 1) = t ++ [0] := List.take_left' (by simp)
  have hrest : (s ++ (c :: t ++ 0 :: r)).drop (s.length + (t.length + 1)) = 0 :: r := by
    rw [← List.drop_drop, List.drop_left, List.cons_append, List.drop_succ_cons, List.drop_left]
  rw [memmove, if_pos (by simp; omega), hdrop, htake, blit_eq_some (by simp), List.take_left]
  simp only [List.length_append, List.length_singleton, hrest]
  simp

/-- A string is found exactly when there is a NUL. -/
theorem cstr_isSome_iff {m : List UInt8} : (∃ s, cstr m = some s) ↔ 0 ∈ m := by
  constructor
  · rintro ⟨s, hs⟩
    obtain ⟨-, r, rfl⟩ := cstr_eq_some_iff.mp hs
    simp
  · intro h
    induction m with
    | nil => simp at h
    | cons b m ih =>
        unfold cstr
        by_cases hb : b = 0
        · exact ⟨[], by rw [if_pos hb]⟩
        · obtain ⟨s, hs⟩ := ih ((List.mem_cons.mp h).resolve_left (Ne.symm hb))
          exact ⟨b :: s, by rw [if_neg hb, hs]; rfl⟩

/-- The length of a string from the bytes it is read from: nonzero up to the first NUL. -/
theorem cstr_length {m : List UInt8} {n : Nat} (hne : ∀ k < n, ∃ b, m[k]? = some b ∧ b ≠ 0)
    (hnul : m[n]? = some 0) : (cstr m).map List.length = some n := by
  induction n generalizing m with
  | zero =>
      cases m with
      | nil => simp at hnul
      | cons b m =>
          obtain rfl : b = 0 := by simpa using hnul
          rfl
  | succ n ih =>
      obtain ⟨b, hb, hb0⟩ := hne 0 (Nat.succ_pos n)
      cases m with
      | nil => simp at hb
      | cons c m =>
          obtain rfl : c = b := by simpa using hb
          have h := ih (m := m) (fun k hk => by simpa using hne (k + 1) (by omega)) (by simpa using hnul)
          rw [cstr, if_neg hb0]
          cases hm : cstr m with
          | none => simp [hm] at h
          | some s => simpa [hm] using h

/-- A comparison with a literal reads at most one byte more than the literal has. -/
theorem strEq_isSome {m lit : List UInt8} (h : lit.length < m.length) : (strEq m lit).isSome := by
  induction lit generalizing m with
  | nil =>
      cases m with
      | nil => simp at h
      | cons b m => rfl
  | cons c lit ih =>
      cases m with
      | nil => simp at h
      | cons b m =>
          unfold strEq
          by_cases hbc : b = c
          · rw [if_pos hbc]
            exact ih (by simpa using h)
          · rw [if_neg hbc]
            rfl

/-- A successful comparison has read the literal and the NUL behind it. -/
theorem eq_of_strEq {m lit : List UInt8} (h : strEq m lit = some true) : ∃ r, m = lit ++ 0 :: r := by
  induction lit generalizing m with
  | nil =>
      cases m with
      | nil => simp [strEq] at h
      | cons b m =>
          obtain rfl : b = 0 := by simpa [strEq] using h
          exact ⟨m, rfl⟩
  | cons x lit ih =>
      cases m with
      | nil => simp [strEq] at h
      | cons b m =>
          unfold strEq at h
          by_cases hbx : b = x
          · rw [if_pos hbx] at h
            obtain ⟨r, rfl⟩ := ih h
            exact ⟨r, by rw [hbx]; rfl⟩
          · rw [if_neg hbx] at h
            simp at h

/-- A comparison of a string with a literal. -/
theorem strEq_append_nul {s lit : List UInt8} (hs : 0 ∉ s) (hlit : 0 ∉ lit) (r : List UInt8) :
    strEq (s ++ 0 :: r) lit = some (decide (s = lit)) := by
  induction s generalizing lit with
  | nil =>
      cases lit with
      | nil => rfl
      | cons c lit =>
          have hc : ¬ 0 = c := fun h => hlit (by simp [h])
          simp [strEq, hc]
  | cons b s ih =>
      cases lit with
      | nil =>
          have hb : b ≠ 0 := fun h => hs (by simp [h])
          simp [strEq, hb]
      | cons c lit =>
          rw [List.cons_append, strEq]
          by_cases hbc : b = c
          · rw [if_pos hbc, ih (fun h => hs (List.mem_cons_of_mem b h)) (fun h => hlit (List.mem_cons_of_mem c h))]
            simp [hbc]
          · rw [if_neg hbc]
            simp [hbc]

end C
end CSamples
