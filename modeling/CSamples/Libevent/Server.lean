import CSamples.C.Memory

/-!
# `Libevent.Server` — the reversing server of `libevent/server`

`read_cb` of `libevent/server/server.c` takes what `bufferevent_read` returns, up to 256 bytes at a time,
strips every CR and LF, reverses the rest as one block and puts back at most one CR and one LF.

## Contents
- **Model.** `readChunk`, the body of the loop with every access to the array checked; `run`, over the chunks a
  stream is read in.
- **Loops.** `stripLoop_spec`, `swapLoop_spec` and `put_spec`, each about an array that shows a string.
- **Chunks.** `readChunk_eq`, the whole body, and what it gives without a NUL (`readChunk_string`), with one in
  front (`readChunk_nul`) and behind a terminator (`readChunk_terminator`).
-/

namespace CSamples
namespace Libevent
namespace Server

open C

/-- `sizeof(buffer)` in `read_cb` -/
def sizeofBuffer : Nat := 256

/-- `'\r'` -/
def cr : UInt8 := 0x0D
/-- `'\n'` -/
def lf : UInt8 := 0x0A

/-! ## The model -/

/-- `while(1){ p = strchr(buffer, c); if(!p) break; memmove(p, p + 1, strlen(p)); count++; }` -/
def stripLoop (c : UInt8) : Nat → Mem → Nat → Option (Mem × Nat)
  | 0, _, _ => none
  | fuel+1, buffer, count => do
      match ← strchr buffer c with
      | none => some (buffer, count)
      | some p =>
          let len ← strlen buffer p
          let buffer ← memmove buffer p (p + 1) len
          stripLoop c fuel buffer (count + 1)

/-- The loop that swaps `buffer[i]` and `buffer[last - i]`, from index `i`, `k` iterations left. -/
def swapLoop (last : Nat) : Nat → Nat → Mem → Option Mem
  | 0, _, buffer => some buffer
  | k+1, i, buffer => do
      let tmp ← load buffer i
      let b ← load buffer (last - i)
      let buffer ← store buffer i b
      let buffer ← store buffer (last - i) tmp
      swapLoop last k (i + 1) buffer

/-- `buffer[strlen(buffer)] = c; buffer[strlen(buffer) + 1] = '\0';` -/
def put (c : UInt8) (buffer : Mem) : Option Mem := do
  let len ← strlen buffer 0
  let buffer ← store buffer len c
  let len ← strlen buffer 0
  store buffer (len + 1) 0

/-- `if(cr){ ... }` and `if(lf){ ... }` behind the swaps. -/
def putIf (count : Nat) (c : UInt8) (buffer : Mem) : Option Mem :=
  if count ≠ 0 then put c buffer else some buffer

/-- The body of the loop of `read_cb`, for the `n` bytes `bufferevent_read` stored: the bytes it writes back. -/
def readChunk (chunk : List UInt8) : Option (List UInt8) := do
  let buffer ← blit (List.replicate sizeofBuffer 0) 0 chunk
  let n := chunk.length
  -- `printf` reads the string as `strlen` does
  let len ← strlen buffer 0
  let hasNull := if len ≠ n then 1 else 0
  let (buffer, lfs) ← stripLoop lf (sizeofBuffer + 1) buffer 0
  let (buffer, crs) ← stripLoop cr (sizeofBuffer + 1) buffer 0
  let lenCtrl := crs + lfs + hasNull
  let buffer ← swapLoop (n - 1 - lenCtrl) ((n - lenCtrl) / 2) 0 buffer
  let buffer ← putIf crs cr buffer
  let buffer ← putIf lfs lf buffer
  some (buffer.take n)

/-- The bytes written back for the chunks a stream is read in; every chunk starts with a cleared buffer. -/
def run : List (List UInt8) → Option (List UInt8)
  | [] => some []
  | chunk :: chunks => do
      let out ← readChunk chunk
      let outs ← run chunks
      some (out ++ outs)

/-- A byte of a line terminator. -/
def isCtrl (b : UInt8) : Bool := b == cr || b == lf

/-! ## The loops -/

/-- `stripLoop` takes every `c` out of the string; the bytes behind the string move by as many NULs. -/
theorem stripLoop_spec {c : UInt8} (hc : c ≠ 0) (fuel : Nat) (s r : List UInt8) (count : Nat) (hs : 0 ∉ s)
    (hfuel : s.count c < fuel) :
    stripLoop c fuel (s ++ 0 :: r) count =
      some (s.filter (· ≠ c) ++ 0 :: (List.replicate (s.count c) 0 ++ r), count + s.count c) := by
  induction fuel generalizing s r count with
  | zero => exact absurd hfuel (Nat.not_lt_zero _)
  | succ fuel ih =>
      unfold stripLoop
      by_cases hmem : c ∈ s
      · obtain ⟨u, v, rfl, hu⟩ := List.eq_append_cons_of_mem hmem
        have hu0 : 0 ∉ u := fun h => hs (List.mem_append_left _ h)
        have hv0 : 0 ∉ v := fun h => hs (by simp [h])
        have hcv : 0 ∉ c :: v := fun h => hs (List.mem_append_right _ h)
        have hcount : (u ++ c :: v).count c = v.count c + 1 := by
          rw [List.count_append, List.count_eq_zero.mpr hu, List.count_cons_self, Nat.zero_add]
        have hcount' : (u ++ v).count c = v.count c := by
          rw [List.count_append, List.count_eq_zero.mpr hu, Nat.zero_add]
        have hfilter : (u ++ c :: v).filter (· ≠ c) = (u ++ v).filter (· ≠ c) := by simp
        have ih' := ih (u ++ v) (0 :: r) (count + 1) (by simp [hu0, hv0]) (by omega)
        rw [List.append_assoc, strchr_of_mem hu0 hv0 hc hu]
        simp only [Option.bind_eq_bind, Option.bind_some]
        rw [strlen_append hcv, Option.bind_some, List.length_cons, memmove_pred, Option.bind_some, ih', hfilter, hcount,
          hcount', List.replicate_succ']
        simp
        omega
      · rw [strchr_of_not_mem hs hmem]
        have hcount : s.count c = 0 := List.count_eq_zero.mpr hmem
        have hfilter : s.filter (· ≠ c) = s := List.filter_eq_self.mpr fun b hb => by
          simpa using fun h : b = c => hmem (h ▸ hb)
        simp only [Option.bind_eq_bind, Option.bind_some]
        rw [hcount, hfilter]
        rfl

theorem swapLoop_spec_aux (k : Nat) (p mid q tail : List UInt8) (hk : k = mid.length / 2) (hpq : p.length = q.length) :
    swapLoop (p.length + mid.length + q.length - 1) k p.length (p ++ (mid ++ (q ++ tail))) =
      some (p ++ (mid.reverse ++ (q ++ tail))) := by
  induction k generalizing p mid q with
  | zero =>
      -- at most one byte is left in the middle
      have hrev : mid.reverse = mid := by
        match mid, hk with
        | [], _  => rfl
        | [a], _ => rfl
        | _ :: _ :: _, hk => simp at hk; omega
      rw [swapLoop, hrev]
  | succ k ih =>
      match mid, hk with
      | a :: mid, hk =>
          rcases List.eq_nil_or_concat mid with rfl | ⟨mid, b, rfl⟩
          · simp at hk
          rw [List.concat_eq_append] at hk ⊢
          rw [List.length_cons, List.length_append, List.length_singleton] at hk
          have hlast : p.length + (a :: (mid ++ [b])).length + q.length - 1 - p.length = (p ++ a :: mid).length := by
            simp
            omega
          have hlast' : p.length + (a :: (mid ++ [b])).length + q.length - 1 - p.length = (p ++ b :: mid).length := by
            rw [hlast]
            simp
          have ih' := ih (p ++ [b]) mid (a :: q) (by omega) (by simp [hpq])
          have hlen : (p ++ [b]).length + mid.length + (a :: q).length - 1 =
              p.length + (a :: (mid ++ [b])).length + q.length - 1 := by
            simp
            omega
          have h₁ : load (p ++ (a :: (mid ++ [b]) ++ (q ++ tail))) p.length = some a := load_append _ _ _ rfl
          have h₂ : load (p ++ (a :: (mid ++ [b]) ++ (q ++ tail)))
              (p.length + (a :: (mid ++ [b])).length + q.length - 1 - p.length) = some b := by
            have := load_append (p ++ a :: mid) b (q ++ tail) hlast
            simpa using this
          have h₃ : store (p ++ (a :: (mid ++ [b]) ++ (q ++ tail))) p.length b =
              some (p ++ b :: mid ++ b :: (q ++ tail)) := by
            have := store_append p a (mid ++ [b] ++ (q ++ tail)) b rfl
            simpa using this
          have h₄ : store (p ++ b :: mid ++ b :: (q ++ tail))
              (p.length + (a :: (mid ++ [b])).length + q.length - 1 - p.length) a =
              some (p ++ b :: mid ++ a :: (q ++ tail)) := store_append _ _ _ _ hlast'
          rw [hlen] at ih'
          rw [swapLoop, h₁]
          simp only [Option.bind_eq_bind, Option.bind_some]
          rw [h₂, Option.bind_some, h₃, Option.bind_some, h₄, Option.bind_some]
          simpa using ih'

/-- **The loop reverses the first `n` bytes.** -/
theorem swapLoop_spec {n : Nat} {m : Mem} (hn : n ≤ m.length) :
    swapLoop (n - 1) (n / 2) 0 m = some ((m.take n).reverse ++ m.drop n) := by
  have h := swapLoop_spec_aux (n / 2) [] (m.take n) [] (m.drop n) (by rw [List.length_take, Nat.min_eq_left hn]) rfl
  simpa [Nat.min_eq_left hn] using h

/-- `put` behind a string that at least three NULs follow; the array must have room for them. -/
theorem put_spec {c : UInt8} (hc : c ≠ 0) {s : List UInt8} (hs : 0 ∉ s) (x : UInt8) (r : List UInt8) :
    put c (s ++ 0 :: 0 :: x :: r) = some (s ++ c :: 0 :: 0 :: r) := by
  have hs' : 0 ∉ s ++ [c] := by simp [hs, Ne.symm hc]
  have h₁ : strlen (s ++ c :: 0 :: x :: r) 0 = some (s.length + 1) := by
    simpa using strlen_append_nul hs' (x :: r)
  have h₂ : store (s ++ c :: 0 :: x :: r) (s.length + 1 + 1) 0 = some (s ++ c :: 0 :: 0 :: r) := by
    simpa using @store_append (s ++ [c, 0]) x r 0 (s.length + 1 + 1) (by simp)
  rw [put, strlen_append_nul hs]
  simp only [Option.bind_eq_bind, Option.bind_some]
  rw [store_append _ _ _ _ rfl, Option.bind_some, h₁, Option.bind_some, h₂]

/-- Without that room it writes outside the array. -/
theorem put_short {c : UInt8} (hc : c ≠ 0) {s r : List UInt8} (hs : 0 ∉ s) (hr : r = [] ∨ r = [0]) :
    put c (s ++ 0 :: r) = none := by
  have hs' : 0 ∉ s ++ [c] := by simp [hs, Ne.symm hc]
  rw [put, strlen_append_nul hs]
  simp only [Option.bind_eq_bind, Option.bind_some]
  rw [store_append _ _ _ _ rfl, Option.bind_some]
  rcases hr with rfl | rfl
  · have h₁ : strlen (s ++ [c]) 0 = none := by
      rw [strlen, strAt, List.drop_zero, Option.map_eq_none_iff]
      by_contra hne
      obtain ⟨u, hu⟩ := Option.ne_none_iff_exists'.mp hne
      exact hs' (cstr_isSome_iff.mp ⟨u, hu⟩)
    rw [h₁]
    rfl
  · have h₁ : strlen (s ++ [c, 0]) 0 = some (s.length + 1) := by simpa using strlen_append_nul hs' []
    rw [h₁, Option.bind_some, store, if_neg (by simp)]

/-! ## What a chunk becomes -/

/-- The bytes of a chunk that are reversed. -/
def body (s : List UInt8) : List UInt8 := s.filter fun b => !isCtrl b

/-- The terminators put back. -/
def ends (s : List UInt8) : List UInt8 := (if cr ∈ s then [cr] else []) ++ (if lf ∈ s then [lf] else [])

theorem not_mem_body {s : List UInt8} (hs : 0 ∉ s) : 0 ∉ (body s).reverse := by
  rw [List.mem_reverse]
  exact fun h => hs (List.mem_of_mem_filter h)

theorem length_body (s : List UInt8) : (body s).length + (s.count lf + s.count cr) = s.length := by
  induction s with
  | nil => rfl
  | cons b s ih =>
      by_cases hb : isCtrl b = true
      · have hbody : body (b :: s) = body s := by simp [body, hb]
        rcases (by simpa [isCtrl] using hb : b = cr ∨ b = lf) with rfl | rfl
        · rw [hbody, List.count_cons_self, List.count_cons_of_ne (by decide), List.length_cons]
          omega
        · rw [hbody, List.count_cons_self, List.count_cons_of_ne (by decide), List.length_cons]
          omega
      · have hbody : body (b :: s) = b :: body s := by simp [body, hb]
        have hne : b ≠ cr ∧ b ≠ lf := by simpa [isCtrl] using hb
        rw [hbody, List.count_cons_of_ne hne.1, List.count_cons_of_ne hne.2, List.length_cons, List.length_cons]
        omega

/-- The puts at the end of the body of the loop. -/
def close (s : List UInt8) (buffer : Mem) : Option Mem :=
  (putIf (s.count cr) cr buffer).bind (putIf (s.count lf) lf)

/-- **The body of the loop**, for a buffer that shows the string `s` and then `r`: the string without its
    terminators, with NULs in their place, reversed over the length that is left. -/
theorem readChunk_eq {chunk s r : List UInt8} (hs : 0 ∉ s) (hlen : chunk.length ≤ sizeofBuffer)
    (hbuf : chunk ++ List.replicate (sizeofBuffer - chunk.length) 0 = s ++ 0 :: r) {n : Nat}
    (hn : n = chunk.length - (s.count cr + s.count lf + if s.length ≠ chunk.length then 1 else 0)) {m : Mem}
    (hm : m = body s ++ 0 :: (List.replicate (s.count cr + s.count lf) 0 ++ r)) :
    readChunk chunk = (close s ((m.take n).reverse ++ m.drop n)).map (List.take chunk.length) := by
  have hsize : s.length + (r.length + 1) = sizeofBuffer := by
    have := congrArg List.length hbuf
    simp only [List.length_append, List.length_replicate, List.length_cons] at this
    omega
  have hstore : blit (List.replicate sizeofBuffer 0) 0 chunk = some (s ++ 0 :: r) := by
    rw [blit_eq_some (by simpa using hlen), ← hbuf]
    simp
  -- the two loops that strip the terminators
  have hs' : 0 ∉ s.filter (· ≠ lf) := fun h => hs (List.mem_of_mem_filter h)
  have hcr : (s.filter (· ≠ lf)).count cr = s.count cr := List.count_filter (by decide)
  have hstrip₁ := stripLoop_spec (c := lf) (by decide) (sizeofBuffer + 1) s r 0 hs
    (by have := s.count_le_length (a := lf); omega)
  have hstrip₂ := stripLoop_spec (c := cr) (by decide) (sizeofBuffer + 1) (s.filter (· ≠ lf))
    (List.replicate (s.count lf) 0 ++ r) 0 hs' (by have := s.count_le_length (a := cr); omega)
  have hbody : (s.filter (· ≠ lf)).filter (· ≠ cr) = body s := by
    rw [List.filter_filter, body]
    exact List.filter_congr fun b _ => by simp only [isCtrl, Bool.not_or, decide_not]; rfl
  have hm' : body s ++ 0 :: (List.replicate (s.count cr) 0 ++ (List.replicate (s.count lf) 0 ++ r)) = m := by
    rw [hm, List.replicate_add, List.append_assoc]
  rw [hcr, hbody, hm', Nat.zero_add] at hstrip₂
  rw [Nat.zero_add] at hstrip₁
  -- the swaps
  have hswap : swapLoop (chunk.length - 1 - (s.count cr + s.count lf + if s.length ≠ chunk.length then 1 else 0))
      ((chunk.length - (s.count cr + s.count lf + if s.length ≠ chunk.length then 1 else 0)) / 2) 0 m =
      some ((m.take n).reverse ++ m.drop n) := by
    rw [Nat.sub_right_comm, ← hn]
    refine swapLoop_spec ?_
    have := length_body s
    rw [hm, List.length_append, List.length_cons, List.length_append, List.length_replicate]
    omega
  rw [readChunk, hstore]
  simp only [Option.bind_eq_bind, Option.bind_some]
  rw [strlen_append_nul hs, Option.bind_some, hstrip₁, Option.bind_some, hstrip₂, Option.bind_some, hswap,
    Option.bind_some, close, Option.map_bind]
  cases putIf (s.count cr) cr ((m.take n).reverse ++ m.drop n) with
  | none => rfl
  | some buffer => cases h : putIf (s.count lf) lf buffer <;> simp [h]

/-- A string of 256 bytes and more has no NUL in the array. -/
theorem readChunk_full {chunk : List UInt8} (hs : 0 ∉ chunk) (hlen : sizeofBuffer ≤ chunk.length) :
    readChunk chunk = none := by
  rw [readChunk]
  by_cases hle : chunk.length ≤ sizeofBuffer
  · have hnone : strlen chunk 0 = none := by
      rw [strlen, strAt, List.drop_zero, Option.map_eq_none_iff]
      by_contra hne
      obtain ⟨u, hu⟩ := Option.ne_none_iff_exists'.mp hne
      exact hs (cstr_isSome_iff.mp ⟨u, hu⟩)
    rw [blit_eq_some (by simpa using hle)]
    simp [show chunk.length = sizeofBuffer by omega, hnone]
  · rw [blit, if_neg (by simpa using hle)]
    rfl

/-- `put` on a string that only NULs follow. -/
theorem put_zeros {c : UInt8} (hc : c ≠ 0) {x : List UInt8} (hx : 0 ∉ x) {j : Nat} (hj : 0 < j) :
    put c (x ++ List.replicate j 0) =
      if 3 ≤ j then some (x ++ [c] ++ List.replicate (j - 1) 0) else none := by
  match j, hj with
  | 1, _     => exact put_short hc hx (.inl rfl)
  | 2, _     => exact put_short hc hx (.inr rfl)
  | j + 3, _ =>
      have h := put_spec hc hx 0 (List.replicate j 0)
      simpa [List.replicate_succ] using h

/-- The two puts, on a string that only NULs follow. -/
theorem close_zeros {s x : List UInt8} (hx : 0 ∉ x) {j : Nat} (hj : 0 < j) :
    close s (x ++ List.replicate j 0) =
      if ends s = [] ∨ (ends s).length + 2 ≤ j then
        some (x ++ ends s ++ List.replicate (j - (ends s).length) 0)
      else none := by
  have hcr : s.count cr ≠ 0 ↔ cr ∈ s := by rw [← Nat.pos_iff_ne_zero, List.count_pos_iff]
  have hlf : s.count lf ≠ 0 ↔ lf ∈ s := by rw [← Nat.pos_iff_ne_zero, List.count_pos_iff]
  have hx' : 0 ∉ x ++ [cr] := by simp [hx]; decide
  rw [close, putIf, ends]
  by_cases h₁ : cr ∈ s
  · rw [if_pos (hcr.mpr h₁), put_zeros (by decide) hx hj, if_pos h₁]
    by_cases h₂ : lf ∈ s
    · rw [if_pos h₂]
      by_cases h3 : 3 ≤ j
      · rw [if_pos h3, Option.bind_some, putIf, if_pos (hlf.mpr h₂), put_zeros (by decide) hx' (by omega)]
        by_cases h4 : 4 ≤ j
        · rw [if_pos (by omega), if_pos (.inr (by simpa using h4))]
          simp [Nat.sub_sub]
        · rw [if_neg (by omega), if_neg (by simpa using h4)]
      · rw [if_neg h3, if_neg (by simp; omega)]
        rfl
    · rw [if_neg h₂]
      by_cases h3 : 3 ≤ j
      · rw [if_pos h3, Option.bind_some, putIf, if_neg (fun h => h₂ (hlf.mp h)), if_pos (.inr (by simpa using h3))]
        simp
      · rw [if_neg h3, if_neg (by simpa using h3)]
        rfl
  · rw [if_neg (fun h => h₁ (hcr.mp h)), Option.bind_some, if_neg h₁, putIf]
    by_cases h₂ : lf ∈ s
    · rw [if_pos (hlf.mpr h₂), put_zeros (by decide) hx hj, if_pos h₂]
      by_cases h3 : 3 ≤ j
      · rw [if_pos h3, if_pos (.inr (by simpa using h3))]
        simp
      · rw [if_neg h3, if_neg (by simpa using h3)]
    · rw [if_neg (fun h => h₂ (hlf.mp h)), if_neg h₂, if_pos (.inl rfl)]
      simp

/-- **A chunk without a NUL, or with one as its last byte**: its bytes reversed, one CR and one LF behind them if
    there was any, and NULs for the others. -/
theorem readChunk_string {s z : List UInt8} (hs : 0 ∉ s) (hz : z = [] ∨ z = [0]) (hlen : s.length < sizeofBuffer) :
    readChunk (s ++ z) =
      if ends s = [] ∨ (body s).length + (ends s).length + 2 ≤ sizeofBuffer then
        some (((body s).reverse ++ ends s ++ List.replicate (sizeofBuffer - (body s).length - (ends s).length) 0).take
          (s ++ z).length)
      else none := by
  have hlb := length_body s
  have hzn : z = List.replicate z.length 0 := by rcases hz with rfl | rfl <;> rfl
  have hz1 : z.length ≤ 1 := by rcases hz with rfl | rfl <;> simp
  have hbuf : s ++ z ++ List.replicate (sizeofBuffer - (s ++ z).length) 0 =
      s ++ 0 :: List.replicate (sizeofBuffer - s.length - 1) 0 := by
    rw [List.append_assoc, hzn, List.replicate_append_replicate, ← List.replicate_succ, List.length_append,
      List.length_replicate]
    congr 2
    omega
  have hm : body s ++ 0 :: (List.replicate (s.count cr + s.count lf) 0 ++
      List.replicate (sizeofBuffer - s.length - 1) 0) =
      body s ++ List.replicate (sizeofBuffer - (body s).length) 0 := by
    rw [List.replicate_append_replicate, ← List.replicate_succ]
    congr 2
    omega
  have hn : (body s).length = (s ++ z).length -
      (s.count cr + s.count lf + if s.length ≠ (s ++ z).length then 1 else 0) := by
    rcases hz with rfl | rfl
    · simp
      omega
    · simp
      omega
  rw [readChunk_eq hs (by simp; omega) hbuf hn hm.symm, List.take_left, List.drop_left,
    close_zeros (not_mem_body hs) (by omega)]
  by_cases h : ends s = [] ∨ (ends s).length + 2 ≤ sizeofBuffer - (body s).length
  · rw [if_pos h, if_pos (h.imp_right fun h => by omega)]
    rfl
  · rw [if_neg h, if_neg (fun h' => h (h'.imp_right fun h' => by omega))]
    rfl

/-- A chunk that starts with a NUL: all its bytes but the last are reversed, terminators and all. -/
theorem readChunk_nul {r : List UInt8} {y : UInt8} (hlen : r.length + 2 ≤ sizeofBuffer) :
    readChunk (0 :: (r ++ [y])) = some (r.reverse ++ [0, y]) := by
  have hbuf : 0 :: (r ++ [y]) ++ List.replicate (sizeofBuffer - (0 :: (r ++ [y])).length) 0 =
      [] ++ 0 :: (r ++ y :: List.replicate (sizeofBuffer - (r.length + 2)) 0) := by
    simp
  have hm : (0 :: (r ++ y :: List.replicate (sizeofBuffer - (r.length + 2)) 0) : List UInt8) =
      body [] ++ 0 :: (List.replicate (([] : List UInt8).count cr + ([] : List UInt8).count lf) 0 ++
        (r ++ y :: List.replicate (sizeofBuffer - (r.length + 2)) 0)) := by
    simp [body]
  have hchunk : (0 :: (r ++ [y])).length ≤ sizeofBuffer := by
    rw [List.length_cons, List.length_append, List.length_singleton]
    omega
  rw [readChunk_eq (n := r.length + 1) (by simp) hchunk hbuf (by simp) hm]
  have htake : (r.reverse ++ 0 :: y :: List.replicate (sizeofBuffer - (r.length + 2)) 0).take (r.length + 1 + 1) =
      r.reverse ++ [0, y] := by
    have := @List.take_left' _ (r.reverse ++ [0, y]) (List.replicate (sizeofBuffer - (r.length + 2)) 0)
      (r.length + 1 + 1) (by simp)
    simpa using this
  simpa [close, putIf] using htake

/-- A line terminator of the server's clients, or none. -/
def terminators : List (List UInt8) := [[], [cr], [lf], [cr, lf]]

theorem terminator_spec : ∀ t ∈ terminators, 0 ∉ t ∧ body t = [] ∧ ends t = t ∧
    t.count cr + t.count lf = t.length ∧ t.length ≤ 2 := by
  decide

/-- The puts behind a terminator whose line was empty write it, and two NULs behind it. -/
theorem close_terminator {t : List UInt8} (ht : t ∈ terminators) (hne : t ≠ []) (x : UInt8) (r : List UInt8) :
    close t (List.replicate t.length 0 ++ 0 :: x :: r) = some (t ++ 0 :: 0 :: r) := by
  have hput (c : UInt8) (hc : c ≠ 0) (x : UInt8) (r : List UInt8) : put c (0 :: 0 :: x :: r) = some (c :: 0 :: 0 :: r) :=
    put_spec hc (s := []) (by simp) x r
  simp only [terminators, List.mem_cons, List.not_mem_nil, or_false] at ht
  rcases ht with rfl | rfl | rfl | rfl
  · exact absurd rfl hne
  · exact hput cr (by decide) x r
  · exact hput lf (by decide) x r
  · have h := put_spec (c := lf) (by decide) (s := [cr]) (by decide) x r
    show (put cr (0 :: 0 :: 0 :: x :: r)).bind _ = _
    rw [show put cr (0 :: 0 :: 0 :: x :: r) = some (cr :: 0 :: 0 :: x :: r) from hput cr (by decide) 0 (x :: r)]
    exact h

/-- A terminator with NULs behind it, and at most one other byte at the end. -/
theorem readChunk_terminator {t : List UInt8} (ht : t ∈ terminators) (hne : t ≠ []) (p : Nat) {y : List UInt8}
    (hy : y.length ≤ 1) (hlen : (t ++ 0 :: (List.replicate p 0 ++ y)).length ≤ sizeofBuffer) {x : UInt8}
    {r : List UInt8} (hx : List.replicate p 0 ++ y ++
      List.replicate (sizeofBuffer - (t ++ 0 :: (List.replicate p 0 ++ y)).length) 0 = x :: r) :
    readChunk (t ++ 0 :: (List.replicate p 0 ++ y)) =
      some ((t ++ 0 :: 0 :: r).take (t ++ 0 :: (List.replicate p 0 ++ y)).length) := by
  obtain ⟨ht0, hbody, -, hcount, -⟩ := terminator_spec t ht
  have hbuf : t ++ 0 :: (List.replicate p 0 ++ y) ++
      List.replicate (sizeofBuffer - (t ++ 0 :: (List.replicate p 0 ++ y)).length) 0 = t ++ 0 :: (x :: r) := by
    rw [← hx]
    simp
  have hm : List.replicate t.length 0 ++ 0 :: (x :: r) =
      body t ++ 0 :: (List.replicate (t.count cr + t.count lf) 0 ++ (x :: r)) := by
    rw [hbody, hcount, List.nil_append, ← List.cons_append, ← List.replicate_succ, List.replicate_succ',
      List.append_assoc]
    rfl
  -- only NULs are reversed
  have hzeros : List.replicate t.length 0 ++ 0 :: (x :: r) = List.replicate (t.length + 1 + p) 0 ++ (y ++
      List.replicate (sizeofBuffer - (t ++ 0 :: (List.replicate p 0 ++ y)).length) 0) := by
    rw [← hx, List.replicate_add, List.replicate_succ']
    simp
  have hrev : ((List.replicate t.length 0 ++ 0 :: (x :: r)).take (p + y.length)).reverse ++
      (List.replicate t.length 0 ++ 0 :: (x :: r)).drop (p + y.length) = List.replicate t.length 0 ++ 0 :: (x :: r) := by
    have htake : (List.replicate t.length 0 ++ 0 :: (x :: r)).take (p + y.length) = List.replicate (p + y.length) 0 := by
      rw [hzeros, List.take_append_of_le_length (by simp; omega), List.take_replicate]
      congr 1
      have := List.length_pos_iff.mpr hne
      omega
    conv => rhs; rw [← List.take_append_drop (p + y.length) (List.replicate t.length 0 ++ 0 :: (x :: r))]
    rw [htake, List.reverse_replicate]
  rw [readChunk_eq (n := p + y.length) ht0 hlen hbuf (by simp [hcount]; omega) hm, hrev,
    close_terminator ht hne]
  rfl

/-- The designed case: a line terminator and NULs, with any byte behind two NULs. -/
theorem readChunk_terminator_nuls {t : List UInt8} (ht : t ∈ terminators) (hne : t ≠ []) (p : Nat) {y : List UInt8}
    (hy : y.length ≤ 1) (hp : p = 0 → y = []) (hlen : (t ++ 0 :: (List.replicate p 0 ++ y)).length ≤ sizeofBuffer) :
    readChunk (t ++ 0 :: (List.replicate p 0 ++ y)) = some (t ++ 0 :: (List.replicate p 0 ++ y)) := by
  obtain ⟨ht0, hbody, hends, -, ht2⟩ := terminator_spec t ht
  cases p with
  | zero =>
      obtain rfl := hp rfl
      have h := readChunk_string (z := [0]) ht0 (.inr rfl) (by unfold sizeofBuffer; omega)
      rw [hbody, hends, if_pos (.inr (by simp [sizeofBuffer]; omega))] at h
      simp only [List.length_nil, List.reverse_nil, List.nil_append] at h
      rw [show sizeofBuffer - 0 - t.length = sizeofBuffer - t.length - 1 + 1 by unfold sizeofBuffer; omega,
        List.replicate_succ] at h
      have htake : (t ++ 0 :: List.replicate (sizeofBuffer - t.length - 1) 0).take (t ++ [0]).length = t ++ [0] := by
        rw [List.append_cons t 0 (List.replicate _ _)]
        exact List.take_left' rfl
      rw [htake] at h
      exact h
  | succ p =>
      rw [readChunk_terminator ht hne (p + 1) hy hlen (x := 0)
        (r := List.replicate p 0 ++ y ++ List.replicate
          (sizeofBuffer - (t ++ 0 :: (List.replicate (p + 1) 0 ++ y)).length) 0) rfl]
      have htake := @List.take_left' _ (t ++ 0 :: (List.replicate (p + 1) 0 ++ y))
        (List.replicate (sizeofBuffer - (t ++ 0 :: (List.replicate (p + 1) 0 ++ y)).length) (0 : UInt8)) _ rfl
      simpa [List.replicate_succ] using htake

/-- One NUL only: the byte behind it is lost. -/
theorem readChunk_terminator_lost {t : List UInt8} (ht : t ∈ terminators) (hne : t ≠ []) (y : UInt8) :
    readChunk (t ++ [0, y]) = some (t ++ [0, 0]) := by
  have hlen : (t ++ 0 :: (List.replicate 0 0 ++ [y])).length ≤ sizeofBuffer := by
    have := (terminator_spec t ht).2.2.2.2
    simp [sizeofBuffer]
    omega
  have h := readChunk_terminator ht hne 0 (y := [y]) (by simp) hlen rfl
  have htake := @List.take_left' _ (t ++ [0, 0])
    (List.replicate (sizeofBuffer - (t ++ [0, y]).length) (0 : UInt8)) (t ++ [0, y]).length (by simp)
  rw [List.append_assoc] at htake
  exact h.trans (congrArg some htake)

/-- `put` keeps the first byte, unless that is the NUL it overwrites. -/
theorem put_head {c b : UInt8} {w m' : Mem} (h : put c (b :: w) = some m') : ∃ w', m' = (if b = 0 then c else b) :: w' := by
  simp only [put, Option.bind_eq_bind, Option.bind_eq_some_iff] at h
  obtain ⟨len, hlen, m₁, hm₁, len', -, hm'⟩ := h
  have hset {m m' : Mem} {i : Nat} {x : UInt8} (h : store m i x = some m') : m' = m.set i x := by
    rw [store] at h
    split at h
    · exact (Option.some.inj h).symm
    · simp at h
  obtain rfl := hset hm₁
  obtain rfl := hset hm'
  by_cases hb : b = 0
  · obtain rfl : 0 = len := by simpa [hb, strlen, strAt] using hlen
    rw [if_pos hb]
    exact ⟨_, rfl⟩
  · rw [if_neg hb]
    cases len with
    | zero =>
        exfalso
        obtain ⟨s, hs, h0⟩ := Option.map_eq_some_iff.mp hlen
        rw [strAt, List.drop_zero, List.eq_nil_of_length_eq_zero h0] at hs
        obtain ⟨-, r, hr⟩ := cstr_eq_some_iff.mp hs
        exact hb (List.cons.inj hr).1
    | succ len => exact ⟨_, rfl⟩

/-- What the puts leave in front of a string that starts with a NUL. -/
theorem close_head {s w m' : List UInt8} (h : close s (0 :: w) = some m') :
    ∃ b w', m' = b :: w' ∧ (b = 0 ∨ isCtrl b = true) := by
  obtain ⟨m₁, h₁, h₂⟩ := Option.bind_eq_some_iff.mp h
  have hfirst : ∃ b w', m₁ = b :: w' ∧ (b = 0 ∨ isCtrl b = true) := by
    rw [putIf] at h₁
    split at h₁
    · obtain ⟨w', rfl⟩ := put_head h₁
      exact ⟨_, w', rfl, .inr (by decide)⟩
    · obtain rfl := Option.some.inj h₁
      exact ⟨0, w, rfl, .inl rfl⟩
  obtain ⟨b, w', rfl, hb⟩ := hfirst
  rw [putIf] at h₂
  split at h₂
  · obtain ⟨w'', rfl⟩ := put_head h₂
    refine ⟨_, w'', rfl, ?_⟩
    by_cases hb0 : b = 0
    · rw [if_pos hb0]
      exact .inr (by decide)
    · rw [if_neg hb0]
      exact .inr (hb.resolve_left hb0)
  · obtain rfl := Option.some.inj h₂
    exact ⟨b, w', rfl, hb⟩

/-- An ordinary byte, a terminator, a NUL and another byte: the first byte is not where it was. -/
theorem readChunk_mixed {a : UInt8} (ha : a ≠ 0) (hc : isCtrl a = false) {t : List UInt8} (ht : t ∈ terminators)
    (y : UInt8) : readChunk (a :: t ++ [0, y]) ≠ some (a :: t ++ [0, y]) := by
  obtain ⟨ht0, hbody, -, hcount, ht2⟩ := terminator_spec t ht
  have hs : 0 ∉ a :: t := by simp [Ne.symm ha, ht0]
  have hbody' : body (a :: t) = [a] := by
    rw [body, List.filter_cons_of_pos (by simp [hc])]
    exact congrArg (a :: ·) hbody
  have hne : a ≠ cr ∧ a ≠ lf := by simpa [isCtrl] using hc
  have hcount' : (a :: t).count cr + (a :: t).count lf = t.length := by
    rw [List.count_cons_of_ne hne.1, List.count_cons_of_ne hne.2, hcount]
  have hbuf : a :: t ++ [0, y] ++ List.replicate (sizeofBuffer - (a :: t ++ [0, y]).length) 0 =
      (a :: t) ++ 0 :: (y :: List.replicate (sizeofBuffer - (a :: t ++ [0, y]).length) 0) := by
    simp
  rw [readChunk_eq (n := 2) hs (by simp [sizeofBuffer]; omega) hbuf (by simp [hcount']) rfl, hbody', hcount']
  intro h
  obtain ⟨m', hm', htake⟩ := Option.map_eq_some_iff.mp h
  obtain ⟨b, w', rfl, hb⟩ := close_head hm'
  obtain rfl : b = a := by simpa using congrArg List.head? htake
  rcases hb with hb | hb
  · exact ha hb
  · rw [hb] at hc
    exact Bool.noConfusion hc

end Server
end Libevent
end CSamples
