import CSamples.C.Memory

/-!
# `Socket.RecvHandler` — one call of the socket server's `recv_handler`

`recv_handler` of `socket/server/recv_handler.c` takes what one `recv` returns for one message: it cuts it at the
first CR or LF, appends `:OK` CR LF with `mystrlcat` and sends that back, or stops the server at `shutdown`.

## Contents
- **Model.** `mystrlcat` with its loops, and `recvHandler`; every access to an array is checked.
- **`mystrlcat_spec`**, for a string that is shorter than the array; `mystrlcat_appends_iff`, for any array.
- **`recvHandler_data`**, what is sent back for a message; `recvHandler_reply_iff`, when that is complete.
-/

namespace CSamples
namespace Socket

open C

/-- `'\r'` -/
def cr : UInt8 := 0x0D
/-- `'\n'` -/
def lf : UInt8 := 0x0A

/-! ## `mystrlcat` -/

/-- `for (pd = dst, lest = size; *pd != '\0' && lest != 0; pd++, lest--);` -/
def seekLoop (dst : Mem) : Nat → Nat → Option Nat
  | 0, pd => do
      let _ ← load dst pd
      some pd
  | lest+1, pd => do
      let b ← load dst pd
      if b ≠ 0 then seekLoop dst lest (pd + 1) else some pd

/-- `for (ps = src; *ps != '\0' && pd < pde; pd++, ps++) { *pd = *ps; }`, with the bytes from `ps` on. -/
def copyLoop (pde : Nat) : Mem → Nat → Mem → Option (Mem × Nat × Mem)
  | [], _, _ => none
  | b :: ps, pd, dst =>
      if b ≠ 0 ∧ pd < pde then do
        let dst ← store dst pd b
        copyLoop pde ps (pd + 1) dst
      else some (dst, pd, b :: ps)

/-- `for (; pd <= pde; pd++) { *pd = '\0'; }`, `n` iterations. -/
def fillLoop : Nat → Nat → Mem → Option Mem
  | 0, _, dst => some dst
  | n+1, pd, dst => do
      let dst ← store dst pd 0
      fillLoop n (pd + 1) dst

/-- `mystrlcat(dst, src, size)`: the array, and the result. -/
def mystrlcat (dst src : Mem) (size : Nat) : Option (Mem × Nat) := do
  let dlen ← seekLoop dst size 0
  if size - dlen = 0 then
    let slen ← strlen src 0
    some (dst, dlen + slen)
  else
    let pde := size - 1
    let (dst, pd, ps) ← copyLoop pde src dlen dst
    let dst ← fillLoop (pde + 1 - pd) pd dst
    let tail ← strlen ps 0
    some (dst, dlen + (src.length - ps.length + tail))

theorem seekLoop_spec {s r : List UInt8} (hs : 0 ∉ s) {lest : Nat} (hlest : s.length ≤ lest) (p : List UInt8) :
    seekLoop (p ++ (s ++ 0 :: r)) lest p.length = some (p.length + s.length) := by
  induction s generalizing lest p with
  | nil =>
      have hload : load (p ++ 0 :: r) p.length = some 0 := load_append p 0 r rfl
      cases lest with
      | zero => simp [seekLoop, hload]
      | succ lest => simp [seekLoop, hload]
  | cons b s ih =>
      have hb : b ≠ 0 := fun h => hs (by simp [h])
      have hload : load (p ++ (b :: (s ++ 0 :: r))) p.length = some b := load_append p b _ rfl
      cases lest with
      | zero => simp at hlest
      | succ lest =>
          have ih := ih (fun h => hs (List.mem_cons_of_mem b h)) (by simpa using hlest) (p ++ [b])
          rw [List.length_append, List.append_assoc] at ih
          rw [seekLoop, List.cons_append, hload]
          simp only [Option.bind_eq_bind, Option.bind_some, if_pos hb]
          rw [List.length_cons, ← ih.trans (congrArg some (by simp; omega))]
          rfl

theorem copyLoop_spec {t u : List UInt8} (ht : 0 ∉ t) {pde : Nat} (p : List UInt8) (hp : p.length ≤ pde)
    (q : List UInt8) (hq : pde ≤ p.length + q.length) :
    copyLoop pde (t ++ 0 :: u) p.length (p ++ q) =
      some (p ++ t.take (pde - p.length) ++ q.drop (min t.length (pde - p.length)),
        p.length + min t.length (pde - p.length), t.drop (pde - p.length) ++ 0 :: u) := by
  induction t generalizing p q with
  | nil => simp [copyLoop]
  | cons b t ih =>
      have hb : b ≠ 0 := fun h => ht (by simp [h])
      by_cases hlt : p.length < pde
      · cases q with
        | nil => simp at hq; omega
        | cons c q =>
            have ih := ih (fun h => ht (List.mem_cons_of_mem b h)) (p ++ [b]) (by simp; omega) q
              (by simp at hq ⊢; omega)
            obtain ⟨k, hk⟩ : ∃ k, pde - p.length = k + 1 := ⟨pde - p.length - 1, by omega⟩
            have hk' : pde - (p ++ [b]).length = k := by simp; omega
            rw [hk', List.length_append, List.length_singleton] at ih
            rw [List.cons_append, copyLoop, if_pos ⟨hb, hlt⟩, store_append p c q b rfl, hk, List.append_cons]
            simp only [Option.bind_eq_bind, Option.bind_some]
            rw [ih]
            simp
            omega
      · have hk : pde - p.length = 0 := by omega
        rw [List.cons_append, copyLoop, if_neg (fun h => hlt h.2), hk]
        simp

theorem fillLoop_spec (n : Nat) (p q : List UInt8) (hn : n ≤ q.length) :
    fillLoop n p.length (p ++ q) = some (p ++ List.replicate n 0 ++ q.drop n) := by
  induction n generalizing p q with
  | zero => simp [fillLoop]
  | succ n ih =>
      cases q with
      | nil => simp at hn
      | cons c q =>
          have ih := ih (p ++ [0]) q (by simpa using hn)
          rw [List.length_append, List.length_singleton] at ih
          rw [fillLoop, store_append p c q 0 rfl, List.append_cons]
          simp only [Option.bind_eq_bind, Option.bind_some]
          rw [ih]
          simp [List.replicate_succ]

/-- **`mystrlcat`** on an array that shows a string shorter than `size`: as much of `src` behind it as fits with its
    NUL, and NULs up to `size`. -/
theorem mystrlcat_spec {s r t u : List UInt8} (hs : 0 ∉ s) (ht : 0 ∉ t) {size : Nat} (hlt : s.length < size)
    (hsize : size ≤ (s ++ 0 :: r).length) :
    mystrlcat (s ++ 0 :: r) (t ++ 0 :: u) size =
      some (s ++ t.take (size - 1 - s.length) ++
        List.replicate (size - s.length - min t.length (size - 1 - s.length)) 0 ++ (s ++ 0 :: r).drop size,
        s.length + t.length) := by
  have hlen : s.length + (r.length + 1) = (s ++ 0 :: r).length := by simp
  have hseek : seekLoop (s ++ 0 :: r) size 0 = some s.length := by
    simpa using seekLoop_spec hs (Nat.le_of_lt hlt) (r := r) []
  have hcopy := @copyLoop_spec t u ht (size - 1) s (by omega) (0 :: r) (by simp; omega)
  -- what is copied, and the NULs behind it
  have hpd : (s ++ t.take (size - 1 - s.length)).length = s.length + min t.length (size - 1 - s.length) := by
    rw [List.length_append, List.length_take, Nat.min_comm]
  have hn : size - 1 + 1 - (s.length + min t.length (size - 1 - s.length)) =
      size - s.length - min t.length (size - 1 - s.length) := by omega
  have hfill := fillLoop_spec (size - s.length - min t.length (size - 1 - s.length)) (s ++ t.take (size - 1 - s.length))
    ((0 :: r).drop (min t.length (size - 1 - s.length))) (by simp; omega)
  have hdrop : ((0 :: r).drop (min t.length (size - 1 - s.length))).drop
      (size - s.length - min t.length (size - 1 - s.length)) = (s ++ 0 :: r).drop size := by
    rw [List.drop_drop, List.drop_append, List.drop_eq_nil_of_le (Nat.le_of_lt hlt), List.nil_append]
    congr 1
    omega
  have htail : strlen (t.drop (size - 1 - s.length) ++ 0 :: u) 0 = some (t.drop (size - 1 - s.length)).length :=
    strlen_append_nul (fun h => ht (List.mem_of_mem_drop h)) u
  rw [hpd, hdrop] at hfill
  rw [mystrlcat, hseek]
  simp only [Option.bind_eq_bind, Option.bind_some]
  rw [if_neg (by omega), hcopy]
  simp only [Option.bind_some]
  rw [hn, hfill, Option.bind_some, htail, Option.bind_some]
  simp
  omega

/-- The first loop over an array without a NUL: it reads one byte more. -/
theorem seekLoop_unterminated {s : List UInt8} (hs : 0 ∉ s) (p r : List UInt8) :
    seekLoop (p ++ (s ++ r)) s.length p.length = if r = [] then none else some (p.length + s.length) := by
  induction s generalizing p with
  | nil =>
      cases r with
      | nil => simp [seekLoop, load]
      | cons b r =>
          have hload : load (p ++ (b :: r)) p.length = some b := load_append p b r rfl
          simp [seekLoop, hload]
  | cons b s ih =>
      have hb : b ≠ 0 := fun h => hs (by simp [h])
      have hload : load (p ++ (b :: (s ++ r))) p.length = some b := load_append p b _ rfl
      have hrest := ih (fun h => hs (List.mem_cons_of_mem b h)) (p ++ [b])
      rw [List.length_append, List.append_assoc] at hrest
      rw [List.length_cons, seekLoop, List.cons_append, hload]
      simp only [Option.bind_eq_bind, Option.bind_some, if_pos hb]
      rw [show p.length + (s.length + 1) = p.length + [b].length + s.length by simp; omega, ← hrest]
      rfl

/-- What `mystrlcat` is for: with `d` the smaller of `size` and the offset of the first NUL of `dst`, the result is `d`
    and the length of `t`; if `d < size`, as much of `t` as fits stands behind the first `d` bytes, and NULs up to
    `size`; else, and behind `size`, nothing changes. -/
def Appends (dst t : List UInt8) (size : Nat) (x : Mem × Nat) : Prop :=
  let d := min size (dst.idxOf 0)
  x.2 = d + t.length ∧ x.1.drop size = dst.drop size ∧
    (d < size → x.1.take size = dst.take d ++ t.take (min t.length (size - 1 - d)) ++
      List.replicate (size - d - min t.length (size - 1 - d)) 0) ∧
    (d = size → x.1 = dst)

/-- An array with a NUL among its first `size` bytes. -/
theorem appends_of_mem {dst t : List UInt8} {size : Nat} (hsize : size ≤ dst.length) (ht : 0 ∉ t)
    (hnul : 0 ∈ dst.take size) (u : List UInt8) :
    ∃ x, mystrlcat dst (t ++ 0 :: u) size = some x ∧ Appends dst t size x := by
  -- the string in front of the first NUL
  obtain ⟨s, r, rfl, hs⟩ := List.eq_append_cons_of_mem (List.mem_of_mem_take hnul)
  have hidx : (s ++ 0 :: r).idxOf 0 = s.length := by
    rw [List.idxOf_append_of_notMem hs, List.idxOf_cons_self]
    rfl
  have hlt : s.length < size := by
    by_contra hge
    rw [List.take_append_of_le_length (Nat.le_of_not_lt hge)] at hnul
    exact hs (List.mem_of_mem_take hnul)
  have hd : min size ((s ++ 0 :: r).idxOf 0) = s.length := by
    rw [hidx, Nat.min_eq_right (Nat.le_of_lt hlt)]
  have hfront : (s ++ t.take (size - 1 - s.length) ++
      List.replicate (size - s.length - min t.length (size - 1 - s.length)) 0).length = size := by
    simp only [List.length_append, List.length_take, List.length_replicate]
    omega
  refine ⟨_, mystrlcat_spec hs ht hlt hsize, ?_⟩
  unfold Appends
  simp only [hd]
  refine ⟨trivial, ?_, fun _ => ?_, fun h => absurd h (Nat.ne_of_lt hlt)⟩
  · rw [List.drop_append_of_le_length (Nat.le_of_eq hfront.symm), List.drop_eq_nil_of_le (Nat.le_of_eq hfront),
      List.nil_append]
  · rw [List.take_append_of_le_length (Nat.le_of_eq hfront.symm), List.take_of_length_le (Nat.le_of_eq hfront),
      List.take_left, Nat.min_comm t.length, ← List.take_eq_take_min]

/-- An array without: nothing is written, and the byte behind is read. -/
theorem mystrlcat_unterminated {dst t : List UInt8} {size : Nat} (hsize : size ≤ dst.length) (ht : 0 ∉ t)
    (hnul : 0 ∉ dst.take size) (u : List UInt8) :
    mystrlcat dst (t ++ 0 :: u) size = if dst.drop size = [] then none else some (dst, size + t.length) := by
  have hlen : (dst.take size).length = size := by rw [List.length_take, Nat.min_eq_left hsize]
  have hseek := seekLoop_unterminated hnul [] (dst.drop size)
  rw [List.nil_append, List.take_append_drop, hlen, List.length_nil, Nat.zero_add] at hseek
  rw [mystrlcat, hseek]
  split
  · rfl
  · simp only [Option.bind_eq_bind, Option.bind_some, Nat.sub_self, if_true, strlen_append_nul ht]

theorem appends_self {dst : List UInt8} {size : Nat} (hsize : size ≤ dst.length) (hnul : 0 ∉ dst.take size)
    (t : List UInt8) : Appends dst t size (dst, size + t.length) := by
  have hidx : size ≤ dst.idxOf 0 := by
    by_contra hgt
    refine hnul (List.mem_take_iff_getElem.mpr ⟨dst.idxOf 0, ?_, ?_⟩)
    · omega
    · exact List.getElem_idxOf _
  unfold Appends
  simp only [Nat.min_eq_left hidx]
  exact ⟨trivial, trivial, fun h => absurd h (Nat.lt_irrefl _), fun _ => trivial⟩

/-- **When `mystrlcat` appends**: always, but for an array that ends behind `size` bytes of which none is a NUL; then
    the byte behind it is read. -/
theorem mystrlcat_appends_iff {dst src t : List UInt8} {size : Nat} (hsize : size ≤ dst.length)
    (hsrc : cstr src = some t) :
    (∃ x, mystrlcat dst src size = some x ∧ Appends dst t size x) ↔ (0 ∈ dst.take size ∨ size < dst.length) := by
  obtain ⟨ht, u, rfl⟩ := cstr_eq_some_iff.mp hsrc
  by_cases hnul : 0 ∈ dst.take size
  · exact ⟨fun _ => .inl hnul, fun _ => appends_of_mem hsize ht hnul u⟩
  · rw [mystrlcat_unterminated hsize ht hnul]
    constructor
    · rintro ⟨x, hx, -⟩
      by_cases hend : dst.drop size = []
      · rw [if_pos hend] at hx
        exact absurd hx nofun
      · exact .inr (Nat.lt_of_not_le fun hle => hend (List.drop_eq_nil_of_le hle))
    · rintro (h | h)
      · exact absurd h hnul
      · have hne : dst.drop size ≠ [] := fun h0 => Nat.not_le.mpr h (List.drop_eq_nil_iff.mp h0)
        exact ⟨_, if_neg hne, appends_self hsize hnul t⟩

/-- `ab`, and a byte behind it. -/
theorem mystrlcat_appends_pair : ∃ x, mystrlcat [0x61, 0, 0x62] [0x63, 0] 2 = some x ∧ Appends [0x61, 0, 0x62] [0x63] 2 x :=
  (@mystrlcat_appends_iff [0x61, 0, 0x62] [0x63, 0] [0x63] 2 (by decide) (by decide)).mpr (by decide)

/-- One byte that is not a NUL, and nothing behind it. -/
theorem mystrlcat_overread : mystrlcat [0x61] [0] 1 = none := by decide

/-! ## `recv_handler` -/

/-- `sizeof(buf)` -/
def sizeofBuf : Nat := 512

/-- What `recv` and `read` do: they fail, or return bytes (none at the end of the stream). -/
inductive Input where
  | error
  | data (bytes : List UInt8)

/-- What a call does: the bytes it sends, if any; whether it closes the connection and leaves the event loop. -/
structure Outcome where
  sent     : Option (List UInt8)
  closed   : Bool
  loopexit : Bool
  deriving DecidableEq

/-- `":OK\r\n"` -/
def ok : List UInt8 := ch ':' :: ch 'O' :: ch 'K' :: [cr, lf]

/-- `"shutdown"` -/
def shutdown : List UInt8 := ['s', 'h', 'u', 't', 'd', 'o', 'w', 'n'].map ch

/-- `strpbrk(m, "\r\n")`, by its index. -/
def strpbrk : Mem → Option (Option Nat)
  | []     => none
  | b :: m =>
      if b = 0 then some none
      else if b = cr ∨ b = lf then some (some 0)
      else (strpbrk m).map fun p => p.map (· + 1)

/-- `if ((ptr = strpbrk(buf, "\r\n")) != NULL) { *ptr = '\0'; }` -/
def cutLine (buf : Mem) : Option Mem := do
  match ← strpbrk buf with
  | some p => store buf p 0
  | none   => some buf

/-- `recv_handler`, with the array `buf` as it finds it, what `recv` does, and whether `send` fails. -/
def recvHandler (buf : Mem) (i : Input) (sendFails : Bool) : Option Outcome :=
  match i with
  | .error      => some ⟨none, true, false⟩
  | .data bytes =>
      if bytes.length = 0 then some ⟨none, true, false⟩
      else do
        let buf ← blit buf 0 bytes
        let buf ← store buf bytes.length 0
        let buf ← cutLine buf
        let stop ← strEq buf shutdown
        if stop then some ⟨none, true, true⟩
        else
          let (buf, _) ← mystrlcat buf (ok ++ [0]) sizeofBuf
          let reply ← strAt buf 0
          some ⟨some reply, sendFails, false⟩

/-- The first line of a message: what is in front of its first NUL, CR or LF. -/
def firstLine (msg : List UInt8) : List UInt8 := msg.takeWhile fun b => b != 0 && b != cr && b != lf

/-- A message that fills the array is terminated outside it. -/
theorem terminate_full {buf msg : List UInt8} (hbuf : buf.length = sizeofBuf) (hlen : sizeofBuf ≤ msg.length) :
    (blit buf 0 msg).bind (fun b => store b msg.length 0) = none := by
  cases hblit : blit buf 0 msg with
  | none => rfl
  | some b =>
      have hb := blit_length hblit
      rw [Option.bind_some, store, if_neg (by omega)]

theorem recvHandler_full {buf msg : List UInt8} (hbuf : buf.length = sizeofBuf) (hlen : sizeofBuf ≤ msg.length)
    (sendFails : Bool) : recvHandler buf (.data msg) sendFails = none := by
  have hpos : msg.length ≠ 0 := by
    have hsize : sizeofBuf = 512 := rfl
    omega
  rw [recvHandler, if_neg hpos, Option.bind_eq_bind]
  simp only [Option.bind_eq_bind]
  rw [← Option.bind_assoc, terminate_full hbuf hlen]
  rfl

theorem not_mem_firstLine (msg : List UInt8) : 0 ∉ firstLine msg := by
  intro h
  have := List.all_eq_true.mp List.all_takeWhile 0 h
  simp at this

/-- What is left of the message in the array is its first line. -/
theorem cutLine_spec (msg r : List UInt8) :
    ∃ r', cutLine (msg ++ 0 :: r) = some (firstLine msg ++ 0 :: r') ∧
      (firstLine msg ++ 0 :: r').length = (msg ++ 0 :: r).length := by
  have hfind : ∃ p, strpbrk (msg ++ 0 :: r) = some p ∧
      ∃ r', (match p with | some p => store (msg ++ 0 :: r) p 0 | none => some (msg ++ 0 :: r)) =
          some (firstLine msg ++ 0 :: r') ∧ (firstLine msg ++ 0 :: r').length = (msg ++ 0 :: r).length := by
    induction msg with
    | nil => exact ⟨none, rfl, r, rfl, rfl⟩
    | cons b msg ih =>
        by_cases hb0 : b = 0
        · subst hb0
          exact ⟨none, rfl, msg ++ 0 :: r, rfl, rfl⟩
        · by_cases hb : b = cr ∨ b = lf
          · have hline : firstLine (b :: msg) = [] := by
              rcases hb with rfl | rfl
              · rfl
              · rfl
            refine ⟨some 0, by rw [List.cons_append, strpbrk, if_neg hb0, if_pos hb], msg ++ 0 :: r, ?_, by simp [hline]⟩
            rw [hline]
            exact store_append [] b _ 0 rfl
          · obtain ⟨p, hp, r', hr', hlen⟩ := ih
            have hline : firstLine (b :: msg) = b :: firstLine msg :=
              List.takeWhile_cons_of_pos (by simpa [hb0, and_assoc] using hb)
            refine ⟨p.map (· + 1), by rw [List.cons_append, strpbrk, if_neg hb0, if_neg hb, hp]; rfl, r', ?_,
              by simpa [hline] using hlen⟩
            rw [hline]
            cases p with
            | none => exact congrArg some (congrArg (b :: ·) (Option.some.inj hr'))
            | some p =>
                simp only [store] at hr' ⊢
                split at hr'
                · next hlt =>
                    simp only [Option.map_some, List.cons_append, List.length_cons, Nat.add_lt_add_iff_right, if_pos hlt,
                      List.set_cons_succ, Option.some.inj hr']
                · simp at hr'
  obtain ⟨p, hp, r', hr', hlen⟩ := hfind
  refine ⟨r', ?_, hlen⟩
  rw [cutLine, hp]
  exact hr'

/-- A message that fits is in the array as its first line. -/
theorem cut_message {buf msg : List UInt8} (hbuf : buf.length = sizeofBuf) (hlen : msg.length < sizeofBuf) :
    ∃ b₁ b₂ r, blit buf 0 msg = some b₁ ∧ store b₁ msg.length 0 = some b₂ ∧
      cutLine b₂ = some (firstLine msg ++ 0 :: r) ∧ (firstLine msg ++ 0 :: r).length = sizeofBuf := by
  obtain ⟨b₁, r, hblit, hstore, htotal⟩ := @blit_store buf [] msg rfl (by simpa [hbuf] using hlen)
  obtain ⟨r', hcut, hcutlen⟩ := cutLine_spec msg r
  exact ⟨b₁, _, r', hblit, by simpa using hstore, hcut, hcutlen.trans (htotal.trans hbuf)⟩

/-- **A message that fits**: the server stops at `shutdown`, and answers any other first line. -/
theorem recvHandler_data {buf msg : List UInt8} (hbuf : buf.length = sizeofBuf) (hne : msg ≠ [])
    (hlen : msg.length < sizeofBuf) (sendFails : Bool) :
    recvHandler buf (.data msg) sendFails = some
      (if firstLine msg = shutdown then ⟨none, true, true⟩
        else ⟨some ((firstLine msg ++ ok).take (sizeofBuf - 1)), sendFails, false⟩) := by
  have hpos : msg.length ≠ 0 := fun h => hne (List.eq_nil_of_length_eq_zero h)
  obtain ⟨b₁, b₂, r, hblit, hstore, hcut, hcutlen⟩ := cut_message hbuf hlen
  have hline := not_mem_firstLine msg
  have hok : 0 ∉ ok := by decide
  rw [recvHandler, if_neg hpos, hblit]
  simp only [Option.bind_eq_bind, Option.bind_some]
  rw [hstore, Option.bind_some, hcut, Option.bind_some, strEq_append_nul hline (by decide), Option.bind_some]
  by_cases hstop : firstLine msg = shutdown
  · rw [if_pos (by simpa using hstop), if_pos hstop]
  · have hlt : (firstLine msg).length < sizeofBuf := by
      rw [← hcutlen]
      simp
    have hfull := Nat.le_of_eq hcutlen
    have hcat := mystrlcat_spec (r := r) (u := []) hline hok hlt (Nat.le_of_eq hcutlen.symm)
    rw [if_neg (by simpa using hstop), if_neg hstop, hcat, Option.bind_some, List.drop_eq_nil_of_le hfull, List.append_nil]
    -- behind the reply there is a NUL at least
    have hpad : List.replicate (sizeofBuf - (firstLine msg).length -
        min ok.length (sizeofBuf - 1 - (firstLine msg).length)) (0 : UInt8) =
        0 :: List.replicate (sizeofBuf - (firstLine msg).length -
          min ok.length (sizeofBuf - 1 - (firstLine msg).length) - 1) 0 := by
      rw [← List.replicate_succ]
      congr 1
      omega
    have hreply : strAt (firstLine msg ++ ok.take (sizeofBuf - 1 - (firstLine msg).length) ++
        List.replicate (sizeofBuf - (firstLine msg).length -
          min ok.length (sizeofBuf - 1 - (firstLine msg).length)) 0) 0 =
        some (firstLine msg ++ ok.take (sizeofBuf - 1 - (firstLine msg).length)) := by
      rw [hpad]
      refine cstr_append_nul (fun h => ?_) _
      rcases List.mem_append.mp h with h | h
      · exact hline h
      · exact hok (List.mem_of_mem_take h)
    have htake : (firstLine msg).take (sizeofBuf - 1) = firstLine msg := List.take_of_length_le (by omega)
    rw [hreply, Option.bind_some, List.take_append, htake]

/-- **When the reply is complete**: the message leaves room for its NUL, and its first line for `:OK` CR LF with
    another. -/
theorem recvHandler_reply_iff {buf msg : List UInt8} (hbuf : buf.length = sizeofBuf) (hne : msg ≠ [])
    (hfirst : firstLine msg ≠ shutdown) (sendFails : Bool) :
    recvHandler buf (.data msg) sendFails = some ⟨some (firstLine msg ++ ok), sendFails, false⟩ ↔
      msg.length < sizeofBuf ∧ (firstLine msg).length + ok.length < sizeofBuf := by
  rcases Nat.lt_or_ge msg.length sizeofBuf with hlt | hge
  · rw [recvHandler_data hbuf hne hlt, if_neg hfirst]
    constructor
    · intro h
      have hreply := Option.some.inj (Outcome.mk.inj (Option.some.inj h)).1
      have hcount := congrArg List.length hreply
      have hsize : sizeofBuf = 512 := rfl
      rw [List.length_take, List.length_append] at hcount
      omega
    · rintro ⟨-, hroom⟩
      rw [List.take_of_length_le]
      rw [List.length_append]
      omega
  · rw [recvHandler_full hbuf hge]
    exact ⟨nofun, fun h => absurd h.1 (Nat.not_lt.mpr hge)⟩

/-- `a` is answered by `a:OK`. -/
theorem recvHandler_reply_a : recvHandler (List.replicate sizeofBuf 0) (.data [ch 'a']) false =
    some ⟨some (firstLine [ch 'a'] ++ ok), false, false⟩ :=
  (recvHandler_reply_iff List.length_replicate (by decide) (by decide +kernel) false).mpr
    ⟨by decide, by decide +kernel⟩

/-- 512 bytes are terminated outside the array, and of 507 bytes the reply is cut. -/
theorem recvHandler_reply_long :
    recvHandler (List.replicate sizeofBuf 0) (.data (List.replicate 512 (ch 'a'))) false = none ∧
    recvHandler (List.replicate sizeofBuf 0) (.data (List.replicate 507 (ch 'a'))) false =
      some ⟨some (List.replicate 507 (ch 'a') ++ [ch ':', ch 'O', ch 'K', cr]), false, false⟩ := by
  constructor
  · exact recvHandler_full List.length_replicate (Nat.le_of_eq List.length_replicate.symm) false
  · have hlen : (List.replicate 507 (ch 'a')).length = 507 := List.length_replicate
    have hline : firstLine (List.replicate 507 (ch 'a')) = List.replicate 507 (ch 'a') := by
      rw [firstLine, List.takeWhile_replicate, if_pos (by decide)]
    have hne : List.replicate 507 (ch 'a') ≠ [] := List.ne_nil_of_length_pos (by rw [hlen]; decide)
    have hword : List.replicate 507 (ch 'a') ≠ shutdown := by
      intro h
      rw [h] at hlen
      exact absurd hlen (by decide)
    have hcut : (List.replicate 507 (ch 'a') ++ ok).take (sizeofBuf - 1) =
        List.replicate 507 (ch 'a') ++ [ch ':', ch 'O', ch 'K', cr] := by
      rw [List.take_append, hlen, List.take_of_length_le (by rw [hlen]; decide)]
      rfl
    rw [recvHandler_data List.length_replicate hne (by rw [hlen]; decide), hline, if_neg hword, hcut]

end Socket
end CSamples
