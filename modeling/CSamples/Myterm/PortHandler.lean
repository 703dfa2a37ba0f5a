import CSamples.Myterm.Scanner

/-!
# `Myterm.PortHandler` — what the serial terminal shows

`port_handler` of `myterm/main.c` reads behind the bytes it kept, scans, and moves the bytes the scanner did
not consume to the front of the 256-byte buffer.

## Contents
- **Model.** `portHandler` with its loop over `lex`, every access to the buffer checked; `run` is any number
  of reads.
- **One read.** `portHandler_spec`: the handler is one step of `decoder` on the kept bytes and the new ones.
- **Whole runs.** `port_segmentation`: what is shown is a function of the stream; at most two bytes are
  kept.
-/

namespace CSamples
namespace Myterm

open C CSamples.Lex

/-! ## The model -/

/-- The fields of `USERDATA` that `port_handler` uses. -/
structure UserData where
  debug   : Bool
  len     : Nat
  bufSize : Nat
  buf     : Mem
  deriving DecidableEq

/-- `sizeof(self->buf)` -/
def sizeofBuf : Nat := 256

/-- `create_userdata`, with the debug option. -/
def createUserdata (debug : Bool) : UserData := ⟨debug, 0, sizeofBuf, List.replicate sizeofBuf 0⟩

/-- What `read` does: it fails, the port is closed, or bytes arrive. -/
inductive Read where
  | error
  | closed
  | bytes (bs : List UInt8)

/-- What the handler does besides changing the user data, diagnostics left out. -/
inductive Event where
  | shown (c : UInt8)
  | loopexit
  deriving DecidableEq

/-- `isprint` in the C locale -/
def isprint (c : UInt8) : Bool := 0x20 ≤ c && c ≤ 0x7E

/-- `c`, from the bytes at `scanner.tok`. -/
def tokenChar (buf : Mem) (tok : Nat) : Token → Option UInt8
  | .any      => load buf tok
  | .ffAnyAny => load buf (tok + 2)
  | .lf       => load buf tok
  | .ffFd     => some 0

/-- What is printed for a token. -/
def display (t : Token) (c : UInt8) : List UInt8 :=
  if t = .lf then [LF]
  else if c ≠ 0 then
    if isprint c then [c] else []
  else []

/-- `while(1){ t = lex(&scanner); ... }`; the first argument bounds the iterations. `count` only counts in
    debug mode, where the loop is left when it reaches zero, with a token in hand. -/
def loop (debug : Bool) (buf : Mem) : Nat → Int → Scanner → List UInt8 → Option (Scanner × List UInt8)
  | 0, _, _, _ => none
  | fuel+1, count, s, out => do
      let (t, s) ← lex buf s
      match t with
      | none => some (s, out)
      | some t =>
          let count := if debug then count - 1 else count
          if debug ∧ count ≤ 0 then some (s, out)
          else do
            let c ← tokenChar buf s.tok t
            loop debug buf fuel count s (out ++ display t c)

/-- `port_handler` -/
def portHandler (ud : UserData) : Read → Option (UserData × List Event)
  | .error => some (ud, [.loopexit])
  | .closed => some (ud, [])
  | .bytes bs => do
      let buf ← blit ud.buf ud.len bs
      let len := ud.len + bs.length
      let buf ← store buf len 0
      let (s, out) ← loop ud.debug buf (len + 1) 50 ⟨0, len, 0⟩ []
      let len := s.lim - s.cur
      let buf ← memmove buf 0 s.cur len
      let buf ← store buf len 0
      some ({ ud with buf := buf, len := len }, out.map .shown)

/-- The number of bytes the next `read` asks for. -/
def UserData.request (ud : UserData) : Nat := ud.bufSize - ud.len - 1

/-- Any number of reads that bring bytes. -/
def run : List (List UInt8) → UserData → Option (UserData × List Event)
  | [], ud => some (ud, [])
  | bs :: bss, ud => do
      let (ud, out) ← portHandler ud (.bytes bs)
      let (ud, out') ← run bss ud
      some (ud, out ++ out')

/-- The reads bring at least one byte and at most what was asked for. -/
def Reads : UserData → List (List UInt8) → Prop
  | _, []         => True
  | ud, bs :: bss =>
      bs ≠ [] ∧ bs.length ≤ ud.request ∧ ∀ r ∈ portHandler ud (.bytes bs), Reads r.1 bss

instance : ∀ (ud : UserData) (bss : List (List UInt8)), Decidable (Reads ud bss)
  | _, []         => .isTrue trivial
  | ud, bs :: bss =>
      have : ∀ ud, Decidable (Reads ud bss) := fun ud => instDecidableReads ud bss
      inferInstanceAs
        (Decidable (bs ≠ [] ∧ bs.length ≤ ud.request ∧ ∀ r ∈ portHandler ud (.bytes bs), Reads r.1 bss))

/-- The characters shown. -/
def displayed : List Event → List UInt8
  | []             => []
  | .shown c :: es => c :: displayed es
  | .loopexit :: es => displayed es

theorem displayed_append (es fs : List Event) : displayed (es ++ fs) = displayed es ++ displayed fs := by
  induction es with
  | nil => rfl
  | cons e es ih => cases e <;> simp [displayed, ih]

@[simp] theorem displayed_map_shown (cs : List UInt8) : displayed (cs.map .shown) = cs := by
  induction cs with
  | nil => rfl
  | cons c cs ih => simp [displayed, ih]

/-! ## The terminal as a stream function -/

/-- What the token that starts with `a b c` shows. -/
def shownAt (a b c : UInt8) : List UInt8 :=
  match (tokenAt a b c).1 with
  | .any      => display .any a
  | .ffAnyAny => display .ffAnyAny c
  | .lf       => display .lf a
  | .ffFd     => display .ffFd 0

/-- The scanner and the display together: three bytes decide a token. -/
def decoder : Lookahead UInt8 (List UInt8) where
  need := 3
  token
    | a :: b :: c :: _ => (shownAt a b c, (tokenAt a b c).2)
    | _                => ([], 1)
  pos := by
    intro w
    match w with
    | [] | [_] | [_, _] => exact Nat.one_pos
    | a :: b :: c :: w => exact (tokenAt_length a b c).1
  le := by
    intro w
    match w with
    | [] | [_] | [_, _] => exact show 1 ≤ 3 by decide
    | a :: b :: c :: w => exact (tokenAt_length a b c).2
  prefixed := by
    intro u v hu
    match u with
    | [] | [_] | [_, _] => exact absurd hu (by simp)
    | a :: b :: c :: u => rfl

/-- The characters a stream shows. -/
def decode (w : List UInt8) : List UInt8 := (decoder.scan w).flatten

theorem decode_append (u v : List UInt8) : decode (u ++ v) = decode u ++ decode (decoder.rest u ++ v) := by
  rw [decode, Lookahead.scan_append, List.flatten_append]
  rfl

theorem decode_of_lt {w : List UInt8} (h : w.length < 3) : decode w = [] := by
  rw [decode, Lookahead.scan_of_lt h]
  rfl

theorem decode_cons (a b c : UInt8) (w : List UInt8) :
    decode (a :: b :: c :: w) = shownAt a b c ++ decode ((a :: b :: c :: w).drop (tokenAt a b c).2) := by
  rw [decode, Lookahead.scan_of_le (show 3 ≤ _ by simp), List.flatten_cons]
  rfl

/-! ## One read -/

/-- The bytes of a window of the buffer. -/
theorem getElem?_of_window {buf : Mem} {i : Nat} {w : List UInt8} (hw : (buf.drop i).take w.length = w)
    {k : Nat} (hk : k < w.length) : load buf (i + k) = w[k]? := by
  have h := congrArg (·[k]?) hw
  simpa [load, List.getElem?_take, hk, List.getElem?_drop] using h

/-- The character of the token in front of `a b c`. -/
theorem tokenChar_display {buf : Mem} {i : Nat} {a b c : UInt8} {w : List UInt8}
    (hw : (buf.drop i).take (a :: b :: c :: w).length = a :: b :: c :: w) :
    ∃ x, tokenChar buf i (tokenAt a b c).1 = some x ∧ display (tokenAt a b c).1 x = shownAt a b c := by
  have h0 : load buf i = some a := @getElem?_of_window buf i _ hw 0 (by simp)
  have h2 : load buf (i + 2) = some c := @getElem?_of_window buf i _ hw 2 (by simp)
  unfold shownAt
  cases (tokenAt a b c).1 with
  | any => exact ⟨a, h0, rfl⟩
  | ffAnyAny => exact ⟨c, h2, rfl⟩
  | lf => exact ⟨a, h0, rfl⟩
  | ffFd => exact ⟨0, rfl, rfl⟩

section
variable (debug : Bool) {buf : Mem} (fuel : Nat) (count : Int) {s : Scanner} (out : List UInt8)

/-- Fewer than three bytes end the loop. -/
theorem loop_short {w : List UInt8} (hlim : s.lim = s.cur + w.length) (hw : (buf.drop s.cur).take w.length = w)
    (h3 : w.length < 3) : loop debug buf (fuel + 1) count s out = some (⟨s.cur, s.lim, s.cur⟩, out) := by
  have hlex := lex_spec hlim hw
  match w, h3 with
  | [], h3 | [_], h3 | [_, _], h3 => simp only [loop, hlex, Option.bind_eq_bind, Option.bind_some]

/-- One iteration, by the token in front. -/
theorem loop_token {a b c : UInt8} {v : List UInt8} (hlim : s.lim = s.cur + (a :: b :: c :: v).length)
    (hw : (buf.drop s.cur).take (a :: b :: c :: v).length = a :: b :: c :: v) :
    loop debug buf (fuel + 1) count s out =
      if debug = true ∧ (if debug then count - 1 else count) ≤ 0 then
        some (⟨s.cur + (tokenAt a b c).2, s.lim, s.cur⟩, out)
      else loop debug buf fuel (if debug then count - 1 else count) ⟨s.cur + (tokenAt a b c).2, s.lim, s.cur⟩
        (out ++ shownAt a b c) := by
  have hlex := lex_spec hlim hw
  obtain ⟨x, hx, hshow⟩ := tokenChar_display hw
  rw [← hshow]
  simp only [loop, hlex, hx, Option.bind_eq_bind, Option.bind_some]

end

/-- Behind the token in front the window is the rest. -/
theorem window_drop {buf : Mem} {s : Scanner} {w : List UInt8} {n : Nat} (hn : n ≤ w.length)
    (hlim : s.lim = s.cur + w.length) (hw : (buf.drop s.cur).take w.length = w) :
    s.lim = s.cur + n + (w.drop n).length ∧ (buf.drop (s.cur + n)).take (w.drop n).length = w.drop n := by
  constructor
  · rw [List.length_drop]
    omega
  · conv_rhs => rw [← hw]
    rw [List.length_drop, List.drop_take, List.drop_drop]

theorem token_le (a b c : UInt8) (v : List UInt8) : (tokenAt a b c).2 ≤ (a :: b :: c :: v).length :=
  Nat.le_trans (tokenAt_length a b c).2 (Nat.le_add_left 3 v.length)

/-- **The loop** without debugging decodes the window and stops in front of the bytes to keep. -/
theorem loop_spec (buf : Mem) (fuel : Nat) (count : Int) (s : Scanner) (out w : List UInt8)
    (hfuel : w.length < fuel) (hlim : s.lim = s.cur + w.length) (hw : (buf.drop s.cur).take w.length = w) :
    ∃ s', loop false buf fuel count s out = some (s', out ++ decode w)
      ∧ s'.lim = s'.cur + (decoder.rest w).length
      ∧ s'.lim = s.lim
      ∧ (buf.drop s'.cur).take (decoder.rest w).length = decoder.rest w := by
  induction fuel generalizing s out w with
  | zero => exact absurd hfuel (Nat.not_lt_zero _)
  | succ fuel ih =>
      by_cases h3 : w.length < 3
      · -- `YYFILL` ends the loop
        rw [loop_short false fuel count out hlim hw h3, decode_of_lt h3, List.append_nil, Lookahead.rest_of_lt h3]
        exact ⟨_, rfl, hlim, rfl, hw⟩
      · match w with
        | [] | [_] | [_, _] => exact absurd h3 (by simp)
        | a :: b :: c :: v =>
            have hn := tokenAt_length a b c
            obtain ⟨hlim', hw'⟩ := window_drop (token_le a b c v) hlim hw
            have hshorter : ((a :: b :: c :: v).drop (tokenAt a b c).2).length < fuel := by
              rw [List.length_drop]
              omega
            -- the scanner goes on behind the token, with what is left of `w`
            obtain ⟨s', hrun, hstop, hsame, hkeep⟩ := ih ⟨s.cur + (tokenAt a b c).2, s.lim, s.cur⟩
              (out ++ shownAt a b c) _ hshorter hlim' hw'
            have hgo : ¬(false = true ∧ count ≤ 0) := fun h => Bool.false_ne_true h.1
            have hrest : decoder.rest (a :: b :: c :: v) = decoder.rest ((a :: b :: c :: v).drop (tokenAt a b c).2) :=
              Lookahead.rest_of_le (Nat.not_lt.mp h3)
            rw [loop_token false fuel count out hlim hw, if_neg Bool.false_ne_true, if_neg hgo, hrun, decode_cons,
              List.append_assoc, hrest]
            exact ⟨s', rfl, hstop, hsame, hkeep⟩

/-- Debugging is off and the buffer holds the kept bytes `w`. -/
structure Keeps (ud : UserData) (w : List UInt8) : Prop where
  debug   : ud.debug = false
  bufSize : ud.bufSize = sizeofBuf
  size    : ud.buf.length = sizeofBuf
  len     : ud.len = w.length
  kept    : ud.buf.take w.length = w
  short   : w.length ≤ 2

theorem keeps_createUserdata : Keeps (createUserdata false) [] where
  debug   := rfl
  bufSize := rfl
  size    := List.length_replicate
  len     := rfl
  kept    := rfl
  short   := Nat.zero_le _

theorem Keeps.eq_self {ud : UserData} {w : List UInt8} (hk : Keeps ud w) : { ud with debug := false } = ud := by
  rw [← hk.debug]

/-- What follows the loop in a read. -/
def leave (ud : UserData) (buf : Mem) (r : Scanner × List UInt8) : Option (UserData × List Event) := do
  let len := r.1.lim - r.1.cur
  let buf ← memmove buf 0 r.1.cur len
  let buf ← store buf len 0
  some ({ ud with buf := buf, len := len }, r.2.map .shown)

/-- A read, with or without debugging, is the loop on the kept bytes and the new ones, and what follows it. -/
theorem portHandler_eq {ud : UserData} {w bs : List UInt8} (hk : Keeps ud w) (hle : bs.length ≤ ud.request) :
    ∃ r, (w ++ bs ++ 0 :: r).length = sizeofBuf ∧ ∀ debug,
      portHandler { ud with debug := debug } (.bytes bs) =
        (loop debug (w ++ bs ++ 0 :: r) (w.length + bs.length + 1) 50 ⟨0, w.length + bs.length, 0⟩ []).bind
          (leave { ud with debug := debug } (w ++ bs ++ 0 :: r)) := by
  have hreq : w.length + bs.length < ud.buf.length := by
    have h1 := hk.bufSize
    have h2 := hk.size
    have h3 := hk.len
    have h4 := hk.short
    unfold UserData.request at hle
    have : sizeofBuf = 256 := rfl
    omega
  -- the buffer after `read` and the terminating NUL
  obtain ⟨m₁, r, hblit, hstore, hsize⟩ := blit_store hk.kept hreq
  refine ⟨r, hsize.trans hk.size, ?_⟩
  intro debug
  simp only [portHandler, hk.len, hblit, hstore, Option.bind_eq_bind, Option.bind_some]
  rfl

/-- **One read**: kept and new bytes together are decoded. -/
theorem portHandler_spec {ud : UserData} {w bs : List UInt8} (hk : Keeps ud w)
    (hle : bs.length ≤ ud.request) :
    ∃ ud', portHandler ud (.bytes bs) = some (ud', (decode (w ++ bs)).map .shown)
      ∧ Keeps ud' (decoder.rest (w ++ bs)) := by
  obtain ⟨r, hbuf, hread⟩ := portHandler_eq hk hle
  have hread := hread false
  rw [hk.eq_self] at hread
  obtain ⟨s, hloop, hlim, hsame, hkeep⟩ := loop_spec (w ++ bs ++ 0 :: r)
    (w.length + bs.length + 1) 50 ⟨0, w.length + bs.length, 0⟩ [] (w ++ bs)
    (by rw [List.length_append]; exact Nat.lt_succ_self _) (by simp)
    (by rw [List.drop_zero]; exact List.take_left)
  -- the move to the front and its NUL
  set keep := decoder.rest (w ++ bs) with hkeepdef
  have hshort : keep.length < 3 := Lookahead.rest_length_lt decoder (w ++ bs)
  have hcur : s.cur + keep.length ≤ (w ++ bs ++ 0 :: r).length := by
    have h0 : s.lim = w.length + bs.length := hsame
    simp only [List.length_append, List.length_cons]
    omega
  have hsub : s.lim - s.cur = keep.length := by rw [hlim, Nat.add_sub_cancel_left]
  have hlt : keep.length < (w ++ bs ++ 0 :: r).length := by
    rw [hbuf]
    exact Nat.lt_trans hshort (by decide)
  have hmove := memmove_text hkeep hcur
  have hnul := store_behind hlt 0
  refine ⟨{ ud with buf := keep ++ 0 :: (w ++ bs ++ 0 :: r).drop (keep.length + 1), len := keep.length }, ?_, ?_⟩
  · rw [hread, hloop]
    simp only [leave, hsub, hmove, hnul, Option.bind_eq_bind, Option.bind_some, List.nil_append]
  · refine ⟨hk.debug, hk.bufSize, ?_, rfl, List.take_left, Nat.le_of_lt_succ hshort⟩
    rw [← hbuf]
    simp only [List.length_append, List.length_cons, List.length_drop] at hlt ⊢
    omega

/-! ## Whole runs -/

theorem Reads.take {ud : UserData} {bss : List (List UInt8)} (h : Reads ud bss) (k : Nat) :
    Reads ud (bss.take k) := by
  induction bss generalizing ud k with
  | nil => simpa using h
  | cons bs bss ih =>
      cases k with
      | zero => trivial
      | succ k => exact ⟨h.1, h.2.1, fun r hr => ih (h.2.2 r hr) k⟩

/-- A run from a state that keeps `w`. -/
theorem run_decode (bss : List (List UInt8)) {ud : UserData} {w : List UInt8} (hk : Keeps ud w)
    (hreads : Reads ud bss) :
    ∃ ud' out, run bss ud = some (ud', out) ∧ displayed out = decode (w ++ bss.flatten)
      ∧ Keeps ud' (decoder.rest (w ++ bss.flatten)) := by
  induction bss generalizing ud w with
  | nil =>
      have h3 : w.length < 3 := Nat.lt_succ_of_le hk.short
      refine ⟨ud, [], rfl, ?_, ?_⟩
      · rw [List.flatten_nil, List.append_nil, decode_of_lt h3]
        rfl
      · rw [List.flatten_nil, List.append_nil, Lookahead.rest_of_lt h3]
        exact hk
  | cons bs bss ih =>
      obtain ⟨-, hle, hnext⟩ := hreads
      obtain ⟨ud1, h1, hk1⟩ := portHandler_spec hk hle
      obtain ⟨ud2, out2, h2, hd2, hk2⟩ := ih hk1 (hnext _ h1)
      refine ⟨ud2, (decode (w ++ bs)).map .shown ++ out2, ?_, ?_, ?_⟩
      · simp only [run, h1, h2, Option.bind_eq_bind, Option.bind_some]
      · rw [displayed_append, displayed_map_shown, hd2, List.flatten_cons, ← List.append_assoc,
          decode_append (w ++ bs)]
      · rw [List.flatten_cons, ← List.append_assoc, Lookahead.rest_append]
        exact hk2

/-- **The display over whole runs**, debugging off: nothing is accessed outside the buffer; after each read
    at most two bytes are kept, the next read asks for at least 253, and its bytes and their NUL fit; what is
    shown is the same for every cut of the stream into reads. -/
theorem port_segmentation (bss : List (List UInt8)) (hreads : Reads (createUserdata false) bss) :
    (∀ k, ∃ ud out, run (bss.take k) (createUserdata false) = some (ud, out)
      ∧ ud.len ≤ 2 ∧ 253 ≤ ud.request
      ∧ ∀ bs : List UInt8, bs.length ≤ ud.request → ud.len + bs.length < ud.buf.length ∧ ud.buf.length = 256) ∧
    ∀ bss', Reads (createUserdata false) bss' → bss'.flatten = bss.flatten →
      (run bss' (createUserdata false)).map (fun r => displayed r.2)
        = (run bss (createUserdata false)).map (fun r => displayed r.2) := by
  constructor
  · intro k
    obtain ⟨ud, out, hrun, -, hk⟩ := run_decode (bss.take k) keeps_createUserdata (hreads.take k)
    have hlen : ud.len ≤ 2 := by
      rw [hk.len]
      exact hk.short
    have hsz : sizeofBuf = 256 := rfl
    have hbs := hk.bufSize
    have hbuf := hk.size
    refine ⟨ud, out, hrun, hlen, ?_, ?_⟩
    · unfold UserData.request
      omega
    · intro bs hle
      unfold UserData.request at hle
      omega
  · intro bss' hreads' hflat
    obtain ⟨_, _, h, hd, -⟩ := run_decode bss keeps_createUserdata hreads
    obtain ⟨_, _, h', hd', -⟩ := run_decode bss' keeps_createUserdata hreads'
    rw [h, h', Option.map_some, Option.map_some, hd, hd', hflat]

/-- A marker cut in front of its second byte, and behind it. -/
theorem port_segmentation_marker :
    (run [[0x61, FF], [0x00, 0x62, FF, FD]] (createUserdata false)).map (fun r => displayed r.2)
      = (run [[0x61, FF, 0x00], [0x62, FF, FD]] (createUserdata false)).map (fun r => displayed r.2) :=
  (port_segmentation [[0x61, FF, 0x00], [0x62, FF, FD]] (by decide +kernel)).2
    [[0x61, FF], [0x00, 0x62, FF, FD]] (by decide +kernel) rfl

end Myterm
end CSamples
