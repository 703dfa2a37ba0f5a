import CSamples.Libevent.Server
import Mathlib.Data.List.Chain
import Mathlib.Data.List.Induction

/-!
# `Libevent.Segments` — what the reversing server makes of a stream

A chunk that is one line is reversed if the array has room behind it (`readChunk_line_iff`).

`reverseLines` is what the server is for. Whether it does that depends on how the stream is cut into reads:
always when every read returns one line (`run_of_lines`), and for every segmentation alike only when the stream
is one line of a single byte, or nothing but NULs and terminators (`run_segments_iff`).
-/

namespace CSamples
namespace Libevent
namespace Server

open C

/-! ## What the server is for -/

/-- A segmentation of `w` into chunks of 1 to 256 bytes. -/
structure Segments (chunks : List (List UInt8)) (w : List UInt8) : Prop where
  flatten : chunks.flatten = w
  size    : ∀ c ∈ chunks, 1 ≤ c.length ∧ c.length ≤ sizeofBuffer

/-- Every line reversed in front of its own terminator, with the reversed start `acc` of a line at hand. -/
def reverseLines (acc : List UInt8) : List UInt8 → List UInt8
  | []     => acc
  | b :: w => if isCtrl b then acc ++ b :: reverseLines [] w else reverseLines (b :: acc) w

/-- Bytes of one line are collected in reverse. -/
theorem reverseLines_append {u : List UInt8} (hu : ∀ b ∈ u, isCtrl b = false) (acc w : List UInt8) :
    reverseLines acc (u ++ w) = reverseLines (u.reverse ++ acc) w := by
  induction u generalizing acc with
  | nil => rfl
  | cons b u ih =>
      rw [List.cons_append, reverseLines, if_neg (by simp [hu b (List.mem_cons_self ..)]),
        ih (fun c hc => hu c (List.mem_cons_of_mem b hc))]
      simp

theorem reverseLines_terminator {t : List UInt8} (ht : t ∈ terminators) (hne : t ≠ []) (acc w : List UInt8) :
    reverseLines acc (t ++ w) = acc ++ t ++ reverseLines [] w := by
  simp only [terminators, List.mem_cons, List.not_mem_nil, or_false] at ht
  rcases ht with rfl | rfl | rfl | rfl
  · exact absurd rfl hne
  · simp [reverseLines, isCtrl]
  · simp [reverseLines, isCtrl]
  · simp [reverseLines, isCtrl]

/-! ## Chunks that are lines -/

theorem body_line {b : List UInt8} (hb : ∀ c ∈ b, isCtrl c = false) {t : List UInt8} (ht : t ∈ terminators) :
    body (b ++ t) = b := by
  have h := (terminator_spec t ht).2.1
  unfold body at h ⊢
  rw [List.filter_append, h, List.append_nil, List.filter_eq_self]
  intro c hc
  rw [hb c hc]
  rfl

theorem ends_line {b : List UInt8} (hb : ∀ c ∈ b, isCtrl c = false) {t : List UInt8} (ht : t ∈ terminators) :
    ends (b ++ t) = t := by
  have h := (terminator_spec t ht).2.2.1
  unfold ends at h ⊢
  have hmem (c : UInt8) (hc : isCtrl c = true) : c ∈ b ++ t ↔ c ∈ t := by
    rw [List.mem_append, or_iff_right]
    intro hcb
    rw [hb c hcb] at hc
    exact Bool.noConfusion hc
  simpa only [hmem cr (by decide), hmem lf (by decide)] using h

/-- **A chunk that is one line**, with at most a NUL behind it: its bytes come back reversed in front of its own
    terminator, if the array has room for it. -/
theorem readChunk_line {b : List UInt8} (hb : ∀ c ∈ b, isCtrl c = false) (hb0 : 0 ∉ b) {t z : List UInt8}
    (ht : t ∈ terminators) (hz : z = [] ∨ z = [0])
    (hshort : if t = [] then b.length < 256 else b.length + t.length < 255) :
    readChunk (b ++ t ++ z) = some (b.reverse ++ t ++ z) := by
  have hs : 0 ∉ b ++ t := by simp [hb0, (terminator_spec t ht).1]
  have hsize : b.length + t.length < sizeofBuffer ∧ (t = [] ∨ b.length + t.length + 2 ≤ sizeofBuffer) := by
    unfold sizeofBuffer
    split at hshort
    · next h => simp [h, hshort]
    · exact ⟨by omega, .inr (by omega)⟩
  have hpad : List.replicate (sizeofBuffer - b.length - t.length) (0 : UInt8) =
      z ++ List.replicate (sizeofBuffer - b.length - t.length - z.length) 0 := by
    rcases hz with rfl | rfl
    · simp
    · rw [List.singleton_append, ← List.replicate_succ]
      congr 1
      simp
      omega
  rw [readChunk_string hs hz (by simpa using hsize.1), body_line hb ht, ends_line hb ht, if_pos (by simpa using hsize.2),
    hpad, ← List.append_assoc, List.take_left' (by simp)]

/-- Without room an access is outside the array: the first `strlen` finds no NUL, or a put stores one behind it. -/
theorem readChunk_no_room {b : List UInt8} (hb : ∀ c ∈ b, isCtrl c = false) (hb0 : 0 ∉ b) {t : List UInt8}
    (ht : t ∈ terminators) (hroom : ¬if t = [] then (b ++ t).length < 256 else (b ++ t).length < 255) :
    readChunk (b ++ t) = none := by
  have hs : 0 ∉ b ++ t := by simp [hb0, (terminator_spec t ht).1]
  by_cases hfull : (b ++ t).length < sizeofBuffer
  · have hstring := readChunk_string (z := []) hs (.inl rfl) hfull
    rw [List.append_nil, body_line hb ht, ends_line hb ht] at hstring
    rw [hstring]
    unfold sizeofBuffer at hfull ⊢
    split_ifs at hroom with hnone
    · exact absurd hfull hroom
    · rw [List.length_append] at hroom
      rw [if_neg]
      rintro (hnil | hle)
      · exact hnone hnil
      · omega
  · exact readChunk_full hs (Nat.not_lt.mp hfull)

/-- **A chunk that is one line, or a part of one**: every access stays within the array and the bytes come back
    reversed in front of their terminator, if and only if the array has room behind them: for a NUL without a
    terminator, for two with one. -/
theorem readChunk_line_iff {b : List UInt8} (hb : ∀ c ∈ b, isCtrl c = false) (hb0 : 0 ∉ b) {t : List UInt8}
    (ht : t ∈ terminators) :
    readChunk (b ++ t) = some (b.reverse ++ t) ↔ if t = [] then (b ++ t).length < 256 else (b ++ t).length < 255 := by
  constructor
  · intro h
    by_contra hroom
    rw [readChunk_no_room hb hb0 ht hroom] at h
    exact absurd h (by simp)
  · intro hshort
    have hline := readChunk_line hb hb0 ht (z := []) (.inl rfl) (by
      rw [List.length_append] at hshort
      split_ifs at hshort ⊢ with hnone
      · rw [hnone, List.length_nil] at hshort
        exact hshort
      · exact hshort)
    rwa [List.append_nil, List.append_nil] at hline

/-- `ab`, CR and LF. -/
theorem readChunk_line_iff_crlf : readChunk ([0x61, 0x62] ++ [cr, lf]) = some ([0x62, 0x61] ++ [cr, lf]) :=
  (@readChunk_line_iff [0x61, 0x62]
    (by
      simp only [List.forall_mem_cons, List.not_mem_nil, false_imp_iff, implies_true, and_true]
      decide)
    (by decide) [cr, lf] (by decide)).mpr (by decide)

/-- 254 letters and a line feed: the NUL behind the line feed is stored outside the array. -/
theorem readChunk_longest_line : readChunk (List.replicate 254 0x61 ++ [lf]) = none := by
  have hmem : ∀ c ∈ List.replicate 254 (0x61 : UInt8), c = 0x61 := fun c hc => List.eq_of_mem_replicate hc
  refine readChunk_no_room ?_ ?_ (by decide) ?_
  · intro c hc
    rw [hmem c hc]
    rfl
  · intro h0
    exact absurd (hmem 0 h0) (by decide)
  · rw [if_neg (by decide), List.length_append, List.length_replicate]
    decide

/-- A line and its terminator. -/
structure Line where
  body       : List UInt8
  terminator : List UInt8
  plain      : ∀ c ∈ body, isCtrl c = false ∧ c ≠ 0
  ended      : terminator ∈ terminators ∧ terminator ≠ []
  short      : body.length + terminator.length < 255

/-- **A segmentation into lines**: as long as every read returns one line, the server does what it is for. -/
theorem run_of_lines (ls : List Line) :
    run (ls.map fun l => l.body ++ l.terminator) =
      some (reverseLines [] (ls.map fun l => l.body ++ l.terminator).flatten) := by
  induction ls with
  | nil => rfl
  | cons l ls ih =>
      have hread := readChunk_line (fun c hc => (l.plain c hc).1) (fun h => (l.plain 0 h).2 rfl) l.ended.1 (.inl rfl)
        (by rw [if_neg l.ended.2]; exact l.short)
      rw [List.append_nil, List.append_nil] at hread
      rw [List.map_cons, run, hread, ih, List.flatten_cons, List.append_assoc,
        reverseLines_append fun c hc => (l.plain c hc).1, reverseLines_terminator l.ended.1 l.ended.2, List.append_nil]
      simp

/-! ## Streams that every segmentation reverses alike -/

/-- A single byte is written back as it is. -/
theorem readChunk_singleton (b : UInt8) : readChunk [b] = some [b] := by
  by_cases hb : b = 0
  · subst hb
    decide +kernel
  · have h := @readChunk_string [b] [] (by simpa using Ne.symm hb) (.inl rfl) (by simp [sizeofBuffer])
    by_cases h₁ : b = cr
    · subst h₁
      decide +kernel
    · by_cases h₂ : b = lf
      · subst h₂
        decide +kernel
      · have hctrl : isCtrl b = false := by simp [isCtrl, h₁, h₂]
        rw [if_pos (.inl (by simp [ends, Ne.symm h₁, Ne.symm h₂]))] at h
        simpa [body, ends, hctrl, Ne.symm h₁, Ne.symm h₂] using h

/-- A line of one byte repeated that fits the buffer, with its terminator and at most one NUL behind it; or NULs,
    between a terminator in front and a CR or LF behind. -/
inductive Uniform : List UInt8 → Prop
  | line {a : UInt8} {m : Nat} {t z : List UInt8} (hctrl : isCtrl a = false) (ha : a ≠ 0) (ht : t ∈ terminators)
      (hz : z = [] ∨ z = [0] ∧ t ≠ []) (hshort : if t = [] then m < 256 else m + t.length < 255) :
      Uniform (List.replicate m a ++ t ++ z)
  | nuls {t y : List UInt8} {q : Nat} (ht : t ∈ terminators) (hy : y ∈ [[], [cr], [lf]])
      (hq : y = [] ∨ t = [] ∨ 2 ≤ q) : Uniform (t ++ List.replicate q 0 ++ y)

namespace Uniform

theorem terminator {t : List UInt8} (ht : t ∈ terminators) (q : Nat) : Uniform (t ++ List.replicate q 0) := by
  rw [← List.append_nil (t ++ _)]
  exact .nuls ht (by simp) (.inl rfl)

/-- Without the first byte. -/
theorem tail {b : UInt8} {w : List UInt8} (h : Uniform (b :: w)) : Uniform w := by
  generalize hw : b :: w = v at h
  cases h with
  | @line a m t z hctrl ha ht hz hshort =>
      cases m with
      | zero =>
          obtain ⟨q, rfl⟩ : ∃ q, z = List.replicate q 0 := by
            rcases hz with rfl | ⟨rfl, -⟩
            · exact ⟨0, rfl⟩
            · exact ⟨1, rfl⟩
          simp only [terminators, List.mem_cons, List.not_mem_nil, or_false] at ht
          rcases ht with rfl | rfl | rfl | rfl
          · cases q with
            | zero => simp at hw
            | succ q => exact (List.cons.inj hw).2 ▸ terminator (t := []) (by decide) q
          · exact (List.cons.inj hw).2 ▸ terminator (t := []) (by decide) q
          · exact (List.cons.inj hw).2 ▸ terminator (t := []) (by decide) q
          · exact (List.cons.inj hw).2 ▸ terminator (t := [lf]) (by decide) q
      | succ m =>
          have hshort' : if t = [] then m < 256 else m + t.length < 255 := by
            split at hshort
            · next h => rw [if_pos h]; omega
            · next h => rw [if_neg h]; omega
          exact (List.cons.inj hw).2 ▸ .line hctrl ha ht hz hshort'
  | @nuls t y q ht hy hq =>
      simp only [terminators, List.mem_cons, List.not_mem_nil, or_false] at ht
      rcases ht with rfl | rfl | rfl | rfl
      · cases q with
        | zero =>
            simp only [List.mem_cons, List.not_mem_nil, or_false] at hy
            rcases hy with rfl | rfl | rfl
            · simp at hw
            · exact (List.cons.inj hw).2 ▸ terminator (t := []) (by decide) 0
            · exact (List.cons.inj hw).2 ▸ terminator (t := []) (by decide) 0
        | succ q => exact (List.cons.inj hw).2 ▸ .nuls (t := []) (by decide) hy (.inr (.inl rfl))
      · exact (List.cons.inj hw).2 ▸ .nuls (t := []) (by decide) hy (.inr (.inl rfl))
      · exact (List.cons.inj hw).2 ▸ .nuls (t := []) (by decide) hy (.inr (.inl rfl))
      · exact (List.cons.inj hw).2 ▸ .nuls (t := [lf]) (by decide) hy (hq.imp_right fun h =>
          .inr (h.resolve_left (by simp)))

theorem terminators_dropLast {t : List UInt8} {c : UInt8} (ht : t ++ [c] ∈ terminators) : t ∈ terminators := by
  have h : ∀ t ∈ terminators, t.dropLast ∈ terminators := by decide
  simpa using h (t ++ [c]) ht

/-- Without the last byte. -/
theorem dropLast {w : List UInt8} {b : UInt8} (h : Uniform (w ++ [b])) : Uniform w := by
  generalize hw : w ++ [b] = v at h
  cases h with
  | @line a m t z hctrl ha ht hz hshort =>
      rcases hz with rfl | ⟨rfl, hne⟩
      · rw [List.append_nil] at hw
        rcases List.eq_nil_or_concat' t with rfl | ⟨t', c, rfl⟩
        · -- a byte of the line itself
          cases m with
          | zero => simp at hw
          | succ m =>
              rw [List.append_nil, List.replicate_succ'] at hw
              rw [if_pos rfl] at hshort
              have hm : m < 256 := by omega
              have := Uniform.line (m := m) (t := []) (z := []) hctrl ha (by decide) (.inl rfl) (by simpa using hm)
              simpa [(List.append_inj_left' hw rfl)] using this
        · -- a byte of its terminator
          rw [← List.append_assoc] at hw
          rw [if_neg (by simp), List.length_append, List.length_singleton] at hshort
          have hshort' : if t' = [] then m < 256 else m + t'.length < 255 := by split <;> omega
          have := Uniform.line (m := m) (z := []) hctrl ha (terminators_dropLast ht) (.inl rfl) hshort'
          simpa [(List.append_inj_left' hw rfl)] using this
      · have := Uniform.line (m := m) (t := t) (z := []) hctrl ha ht (.inl rfl) hshort
        simpa [(List.append_inj_left' hw rfl)] using this
  | @nuls t y q ht hy hq =>
      simp only [List.mem_cons, List.not_mem_nil, or_false] at hy
      rcases hy with rfl | rfl | rfl
      · rw [List.append_nil] at hw
        cases q with
        | zero =>
            rw [List.replicate_zero, List.append_nil] at hw
            have h0 := terminator (terminators_dropLast (hw ▸ ht)) 0
            rwa [List.replicate_zero, List.append_nil] at h0
        | succ q =>
            rw [List.replicate_succ', ← List.append_assoc] at hw
            rw [List.append_inj_left' hw rfl]
            exact terminator ht q
      · rw [List.append_inj_left' hw rfl]
        exact terminator ht q
      · rw [List.append_inj_left' hw rfl]
        exact terminator ht q

/-- Every stretch of such a stream is one. -/
theorem infix_ {c w : List UInt8} (h : Uniform w) (hc : c <:+: w) : Uniform c := by
  obtain ⟨u, v, rfl⟩ := hc
  have hleft : Uniform (u ++ c) := by
    induction v using List.reverseRecOn with
    | nil => simpa using h
    | append_singleton v b ih => exact ih (dropLast (b := b) (by simpa using h))
  clear h
  induction u with
  | nil => exact hleft
  | cons b u ih => exact ih hleft.tail

theorem readChunk_zeros (q : Nat) (y : UInt8) (hlen : (List.replicate (q + 1) 0 ++ [y]).length ≤ sizeofBuffer) :
    readChunk (List.replicate (q + 1) 0 ++ [y]) = some (List.replicate (q + 1) 0 ++ [y]) := by
  rw [List.length_append, List.length_replicate, List.length_singleton] at hlen
  have h := readChunk_nul (r := List.replicate q 0) (y := y) (by rw [List.length_replicate]; exact hlen)
  have hshift : List.replicate q 0 ++ [0, y] = List.replicate (q + 1) 0 ++ [y] := by
    rw [List.replicate_succ', List.append_assoc]
    rfl
  rw [List.reverse_replicate, hshift] at h
  exact h

/-- **A chunk of that kind is written back as it is.** -/
theorem readChunk_eq {c : List UInt8} (h : Uniform c) (hlen : c.length ≤ sizeofBuffer) (hne : c ≠ []) :
    readChunk c = some c := by
  cases h with
  | @line a m t z hctrl ha ht hz hshort =>
      have hplain : ∀ c ∈ List.replicate m a, isCtrl c = false := fun c hc => (List.mem_replicate.mp hc).2 ▸ hctrl
      have h0 : 0 ∉ List.replicate m a := fun h => ha (List.mem_replicate.mp h).2.symm
      have hread := readChunk_line hplain h0 ht (hz.imp_right And.left) (by simpa using hshort)
      rwa [List.reverse_replicate] at hread
  | @nuls t y q ht hy hq =>
      have hy1 : y.length ≤ 1 := (by decide : ∀ y ∈ ([[], [cr], [lf]] : List (List UInt8)), y.length ≤ 1) y hy
      simp only [List.mem_cons, List.not_mem_nil, or_false] at hy
      by_cases ht0 : t = []
      · subst ht0
        rw [List.nil_append] at hlen hne ⊢
        match q, hy with
        | 0, .inl hy          => exact absurd hy hne
        | 0, .inr (.inl hy)   => exact hy ▸ readChunk_singleton cr
        | 0, .inr (.inr hy)   => exact hy ▸ readChunk_singleton lf
        | 1, .inl hy          => exact hy ▸ readChunk_singleton 0
        | q + 2, .inl hy      =>
            subst hy
            rw [List.append_nil, List.replicate_succ'] at hlen ⊢
            exact readChunk_zeros q 0 hlen
        | q + 1, .inr (.inl hy) =>
            subst hy
            exact readChunk_zeros q cr hlen
        | q + 1, .inr (.inr hy) =>
            subst hy
            exact readChunk_zeros q lf hlen
      · cases q with
        | zero =>
            obtain rfl : y = [] := hq.resolve_right (by simp [ht0])
            have ht2 := (terminator_spec t ht).2.2.2.2
            have h := @readChunk_line [] (by simp) (by simp) t [] ht (.inl rfl) (by rw [if_neg ht0]; simp; omega)
            simpa using h
        | succ q =>
            rw [List.append_assoc, List.replicate_succ, List.cons_append]
            refine readChunk_terminator_nuls ht ht0 q hy1 ?_ (by simpa [List.replicate_succ] using hlen)
            rintro rfl
            exact hq.resolve_right (by simp [ht0])

end Uniform

/-- Its reversal is the stream itself. -/
theorem Uniform.reverseLines_eq {w : List UInt8} (h : Uniform w) : reverseLines [] w = w := by
  have hrep {a : UInt8} (hctrl : isCtrl a = false) (m : Nat) (w : List UInt8) :
      reverseLines [] (List.replicate m a ++ w) = reverseLines (List.replicate m a) w := by
    rw [reverseLines_append fun b hb => (List.mem_replicate.mp hb).2 ▸ hctrl, List.append_nil, List.reverse_replicate]
  cases h with
  | @line a m t z hctrl ha ht hz hshort =>
      rw [List.append_assoc, hrep hctrl]
      by_cases ht0 : t = []
      · subst ht0
        obtain rfl : z = [] := hz.resolve_right fun h => h.2 rfl
        rw [List.append_nil, List.append_nil]
        rfl
      · have hz' : reverseLines [] z = z := by
          rcases hz with rfl | ⟨rfl, -⟩
          · rfl
          · rfl
        rw [reverseLines_terminator ht ht0, hz', List.append_assoc]
  | @nuls t y q ht hy hq =>
      have hnuls : reverseLines [] (List.replicate q 0 ++ y) = List.replicate q 0 ++ y := by
        rw [hrep (by decide)]
        simp only [List.mem_cons, List.not_mem_nil, or_false] at hy
        rcases hy with rfl | rfl | rfl
        · rw [List.append_nil]
          rfl
        · rfl
        · rfl
      rw [List.append_assoc]
      by_cases ht0 : t = []
      · rw [ht0, List.nil_append, hnuls]
      · rw [reverseLines_terminator ht ht0, hnuls]
        rfl

/-! ## Streams and their segmentations -/

/-- Bytes that are read one at a time are written back as they came. -/
theorem run_singletons (w : List UInt8) : run (w.map fun b => [b]) = some w := by
  induction w with
  | nil => rfl
  | cons b w ih => simp [run, readChunk_singleton, ih]

theorem run_append {chunks : List (List UInt8)} {out : List UInt8} (h : run chunks = some out)
    (chunks' : List (List UInt8)) : run (chunks ++ chunks') = (run chunks').map (out ++ ·) := by
  induction chunks generalizing out with
  | nil =>
      obtain rfl := Option.some.inj h
      simp
  | cons c chunks ih =>
      simp only [run, Option.bind_eq_bind, Option.bind_eq_some_iff, Option.some.injEq] at h
      obtain ⟨o, ho, os, hos, rfl⟩ := h
      rw [List.cons_append, run, ho, ih hos]
      cases run chunks' <;> simp

/-- The stretches of a stream are written back as they came, if every segmentation gives the stream. -/
theorem readChunk_of_run {w : List UInt8} (h : ∀ chunks, Segments chunks w → run chunks = some w) {c : List UInt8}
    (hc : c <:+: w) (hne : c ≠ []) (hlen : c.length ≤ sizeofBuffer) : readChunk c = some c := by
  obtain ⟨u, v, rfl⟩ := hc
  have hseg : Segments ((u.map fun b => [b]) ++ c :: v.map fun b => [b]) (u ++ c ++ v) := by
    refine ⟨by simp [← List.flatMap_def], fun d hd => ?_⟩
    rcases List.mem_append.mp hd with hd | hd
    · obtain ⟨b, -, rfl⟩ := List.mem_map.mp hd
      simp [sizeofBuffer]
    · rcases List.mem_cons.mp hd with rfl | hd
      · exact ⟨List.length_pos_iff.mpr hne, hlen⟩
      · obtain ⟨b, -, rfl⟩ := List.mem_map.mp hd
        simp [sizeofBuffer]
  have hrun := h _ hseg
  rw [run_append (run_singletons u), run] at hrun
  cases hread : readChunk c with
  | none => simp [hread] at hrun
  | some o =>
      rw [hread, run_singletons] at hrun
      simp only [Option.bind_eq_bind, Option.bind_some, Option.map_some, Option.some.injEq] at hrun
      rw [List.append_assoc] at hrun
      exact congrArg some (List.append_cancel_right (List.append_cancel_left hrun))

/-- Two bytes of a line that are written back as they came. -/
inductive Next : UInt8 → UInt8 → Prop
  | same (a : UInt8) (h : isCtrl a = false) : Next a a
  | stop (a b : UInt8) (h : isCtrl a = false) (hb : isCtrl b = true) : Next a b
  | crlf : Next cr lf

theorem next_of_readChunk {a b : UInt8} (ha : a ≠ 0) (hb : b ≠ 0) (h : readChunk [a, b] = some [a, b]) : Next a b := by
  have hstring := @readChunk_string [a, b] [] (by simp [Ne.symm ha, Ne.symm hb]) (.inl rfl) (by simp [sizeofBuffer])
  rw [List.append_nil, h] at hstring
  by_cases hca : isCtrl a = true
  · by_cases hcb : isCtrl b = true
    · -- the four pairs of terminators
      rcases (by simpa [isCtrl] using hca : a = cr ∨ a = lf) with rfl | rfl
      · rcases (by simpa [isCtrl] using hcb : b = cr ∨ b = lf) with rfl | rfl
        · exact absurd h (by decide +kernel)
        · exact .crlf
      · rcases (by simpa [isCtrl] using hcb : b = cr ∨ b = lf) with rfl | rfl
        · exact absurd h (by decide +kernel)
        · exact absurd h (by decide +kernel)
    · -- the terminator comes behind the other byte
      have hends : ends [a, b] = [a] := by
        have hne : b ≠ cr ∧ b ≠ lf := by simpa [isCtrl] using hcb
        rcases (by simpa [isCtrl] using hca : a = cr ∨ a = lf) with rfl | rfl
        · simp [ends, Ne.symm hne.2]
          decide
        · simp [ends, Ne.symm hne.1]
          decide
      have hbody : body [a, b] = [b] := by simp [body, hca, hcb]
      rw [hends, hbody, if_pos (.inr (by simp [sizeofBuffer]))] at hstring
      obtain rfl : a = b := by simpa using congrArg (Option.map List.head?) hstring
      exact absurd hca hcb
  · rw [Bool.not_eq_true] at hca
    by_cases hcb : isCtrl b = true
    · exact .stop a b hca hcb
    · have hnea : a ≠ cr ∧ a ≠ lf := by simpa [isCtrl] using hca
      have hneb : b ≠ cr ∧ b ≠ lf := by simpa [isCtrl] using hcb
      have hends : ends [a, b] = [] := by simp [ends, Ne.symm hnea.1, Ne.symm hnea.2, Ne.symm hneb.1, Ne.symm hneb.2]
      have hbody : body [a, b] = [a, b] := by simp [body, hca, hcb]
      rw [hends, hbody, if_pos (.inl rfl)] at hstring
      obtain rfl : a = b := by simpa using congrArg (Option.map List.head?) hstring
      exact .same a hca

/-- Bytes that follow each other so are one byte repeated and a terminator. -/
theorem line_of_next {w : List UInt8} (h0 : 0 ∉ w) (h : w.IsChain Next) :
    ∃ a m t, w = List.replicate m a ++ t ∧ t ∈ terminators ∧ isCtrl a = false ∧ a ≠ 0 := by
  induction w with
  | nil => exact ⟨0x61, 0, [], rfl, by decide, by decide, by decide⟩
  | cons b w ih =>
      have hb0 : b ≠ 0 := fun h => h0 (by simp [h])
      obtain ⟨hhead, htail⟩ := List.isChain_cons.mp h
      obtain ⟨a, m, t, rfl, ht, ha, ha0⟩ := ih (fun h => h0 (List.mem_cons_of_mem b h)) htail
      by_cases hb : isCtrl b = true
      · -- behind a terminator there is nothing, or a LF behind a CR
        have hcrlf : ∀ x ∈ (List.replicate m a ++ t).head?, b = cr ∧ x = lf := by
          intro x hx
          have hnext := hhead x hx
          cases hnext with
          | same => simp_all
          | stop => simp_all
          | crlf => exact ⟨rfl, rfl⟩
        cases m with
        | succ m =>
            have hlf := (hcrlf a (by simp [List.replicate_succ])).2
            rw [hlf] at ha
            exact absurd ha (by decide)
        | zero =>
            simp only [terminators, List.mem_cons, List.not_mem_nil, or_false] at ht
            rcases ht with rfl | rfl | rfl | rfl
            · rcases (by simpa [isCtrl] using hb : b = cr ∨ b = lf) with rfl | rfl
              · exact ⟨0x61, 0, [cr], rfl, by decide, by decide, by decide⟩
              · exact ⟨0x61, 0, [lf], rfl, by decide, by decide, by decide⟩
            · exact absurd (hcrlf cr rfl).2 (by decide)
            · obtain rfl := (hcrlf lf rfl).1
              exact ⟨0x61, 0, [cr, lf], rfl, by decide, by decide, by decide⟩
            · exact absurd (hcrlf cr rfl).2 (by decide)
      · -- a byte of the line, the same as the next one
        rw [Bool.not_eq_true] at hb
        cases m with
        | zero => exact ⟨b, 1, t, rfl, ht, hb, hb0⟩
        | succ m =>
            have hnext : Next b a := hhead a (by simp [List.replicate_succ])
            obtain rfl : b = a := by
              cases hnext with
              | same => rfl
              | stop _ _ _ h => rw [h] at ha; exact Bool.noConfusion ha
              | crlf => exact absurd hb (by decide)
            exact ⟨b, m + 2, t, rfl, ht, hb, hb0⟩

/-- A stream without a NUL that every segmentation gives back is a line that fits the buffer. -/
theorem line_of_fixed {w : List UInt8} (h0 : 0 ∉ w)
    (hfix : ∀ c, c <:+: w → c ≠ [] → c.length ≤ sizeofBuffer → readChunk c = some c) :
    ∃ a m t, w = List.replicate m a ++ t ∧ t ∈ terminators ∧ isCtrl a = false ∧ a ≠ 0 ∧
      if t = [] then m < 256 else m + t.length < 255 := by
  have hnext : w.IsChain Next := by
    rw [List.isChain_iff_forall_rel_of_append_cons_cons]
    rintro a b u v rfl
    have ha : a ≠ 0 := fun h => h0 (by simp [h])
    have hb : b ≠ 0 := fun h => h0 (by simp [h])
    exact next_of_readChunk ha hb (hfix [a, b] ⟨u, v, by simp⟩ (by simp) (by simp [sizeofBuffer]))
  obtain ⟨a, m, t, rfl, ht, ha, ha0⟩ := line_of_next h0 hnext
  have hlen : (List.replicate m a ++ t).length < sizeofBuffer := by
    by_contra hlong
    have htake := hfix ((List.replicate m a ++ t).take sizeofBuffer) (List.take_prefix _ _).isInfix
      (by rw [ne_eq, ← List.length_eq_zero_iff, List.length_take]; unfold sizeofBuffer at *; omega)
      (by rw [List.length_take]; omega)
    rw [readChunk_full (fun h => h0 (List.mem_of_mem_take h)) (by rw [List.length_take]; omega)] at htake
    simp at htake
  refine ⟨a, m, t, rfl, ht, ha, ha0, ?_⟩
  by_cases ht0 : t = []
  · simpa [ht0, sizeofBuffer] using hlen
  · rw [if_neg ht0]
    have hread := hfix _ List.infix_rfl (by simp [ht0]) (Nat.le_of_lt hlen)
    have hplain : ∀ c ∈ List.replicate m a, isCtrl c = false := fun c hc => (List.mem_replicate.mp hc).2 ▸ ha
    have hstring := readChunk_string h0 (.inl rfl) hlen
    rw [List.append_nil, hread, body_line hplain ht, ends_line hplain ht,
      List.length_replicate] at hstring
    by_contra hlong
    rw [if_neg (by simp [ht0, sizeofBuffer]; omega)] at hstring
    simp at hstring

/-- NULs of which only the last but one can be followed by another byte. -/
theorem nuls_of_fixed {r : List UInt8} (h : ∀ x y, [0, x, y] <:+: 0 :: r → x = 0) :
    ∃ q y, 0 :: r = List.replicate (q + 1) 0 ++ y ∧ (y = [] ∨ ∃ v, v ≠ 0 ∧ y = [v]) := by
  induction r with
  | nil => exact ⟨0, [], rfl, .inl rfl⟩
  | cons x r ih =>
      by_cases hx : x = 0
      · subst hx
        obtain ⟨q, y, hq, hy⟩ := ih fun x y hxy => h x y (hxy.trans (List.suffix_cons _ _).isInfix)
        exact ⟨q + 1, y, by rw [hq, List.replicate_succ (n := q + 1)]; rfl, hy⟩
      · cases r with
        | nil => exact ⟨0, [x], rfl, .inr ⟨x, hx, rfl⟩⟩
        | cons y r => exact absurd (h x y ⟨[], r, rfl⟩) hx

/-- A line with a NUL behind it is its own reversal only with a terminator between them. -/
theorem terminator_of_self {a : UInt8} (ha : isCtrl a = false) (ha0 : a ≠ 0) {m : Nat} {t : List UInt8}
    (hw : reverseLines [] (List.replicate (m + 1) a ++ t ++ [0]) = List.replicate (m + 1) a ++ t ++ [0]) : t ≠ [] := by
  rintro rfl
  rw [List.append_nil, reverseLines_append fun b hb => (List.mem_replicate.mp hb).2 ▸ ha] at hw
  have hself : 0 :: ((List.replicate (m + 1) a).reverse ++ []) = List.replicate (m + 1) a ++ [0] := hw
  have hhead := congrArg List.head? hself
  simp only [List.head?_cons, List.replicate_succ, List.cons_append, Option.some.injEq] at hhead
  exact ha0 hhead.symm

/-- NULs with another byte behind them are their own reversal only if that byte ends a line. -/
theorem ctrl_of_self {t : List UInt8} (ht : t ∈ terminators) {q : Nat} {v : UInt8} (hv : v ≠ 0)
    (hw : reverseLines [] (t ++ (List.replicate (q + 1) 0 ++ [v])) = t ++ (List.replicate (q + 1) 0 ++ [v])) :
    isCtrl v = true := by
  by_contra hne
  rw [Bool.not_eq_true] at hne
  have hrun : ∀ b ∈ List.replicate (q + 1) 0 ++ [v], isCtrl b = false := by
    intro b hb
    rcases List.mem_append.mp hb with hb | hb
    · exact (List.mem_replicate.mp hb).2 ▸ (by decide)
    · exact (List.mem_singleton.mp hb) ▸ hne
  have hnuls := reverseLines_append hrun [] []
  have hself : reverseLines [] (List.replicate (q + 1) 0 ++ [v]) = List.replicate (q + 1) 0 ++ [v] := by
    by_cases ht0 : t = []
    · simpa [ht0] using hw
    · rw [reverseLines_terminator ht ht0] at hw
      exact List.append_cancel_left hw
  rw [List.append_nil, hself] at hnuls
  have hhead := congrArg List.head? hnuls
  simp [reverseLines, List.replicate_succ] at hhead
  exact hv hhead.symm

/-- A stream that every segmentation gives back, when its reversal is the stream itself. -/
theorem uniform_of_fixed {w : List UInt8} (hw : reverseLines [] w = w)
    (hfix : ∀ c, c <:+: w → c ≠ [] → c.length ≤ sizeofBuffer → readChunk c = some c) : Uniform w := by
  by_cases h0 : 0 ∈ w
  · obtain ⟨s, r, rfl, hs⟩ := List.eq_append_cons_of_mem h0
    obtain ⟨a, m, t, rfl, ht, ha, ha0, hshort⟩ := line_of_fixed hs fun c hc =>
      hfix c (hc.trans (List.prefix_append _ _).isInfix)
    have ht2 := (terminator_spec t ht).2.2.2.2
    have htriple : ∀ x y, [0, x, y] <:+: 0 :: r → x = 0 := by
      intro x y hxy
      have hread := hfix [0, x, y] (hxy.trans (List.suffix_append _ _).isInfix) (by simp) (by simp [sizeofBuffer])
      have hnul := @readChunk_nul [x] y (by simp [sizeofBuffer])
      rw [List.singleton_append, hread] at hnul
      exact (by simpa using hnul : 0 = x ∧ x = 0).2
    obtain ⟨q, y, hr, hy⟩ := nuls_of_fixed htriple
    cases m with
    | succ m =>
        -- behind a line nothing but one NUL stays where it is
        obtain rfl : r = [] := by
          cases r with
          | nil => rfl
          | cons x r =>
              refine absurd (hfix (a :: t ++ [0, x]) ⟨List.replicate m a, r, ?_⟩ (by simp) ?_) (readChunk_mixed ha0 ha ht x)
              · rw [List.replicate_succ']
                simp
              · simp [sizeofBuffer]
                omega
        have ht0 : t ≠ [] := terminator_of_self ha ha0 hw
        exact .line ha ha0 ht (.inr ⟨rfl, ht0⟩) hshort
    | zero =>
        rw [List.replicate_zero, List.nil_append] at hs hw hfix ⊢
        rw [hr] at hw hfix ⊢
        rcases hy with rfl | ⟨v, hv, rfl⟩
        · rw [List.append_nil]
          exact .terminator ht (q + 1)
        · have hv' : isCtrl v = true := ctrl_of_self ht hv hw
          rw [← List.append_assoc]
          refine .nuls ht ?_ ?_
          · rcases (by simpa [isCtrl] using hv' : v = cr ∨ v = lf) with rfl | rfl
            · simp
            · simp
          · by_cases ht0 : t = []
            · exact .inr (.inl ht0)
            · refine .inr (.inr ?_)
              cases q with
              | zero =>
                  have hread := hfix (t ++ [0, v]) List.infix_rfl (by simp) (by simp [sizeofBuffer]; omega)
                  rw [readChunk_terminator_lost ht ht0 v] at hread
                  exact absurd (by simpa using hread) (Ne.symm hv)
              | succ q => omega
  · obtain ⟨a, m, t, rfl, ht, ha, ha0, hshort⟩ := line_of_fixed h0 hfix
    have := Uniform.line (z := []) ha ha0 ht (.inl rfl) hshort
    rwa [List.append_nil] at this

/-- Chunks that are written back as they came. -/
theorem run_of_fixed {chunks : List (List UInt8)} (h : ∀ c ∈ chunks, readChunk c = some c) :
    run chunks = some chunks.flatten := by
  induction chunks with
  | nil => rfl
  | cons c chunks ih =>
      simp [run, h c (List.mem_cons_self ..), ih fun d hd => h d (List.mem_cons_of_mem c hd)]

/-- **The server and its segmentations**: any two segmentations of a stream give the same bytes, those of each line
    reversed in front of its terminator and as many as came, exactly for the streams `Uniform` describes. -/
theorem run_segments_iff (w : List UInt8) :
    (∀ chunks chunks', Segments chunks w → Segments chunks' w →
      run chunks = run chunks' ∧ ∃ out, run chunks = some out ∧ out = reverseLines [] w ∧ out.length = w.length) ↔
      Uniform w := by
  constructor
  · intro h
    have hone : Segments (w.map fun b => [b]) w := by
      refine ⟨by simp [← List.flatMap_def], fun c hc => ?_⟩
      obtain ⟨b, -, rfl⟩ := List.mem_map.mp hc
      simp [sizeofBuffer]
    have hw : reverseLines [] w = w := by
      obtain ⟨-, out, hout, rfl, -⟩ := h _ _ hone hone
      rw [run_singletons] at hout
      exact (Option.some.inj hout).symm
    refine uniform_of_fixed hw fun c hc hne hlen => readChunk_of_run (fun chunks hseg => ?_) hc hne hlen
    obtain ⟨-, out, hout, rfl, -⟩ := h _ _ hseg hseg
    rw [hout, hw]
  · intro hw chunks chunks' hseg hseg'
    have hrun {chunks : List (List UInt8)} (hseg : Segments chunks w) : run chunks = some w := by
      have hfixed : ∀ c ∈ chunks, readChunk c = some c := fun c hc =>
        (hw.infix_ (hseg.flatten ▸ List.infix_of_mem_flatten hc)).readChunk_eq (hseg.size c hc).2
          (List.length_pos_iff.mp (hseg.size c hc).1)
      rw [run_of_fixed hfixed, hseg.flatten]
    exact ⟨by rw [hrun hseg, hrun hseg'], w, hrun hseg, hw.reverseLines_eq.symm, rfl⟩

/-- `ab` and `c` on two lines, read at once and line by line. -/
theorem run_lines : Segments [[0x61, 0x62, lf, 0x63, lf]] [0x61, 0x62, lf, 0x63, lf] ∧
    Segments [[0x61, 0x62, lf], [0x63, lf]] [0x61, 0x62, lf, 0x63, lf] ∧
    run [[0x61, 0x62, lf, 0x63, lf]] ≠ run [[0x61, 0x62, lf], [0x63, lf]] :=
  ⟨⟨rfl, by decide⟩, ⟨rfl, by decide⟩, by decide +kernel⟩

end Server
end Libevent
end CSamples
