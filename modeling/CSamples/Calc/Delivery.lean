import CSamples.Calc.Scan

/-!
# `Calc.Delivery` — the calculator's scanner and what `read(2)` delivers

`fill` takes a short block for the last one, uses the -1 of a call that fails as an offset, and keeps the distance it
moves the token by in a `uint`. So the tokens are those of the whole input in a run where the blocks in front of the
last one are full, no call fails, and no distance is lost.

## Contents
- **Specification.** `Correct`; `Fd.Whole`, the deliveries without a short block; `Fits`, the runs without a loss.
- `full_blocks_correct`: there the scanner is correct.
- `correct_iff_whole`: where no distance is lost, only there.
- `long`: an input on which a distance is lost.
-/

namespace CSamples
namespace Calc

open C CSamples.Lex

/-! ## Specification -/

/-- The calls of `scan` find the tokens of all bytes that are delivered, and return `EOF` at the end of the buffer. -/
def Correct (junk : Nat → UInt8) (fd : Fd) : Prop :=
  ∃ n s, scanFile (uint junk) n fd = some (scanned fd.data, s) ∧ s.fd.data = [] ∧ s.eof = some s.cur

/-- Only the last block is short; a call fails only behind a short block, where there is none. -/
structure Fd.Whole (fd : Fd) : Prop where
  le   : ∀ d ∈ fd.blocks, d.length ≤ BSIZE
  full : ∀ d ∈ fd.blocks.dropLast, d.length = BSIZE
  ends : fd.fails = true → ∃ d ∈ fd.blocks, d.length ≠ BSIZE

/-- In every call of `fill` the distance from `bot` to `tok` is less than 2^32. -/
def Fits (junk : Nat → UInt8) (fd : Fd) : Prop := ∃ n, (scanFile (checked junk) n fd).isSome = true

/-! ## Runs without a loss -/

theorem checked_le_uint (junk : Nat → UInt8) : (checked junk).Le (uint junk) := by
  refine ⟨rfl, ?_⟩
  intro d c hc
  obtain ⟨hd, heq⟩ := Option.ite_none_right_eq_some.mp hc
  rw [← heq]
  exact congrArg some (Nat.mod_eq_of_lt hd)

theorem checked_le_unbounded (junk : Nat → UInt8) : (checked junk).Le (unbounded junk) := by
  refine ⟨rfl, ?_⟩
  intro d c hc
  exact (Option.ite_none_right_eq_some.mp hc).2

/-- Up to the first short block, the tokens are those of the blocks. -/
theorem scanFile_of_fits {junk : Nat → UInt8} {fd : Fd} (h : fd.Sane) (hfits : Fits junk fd) :
    ∃ n s, scanFile (uint junk) n fd = some (scanned (taken fd.blocks), s) ∧ s.fd.data = untaken fd.blocks ∧
      s.eof = some s.cur := by
  obtain ⟨n, hn⟩ := hfits
  obtain ⟨y, hy⟩ := Option.isSome_iff_exists.mp hn
  have hle : n ≤ n + (taken fd.blocks).length + 2 := by omega
  obtain ⟨s, hs, hdata, heof⟩ := @scanFile_spec (unbounded junk) fd h (fun _ _ => rfl) (n + (taken fd.blocks).length + 2)
    (by omega)
  obtain rfl := Option.some.inj ((scanFile_mono (checked_le_unbounded junk) hle hy).symm.trans hs)
  exact ⟨n, s, scanFile_mono (checked_le_uint junk) (Nat.le_refl n) hy, hdata, heof⟩

/-- Whatever the fuel, that is all that the calls can return. -/
theorem eq_of_scanFile {junk : Nat → UInt8} {fd : Fd} (h : fd.Sane) (hfits : Fits junk fd) {n : Nat} {ys : List Scanned}
    {s : Scanner} (hrun : scanFile (uint junk) n fd = some (ys, s)) :
    ys = scanned (taken fd.blocks) ∧ s.fd.data = untaken fd.blocks := by
  obtain ⟨n', s', hrun', hdata', -⟩ := scanFile_of_fits h hfits
  have hle : (uint junk).Le (uint junk) := .refl _
  have heq := (scanFile_mono hle (Nat.le_max_left n n') hrun).symm.trans (scanFile_mono hle (Nat.le_max_right n n') hrun')
  obtain ⟨rfl, rfl⟩ := Prod.mk.inj (Option.some.inj heq)
  exact ⟨rfl, hdata'⟩

/-- Fewer than 2^32 bytes are never too many. -/
theorem fits_of_length {fd : Fd} (h : fd.Sane) (hlen : (taken fd.blocks).length < 4294967296) (junk : Nat → UInt8) :
    Fits junk fd := by
  obtain ⟨s, hs, -⟩ := @scanFile_spec (checked junk) fd h (fun d hd => if_pos (Nat.lt_of_le_of_lt hd hlen))
    ((taken fd.blocks).length + 2) (by omega)
  exact ⟨_, by rw [hs]; rfl⟩

/-! ## Short blocks -/

theorem taken_of_full {ds : List (List UInt8)} (h : ∀ d ∈ ds.dropLast, d.length = BSIZE) :
    taken ds = ds.flatten ∧ untaken ds = [] := by
  induction ds with
  | nil => exact ⟨rfl, rfl⟩
  | cons d ds ih =>
      cases ds with
      | nil =>
          unfold taken untaken
          split
          · exact ⟨rfl, rfl⟩
          · exact ⟨(List.append_nil d).symm, rfl⟩
      | cons e ds =>
          have hd : d.length = BSIZE := h d (List.mem_cons_self ..)
          obtain ⟨htaken, huntaken⟩ := ih (fun d' hd' => h d' (List.mem_cons_of_mem d hd'))
          rw [taken, untaken, if_pos hd, if_pos hd, htaken, huntaken]
          exact ⟨rfl, rfl⟩

theorem length_taken_le (ds : List (List UInt8)) : (taken ds).length ≤ ds.flatten.length := by
  induction ds with
  | nil => exact Nat.le_refl _
  | cons d ds ih =>
      rw [List.flatten_cons, List.length_append, taken]
      split
      · rw [List.length_append]
        exact Nat.add_le_add_left ih _
      · exact Nat.le_add_right _ _

theorem taken_append_untaken (ds : List (List UInt8)) : taken ds ++ untaken ds = ds.flatten := by
  induction ds with
  | nil => rfl
  | cons d ds ih =>
      rw [taken, untaken, List.flatten_cons]
      split
      · rw [List.append_assoc, ih]
      · rfl

/-- Where nothing is left, only the last block is short. -/
theorem full_of_untaken {ds : List (List UInt8)} (hpos : ∀ d ∈ ds, 0 < d.length) (h : untaken ds = []) :
    ∀ d ∈ ds.dropLast, d.length = BSIZE := by
  induction ds with
  | nil => exact nofun
  | cons d ds ih =>
      cases ds with
      | nil => exact nofun
      | cons e ds =>
          have hpos' : ∀ d' ∈ e :: ds, 0 < d'.length := fun d' hd' => hpos d' (List.mem_cons_of_mem d hd')
          unfold untaken at h
          split at h
          · next hd =>
              intro d' hd'
              rcases List.mem_cons.mp hd' with rfl | hd'
              · exact hd
              · exact ih hpos' h d' hd'
          · have he := List.flatten_eq_nil_iff.mp h e (List.mem_cons_self ..)
            have := hpos' e (List.mem_cons_self ..)
            rw [he] at this
            exact absurd this (Nat.lt_irrefl 0)

theorem Fd.Whole.sane {fd : Fd} (h : fd.Whole) : fd.Sane := ⟨h.le, h.ends⟩

theorem Fd.Whole.taken {fd : Fd} (h : fd.Whole) : taken fd.blocks = fd.data := (taken_of_full h.full).1

theorem correct_of_fits {junk : Nat → UInt8} {fd : Fd} (h : fd.Whole) (hfits : Fits junk fd) : Correct junk fd := by
  obtain ⟨n, s, hrun, hdata, heof⟩ := scanFile_of_fits h.sane hfits
  rw [h.taken] at hrun
  exact ⟨n, s, hrun, hdata.trans (taken_of_full h.full).2, heof⟩

/-- **The scanner is correct** on full blocks with a short one behind them, in a run in which no distance is lost; and
    none is lost on fewer than 2^32 bytes. -/
theorem full_blocks_correct (junk : Nat → UInt8) {fd : Fd} (h : fd.Whole) :
    (Fits junk fd → Correct junk fd) ∧ (fd.data.length < 4294967296 → Fits junk fd) :=
  ⟨correct_of_fits h, fun hlen => fits_of_length h.sane (h.taken ▸ hlen) junk⟩

/-- `12`. -/
theorem full_blocks_correct_twelve : Correct (fun _ => 0) ⟨[[ch '1', ch '2']], false⟩ := by
  obtain ⟨hcorrect, hfits⟩ := @full_blocks_correct (fun _ => 0) ⟨[[ch '1', ch '2']], false⟩
    ⟨by decide, by decide, by decide⟩
  exact hcorrect (hfits (by decide))

/-- A short block in front of others is taken for the last one. -/
theorem full_of_correct {junk : Nat → UInt8} {fd : Fd} (hpos : ∀ d ∈ fd.blocks, 0 < d.length) (h : fd.Sane)
    (hfits : Fits junk fd) (hcorrect : Correct junk fd) : ∀ d ∈ fd.blocks.dropLast, d.length = BSIZE := by
  obtain ⟨n, s, hrun, hdata, -⟩ := hcorrect
  exact full_of_untaken hpos ((eq_of_scanFile h hfits hrun).2.symm.trans hdata)

/-! ## A call that fails -/

/-- All blocks to come are full, and then a call fails; up to `T` bytes come into the buffer. -/
structure Stuck (T : Nat) (s : Scanner) : Prop where
  eof   : s.eof = none
  fails : s.fd.fails = true
  full  : ∀ d ∈ s.fd.blocks, d.length = BSIZE
  size  : s.buf.length ≤ T + BSIZE
  bound : s.lim + s.fd.data.length ≤ T

theorem Stuck.shift {T cnt : Nat} {s s' : Scanner} (h : Stuck T s) (hs : shift cnt s = some s') : Stuck T s' := by
  obtain ⟨buf, hbuf, rfl⟩ := Option.map_eq_some_iff.mp hs
  obtain ⟨-, hblit⟩ := Option.ite_none_right_eq_some.mp hbuf
  refine ⟨h.eof, h.fails, h.full, ?_, ?_⟩
  · show buf.length ≤ T + BSIZE
    rw [blit_length hblit]
    exact h.size
  · show s.lim - cnt + s.fd.data.length ≤ T
    have := h.bound
    omega

theorem Stuck.grow {P : Platform} {T : Nat} {s s' : Scanner} (h : Stuck T s) (hs : grow P s = some s') : Stuck T s' := by
  obtain ⟨-, hs⟩ := Option.ite_none_right_eq_some.mp hs
  obtain ⟨buf, hbuf, rfl⟩ := Option.map_eq_some_iff.mp hs
  refine ⟨h.eof, h.fails, h.full, ?_, h.bound⟩
  show buf.length ≤ T + BSIZE
  rw [blit_length hbuf, List.length_map, List.length_range]
  have := h.bound
  omega

/-- The newline behind the -1 is not stored in the block. -/
theorem Stuck.fetch {T : Nat} {s s' : Scanner} (h : Stuck T s) (hT : T + BSIZE < 4294967296) (hs : fetch s = some s') :
    Stuck T s' := by
  have hsize := h.size
  cases hb : s.fd.blocks with
  | nil =>
      have hread : s.fd.read = ([], minusOne, s.fd) := by rw [Fd.read_nil hb, h.fails, if_pos rfl]
      rw [fetch_eq hread] at hs
      obtain ⟨buf, hbuf, hs⟩ := Option.bind_eq_some_iff.mp hs
      have hlen := blit_length hbuf
      rw [if_pos (by decide)] at hs
      obtain ⟨buf', hbuf', -⟩ := Option.map_eq_some_iff.mp hs
      obtain ⟨hlt, -⟩ := Option.ite_none_right_eq_some.mp hbuf'
      have hmax : minusOne = 4294967295 := rfl
      omega
  | cons d ds =>
      have hd : d.length = BSIZE := h.full d (by rw [hb]; exact List.mem_cons_self ..)
      have hbound := h.bound
      rw [Fd.data, hb, List.flatten_cons, List.length_append] at hbound
      rw [fetch_eq (Fd.read_cons hb)] at hs
      obtain ⟨buf, hbuf, hs⟩ := Option.bind_eq_some_iff.mp hs
      rw [if_neg (not_not_intro hd)] at hs
      obtain rfl := Option.some.inj hs
      refine ⟨h.eof, h.fails, fun d' hd' => h.full d' (by rw [hb]; exact List.mem_cons_of_mem d hd'), ?_, ?_⟩
      · show buf.length ≤ T + BSIZE
        rw [blit_length hbuf]
        exact hsize
      · show s.lim + d.length + ds.flatten.length ≤ T
        omega

theorem Stuck.fill {P : Platform} {T : Nat} {s : Scanner} {cursor : Nat} {y : Scanner × Nat} (h : Stuck T s)
    (hT : T + BSIZE < 4294967296) (hy : Calc.fill P s cursor = some y) : Stuck T y.1 := by
  unfold Calc.fill at hy
  rw [h.eof, if_neg (by decide)] at hy
  obtain ⟨cnt, -, hy⟩ := Option.bind_eq_some_iff.mp hy
  obtain ⟨s₁, hs₁, hy⟩ := Option.bind_eq_some_iff.mp hy
  obtain ⟨s₂, hs₂, hy⟩ := Option.bind_eq_some_iff.mp hy
  obtain ⟨s₃, hs₃, rfl⟩ := Option.map_eq_some_iff.mp hy
  have h₁ : Stuck T s₁ := by
    split at hs₁
    · exact Option.some.inj hs₁ ▸ h
    · exact h.shift hs₁
  have h₂ : Stuck T s₂ := by
    split at hs₂
    · exact h₁.grow hs₂
    · exact Option.some.inj hs₂ ▸ h₁
  exact h₂.fetch hT hs₃

/-- One match. -/
theorem Stuck.run {P : Platform} {T : Nat} (hT : T + BSIZE < 4294967296) {n : Nat} {t : Option Tag} {x y : Scanner × Nat}
    (h : Stuck T x.1) (hrun : (reader P).run n rules [] none x = some (t, y)) : Stuck T y.1 := by
  refine @Reader.run_keeps _ _ _ _ (fun x => Stuck T x.1) ?_ ?_ ?_ ?_ _ _ _ _ _ _ _ hrun h
  · intro u x b y hmore hx
    obtain ⟨-, ⟨-, -, hfill⟩ | ⟨-, rfl⟩⟩ := reader_more_cases hmore
    · exact hx.fill hT hfill
    · exact hx
  · intro x a y hnext hx
    obtain ⟨-, rfl⟩ := reader_next_eq hnext
    exact hx
  · exact fun hx => ⟨hx.eof, hx.fails, hx.full, hx.size, hx.bound⟩
  · exact fun hx => hx

/-- A call of `scan` does not return `EOF`. -/
theorem Stuck.scan {P : Platform} {T : Nat} (hT : T + BSIZE < 4294967296) {n k : Nat} {x : Scanner × Nat}
    (h : Stuck T x.1) {y : Scanned} {s : Scanner} (hscan : Calc.scan P n k x = some (y, s)) : y ≠ .eof ∧ Stuck T s := by
  induction k generalizing x with
  | zero => cases hscan
  | succ k ih =>
      unfold Calc.scan at hscan
      obtain ⟨⟨t, x'⟩, hrun, hscan⟩ := Option.bind_eq_some_iff.mp hscan
      have hstd : Stuck T (std x).1 := ⟨h.eof, h.fails, h.full, h.size, h.bound⟩
      have h' := hstd.run hT hrun
      have hset : ∀ c line, Stuck T { x'.1 with cur := c, line := line } := fun _ _ =>
        ⟨h'.eof, h'.fails, h'.full, h'.size, h'.bound⟩
      cases t with
      | none => cases hscan
      | some t =>
      cases t with
      | ret t =>
          obtain ⟨rfl, rfl⟩ := Prod.mk.inj (Option.some.inj hscan)
          exact ⟨by simp, hset _ _⟩
      | blank => exact ih h' hscan
      | any => exact ih h' hscan
      | newline =>
          have heof : x'.1.eof ≠ some x'.2 := by
            rw [h'.eof]
            simp
          simp only at hscan
          rw [if_neg heof] at hscan
          obtain ⟨rfl, rfl⟩ := Prod.mk.inj (Option.some.inj hscan)
          exact ⟨by simp, hset _ _⟩

/-- The calls never come to `EOF`. -/
theorem Stuck.scanAll {P : Platform} {T : Nat} (hT : T + BSIZE < 4294967296) {n k : Nat} {s : Scanner} (h : Stuck T s) :
    Calc.scanAll P n k s = none := by
  induction k generalizing s with
  | zero => rfl
  | succ k ih =>
      unfold Calc.scanAll
      cases hscan : Calc.scan P n n (s, s.cur) with
      | none => rfl
      | some y =>
          obtain ⟨hne, h'⟩ := Stuck.scan hT h hscan
          rw [Option.bind_some, if_neg hne, ih h']
          rfl

/-- Where the calls come to `EOF`, a call of `read` fails only behind a short block. -/
theorem short_of_scanFile {junk : Nat → UInt8} {fd : Fd} (hlen : fd.data.length + BSIZE < 4294967296) {n : Nat}
    {y : List Scanned × Scanner} (hrun : scanFile (uint junk) n fd = some y) :
    fd.fails = true → ∃ d ∈ fd.blocks, d.length ≠ BSIZE := by
  intro hfails
  by_contra hfull
  have hstuck : Stuck fd.data.length (scannerInit fd) :=
    ⟨rfl, hfails, fun d hd => by_contra (fun hne => hfull ⟨d, hd, hne⟩), Nat.zero_le _, Nat.le_of_eq (Nat.zero_add _)⟩
  have hnone : scanFile (uint junk) n fd = none := Stuck.scanAll hlen hstuck
  rw [hnone] at hrun
  exact absurd hrun nofun

theorem short_of_correct {junk : Nat → UInt8} {fd : Fd} (hlen : fd.data.length + BSIZE < 4294967296)
    (h : Correct junk fd) : fd.fails = true → ∃ d ∈ fd.blocks, d.length ≠ BSIZE := by
  obtain ⟨n, s, hrun, -⟩ := h
  exact short_of_scanFile hlen hrun

/-- The bytes in front of the first short block are not too many. -/
theorem fits_of_sane {fd : Fd} (h : fd.Sane) (hlen : fd.data.length < 4294967296) (junk : Nat → UInt8) : Fits junk fd := by
  refine fits_of_length h ?_ junk
  have hle := length_taken_le fd.blocks
  rw [Fd.data] at hlen
  omega

/-! ## Splits -/

/-- **Short blocks and calls that fail**: where no distance is lost, the scanner is correct exactly on deliveries that
    are whole. -/
theorem correct_iff_whole (junk : Nat → UInt8) {fd : Fd} (hblocks : ∀ d ∈ fd.blocks, 0 < d.length ∧ d.length ≤ BSIZE) :
    (fd.Sane → Fits junk fd → (Correct junk fd ↔ fd.Whole)) ∧
    (fd.data.length + BSIZE < 4294967296 → (Correct junk fd ↔ fd.Whole)) := by
  have hle : ∀ d ∈ fd.blocks, d.length ≤ BSIZE := fun d hd => (hblocks d hd).2
  have hpos : ∀ d ∈ fd.blocks, 0 < d.length := fun d hd => (hblocks d hd).1
  have hsane : fd.Sane → Fits junk fd → (Correct junk fd ↔ fd.Whole) := by
    intro h hfits
    exact ⟨fun hcorrect => ⟨hle, full_of_correct hpos h hfits hcorrect, h.short⟩, fun hwhole => correct_of_fits hwhole hfits⟩
  refine ⟨hsane, ?_⟩
  intro hlen
  have hfits : fd.Sane → Fits junk fd := fun h => fits_of_sane h (by omega) junk
  constructor
  · intro hcorrect
    have h : fd.Sane := ⟨hle, short_of_correct hlen hcorrect⟩
    exact (hsane h (hfits h)).mp hcorrect
  · intro hwhole
    exact (hsane hwhole.sane (hfits hwhole.sane)).mpr hwhole

/-- `12` in one block. -/
theorem correct_iff_whole_block : Correct (fun _ => 0) ⟨[[ch '1', ch '2']], false⟩ :=
  ((correct_iff_whole (fun _ => 0) (by decide)).2 (by decide)).mpr ⟨by decide, by decide, by decide⟩

/-- `12` in two blocks is not `12` in one; and a call that fails at once makes `fill` write outside the block. -/
theorem split_differs :
    (∃ n s, scanFile (uint (fun _ => 0)) n ⟨[[ch '1'], [ch '2']], false⟩ = some ([.token .num [ch '1'], .eof], s)) ∧
    (∃ n s, scanFile (uint (fun _ => 0)) n ⟨[[ch '1', ch '2']], false⟩ = some ([.token .num [ch '1', ch '2'], .eof], s)) ∧
    (fill (uint (fun _ => 0)) (scannerInit ⟨[], true⟩) 0).isNone = true := by
  have hrun : ∀ fd : Fd, fd.Sane → (taken fd.blocks).length < 4294967296 →
      ∃ n s, scanFile (uint (fun _ => 0)) n fd = some (scanned (taken fd.blocks), s) := by
    intro fd h hlen
    obtain ⟨n, s, hs, -⟩ := scanFile_of_fits h (fits_of_length h hlen (fun _ => 0))
    exact ⟨n, s, hs⟩
  have hfirst : scanned (taken [[ch '1'], [ch '2']]) = [.token .num [ch '1'], .eof] := by decide +kernel
  have hboth : scanned (taken [[ch '1', ch '2']]) = [.token .num [ch '1', ch '2'], .eof] := by decide +kernel
  refine ⟨hfirst ▸ hrun _ ⟨by decide, by decide⟩ (by decide), hboth ▸ hrun _ ⟨by decide, by decide⟩ (by decide), ?_⟩
  decide +kernel

/-! ## A distance that is lost -/

/-- A literal of `k * BSIZE + 8191` digits and an operator, in full blocks. -/
def long (k : Nat) : Fd :=
  ⟨List.replicate k (List.replicate BSIZE (ch '1')) ++ [List.replicate 8191 (ch '1') ++ [ch '+']], false⟩

theorem full_long (k : Nat) : ∀ d ∈ (long k).blocks, d.length = BSIZE := by
  intro d hd
  rcases List.mem_append.mp hd with hd | hd
  · rw [List.eq_of_mem_replicate hd, List.length_replicate]
  · rw [List.mem_singleton.mp hd, List.length_append, List.length_replicate]
    rfl

theorem whole_long (k : Nat) : (long k).Whole :=
  ⟨fun d hd => Nat.le_of_eq (full_long k d hd), fun d hd => full_long k d (List.dropLast_subset _ hd), nofun⟩

theorem data_long (k : Nat) : (long k).data = List.replicate (k * BSIZE + 8191) (ch '1') ++ [ch '+'] := by
  have hflat : (List.replicate k (List.replicate BSIZE (ch '1'))).flatten = List.replicate (k * BSIZE) (ch '1') :=
    List.flatten_replicate_replicate
  rw [long, Fd.data, List.flatten_append, hflat, List.flatten_singleton, ← List.append_assoc, List.replicate_append_replicate]

theorem mem_integer_ones (n : Nat) : List.replicate (n + 1) (ch '1') ∈ integer.lang :=
  mem_integer.mpr ⟨ch '1', List.replicate n (ch '1'), by decide,
    fun b hb => by rw [List.eq_of_mem_replicate hb]; decide, rfl⟩

theorem isText_plus : IsText (.op .plus) [ch '+'] := .char (by decide +kernel) (by decide) (by decide) (by decide)

/-- Its tokens. -/
theorem scanned_long (k : Nat) : scanned (long k).data =
    [.token .num (List.replicate (k * BSIZE + 8191) (ch '1')), .token (.op .plus) [ch '+'], .eof] := by
  rw [data_long]
  refine @scanned_renders [(.num, List.replicate (k * BSIZE + 8191) (ch '1')), (.op .plus, [ch '+'])] _
    (.token Terminal.num _ (.token (Terminal.op .plus) _ .nil)) ?_ (by simp [Separate])
  intro x hx
  rcases List.mem_cons.mp hx with rfl | hx
  · exact .num (mem_integer_ones _)
  · rw [List.mem_singleton.mp hx]
    exact isText_plus

/-- In the literal, everything is read in full blocks. -/
structure Early (T : Nat) (w u v : List UInt8) (m : Option Nat) (x : Scanner × Nat) : Prop where
  sees : Sees T w [] u v m x
  tok  : x.1.tok = 0
  eof  : x.1.eof = none
  full : ∀ d ∈ x.1.fd.blocks, d.length = BSIZE

theorem need_le {u : List UInt8} (hu : u ≠ []) : need u ≤ 1 := by
  rw [need, if_neg hu]
  split
  · exact Nat.zero_le _
  · exact Nat.le_refl _

/-- In front of the last byte there is a block to read, if there is a need for it. -/
theorem Early.more {junk : Nat → UInt8} {T : Nat} {w u v : List UInt8} {m : Option Nat} {x : Scanner × Nat}
    (h : Early T w u v m x) (hw : 2 < w.length) (hu : u.length + 1 < w.length) :
    ∃ y, (reader (uint junk)).more u x = some (true, y) ∧ Early T w u v m y ∧
      (y.1.eof = none → y.1.tok + u.length + 1 ≤ y.1.lim ∧ y.1.tok + 2 ≤ y.1.lim) := by
  have hconv : x.1.eof = none → (uint junk).conv x.1.tok = some x.1.tok := by
    intro _
    rw [h.tok]
    rfl
  obtain ⟨y, hy, hsees, hroom⟩ := h.sees.more hconv
  refine ⟨y, hy, ?_, hroom⟩
  have hmore : (reader (uint junk)).more u x = if 0 < need u ∧ x.1.lim < x.2 + need u then
      (fill (uint junk) x.1 x.2).map (fun x => (true, x)) else some (true, x) := rfl
  rw [hmore] at hy
  split at hy
  · next hcheck =>
      have hcur := h.sees.cursor
      have hlen := h.sees.holds.length.1 h.eof
      have htok := h.tok
      obtain ⟨d, ds, hd⟩ : ∃ d ds, x.1.fd.blocks = d :: ds := by
        refine List.exists_cons_of_ne_nil ?_
        intro hnil
        rw [hnil, taken, List.length_nil] at hlen
        by_cases hempty : u = []
        · rw [need, if_pos hempty] at hcheck
          rw [hempty, List.length_nil] at hcur
          omega
        · have := need_le hempty
          omega
      obtain ⟨s, hs, -, htok', -, heof', -, hblocks⟩ :=
        fill_full h.sees.holds h.eof (hconv h.eof) x.2 hd (h.full d (by rw [hd]; exact List.mem_cons_self ..))
      rw [hs] at hy
      obtain ⟨-, rfl⟩ := Prod.mk.inj (Option.some.inj hy)
      refine ⟨hsees, htok', heof', ?_⟩
      intro d' hd'
      rw [hblocks] at hd'
      exact h.full d' (by rw [hd]; exact List.mem_cons_of_mem d hd')
  · obtain ⟨-, rfl⟩ := Prod.mk.inj (Option.some.inj hy)
    exact ⟨hsees, h.tok, h.eof, h.full⟩

theorem lawful_early (junk : Nat → UInt8) (T : Nat) {w : List UInt8} (hw : 2 < w.length) :
    (reader (uint junk)).LawfulOn (fun u => u.length + 1 < w.length) (Early T w) where
  next := by
    intro u a v m x hu h
    obtain ⟨y, hy, hearly, hroom⟩ := h.more hw hu
    obtain ⟨hnext, hsees⟩ := hearly.sees.next hroom (uint junk)
    exact ⟨y, _, hy, hnext, hsees, hearly.tok, hearly.eof, hearly.full⟩
  mark h    := ⟨h.sees.mark _, h.tok, h.eof, h.full⟩
  restore h := fun hk => ⟨h.sees.restore hk _, h.tok, h.eof, h.full⟩

theorem early_long (k : Nat) : Early (long k).data.length ((long k).data ++ [LF]) [] ((long k).data ++ [LF]) none
    (std (scannerInit (long k), 0)) := by
  have hwhole := whole_long k
  have hsees := sees_scannerInit hwhole.sane
  rw [hwhole.taken, (taken_of_full hwhole.full).2] at hsees
  exact ⟨hsees, rfl, rfl, full_long k⟩

/-- Behind the operator no rule goes on. -/
theorem length_lt_of_goes {u p : List UInt8} (hp : p <+: u ++ [ch '+', LF]) (h : (rules.after p).canStep = true) :
    p.length ≤ u.length := by
  by_contra hlt
  have hplus : u ++ [ch '+'] <+: p := by
    refine List.prefix_of_prefix_length_le ⟨[LF], ?_⟩ hp ?_
    · rw [List.append_assoc]
      rfl
    · rw [List.length_append, List.length_singleton]
      omega
  obtain ⟨q, rfl⟩ := hplus
  obtain ⟨x, hx, a, y, hy⟩ := goes_iff.mp h
  rw [List.append_assoc, List.append_assoc] at hy
  have hnil := eq_nil_of_mem_rules hx (by decide) (by decide) (by decide) hy
  exact List.append_ne_nil_of_right_ne_nil q (List.cons_ne_nil a y) hnil

/-- In front of the last bytes all blocks are read. -/
theorem Early.exhausted {T : Nat} {w u v : List UInt8} {m : Option Nat} {x : Scanner × Nat} (h : Early T w u v m x)
    (hw : w.length < u.length + BSIZE) : x.1.fd = ⟨[], false⟩ := by
  have hread := h.sees.read h.eof
  have hcur := h.sees.cursor
  have htok := h.tok
  have htotal := h.sees.holds.length.1 h.eof
  have hblocks : x.1.fd.blocks = [] := by
    cases hb : x.1.fd.blocks with
    | nil => rfl
    | cons d ds =>
        -- there is no room for a full one
        have hd := h.full d (by rw [hb]; exact List.mem_cons_self ..)
        rw [hb, taken, if_pos hd, List.length_append] at htotal
        omega
  have hfails : x.1.fd.fails = false := by
    by_contra hf
    obtain ⟨d, hd, -⟩ := (h.sees.holds.going h.eof).1.short (by simpa using hf)
    rw [hblocks] at hd
    exact absurd hd List.not_mem_nil
  rw [← hblocks, ← hfails]

theorem munch_long (k : Nat) : munch rules ((long k).data ++ [LF]) = some (.ret .num, k * BSIZE + 8191) := by
  obtain ⟨i, hi⟩ : ∃ i, k * BSIZE + 8191 = i + 1 := ⟨k * BSIZE + 8190, rfl⟩
  have hlit := @munch_literal _ [ch '+', LF] (mem_integer_ones i) (by decide +kernel)
  rw [List.length_replicate] at hlit
  rw [data_long, hi, List.append_assoc]
  exact hlit

/-- The literal is found, and then the last block is in the buffer. -/
theorem literal_long (junk : Nat → UInt8) (k : Nat) {n : Nat} (hn : (long k).data.length + 1 < n) :
    ∃ y, (reader (uint junk)).run n rules [] none (std (scannerInit (long k), 0)) = some (some (.ret .num), y) ∧
      y.2 = k * BSIZE + 8191 ∧ y.1.lim = y.2 + 1 ∧ y.1.eof = none ∧ y.1.fd = ⟨[], false⟩ ∧
      y.1.buf.take y.2 = List.replicate y.2 (ch '1') := by
  have hmunch := munch_long k
  generalize hN : k * BSIZE + 8191 = N at hmunch ⊢
  have hdata : (long k).data ++ [LF] = List.replicate N (ch '1') ++ [ch '+', LF] := by
    rw [data_long, hN, List.append_assoc]
    rfl
  have hlen : ((long k).data ++ [LF]).length = N + 2 := by
    rw [hdata, List.length_append, List.length_replicate]
    rfl
  have hdlen : (long k).data.length = N + 1 := by
    rw [List.length_append, List.length_singleton] at hlen
    omega
  have hlive : ∀ p, p <+: (long k).data ++ [LF] → (rules.after p).canStep = true →
      ([] ++ p).length + 1 < ((long k).data ++ [LF]).length := by
    intro p hp hgoes
    rw [hdata] at hp
    have := length_lt_of_goes hp hgoes
    rw [List.length_replicate] at this
    rw [hlen, List.nil_append]
    omega
  obtain ⟨y, hrun, i, hearly, hi⟩ := @Reader.run_spec_on _ _ _ _ _ _ (lawful_early junk (long k).data.length (by omega))
    _ [] rules none _ n hlive (.inr (not_goes_newline _)) (early_long k) nofun (by omega)
  have hfrom : munchFrom ((long k).data ++ [LF]) rules none ([] : List UInt8).length = some (.ret .num, N) := hmunch
  rw [hfrom] at hrun hearly hi
  obtain rfl : N = i := hi (.ret .num, N) rfl
  rw [List.nil_append] at hearly
  -- what the reader has seen is the literal
  have htake : ((long k).data ++ [LF]).take N = List.replicate N (ch '1') := by
    rw [hdata]
    exact List.take_left' List.length_replicate
  rw [htake] at hearly
  have htok := hearly.tok
  have hcur := hearly.sees.cursor
  have htext := hearly.sees.text
  have hB : BSIZE = 8192 := rfl
  have hfd := hearly.exhausted (by rw [hlen, List.length_replicate]; omega)
  have htotal := hearly.sees.holds.length.1 hearly.eof
  rw [hlen, hfd, taken, List.length_nil] at htotal
  rw [List.length_replicate] at hcur
  rw [text, htok, List.drop_zero, Nat.sub_zero] at htext
  have hy : y.2 = N := by omega
  exact ⟨y, hrun, hy, by omega, hearly.eof, hfd, htext.trans (by rw [hy])⟩

/-- Where a distance has lost its high bits, the cursor stays behind the token, and the byte it points at is one that
    was there before. -/
theorem fill_wraps {P : Platform} {s : Scanner} {cursor cnt : Nat} {y : Scanner × Nat} (h : s.eof = none)
    (hconv : P.conv s.tok = some cnt) (hcnt : cnt ≠ 0) (hread : s.fd = ⟨[], false⟩) (hy : fill P s cursor = some y) :
    y.2 = cursor - cnt ∧ ∀ i, s.lim - s.tok ≤ i → i < s.lim - cnt → y.1.buf[i]? = s.buf[i]? := by
  rw [fill, h, if_neg (by decide), hconv, Option.bind_some, if_neg hcnt] at hy
  obtain ⟨s₁, hs₁, hy⟩ := Option.bind_eq_some_iff.mp hy
  obtain ⟨s₂, hs₂, hy⟩ := Option.bind_eq_some_iff.mp hy
  obtain ⟨s₃, hs₃, rfl⟩ := Option.map_eq_some_iff.mp hy
  refine ⟨rfl, ?_⟩
  intro i hi hlt
  obtain ⟨buf₁, hbuf₁, rfl⟩ := Option.map_eq_some_iff.mp hs₁
  -- only the bytes from the token on are moved, to the front
  have h₁ : buf₁[i]? = s.buf[i]? := by
    obtain ⟨-, hblit⟩ := Option.ite_none_right_eq_some.mp hbuf₁
    refine blit_getElem? hblit ?_
    rw [List.length_take]
    omega
  have h₂ : s₂.fd = ⟨[], false⟩ ∧ s₂.lim = s.lim - cnt ∧ s₂.buf[i]? = s.buf[i]? := by
    split at hs₂
    · obtain ⟨hle₂, hs₂⟩ := Option.ite_none_right_eq_some.mp hs₂
      obtain ⟨buf₂, hbuf₂, rfl⟩ := Option.map_eq_some_iff.mp hs₂
      have hcopy := @blit_getElem?_of_lt _ buf₂ 0 i _ hbuf₂ (by
        show i < ((buf₁.drop 0).take (s.lim - cnt - 0)).length
        rw [List.length_take, List.length_drop]
        have : 0 + (s.lim - cnt - 0) ≤ buf₁.length := hle₂
        omega)
      refine ⟨hread, rfl, ?_⟩
      rw [Nat.zero_add] at hcopy
      show buf₂[i]? = s.buf[i]?
      rw [hcopy, ← h₁]
      show ((buf₁.drop 0).take (s.lim - cnt - 0))[i]? = buf₁[i]?
      rw [List.drop_zero, Nat.sub_zero, List.getElem?_take_of_lt hlt]
    · obtain rfl := Option.some.inj hs₂
      exact ⟨hread, rfl, h₁⟩
  obtain ⟨hfd, hlim, hbuf⟩ := h₂
  have hread₂ : s₂.fd.read = ([], 0, s₂.fd) := by
    rw [hfd]
    rfl
  rw [fetch_eq hread₂] at hs₃
  obtain ⟨buf₃, hbuf₃, hs₃⟩ := Option.bind_eq_some_iff.mp hs₃
  rw [if_pos (by decide)] at hs₃
  obtain ⟨buf₄, hbuf₄, rfl⟩ := Option.map_eq_some_iff.mp hs₃
  obtain ⟨-, hset⟩ := Option.ite_none_right_eq_some.mp hbuf₄
  rw [← hbuf, ← blit_nil hbuf₃]
  show buf₄[i]? = buf₃[i]?
  rw [← Option.some.inj hset, List.getElem?_set_ne (by omega)]

/-- A digit starts a literal. -/
theorem eq_num_of_ruleOf {w : List UInt8} {t : Tag} (h : ruleOf rules (ch '1' :: w) = some t) : t = .ret .num := by
  obtain ⟨r, hr, hmem⟩ := mem_of_ruleOf h
  have hword : ∀ c, ch '1' ≠ ch c → ch '1' :: w ∉ (Regex.word [ch c]).lang := by
    intro c hc hw
    exact hc (List.cons.inj (Regex.mem_word.mp hw)).1
  simp only [rules, List.mem_cons, List.not_mem_nil, or_false, Prod.mk.injEq] at hr
  rcases hr with ⟨-, rfl⟩ | ⟨rfl, -⟩ | ⟨rfl, -⟩ | ⟨rfl, -⟩ | ⟨rfl, -⟩ | ⟨rfl, -⟩ | ⟨rfl, -⟩ | ⟨rfl, -⟩ | ⟨rfl, -⟩ |
    ⟨rfl, -⟩ | ⟨rfl, -⟩ | ⟨rfl, rfl⟩
  · rfl
  · exact absurd hmem (hword _ (by decide))
  · exact absurd hmem (hword _ (by decide))
  · exact absurd hmem (hword _ (by decide))
  · exact absurd hmem (hword _ (by decide))
  · exact absurd hmem (hword _ (by decide))
  · exact absurd hmem (hword _ (by decide))
  · exact absurd hmem (hword _ (by decide))
  · exact absurd hmem (hword _ (by decide))
  · exact absurd ((Regex.mem_plus_cls.mp hmem).2 _ (List.mem_cons_self ..)) (by decide)
  · rcases hmem with hmem | hmem
    · exact absurd (List.cons.inj (Regex.mem_word.mp hmem)).1 (by decide)
    · exact absurd (List.cons.inj (Regex.mem_word.mp hmem)).1 (by decide)
  · obtain ⟨b, -, hb⟩ := Regex.mem_cls.mp hmem
    rw [hb, ← (List.cons.inj hb).1] at h
    exact absurd h (by decide +kernel)

/-- A call that finds a digit under the cursor returns a literal. -/
theorem scan_digit {P : Platform} {n k : Nat} {x : Scanner × Nat} {z : Scanned} {s : Scanner}
    (hload : ∀ y, (reader P).more [] (std x) = some (true, y) → load y.1.buf y.2 = some (ch '1'))
    (hscan : scan P n (k + 1) x = some (z, s)) : ∃ u, z = .token .num u := by
  have hacc : accepting rules = none := rfl
  have hstep : rules.canStep = true := rfl
  unfold scan at hscan
  obtain ⟨⟨t, y⟩, hrun, hscan⟩ := Option.bind_eq_some_iff.mp hscan
  cases n with
  | zero => cases hrun
  | succ n =>
      unfold Reader.run at hrun
      simp only [hacc, Option.isSome_none, Bool.false_eq_true, if_false, Option.none_or] at hrun
      rw [if_pos hstep] at hrun
      obtain ⟨⟨b, y₁⟩, hy₁, hrun⟩ := Option.bind_eq_some_iff.mp hrun
      obtain ⟨rfl, -⟩ := reader_more_cases hy₁
      rw [if_pos rfl] at hrun
      obtain ⟨⟨a, y₂⟩, hnext, hrun⟩ := Option.bind_eq_some_iff.mp hrun
      obtain ⟨hc, -⟩ := reader_next_eq hnext
      obtain rfl : ch '1' = a := Option.some.inj ((hload y₁ hy₁).symm.trans hc)
      cases t with
      | none => cases hscan
      | some t =>
          obtain ⟨w, hw⟩ := (Reader.run_tag hrun).resolve_left (by simp)
          obtain rfl := eq_num_of_ruleOf hw
          obtain ⟨rfl, -⟩ := Prod.mk.inj (Option.some.inj hscan)
          exact ⟨_, rfl⟩

/-- **A distance of 2^32 bytes and more is lost**: the operator behind the literal is not found. -/
theorem not_correct_long (junk : Nat → UInt8) {k : Nat} (hk : k * BSIZE = 4294967296) : ¬ Correct junk (long k) := by
  rintro ⟨n₀, s, hrun, -⟩
  -- enough fuel for the literal
  obtain ⟨n, hn, hlen⟩ : ∃ n, n₀ ≤ n + 2 ∧ (long k).data.length + 1 < n + 2 :=
    ⟨n₀ + (long k).data.length, by omega, by omega⟩
  have hrun := scanFile_mono (.refl (uint junk)) hn hrun
  obtain ⟨y, hy, hcur, hlim, heof, hfd, hbuf⟩ := literal_long junk k hlen
  have hfirst : scan (uint junk) (n + 2) (n + 2) (scannerInit (long k), 0) =
      some (.token .num (text y), { y.1 with cur := y.2 }) := by
    unfold scan
    rw [hy]
    rfl
  rw [scanned_long] at hrun
  change (scan (uint junk) (n + 2) (n + 2) (scannerInit (long k), 0)).bind _ = _ at hrun
  rw [hfirst, Option.bind_some, if_neg (by simp)] at hrun
  obtain ⟨⟨ys, s₁⟩, hys, heq⟩ := Option.map_eq_some_iff.mp hrun
  obtain ⟨hcons, rfl⟩ := Prod.mk.inj heq
  obtain rfl := (List.cons.inj hcons).2
  change (scan (uint junk) (n + 2) (n + 2) ({ y.1 with cur := y.2 }, y.2)).bind _ = _ at hys
  obtain ⟨⟨z, s₂⟩, hsecond, hys⟩ := Option.bind_eq_some_iff.mp hys
  have hz : z = .token (.op .plus) [ch '+'] := by
    split at hys
    · have hsnd := (Prod.mk.inj (Option.some.inj hys)).1
      cases (List.cons.inj hsnd).1
    · obtain ⟨r, -, hr⟩ := Option.map_eq_some_iff.mp hys
      exact (List.cons.inj (Prod.mk.inj hr).1).1
  obtain ⟨u, hu⟩ := @scan_digit _ _ (n + 1) _ _ _ (by
    intro x hx
    have hmore : (reader (uint junk)).more [] (std ({ y.1 with cur := y.2 }, y.2)) =
        (fill (uint junk) { y.1 with cur := y.2, tok := y.2 } y.2).map (fun x => (true, x)) :=
      if_pos ⟨by decide, show y.1.lim < y.2 + 2 by omega⟩
    rw [hmore] at hx
    obtain ⟨x', hx', heq⟩ := Option.map_eq_some_iff.mp hx
    obtain ⟨-, rfl⟩ := Prod.mk.inj heq
    have hconv : (uint junk).conv y.2 = some 8191 := congrArg some (show y.2 % 4294967296 = 8191 by omega)
    obtain ⟨hcur', hsame⟩ := @fill_wraps _ { y.1 with cur := y.2, tok := y.2 } _ _ _ heof hconv (by decide) hfd hx'
    have hbyte := hsame 4294967296 (show y.1.lim - y.2 ≤ 4294967296 by omega)
      (show 4294967296 < y.1.lim - 8191 by omega)
    rw [show y.2 - 8191 = 4294967296 by omega] at hcur'
    have hlt : 4294967296 < y.2 := by omega
    have hold : y.1.buf[4294967296]? = some (ch '1') := by
      rw [← List.getElem?_take_of_lt hlt, hbuf, List.getElem?_replicate_of_lt hlt]
    rw [load, hcur', hbyte]
    exact hold) hsecond
  rw [hz] at hu
  cases hu

/-- 2^32 + 8191 digits. -/
theorem long_wraps : (long 524288).Whole ∧ ¬ Correct (fun _ => 0) (long 524288) :=
  ⟨whole_long 524288, not_correct_long (fun _ => 0) rfl⟩

end Calc
end CSamples
