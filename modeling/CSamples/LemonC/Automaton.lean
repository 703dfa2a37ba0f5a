import CSamples.LemonC.States

/-!
# `LemonC.Automaton` — what `FindStates` leaves

The finished table of states is the automaton of the grammar's LR(0) items: `Valid` says of a path of symbols which
items a parser can stand at behind it, and the state that the path leads to holds just these.

## Contents
- `Automaton` and `findStates_automaton`.
- `Valid`, `Path`; `findStates_spec`.
-/

namespace CSamples
namespace LemonC

variable {τ ν : Type} [DecidableEq τ] [DecidableEq ν]

/-- The table when all states are done. -/
structure Automaton (lemp : Lemon τ ν) (fs : FirstSets τ ν) (sorted : List (State τ ν)) : Prop where
  ok    : TableOk lemp fs sorted
  done  : ∀ n < sorted.length, Done sorted n
  start : 0 < sorted.length

/-- `FindStates` ends with such a table. -/
theorem findStates_automaton {lemp : Lemon τ ν} (hsize : lemp.items.length < 2 ^ 30) (fs : FirstSets τ ν) :
    ∃ b, findStates lemp fs = some b ∧ Automaton lemp fs b.sorted := by
  obtain ⟨hnodup, hmem, hfws, hlink, hback⟩ := startBasis_spec (lemp.rulesOf lemp.sp)
  have hempty : TableOk lemp fs [] := by
    refine ⟨?_, ?_, ?_, ?_, ?_, ?_⟩ <;> simp
  have hbasis : BasisOf lemp [] (startBasis (lemp.rulesOf lemp.sp)) := by
    refine ⟨hnodup, fun k hk => ?_, fun k a => ?_, hlink, fun k r hr => absurd hr (hback k r), fun _ => hmem,
      fun h => absurd rfl h⟩
    · obtain ⟨hdot, hrp⟩ := (hmem k).mp hk
      exact ⟨((lemp.mem_rulesOf _ _).mp hrp).1, hdot ▸ Nat.zero_le _⟩
    · rw [hfws, hmem]
      exact (and_iff_right rfl).symm
  obtain ⟨m, b, hrun, hgot⟩ := getstate_spec fs hsize (2 ^ lemp.items.length + 1)
    (startBasis (lemp.rulesOf lemp.sp)) ⟨[], startErrors lemp, 0⟩ hempty hbasis (by simp)
  refine ⟨b, ?_, hgot.ok, fun n hn => hgot.done n (Nat.zero_le n) hn, ?_⟩
  · rw [findStates, hrun]
  · obtain ⟨stp, hstp, -⟩ := hgot.state
    have := (List.getElem?_eq_some_iff.mp hstp).1
    omega

/-! ## Items and paths -/

/-- The items that a parser can stand at when it has read the symbols of a path. -/
inductive Valid (lemp : Lemon τ ν) : List (Sym τ ν) → Item τ ν → Prop
  | start {rp : Rule τ ν} (hrp : rp ∈ lemp.rulesOf lemp.sp) : Valid lemp [] (rp, 0)
  | rule {p : List (Sym τ ν)} {k : Item τ ν} (h : Valid lemp p k) {newrp : Rule τ ν} (hcall : Calls lemp k newrp) :
      Valid lemp p (newrp, 0)
  | shift {p : List (Sym τ ν)} {k : Item τ ν} (h : Valid lemp p k) {X : Sym τ ν} (hX : nextSym k = some X) :
      Valid lemp (p ++ [X]) (k.1, k.2 + 1)

/-- The state that a path leads to. -/
inductive Path (sorted : List (State τ ν)) : List (Sym τ ν) → Nat → Prop
  | nil : Path sorted [] 0
  | snoc {p : List (Sym τ ν)} {n : Nat} (h : Path sorted p n) {X : Sym τ ν} {m : Nat} (hgoto : IsGoto sorted n X m) :
      Path sorted (p ++ [X]) m

section
variable {lemp : Lemon τ ν} {fs : FirstSets τ ν} {sorted : List (State τ ν)}

/-- A transition has one target. -/
theorem Automaton.goto_unique (h : Automaton lemp fs sorted) {n m m' : Nat} {X : Sym τ ν} (hm : IsGoto sorted n X m)
    (hm' : IsGoto sorted n X m') : m = m' := by
  obtain ⟨stpm, hstpm, stp, hstp, -, hbp⟩ := hm
  obtain ⟨stpm', hstpm', stp', hstp', -, hbp'⟩ := hm'
  obtain rfl := Option.some.inj (hstp.symm.trans hstp')
  refine h.ok.distinct m m' stpm stpm' hstpm hstpm' ?_
  exact (h.ok.state m stpm hstpm).basis.ext (h.ok.state m' stpm' hstpm').basis fun k => (hbp k).trans (hbp' k).symm

/-- The transitions of a state are those over the symbols behind its dots. -/
theorem Automaton.exists_goto (h : Automaton lemp fs sorted) {n : Nat} {stp : State τ ν} (hstp : sorted[n]? = some stp)
    {k : Item τ ν} (hk : k ∈ itemsOf stp.cfp) {X : Sym τ ν} (hX : nextSym k = some X) :
    ∃ m, Shifted sorted n stp.ap X m := by
  obtain ⟨stp', hstp', hall, -⟩ := h.done n (List.getElem?_eq_some_iff.mp hstp).1
  obtain rfl := Option.some.inj (hstp.symm.trans hstp')
  exact hall X (mem_shiftedSyms.mpr ⟨k, hk, hX⟩)

omit [DecidableEq ν] in
/-- Only the basis of a state has been moved. -/
theorem StateOk.mem_bp {n : Nat} {stp : State τ ν} (h : StateOk lemp fs n stp) {k : Item τ ν} (hk : k ∈ itemsOf stp.cfp)
    (hdot : k.2 ≠ 0) : k ∈ stp.bp := by
  cases (h.mem k).mp hk with
  | basis h => exact h
  | rule => exact absurd rfl hdot

theorem Automaton.calls (h : Automaton lemp fs sorted) {n : Nat} {stp : State τ ν} (hstp : sorted[n]? = some stp)
    {k : Item τ ν} (hk : k ∈ itemsOf stp.cfp) {newrp : Rule τ ν} (hcall : Calls lemp k newrp) :
    (newrp, 0) ∈ itemsOf stp.cfp := by
  have hmem := (h.ok.state n stp hstp).mem
  obtain ⟨sp, hsp, hrp⟩ := calls_iff.mp hcall
  exact (hmem _).mpr (((hmem k).mp hk).rule hsp hrp)

/-- **The items of a state** are those that are valid behind any path to it. -/
theorem Automaton.mem_iff (h : Automaton lemp fs sorted) {p : List (Sym τ ν)} {n : Nat} (hp : Path sorted p n)
    {stp : State τ ν} (hstp : sorted[n]? = some stp) (k : Item τ ν) : k ∈ itemsOf stp.cfp ↔ Valid lemp p k := by
  induction hp generalizing stp k with
  | nil =>
      have hfirst := h.ok.first stp hstp
      rw [(h.ok.state 0 stp hstp).mem]
      constructor
      · intro hk
        induction hk with
        | @basis k hk =>
            obtain ⟨hdot, hrp⟩ := (hfirst k).mp hk
            obtain ⟨rp, dot⟩ := k
            obtain rfl : dot = 0 := hdot
            exact .start hrp
        | rule _ hsp hrp ih => exact ih.rule (calls_iff.mpr ⟨_, hsp, hrp⟩)
      · intro hk
        generalize hnil : ([] : List (Sym τ ν)) = p at hk
        induction hk with
        | start hrp => exact .basis ((hfirst _).mpr ⟨rfl, hrp⟩)
        | rule _ hcall ih =>
            obtain ⟨sp, hsp, hrp⟩ := calls_iff.mp hcall
            exact (ih hnil).rule hsp hrp
        | shift => exact absurd hnil.symm (by simp)
  | @snoc p n hp X m hgoto ih =>
      obtain ⟨stp', hstp', stpn, hstpn, -, hbp⟩ := hgoto
      obtain rfl := Option.some.inj (hstp.symm.trans hstp')
      rw [(h.ok.state m stp hstp).mem]
      constructor
      · intro hk
        induction hk with
        | @basis k hk =>
            obtain ⟨dot, hdot, hin, hX⟩ := (hbp k).mp hk
            obtain ⟨rp, d⟩ := k
            obtain rfl : d = dot + 1 := hdot
            exact ((ih hstpn _).mp hin).shift hX
        | rule _ hsp hrp ih' => exact ih'.rule (calls_iff.mpr ⟨_, hsp, hrp⟩)
      · intro hk
        generalize hsnoc : p ++ [X] = q at hk
        induction hk with
        | start => exact absurd hsnoc (by simp)
        | rule _ hcall ih' =>
            obtain ⟨sp, hsp, hrp⟩ := calls_iff.mp hcall
            exact (ih' hsnoc).rule hsp hrp
        | @shift q k hk Y hY _ =>
            obtain ⟨rfl, hXY⟩ := List.append_inj' hsnoc rfl
            obtain rfl : X = Y := List.singleton_inj.mp hXY
            exact .basis ((hbp _).mpr ⟨k.2, rfl, (ih hstpn k).mpr hk, hY⟩)

theorem Automaton.lt_of_path (h : Automaton lemp fs sorted) {p : List (Sym τ ν)} {n : Nat} (hp : Path sorted p n) :
    n < sorted.length := by
  cases hp with
  | nil => exact h.start
  | snoc _ hgoto =>
      obtain ⟨stp, hstp, -⟩ := hgoto
      exact (List.getElem?_eq_some_iff.mp hstp).1

theorem Automaton.path_unique (h : Automaton lemp fs sorted) {p : List (Sym τ ν)} {n m : Nat} (hn : Path sorted p n)
    (hm : Path sorted p m) : n = m := by
  induction hn generalizing m with
  | nil =>
      generalize hnil : ([] : List (Sym τ ν)) = q at hm
      cases hm with
      | nil => rfl
      | snoc => exact absurd hnil.symm (by simp)
  | @snoc p n hp X m' hgoto ih =>
      generalize hsnoc : p ++ [X] = q at hm
      cases hm with
      | nil => exact absurd hsnoc (by simp)
      | @snoc q n' hq Y _ hgoto' =>
          obtain ⟨rfl, hXY⟩ := List.append_inj' hsnoc rfl
          obtain rfl : X = Y := List.singleton_inj.mp hXY
          obtain rfl := ih hq
          exact h.goto_unique hgoto hgoto'

/-- Behind every viable path there is a state. -/
theorem Automaton.path_of_valid (h : Automaton lemp fs sorted) {p : List (Sym τ ν)} {k : Item τ ν} (hk : Valid lemp p k) :
    ∃ n, Path sorted p n := by
  induction hk with
  | start => exact ⟨0, .nil⟩
  | rule _ _ ih => exact ih
  | @shift p k hk X hX ih =>
      obtain ⟨n, hp⟩ := ih
      have hstp := List.getElem?_eq_getElem (h.lt_of_path hp)
      obtain ⟨m, hshift⟩ := h.exists_goto hstp ((h.mem_iff hp hstp k).mpr hk) hX
      exact ⟨m, hp.snoc hshift.goto⟩

/-- Every state is the end of a path. -/
theorem Automaton.exists_path (h : Automaton lemp fs sorted) (n : Nat) (hn : n < sorted.length) : ∃ p, Path sorted p n := by
  induction n using Nat.strong_induction_on with
  | _ n ih =>
      rcases Nat.eq_zero_or_pos n with rfl | hpos
      · exact ⟨[], .nil⟩
      · have hstp := List.getElem?_eq_getElem hn
        obtain ⟨m, X, hlt, hmoves⟩ := h.ok.parent n _ hstp hpos
        obtain ⟨p, hp⟩ := ih m hlt (by omega)
        exact ⟨p ++ [X], hp.snoc ⟨_, hstp, hmoves⟩⟩

/-- In the first state no dot has been moved. -/
theorem Automaton.dot_start (h : Automaton lemp fs sorted) {stp : State τ ν} (hstp : sorted[0]? = some stp) {k : Item τ ν}
    (hk : k ∈ itemsOf stp.cfp) : k.2 = 0 := by
  cases ((h.ok.state 0 stp hstp).mem k).mp hk with
  | basis hk => exact ((h.ok.first stp hstp k).mp hk).1
  | rule => rfl

/-- In the others, the basis is what has been moved, and there is something in it. -/
theorem Automaton.mem_bp_iff (h : Automaton lemp fs sorted) {n : Nat} {stp : State τ ν} (hstp : sorted[n]? = some stp)
    (hpos : 0 < n) : (∀ k, k ∈ stp.bp ↔ k ∈ itemsOf stp.cfp ∧ k.2 ≠ 0) ∧ stp.bp ≠ [] := by
  have hstate := h.ok.state n stp hstp
  obtain ⟨m, X, -, stp', -, hX, hbp⟩ := h.ok.parent n stp hstp hpos
  refine ⟨fun k => ⟨fun hk => ⟨(hstate.mem k).mpr (.basis hk), ?_⟩, fun hk => hstate.mem_bp hk.1 hk.2⟩, ?_⟩
  · obtain ⟨dot, hdot, -⟩ := (hbp k).mp hk
    omega
  · obtain ⟨k, hk, hnext⟩ := mem_shiftedSyms.mp hX
    exact List.ne_nil_of_mem ((hbp (k.1, k.2 + 1)).mpr ⟨k.2, rfl, hk, hnext⟩)

/-- States with the same items are the same. -/
theorem Automaton.items_inj (h : Automaton lemp fs sorted) {n m : Nat} {stp stp' : State τ ν}
    (hn : sorted[n]? = some stp) (hm : sorted[m]? = some stp') (hmem : ∀ k, k ∈ itemsOf stp.cfp ↔ k ∈ itemsOf stp'.cfp) :
    n = m := by
  -- an item whose dot has been moved tells the first state from the others
  have hfirst : ∀ {i : Nat} {s s' : State τ ν}, sorted[0]? = some s → sorted[i]? = some s' →
      (∀ k, k ∈ itemsOf s'.cfp → k ∈ itemsOf s.cfp) → i = 0 := by
    intro i s s' h₀ hi hsub
    rcases Nat.eq_zero_or_pos i with rfl | hpos
    · rfl
    · obtain ⟨hbp, hne⟩ := h.mem_bp_iff hi hpos
      obtain ⟨k, hk⟩ := List.exists_mem_of_ne_nil _ hne
      exact absurd (h.dot_start h₀ (hsub k ((hbp k).mp hk).1)) ((hbp k).mp hk).2
  rcases Nat.eq_zero_or_pos n with rfl | hnpos
  · exact (hfirst hn hm fun k => (hmem k).mpr).symm
  · rcases Nat.eq_zero_or_pos m with rfl | hmpos
    · exact hfirst hm hn fun k => (hmem k).mp
    · refine h.ok.distinct n m stp stp' hn hm ?_
      refine (h.ok.state n stp hn).basis.ext (h.ok.state m stp' hm).basis fun k => ?_
      rw [(h.mem_bp_iff hn hnpos).1, (h.mem_bp_iff hm hmpos).1, hmem]

end

/-- The actions of a state are the shifts of its transitions. -/
theorem Automaton.shift_iff {lemp : Lemon τ ν} {fs : FirstSets τ ν} {sorted : List (State τ ν)}
    (h : Automaton lemp fs sorted) {n : Nat} {stp : State τ ν} (hstp : sorted[n]? = some stp) (sym : ActSym τ ν)
    (type : ActType τ ν) :
    (∃ e ∈ stp.ap, e.sp = sym ∧ e.type = type) ↔ ∃ X m, sym ∈ shiftSyms X ∧ type = .shift m ∧ IsGoto sorted n X m := by
  constructor
  · rintro ⟨e, he, rfl, rfl⟩
    obtain ⟨X, m, htype, hsp, hgoto⟩ := h.ok.ap n stp hstp e he
    exact ⟨X, m, hsp, htype, hgoto⟩
  · rintro ⟨X, m, hsym, rfl, hgoto⟩
    obtain ⟨stp', -, stpn, hstpn, hX, -⟩ := id hgoto
    obtain rfl := Option.some.inj (hstp.symm.trans hstpn)
    obtain ⟨k, hk, hnext⟩ := mem_shiftedSyms.mp hX
    obtain ⟨m', hshift⟩ := h.exists_goto hstp hk hnext
    obtain rfl := h.goto_unique hgoto hshift.goto
    exact hshift.shift sym hsym

/-- **`FindStates`** ends. Every state is the end of a path, a path leads to one state at most, and there is one if any
    item is valid behind the path; the state then holds exactly the valid items, and no other state holds the same. Its
    actions are the shifts of the transitions, for a multiterminal one for each of its tokens. -/
theorem findStates_spec {lemp : Lemon τ ν} (hsize : lemp.items.length < 2 ^ 30) (fs : FirstSets τ ν) :
    ∃ b, findStates lemp fs = some b ∧
      (∀ n, n < b.sorted.length ↔ ∃ p, Path b.sorted p n) ∧
      (∀ p n m, Path b.sorted p n → Path b.sorted p m → n = m) ∧
      (∀ p k, Valid lemp p k → ∃ n, Path b.sorted p n) ∧
      ∀ (n : Nat) (stp : State τ ν), b.sorted[n]? = some stp →
        (∀ p, Path b.sorted p n → ∀ k, k ∈ itemsOf stp.cfp ↔ Valid lemp p k) ∧
        (∀ (m : Nat) (stp' : State τ ν), b.sorted[m]? = some stp' →
          (∀ k, k ∈ itemsOf stp.cfp ↔ k ∈ itemsOf stp'.cfp) → n = m) ∧
        ∀ sym type, (∃ e ∈ stp.ap, e.sp = sym ∧ e.type = type) ↔
          ∃ X m, sym ∈ shiftSyms X ∧ type = .shift m ∧ IsGoto b.sorted n X m := by
  obtain ⟨b, hrun, h⟩ := findStates_automaton hsize fs
  refine ⟨b, hrun, fun n => ⟨h.exists_path n, ?_⟩, fun p n m => h.path_unique, fun p k => h.path_of_valid,
    fun n stp hstp => ⟨fun p hp => h.mem_iff hp hstp, fun m stp' hm => h.items_inj hstp hm, h.shift_iff hstp⟩⟩
  rintro ⟨p, hp⟩
  exact h.lt_of_path hp

/-- Behind an opening bracket: in the middle of its rule, and in front of the rules of `nest`. -/
theorem nested_valid : ∀ k ∈ [(nestedRules[1], 1), (nestedRules[1], 0), (nestedRules[2], 0)],
    Valid nested [.terminal (.terminal .opening)] k := by
  have hfile : Valid nested [] (nestedRules[0], 0) := .start ((nested.mem_rulesOf _ _).mpr ⟨by decide, rfl⟩)
  have hfirst : Valid nested [] (nestedRules[1], 0) := hfile.rule ⟨by decide, rfl⟩
  have hopen : Valid nested [.terminal (.terminal .opening)] (nestedRules[1], 1) :=
    @Valid.shift _ _ _ [] _ hfirst (.terminal (.terminal .opening)) rfl
  intro k hk
  simp only [List.mem_cons, List.not_mem_nil, or_false] at hk
  rcases hk with rfl | rfl | rfl
  · exact hopen
  · exact hopen.rule ⟨by decide, rfl⟩
  · exact hopen.rule ⟨by decide, rfl⟩

/-- The state behind an opening bracket. -/
theorem findStates_nested : ∃ b n stp, findStates nested ⟨fun n => n = .nest, fun _ => {.opening}⟩ = some b ∧
    Path b.sorted [.terminal (.terminal .opening)] n ∧ b.sorted[n]? = some stp ∧
    ∀ k ∈ [(nestedRules[1], 1), (nestedRules[1], 0), (nestedRules[2], 0)], k ∈ itemsOf stp.cfp := by
  have hsize : nested.items.length < 2 ^ 30 := by decide
  obtain ⟨b, hrun, hstates, -, hvalid, hstate⟩ := findStates_spec hsize ⟨fun n => n = .nest, fun _ => {.opening}⟩
  obtain ⟨n, hp⟩ := hvalid _ _ (nested_valid _ List.mem_cons_self)
  have hstp := List.getElem?_eq_getElem ((hstates n).mpr ⟨_, hp⟩)
  exact ⟨b, n, _, hrun, hp, hstp, fun k hk => ((hstate n _ hstp).1 _ hp k).mpr (nested_valid k hk)⟩

end LemonC
end CSamples
