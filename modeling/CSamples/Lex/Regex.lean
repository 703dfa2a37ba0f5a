import Mathlib.Computability.Language

/-!
# `Lex.Regex` — regular expressions over character classes

The expressions a scanner generator compiles: classes of symbols (decidable predicates), alternation,
sequence and repetition. `Regex.lang` is their meaning as a Mathlib `Language`; `Regex.deriv` is the
derivative by one symbol, the state transition of the generated automaton.

## Contents
- **Language.** `lang`, with a membership lemma for every constructor and for the derived forms
  (`word`, `plus`, `opt`).
- **Derivatives.** `mem_lang_deriv`: `w ∈ (r.deriv a).lang ↔ a :: w ∈ r.lang`, through the
  smart constructors `mkAlt`/`mkSeq` that keep residuals small.
- **Stuck residuals.** `canStep r = false` means that no symbol can be consumed any more: the generated
  code then stops without looking at another byte. The test is exact where every class has a symbol (`Live`).
-/

namespace CSamples
namespace Lex

/-- Regular expressions over `α`, with classes of symbols as Boolean predicates. -/
inductive Regex (α : Type) where
  | empty
  | eps
  | cls (p : α → Bool)
  | alt (r s : Regex α)
  | seq (r s : Regex α)
  | star (r : Regex α)

namespace Regex

variable {α : Type}

/-- The language of an expression. -/
def lang : Regex α → Language α
  | empty   => 0
  | eps     => 1
  | cls p   => {w | ∃ a, p a = true ∧ w = [a]}
  | alt r s => r.lang + s.lang
  | seq r s => r.lang * s.lang
  | star r  => KStar.kstar r.lang

/-- Exactly the symbols of `w`, in order. -/
def word [DecidableEq α] : List α → Regex α
  | []     => eps
  | a :: w => seq (cls (· == a)) (word w)

/-- One or more repetitions. -/
def plus (r : Regex α) : Regex α := seq r (star r)

/-- An optional occurrence. -/
def opt (r : Regex α) : Regex α := alt r eps

/-! ## Membership, constructor by constructor -/

@[simp] theorem mem_empty {w : List α} : w ∈ (empty : Regex α).lang ↔ False := Iff.rfl

@[simp] theorem mem_eps {w : List α} : w ∈ (eps : Regex α).lang ↔ w = [] := Iff.rfl

@[simp] theorem mem_cls {p : α → Bool} {w : List α} :
    w ∈ (cls p).lang ↔ ∃ a, p a = true ∧ w = [a] := Iff.rfl

@[simp] theorem mem_alt {r s : Regex α} {w : List α} :
    w ∈ (alt r s).lang ↔ w ∈ r.lang ∨ w ∈ s.lang := Iff.rfl

theorem mem_seq {r s : Regex α} {w : List α} :
    w ∈ (seq r s).lang ↔ ∃ u ∈ r.lang, ∃ v ∈ s.lang, u ++ v = w := Iff.rfl

theorem mem_star {r : Regex α} {w : List α} :
    w ∈ (star r).lang ↔ ∃ L : List (List α), w = L.flatten ∧ ∀ u ∈ L, u ∈ r.lang := Iff.rfl

@[simp] theorem nil_mem_star {r : Regex α} : [] ∈ (star r).lang :=
  mem_star.mpr ⟨[], rfl, by simp⟩

/-- A repetition is extended at the front by one more occurrence. -/
theorem append_mem_star {r : Regex α} {u v : List α} (hu : u ∈ r.lang) (hv : v ∈ (star r).lang) :
    u ++ v ∈ (star r).lang := by
  obtain ⟨L, rfl, hL⟩ := mem_star.mp hv
  refine mem_star.mpr ⟨u :: L, rfl, ?_⟩
  intro x hx
  rcases List.mem_cons.mp hx with rfl | hx
  · exact hu
  · exact hL x hx

/-- A nonempty word of a repetition starts with a nonempty occurrence. -/
theorem cons_mem_star {r : Regex α} {a : α} {w : List α} :
    a :: w ∈ (star r).lang ↔ ∃ u v, w = u ++ v ∧ a :: u ∈ r.lang ∧ v ∈ (star r).lang := by
  constructor
  · intro h
    obtain ⟨L, hw, hL⟩ := mem_star.mp h
    induction L with
    | nil => simp at hw
    | cons x L ih =>
        cases x with
        | nil => exact ih (by simpa using hw) (fun u hu => hL u (List.mem_cons_of_mem _ hu))
        | cons b x =>
            simp only [List.flatten_cons, List.cons_append, List.cons.injEq] at hw
            obtain ⟨rfl, rfl⟩ := hw
            exact ⟨x, L.flatten, rfl, hL _ (List.mem_cons_self ..),
              mem_star.mpr ⟨L, rfl, fun u hu => hL u (List.mem_cons_of_mem _ hu)⟩⟩
  · rintro ⟨u, v, rfl, hu, hv⟩
    exact append_mem_star hu hv

/-- The repetition of a class is any run of its symbols. -/
theorem mem_star_cls {p : α → Bool} {w : List α} :
    w ∈ (star (cls p)).lang ↔ ∀ a ∈ w, p a = true := by
  induction w with
  | nil => simp
  | cons b w ih =>
      rw [cons_mem_star]
      constructor
      · rintro ⟨u, v, rfl, ⟨a, ha, hu⟩, hv⟩
        obtain ⟨rfl, rfl⟩ := List.cons.inj hu
        intro c hc
        rcases List.mem_cons.mp hc with rfl | hc
        · exact ha
        · exact (ih.mp hv) c hc
      · intro h
        exact ⟨[], w, rfl, ⟨b, h b (by simp), rfl⟩, ih.mpr (fun a ha => h a (by simp [ha]))⟩

/-- One or more symbols of a class: a nonempty run of its symbols. -/
theorem mem_plus_cls {p : α → Bool} {w : List α} :
    w ∈ (plus (cls p)).lang ↔ w ≠ [] ∧ ∀ a ∈ w, p a = true := by
  unfold plus
  rw [mem_seq]
  constructor
  · rintro ⟨u, ⟨a, ha, rfl⟩, v, hv, rfl⟩
    refine ⟨by simp, ?_⟩
    intro b hb
    rcases List.mem_cons.mp hb with rfl | hb
    · exact ha
    · exact mem_star_cls.mp hv b hb
  · rintro ⟨hne, h⟩
    cases w with
    | nil => exact absurd rfl hne
    | cons b w =>
        exact ⟨[b], ⟨b, h b (by simp), rfl⟩, w,
          mem_star_cls.mpr (fun a ha => h a (by simp [ha])), rfl⟩

theorem mem_opt {r : Regex α} {w : List α} : w ∈ (opt r).lang ↔ w ∈ r.lang ∨ w = [] := Iff.rfl

@[simp] theorem mem_word [DecidableEq α] {u w : List α} : w ∈ (word u).lang ↔ w = u := by
  induction u generalizing w with
  | nil => exact Iff.rfl
  | cons a u ih =>
      unfold word
      rw [mem_seq]
      constructor
      · rintro ⟨x, ⟨b, hb, rfl⟩, v, hv, rfl⟩
        rw [ih.mp hv, eq_of_beq hb]
        rfl
      · rintro rfl
        exact ⟨[a], ⟨a, by simp, rfl⟩, u, ih.mpr rfl, rfl⟩

/-- Every symbol that the expression consumes is in the class `p`. -/
def Over (p : α → Bool) : Regex α → Prop
  | empty   => True
  | eps     => True
  | cls q   => ∀ a, q a = true → p a = true
  | alt r s => Over p r ∧ Over p s
  | seq r s => Over p r ∧ Over p s
  | star r  => Over p r

theorem over_word [DecidableEq α] {p : α → Bool} {u : List α} (h : ∀ a ∈ u, p a = true) : Over p (word u) := by
  induction u with
  | nil => trivial
  | cons a u ih =>
      refine ⟨?_, ih (fun b hb => h b (List.mem_cons_of_mem a hb))⟩
      intro b hb
      obtain rfl : b = a := by simpa using hb
      exact h b (List.mem_cons_self ..)

/-- The symbols of the words of an expression. -/
theorem mem_of_over {p : α → Bool} {r : Regex α} (h : Over p r) {w : List α} (hw : w ∈ r.lang) :
    ∀ a ∈ w, p a = true := by
  induction r generalizing w with
  | empty => exact absurd hw (by simp)
  | eps =>
      obtain rfl := mem_eps.mp hw
      simp
  | cls q =>
      obtain ⟨a, ha, rfl⟩ := mem_cls.mp hw
      simpa using h a ha
  | alt r s ihr ihs =>
      rcases mem_alt.mp hw with hw | hw
      · exact ihr h.1 hw
      · exact ihs h.2 hw
  | seq r s ihr ihs =>
      obtain ⟨u, hu, v, hv, rfl⟩ := mem_seq.mp hw
      intro a ha
      rcases List.mem_append.mp ha with ha | ha
      · exact ihr h.1 hu a ha
      · exact ihs h.2 hv a ha
  | star r ih =>
      obtain ⟨L, rfl, hL⟩ := mem_star.mp hw
      intro a ha
      obtain ⟨u, hu, ha⟩ := List.mem_flatten.mp ha
      exact ih h (hL u hu) a ha

/-! ## Nullability and derivatives -/

/-- Does the expression match the empty word? -/
def nullable : Regex α → Bool
  | empty   => false
  | eps     => true
  | cls _   => false
  | alt r s => r.nullable || s.nullable
  | seq r s => r.nullable && s.nullable
  | star _  => true

theorem nullable_iff {r : Regex α} : r.nullable = true ↔ [] ∈ r.lang := by
  induction r with
  | empty => simp [nullable]
  | eps => simp [nullable]
  | cls p => simp [nullable]
  | alt r s ihr ihs => simp [nullable, ihr, ihs]
  | seq r s ihr ihs =>
      simp only [nullable, Bool.and_eq_true, ihr, ihs, mem_seq]
      constructor
      · rintro ⟨h1, h2⟩
        exact ⟨[], h1, [], h2, rfl⟩
      · rintro ⟨u, hu, v, hv, huv⟩
        obtain ⟨rfl, rfl⟩ := List.append_eq_nil_iff.mp huv
        exact ⟨hu, hv⟩
  | star r _ => simp [nullable]

/-- No word at all: a syntactic test, exact when every class is inhabited. -/
def isEmpty : Regex α → Bool
  | empty   => true
  | eps     => false
  | cls _   => false
  | alt r s => r.isEmpty && s.isEmpty
  | seq r s => r.isEmpty || s.isEmpty
  | star _  => false

theorem not_mem_of_isEmpty {r : Regex α} (h : r.isEmpty = true) (w : List α) : w ∉ r.lang := by
  induction r generalizing w with
  | empty => simp
  | eps => simp [isEmpty] at h
  | cls p => simp [isEmpty] at h
  | alt r s ihr ihs =>
      simp only [isEmpty, Bool.and_eq_true] at h
      rw [mem_alt, not_or]
      exact ⟨ihr h.1 w, ihs h.2 w⟩
  | seq r s ihr ihs =>
      simp only [isEmpty, Bool.or_eq_true] at h
      rw [mem_seq]
      rintro ⟨u, hu, v, hv, -⟩
      rcases h with h | h
      · exact ihr h u hu
      · exact ihs h v hv
  | star r _ => simp [isEmpty] at h

/-- Can another symbol be consumed? (Exact when every class is inhabited.) -/
def canStep : Regex α → Bool
  | empty   => false
  | eps     => false
  | cls _   => true
  | alt r s => r.canStep || s.canStep
  | seq r s => (r.canStep && !s.isEmpty) || (r.nullable && s.canStep)
  | star r  => r.canStep

/-- Alternation that drops an empty side. -/
def mkAlt : Regex α → Regex α → Regex α
  | empty, s => s
  | r, empty => r
  | r, s     => alt r s

/-- Sequence that drops a unit on the left and collapses on an empty left side. -/
def mkSeq : Regex α → Regex α → Regex α
  | empty, _ => empty
  | eps, s   => s
  | r, s     => seq r s

theorem mem_mkAlt {r s : Regex α} {w : List α} :
    w ∈ (mkAlt r s).lang ↔ w ∈ r.lang ∨ w ∈ s.lang := by
  unfold mkAlt
  split <;> simp

theorem mem_mkSeq {r s : Regex α} {w : List α} :
    w ∈ (mkSeq r s).lang ↔ ∃ u ∈ r.lang, ∃ v ∈ s.lang, u ++ v = w := by
  unfold mkSeq
  split
  · simp
  · constructor
    · intro h
      exact ⟨[], rfl, w, h, rfl⟩
    · rintro ⟨u, rfl, v, hv, rfl⟩
      exact hv
  · exact mem_seq

/-- The derivative by one symbol. -/
def deriv (a : α) : Regex α → Regex α
  | empty   => empty
  | eps     => empty
  | cls p   => if p a then eps else empty
  | alt r s => mkAlt (r.deriv a) (s.deriv a)
  | seq r s =>
      if r.nullable then mkAlt (mkSeq (r.deriv a) s) (s.deriv a) else mkSeq (r.deriv a) s
  | star r  => mkSeq (r.deriv a) (star r)

/-- A sequence consumes `a` in its first part, or in its second when the first matches nothing. -/
private theorem cons_mem_seq {r s : Regex α} {a : α} {w : List α} :
    a :: w ∈ (seq r s).lang ↔
      (∃ u, a :: u ∈ r.lang ∧ ∃ v ∈ s.lang, u ++ v = w) ∨ ([] ∈ r.lang ∧ a :: w ∈ s.lang) := by
  rw [mem_seq]
  constructor
  · rintro ⟨u, hu, v, hv, huv⟩
    cases u with
    | nil =>
        rw [List.nil_append] at huv
        subst huv
        exact Or.inr ⟨hu, hv⟩
    | cons b u =>
        obtain ⟨rfl, rfl⟩ := List.cons.inj huv
        exact Or.inl ⟨u, hu, v, hv, rfl⟩
  · rintro (⟨u, hu, v, hv, rfl⟩ | ⟨hr, hs⟩)
    · exact ⟨a :: u, hu, v, hv, rfl⟩
    · exact ⟨[], hr, a :: w, hs, rfl⟩

/-- **The derivative is the left quotient by one symbol.** -/
theorem mem_lang_deriv {r : Regex α} {a : α} {w : List α} :
    w ∈ (r.deriv a).lang ↔ a :: w ∈ r.lang := by
  induction r generalizing w with
  | empty => simp [deriv]
  | eps => simp [deriv]
  | cls p =>
      unfold deriv
      by_cases hp : p a = true
      · rw [if_pos hp, mem_eps, mem_cls]
        constructor
        · rintro rfl
          exact ⟨a, hp, rfl⟩
        · rintro ⟨b, -, hb⟩
          exact (List.cons.inj hb).2
      · rw [if_neg hp, mem_empty, mem_cls, false_iff]
        rintro ⟨b, hb, hw⟩
        obtain ⟨rfl, -⟩ := List.cons.inj hw
        exact hp hb
  | alt r s ihr ihs =>
      rw [deriv, mem_mkAlt, ihr, ihs, mem_alt]
  | seq r s ihr ihs =>
      rw [cons_mem_seq]
      unfold deriv
      by_cases hn : r.nullable = true
      · rw [if_pos hn, mem_mkAlt, mem_mkSeq, ihs]
        simp only [ihr, nullable_iff.mp hn, true_and]
      · rw [if_neg hn, mem_mkSeq]
        have hnil : [] ∉ r.lang := fun h => hn (nullable_iff.mpr h)
        simp only [ihr, hnil, false_and, or_false]
  | star r ih =>
      rw [deriv, mem_mkSeq, cons_mem_star]
      simp only [ih]
      constructor
      · rintro ⟨u, hu, v, hv, rfl⟩
        exact ⟨u, v, rfl, hu, hv⟩
      · rintro ⟨u, v, rfl, hu, hv⟩
        exact ⟨u, hu, v, hv, rfl⟩

/-- What is left of the words behind several symbols. -/
def derivs (r : Regex α) (u : List α) : Regex α := u.foldl (fun r a => r.deriv a) r

theorem mem_lang_derivs {r : Regex α} {u w : List α} : w ∈ (r.derivs u).lang ↔ u ++ w ∈ r.lang := by
  induction u generalizing r with
  | nil => exact Iff.rfl
  | cons a u ih =>
      show w ∈ ((r.deriv a).derivs u).lang ↔ _
      rw [ih, mem_lang_deriv, List.cons_append]

/-- A residual that cannot step has no word left but the empty one. -/
theorem not_cons_mem_of_not_canStep {r : Regex α} (h : r.canStep = false) (a : α) (w : List α) :
    a :: w ∉ r.lang := by
  induction r generalizing w with
  | empty => simp
  | eps => simp
  | cls p => simp [canStep] at h
  | alt r s ihr ihs =>
      simp only [canStep, Bool.or_eq_false_iff] at h
      rw [mem_alt, not_or]
      exact ⟨ihr h.1 w, ihs h.2 w⟩
  | seq r s ihr ihs =>
      simp only [canStep, Bool.or_eq_false_iff, Bool.and_eq_false_iff, Bool.not_eq_false'] at h
      rw [cons_mem_seq, not_or]
      refine ⟨?_, ?_⟩
      · rintro ⟨u, hu, v, hv, -⟩
        rcases h.1 with hr | hs
        · exact ihr hr u hu
        · exact not_mem_of_isEmpty hs v hv
      · rintro ⟨hr, hs⟩
        rcases h.2 with hn | hs'
        · exact absurd (nullable_iff.mpr hr) (by simp [hn])
        · exact ihs hs' w hs
  | star r ih =>
      rw [cons_mem_star]
      rintro ⟨u, v, -, hu, -⟩
      exact ih h u hu

/-! ## The syntactic tests are exact -/

/-- Every class has a symbol. -/
def Live : Regex α → Prop
  | empty   => True
  | eps     => True
  | cls p   => ∃ a, p a = true
  | alt r s => Live r ∧ Live s
  | seq r s => Live r ∧ Live s
  | star r  => Live r

theorem live_word [DecidableEq α] (u : List α) : Live (word u) := by
  induction u with
  | nil => trivial
  | cons a u ih => exact ⟨⟨a, beq_self_eq_true a⟩, ih⟩

theorem live_plus {r : Regex α} (h : Live r) : Live (plus r) := ⟨h, h⟩

theorem live_mkAlt {r s : Regex α} (hr : Live r) (hs : Live s) : Live (mkAlt r s) := by
  unfold mkAlt
  split
  · exact hs
  · exact hr
  · exact ⟨hr, hs⟩

theorem live_mkSeq {r s : Regex α} (hr : Live r) (hs : Live s) : Live (mkSeq r s) := by
  unfold mkSeq
  split
  · trivial
  · exact hs
  · exact ⟨hr, hs⟩

theorem live_deriv {r : Regex α} (h : Live r) (a : α) : Live (r.deriv a) := by
  induction r with
  | empty => trivial
  | eps => trivial
  | cls p =>
      unfold deriv
      split <;> trivial
  | alt r s ihr ihs => exact live_mkAlt (ihr h.1) (ihs h.2)
  | seq r s ihr ihs =>
      unfold deriv
      split
      · exact live_mkAlt (live_mkSeq (ihr h.1) h.2) (ihs h.2)
      · exact live_mkSeq (ihr h.1) h.2
  | star r ih => exact live_mkSeq (ih h) h

theorem exists_mem_of_not_isEmpty {r : Regex α} (h : Live r) (hne : r.isEmpty = false) : ∃ w, w ∈ r.lang := by
  induction r with
  | empty => exact nomatch hne
  | eps => exact ⟨[], rfl⟩
  | cls p =>
      obtain ⟨a, ha⟩ := h
      exact ⟨[a], a, ha, rfl⟩
  | alt r s ihr ihs =>
      rcases Bool.and_eq_false_iff.mp hne with hr | hs
      · obtain ⟨w, hw⟩ := ihr h.1 hr
        exact ⟨w, .inl hw⟩
      · obtain ⟨w, hw⟩ := ihs h.2 hs
        exact ⟨w, .inr hw⟩
  | seq r s ihr ihs =>
      obtain ⟨hr, hs⟩ := Bool.or_eq_false_iff.mp hne
      obtain ⟨u, hu⟩ := ihr h.1 hr
      obtain ⟨v, hv⟩ := ihs h.2 hs
      exact ⟨u ++ v, mem_seq.mpr ⟨u, hu, v, hv, rfl⟩⟩
  | star r _ => exact ⟨[], nil_mem_star⟩

/-- A residual that can step has a word that starts with a symbol. -/
theorem exists_cons_mem_of_canStep {r : Regex α} (h : Live r) (hc : r.canStep = true) : ∃ a w, a :: w ∈ r.lang := by
  induction r with
  | empty => exact nomatch hc
  | eps => exact nomatch hc
  | cls p =>
      obtain ⟨a, ha⟩ := h
      exact ⟨a, [], a, ha, rfl⟩
  | alt r s ihr ihs =>
      rcases Bool.or_eq_true_iff.mp hc with hr | hs
      · obtain ⟨a, w, hw⟩ := ihr h.1 hr
        exact ⟨a, w, .inl hw⟩
      · obtain ⟨a, w, hw⟩ := ihs h.2 hs
        exact ⟨a, w, .inr hw⟩
  | seq r s ihr ihs =>
      simp only [canStep, Bool.or_eq_true, Bool.and_eq_true, Bool.not_eq_true'] at hc
      rcases hc with ⟨hr, hs⟩ | ⟨hr, hs⟩
      · obtain ⟨a, u, hu⟩ := ihr h.1 hr
        obtain ⟨v, hv⟩ := exists_mem_of_not_isEmpty h.2 hs
        exact ⟨a, u ++ v, mem_seq.mpr ⟨a :: u, hu, v, hv, rfl⟩⟩
      · obtain ⟨a, w, hw⟩ := ihs h.2 hs
        exact ⟨a, w, mem_seq.mpr ⟨[], nullable_iff.mp hr, a :: w, hw, rfl⟩⟩
  | star r ih =>
      obtain ⟨a, w, hw⟩ := ih h hc
      refine ⟨a, w, ?_⟩
      rw [← List.append_nil (a :: w)]
      exact append_mem_star hw nil_mem_star

end Regex
end Lex
end CSamples
