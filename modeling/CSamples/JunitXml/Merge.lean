import Mathlib.Algebra.Order.BigOperators.Group.List
import Mathlib.Algebra.Order.Group.Multiset

/-!
# `JunitXml.Merge` — what `merge_junitxml.py` keeps of the reports it merges

`main` of `junit_xml/merge_junitxml.py` takes the first valid report for the root of the output and appends the
`testsuite` children of the roots of all others.

## Contents
- **Model.** `Element`, as `lxml` has it; `merge`, the loop over the parsed reports; `mergeJunitxml`, with the
  validation in front of it, which an external program does by a schema that is fetched.
- **Trees.** `gather`, what the elements of a tree contribute, added up; `merge_eq`.
- **`merge_lossless_iff`**: nothing is lost exactly when every report but the first has the root `testsuites`.
-/

namespace CSamples
namespace JunitXml

variable {α β : Type}

/-! ## The model -/

/-- The tags the program and the schema tell apart. -/
inductive Tag where
  | testsuites
  | testsuite
  | testcase
  | other (name : String)
  deriving DecidableEq

/-- An element: its tag, its own data (attributes and text), its child elements. -/
inductive Element (α : Type) where
  | node (tag : Tag) (data : α) (children : List (Element α))

namespace Element

def tag : Element α → Tag
  | node tag _ _ => tag

def data : Element α → α
  | node _ data _ => data

def children : Element α → List (Element α)
  | node _ _ children => children

/-- `e.findall(tag)`: the direct children with the tag. -/
def findall (t : Tag) (e : Element α) : List (Element α) := e.children.filter (fun c => c.tag = t)

/-- `e.append(c)` -/
def append : Element α → Element α → Element α
  | node tag data children, c => node tag data (children ++ [c])

mutual
/-- The element and all below it, in document order. -/
def iter : Element α → List (Element α)
  | node tag data children => node tag data children :: iterAll children

/-- The same for some elements. -/
def iterAll : List (Element α) → List (Element α)
  | []      => []
  | e :: es => iter e ++ iterAll es
end

end Element

open Element

/-- The body of `for filepath in junit_xmls :`. -/
def mergeStep (newRoot : Option (Element α)) (root : Element α) : Option (Element α) :=
  match newRoot with
  | none         => some root
  | some newRoot => some ((root.findall .testsuite).foldl Element.append newRoot)

/-- The loop over the parsed reports. -/
def merge (trees : List (Element α)) : Option (Element α) := trees.foldl mergeStep none

/-- `main`, from the files found to the tree that is written; `valid` is what `xmllint` says of a file. -/
def mergeJunitxml (valid : Element α → Bool) (files : List (Element α)) : Option (Element α) :=
  merge (files.filter valid)

/-! ## Trees -/

/-- What the elements of some trees contribute, added up. -/
def gather (f : Element α → Multiset β) (es : List (Element α)) : Multiset β := ((iterAll es).map f).sum

theorem iterAll_append (es fs : List (Element α)) : iterAll (es ++ fs) = iterAll es ++ iterAll fs := by
  induction es with
  | nil => rfl
  | cons e es ih => rw [List.cons_append, iterAll, ih, iterAll, List.append_assoc]

variable (f : Element α → Multiset β)

@[simp] theorem gather_nil : gather f [] = 0 := rfl

@[simp] theorem gather_append (es fs : List (Element α)) : gather f (es ++ fs) = gather f es + gather f fs := by
  rw [gather, iterAll_append, List.map_append, List.sum_append, gather, gather]

theorem gather_cons (e : Element α) (es : List (Element α)) : gather f (e :: es) = gather f [e] + gather f es :=
  gather_append f [e] es

/-- A tree is its root and the trees below it. -/
theorem gather_one (e : Element α) : gather f [e] = f e + gather f e.children := by
  obtain ⟨t, d, cs⟩ := e
  rw [gather, iterAll, iterAll, iter, List.append_nil, List.map_cons, List.sum_cons, gather]
  rfl

theorem gather_flatMap (g : Element α → List (Element α)) (es : List (Element α)) :
    gather f (es.flatMap g) = (es.map fun e => gather f (g e)).sum := by
  induction es with
  | nil => rfl
  | cons e es ih => rw [List.flatMap_cons, gather_append, ih, List.map_cons, List.sum_cons]

/-- Some of the trees contribute no more than all. -/
theorem gather_filter_le (p : Element α → Bool) (es : List (Element α)) : gather f (es.filter p) ≤ gather f es := by
  induction es with
  | nil => exact le_refl _
  | cons e es ih =>
      rw [gather_cons f e es, List.filter_cons]
      split
      · rw [gather_cons]
        exact add_le_add_right ih _
      · exact ih.trans (Multiset.le_add_left _ _)

theorem foldl_append (e : Element α) (cs : List (Element α)) :
    cs.foldl Element.append e = node e.tag e.data (e.children ++ cs) := by
  induction cs generalizing e with
  | nil =>
      obtain ⟨t, d, cs⟩ := e
      simp [Element.tag, Element.data, Element.children]
  | cons c cs ih =>
      obtain ⟨t, d, cs'⟩ := e
      rw [List.foldl_cons, ih]
      simp [Element.append, Element.tag, Element.data, Element.children]

/-- **What is merged**: the first tree, and behind its children the suites of the others. -/
theorem merge_eq (first : Element α) (trees : List (Element α)) :
    merge (first :: trees)
      = some (node first.tag first.data (first.children ++ trees.flatMap (findall .testsuite))) := by
  have hloop : ∀ (ts : List (Element α)) (e : Element α), ts.foldl mergeStep (some e)
      = some (node e.tag e.data (e.children ++ ts.flatMap (findall .testsuite))) := by
    intro ts
    induction ts with
    | nil =>
        rintro ⟨t, d, cs⟩
        simp [Element.tag, Element.data, Element.children]
    | cons t ts ih =>
        intro e
        rw [List.foldl_cons, mergeStep, foldl_append, ih, List.flatMap_cons, ← List.append_assoc]
        rfl
  exact hloop trees first

/-! ## Reports -/

/-- A suite without the suites in it: its own data and its other children. -/
def own (e : Element α) : α × List (Element α) := (e.data, e.children.filter (fun c => c.tag ≠ .testsuite))

/-- The test case an element is. -/
def caseOf (e : Element α) : Multiset (Element α) := if e.tag = .testcase then {e} else 0

/-- The suite an element is. -/
def suiteOf (e : Element α) : Multiset (α × List (Element α)) := if e.tag = .testsuite then {own e} else 0

/-- The `testcase` elements of a tree. -/
def testcases (e : Element α) : Multiset (Element α) := gather caseOf [e]

/-- The `testsuite` elements of a tree. -/
def suites (e : Element α) : Multiset (α × List (Element α)) := gather suiteOf [e]

/-- The output has the test cases of all reports, each as often, and every suite of them. -/
structure Lossless (trees : List (Element α)) (out : Element α) : Prop where
  testcases : testcases out = (trees.map testcases).sum
  suites    : (trees.map suites).sum ≤ suites out

/-- The roots the schema has. -/
def IsRoot (e : Element α) : Prop := e.tag = .testsuites ∨ e.tag = .testsuite

instance (e : Element α) : Decidable (IsRoot e) := inferInstanceAs (Decidable (_ ∨ _))

theorem IsRoot.testcases {e : Element α} (h : IsRoot e) : testcases e = gather caseOf e.children := by
  have hnone : caseOf e = 0 := by
    rcases h with h | h <;> simp [caseOf, h]
  rw [JunitXml.testcases, gather_one, hnone, zero_add]

/-- The suites of the output, by those of the reports it is made of. -/
theorem suites_merged (first : Element α) (trees : List (Element α)) :
    suites (node first.tag first.data (first.children ++ trees.flatMap (findall .testsuite)))
      = suites first + (trees.map fun t => gather suiteOf (t.findall .testsuite)).sum := by
  set found := trees.flatMap (findall .testsuite) with hfound
  have hsuites : found.filter (fun c => c.tag ≠ .testsuite) = [] := by
    rw [List.filter_eq_nil_iff]
    intro c hc
    obtain ⟨t, -, hc⟩ := List.mem_flatMap.mp hc
    simpa using (List.mem_filter.mp hc).2
  -- the root is the suite it was, if it was one
  have hroot : suiteOf (node first.tag first.data (first.children ++ found)) = suiteOf first := by
    have hown : own (node first.tag first.data (first.children ++ found)) = own first := by
      rw [own, Element.children, List.filter_append, hsuites, List.append_nil]
      rfl
    rw [suiteOf, hown]
    rfl
  rw [suites, gather_one, hroot, Element.children, gather_append, hfound, gather_flatMap, ← add_assoc,
    ← gather_one, suites]

/-- Of a report that is merged in, no more is kept than it has, and less if its root is a suite. -/
theorem findall_suites_le (t : Element α) : gather suiteOf (t.findall .testsuite) ≤ suites t := by
  rw [suites, gather_one]
  exact (gather_filter_le suiteOf _ _).trans (Multiset.le_add_left _ _)

theorem findall_suites_lt {t : Element α} (h : t.tag = .testsuite) :
    gather suiteOf (t.findall .testsuite) < suites t := by
  rw [suites, gather_one, suiteOf, if_pos h]
  refine lt_of_le_of_lt (gather_filter_le suiteOf _ _) ?_
  rw [Multiset.singleton_add]
  exact Multiset.lt_cons_self _ _

/-- **Merging loses nothing exactly when every report but the first has the root `testsuites`.** The schema is not
    among the sources: of it is used that below a `testsuites` root there are suites. -/
theorem merge_lossless_iff (valid : Element α → Bool)
    (hschema : ∀ e, valid e = true → e.tag = .testsuites → ∀ c ∈ e.children, c.tag = .testsuite)
    (files : List (Element α)) (hne : files.filter valid ≠ []) (hroots : ∀ t ∈ files.filter valid, IsRoot t) :
    (∃ out, mergeJunitxml valid files = some out ∧ Lossless (files.filter valid) out)
      ↔ ∀ t ∈ (files.filter valid).tail, t.tag = .testsuites := by
  have hvalid : ∀ t ∈ files.filter valid, valid t = true := fun t ht => (List.mem_filter.mp ht).2
  obtain ⟨first, trees, htrees⟩ := List.exists_cons_of_ne_nil hne
  rw [mergeJunitxml]
  rw [htrees] at hroots hvalid ⊢
  rw [merge_eq, List.tail_cons]
  set out := node first.tag first.data (first.children ++ trees.flatMap (findall .testsuite)) with hout
  have hsuites : suites out = suites first + (trees.map fun t => gather suiteOf (t.findall .testsuite)).sum :=
    suites_merged first trees
  constructor
  · rintro ⟨out', hout', hloss⟩ t ht
    obtain rfl := Option.some.inj hout'
    refine (hroots t (List.mem_cons_of_mem _ ht)).resolve_right fun hsuite => ?_
    -- the suite that is the root of `t` is missing
    have hlt : (trees.map fun t => gather suiteOf (t.findall .testsuite)).sum < (trees.map suites).sum :=
      List.sum_lt_sum _ _ (fun t _ => findall_suites_le t) ⟨t, ht, findall_suites_lt hsuite⟩
    have hle := hloss.suites
    rw [hsuites, List.map_cons, List.sum_cons] at hle
    exact absurd hle (not_le_of_gt (add_lt_add_right hlt _))
  · intro hall
    have hchildren : ∀ t ∈ trees, t.findall .testsuite = t.children := by
      intro t ht
      rw [findall, List.filter_eq_self]
      intro c hc
      exact decide_eq_true (hschema t (hvalid t (List.mem_cons_of_mem _ ht)) (hall t ht) c hc)
    refine ⟨out, rfl, ?_, ?_⟩
    · have hroot : IsRoot out := hroots first (List.mem_cons_self ..)
      rw [hroot.testcases, hout, Element.children, gather_append, gather_flatMap, List.map_cons, List.sum_cons,
        (hroots first (List.mem_cons_self ..)).testcases]
      congr 2
      refine List.map_congr_left fun t ht => ?_
      rw [hchildren t ht, (hroots t (List.mem_cons_of_mem _ ht)).testcases]
    · rw [hsuites, List.map_cons, List.sum_cons]
      refine le_of_eq ?_
      congr 2
      refine List.map_congr_left fun t ht => ?_
      have hnone : suiteOf t = 0 := by simp [suiteOf, hall t ht]
      rw [hchildren t ht, suites, gather_one, hnone, zero_add]

/-- A suite `name` with one test case. -/
def oneCase (name : String) : Element String := node .testsuite name [node .testcase name []]

/-- What the schema asks of a root. -/
def rootValid (e : Element String) : Bool := e.tag ≠ .testsuites || e.children.all (fun c => c.tag = .testsuite)

theorem rootValid_schema (e : Element String) (hv : rootValid e = true) (ht : e.tag = .testsuites) :
    ∀ c ∈ e.children, c.tag = .testsuite := by
  simpa [rootValid, ht] using hv

theorem merge_lossless_oneCase :
    ∃ out, mergeJunitxml rootValid [oneCase "a", node .testsuites "" [oneCase "b"]] = some out ∧
      Lossless [oneCase "a", node .testsuites "" [oneCase "b"]] out :=
  (merge_lossless_iff rootValid rootValid_schema [oneCase "a", node .testsuites "" [oneCase "b"]] (by simp [rootValid, oneCase, tag])
    (by decide)).mpr (by decide)

/-- **Two reports with a suite for their root**: of the second nothing is left. -/
theorem merge_two_suites :
    mergeJunitxml rootValid [oneCase "a", oneCase "b"] = some (oneCase "a") ∧
      ¬ Lossless [oneCase "a", oneCase "b"] (oneCase "a") := by
  refine ⟨rfl, fun h => ?_⟩
  have hcount := congrArg Multiset.card h.testcases
  exact absurd hcount (by decide)

end JunitXml
end CSamples
