import FileGraph.Categorization
import Mathlib.Data.List.Forall2
import Mathlib.Data.List.TakeWhile
/-!
# Repointing — what an answer makes of a graph

Names are put into the map of positions from the last one to the first, so that a lookup gives the first position of a
name (`get?_positions`).  With it the files are put into their categories one by one.  A graph to which an answer is
applied is either left as it was, because the answer has no category or a blank one, or each of its files is where the
answer says and nothing else has changed (`adopt_exact`).
-/
namespace FileGraph

namespace Categorization

/-! ## Blank names -/

theorem isBlankName_iff {name : String} : isBlankName name = true ↔ ∀ x ∈ name.toList, Text.isBlank x = true := by
  rw [isBlankName, List.isEmpty_iff, Text.trim, Text.dropEndWhile, List.reverse_eq_nil_iff, List.dropWhile_eq_nil_iff]
  constructor
  · intro h x hx
    -- a character that is not trimmed at the start would be trimmed at the end
    rw [← List.takeWhile_append_dropWhile (p := Text.isBlank) (l := name.toList)] at hx
    rcases List.mem_append.1 hx with hx | hx
    · exact List.mem_takeWhile_imp hx
    · exact h x (List.mem_reverse.2 hx)
  · intro h x hx
    exact h x ((List.dropWhile_sublist _).subset (List.mem_reverse.1 hx))

theorem isBlankName_eq_false_iff {name : String} :
    isBlankName name = false ↔ ∃ x ∈ name.toList, Text.isBlank x = false := by
  rw [← Bool.not_eq_true, isBlankName_iff]
  simp

/-- The three outcomes of the check. -/
theorem check_cases (c : Categorization) :
    (c.categories = [] ∧ c.check = .error (.malformed "category list is empty")) ∨
      (c.categories ≠ [] ∧ (∃ name ∈ c.categories, isBlankName name = true) ∧
        c.check = .error (.malformed "category names must not be blank")) ∨
      (c.categories ≠ [] ∧ (∀ name ∈ c.categories, isBlankName name = false) ∧ c.check = .ok ()) := by
  unfold check
  by_cases hempty : c.categories = []
  · exact .inl ⟨hempty, if_pos (List.isEmpty_iff.2 hempty)⟩
  · rw [if_neg (mt List.isEmpty_iff.1 hempty)]
    by_cases hblank : c.categories.any isBlankName = true
    · exact .inr (.inl ⟨hempty, List.any_eq_true.1 hblank, if_pos hblank⟩)
    · rw [if_neg hblank]
      refine .inr (.inr ⟨hempty, fun name hname => ?_, rfl⟩)
      exact Bool.eq_false_iff.2 fun hb => hblank (List.any_eq_true.2 ⟨name, hname, hb⟩)

/-! ## Positions -/

theorem lookup_zipIdx (name : String) : ∀ (names : List String) (k : Nat),
    (names.zipIdx k).lookup name = (names.findIdx? (· == name)).map (· + k)
  | [], _ => rfl
  | x :: names, k => by
    rw [List.zipIdx_cons, NameMap.lookup_cons_eq, List.findIdx?_cons, lookup_zipIdx name names (k + 1)]
    by_cases h : name = x
    · simp [h]
    · have hne : x ≠ name := Ne.symm h
      have hshift : ((· + k) ∘ (· + 1) : Nat → Nat) = (· + (k + 1)) := funext fun i => by simp; omega
      simp [h, hne, hshift]

/-- **The position of a name is its first one.** -/
theorem get?_positions (c : Categorization) (name : String) :
    c.positions.get? name = c.categories.findIdx? (· == name) := by
  rw [positions, NameMap.get?_ofList, List.reverse_reverse, lookup_zipIdx]
  simp

/-- A name stands at a position of a list and at none before it. -/
def FirstAt (names : List String) (name : String) (i : Nat) : Prop :=
  names[i]? = some name ∧ ∀ j < i, names[j]? ≠ some name

theorem get?_positions_eq_some_iff {c : Categorization} {name : String} {i : Nat} :
    c.positions.get? name = some i ↔ FirstAt c.categories name i := by
  rw [get?_positions, List.findIdx?_eq_some_iff_getElem, FirstAt]
  constructor
  · rintro ⟨hi, hname, hfirst⟩
    refine ⟨List.getElem?_eq_some_iff.2 ⟨hi, by simpa using hname⟩, fun j hj hnone => ?_⟩
    obtain ⟨_, hname'⟩ := List.getElem?_eq_some_iff.1 hnone
    exact hfirst j hj (by simpa using hname')
  · rintro ⟨hname, hfirst⟩
    obtain ⟨hi, hname⟩ := List.getElem?_eq_some_iff.1 hname
    refine ⟨hi, by simpa using hname, fun j hj heq => ?_⟩
    exact hfirst j hj (List.getElem?_eq_some_iff.2 ⟨by omega, by simpa using heq⟩)

theorem get?_positions_eq_none_iff {c : Categorization} {name : String} :
    c.positions.get? name = none ↔ name ∉ c.categories := by
  rw [get?_positions, List.findIdx?_eq_none_iff]
  constructor
  · intro h hmem
    simpa using h name hmem
  · rintro h x hx
    simpa using fun heq : x = name => h (heq ▸ hx)

/-- A path that is assigned to one of the categories gets the first position of its name. -/
theorem firstAt_categoryOf {c : Categorization} {filepath name : String} (h : c.assignments.get? filepath = some name)
    (hname : name ∈ c.categories) : FirstAt c.categories name (c.categoryOf filepath) := by
  obtain ⟨i, hi⟩ := Option.ne_none_iff_exists'.1 (mt get?_positions_eq_none_iff.1 (not_not.2 hname))
  rw [categoryOf, h, Option.bind_some, hi, Option.getD_some]
  exact get?_positions_eq_some_iff.1 hi

/-- A path that is assigned to no category, or to one that there is not, gets the first category. -/
theorem categoryOf_eq_zero {c : Categorization} {filepath : String}
    (h : ∀ name, c.assignments.get? filepath = some name → name ∉ c.categories) : c.categoryOf filepath = 0 := by
  rw [categoryOf]
  cases hname : c.assignments.get? filepath with
  | none => rfl
  | some name =>
    rw [Option.bind_some, get?_positions_eq_none_iff.2 (h name hname)]
    rfl

theorem repoint_eq (c : Categorization) : ∀ (ns : List FileNode),
    c.repoint ns = (ns.map fun n => { n with category := c.categoryOf n.filepath },
      (ns.map fun n => { n with category := c.categoryOf n.filepath }).countP fun n => n.category != 0)
  | [] => rfl
  | n :: ns => by
    rw [repoint, repoint_eq c ns]
    by_cases h : c.categoryOf n.filepath = 0
    · simp [h]
    · simp [h]

end Categorization

/-! ## Applying an answer -/

namespace Graph

open Categorization

theorem adopt_of_check {c : Categorization} (h : c.check = .ok ()) (g : Graph) :
    (adopt c).run g =
      .ok ((g.nodes.map fun n => { n with category := c.categoryOf n.filepath }).countP fun n => n.category != 0)
        { g with
          categories := c.categories
          nodes := g.nodes.map fun n => { n with category := c.categoryOf n.filepath } } := by
  have hrun : (adopt c).run g =
      .ok (c.repoint g.nodes).2 { g with categories := c.categories, nodes := (c.repoint g.nodes).1 } := by
    rw [adopt, h]
    rfl
  rw [hrun, c.repoint_eq]

theorem adopt_of_not_check {c : Categorization} {f : Failure} (h : c.check = .error f) (g : Graph) :
    (adopt c).run g = .error f g := by
  rw [adopt, h]
  rfl

theorem categorize_eq (g : Graph) (c : Categorization) :
    g.categorize c =
      match c.check with
      | .error f => .error f
      | .ok () =>
        let nodes := g.nodes.map fun n => { n with category := c.categoryOf n.filepath }
        .ok ({ g with categories := c.categories, nodes := nodes }, nodes.countP fun n => n.category != 0) := by
  unfold categorize
  cases h : c.check with
  | error f => rw [adopt_of_not_check h]
  | ok u => rw [adopt_of_check h]

/-- **An answer is applied as it says, or not at all**, to any graph.  One without a category, or with a blank one, is
refused, and the graph is as it was.  After any other the graph has the categories of the answer, and is otherwise the
same but for the categories of its files: a file that is assigned to one of the names is at the first position of it,
and that is the name of its category; every other file is in the first category.  The number that is given is that of
the files outside the first category. -/
theorem adopt_exact (g : Graph) (c : Categorization) :
    (c.categories = [] → (adopt c).run g = .error (.malformed "category list is empty") g) ∧
    (c.categories ≠ [] → (∃ name ∈ c.categories, ∀ x ∈ name.toList, Text.isBlank x = true) →
      (adopt c).run g = .error (.malformed "category names must not be blank") g) ∧
    (c.categories ≠ [] → (∀ name ∈ c.categories, ∃ x ∈ name.toList, Text.isBlank x = false) →
      ∃ g', (adopt c).run g = .ok (g'.nodes.countP fun n => n.category != 0) g' ∧
        g' = { g with categories := c.categories, nodes := g'.nodes } ∧
        List.Forall₂ (fun n n' => n' = { n with category := n'.category } ∧
          (∀ name ∈ c.categories, c.assignments.get? n.filepath = some name →
            FirstAt c.categories name n'.category ∧ g'.categoryName n' = name) ∧
          ((∀ name ∈ c.categories, c.assignments.get? n.filepath ≠ some name) → n'.category = 0))
          g.nodes g'.nodes) := by
  simp only [← isBlankName_iff, ← isBlankName_eq_false_iff]
  rcases c.check_cases with ⟨hempty, herror⟩ | ⟨hne, ⟨blank, hblank, hyes⟩, herror⟩ | ⟨hne, hnone, hok⟩
  · exact ⟨fun _ => adopt_of_not_check herror g, fun hne => absurd hempty hne, fun hne => absurd hempty hne⟩
  · refine ⟨fun hempty => absurd hempty hne, fun _ _ => adopt_of_not_check herror g, fun _ hnone => ?_⟩
    rw [hnone blank hblank] at hyes
    cases hyes
  · refine ⟨fun hempty => absurd hempty hne, fun _ ⟨name, hname, hyes⟩ => ?_, fun _ _ => ?_⟩
    · rw [hnone name hname] at hyes
      cases hyes
    · refine ⟨{ g with
        categories := c.categories
        nodes := g.nodes.map fun n => { n with category := c.categoryOf n.filepath } }, adopt_of_check hok g, rfl, ?_⟩
      rw [List.forall₂_map_right_iff, List.forall₂_same]
      refine fun n _ => ⟨rfl, fun name hname hassigned => ?_, fun hnot => ?_⟩
      · have hfirst := firstAt_categoryOf hassigned hname
        exact ⟨hfirst, by rw [categoryName, hfirst.1, Option.getD_some]⟩
      · exact categoryOf_eq_zero fun name hassigned hname => hnot name hname hassigned

/-- A graph that breaks every rule for categories. -/
def looseGraph : Graph :=
  ⟨[], ["a.ts", "b.ts", "b.ts", "c.ts"].map fun p => { FileNode.ofContent p "" with category := 7 }, [], 3⟩

/-- A name twice, a name that is not listed, and a file that there is not. -/
def looseAnswer : Categorization :=
  ⟨["Docs", "Core", "Core"], .ofList [("a.ts", "Tests"), ("b.ts", "Core"), ("d.ts", "Docs")]⟩

theorem adopt_exact_sample :
    looseAnswer.categories ≠ [] ∧ (∀ name ∈ looseAnswer.categories, ∃ x ∈ name.toList, Text.isBlank x = false) ∧
      ∃ g', (adopt looseAnswer).run looseGraph = .ok 2 g' ∧ g'.nodes.map (·.category) = [0, 1, 1, 0] ∧
        FirstAt looseAnswer.categories "Core" 1 ∧ g'.nodes.map g'.categoryName = ["Docs", "Core", "Core", "Docs"] := by
  have hnamed : ∀ name ∈ looseAnswer.categories, isBlankName name = false := by decide +kernel
  have hblank : ∀ name ∈ looseAnswer.categories, ∃ x ∈ name.toList, Text.isBlank x = false :=
    fun name hname => isBlankName_eq_false_iff.1 (hnamed name hname)
  obtain ⟨g', hrun, -, hnodes⟩ := (adopt_exact looseGraph looseAnswer).2.2 (by decide) hblank
  obtain ⟨-, rfl⟩ := EStateM.Result.ok.inj (hrun.symm.trans (adopt_of_check rfl looseGraph))
  rw [looseGraph, List.map_cons, List.map_cons, List.map_cons, List.map_cons] at hnodes
  obtain _ | ⟨-, _ | ⟨⟨-, hcore, -⟩, -⟩⟩ := hnodes
  refine ⟨by decide, hblank, _, hrun, by decide +kernel, ?_, by decide +kernel⟩
  exact (hcore "Core" (by decide) (by decide +kernel)).1

end Graph

end FileGraph
