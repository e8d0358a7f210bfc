import FileGraph.Graph.Document
import FileGraph.Proofs.Categorization.Repointing
import FileGraph.Proofs.Graph.Builder
/-!
# Validity — which graphs pass the check, and what keeps them valid

The check succeeds exactly on the graphs that satisfy all the rules at once (`check_eq_ok_iff`).  A builder that is
given files and edges one by one satisfies them at every moment, whatever it is given (`Builder.Sound`), and so does a
graph that is categorized anew: a usable answer names a category, and every file is put into one that it names.
-/
namespace FileGraph

/-- The rules for a graph. -/
structure Graph.Valid (g : Graph) : Prop where
  named    : g.categories ≠ []
  apart    : g.filepaths.Nodup
  category : ∀ n ∈ g.nodes, n.category < g.categories.length
  ends     : ∀ e ∈ g.edges, e.source < g.nodes.length ∧ e.target < g.nodes.length
  positive : ∀ e ∈ g.edges, 0.0 < e.weight

namespace Graph

/-! ## The check -/

theorem checkNodes_eq_ok_iff {count : Nat} : ∀ {ns : List FileNode} {seen : List String},
    checkNodes count seen ns = .ok () ↔
      (ns.map (·.filepath)).Nodup ∧ ∀ n ∈ ns, n.filepath ∉ seen ∧ n.category < count
  | [], seen => by simp [checkNodes]
  | n :: ns, seen => by
    unfold checkNodes
    by_cases hseen : n.filepath ∈ seen
    · simp [hseen]
    · by_cases hcategory : count ≤ n.category
      · have hno : ¬ n.category < count := by omega
        simp [hseen, hcategory, hno]
      · rw [if_neg (by simpa using hseen), if_neg hcategory, checkNodes_eq_ok_iff]
        -- a later file has a path of its own just if it is neither seen before nor the path of this one
        constructor
        · rintro ⟨hnodup, hns⟩
          refine ⟨?_, ?_⟩
          · rw [List.map_cons, List.nodup_cons]
            refine ⟨fun hmem => ?_, hnodup⟩
            obtain ⟨m, hm, hpath⟩ := List.mem_map.1 hmem
            exact (hns m hm).1 (hpath ▸ List.mem_cons_self)
          · intro m hm
            rcases List.mem_cons.1 hm with rfl | hm
            · exact ⟨hseen, by omega⟩
            · exact ⟨fun h => (hns m hm).1 (List.mem_cons_of_mem _ h), (hns m hm).2⟩
        · rintro ⟨hnodup, hns⟩
          rw [List.map_cons, List.nodup_cons] at hnodup
          refine ⟨hnodup.2, fun m hm => ⟨?_, (hns m (List.mem_cons_of_mem _ hm)).2⟩⟩
          intro h
          rcases List.mem_cons.1 h with heq | h
          · exact hnodup.1 (List.mem_map.2 ⟨m, hm, heq⟩)
          · exact (hns m (List.mem_cons_of_mem _ hm)).1 h

theorem checkEdges_eq_ok_iff {count : Nat} : ∀ {es : List Edge},
    checkEdges count es = .ok () ↔ ∀ e ∈ es, (e.source < count ∧ e.target < count) ∧ 0.0 < e.weight
  | [] => by simp [checkEdges]
  | e :: es => by
    unfold checkEdges
    by_cases hends : count ≤ e.source ∨ count ≤ e.target
    · have hno : ¬ (e.source < count ∧ e.target < count) := by omega
      simp [hends, hno]
    · have hyes : e.source < count ∧ e.target < count := by omega
      by_cases hweight : 0.0 < e.weight
      · simp [hends, hweight, hyes, checkEdges_eq_ok_iff]
      · simp [hends, hweight]

/-- **The check finds no fault exactly in valid graphs.** -/
theorem check_eq_ok_iff {g : Graph} : g.check = .ok () ↔ g.Valid := by
  have hnodes : checkNodes g.categories.length [] g.nodes = .ok () ↔ _ := checkNodes_eq_ok_iff
  have hedges : checkEdges g.nodes.length g.edges = .ok () ↔ _ := checkEdges_eq_ok_iff
  unfold check
  constructor
  · intro h
    split at h
    · cases h
    · rename_i hnamed
      split at h
      · cases h
      · rename_i hok
        obtain ⟨hapart, hns⟩ := hnodes.1 hok
        have hes := hedges.1 h
        exact ⟨by simpa using hnamed, hapart, fun n hn => (hns n hn).2, fun e he => (hes e he).1,
          fun e he => (hes e he).2⟩
  · rintro ⟨hnamed, hapart, hcategory, hends, hpositive⟩
    rw [if_neg (by simpa using hnamed), hnodes.2 ⟨hapart, fun n hn => ⟨List.not_mem_nil, hcategory n hn⟩⟩]
    exact hedges.2 fun e he => ⟨hends e he, hpositive e he⟩

theorem epoch_ofJson? {epoch : Epoch} {j : Json} {g : Graph} (h : ofJson? epoch j = some g) : g.epoch = epoch := by
  unfold ofJson? at h
  split at h
  · simp only [Option.bind_eq_bind, Option.bind_eq_some_iff] at h
    obtain ⟨categories, -, nodes, -, edges, -, hg⟩ := h
    cases hg
    rfl
  · cases h

/-- What is read is valid and has the epoch that it is given. -/
theorem read_eq_ok {epoch : Epoch} {text : String} {g : Graph} (h : read epoch text = .ok g) :
    g.epoch = epoch ∧ g.Valid := by
  unfold read at h
  split at h
  · cases h
  · rename_i g' hg'
    split at h
    · rename_i hok
      cases h
      obtain ⟨j, -, hj⟩ := Option.bind_eq_some_iff.1 hg'
      exact ⟨epoch_ofJson? hj, check_eq_ok_iff.1 hok⟩
    · cases h

end Graph

/-! ## Categories -/

theorem Categorization.categoryOf_lt {c : Categorization} (h : c.categories ≠ []) (filepath : String) :
    c.categoryOf filepath < c.categories.length := by
  have hpos : 0 < c.categories.length := List.length_pos_iff.2 h
  unfold categoryOf
  cases hfind : (c.assignments.get? filepath).bind c.positions.get? with
  | none => exact hpos
  | some i =>
    obtain ⟨name, -, hi⟩ := Option.bind_eq_some_iff.1 hfind
    rw [get?_positions] at hi
    exact (List.findIdx?_eq_some_iff_findIdx_eq.1 hi).1

theorem Categorization.categories_ne_nil {c : Categorization} (h : c.check = .ok ()) : c.categories ≠ [] := by
  rcases c.check_cases with ⟨-, herror⟩ | ⟨hne, -⟩ | ⟨hne, -⟩
  · rw [herror] at h
    cases h
  · exact hne
  · exact hne

/-- **A valid graph stays valid under every answer that can be applied to it.** -/
theorem Graph.Valid.categorize {g g' : Graph} {c : Categorization} {n : Nat} (hg : g.Valid)
    (h : g.categorize c = .ok (g', n)) : g'.Valid := by
  rw [Graph.categorize_eq] at h
  cases hc : c.check with
  | error f => rw [hc] at h; cases h
  | ok u =>
    rw [hc] at h
    cases h
    have hnamed := c.categories_ne_nil hc
    refine ⟨hnamed, ?_, ?_, ?_, hg.positive⟩
    · have hpaths : ({ g with
          categories := c.categories
          nodes := g.nodes.map fun n => { n with category := c.categoryOf n.filepath } } : Graph).filepaths =
          g.filepaths := by
        simp only [filepaths, List.map_map]
        rfl
      rw [hpaths]
      exact hg.apart
    · intro n hn
      obtain ⟨m, -, rfl⟩ := List.mem_map.1 hn
      exact c.categoryOf_lt hnamed m.filepath
    · simp only [List.length_map]
      exact hg.ends

/-! ## Builders -/

namespace Builder

/-- What holds of a builder at every moment. -/
structure Sound (b : Builder) : Prop where
  inStep   : b.InStep
  apart    : (b.nodes.map (·.filepath)).Nodup
  category : ∀ n ∈ b.nodes, n.category = 0
  admitted : ∀ e ∈ b.edges, Admits b.nodes.length e
  once     : b.edges.Pairwise fun e e' => ¬ (e.source = e'.source ∧ e.target = e'.target)

theorem Admits.mono {count count' : Nat} {e : Edge} (h : Admits count e) (hle : count ≤ count') : Admits count' e :=
  ⟨Nat.lt_of_lt_of_le h.source hle, Nat.lt_of_lt_of_le h.target hle, h.apart, h.positive⟩

theorem sound_empty : Sound empty := ⟨inStep_empty, .nil, fun _ h => (by cases h), fun _ h => (by cases h), .nil⟩

theorem Sound.addNode {b : Builder} (h : b.Sound) (n : FileNode) : (b.addNode n).1.Sound := by
  have hinStep := h.inStep.addNode n
  rcases b.addNode_cases n with ⟨i, -, hadd⟩ | ⟨hnew, hadd⟩
  · rw [hadd]
    exact h
  · have hpath := h.inStep.nodeIndex?_eq_none_iff.1 hnew
    rw [hadd] at hinStep ⊢
    refine ⟨hinStep, ?_, ?_, ?_, h.once⟩
    · rw [List.map_append, List.nodup_append]
      refine ⟨h.apart, by simp, fun p hp q hq => ?_⟩
      rintro rfl
      exact hpath ((by simpa using hq : p = n.filepath) ▸ hp)
    · intro m hm
      rcases List.mem_append.1 hm with hm | hm
      · exact h.category m hm
      · rw [List.mem_singleton.1 hm]
    · intro e he
      exact (h.admitted e he).mono (by simp)

theorem Sound.addEdge {b : Builder} (h : b.Sound) (e : Edge) : (b.addEdge e).1.Sound := by
  have hinStep := h.inStep.addEdge e
  rcases b.addEdge_cases e with ⟨haccepts, hadd⟩ | ⟨-, hadd⟩
  · obtain ⟨hadmits, hfirst⟩ := h.inStep.accepts_iff.1 haccepts
    rw [hadd] at hinStep ⊢
    refine ⟨hinStep, h.apart, h.category, fun e' he' => ?_, ?_⟩
    · rcases List.mem_append.1 he' with he' | he'
      · exact h.admitted e' he'
      · rw [List.mem_singleton.1 he']
        exact hadmits
    · rw [List.pairwise_append]
      refine ⟨h.once, List.pairwise_singleton _ _, fun e' he' x hx => ?_⟩
      rw [List.mem_singleton.1 hx]
      exact hfirst e' he'
  · rw [hadd]
    exact h

/-- **What a builder makes is valid.** -/
theorem Sound.valid_build {b : Builder} (h : b.Sound) (epoch : Epoch) : (b.build epoch).Valid := by
  refine ⟨by simp [build], h.apart, fun n hn => ?_, fun e he => ?_, fun e he => (h.admitted e he).positive⟩
  · simp [build, h.category n hn]
  · exact ⟨(h.admitted e he).source, (h.admitted e he).target⟩

/-- One thing that a caller asks of a builder. -/
inductive Call where
  | node (n : FileNode)
  | edge (e : Edge)

def call (b : Builder) : Call → Builder
  | .node n => (b.addNode n).1
  | .edge e => (b.addEdge e).1

/-- The builder after calls, one after another. -/
def ofCalls (calls : List Call) : Builder := calls.foldl call empty

theorem Sound.call {b : Builder} (h : b.Sound) (c : Call) : (b.call c).Sound := by
  cases c with
  | node n => exact h.addNode n
  | edge e => exact h.addEdge e

theorem sound_ofCalls (calls : List Call) : (ofCalls calls).Sound :=
  List.foldlRecOn calls call sound_empty fun _ h c _ => h.call c

end Builder

end FileGraph
