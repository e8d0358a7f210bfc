import FileGraph.Graph.Builder
/-!
# Builder — what a builder keeps of what it is given

A file with a new path goes to the end, in the first category, and an edge that can be added goes to the end of the
edges; any other call changes nothing (`addNode_cases`, `addEdge_cases`).  At every moment the indices say what a search
through the files and edges would say (`InStep`).  So a builder that is given files with distinct paths, and then edges
that each join two of them and have no pair twice, keeps all files in order, and all edges that weigh something.
-/
namespace FileGraph.Builder

/-! ## Single calls -/

theorem addNode_cases (b : Builder) (n : FileNode) :
    (∃ i, b.nodeIndex? n.filepath = some i ∧ b.addNode n = (b, i)) ∨
      (b.nodeIndex? n.filepath = none ∧
        b.addNode n =
          ({ b with
              nodes := b.nodes ++ [{ n with category := 0 }]
              positions := b.positions.insert n.filepath b.nodes.length }, b.nodes.length)) := by
  unfold addNode
  cases b.nodeIndex? n.filepath with
  | some i => exact .inl ⟨i, rfl, rfl⟩
  | none => exact .inr ⟨rfl, rfl⟩

theorem addEdge_cases (b : Builder) (e : Edge) :
    (b.accepts e = true ∧
        b.addEdge e =
          ({ b with edges := b.edges ++ [e], pairs := (e.source, e.target) :: b.pairs }, some b.edges.length)) ∨
      (b.accepts e = false ∧ b.addEdge e = (b, none)) := by
  unfold addEdge
  cases b.accepts e with
  | true => exact .inl ⟨rfl, rfl⟩
  | false => exact .inr ⟨rfl, rfl⟩

theorem edges_addNode (b : Builder) (n : FileNode) : (b.addNode n).1.edges = b.edges := by
  rcases b.addNode_cases n with ⟨i, -, hadd⟩ | ⟨-, hadd⟩ <;> rw [hadd]

theorem nodes_addEdge (b : Builder) (e : Edge) : (b.addEdge e).1.nodes = b.nodes := by
  rcases b.addEdge_cases e with ⟨-, hadd⟩ | ⟨-, hadd⟩ <;> rw [hadd]

/-! ## Indices -/

/-- The indices say of the files and edges what a search through them would say. -/
structure InStep (b : Builder) : Prop where
  positions : ∀ filepath, b.nodeIndex? filepath = b.nodes.findIdx? fun n => n.filepath == filepath
  pairs     : ∀ source target, (source, target) ∈ b.pairs ↔ ∃ e ∈ b.edges, e.source = source ∧ e.target = target

theorem inStep_empty : InStep empty := ⟨fun _ => rfl, fun _ _ => by simp [empty]⟩

theorem InStep.addNode {b : Builder} (h : b.InStep) (n : FileNode) : (b.addNode n).1.InStep := by
  rcases b.addNode_cases n with ⟨i, -, hadd⟩ | ⟨hnew, hadd⟩
  · rw [hadd]
    exact h
  · rw [hadd]
    refine ⟨fun filepath => ?_, h.pairs⟩
    rw [h.positions] at hnew
    have hget : nodeIndex? { b with
        nodes := b.nodes ++ [{ n with category := 0 }]
        positions := b.positions.insert n.filepath b.nodes.length } filepath =
        if filepath = n.filepath then some b.nodes.length else b.nodeIndex? filepath :=
      NameMap.get?_insert _ _ _ _
    rw [hget, List.findIdx?_append]
    by_cases hpath : filepath = n.filepath
    · rw [if_pos hpath, hpath, hnew]
      simp
    · rw [if_neg hpath, h.positions]
      simp [Ne.symm hpath]

theorem InStep.addEdge {b : Builder} (h : b.InStep) (e : Edge) : (b.addEdge e).1.InStep := by
  rcases b.addEdge_cases e with ⟨-, hadd⟩ | ⟨-, hadd⟩
  · rw [hadd]
    refine ⟨h.positions, fun source target => ?_⟩
    have hold := h.pairs source target
    rw [List.mem_cons, hold]
    constructor
    · rintro (heq | ⟨e', he', hends⟩)
      · obtain ⟨rfl, rfl⟩ := Prod.mk.inj heq
        exact ⟨e, by simp, rfl, rfl⟩
      · exact ⟨e', List.mem_append_left _ he', hends⟩
    · rintro ⟨e', he', rfl, rfl⟩
      rcases List.mem_append.1 he' with he' | he'
      · exact .inr ⟨e', he', rfl, rfl⟩
      · rw [List.mem_singleton.1 he']
        exact .inl rfl
  · rw [hadd]
    exact h

theorem InStep.nodeIndex?_eq_none_iff {b : Builder} (h : b.InStep) {filepath : String} :
    b.nodeIndex? filepath = none ↔ filepath ∉ b.nodes.map (·.filepath) := by
  rw [h.positions, List.findIdx?_eq_none_iff]
  simp

/-- What an edge needs besides being the first of its pair. -/
structure Admits (count : Nat) (e : Edge) : Prop where
  source   : e.source < count
  target   : e.target < count
  apart    : e.source ≠ e.target
  positive : 0.0 < e.weight

theorem InStep.accepts_iff {b : Builder} (h : b.InStep) {e : Edge} :
    b.accepts e = true ↔
      Admits b.nodes.length e ∧ ∀ e' ∈ b.edges, ¬ (e'.source = e.source ∧ e'.target = e.target) := by
  have hpairs : (e.source, e.target) ∉ b.pairs ↔
      ∀ e' ∈ b.edges, ¬ (e'.source = e.source ∧ e'.target = e.target) := by
    rw [h.pairs]
    simp
  simp only [accepts, Bool.and_eq_true, Bool.not_eq_true', decide_eq_true_eq, bne_iff_ne, List.contains_eq_mem,
    decide_eq_false_iff_not, hpairs]
  constructor
  · rintro ⟨⟨⟨⟨hs, ht⟩, hne⟩, hw⟩, hfirst⟩
    exact ⟨⟨hs, ht, hne, hw⟩, hfirst⟩
  · rintro ⟨⟨hs, ht, hne, hw⟩, hfirst⟩
    exact ⟨⟨⟨⟨hs, ht⟩, hne⟩, hw⟩, hfirst⟩

/-! ## Many calls -/

/-- **Files with new and distinct paths are all kept**, in order. -/
theorem InStep.foldl_addNode : ∀ (ns : List FileNode) {b : Builder}, b.InStep →
    (ns.map (·.filepath)).Nodup → (∀ n ∈ ns, n.filepath ∉ b.nodes.map (·.filepath)) →
      let b' := ns.foldl (fun b n => (b.addNode n).1) b
      b'.InStep ∧ b'.nodes = b.nodes ++ ns.map (fun n => { n with category := 0 }) ∧ b'.edges = b.edges
  | [], _, h, _, _ => ⟨h, by simp, rfl⟩
  | n :: ns, b, h, hnodup, hnew => by
    rw [List.map_cons, List.nodup_cons] at hnodup
    rcases b.addNode_cases n with ⟨i, hold, -⟩ | ⟨-, hadd⟩
    · have hnone := h.nodeIndex?_eq_none_iff.2 (hnew n List.mem_cons_self)
      rw [hold] at hnone
      cases hnone
    · have hadd' : (b.addNode n).1.nodes = b.nodes ++ [{ n with category := 0 }] := by rw [hadd]
      have hrest : ∀ m ∈ ns, m.filepath ∉ (b.addNode n).1.nodes.map (·.filepath) := by
        intro m hm hmem
        simp only [hadd', List.map_append, List.map_cons, List.map_nil, List.mem_append, List.mem_singleton] at hmem
        rcases hmem with hmem | hmem
        · exact hnew m (List.mem_cons_of_mem _ hm) hmem
        · exact hnodup.1 (hmem ▸ List.mem_map.2 ⟨m, hm, rfl⟩)
      obtain ⟨hinStep, hnodes, hedges⟩ := InStep.foldl_addNode ns (h.addNode n) hnodup.2 hrest
      rw [List.foldl_cons]
      exact ⟨hinStep, by rw [hnodes, hadd', List.append_assoc]; rfl, hedges.trans (b.edges_addNode n)⟩

/-- **Of edges between two files, no two of the same pair, those that weigh something are kept**, in order. -/
theorem InStep.foldl_addEdge : ∀ (es : List Edge) {b : Builder}, b.InStep →
    (∀ e ∈ es, e.source < b.nodes.length ∧ e.target < b.nodes.length ∧ e.source ≠ e.target) →
    es.Pairwise (fun e e' => ¬ (e.source = e'.source ∧ e.target = e'.target)) →
      (∀ e ∈ es, ∀ e' ∈ b.edges, ¬ (e'.source = e.source ∧ e'.target = e.target)) →
        let b' := es.foldl (fun b e => (b.addEdge e).1) b
        b'.nodes = b.nodes ∧ b'.edges = b.edges ++ es.filter fun e => decide (0.0 < e.weight)
  | [], _, _, _, _, _ => ⟨rfl, by simp⟩
  | e :: es, b, h, hends, hpairs, hfirst => by
    rw [List.pairwise_cons] at hpairs
    obtain ⟨hs, ht, hne⟩ := hends e List.mem_cons_self
    have haccepts : b.accepts e = true ↔ 0.0 < e.weight :=
      h.accepts_iff.trans ⟨fun h => h.1.positive, fun hw => ⟨⟨hs, ht, hne, hw⟩, hfirst e List.mem_cons_self⟩⟩
    have hadd : (b.addEdge e).1.edges = b.edges ++ [e].filter fun e => decide (0.0 < e.weight) := by
      rcases b.addEdge_cases e with ⟨hyes, hadd⟩ | ⟨hno, hadd⟩
      · simp [hadd, haccepts.1 hyes]
      · have hweight : ¬ 0.0 < e.weight := fun hw => Bool.false_ne_true (hno.symm.trans (haccepts.2 hw))
        simp [hadd, hweight]
    have hrest : ∀ x ∈ es, ∀ e' ∈ (b.addEdge e).1.edges, ¬ (e'.source = x.source ∧ e'.target = x.target) := by
      intro x hx e' he'
      rw [hadd] at he'
      rcases List.mem_append.1 he' with he' | he'
      · exact hfirst x (List.mem_cons_of_mem _ hx) e' he'
      · rw [List.mem_singleton.1 (List.mem_filter.1 he').1]
        exact hpairs.1 x hx
    obtain ⟨hnodes, hedges⟩ := InStep.foldl_addEdge es (h.addEdge e)
      (fun x hx => b.nodes_addEdge e ▸ hends x (List.mem_cons_of_mem _ hx)) hpairs.2 hrest
    rw [List.foldl_cons]
    refine ⟨hnodes.trans (b.nodes_addEdge e), ?_⟩
    rw [hedges, hadd, List.append_assoc, ← List.filter_append, List.singleton_append]

end FileGraph.Builder
