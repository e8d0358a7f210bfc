import FileGraph.Proofs.Graph.Validity
/-!
# Calls — what a builder answers

A call only ever puts a file or an edge at the end (`prefix_call`), so a position that was given out stays good.  Which
file a position stands for, and whether an edge is taken, can be read off the calls before: the first file that was
added with the path (`find?_nodes_ofCalls`), and the edges that were taken (`mem_edges_ofCalls`).
-/
namespace FileGraph

/-- No edge leads from a file to itself, and none has the ends of another. -/
structure Graph.Simple (g : Graph) : Prop where
  loopless : ∀ e ∈ g.edges, e.source ≠ e.target
  once     : g.edges.Pairwise fun e e' => ¬ (e.source = e'.source ∧ e.target = e'.target)

namespace Builder

theorem Sound.simple_build {b : Builder} (h : b.Sound) (epoch : Epoch) : (b.build epoch).Simple :=
  ⟨fun e he => (h.admitted e he).apart, h.once⟩

theorem ofCalls_append (calls later : List Call) : ofCalls (calls ++ later) = later.foldl call (ofCalls calls) :=
  List.foldl_append

/-! ## What stays -/

theorem prefix_call (b : Builder) (c : Call) : b.nodes <+: (b.call c).nodes ∧ b.edges <+: (b.call c).edges := by
  cases c with
  | node n =>
    rcases b.addNode_cases n with ⟨i, -, hadd⟩ | ⟨-, hadd⟩
    · rw [call, hadd]
      exact ⟨List.prefix_refl _, List.prefix_refl _⟩
    · rw [call, hadd]
      exact ⟨List.prefix_append _ _, List.prefix_refl _⟩
  | edge e =>
    rcases b.addEdge_cases e with ⟨-, hadd⟩ | ⟨-, hadd⟩
    · rw [call, hadd]
      exact ⟨List.prefix_refl _, List.prefix_append _ _⟩
    · rw [call, hadd]
      exact ⟨List.prefix_refl _, List.prefix_refl _⟩

theorem prefix_foldl_call : ∀ (later : List Call) (b : Builder),
    b.nodes <+: (later.foldl call b).nodes ∧ b.edges <+: (later.foldl call b).edges
  | [], _ => ⟨List.prefix_refl _, List.prefix_refl _⟩
  | c :: later, b => by
    obtain ⟨hnodes, hedges⟩ := b.prefix_call c
    obtain ⟨hnodes', hedges'⟩ := prefix_foldl_call later (b.call c)
    exact ⟨hnodes.trans hnodes', hedges.trans hedges'⟩

/-- **A path keeps its position** through all later calls. -/
theorem nodeIndex?_append {calls : List Call} {filepath : String} {i : Nat}
    (h : (ofCalls calls).nodeIndex? filepath = some i) (later : List Call) :
    (ofCalls (calls ++ later)).nodeIndex? filepath = some i := by
  rw [(sound_ofCalls calls).inStep.positions] at h
  rw [(sound_ofCalls _).inStep.positions, ofCalls_append]
  exact (prefix_foldl_call later (ofCalls calls)).1.findIdx?_eq_some h

/-- **An edge keeps its position** through all later calls. -/
theorem getElem?_edges_append {calls : List Call} {i : Nat} {e : Edge} (h : (ofCalls calls).edges[i]? = some e)
    (later : List Call) : (ofCalls (calls ++ later)).edges[i]? = some e := by
  obtain ⟨hi, rfl⟩ := List.getElem?_eq_some_iff.1 h
  rw [ofCalls_append]
  exact List.prefix_iff_getElem?.1 (prefix_foldl_call later (ofCalls calls)).2 i hi

/-! ## Files -/

/-- The file of a call that adds one with a path. -/
def Call.fileAt? (filepath : String) : Call → Option FileNode
  | .node n => if n.filepath = filepath then some n else none
  | .edge _ => none

/-- The file that calls add first with a path. -/
def firstFile? (calls : List Call) (filepath : String) : Option FileNode := calls.findSome? (Call.fileAt? filepath)

theorem getElem?_of_findIdx? {α : Type} {p : α → Bool} {xs : List α} {i : Nat} (h : xs.findIdx? p = some i) :
    xs[i]? = xs.find? p := by
  obtain ⟨hi, hp, hfirst⟩ := List.findIdx?_eq_some_iff_getElem.1 h
  rw [List.getElem?_eq_getElem hi]
  exact (List.find?_eq_some_iff_getElem.2 ⟨hp, i, hi, rfl, by simpa using hfirst⟩).symm

theorem InStep.find?_nodes_call {b : Builder} (h : b.InStep) (c : Call) (filepath : String) :
    (b.call c).nodes.find? (fun n => n.filepath == filepath) =
      (b.nodes.find? fun n => n.filepath == filepath).or
        ((c.fileAt? filepath).map fun n => { n with category := 0 }) := by
  cases c with
  | node n =>
    rcases b.addNode_cases n with ⟨i, hi, hadd⟩ | ⟨-, hadd⟩
    · rw [call, hadd, Call.fileAt?]
      by_cases hpath : n.filepath = filepath
      · -- the path is there already, and its file comes before the new one
        rw [h.positions, hpath] at hi
        have hfound := getElem?_of_findIdx? hi
        obtain ⟨hlt, -⟩ := List.findIdx?_eq_some_iff_getElem.1 hi
        rw [List.getElem?_eq_getElem hlt] at hfound
        rw [← hfound, Option.some_or]
      · rw [if_neg hpath, Option.map_none, Option.or_none]
    · rw [call, hadd, Call.fileAt?, List.find?_append]
      by_cases hpath : n.filepath = filepath <;> simp [hpath]
  | edge e =>
    rw [call, nodes_addEdge, Call.fileAt?, Option.map_none, Option.or_none]

theorem InStep.call {b : Builder} (h : b.InStep) (c : Call) : (b.call c).InStep := by
  cases c with
  | node n => exact h.addNode n
  | edge e => exact h.addEdge e

theorem InStep.find?_nodes_foldl (filepath : String) : ∀ (calls : List Call) {b : Builder}, b.InStep →
    (calls.foldl Builder.call b).nodes.find? (fun n => n.filepath == filepath) =
      (b.nodes.find? fun n => n.filepath == filepath).or
        ((firstFile? calls filepath).map fun n => { n with category := 0 })
  | [], b, _ => by rw [List.foldl_nil, firstFile?, List.findSome?_nil, Option.map_none, Option.or_none]
  | c :: calls, b, h => by
    have ih := InStep.find?_nodes_foldl filepath calls (h.call c)
    have hfirst : firstFile? (c :: calls) filepath = (c.fileAt? filepath).or (firstFile? calls filepath) := by
      rw [firstFile?, List.findSome?_cons]
      cases c.fileAt? filepath <;> rfl
    rw [List.foldl_cons, ih, h.find?_nodes_call, hfirst, Option.or_assoc]
    cases c.fileAt? filepath <;> simp

/-- **A path stands for the first file that was added with it**, in the first category. -/
theorem find?_nodes_ofCalls (calls : List Call) (filepath : String) :
    (ofCalls calls).nodes.find? (fun n => n.filepath == filepath) =
      (firstFile? calls filepath).map fun n => { n with category := 0 } := by
  have hfold := inStep_empty.find?_nodes_foldl filepath calls
  rwa [empty, List.find?_nil, Option.none_or] at hfold

theorem nodeIndex?_addNode (b : Builder) (n : FileNode) :
    (b.addNode n).1.nodeIndex? n.filepath = some (b.addNode n).2 := by
  rcases b.addNode_cases n with ⟨i, hi, hadd⟩ | ⟨-, hadd⟩
  · rw [hadd]
    exact hi
  · rw [hadd, nodeIndex?, NameMap.get?_insert, if_pos rfl]

theorem mem_paths_ofCalls {calls : List Call} {filepath : String} :
    filepath ∈ (ofCalls calls).nodes.map (·.filepath) ↔ ∃ n, .node n ∈ calls ∧ n.filepath = filepath := by
  have hfound : filepath ∈ (ofCalls calls).nodes.map (·.filepath) ↔
      ((ofCalls calls).nodes.find? fun n => n.filepath == filepath).isSome = true := by simp
  rw [hfound, find?_nodes_ofCalls, Option.isSome_map, firstFile?, List.isSome_findSome?, List.any_eq_true]
  constructor
  · rintro ⟨c, hc, hsome⟩
    cases c with
    | node n =>
      by_cases hpath : n.filepath = filepath
      · exact ⟨n, hc, hpath⟩
      · simp [Call.fileAt?, hpath] at hsome
    | edge e => cases hsome
  · rintro ⟨n, hn, rfl⟩
    exact ⟨.node n, hn, by simp [Call.fileAt?]⟩

theorem addNode_of_added {calls : List Call} {n : FileNode} (h : ∃ m, .node m ∈ calls ∧ m.filepath = n.filepath) :
    ((ofCalls calls).addNode n).1 = ofCalls calls := by
  rcases (ofCalls calls).addNode_cases n with ⟨i, -, hadd⟩ | ⟨hnew, -⟩
  · rw [hadd]
  · exact absurd (mem_paths_ofCalls.2 h) ((sound_ofCalls calls).inStep.nodeIndex?_eq_none_iff.1 hnew)

/-- **The position that is given for a path** is that of its first file, whatever is called later. -/
theorem position_addNode (calls : List Call) (n : FileNode) (later : List Call) :
    let b := ofCalls (calls ++ .node n :: later)
    let i := ((ofCalls calls).addNode n).2
    b.nodes.findIdx? (fun m => m.filepath == n.filepath) = some i ∧
      b.nodes[i]? = (firstFile? (calls ++ [.node n]) n.filepath).map fun m => { m with category := 0 } := by
  intro b i
  have hnow : (ofCalls (calls ++ [.node n])).nodeIndex? n.filepath = some i := by
    rw [ofCalls_append]
    exact (ofCalls calls).nodeIndex?_addNode n
  have hlater := nodeIndex?_append hnow later
  rw [← List.append_cons, (sound_ofCalls _).inStep.positions] at hlater
  -- none of the later files with the path is the first one
  have hfirst : firstFile? (calls ++ .node n :: later) n.filepath = firstFile? (calls ++ [.node n]) n.filepath := by
    simp [firstFile?, List.findSome?_append, Call.fileAt?]
  refine ⟨hlater, (getElem?_of_findIdx? hlater).trans ?_⟩
  rw [find?_nodes_ofCalls, hfirst]

/-! ## Edges -/

theorem isSome_addEdge (b : Builder) (e : Edge) : (b.addEdge e).2.isSome = b.accepts e := by
  rcases b.addEdge_cases e with ⟨haccepts, hadd⟩ | ⟨haccepts, hadd⟩ <;> rw [hadd, haccepts] <;> rfl

/-- That an edge was taken by one of the calls. -/
def Takes (calls : List Call) (e : Edge) : Prop :=
  ∃ before after, calls = before ++ .edge e :: after ∧ ((ofCalls before).addEdge e).2.isSome = true

theorem mem_edges_call {b : Builder} {c : Call} {e : Edge} :
    e ∈ (b.call c).edges ↔ e ∈ b.edges ∨ c = .edge e ∧ (b.addEdge e).2.isSome = true := by
  cases c with
  | node n =>
    simp [call, edges_addNode]
  | edge e' =>
    rw [isSome_addEdge, call]
    rcases b.addEdge_cases e' with ⟨haccepts, hadd⟩ | ⟨haccepts, hadd⟩
    · rw [hadd, List.mem_append, List.mem_singleton]
      constructor
      · rintro (he | rfl)
        · exact .inl he
        · exact .inr ⟨rfl, haccepts⟩
      · rintro (he | ⟨heq, -⟩)
        · exact .inl he
        · exact .inr (Call.edge.inj heq).symm
    · rw [hadd]
      constructor
      · exact .inl
      · rintro (he | ⟨heq, htaken⟩)
        · exact he
        · rw [Call.edge.inj heq, htaken] at haccepts
          cases haccepts

theorem mem_edges_append {e : Edge} : ∀ (later calls : List Call),
    e ∈ (ofCalls (calls ++ later)).edges ↔
      e ∈ (ofCalls calls).edges ∨
        ∃ before after, later = before ++ .edge e :: after ∧ ((ofCalls (calls ++ before)).addEdge e).2.isSome = true
  | [], calls => by simp
  | c :: later, calls => by
    -- the first of the later calls is the last of those before the others
    have hsnoc : ofCalls (calls ++ [c]) = (ofCalls calls).call c := by rw [ofCalls_append]; rfl
    rw [List.append_cons, mem_edges_append later (calls ++ [c]), hsnoc, mem_edges_call, or_assoc]
    refine or_congr_right ?_
    constructor
    · rintro (⟨rfl, htaken⟩ | ⟨before, after, rfl, htaken⟩)
      · exact ⟨[], later, rfl, by rwa [List.append_nil]⟩
      · exact ⟨c :: before, after, rfl, by rwa [List.append_cons]⟩
    · rintro ⟨before, after, hlater, htaken⟩
      cases before with
      | nil =>
        obtain ⟨rfl, -⟩ := List.cons.inj hlater
        exact .inl ⟨rfl, by rwa [List.append_nil] at htaken⟩
      | cons c' before =>
        obtain ⟨rfl, rfl⟩ := List.cons.inj hlater
        exact .inr ⟨before, after, rfl, by rwa [List.append_cons] at htaken⟩

/-- **The edges of a builder are those that were taken.** -/
theorem mem_edges_ofCalls {calls : List Call} {e : Edge} : e ∈ (ofCalls calls).edges ↔ Takes calls e := by
  have hedges := mem_edges_append (e := e) calls []
  have hnone : (ofCalls []).edges = [] := rfl
  rw [hnone] at hedges
  simpa [Takes] using hedges

theorem isSome_addEdge_ofCalls {calls : List Call} {e : Edge} :
    ((ofCalls calls).addEdge e).2.isSome = true ↔
      Admits (ofCalls calls).nodes.length e ∧
        ∀ e', Takes calls e' → ¬ (e'.source = e.source ∧ e'.target = e.target) := by
  rw [isSome_addEdge, (sound_ofCalls calls).inStep.accepts_iff]
  simp only [mem_edges_ofCalls]

theorem position_addEdge {calls : List Call} {e : Edge} {i : Nat} (h : ((ofCalls calls).addEdge e).2 = some i)
    (later : List Call) : (ofCalls (calls ++ .edge e :: later)).edges[i]? = some e := by
  have hnow : (ofCalls (calls ++ [.edge e])).edges[i]? = some e := by
    rw [ofCalls_append]
    change ((ofCalls calls).addEdge e).1.edges[i]? = some e
    rcases (ofCalls calls).addEdge_cases e with ⟨-, hadd⟩ | ⟨-, hadd⟩
    · rw [hadd] at h ⊢
      obtain rfl := Option.some.inj h
      exact List.getElem?_concat_length
    · rw [hadd] at h
      cases h
  rw [List.append_cons]
  exact getElem?_edges_append hnow later

/-- An edge that is not taken might as well not have been tried. -/
theorem ofCalls_of_refused {calls : List Call} {e : Edge} (h : ((ofCalls calls).addEdge e).2 = none)
    (later : List Call) : ofCalls (calls ++ .edge e :: later) = ofCalls (calls ++ later) := by
  have hsame : (ofCalls calls).call (.edge e) = ofCalls calls := by
    rcases (ofCalls calls).addEdge_cases e with ⟨-, hadd⟩ | ⟨-, hadd⟩
    · rw [hadd] at h
      cases h
    · rw [call, hadd]
  rw [ofCalls_append, ofCalls_append, List.foldl_cons, hsame]

/-! ## All answers -/

/-- **What a builder answers**, after any calls.  A path that was added before changes nothing; the position that is
given for a path stays the position of that path in the graph, whatever is called later, and the file there is the first
one that was added with the path.  Looking up a path in the builder is looking it up in the graph.  An edge is taken
just if its ends exist at the time and differ, it weighs something and no edge with its ends was taken before; its
position stays its position in the graph; and an edge that is not taken might as well not have been tried.  The graph
has no edge from a file to itself, no two edges with the same ends, and all its files are in the first category. -/
theorem answers_ofCalls (calls : List Call) :
    let b := ofCalls calls
    (∀ n : FileNode,
      ((∃ m, .node m ∈ calls ∧ m.filepath = n.filepath) → (b.addNode n).1 = b) ∧
        ∀ (later : List Call) (epoch : Epoch),
          let g := (ofCalls (calls ++ .node n :: later)).build epoch
          g.nodeIndex? n.filepath = some (b.addNode n).2 ∧
            g.nodes[(b.addNode n).2]? =
              (firstFile? (calls ++ [.node n]) n.filepath).map fun m => { m with category := 0 }) ∧
      (∀ (filepath : String) (epoch : Epoch), b.nodeIndex? filepath = (b.build epoch).nodeIndex? filepath) ∧
      (∀ e : Edge,
        ((b.addEdge e).2.isSome = true ↔
          e.source < b.nodes.length ∧ e.target < b.nodes.length ∧ e.source ≠ e.target ∧ 0.0 < e.weight ∧
            ∀ e', Takes calls e' → ¬ (e'.source = e.source ∧ e'.target = e.target)) ∧
        (∀ i, (b.addEdge e).2 = some i → ∀ (later : List Call) (epoch : Epoch),
          ((ofCalls (calls ++ .edge e :: later)).build epoch).edges[i]? = some e) ∧
        ((b.addEdge e).2 = none → ∀ later, ofCalls (calls ++ .edge e :: later) = ofCalls (calls ++ later))) ∧
      ∀ epoch, (b.build epoch).Simple ∧ ∀ n ∈ (b.build epoch).nodes, n.category = 0 := by
  intro b
  have hsound : b.Sound := sound_ofCalls calls
  refine ⟨fun n => ⟨addNode_of_added, fun later _ => position_addNode calls n later⟩,
    fun filepath _ => hsound.inStep.positions filepath,
    fun e => ⟨?_, fun _ hi later _ => position_addEdge hi later, ofCalls_of_refused⟩,
    fun epoch => ⟨hsound.simple_build epoch, hsound.category⟩⟩
  rw [isSome_addEdge_ofCalls]
  exact ⟨fun ⟨⟨hs, ht, hne, hw⟩, hfirst⟩ => ⟨hs, ht, hne, hw, hfirst⟩,
    fun ⟨hs, ht, hne, hw, hfirst⟩ => ⟨⟨hs, ht, hne, hw⟩, hfirst⟩⟩

/-- Two files, an edge that is no edge and one from the first to the second. -/
def sampleCalls : List Call :=
  [.node (.ofContent "a.rs" "first"), .node (.ofContent "b.rs" ""), .edge ⟨0, 0, 1.0⟩, .edge ⟨0, 1, 0.5⟩]

/-- The path of the first file is added again, with other content; the edge between the files again, and its reverse. -/
theorem answers_ofCalls_sample :
    let again : FileNode := .ofContent "a.rs" "second, with more"
    let b := ofCalls sampleCalls
    (.node (.ofContent "a.rs" "first") ∈ sampleCalls ∧ (b.addNode again).1 = b) ∧
      (∀ later epoch, ((ofCalls (sampleCalls ++ .node again :: later)).build epoch).nodes[(b.addNode again).2]? =
        some (.ofContent "a.rs" "first")) ∧
      (b.addEdge ⟨0, 1, 0.75⟩).2 = none ∧
      (∀ later, ofCalls (sampleCalls ++ .edge ⟨0, 1, 0.75⟩ :: later) = ofCalls (sampleCalls ++ later)) ∧
      (b.addEdge ⟨1, 0, 0.75⟩).2 = some 1 ∧
      ∀ later epoch,
        ((ofCalls (sampleCalls ++ .edge ⟨1, 0, 0.75⟩ :: later)).build epoch).edges[1]? = some ⟨1, 0, 0.75⟩ := by
  intro again b
  obtain ⟨hnode, -, hedge, -⟩ := answers_ofCalls sampleCalls
  have hmem : .node (.ofContent "a.rs" "first") ∈ sampleCalls := List.mem_cons_self
  obtain ⟨hkept, hlater⟩ := hnode again
  obtain ⟨-, -, hrefused⟩ := hedge ⟨0, 1, 0.75⟩
  obtain ⟨-, htaken, -⟩ := hedge ⟨1, 0, 0.75⟩
  have hnone : (b.addEdge ⟨0, 1, 0.75⟩).2 = none := by decide +kernel
  have hsome : (b.addEdge ⟨1, 0, 0.75⟩).2 = some 1 := by decide +kernel
  refine ⟨⟨hmem, hkept ⟨_, hmem, rfl⟩⟩, fun later epoch => ?_, hnone, hrefused hnone, hsome, htaken 1 hsome⟩
  exact (hlater later epoch).2.trans (by decide +kernel)

end Builder

end FileGraph
