import FileGraph.Proofs.Graph.Calls
import FileGraph.Proofs.Graph.Reread
/-!
# Simple — edges that only a builder refuses

A builder takes no edge from a file to itself and no second edge with the same ends.  A document is asked about neither:
of the edges of a graph that was read, a builder would refuse just these (`read_simple_iff`), and any edges between its
files that weigh something are read, whatever loops and repetitions there are among them.
-/
namespace FileGraph

namespace Builder

/-- The calls that add files and then edges. -/
def callsOf (ns : List FileNode) (es : List Edge) : List Call := ns.map .node ++ es.map .edge

theorem ofCalls_callsOf (ns : List FileNode) (es : List Edge) :
    ofCalls (callsOf ns es) =
      es.foldl (fun b e => (b.addEdge e).1) (ns.foldl (fun b n => (b.addNode n).1) empty) := by
  rw [ofCalls, callsOf, List.foldl_append, List.foldl_map, List.foldl_map]
  rfl

/-- Two files are joined after a call just if they were before, or by an edge that could be added but for these. -/
theorem InStep.joined_addEdge {b : Builder} (h : b.InStep) (e : Edge) (s t : Nat) :
    (∃ x ∈ (b.addEdge e).1.edges, x.source = s ∧ x.target = t) ↔
      (∃ x ∈ b.edges, x.source = s ∧ x.target = t) ∨ Admits b.nodes.length e ∧ e.source = s ∧ e.target = t := by
  rcases b.addEdge_cases e with ⟨haccepts, hadd⟩ | ⟨hrefuses, hadd⟩
  · obtain ⟨hadmits, -⟩ := h.accepts_iff.1 haccepts
    rw [hadd]
    simp [or_and_right, exists_or, hadmits]
  · rw [hadd]
    refine ⟨.inl, fun hjoined => hjoined.elim id ?_⟩
    rintro ⟨hadmits, rfl, rfl⟩
    -- the edge is refused, so there is one with its ends
    refine Decidable.byContradiction fun hnone => ?_
    rw [h.accepts_iff.2 ⟨hadmits, fun x hx hends => hnone ⟨x, hx, hends⟩⟩] at hrefuses
    cases hrefuses

theorem InStep.joined_foldl (s t : Nat) : ∀ (es : List Edge) {b : Builder}, b.InStep →
    let b' := es.foldl (fun b e => (b.addEdge e).1) b
    b'.InStep ∧ b'.nodes = b.nodes ∧
      ((∃ x ∈ b'.edges, x.source = s ∧ x.target = t) ↔
        (∃ x ∈ b.edges, x.source = s ∧ x.target = t) ∨
          ∃ x ∈ es, Admits b.nodes.length x ∧ x.source = s ∧ x.target = t)
  | [], _, h => ⟨h, rfl, by simp⟩
  | e :: es, b, h => by
    obtain ⟨hinStep, hnodes, hjoined⟩ := InStep.joined_foldl s t es (h.addEdge e)
    rw [nodes_addEdge] at hnodes hjoined
    rw [List.foldl_cons]
    refine ⟨hinStep, hnodes, hjoined.trans ?_⟩
    rw [h.joined_addEdge, or_assoc]
    exact or_congr_right (by simp)

end Builder

namespace Graph

/-- The source and the target of each edge. -/
def pairs (g : Graph) : List (Nat × Nat) := g.edges.map fun e => (e.source, e.target)

theorem simple_iff_pairs {g : Graph} : g.Simple ↔ (∀ p ∈ g.pairs, p.1 ≠ p.2) ∧ g.pairs.Nodup := by
  have hapart : (∀ p ∈ g.pairs, p.1 ≠ p.2) ↔ ∀ e ∈ g.edges, e.source ≠ e.target := List.forall_mem_map
  have honce : g.pairs.Nodup ↔ g.edges.Pairwise fun e e' => ¬ (e.source = e'.source ∧ e.target = e'.target) := by
    simp only [pairs, List.Nodup, List.pairwise_map, ne_eq, Prod.mk.injEq]
  rw [hapart, honce]
  exact ⟨fun h => ⟨h.loopless, h.once⟩, fun ⟨hloopless, honce⟩ => ⟨hloopless, honce⟩⟩

theorem Rereads.pairs_eq {g g' : Graph} (h : g.Rereads g') : g'.pairs = g.pairs := by
  have hedges : ∀ {es es' : List Edge}, List.Forall₂ Edge.Rereads es es' →
      es'.map (fun e => (e.source, e.target)) = es.map fun e => (e.source, e.target) := by
    intro es es' hall
    induction hall with
    | nil => rfl
    | cons hreads _ ih => rw [List.map_cons, List.map_cons, ih, hreads.source, hreads.target]
  exact hedges h.edges

theorem Rereads.simple_iff {g g' : Graph} (h : g.Rereads g') : g'.Simple ↔ g.Simple := by
  rw [simple_iff_pairs, simple_iff_pairs, h.pairs_eq]

theorem fits_of_read {epoch : Epoch} {text : String} {g : Graph} (h : read epoch text = .ok g) :
    ∀ n ∈ g.nodes, n.Fits := by
  unfold read at h
  split at h
  · cases h
  · rename_i g' hg'
    split at h
    · cases h
      obtain ⟨j, -, hj⟩ := Option.bind_eq_some_iff.1 hg'
      exact fits_of_ofJson? hj
    · cases h

/-! ## Documents and builders -/

theorem Valid.foldl_addNode {g : Graph} (h : g.Valid) :
    let b := g.nodes.foldl (fun b n => (b.addNode n).1) Builder.empty
    b.InStep ∧ b.nodes = g.nodes.map (fun n => { n with category := 0 }) ∧ b.edges = [] := by
  obtain ⟨hinStep, hnodes, hedges⟩ :=
    Builder.inStep_empty.foldl_addNode g.nodes h.apart fun _ _ => List.not_mem_nil
  exact ⟨hinStep, hnodes, hedges⟩

theorem Valid.admits_iff {g : Graph} (h : g.Valid) {e : Edge} (he : e ∈ g.edges) :
    Builder.Admits g.nodes.length e ↔ e.source ≠ e.target :=
  ⟨fun hadmits => hadmits.apart, fun hapart => ⟨(h.ends e he).1, (h.ends e he).2, hapart, h.positive e he⟩⟩

theorem Valid.simple_iff_built {g : Graph} (h : g.Valid) :
    g.Simple ↔ ∃ calls made,
      ((Builder.ofCalls calls).build made).filepaths = g.filepaths ∧
        ((Builder.ofCalls calls).build made).edges = g.edges := by
  constructor
  · intro hsimple
    obtain ⟨hinStep, hnodes, hedges⟩ := h.foldl_addNode
    have hlength := congrArg List.length hnodes
    rw [List.length_map] at hlength
    obtain ⟨hnodes', hedges'⟩ := hinStep.foldl_addEdge g.edges
      (fun e he => hlength ▸ ⟨(h.ends e he).1, (h.ends e he).2, hsimple.loopless e he⟩) hsimple.once
      (fun _ _ e' he' => by rw [hedges] at he'; cases he')
    rw [List.filter_eq_self.2 fun e he => decide_eq_true (h.positive e he)] at hedges'
    refine ⟨Builder.callsOf g.nodes g.edges, 0, ?_, ?_⟩
    · rw [Builder.ofCalls_callsOf, Builder.build, filepaths, hnodes', hnodes, List.map_map]
      rfl
    · rw [Builder.ofCalls_callsOf, Builder.build, hedges', hedges, List.nil_append]
  · rintro ⟨calls, made, -, hedges⟩
    obtain ⟨hloopless, honce⟩ := (Builder.sound_ofCalls calls).simple_build made
    rw [hedges] at hloopless honce
    exact ⟨hloopless, honce⟩

theorem Valid.refuses_iff {g : Graph} (h : g.Valid) {before after : List Edge} {e : Edge}
    (hedges : g.edges = before ++ e :: after) :
    ((Builder.ofCalls (Builder.callsOf g.nodes before)).addEdge e).2 = none ↔
      e.source = e.target ∨ ∃ x ∈ before, x.source = e.source ∧ x.target = e.target := by
  have he : e ∈ g.edges := by simp [hedges]
  have hbefore : ∀ x ∈ before, x ∈ g.edges := fun x hx => by simp [hedges, hx]
  obtain ⟨hinStep, hnodes, hnoEdge⟩ := h.foldl_addNode
  have hlength := congrArg List.length hnodes
  rw [List.length_map] at hlength
  obtain ⟨hinStep', hnodes', hjoined⟩ := Builder.InStep.joined_foldl e.source e.target before hinStep
  rw [← Builder.ofCalls_callsOf] at hinStep' hnodes' hjoined
  rw [hnoEdge, hlength] at hjoined
  have hlength' : (Builder.ofCalls (Builder.callsOf g.nodes before)).nodes.length = g.nodes.length := by
    rw [hnodes', hlength]
  have htaken : ((Builder.ofCalls (Builder.callsOf g.nodes before)).addEdge e).2 = none ↔
      ¬ (Builder.ofCalls (Builder.callsOf g.nodes before)).accepts e = true := by
    rw [← Builder.isSome_addEdge, Option.not_isSome_iff_eq_none]
  rw [htaken, hinStep'.accepts_iff, hlength', h.admits_iff he]
  by_cases hloop : e.source = e.target
  · simp [hloop]
  · -- none of the edges before with the same ends is a loop, so the first of them was taken
    have hpair : (∃ x ∈ before, x.source = e.source ∧ x.target = e.target) ↔
        ∃ x ∈ (Builder.ofCalls (Builder.callsOf g.nodes before)).edges,
          x.source = e.source ∧ x.target = e.target := by
      rw [hjoined]
      constructor
      · rintro ⟨x, hx, hs, ht⟩
        exact .inr ⟨x, hx, (h.admits_iff (hbefore x hx)).2 (by rwa [hs, ht]), hs, ht⟩
      · rintro (⟨x, hx, -⟩ | ⟨x, hx, -, hends⟩)
        · cases hx
        · exact ⟨x, hx, hends⟩
    rw [hpair]
    simp [hloop]

/-- **Loops and repeated pairs are all that a builder would refuse in a graph that was read**, and none of them is
refused by reading.  A graph that was read has neither just if some builder makes its edges between its files; given
its files and edges one by one, a builder refuses an edge just if it is a loop or has the ends of one before it; and
with any other edges between the same files, as long as these weigh something finite, the graph is read as well, with
the loops and the repeated pairs that are among them. -/
theorem read_simple_iff {epoch : Epoch} {text : String} {g : Graph} (h : read epoch text = .ok g) :
    (g.Simple ↔ ∃ calls made,
      ((Builder.ofCalls calls).build made).filepaths = g.filepaths ∧
        ((Builder.ofCalls calls).build made).edges = g.edges) ∧
    (∀ before e after, g.edges = before ++ e :: after →
      (((Builder.ofCalls (Builder.callsOf g.nodes before)).addEdge e).2 = none ↔
        e.source = e.target ∨ ∃ x ∈ before, x.source = e.source ∧ x.target = e.target)) ∧
    ∀ es : List Edge,
      (∀ e ∈ es, e.Fits ∧ (e.source < g.nodes.length ∧ e.target < g.nodes.length) ∧
        0.0 < e.weight ∧ e.weight.isInf = false) →
      ∀ (layout : Layout) (next : Epoch), ∃ g',
        read next (({ g with edges := es } : Graph).write layout) = .ok g' ∧
          ({ g with edges := es } : Graph).Rereads g' ∧ (g'.Simple ↔ ({ g with edges := es } : Graph).Simple) := by
  obtain ⟨-, hvalid⟩ := read_eq_ok h
  refine ⟨hvalid.simple_iff_built, fun before e after hedges => hvalid.refuses_iff hedges,
    fun es hes layout next => ?_⟩
  have hvalid' : ({ g with edges := es } : Graph).Valid :=
    ⟨hvalid.named, hvalid.apart, hvalid.category, fun e he => (hes e he).2.1, fun e he => (hes e he).2.2.1⟩
  have hnodes := fits_of_read h
  have hfits : ({ g with edges := es } : Graph).Fits := ⟨hnodes, fun e he => (hes e he).1⟩
  obtain ⟨hread, -⟩ := read_write_of_valid hvalid' hfits next layout
  obtain ⟨g', hg', -, hreads⟩ := hread fun e he => (hes e he).2.2.2
  exact ⟨g', hg', hreads, hreads.simple_iff⟩

/-- Two files, an edge from the first to itself and two from the first to the second. -/
def sampleGraph : Graph :=
  ⟨["General"], [⟨"a", 1, 0, 0, .ofList [], "", []⟩, ⟨"b", 1, 0, 0, .ofList [], "", []⟩],
    [⟨0, 0, 1.5⟩, ⟨0, 1, 0.5⟩, ⟨0, 1, 0.25⟩], 1⟩

theorem read_simple_iff_sample :
    read 1 "[[\"General\"],[[\"a\",1,0],[\"b\",1,0]],[[0,0,1.5],[0,1,0.5],[0,1,0.25]]]" = .ok sampleGraph ∧
      ¬ sampleGraph.Simple ∧
      (¬ ∃ calls made, ((Builder.ofCalls calls).build made).filepaths = sampleGraph.filepaths ∧
        ((Builder.ofCalls calls).build made).edges = sampleGraph.edges) ∧
      ((Builder.ofCalls (Builder.callsOf sampleGraph.nodes [⟨0, 0, 1.5⟩, ⟨0, 1, 0.5⟩])).addEdge ⟨0, 1, 0.25⟩).2 =
        none ∧
      ∀ layout, ∃ g',
        read 2 (({ sampleGraph with edges := [⟨1, 0, 1.0⟩, ⟨1, 1, 1.0⟩] } : Graph).write layout) = .ok g' ∧
          ¬ g'.Simple := by
  have hread : read 1 "[[\"General\"],[[\"a\",1,0],[\"b\",1,0]],[[0,0,1.5],[0,1,0.5],[0,1,0.25]]]" =
      .ok sampleGraph := by decide +kernel
  obtain ⟨hsimple, hrefuses, hothers⟩ := read_simple_iff hread
  have hloop : ¬ sampleGraph.Simple := fun h => h.loopless ⟨0, 0, 1.5⟩ (by simp [sampleGraph]) rfl
  refine ⟨hread, hloop, fun hbuilt => hloop (hsimple.2 hbuilt), ?_, fun layout => ?_⟩
  · exact (hrefuses _ _ [] rfl).2 (.inr ⟨⟨0, 1, 0.5⟩, by simp, rfl, rfl⟩)
  · obtain ⟨g', hg', -, hsimple'⟩ :=
      hothers [⟨1, 0, 1.0⟩, ⟨1, 1, 1.0⟩] (by decide +kernel) layout 2
    exact ⟨g', hg', fun h => (hsimple'.1 h).loopless ⟨1, 1, 1.0⟩ (by simp) rfl⟩

end Graph

end FileGraph
