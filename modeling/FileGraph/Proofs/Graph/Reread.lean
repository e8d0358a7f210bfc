import FileGraph.Proofs.Decimal.Reading
import FileGraph.Proofs.Graph.Document
/-!
# Reread — which graphs can be read again

A positive weight is read again as a positive number, unless it is infinite: that has no digits, and nothing can be
read in its place (`float?_ofFloat`).  So a valid graph is written as a text that is read exactly if no weight is
infinite (`read_write_of_valid`), and this is true of all that a builder makes (`read_write_build`), since a builder
takes any weight above zero.
-/
namespace FileGraph

open Decimal Json

/-! ## Weights -/

theorem Json.float?_ofFloat {x : Float} (h : 0.0 < x) :
    x.isInf = true ∧ (ofFloat x).float? = none ∨
      x.isInf = false ∧ ∃ y, (ofFloat x).float? = some y ∧ 0.0 < y := by
  rcases positional_of_zero_lt h with ⟨hinf, hparts⟩ | ⟨m, e, hx⟩
  · left
    refine ⟨hinf, ?_⟩
    have hnone : Numeral.ofFloat? x = none := by
      unfold Numeral.ofFloat?
      rw [hparts]
    unfold ofFloat
    rw [hnone]
    rfl
  · right
    obtain ⟨n, y, hn, hread, hy⟩ := float?_ofFloat? hx
    refine ⟨hx.isInf, y, ?_, hy⟩
    unfold ofFloat
    rw [hn]
    exact hread

namespace Edge

/-- The second edge joins the same files, and weighs something. -/
structure Rereads (e e' : Edge) : Prop where
  source   : e'.source = e.source
  target   : e'.target = e.target
  positive : 0.0 < e'.weight

theorem reread?_eq_none {e : Edge} (h : 0.0 < e.weight) (hinf : e.weight.isInf = true) : e.reread? = none := by
  rcases float?_ofFloat h with ⟨-, hnone⟩ | ⟨hfinite, -⟩
  · rw [reread?, hnone]
    rfl
  · rw [hinf] at hfinite
    cases hfinite

theorem reread?_eq_some {e : Edge} (h : 0.0 < e.weight) (hfinite : e.weight.isInf = false) :
    ∃ e', e.reread? = some e' ∧ e.Rereads e' := by
  rcases float?_ofFloat h with ⟨hinf, -⟩ | ⟨-, y, hy, hpos⟩
  · rw [hinf] at hfinite
    cases hfinite
  · refine ⟨{ e with weight := y }, ?_, rfl, rfl, hpos⟩
    rw [reread?, hy]
    rfl

theorem mapM_reread?_eq_none : ∀ {es : List Edge}, (∃ e ∈ es, e.reread? = none) → es.mapM reread? = none
  | e :: es, h => by
    rw [List.mapM_cons]
    cases he : e.reread? with
    | none => rfl
    | some e' =>
      obtain ⟨x, hx, hnone⟩ := h
      rcases List.mem_cons.1 hx with rfl | hx
      · rw [he] at hnone
        cases hnone
      · rw [mapM_reread?_eq_none ⟨x, hx, hnone⟩]
        rfl

theorem mapM_reread?_eq_some : ∀ {es : List Edge}, (∀ e ∈ es, ∃ e', e.reread? = some e' ∧ e.Rereads e') →
    ∃ es', es.mapM reread? = some es' ∧ List.Forall₂ Rereads es es'
  | [], _ => ⟨[], rfl, .nil⟩
  | e :: es, h => by
    obtain ⟨e', he, hreads⟩ := h e List.mem_cons_self
    obtain ⟨es', hes, hall⟩ := mapM_reread?_eq_some fun x hx => h x (List.mem_cons_of_mem e hx)
    refine ⟨e' :: es', ?_, .cons hreads hall⟩
    rw [List.mapM_cons, he, hes]
    rfl

theorem exists_of_mem_reread {es es' : List Edge} (h : List.Forall₂ Rereads es es') :
    ∀ e' ∈ es', ∃ e ∈ es, e.Rereads e' := by
  induction h with
  | nil => exact fun _ h => nomatch h
  | @cons e e' es es' hreads _ ih =>
    intro x hx
    rcases List.mem_cons.1 hx with rfl | hx
    · exact ⟨e, List.mem_cons_self, hreads⟩
    · obtain ⟨y, hy, hreads⟩ := ih x hx
      exact ⟨y, List.mem_cons_of_mem e hy, hreads⟩

end Edge

/-! ## Graphs -/

namespace Graph

/-- The second graph has the categories and files of the first, and edges between the same files. -/
structure Rereads (g g' : Graph) : Prop where
  categories : g'.categories = g.categories
  nodes      : g'.nodes = g.nodes
  edges      : List.Forall₂ Edge.Rereads g.edges g'.edges

theorem Valid.rereads {g g' : Graph} (h : g.Valid) (hreads : g.Rereads g') : g'.Valid := by
  obtain ⟨hcategories, hnodes, hedges⟩ := hreads
  have hback := Edge.exists_of_mem_reread hedges
  refine ⟨hcategories ▸ h.named, ?_, ?_, ?_, ?_⟩
  · rw [filepaths, hnodes]
    exact h.apart
  · rw [hnodes, hcategories]
    exact h.category
  · intro e' he'
    obtain ⟨e, he, hreads⟩ := hback e' he'
    rw [hreads.source, hreads.target, hnodes]
    exact h.ends e he
  · intro e' he'
    obtain ⟨e, -, hreads⟩ := hback e' he'
    exact hreads.positive

/-- **A valid graph that is written can be read just if no weight is infinite.** -/
theorem read_write_of_valid {g : Graph} (h : g.Valid) (hfits : g.Fits) (epoch : Epoch) (layout : Layout) :
    ((∀ e ∈ g.edges, e.weight.isInf = false) →
      ∃ g', read epoch (g.write layout) = .ok g' ∧ g'.epoch = epoch ∧ g.Rereads g') ∧
    ((∃ e ∈ g.edges, e.weight.isInf = true) → read epoch (g.write layout) = .error .notADocument) := by
  rw [read_write hfits]
  constructor
  · intro hfinite
    obtain ⟨es, hes, hall⟩ := Edge.mapM_reread?_eq_some fun e he =>
      Edge.reread?_eq_some (h.positive e he) (hfinite e he)
    have hreads : g.Rereads ⟨g.categories, g.nodes, es, epoch⟩ := ⟨rfl, rfl, hall⟩
    rw [hes]
    dsimp only
    rw [check_eq_ok_iff.2 (h.rereads hreads)]
    exact ⟨_, rfl, rfl, hreads⟩
  · rintro ⟨e, he, hinf⟩
    rw [Edge.mapM_reread?_eq_none ⟨e, he, Edge.reread?_eq_none (h.positive e he) hinf⟩]

end Graph

/-! ## Builders -/

namespace Builder

/-- The numbers of a call are words. -/
def Call.Fits : Call → Prop
  | .node n => n.Fits
  | .edge e => e.Fits

instance : DecidablePred Call.Fits
  | .node n => inferInstanceAs (Decidable n.Fits)
  | .edge e => inferInstanceAs (Decidable e.Fits)

/-- The numbers of a builder are words. -/
structure Fits (b : Builder) : Prop where
  nodes : ∀ n ∈ b.nodes, n.Fits
  edges : ∀ e ∈ b.edges, e.Fits

theorem Fits.addNode {b : Builder} {n : FileNode} (h : b.Fits) (hn : n.Fits) : (b.addNode n).1.Fits := by
  rcases b.addNode_cases n with ⟨i, -, hadd⟩ | ⟨-, hadd⟩
  · rw [hadd]
    exact h
  · rw [hadd]
    refine ⟨fun m hm => ?_, h.edges⟩
    rcases List.mem_append.1 hm with hm | hm
    · exact h.nodes m hm
    · rw [List.mem_singleton.1 hm]
      exact ⟨hn.numLines, hn.numCharacters, Nat.two_pow_pos 64, hn.spans⟩

theorem Fits.addEdge {b : Builder} {e : Edge} (h : b.Fits) (he : e.Fits) : (b.addEdge e).1.Fits := by
  rcases b.addEdge_cases e with ⟨-, hadd⟩ | ⟨-, hadd⟩
  · rw [hadd]
    refine ⟨h.nodes, fun x hx => ?_⟩
    rcases List.mem_append.1 hx with hx | hx
    · exact h.edges x hx
    · rw [List.mem_singleton.1 hx]
      exact he
  · rw [hadd]
    exact h

theorem Fits.call {b : Builder} {c : Call} (h : b.Fits) (hc : c.Fits) : (b.call c).Fits := by
  cases c with
  | node n => exact h.addNode hc
  | edge e => exact h.addEdge hc

theorem fits_ofCalls {calls : List Call} (h : ∀ c ∈ calls, c.Fits) : (ofCalls calls).Fits :=
  List.foldlRecOn calls call ⟨fun _ h => (nomatch h), fun _ h => (nomatch h)⟩ fun _ hb c hc => hb.call (h c hc)

/-- **What a builder makes can be written and read again just if no weight is infinite**, in either layout and under
any epoch.  The graph that is read has the same files and edges between the same ones. -/
theorem read_write_build {calls : List Call} (h : ∀ c ∈ calls, c.Fits) (made epoch : Epoch) (layout : Graph.Layout) :
    let g := (ofCalls calls).build made
    ((∀ e ∈ g.edges, e.weight.isInf = false) →
      ∃ g', Graph.read epoch (g.write layout) = .ok g' ∧ g'.epoch = epoch ∧ g.Rereads g') ∧
    ((∃ e ∈ g.edges, e.weight.isInf = true) → Graph.read epoch (g.write layout) = .error .notADocument) := by
  intro g
  have hvalid : g.Valid := (sound_ofCalls calls).valid_build made
  have hfits := fits_ofCalls h
  exact Graph.read_write_of_valid hvalid ⟨hfits.nodes, hfits.edges⟩ epoch layout

/-- Two files and an edge between them. -/
def pairCalls (weight : Float) : List Call :=
  [.node (.ofContent "a" ""), .node (.ofContent "b" ""), .edge ⟨0, 1, weight⟩]

theorem read_write_build_pair :
    (∀ c ∈ pairCalls (1.0 / 0.0), c.Fits) ∧ (∀ c ∈ pairCalls 0.1, c.Fits) ∧ ∀ layout,
      Graph.read 2 (((ofCalls (pairCalls (1.0 / 0.0))).build 1).write layout) = .error .notADocument ∧
        ∃ g', Graph.read 2 (((ofCalls (pairCalls 0.1)).build 1).write layout) = .ok g' ∧
          g'.nodes.map (·.filepath) = ["a", "b"] ∧ g'.edges.length = 1 := by
  have hinfinite : ∀ c ∈ pairCalls (1.0 / 0.0), c.Fits := by decide +kernel
  have hfinite : ∀ c ∈ pairCalls 0.1, c.Fits := by decide +kernel
  have hedge : ((ofCalls (pairCalls (1.0 / 0.0))).build 1).edges = [⟨0, 1, 1.0 / 0.0⟩] := by decide +kernel
  have hedge' : ((ofCalls (pairCalls 0.1)).build 1).edges = [⟨0, 1, 0.1⟩] := by decide +kernel
  refine ⟨hinfinite, hfinite, fun layout => ?_⟩
  obtain ⟨-, hrefused⟩ := read_write_build hinfinite 1 2 layout
  obtain ⟨hread, -⟩ := read_write_build hfinite 1 2 layout
  refine ⟨hrefused ?_, ?_⟩
  · rw [hedge]
    exact ⟨_, List.mem_singleton_self _, by decide +kernel⟩
  · obtain ⟨g', hg', -, hrereads⟩ := hread (by rw [hedge']; decide +kernel)
    refine ⟨g', hg', ?_, ?_⟩
    · rw [hrereads.nodes]
      decide +kernel
    · rw [← hrereads.edges.length_eq, hedge']
      rfl

end Builder

end FileGraph
