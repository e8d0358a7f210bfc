import FileGraph.Proofs.Graph.Document
import FileGraph.Proofs.Session.Epochs
/-!
# RoundTrip — a written graph is parsed to the same graph

Whatever has happened in a workspace, parsing the text of a valid graph gives its categories, files and edges, under an
epoch larger than all that were handed out (`parse_write`).  The weights have to be numbers that are read back from
their digits, which no infinite one is.
-/
namespace FileGraph

theorem Graph.mapM_reread? {es : List Edge} (h : ∀ e ∈ es, (Json.ofFloat e.weight).float? = some e.weight) :
    es.mapM Edge.reread? = some es := by
  have hread : ∀ e ∈ es, (id e : Edge).reread? = some e := by
    intro e he
    rw [id_eq, Edge.reread?, h e he]
    rfl
  have hall := Json.mapM_map_eq_some hread
  rwa [List.map_id] at hall

/-- A check does not look at the epoch. -/
theorem Graph.check_epoch (g : Graph) (epoch : Epoch) : Graph.check { g with epoch := epoch } = g.check := rfl

namespace Workspace

theorem made_le_made_follow (start : Workspace) (steps : List Step) : start.made ≤ (start.follow steps).made := by
  rw [made_follow]
  exact Nat.le_add_right _ _

theorem epoch_lt_nextEpoch {start : Workspace} {steps : List Step} {g : Graph} (hstart : ∀ g, ¬ start.Present g)
    (hsteps : ∀ s ∈ steps, s.KeepsFiles) (h : start.Occurs steps g) : g.epoch < (start.follow steps).nextEpoch := by
  obtain ⟨m, hm, hsame⟩ := exists_made_of_occurs hstart hsteps h
  rw [hsame.1]
  exact Nat.lt_succ_of_le (epoch_le_made hm).2

/-- **What is written of a valid graph is parsed to that graph**, in both layouts and whatever characters its texts
have, if its weights are read back from their digits: categories, files and edges are the same.  The epoch is larger
than any that was handed out before, and so, as long as callers leave epochs and paths alone, than that of any graph
that somebody has had. -/
theorem parse_write (start : Workspace) (steps : List Step) {g : Graph} (hvalid : g.check = .ok ()) (hfits : g.Fits)
    (hweights : ∀ e ∈ g.edges, (Json.ofFloat e.weight).float? = some e.weight) (layout : Graph.Layout) :
    ∃ w' g', (start.follow steps).parse (g.write layout) = .ok (w', (start.follow steps).graphs.length) ∧
      w'.graphs = (start.follow steps).graphs ++ [g'] ∧
      g'.categories = g.categories ∧ g'.nodes = g.nodes ∧ g'.edges = g.edges ∧
      start.made < g'.epoch ∧ (∀ m ∈ start.makes steps, m.epoch < g'.epoch) ∧
      ((∀ m, ¬ start.Present m) → (∀ s ∈ steps, s.KeepsFiles) → ∀ m, start.Occurs steps m → m.epoch < g'.epoch) := by
  obtain ⟨w, hw⟩ : ∃ w, w = start.follow steps := ⟨_, rfl⟩
  have hread : Graph.read w.nextEpoch (g.write layout) = .ok { g with epoch := w.nextEpoch } := by
    rw [Graph.read_write hfits, Graph.mapM_reread? hweights]
    dsimp only
    rw [Graph.check_epoch, hvalid]
  have hparse : w.parse (g.write layout) = .ok (w.keep { g with epoch := w.nextEpoch }) := by
    rw [parse, hread]
    rfl
  rw [← hw, hparse]
  refine ⟨_, _, rfl, rfl, rfl, rfl, rfl, ?_, ?_, ?_⟩
  · rw [hw]
    exact Nat.lt_succ_of_le (made_le_made_follow start steps)
  · intro m hm
    rw [hw]
    exact Nat.lt_succ_of_le (epoch_le_made hm).2
  · intro hstart hsteps m hm
    rw [hw]
    exact epoch_lt_nextEpoch hstart hsteps hm

/-- Two files with odd names and texts, and an edge between them. -/
def oddGraph : Graph where
  categories := ["General", "quote \" and \\", "😀\n\t\x01"]
  nodes := [⟨"a\x7f.ts", 3, 40, 2, .ofList [("f", ⟨1, 2⟩), ("\x1f\"", ⟨2, 1⟩)], "tab\t", ["./b"]⟩,
    ⟨"b", 0, 0, 0, .empty, "", []⟩]
  edges := [⟨0, 1, 0.69⟩]
  epoch := 7

theorem parse_write_sample : oddGraph.check = .ok () ∧ ∀ layout, ∃ w' g',
    (Workspace.empty.follow [.action .build]).parse (oddGraph.write layout) = .ok (w', 1) ∧
      g' ∈ w'.graphs ∧ g'.nodes = oddGraph.nodes ∧ 1 < g'.epoch := by
  have hcheck : oddGraph.check = .ok () := by decide +kernel
  have hweights : ∀ e ∈ oddGraph.edges, (Json.ofFloat e.weight).float? = some e.weight := by decide +kernel
  have hfits : oddGraph.Fits := by decide +kernel
  refine ⟨hcheck, fun layout => ?_⟩
  obtain ⟨w', g', hparse, hgraphs, -, hnodes, -, -, hmade, -⟩ :=
    parse_write .empty [.action .build] hcheck hfits hweights layout
  refine ⟨w', g', hparse, ?_, hnodes, hmade _ (List.mem_singleton_self _)⟩
  rw [hgraphs]
  exact List.mem_append_right _ (List.mem_singleton_self _)

end Workspace

end FileGraph
