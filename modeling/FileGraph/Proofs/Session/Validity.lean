import FileGraph.Proofs.Decimal.Binary
import FileGraph.Proofs.Session.Steps
/-!
# Validity — every graph of a run is valid

A builder is sound whatever it is given, reading refuses what is not valid, and categorizing keeps a graph valid or
leaves it alone.  So the graphs that are there stay valid step by step (`Sound.take`), in any run in which callers do
not write into the fields of a graph (`valid_of_present`).
-/
namespace FileGraph.Workspace

/-- The builder is sound, and every graph that somebody has is valid. -/
structure Sound (w : Workspace) : Prop where
  builder : w.builder.Sound
  graphs  : ∀ g, w.Present g → g.Valid

theorem valid_of_made? {w : Workspace} {s : Step} {g : Graph} (hw : w.builder.Sound) (h : s.made? w = some g) :
    g.Valid := by
  rcases made?_cases h with rfl | ⟨calls, rfl⟩ | ⟨text, hread⟩
  · exact hw.valid_build w.nextEpoch
  · exact (Builder.sound_ofCalls calls).valid_build w.nextEpoch
  · exact (Graph.read_eq_ok hread).2

theorem sound_builder_perform {w : Workspace} (h : w.builder.Sound) (a : Action) : (w.perform a).1.builder.Sound := by
  cases a with
  | addNode n => exact h.addNode n
  | addEdge e => exact h.addEdge e
  | build => exact Builder.sound_empty
  | parse text =>
    simp only [perform, parse]
    cases Graph.read w.nextEpoch text <;> exact h
  | analyze settings data root =>
    simp only [perform, analyze]
    cases Repository.analyze settings w.cache w.storage w.nextEpoch data root <;> exact h
  | copy i =>
    simp only [perform, copy]
    cases w.graphs[i]? <;> exact h
  | categorize i c =>
    simp only [perform, categorize]
    cases w.graphs[i]? with
    | none => exact h
    | some g =>
      simp only
      cases g.categorize c <;> exact h
  | install i =>
    simp only [perform, install]
    cases w.graphs[i]? <;> exact h
  | spawn categorizer delay timeout =>
    simp only [perform, spawn]
    cases Task.spawn? w.session categorizer delay timeout <;> exact h
  | finish number inTime =>
    simp only [perform, finish]
    cases w.background.pending? number <;> exact h
  | _ => exact h

/-- **A step keeps graphs valid** unless it writes into one. -/
theorem Sound.take {w : Workspace} (h : w.Sound) {s : Step} (hs : ∀ i f, s ≠ .action (.change i f)) :
    (w.take s).Sound := by
  refine ⟨?_, fun g hg => ?_⟩
  · cases s with
    | action a => exact sound_builder_perform h.builder a
    | _ => exact h.builder
  · cases present_take hg with
    | kept hg => exact h.graphs g hg
    | made hg => exact valid_of_made? h.builder hg
    | changed i f g₀ hchange => exact absurd hchange (hs i f)
    | categorized g₀ c n hg₀ hok => exact (h.graphs g₀ hg₀).categorize hok

theorem Sound.follow : ∀ {w : Workspace} {steps : List Step}, w.Sound →
    (∀ i f, .action (.change i f) ∉ steps) → (w.follow steps).Sound
  | _, [], h, _ => h
  | _, s :: steps, h, hsteps => by
    have hstep := h.take (s := s) fun i f hs => hsteps i f (hs ▸ List.mem_cons_self)
    exact hstep.follow fun i f hmem => hsteps i f (List.mem_cons_of_mem _ hmem)

/-- **Every graph of a run is valid.**  Start with an empty builder and no graph, and let anything happen in any order,
except that a caller writes into a graph.  Then every graph that somebody has at any moment has a category, distinct
paths, categories that exist for all its files, ends that exist for all its edges, and weights above zero, which are
numbers; and the check finds no fault in it. -/
theorem valid_of_present {start : Workspace} (hbuilder : start.builder = .empty) (hstart : ∀ g, ¬ start.Present g)
    {steps : List Step} (hsteps : ∀ i f, .action (.change i f) ∉ steps) {g : Graph}
    (hg : (start.follow steps).Present g) :
    g.categories ≠ [] ∧ g.filepaths.Nodup ∧ (∀ n ∈ g.nodes, n.category < g.categories.length) ∧
      (∀ e ∈ g.edges, e.source < g.nodes.length ∧ e.target < g.nodes.length ∧ 0.0 < e.weight ∧
        e.weight.isNaN = false) ∧
      g.check = .ok () := by
  have hsound : start.Sound := ⟨hbuilder ▸ Builder.sound_empty, fun g hg => absurd hg (hstart g)⟩
  have hvalid : g.Valid := (hsound.follow hsteps).graphs g hg
  refine ⟨hvalid.named, hvalid.apart, hvalid.category, ?_, Graph.check_eq_ok_iff.2 hvalid⟩
  intro e he
  have hpositive := hvalid.positive e he
  exact ⟨(hvalid.ends e he).1, (hvalid.ends e he).2, hpositive, Decimal.isNaN_of_zero_lt hpositive⟩

/-- Two files and an edge are categorized by answers that shrink the list of categories, and by broken ones. -/
def validSteps : List Step :=
  [.action (.addNode (.ofContent "a.ts" "")), .action (.addNode (.ofContent "b.ts" "")),
    .action (.addEdge ⟨0, 1, 0.69⟩), .action (.addEdge ⟨1, 0, -1.0⟩), .action .build, .action (.install 0),
    .action (.merge 1 (.ok ⟨["General", "Core"], .ofList [("b.ts", "Core")]⟩)), .action (.merge 1 (.ok ⟨[], .empty⟩)),
    .action (.merge 1 (.ok ⟨["Docs"], .empty⟩)), .snapshot, .action (.categorize 1 ⟨[" "], .empty⟩)]

theorem valid_of_present_sample :
    (∀ i f, .action (.change i f) ∉ validSteps) ∧
      ∃ g, (Workspace.empty.follow validSteps).Present g ∧ g.categories = ["Docs"] ∧ g.edges.length = 1 ∧
        (∀ n ∈ g.nodes, n.category < 1) ∧ g.check = .ok () := by
  have hsteps : ∀ i f, .action (.change i f) ∉ validSteps := by simp [validSteps]
  have hbuilder : Workspace.empty.builder = .empty := rfl
  have hstart : ∀ g, ¬ Workspace.empty.Present g := by simp [Present, Workspace.empty, Session.empty]
  have hshown : (Workspace.empty.follow validSteps).session.current.map (fun g => (g.categories, g.edges.length)) =
      some (["Docs"], 1) := by decide +kernel
  obtain ⟨g, hg, hparts⟩ := Option.map_eq_some_iff.1 hshown
  obtain ⟨hcategories, hedges⟩ := Prod.mk.inj hparts
  obtain ⟨-, -, hcategory, -, hcheck⟩ := valid_of_present hbuilder hstart hsteps (.inr hg)
  rw [hcategories] at hcategory
  exact ⟨hsteps, g, .inr hg, hcategories, hedges, hcategory, hcheck⟩

end FileGraph.Workspace
