import FileGraph.Proofs.Repository.Assembly
import FileGraph.Proofs.Session.Run
/-!
# Steps — where the graphs of a workspace come from

Beside the actions on a workspace a caller may copy the graph that the session shows, fill a builder of its own, or use
another analyser; a step is any of these.  All that the later theorems need of a step is what it says of the graphs
(`present_take`): a graph that is there after it was there before, or the step has made it under the next epoch, or has
changed or categorized one that was there.
-/
namespace FileGraph

open Categorization (Failure)

theorem Session.current_merge {s : Session} {epoch : Epoch} {answer : Except Failure Categorization} {g : Graph}
    (h : (s.merge epoch answer).1.current = some g) :
    s.current = some g ∨ ∃ c g₀ n, s.current = some g₀ ∧ g₀.categorize c = .ok (g, n) := by
  unfold merge at h
  split at h
  · exact .inl h
  · rename_i c
    split at h
    · exact .inl h
    · rename_i g₀ hg₀
      split at h
      · split at h
        · rename_i g' n hok
          simp only [Option.some.injEq] at h
          subst h
          exact .inr ⟨c, g₀, n, hg₀, hok⟩
        · exact .inl h
      · exact .inl h

namespace Workspace

/-- One thing that happens to a workspace, or beside it. -/
inductive Step where
  | action (a : Action)
  /-- A caller takes a copy of the graph that the session shows. -/
  | snapshot
  /-- A builder of its own is filled by calls and finished. -/
  | assemble (calls : List Builder.Call)
  /-- Another analyser is used, with a cache and files of its own. -/
  | exchange (cache : Cache) (storage : Storage)

def take (w : Workspace) : Step → Workspace
  | .action a => (w.perform a).1
  | .snapshot => { w with graphs := w.graphs ++ w.session.current.toList }
  | .assemble calls => (w.keep ((Builder.ofCalls calls).build w.nextEpoch)).1
  | .exchange cache storage => { w with cache := cache, storage := storage }

/-- The workspace after steps, one after another. -/
def follow (w : Workspace) (steps : List Step) : Workspace := steps.foldl take w

theorem follow_append (w : Workspace) (steps more : List Step) :
    w.follow (steps ++ more) = (w.follow steps).follow more :=
  List.foldl_append

/-- Somebody has the graph: a caller, or the session. -/
def Present (w : Workspace) (g : Graph) : Prop := g ∈ w.graphs ∨ w.session.current = some g

/-! ## Graphs that are made -/

/-- The graph that an action makes, if it makes one. -/
def Action.made? (w : Workspace) : Action → Option Graph
  | .build => some (w.builder.build w.nextEpoch)
  | .parse text => (Graph.read w.nextEpoch text).toOption
  | .analyze settings data root =>
    (Repository.analyze settings w.cache w.storage w.nextEpoch data root).toOption.map (·.1)
  | _ => none

def Step.made? (w : Workspace) : Step → Option Graph
  | .action a => a.made? w
  | .assemble calls => some ((Builder.ofCalls calls).build w.nextEpoch)
  | _ => none


/-- A graph is made by a builder or read from a text. -/
theorem made?_cases {w : Workspace} {s : Step} {g : Graph} (h : s.made? w = some g) :
    g = w.builder.build w.nextEpoch ∨ (∃ calls, g = (Builder.ofCalls calls).build w.nextEpoch) ∨
      ∃ text, Graph.read w.nextEpoch text = .ok g := by
  cases s with
  | assemble calls =>
    cases h
    exact .inr (.inl ⟨calls, rfl⟩)
  | action a =>
    cases a with
    | build =>
      cases h
      exact .inl rfl
    | parse text =>
      simp only [Step.made?, Action.made?] at h
      cases hread : Graph.read w.nextEpoch text with
      | error e =>
        rw [hread] at h
        cases h
      | ok g' =>
        rw [hread] at h
        cases h
        exact .inr (.inr ⟨text, hread⟩)
    | analyze settings data root =>
      simp only [Step.made?, Action.made?] at h
      cases hanalyze : Repository.analyze settings w.cache w.storage w.nextEpoch data root with
      | error f =>
        rw [hanalyze] at h
        cases h
      | ok r =>
        rw [hanalyze] at h
        cases h
        exact .inr (.inl (Repository.analyze_eq_ok hanalyze))
    | _ => cases h
  | _ => cases h

theorem epoch_of_made? {w : Workspace} {s : Step} {g : Graph} (h : s.made? w = some g) : g.epoch = w.nextEpoch := by
  rcases made?_cases h with rfl | ⟨calls, rfl⟩ | ⟨text, hread⟩
  · rfl
  · rfl
  · exact (Graph.read_eq_ok hread).1

/-- **What an action does to the graphs of callers**: one that is made uses up an epoch and goes to their end, as a
copy does, and one is changed where it stands. -/
theorem graphs_perform (w : Workspace) (a : Action) :
    (w.perform a).1.made = w.made + (a.made? w).toList.length ∧
    (w.perform a).1.graphs =
      match a with
      | .change i f => w.graphs.modify i f
      | .copy i => w.graphs ++ w.graphs[i]?.toList
      | .categorize i c =>
        match w.graphs[i]? with
        | some g =>
          match g.categorize c with
          | .ok (g', _) => w.graphs.modify i fun _ => g'
          | .error _ => w.graphs
        | none => w.graphs
      | a => w.graphs ++ (a.made? w).toList := by
  cases a with
  | parse text =>
    simp only [perform, parse, Action.made?]
    cases Graph.read w.nextEpoch text <;> simp [orKeep, keep, Except.map, Except.toOption]
  | analyze settings data root =>
    simp only [perform, analyze, Action.made?]
    cases Repository.analyze settings w.cache w.storage w.nextEpoch data root <;>
      simp [orKeep, keep, Except.map, Except.toOption]
  | copy i =>
    simp only [perform, copy, Action.made?]
    cases w.graphs[i]? <;> simp
  | categorize i c =>
    simp only [perform, categorize, Action.made?]
    cases w.graphs[i]? with
    | none => exact ⟨rfl, rfl⟩
    | some g =>
      simp only
      cases g.categorize c <;> exact ⟨rfl, rfl⟩
  | install i =>
    simp only [perform, install, Action.made?]
    cases w.graphs[i]? <;> simp
  | spawn categorizer delay timeout =>
    simp only [perform, spawn, Action.made?]
    cases Task.spawn? w.session categorizer delay timeout <;> simp
  | finish number inTime =>
    simp only [perform, finish, Action.made?]
    cases w.background.pending? number <;> simp
  | build => simp [perform, build, keep, Action.made?]
  | _ => simp [perform, change, merge, elapse, addNode, addEdge, Action.made?]

theorem made_take (w : Workspace) (s : Step) : (w.take s).made = w.made + (s.made? w).toList.length := by
  cases s with
  | action a => exact (w.graphs_perform a).1
  | _ => rfl

/-! ## Graphs that are there -/

/-- How a graph comes to be there after a step. -/
inductive Brings (w : Workspace) (s : Step) (g : Graph) : Prop where
  | kept (h : w.Present g)
  | made (h : s.made? w = some g)
  | changed (i : Nat) (f : Graph → Graph) (g₀ : Graph) (hs : s = .action (.change i f)) (h : w.Present g₀)
      (hg : g = f g₀)
  | categorized (g₀ : Graph) (c : Categorization) (n : Nat) (h : w.Present g₀) (hg : g₀.categorize c = .ok (g, n))

theorem mem_modify {α : Type} {f : α → α} {x : α} : ∀ {l : List α} {i : Nat}, x ∈ l.modify i f →
    x ∈ l ∨ ∃ y, l[i]? = some y ∧ x = f y := by
  intro l i h
  obtain ⟨j, hj⟩ := List.mem_iff_getElem?.1 h
  rw [List.getElem?_modify] at hj
  obtain ⟨y, hy, rfl⟩ := Option.map_eq_some_iff.1 hj
  by_cases hij : i = j
  · subst hij
    exact .inr ⟨y, hy, by simp⟩
  · simp only [hij, if_false]
    exact .inl (List.mem_of_getElem? hy)

theorem mem_graphs_perform {w : Workspace} {a : Action} {g : Graph} (h : g ∈ (w.perform a).1.graphs) :
    Brings w (.action a) g := by
  rw [(w.graphs_perform a).2] at h
  have hmade : g ∈ w.graphs ++ (a.made? w).toList → Brings w (.action a) g := by
    intro h
    rcases List.mem_append.1 h with h | h
    · exact .kept (.inl h)
    · exact .made (Option.mem_toList.1 h)
  cases a with
  | change i f =>
    rcases mem_modify h with h | ⟨g₀, hg₀, rfl⟩
    · exact .kept (.inl h)
    · exact .changed i f g₀ rfl (.inl (List.mem_of_getElem? hg₀)) rfl
  | copy i =>
    rcases List.mem_append.1 h with h | h
    · exact .kept (.inl h)
    · exact .kept (.inl (List.mem_of_getElem? (by simpa using h)))
  | categorize i c =>
    simp only at h
    split at h
    · rename_i g₀ hg₀
      split at h
      · rename_i g' n hok
        rcases mem_modify h with h | ⟨-, -, rfl⟩
        · exact .kept (.inl h)
        · exact .categorized g₀ c n (.inl (List.mem_of_getElem? hg₀)) hok
      · exact .kept (.inl h)
    · exact .kept (.inl h)
  | _ => exact hmade h

theorem current_perform {w : Workspace} {a : Action} {g : Graph} (h : (w.perform a).1.session.current = some g) :
    Brings w (.action a) g := by
  rw [session_perform] at h
  split at h
  · rename_i g' _ hi
    cases h
    cases a with
    | install i => exact .kept (.inl (List.mem_of_getElem? hi))
    | _ => cases hi
  · rcases Session.current_merge h with h | ⟨c, g₀, n, hg₀, hok⟩
    · exact .kept (.inr h)
    · exact .categorized g₀ c n (.inr hg₀) hok
  · exact .kept (.inr h)

/-- **Where a graph comes from** that is there after a step. -/
theorem present_take {w : Workspace} {s : Step} {g : Graph} (h : (w.take s).Present g) : Brings w s g := by
  cases s with
  | action a =>
    rcases h with h | h
    · exact mem_graphs_perform h
    · exact current_perform h
  | snapshot =>
    rcases h with h | h
    · rcases List.mem_append.1 h with h | h
      · exact .kept (.inl h)
      · exact .kept (.inr (by simpa using h))
    · exact .kept (.inr h)
  | assemble calls =>
    rcases h with h | h
    · rcases List.mem_append.1 h with h | h
      · exact .kept (.inl h)
      · exact .made (by simpa [Step.made?, eq_comm] using h)
    · exact .kept (.inr h)
  | exchange cache storage => exact .kept h

end Workspace

end FileGraph
