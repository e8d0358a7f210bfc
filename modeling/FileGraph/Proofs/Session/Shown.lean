import FileGraph.Proofs.Session.Guard
/-!
# Shown — a session shows the answer that was applied last, and nothing of those before it

Two kinds of events change what a session shows: a graph is installed, or an answer is applied (`Workspace.events`).
An answer overwrites all that an earlier one has left in a graph (`Graph.categorize_categorize`).  So a session shows
nothing until something is installed; then the graph installed last, as it was given; and once answers have been
applied to it, that graph with the last of them alone (`shown_run`).
-/
namespace FileGraph

open Categorization (Failure)
open Workspace (Action)

/-- **A later answer absorbs an earlier one**, whatever files and categories either of them names. -/
theorem Graph.categorize_categorize {g g' : Graph} {c : Categorization} {n : Nat} (h : g.categorize c = .ok (g', n))
    (c' : Categorization) : g'.categorize c' = g.categorize c' := by
  rw [Graph.categorize_eq] at h
  rw [Graph.categorize_eq, Graph.categorize_eq]
  cases hc : c.check with
  | error f => rw [hc] at h; cases h
  | ok u =>
    rw [hc] at h
    cases h
    cases c'.check with
    | error f => rfl
    | ok u =>
      simp only [List.map_map]
      rfl

theorem Graph.categories_of_categorize {g g' : Graph} {c : Categorization} {n : Nat}
    (h : g.categorize c = .ok (g', n)) :
    g'.categories = c.categories ∧ ∀ node ∈ g'.nodes, node.category = c.categoryOf node.filepath := by
  rw [Graph.categorize_eq] at h
  cases hc : c.check with
  | error f => rw [hc] at h; cases h
  | ok u =>
    rw [hc] at h
    cases h
    refine ⟨rfl, fun node hnode => ?_⟩
    obtain ⟨m, -, rfl⟩ := List.mem_map.1 hnode
    rfl

/-- An applied answer is applied to the current graph, which becomes the current one. -/
theorem Session.current_of_applied {s : Session} {epoch : Epoch} {answer : Except Failure Categorization} {n : Nat}
    (h : (s.merge epoch answer).2 = .applied n) :
    ∃ c g g', answer = .ok c ∧ s.current = some g ∧ g.categorize c = .ok (g', n) ∧
      (s.merge epoch answer).1.current = some g' := by
  unfold Session.merge at h ⊢
  cases answer with
  | error cause => cases h
  | ok c =>
    cases hs : s.current with
    | none => rw [hs] at h; cases h
    | some g =>
      simp only [hs] at h ⊢
      by_cases he : g.epoch = epoch
      · rw [if_pos he] at h ⊢
        cases hg : g.categorize c with
        | error cause => rw [hg] at h; cases h
        | ok r =>
          obtain ⟨g', assigned⟩ := r
          rw [hg] at h
          cases h
          exact ⟨c, g, g', rfl, rfl, hg, rfl⟩
      · rw [if_neg he] at h
        cases h

namespace Workspace

inductive Event where
  | installed (g : Graph)
  | applied (c : Categorization)

/-- What an action brings about: it installs a graph, or merges an answer whose outcome is that it is applied. -/
def event? (w : Workspace) (a : Action) : Option Event :=
  match a.installed? w, a.asked? w, (w.perform a).2 with
  | some g, _, _ => some (.installed g)
  | none, some (_, .ok c), some (.applied _) => some (.applied c)
  | _, _, _ => none

def events : Workspace → List Action → List Event
  | _, [] => []
  | w, a :: as => (w.event? a).toList ++ events (w.perform a).1 as

/-- What a session shows after events. -/
inductive Shown : List Event → Option Graph → Prop where
  | nothing : Shown [] none
  | installed (before : List Event) (g : Graph) : Shown (before ++ [.installed g]) (some g)
  | categorized (before : List Event) (g : Graph) (cs : List Categorization) (c : Categorization) {g' : Graph} {n : Nat}
      (h : g.categorize c = .ok (g', n)) :
      Shown (before ++ .installed g :: cs.map .applied ++ [.applied c]) (some g')

/-- One more answer that is applied takes the place of those since the last install. -/
theorem Shown.applied {es : List Event} {g g' : Graph} {c : Categorization} {n : Nat} (hshown : Shown es (some g))
    (h : g.categorize c = .ok (g', n)) : Shown (es ++ [.applied c]) (some g') := by
  cases hshown with
  | installed before => exact .categorized before g [] c h
  | categorized before g₀ cs c₀ h₀ =>
    -- the answer before this one leaves no trace, so this one may as well be applied to the installed graph
    rw [Graph.categorize_categorize h₀] at h
    have hmore := Shown.categorized before g₀ (cs ++ [c₀]) c h
    rw [List.map_append] at hmore
    simpa using hmore

theorem event?_of_asked {w : Workspace} {a : Action} {epoch : Epoch} {answer : Except Failure Categorization}
    (h : a.asked? w = some (epoch, answer)) :
    (∃ c g g' n, w.event? a = some (.applied c) ∧ w.session.current = some g ∧ g.categorize c = .ok (g', n) ∧
      (w.perform a).1.session.current = some g') ∨
    (w.event? a = none ∧ (w.perform a).1.session = w.session) := by
  have hi : a.installed? w = none := by
    cases a with
    | install i => cases h
    | _ => rfl
  obtain ⟨hsession, houtcome⟩ := perform_of_asked h
  obtain ⟨o, ho, -, hkept, -⟩ := outcome_of_asked h
  have hmerged : (w.session.merge epoch answer).2 = o := Option.some.inj (houtcome.symm.trans ho)
  cases o with
  | applied n =>
    obtain ⟨c, g, g', rfl, hg, hok, hcurrent⟩ := Session.current_of_applied hmerged
    have hevent : w.event? a = some (.applied c) := by simp only [event?, hi, h, ho]
    exact .inl ⟨c, g, g', n, hevent, hg, hok, hsession ▸ hcurrent⟩
  | _ =>
    have hevent : w.event? a = none := by cases answer <;> simp only [event?, hi, h, ho]
    exact .inr ⟨hevent, hkept rfl⟩

/-- One action adds what it brings about to the events, and the session goes on showing what they say. -/
theorem Shown.perform {es : List Event} {w : Workspace} (h : Shown es w.session.current) (a : Action) :
    Shown (es ++ (w.event? a).toList) (w.perform a).1.session.current := by
  cases hq : a.asked? w with
  | some q =>
    rcases event?_of_asked hq with ⟨c, g, g', n, hevent, hg, hok, hcurrent⟩ | ⟨hevent, hsame⟩
    · rw [hevent, hcurrent]
      rw [hg] at h
      exact h.applied hok
    · rw [hevent, hsame, Option.toList_none, List.append_nil]
      exact h
  | none =>
    have hsession := session_perform w a
    cases hi : a.installed? w with
    | some g =>
      have hevent : w.event? a = some (.installed g) := by simp only [event?, hi]
      rw [hevent, hsession, hi]
      exact .installed es g
    | none =>
      have hevent : w.event? a = none := by simp only [event?, hi, hq]
      rw [hevent, hsession, hi, hq, Option.toList_none, List.append_nil]
      exact h

theorem Shown.run {es : List Event} : ∀ {w : Workspace} (as : List Action), Shown es w.session.current →
    Shown (es ++ w.events as) (w.run as).session.current
  | w, [], h => by
    rw [events, List.append_nil]
    exact h
  | w, a :: as, h => by
    have hrest := Shown.run as (h.perform a)
    rw [List.append_assoc] at hrest
    exact hrest

end Workspace

/-- **Only the answer that was applied last is visible.**  Start with a session that shows nothing, and let anything
happen in any order.  Then the session shows nothing if nothing has been installed; the graph installed last, if no
answer has been applied since; and otherwise that graph with the last applied answer, of which alone are the category
names and the category of every file. -/
theorem shown_run (start : Workspace) (h : start.session.current = none) (as : List Action) :
    Workspace.Shown (start.events as) (start.run as).session.current ∧
      ∀ c, (start.events as).getLast? = some (.applied c) →
        ∃ g, (start.run as).session.current = some g ∧ g.categories = c.categories ∧
          ∀ node ∈ g.nodes, node.category = c.categoryOf node.filepath := by
  have hshown : Workspace.Shown (start.events as) (start.run as).session.current := by
    have hstart : Workspace.Shown [] start.session.current := h ▸ .nothing
    exact hstart.run as
  refine ⟨hshown, fun c hlast => ?_⟩
  -- the case is decided by the last event, whatever the workspace was
  generalize start.events as = es at hshown hlast
  generalize (start.run as).session.current = current at hshown ⊢
  cases hshown with
  | nothing => cases hlast
  | installed before g =>
    rw [List.getLast?_concat] at hlast
    cases hlast
  | categorized before g cs c' hok =>
    rw [List.getLast?_concat] at hlast
    cases hlast
    exact ⟨_, rfl, Graph.categories_of_categorize hok⟩

def firstAnswer : Categorization := ⟨["General", "Core"], .ofList [("a.ts", "Core")]⟩

def secondAnswer : Categorization := ⟨["Docs"], .empty⟩

/-- A graph is categorized twice, between answers that are late, broken or for another graph. -/
def sampleActions : List Action :=
  [.addNode (.ofContent "a.ts" ""), .build, .merge 1 (.ok firstAnswer), .install 0, .merge 1 (.ok firstAnswer),
    .merge 2 (.ok firstAnswer), .merge 1 (.ok secondAnswer), .merge 1 (.ok ⟨[], .empty⟩),
    .merge 1 (.error (.timedOut 30))]

theorem shown_run_sample :
    Workspace.empty.session.current = none ∧
      ∃ g, (Workspace.empty.run sampleActions).session.current = some g ∧ g.categories = ["Docs"] ∧
        ∀ node ∈ g.nodes, node.category = 0 := by
  have hlast : (Workspace.empty.events sampleActions).getLast? = some (.applied secondAnswer) := by rfl
  obtain ⟨g, hg, hcategories, hnodes⟩ := (shown_run .empty rfl sampleActions).2 secondAnswer hlast
  exact ⟨rfl, g, hg, hcategories, hnodes⟩

end FileGraph
