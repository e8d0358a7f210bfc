import FileGraph.Proofs.Categorization.Repointing
import FileGraph.Proofs.Session.Run
/-!
# Guard — an answer lands on the graph it was asked for, or nowhere

Merging has two cases (`Session.merge_cases`): the answer can be used and its epoch is that of the current graph, which
then changes in its categories only, or the session stays as it was.  With what an action merges, this holds at every
moment of every run (`epoch_guard`).
-/
namespace FileGraph

open Categorization (Failure)
open Workspace (Action)

/-- Two graphs that differ at most in the names of the categories and in the categories of the files. -/
structure Graph.SameButCategories (g g' : Graph) : Prop where
  epoch : g'.epoch = g.epoch
  edges : g'.edges = g.edges
  nodes : g'.nodes.map (fun n => { n with category := 0 }) = g.nodes.map fun n => { n with category := 0 }

theorem Graph.categorize_of_check {g : Graph} {c : Categorization} (h : c.check = .ok ()) :
    ∃ g' n, g.categorize c = .ok (g', n) ∧ g.SameButCategories g' := by
  rw [Graph.categorize_eq, h]
  refine ⟨_, _, rfl, rfl, rfl, ?_⟩
  simp only [List.map_map]
  rfl

theorem Graph.categorize_of_not_check {g : Graph} {c : Categorization} {f : Failure} (h : c.check = .error f) :
    g.categorize c = .error f := by
  rw [Graph.categorize_eq, h]

/-- Whether an answer can be used and belongs to the current graph of a session. -/
def Session.Accepts (s : Session) (epoch : Epoch) (answer : Except Failure Categorization) : Prop :=
  ∃ c g, answer = .ok c ∧ c.check = .ok () ∧ s.current = some g ∧ g.epoch = epoch

/-- **The two cases of a merge.** -/
theorem Session.merge_cases (s : Session) (epoch : Epoch) (answer : Except Failure Categorization) :
    (s.Accepts epoch answer ∧ ∃ g g' n, s.current = some g ∧ g.SameButCategories g' ∧
      s.merge epoch answer = (⟨some g'⟩, .applied n)) ∨
    (¬ s.Accepts epoch answer ∧ ∃ o, o.isApplied = false ∧ s.merge epoch answer = (s, o)) := by
  cases answer with
  | error f =>
    refine .inr ⟨?_, _, rfl, rfl⟩
    rintro ⟨c, g, hc, -⟩
    cases hc
  | ok c =>
    cases hs : s.current with
    | none =>
      refine .inr ⟨?_, .stale epoch none, rfl, by rw [merge, hs]⟩
      rintro ⟨c', g, -, -, hg, -⟩
      rw [hs] at hg
      cases hg
    | some g =>
      by_cases he : g.epoch = epoch
      · cases hc : c.check with
        | ok u =>
          obtain ⟨g', n, hok, hsame⟩ := Graph.categorize_of_check (g := g) hc
          refine .inl ⟨⟨c, g, rfl, hc, hs, he⟩, g, g', n, rfl, hsame, ?_⟩
          simp only [merge, hs, if_pos he, hok]
        | error f =>
          refine .inr ⟨?_, .failed f, rfl, ?_⟩
          · rintro ⟨c', g', hc', hcheck, -⟩
            cases hc'
            rw [hc] at hcheck
            cases hcheck
          · simp only [merge, hs, if_pos he, Graph.categorize_of_not_check hc]
      · refine .inr ⟨?_, .stale epoch (some g.epoch), rfl, by simp only [merge, hs, if_neg he]⟩
        rintro ⟨c', g', -, -, hg, heq⟩
        rw [hs] at hg
        cases hg
        exact he heq

namespace Workspace

/-- One action changes the session by an install or by an answer that is applied, or not at all. -/
theorem session_changes (w : Workspace) (a : Action) :
    (w.perform a).1.session = w.session ∨
      (∃ i g, a = .install i ∧ w.graphs[i]? = some g ∧ (w.perform a).1.session.current = some g) ∨
      ∃ n, (w.perform a).2 = some (.applied n) := by
  cases hq : a.asked? w with
  | none =>
    rcases (perform_of_not_asked hq).2 with hsame | hinstall
    · exact .inl hsame
    · exact .inr (.inl hinstall)
  | some q =>
    obtain ⟨hsession, houtcome⟩ := perform_of_asked hq
    rcases w.session.merge_cases q.1 q.2 with ⟨-, g, g', n, -, -, hmerge⟩ | ⟨-, o, -, hmerge⟩
    · rw [hmerge] at houtcome
      exact .inr (.inr ⟨n, houtcome⟩)
    · rw [hmerge] at hsession
      exact .inl hsession

/-- An action that merges an answer applies it exactly if the session accepts it, and leaves the session otherwise. -/
theorem outcome_of_asked {w : Workspace} {a : Action} {epoch : Epoch} {answer : Except Failure Categorization}
    (h : a.asked? w = some (epoch, answer)) :
    ∃ o, (w.perform a).2 = some o ∧ (o.isApplied = true ↔ w.session.Accepts epoch answer) ∧
      (o.isApplied = false → (w.perform a).1.session = w.session) ∧
      (o.isApplied = true → ∃ g g', w.session.current = some g ∧ (w.perform a).1.session.current = some g' ∧
        g.SameButCategories g') := by
  obtain ⟨hsession, houtcome⟩ := perform_of_asked h
  refine ⟨_, houtcome, ?_⟩
  rcases w.session.merge_cases epoch answer with ⟨haccepts, g, g', n, hg, hsame, hmerge⟩ | ⟨hnot, o, ho, hmerge⟩
  · rw [hmerge] at hsession ⊢
    exact ⟨⟨fun _ => haccepts, fun _ => rfl⟩, (fun h => by cases h), fun _ => ⟨g, g', hg, by rw [hsession], hsame⟩⟩
  · rw [hmerge] at hsession ⊢
    simp only [ho]
    exact ⟨⟨(fun h => by cases h), fun h => absurd h hnot⟩, fun _ => hsession, fun h => by cases h⟩

/-- A task that ends merges the answer to what was asked when it was spawned. -/
theorem asked?_of_spawn {w : Workspace} {categorizer : Categorizer} {delay : Option Nat} {timeout number : Nat}
    (hspawn : (w.spawn categorizer delay timeout).2 = some number) (later : List Action) {inTime : Bool} {epoch : Epoch}
    {answer : Except Failure Categorization}
    (h : (Action.finish number inTime).asked? (w.run (.spawn categorizer delay timeout :: later)) =
      some (epoch, answer)) :
    ∃ g, w.session.current = some g ∧ epoch = g.epoch ∧
      answer = if inTime then categorizer.answer g.filepaths else .error (.timedOut (timeout / 1000)) := by
  obtain ⟨t, ht, hq⟩ := Option.map_eq_some_iff.1 h
  obtain ⟨g, hg, rfl⟩ := pending?_of_spawn hspawn later ht
  cases hq
  exact ⟨g, hg, rfl, rfl⟩

end Workspace

/-- **The epoch guard**, at every moment of every run.  The session changes only by an install or by an answer that is
applied.  An answer is applied exactly if it can be used and the graph that is current at that moment has its epoch;
otherwise the session stays as it was.  An applied answer changes nothing but categories.  The answer of a task has the
epoch of the graph that was current when the task was spawned, and is what its adapter says of the paths of that graph,
or a timeout. -/
theorem epoch_guard (start : Workspace) (before : List Action) (a : Action) :
    let w := start.run before
    let after := (w.perform a).1
    let outcome? := (w.perform a).2
    (after.session = w.session ∨
      (∃ i g, a = .install i ∧ w.graphs[i]? = some g ∧ after.session.current = some g) ∨
      ∃ n, outcome? = some (.applied n)) ∧
    (a.asked? w = none → outcome? = none) ∧
    (∀ epoch answer, a.asked? w = some (epoch, answer) →
      ∃ o, outcome? = some o ∧
        (o.isApplied = true ↔
          ∃ c g, answer = .ok c ∧ c.check = .ok () ∧ w.session.current = some g ∧ g.epoch = epoch) ∧
        (o.isApplied = false → after.session = w.session) ∧
        (o.isApplied = true →
          ∃ g g', w.session.current = some g ∧ after.session.current = some g' ∧ g.SameButCategories g')) ∧
    (∀ earlier later categorizer delay timeout number inTime epoch answer,
      before = earlier ++ .spawn categorizer delay timeout :: later →
      ((start.run earlier).spawn categorizer delay timeout).2 = some number →
      a = .finish number inTime → a.asked? w = some (epoch, answer) →
        ∃ g, (start.run earlier).session.current = some g ∧ epoch = g.epoch ∧
          answer = if inTime then categorizer.answer g.filepaths else .error (.timedOut (timeout / 1000))) := by
  refine ⟨Workspace.session_changes _ a, fun h => (Workspace.perform_of_not_asked h).1,
    fun epoch answer h => Workspace.outcome_of_asked h, ?_⟩
  intro earlier later categorizer delay timeout number inTime epoch answer hbefore hspawn ha h
  rw [ha, hbefore, Workspace.run_append] at h
  exact Workspace.asked?_of_spawn hspawn later h

/-- A graph with one file is being categorized when another graph takes its place. -/
def lateActions : List Action :=
  [.addNode (.ofContent "src/a.ts" ""), .build, .install 0, .spawn .directory none 5, .build, .install 1]

/-- The answer is a good one for the graph that it was asked for, and comes too late. -/
theorem epoch_guard_late :
    let w := Workspace.empty.run lateActions
    let c := Categorizer.byFolder ["src/a.ts"]
    (Action.finish 0 true).asked? w = some (1, .ok c) ∧ c.check = .ok () ∧
      (∃ g, (Workspace.empty.run (lateActions.take 3)).session.current = some g ∧ g.epoch = 1 ∧
        Categorizer.directory.answer g.filepaths = .ok c) ∧
      w.session.current.map (·.epoch) = some 2 ∧
      (∃ o, (w.perform (.finish 0 true)).2 = some o ∧ o.isApplied = false) ∧
      (w.perform (.finish 0 true)).1.session = w.session := by
  intro w c
  obtain ⟨-, -, hmerged, hspawned⟩ := epoch_guard .empty lateActions (.finish 0 true)
  have hasked : (Action.finish 0 true).asked? w = some (1, .ok c) := by rfl
  have hcurrent : w.session.current.map (·.epoch) = some 2 := by rfl
  obtain ⟨o, ho, happlied, hkept, -⟩ := hmerged 1 (.ok c) hasked
  have hnot : o.isApplied = false := by
    refine Bool.eq_false_iff.2 fun h => ?_
    obtain ⟨-, g, -, -, hg, hepoch⟩ := happlied.1 h
    rw [hg, Option.map_some, hepoch] at hcurrent
    cases hcurrent
  obtain ⟨g, hg, hepoch, hanswer⟩ :=
    hspawned (lateActions.take 3) [.build, .install 1] .directory none 5 0 true 1 (.ok c) rfl rfl rfl hasked
  exact ⟨hasked, by decide +kernel, ⟨g, hg, hepoch.symm, hanswer.symm⟩, hcurrent, ⟨o, ho, hnot⟩, hkept hnot⟩

end FileGraph
