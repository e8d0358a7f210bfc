import FileGraph.Session.Workspace
/-!
# Run — whatever happens to a workspace, in any order

An action is one thing that a caller does, or one task that ends (`Workspace.Action`).  A task may end at any moment
after it has been spawned, with the answer of its adapter or with a timeout, so that a run is any list of actions.
Waiting for a task is the run of the tasks that end meanwhile (`await_eq_run`).

An action reaches the session in two ways only: it installs a graph, or it merges an answer (`session_perform`).  A
task that is pending is the one that was spawned under its number (`pending?_run`).
-/
namespace FileGraph

open Categorization (Failure)

/-- The task with a number, if it has not ended. -/
def Background.pending? (b : Background) (number : Nat) : Option Task :=
  match b.tasks[number]? with
  | some (.waiting t) => some t
  | some (.running t _) => some t
  | _ => none

namespace Workspace

/-- One thing that happens. -/
inductive Action where
  | addNode (n : FileNode)
  | addEdge (e : Edge)
  | build
  | parse (text : String)
  | analyze (settings : Settings) (data : ByteArray) (root : Option String)
  /-- A caller changes a graph of its own. -/
  | change (i : Nat) (f : Graph → Graph)
  | copy (i : Nat)
  | categorize (i : Nat) (c : Categorization)
  | install (i : Nat)
  | merge (epoch : Epoch) (answer : Except Failure Categorization)
  | spawn (categorizer : Categorizer) (delay : Option Nat) (timeout : Nat)
  /-- Somebody waits, and the clock runs to a time. -/
  | elapse (time : Nat)
  /-- A pending task ends, with the answer of its adapter or with a timeout. -/
  | finish (number : Nat) (inTime : Bool)

/-- The workspace after an attempt that may fail. -/
def orKeep {ε α : Type} (w : Workspace) : Except ε (Workspace × α) → Workspace
  | .ok (w', _) => w'
  | .error _ => w

/-- Keeps a copy of the graph at a position. -/
def copy (w : Workspace) (i : Nat) : Workspace :=
  match w.graphs[i]? with
  | some g => { w with graphs := w.graphs ++ [g] }
  | none => w

/-- Starts the tasks that have not run yet and lets the clock run. -/
def elapse (w : Workspace) (time : Nat) : Workspace :=
  { w with background := { w.background.start with now := time } }

/-- Ends a pending task. -/
def finish (w : Workspace) (number : Nat) (inTime : Bool) : Workspace × Option Outcome :=
  match w.background.pending? number with
  | some t =>
    let (s, outcome) := w.session.merge t.epoch (t.answer inTime)
    ({ w with
        session := s
        background := { w.background with tasks := w.background.tasks.set number (.done outcome) } }, some outcome)
  | none => (w, none)

/-- The workspace after an action, and what has become of the answer that it merges. -/
def perform (w : Workspace) : Action → Workspace × Option Outcome
  | .addNode n => ((w.addNode n).1, none)
  | .addEdge e => ((w.addEdge e).1, none)
  | .build => (w.build.1, none)
  | .parse text => (w.orKeep (w.parse text), none)
  | .analyze settings data root => (w.orKeep (w.analyze settings data root), none)
  | .change i f => (w.change i f, none)
  | .copy i => (w.copy i, none)
  | .categorize i c => (w.orKeep (w.categorize i c), none)
  | .install i => ((w.install i).1, none)
  | .merge epoch answer =>
    let (w, outcome) := w.merge epoch answer
    (w, some outcome)
  | .spawn categorizer delay timeout => ((w.spawn categorizer delay timeout).1, none)
  | .elapse time => (w.elapse time, none)
  | .finish number inTime => w.finish number inTime

/-- The workspace after actions, one after another. -/
def run (w : Workspace) (actions : List Action) : Workspace := actions.foldl (fun w a => (w.perform a).1) w

theorem run_append (w : Workspace) (as bs : List Action) : w.run (as ++ bs) = (w.run as).run bs := List.foldl_append

/-! ## What reaches the session -/

/-- The epoch and the answer that an action merges. -/
def Action.asked? (w : Workspace) : Action → Option (Epoch × Except Failure Categorization)
  | .merge epoch answer => some (epoch, answer)
  | .finish number inTime => (w.background.pending? number).map fun t => (t.epoch, t.answer inTime)
  | _ => none

/-- The graph that an action installs. -/
def Action.installed? (w : Workspace) : Action → Option Graph
  | .install i => w.graphs[i]?
  | _ => none

theorem orKeep_parse (w : Workspace) (text : String) :
    (w.orKeep (w.parse text)).session = w.session ∧ (w.orKeep (w.parse text)).background = w.background := by
  rw [parse]
  cases Graph.read w.nextEpoch text <;> exact ⟨rfl, rfl⟩

theorem orKeep_analyze (w : Workspace) (settings : Settings) (data : ByteArray) (root : Option String) :
    (w.orKeep (w.analyze settings data root)).session = w.session ∧
      (w.orKeep (w.analyze settings data root)).background = w.background := by
  rw [analyze]
  cases Repository.analyze settings w.cache w.storage w.nextEpoch data root <;> exact ⟨rfl, rfl⟩

theorem orKeep_categorize (w : Workspace) (i : Nat) (c : Categorization) :
    (w.orKeep (w.categorize i c)).session = w.session ∧ (w.orKeep (w.categorize i c)).background = w.background := by
  rw [categorize]
  cases w.graphs[i]? with
  | none => exact ⟨rfl, rfl⟩
  | some g => simp only; cases g.categorize c <;> exact ⟨rfl, rfl⟩

/-- **An action reaches the session by the graph that it installs or the answer that it merges**, and by nothing
else. -/
theorem session_perform (w : Workspace) (a : Action) :
    (w.perform a).1.session =
      match a.installed? w, a.asked? w with
      | some g, _ => w.session.install g
      | none, some (epoch, answer) => (w.session.merge epoch answer).1
      | none, none => w.session := by
  cases a with
  | parse text => exact (w.orKeep_parse text).1
  | analyze settings data root => exact (w.orKeep_analyze settings data root).1
  | categorize i c => exact (w.orKeep_categorize i c).1
  | copy i =>
    simp only [perform, copy, Action.installed?, Action.asked?]
    cases w.graphs[i]? <;> rfl
  | install i =>
    simp only [perform, install, Action.installed?, Action.asked?]
    cases w.graphs[i]? <;> rfl
  | spawn categorizer delay timeout =>
    simp only [perform, spawn, Action.installed?, Action.asked?]
    cases Task.spawn? w.session categorizer delay timeout <;> rfl
  | finish number inTime =>
    simp only [perform, finish, Action.installed?, Action.asked?]
    cases w.background.pending? number <;> rfl
  | _ => rfl

theorem outcome_perform (w : Workspace) (a : Action) :
    (w.perform a).2 = (a.asked? w).map fun q => (w.session.merge q.1 q.2).2 := by
  cases a with
  | finish number inTime =>
    simp only [perform, finish, Action.asked?]
    cases w.background.pending? number <;> rfl
  | _ => rfl

theorem perform_of_asked {w : Workspace} {a : Action} {epoch : Epoch} {answer : Except Failure Categorization}
    (h : a.asked? w = some (epoch, answer)) :
    (w.perform a).1.session = (w.session.merge epoch answer).1 ∧
      (w.perform a).2 = some (w.session.merge epoch answer).2 := by
  have hi : a.installed? w = none := by
    cases a with
    | install i => cases h
    | _ => rfl
  rw [session_perform, outcome_perform, hi, h]
  exact ⟨rfl, rfl⟩

theorem perform_of_not_asked {w : Workspace} {a : Action} (h : a.asked? w = none) :
    (w.perform a).2 = none ∧
      ((w.perform a).1.session = w.session ∨
        ∃ i g, a = .install i ∧ w.graphs[i]? = some g ∧ (w.perform a).1.session.current = some g) := by
  rw [session_perform, outcome_perform, h]
  refine ⟨rfl, ?_⟩
  cases hi : a.installed? w with
  | none => exact .inl rfl
  | some g =>
    cases a with
    | install i => exact .inr ⟨i, g, rfl, hi, rfl⟩
    | _ => cases hi

/-! ## Tasks -/

/-- **What an action does to the tasks**: spawning adds one, waiting starts them, and an end marks one as done. -/
theorem background_perform (w : Workspace) (a : Action) :
    (w.perform a).1.background =
      match a with
      | .spawn categorizer delay timeout =>
        match Task.spawn? w.session categorizer delay timeout with
        | some t => (w.background.add t).1
        | none => w.background
      | .elapse time => { w.background.start with now := time }
      | .finish number inTime =>
        match w.background.pending? number with
        | some t =>
          { w.background with
            tasks := w.background.tasks.set number (.done (w.session.merge t.epoch (t.answer inTime)).2) }
        | none => w.background
      | _ => w.background := by
  cases a with
  | parse text => exact (w.orKeep_parse text).2
  | analyze settings data root => exact (w.orKeep_analyze settings data root).2
  | categorize i c => exact (w.orKeep_categorize i c).2
  | copy i => simp only [perform, copy]; cases w.graphs[i]? <;> rfl
  | install i => simp only [perform, install]; cases w.graphs[i]? <;> rfl
  | spawn categorizer delay timeout =>
    simp only [perform, spawn]
    cases Task.spawn? w.session categorizer delay timeout <;> rfl
  | finish number inTime =>
    simp only [perform, finish]
    cases w.background.pending? number <;> rfl
  | _ => rfl

theorem pending?_start (b : Background) (number : Nat) : b.start.pending? number = b.pending? number := by
  simp only [Background.pending?, Background.start, List.getElem?_map]
  cases b.tasks[number]? with
  | none => rfl
  | some p => cases p <;> rfl

theorem length_tasks_perform (w : Workspace) (a : Action) :
    w.background.tasks.length ≤ (w.perform a).1.background.tasks.length := by
  rw [background_perform]
  cases a with
  | spawn categorizer delay timeout =>
    simp only
    cases Task.spawn? w.session categorizer delay timeout with
    | none => exact Nat.le_refl _
    | some t => simp [Background.add]
  | elapse time => simp [Background.start]
  | finish number inTime =>
    simp only
    cases w.background.pending? number with
    | none => exact Nat.le_refl _
    | some t => simp
  | _ => exact Nat.le_refl _

/-- A task that is pending after an action was pending before it, if it was there. -/
theorem pending?_perform (w : Workspace) (a : Action) {number : Nat} {t : Task}
    (hlt : number < w.background.tasks.length) (h : (w.perform a).1.background.pending? number = some t) :
    w.background.pending? number = some t := by
  rw [background_perform] at h
  cases a with
  | spawn categorizer delay timeout =>
    simp only at h
    cases hs : Task.spawn? w.session categorizer delay timeout with
    | none => rw [hs] at h; exact h
    | some t' =>
      rw [hs] at h
      simp only [Background.add, Background.pending?, List.getElem?_append_left hlt] at h ⊢
      exact h
  | elapse time => exact (pending?_start w.background number).symm.trans h
  | finish number' inTime =>
    simp only at h
    cases hp : w.background.pending? number' with
    | none => rw [hp] at h; exact h
    | some t' =>
      rw [hp] at h
      by_cases hn : number' = number
      · subst hn
        simp only [Background.pending?, List.getElem?_set_self hlt] at h
        cases h
      · simp only [Background.pending?, List.getElem?_set_ne hn] at h ⊢
        exact h
  | _ => exact h

theorem pending?_run {number : Nat} {t : Task} : ∀ (w : Workspace) (as : List Action),
    number < w.background.tasks.length → (w.run as).background.pending? number = some t →
      w.background.pending? number = some t
  | _, [], _, h => h
  | w, a :: as, hlt, h => by
    have hle := length_tasks_perform w a
    have ih := pending?_run (w.perform a).1 as (by omega) h
    exact pending?_perform w a hlt ih

/-- **A pending task is the one that was spawned under its number**, whatever has happened since. -/
theorem pending?_of_spawn {w : Workspace} {categorizer : Categorizer} {delay : Option Nat} {timeout number : Nat}
    (hspawn : (w.spawn categorizer delay timeout).2 = some number) (as : List Action) {t : Task}
    (h : (w.run (.spawn categorizer delay timeout :: as)).background.pending? number = some t) :
    ∃ g, w.session.current = some g ∧ t = ⟨g.epoch, g.filepaths, categorizer, delay, timeout⟩ := by
  simp only [spawn, Task.spawn?] at hspawn
  cases hg : w.session.current with
  | none => rw [hg] at hspawn; cases hspawn
  | some g =>
    rw [hg] at hspawn
    have hnumber : number = w.background.tasks.length := (Option.some.inj hspawn).symm
    have hback : (w.perform (.spawn categorizer delay timeout)).1.background =
        (w.background.add ⟨g.epoch, g.filepaths, categorizer, delay, timeout⟩).1 := by
      rw [background_perform]
      simp only [Task.spawn?, hg, Option.map_some]
    have hlt : number < (w.perform (.spawn categorizer delay timeout)).1.background.tasks.length := by
      rw [hback, hnumber]
      simp [Background.add]
    have hp := pending?_run _ as hlt h
    rw [hback, hnumber] at hp
    simp only [Background.pending?, Background.add, List.getElem?_concat_length] at hp
    exact ⟨g, rfl, (Option.some.inj hp).symm⟩

/-! ## Waiting -/

theorem sooner_eq_some {best : Option (Nat × Task × Nat)} {p : Progress × Nat} {number d : Nat} {t : Task}
    (h : Background.sooner best p = some (number, t, d)) :
    best = some (number, t, d) ∨ p = (.running t d, number) := by
  obtain ⟨progress, i⟩ := p
  rw [Background.sooner.eq_def] at h
  split at h
  · rename_i t' d' _ _ d'' hp
    split at h
    · cases h
      exact .inr (by rw [← hp])
    · exact .inl h
  · rename_i t' d' hp
    cases h
    exact .inr (by rw [← hp])
  · exact .inl h

theorem next?_eq_some {b : Background} {number d : Nat} {t : Task} (h : b.next? = some (number, t, d)) :
    b.tasks[number]? = some (.running t d) := by
  have hfold : ∀ (ps : List (Progress × Nat)) (best : Option (Nat × Task × Nat)),
      ps.foldl Background.sooner best = some (number, t, d) →
        best = some (number, t, d) ∨ (.running t d, number) ∈ ps := by
    intro ps
    induction ps with
    | nil => intro best h; exact .inl h
    | cons p ps ih =>
      intro best h
      rcases ih _ h with hbest | hmem
      · rcases sooner_eq_some hbest with hbest | rfl
        · exact .inl hbest
        · exact .inr List.mem_cons_self
      · exact .inr (List.mem_cons_of_mem _ hmem)
  rcases hfold b.tasks.zipIdx none h with hnone | hmem
  · cases hnone
  · exact List.mem_zipIdx_iff_getElem?.1 hmem

/-- Finishing the tasks that end until a time is a run of their ends. -/
theorem runUntil_eq_run (time : Nat) : ∀ (count : Nat) (w : Workspace), ∃ ends : List Action,
    (∀ a ∈ ends, ∃ number inTime, a = .finish number inTime) ∧
      w.run ends =
        { w with
          session := (Background.runUntil time count w.session w.background).1
          background := (Background.runUntil time count w.session w.background).2 }
  | 0, w => ⟨[], (fun _ h => by cases h), rfl⟩
  | count + 1, w => by
    rw [Background.runUntil]
    cases hnext : w.background.next? with
    | none => exact ⟨[], (fun _ h => by cases h), rfl⟩
    | some best =>
      obtain ⟨number, t, d⟩ := best
      by_cases hd : d ≤ time
      · have hp : w.background.pending? number = some t := by
          rw [Background.pending?, next?_eq_some hnext]
        obtain ⟨ends, hends, hrun⟩ := runUntil_eq_run time count (w.finish number t.answersInTime).1
        refine ⟨.finish number t.answersInTime :: ends, fun a ha => ?_, ?_⟩
        · rcases List.mem_cons.1 ha with rfl | ha
          · exact ⟨number, _, rfl⟩
          · exact hends a ha
        · change (w.finish number t.answersInTime).1.run ends = _
          rw [hrun]
          simp only [finish, hp, if_pos hd]
          rfl
      · simp only [if_neg hd]
        exact ⟨[], (fun _ h => by cases h), rfl⟩

/-- **Waiting for a task is a run**: the clock runs, and the tasks that end meanwhile end one after another. -/
theorem await_eq_run (w : Workspace) (number : Nat) : ∃ (time : Nat) (ends : List Action),
    (∀ a ∈ ends, ∃ number inTime, a = .finish number inTime) ∧
      (w.await number).1 = w.run (.elapse time :: ends) := by
  obtain ⟨ends, hends, hrun⟩ := runUntil_eq_run (w.background.start.endOf number) w.background.start.tasks.length
    (w.elapse (w.background.start.endOf number))
  refine ⟨w.background.start.endOf number, ends, hends, ?_⟩
  change _ = (w.elapse (w.background.start.endOf number)).run ends
  rw [hrun]
  rfl

end Workspace

end FileGraph
