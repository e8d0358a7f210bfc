import FileGraph.Session.Basic
/-!
# Background — categorizations that answer later

A task asks an adapter for the graph that is current when it is spawned, and merges the answer when it arrives, or a
timeout in its place.  Time only passes while somebody waits: `await` starts the tasks that have not run yet, lets the
clock run to the end of the awaited task and finishes every task that ends until then, in the order of their ends.
-/
namespace FileGraph

open Categorization (Failure)

/-- A categorization that has been asked for. -/
structure Task where
  /-- The epoch of the graph it was asked for. -/
  epoch       : Epoch
  /-- The paths that the adapter is asked about. -/
  filepaths   : List String
  categorizer : Categorizer
  /-- The milliseconds until the adapter answers, if it ever does. -/
  delay       : Option Nat
  /-- The milliseconds after which the answer is given up. -/
  timeout     : Nat

namespace Task

/-- Whether the answer comes in time.  An immediate answer always does. -/
def answersInTime (t : Task) : Bool :=
  match t.delay with
  | some d => d == 0 || decide (d < t.timeout)
  | none => false

/-- The milliseconds from the start of a task to its end. -/
def duration (t : Task) : Nat :=
  match t.delay with
  | some d => min d t.timeout
  | none => t.timeout

/-- What a task merges, depending on whether the answer comes in time. -/
def answer (t : Task) (inTime : Bool) : Except Failure Categorization :=
  if inTime then t.categorizer.answer t.filepaths else .error (.timedOut (t.timeout / 1000))

/-- What a task merges in the end. -/
def result (t : Task) : Except Failure Categorization := t.answer t.answersInTime

/-- The task for the current graph of a session, if there is one. -/
def spawn? (s : Session) (categorizer : Categorizer) (delay : Option Nat) (timeout : Nat) : Option Task :=
  s.current.map fun g => ⟨g.epoch, g.filepaths, categorizer, delay, timeout⟩

def finish (t : Task) (s : Session) : Session × Outcome := s.merge t.epoch t.result

end Task

/-- A task and how far it has come. -/
inductive Progress where
  | waiting (task : Task)
  | running (task : Task) (deadline : Nat)
  | done (outcome : Outcome)

/-- The tasks of a session, in the order in which they were spawned, and the time. -/
structure Background where
  now   : Nat
  tasks : List Progress

namespace Background

/-- No tasks yet. -/
def empty : Background := ⟨0, []⟩

/-- Adds a task and gives its number. -/
def add (b : Background) (t : Task) : Background × Nat := (⟨b.now, b.tasks ++ [.waiting t]⟩, b.tasks.length)

/-- Starts the tasks that have not run yet. -/
def start (b : Background) : Background :=
  { b with tasks := b.tasks.map fun p =>
      match p with
      | .waiting t => .running t (b.now + t.duration)
      | p => p }

/-- The one of two running tasks that ends first, and the one before where they end together. -/
def sooner (best : Option (Nat × Task × Nat)) (p : Progress × Nat) : Option (Nat × Task × Nat) :=
  match p.1, best with
  | .running t d, some (_, _, d') => if d < d' then some (p.2, t, d) else best
  | .running t d, none => some (p.2, t, d)
  | _, _ => best

/-- The running task that ends first, and of several the one spawned first: its number, itself and its end. -/
def next? (b : Background) : Option (Nat × Task × Nat) := b.tasks.zipIdx.foldl sooner none

/-- Finishes the tasks that end until a time, in the order of their ends, at most `count` of them. -/
def runUntil (time : Nat) : (count : Nat) → Session → Background → Session × Background
  | 0, s, b => (s, b)
  | count + 1, s, b =>
    match b.next? with
    | some (i, t, d) =>
      if d ≤ time then
        let (s, outcome) := t.finish s
        runUntil time count s { b with tasks := b.tasks.set i (.done outcome) }
      else (s, b)
    | none => (s, b)

/-- The time at which a task has ended. -/
def endOf (b : Background) (number : Nat) : Nat :=
  match b.tasks[number]? with
  | some (.running _ d) => max b.now d
  | _ => b.now

/-- What has become of a task that has ended. -/
def outcome? (b : Background) (number : Nat) : Option Outcome :=
  match b.tasks[number]? with
  | some (.done outcome) => some outcome
  | _ => none

/-- Waits for a task, and gives its outcome. -/
def await (s : Session) (b : Background) (number : Nat) : Session × Background × Option Outcome :=
  let b := b.start
  let time := b.endOf number
  let (s, b) := runUntil time b.tasks.length s { b with now := time }
  (s, b, b.outcome? number)

end Background

end FileGraph
