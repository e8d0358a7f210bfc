import FileGraph.CommandLine.Options
import FileGraph.Decimal.Places
import FileGraph.Storage
/-!
# Host — what a run needs around it

A run reads and writes files, looks at the clock, and says how far it has come.  A `Host` does this for it in some
monad, so that one definition of a run serves real files as well as a `Storage`, on which runs can be reasoned about.
-/
namespace FileGraph.CommandLine

/-- What a run says.  Times are in milliseconds. -/
inductive Notice where
  | title
  | input (path : String)
  | output (path : String)
  | format (f : Format)
  | root (name : String)
  | analyzed (time files dependencies : Nat)
  | categorized (files : Nat)
  | written (path : String)
  | finished (time : Nat)
  deriving DecidableEq, Repr

/-- The text of a notice, where times are shown as `seconds` has it. -/
def Notice.text (seconds : Nat → String) : Notice → String
  | .title => "REPOGRAPH - Repository Dependency Graph"
  | .input path => "Input: " ++ path
  | .output path => "Output: " ++ path
  | .format f => "Format: " ++ f.name
  | .root name => "Root: " ++ name
  | .analyzed time files dependencies =>
    "Analysis completed in " ++ seconds time ++ " (" ++ toString files ++ " files, " ++ toString dependencies ++
      " dependencies)"
  | .categorized files => "Categorized " ++ toString files ++ " files"
  | .written path => "Analysis complete. Generated " ++ path
  | .finished time => "Total execution time: " ++ seconds time

/-- A time in seconds with two places. -/
def seconds (time : Nat) : String :=
  let hundredths := (time + 5) / 10
  let places := toString (hundredths % 100)
  toString (hundredths / 100) ++ "." ++ (if places.length < 2 then "0" ++ places else places) ++ "s"

/-- What surrounds a run. -/
structure Host (m : Type → Type) where
  say        : Notice → m Unit
  /-- Tells what went wrong without ending the run. -/
  warn       : String → m Unit
  /-- The time in milliseconds. -/
  now        : m Nat
  read       : (path : String) → m (Option (List UInt8))
  /-- Writes a file, and says whether that was possible. -/
  write      : (path : String) → List UInt8 → m Bool
  /-- Makes a folder and the folders it is in, and says whether it exists now. -/
  makeFolder : (path : String) → m Bool

/-! ## Storages -/

/-- A storage, and what has been said. -/
structure Scene where
  storage : Storage
  said    : List Notice

/-- The host that keeps its files in a storage.  No time passes. -/
def Host.onStorage : Host (StateM Scene) where
  say n := modify fun s => { s with said := s.said ++ [n] }
  warn _ := pure ()
  now := pure 0
  read path := do return (← get).storage.readPath? path
  write path bytes := do
    let s ← get
    match s.storage.writePath? path bytes with
    | some storage =>
      set { s with storage := storage }
      return true
    | none => return false
  makeFolder path := do
    let s ← get
    match s.storage.makePath? path with
    | some storage =>
      set { s with storage := storage }
      return true
    | none => return false

end FileGraph.CommandLine
