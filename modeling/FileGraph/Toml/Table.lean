import FileGraph.Json.Basic
/-!
# Table — the structure of a settings file

A settings file names places in a tree of tables, by headers and by dotted keys, and each place may be defined once.
A table is open to further definitions according to how it came about:
- one on the way to a header (`passing`) can still get a header of its own;
- one on the way of a dotted key (`dotted`) can only get further dotted keys;
- one with a header (`defined`) can get sub-tables by headers, but nothing through dotted keys from outside.
-/
namespace FileGraph.Toml

/-- How a table came about. -/
inductive Origin where
  | passing | dotted | defined
  deriving DecidableEq, Repr

/-- What stands at a place. -/
inductive Item where
  | value (document : Json)
  | table (origin : Origin) (entries : List (String × Item))
  /-- A list of tables, the latest last. -/
  | tables (items : List (List (String × Item)))

abbrev Entries := List (String × Item)

mutual

def Item.toJson : Item → Json
  | .value j => j
  | .table _ entries => .object (entriesToMembers entries)
  | .tables items => .array (tablesToJson items)

def entriesToMembers : List (String × Item) → List (Option String × Json)
  | [] => []
  | (name, item) :: es => (some name, item.toJson) :: entriesToMembers es

def tablesToJson : List (List (String × Item)) → List Json
  | [] => []
  | entries :: ts => .object (entriesToMembers entries) :: tablesToJson ts

end

/-- The entries with an item under a name, instead of the item that was there. -/
def put (name : String) (item : Item) : Entries → Entries
  | [] => [(name, item)]
  | e :: es => if e.1 = name then (name, item) :: es else e :: put name item es

/-- Changes the table at a path below a table of some origin, making the tables on the way.  There is no way through
values, nor for dotted keys through tables that are defined elsewhere. -/
def change (byKey : Bool) (f : Origin → Entries → Option (Origin × Entries)) :
    (path : List String) → Origin → Entries → Option (Origin × Entries)
  | [], origin, entries => f origin entries
  | name :: path, origin, entries =>
    match entries.lookup name with
    | none =>
      (change byKey f path (if byKey then .dotted else .passing) []).map fun t =>
        (origin, put name (.table t.1 t.2) entries)
    | some (.value _) => none
    | some (.tables items) =>
      match items.getLast? with
      | none => none
      | some last =>
        (change byKey f path .defined last).map fun t => (origin, put name (.tables (items.dropLast ++ [t.2])) entries)
    | some (.table o es) =>
      if byKey && o == .defined then none
      else (change byKey f path o es).map fun t => (origin, put name (.table t.1 t.2) entries)

/-- Defines a value in a table.  A key without dots goes into a table that is no dotted one, and a dotted key into one
that is. -/
def define (simple : Bool) (name : String) (value : Json) (origin : Origin) (entries : Entries) :
    Option (Origin × Entries) :=
  if (origin == .dotted) == simple || (entries.lookup name).isSome then none
  else some (origin, entries ++ [(name, .value value)])

/-- Defines the value of a key in a table. -/
def defineKey (path : List String) (name : String) (value : Json) (origin : Origin) (entries : Entries) :
    Option (Origin × Entries) :=
  change true (define path.isEmpty name value) path origin entries

/-- Gives a table its header. -/
def openTable (name : String) (origin : Origin) (entries : Entries) : Option (Origin × Entries) :=
  match entries.lookup name with
  | none => some (origin, entries ++ [(name, .table .defined [])])
  | some (.table .passing es) => some (origin, put name (.table .defined es) entries)
  | _ => none

/-- Adds a table to a list of tables. -/
def addTable (name : String) (origin : Origin) (entries : Entries) : Option (Origin × Entries) :=
  match entries.lookup name with
  | none => some (origin, entries ++ [(name, .tables [[]])])
  | some (.tables items) => some (origin, put name (.tables (items ++ [[]])) entries)
  | _ => none

end FileGraph.Toml
