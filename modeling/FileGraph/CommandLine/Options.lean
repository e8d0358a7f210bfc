import FileGraph.Text.Lines
/-!
# Options — what is asked for on the command line

Every argument belongs to an option: a long name after `--`, or short names in a row after `-`.  A value follows its
long name after `=`, or its short name with or without `=`, or is the next argument, which then must not look like an
option.  No option may be given twice.  A request for the version is granted as soon as it is read; everything else has
to be sound to its end.
-/
namespace FileGraph.CommandLine

open Text

/-- The form of a graph that is written. -/
inductive Format where
  | json | compactJson | summary
  deriving DecidableEq, Repr

def Format.name : Format → String
  | .json => "json"
  | .compactJson => "json-compact"
  | .summary => "summary"

def Format.ofName? (name : String) : Option Format :=
  [.json, .compactJson, .summary].find? fun f => f.name == name

/-- What can be given on the command line. -/
inductive Argument where
  | input | output | root | format | settings | categories | byFolder | cache | threads | verbose | version
  deriving DecidableEq, Repr

namespace Argument

def all : List Argument :=
  [.input, .output, .root, .format, .settings, .categories, .byFolder, .cache, .threads, .verbose, .version]

def longName : Argument → String
  | .input => "input"
  | .output => "output"
  | .root => "root"
  | .format => "format"
  | .settings => "config"
  | .categories => "categories"
  | .byFolder => "group-by-directory"
  | .cache => "cache-dir"
  | .threads => "threads"
  | .verbose => "verbose"
  | .version => "version"

def shortName? : Argument → Option Char
  | .input => some 'i'
  | .output => some 'o'
  | .root => some 'r'
  | .format => some 'f'
  | .settings => some 'c'
  | .threads => some 't'
  | .verbose => some 'v'
  | .version => some 'V'
  | .categories | .byFolder | .cache => none

/-- Whether an argument has a value; the others are switches. -/
def hasValue : Argument → Bool
  | .byFolder | .verbose | .version => false
  | _ => true

def ofLongName? (name : List Char) : Option Argument := all.find? fun a => a.longName.toList == name

def ofShortName? (name : Char) : Option Argument := all.find? fun a => a.shortName? == some name

end Argument

/-- A number of 64 bits without a sign but `+`. -/
def count? (text : String) : Option Nat :=
  let digits :=
    match text.toList with
    | '+' :: cs => cs
    | cs => cs
  if digits.isEmpty || !digits.all Char.isDigit then none
  else
    let n := digits.foldl (fun n d => 10 * n + (d.toNat - '0'.toNat)) 0
    if n < Nat.pow 2 64 then some n else none

/-- Whether a text can be the value of an argument.  Paths are not empty. -/
def Argument.accepts (a : Argument) (value : String) : Bool :=
  match a with
  | .input | .output | .settings | .categories | .cache => value != ""
  | .format => (Format.ofName? value).isSome
  | .threads => (count? value).isSome
  | .root | .byFolder | .verbose | .version => true

/-- What is wrong with a command line. -/
inductive UsageError where
  | unexpected (text : String)
  | unknown (text : String)
  | repeated (argument : Argument)
  | valueMissing (argument : Argument)
  | valueUnexpected (argument : Argument)
  | valueInvalid (argument : Argument) (value : String)
  /-- Both a file with categories and grouping by folders are asked for. -/
  | twoGroupings
  | inputMissing
  deriving DecidableEq, Repr

def UsageError.message : UsageError → String
  | .unexpected text => "unexpected argument " ++ text
  | .unknown text => "unknown option " ++ text
  | .repeated a => "--" ++ a.longName ++ " is given twice"
  | .valueMissing a => "--" ++ a.longName ++ " has no value"
  | .valueUnexpected a => "--" ++ a.longName ++ " takes no value"
  | .valueInvalid a value => value ++ " is no value of --" ++ a.longName
  | .twoGroupings => "--categories and --group-by-directory exclude each other"
  | .inputMissing => "--input is missing"

/-! ## Arguments -/

/-- The arguments that have been read, each with its value; the value of a switch is empty. -/
abbrev Given := List (Argument × String)

/-- How far reading has come. -/
inductive Reading where
  | read (given : Given)
  /-- The value of an argument is still to come. -/
  | awaits (argument : Argument) (given : Given)
  | versionAsked

def give (a : Argument) (value : String) (given : Given) : Except UsageError Reading :=
  if a = .version then .ok .versionAsked
  else if (given.lookup a).isSome then .error (.repeated a)
  else if a.accepts value then .ok (.read ((a, value) :: given))
  else .error (.valueInvalid a value)

/-- Reads an argument with a long name, and the value after `=` if there is one. -/
def readLong (name : List Char) (value : Option (List Char)) (given : Given) : Except UsageError Reading :=
  match Argument.ofLongName? name, value with
  | none, _ => .error (.unknown ("--" ++ .ofList name))
  | some a, some value => if a.hasValue then give a (.ofList value) given else .error (.valueUnexpected a)
  | some a, none => if a.hasValue then .ok (.awaits a given) else give a "" given

/-- Reads short names in a row.  What follows a name that has a value is the value. -/
def readShort : List Char → Given → Except UsageError Reading
  | [], given => .ok (.read given)
  | c :: cs, given =>
    match Argument.ofShortName? c with
    | none => .error (.unknown (.ofList ['-', c]))
    | some a =>
      if a.hasValue then
        match cs with
        | [] => .ok (.awaits a given)
        | '=' :: value => give a (.ofList value) given
        | value => give a (.ofList value) given
      else
        match give a "" given with
        | .ok (.read given) => readShort cs given
        | result => result

def readArgument (text : String) (given : Given) : Except UsageError Reading :=
  match text.toList with
  | '-' :: '-' :: cs =>
    match cut? '=' cs with
    | some (name, value) => readLong name (some value) given
    | none => readLong cs none given
  | '-' :: c :: cs => readShort (c :: cs) given
  | _ => .error (.unexpected text)

/-- Whether an argument looks like an option. -/
def isOption (text : String) : Bool :=
  match text.toList with
  | '-' :: _ :: _ => true
  | _ => false

/-- Reads all arguments.  Nothing may follow `--`, which ends the options. -/
def readArguments : List String → Given → Except UsageError Reading
  | [], given => .ok (.read given)
  | ["--"], given => .ok (.read given)
  | "--" :: text :: _, _ => .error (.unexpected text)
  | text :: texts, given =>
    match readArgument text given with
    | .ok (.read given) => readArguments texts given
    | .ok (.awaits a given) =>
      match texts with
      | [] => .error (.valueMissing a)
      | value :: texts =>
        if isOption value then .error (.valueMissing a)
        else
          match give a value given with
          | .ok (.read given) => readArguments texts given
          | result => result
    | result => result

/-! ## Options -/

/-- How files are put into categories. -/
inductive Grouping where
  | none
  | file (path : String)
  | byFolder
  deriving DecidableEq, Repr

/-- What an analysis is asked to do. -/
structure Options where
  input    : String
  output   : String
  root     : Option String
  format   : Format
  settings : Option String
  grouping : Grouping
  /-- The folder in which analyses are kept. -/
  cache    : Option String
  threads  : Option Nat
  verbose  : Bool
  deriving DecidableEq, Repr

inductive Request where
  | version
  | analysis (options : Options)
  deriving DecidableEq, Repr

/-- The output where none is given. -/
def defaultOutput : String := "repograph.json"

def groupingOf (given : Given) : Except UsageError Grouping :=
  match given.lookup .categories, given.lookup .byFolder with
  | some _, some _ => .error .twoGroupings
  | some path, none => .ok (.file path)
  | none, some _ => .ok .byFolder
  | none, none => .ok .none

def optionsOf (given : Given) : Except UsageError Options :=
  match groupingOf given, given.lookup .input with
  | .error e, _ => .error e
  | .ok _, none => .error .inputMissing
  | .ok grouping, some input => .ok {
      input, grouping
      output := (given.lookup .output).getD defaultOutput
      root := given.lookup .root
      format := ((given.lookup .format).bind Format.ofName?).getD .json
      settings := given.lookup .settings
      cache := given.lookup .cache
      threads := (given.lookup .threads).bind count?
      verbose := (given.lookup .verbose).isSome }

/-- What a command line asks for. -/
def Request.ofArguments (texts : List String) : Except UsageError Request :=
  match readArguments texts [] with
  | .error e => .error e
  | .ok .versionAsked => .ok .version
  | .ok (.awaits a _) => .error (.valueMissing a)
  | .ok (.read given) =>
    match optionsOf given with
    | .ok o => .ok (.analysis o)
    | .error e => .error e

end FileGraph.CommandLine
