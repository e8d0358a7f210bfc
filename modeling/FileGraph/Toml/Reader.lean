import FileGraph.Toml.Scalar
import FileGraph.Toml.Table
/-!
# Reader — settings files

A settings file is a sequence of lines: a key and its value, a header in single or double brackets, or nothing; each may
end in a comment.  Values are strings, words, lists in brackets and tables in braces; only lists may be broken into
lines.  Nesting is limited.
-/
namespace FileGraph.Toml

/-- How deeply values may be nested, and how many parts a key may have. -/
def depthLimit : Nat := 80

/-- The characters of keys without quotes. -/
def isBareKeyChar (c : Char) : Bool := c.isAlphanum || c == '_' || c == '-'

def readSimpleKey (cs : List Char) : Option (String × List Char) :=
  match cs.takeWhile isBareKeyChar with
  | [] => readSimpleString cs
  | name => some (.ofList name, cs.dropWhile isBareKeyChar)

/-- The parts of a key, with dots between them. -/
def readKeyParts : (bound : Nat) → List Char → Option (List String × List Char)
  | 0, _ => none
  | n + 1, cs => do
    let (part, cs) ← readSimpleKey (skipBlanks cs)
    match skipBlanks cs with
    | '.' :: cs =>
      let (parts, cs) ← readKeyParts n cs
      return (part :: parts, cs)
    | cs => return ([part], cs)

/-- A key: the tables on its way, and its last part. -/
def readKey (cs : List Char) : Option (List String × String × List Char) := do
  let (parts, cs) ← readKeyParts cs.length cs
  let last ← parts.getLast?
  if depthLimit ≤ parts.length then none
  return (parts.dropLast, last, cs)

/-- The rest of a line after a `#`. -/
def skipComment (cs : List Char) : List Char := cs.dropWhile isPlain

/-- The end of a line, with blanks and a comment before it. -/
def readLineEnd (cs : List Char) : Option (List Char) :=
  let cs :=
    match skipBlanks cs with
    | '#' :: cs => skipComment cs
    | cs => cs
  match cs with
  | [] => some []
  | cs => dropNewline? cs

/-- Blanks, newlines and comments. -/
def skipSpace : (bound : Nat) → List Char → List Char
  | 0, cs => cs
  | n + 1, cs =>
    match skipLines cs.length cs with
    | '#' :: cs => skipSpace n (skipComment cs)
    | cs => cs

mutual

def readValue : (bound depth : Nat) → List Char → Option (Json × List Char)
  | 0, _, _ => none
  | n + 1, depth, cs =>
    match cs with
    | '[' :: cs =>
      if depthLimit ≤ depth + 1 then none
      else (readItems n (depth + 1) (skipSpace cs.length cs)).map fun p => (.array p.1, p.2)
    | '\x7b' :: cs =>
      if depthLimit ≤ depth + 1 then none
      else
        match skipBlanks cs with
        | '\x7d' :: cs => some (.object [], cs)
        | cs => (readPairs n (depth + 1) [] cs).map fun p => (.object (entriesToMembers p.1), p.2)
    | c :: cs =>
      if c = '"' ∨ c = '\'' then (readString (c :: cs)).map fun p => (.ofString p.1, p.2) else readWord (c :: cs)
    | [] => none

/-- The items of a list up to its closing bracket, which may follow a comma. -/
def readItems : (bound depth : Nat) → List Char → Option (List Json × List Char)
  | 0, _, _ => none
  | n + 1, depth, cs =>
    match cs with
    | ']' :: cs => some ([], cs)
    | cs => do
      let (item, cs) ← readValue n depth cs
      match skipSpace cs.length cs with
      | ',' :: cs =>
        let (items, cs) ← readItems n depth (skipSpace cs.length cs)
        return (item :: items, cs)
      | ']' :: cs => return ([item], cs)
      | _ => none

/-- The pairs of a table in braces up to its closing brace. -/
def readPairs : (bound depth : Nat) → Entries → List Char → Option (Entries × List Char)
  | 0, _, _, _ => none
  | n + 1, depth, entries, cs => do
    let (path, name, cs) ← readKey cs
    match cs with
    | '=' :: cs =>
      let (value, cs) ← readValue n depth (skipBlanks cs)
      let (_, entries) ← defineKey path name value .defined entries
      match skipBlanks cs with
      | ',' :: cs => readPairs n depth entries cs
      | '\x7d' :: cs => return (entries, cs)
      | _ => none
    | _ => none

end

/-! ## Lines -/

/-- What has been read: the path of the latest header, and the top table. -/
structure State where
  header  : List String
  entries : Entries

/-- Reads a line with a key and its value. -/
def readPair (s : State) (cs : List Char) : Option (State × List Char) := do
  let (path, name, cs) ← readKey cs
  match cs with
  | '=' :: cs =>
    let (value, cs) ← readValue (2 * cs.length + 2) 0 (skipBlanks cs)
    let cs ← readLineEnd cs
    let (_, entries) ← change false (defineKey path name value) s.header .defined s.entries
    return (⟨s.header, entries⟩, cs)
  | _ => none

/-- Reads the rest of a line with a header; `closing` are its closing brackets. -/
def readHeader (closing : List Char) (f : String → Origin → Entries → Option (Origin × Entries)) (s : State)
    (cs : List Char) : Option (State × List Char) := do
  let (path, name, cs) ← readKey cs
  let cs ← Text.dropStart? closing cs
  let cs ← readLineEnd cs
  let (_, entries) ← change false (f name) path .defined s.entries
  return (⟨path ++ [name], entries⟩, cs)

/-- Reads lines to the end of the file. -/
def readFrom : (bound : Nat) → State → List Char → Option Entries
  | 0, _, _ => none
  | n + 1, s, cs =>
    match skipBlanks cs with
    | [] => some s.entries
    | '#' :: cs => (readLineEnd ('#' :: cs)).bind (readFrom n s)
    | '[' :: '[' :: cs => (readHeader [']', ']'] addTable s cs).bind fun p => readFrom n p.1 p.2
    | '[' :: cs => (readHeader [']'] openTable s cs).bind fun p => readFrom n p.1 p.2
    | cs =>
      match dropNewline? cs with
      | some cs => readFrom n s cs
      | none => (readPair s cs).bind fun p => readFrom n p.1 p.2

/-- The document of a settings file.  A byte order mark before it does not count. -/
def read? (text : List Char) : Option Json :=
  let cs :=
    match text with
    | '\ufeff' :: cs => cs
    | cs => cs
  (readFrom (cs.length + 1) ⟨[], []⟩ cs).map fun entries => .object (entriesToMembers entries)

end FileGraph.Toml
