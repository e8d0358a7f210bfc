import FileGraph.Json.Basic
/-!
# Writer — text from documents

Two layouts: `compact` without any white space, and `pretty` with each item and member on a line of its own, indented
by two spaces a level; an empty array or object stays on its line.
-/
namespace FileGraph.Json

/-- A hexadecimal digit in lower case. -/
def hexChar (n : Nat) : Char :=
  if n < 10 then Char.ofNat ('0'.toNat + n) else Char.ofNat ('a'.toNat + (n - 10))

/-- A character inside a string: quote, backslash and control characters are escaped. -/
def escape (c : Char) : List Char :=
  if c = '"' then ['\\', '"']
  else if c = '\\' then ['\\', '\\']
  else if c = '\x08' then ['\\', 'b']
  else if c = '\x0c' then ['\\', 'f']
  else if c = '\n' then ['\\', 'n']
  else if c = '\x0d' then ['\\', 'r']
  else if c = '\t' then ['\\', 't']
  else if c.toNat < 0x20 then ['\\', 'u', '0', '0', hexChar (c.toNat / 16), hexChar (c.toNat % 16)]
  else [c]

def quote (s : String) : List Char := '"' :: s.toList.flatMap escape ++ ['"']

/-- A string in quotes; one without characters of its own is written as `null`. -/
def quoteOption : Option String → List Char
  | some s => quote s
  | none => "null".toList

/-- Text with a comma between the parts. -/
def commaSeparated : List (List Char) → List Char
  | [] => []
  | [p] => p
  | p :: ps => p ++ ',' :: commaSeparated ps

mutual

/-- A document without white space. -/
def compact : Json → List Char
  | null => "null".toList
  | bool true => "true".toList
  | bool false => "false".toList
  | number n => n.text
  | string s => quoteOption s
  | array items => '[' :: commaSeparated (compactItems items) ++ [']']
  | object members => '\x7b' :: commaSeparated (compactMembers members) ++ ['\x7d']

def compactItems : List Json → List (List Char)
  | [] => []
  | j :: js => compact j :: compactItems js

def compactMembers : List (Option String × Json) → List (List Char)
  | [] => []
  | (name, j) :: ms => (quoteOption name ++ ':' :: compact j) :: compactMembers ms

end

def newLine (level : Nat) : List Char := '\n' :: List.replicate (2 * level) ' '

/-- Parts on lines of their own, one level deeper than the brackets around them. -/
def onLines (level : Nat) (opening closing : Char) : List (List Char) → List Char
  | [] => [opening, closing]
  | ps => opening :: commaSeparated (ps.map (newLine (level + 1) ++ ·)) ++ newLine level ++ [closing]

mutual

/-- A document on lines, at a level. -/
def prettyAt : (level : Nat) → Json → List Char
  | level, array items => onLines level '[' ']' (prettyItems (level + 1) items)
  | level, object members => onLines level '\x7b' '\x7d' (prettyMembers (level + 1) members)
  | _, null => "null".toList
  | _, bool true => "true".toList
  | _, bool false => "false".toList
  | _, number n => n.text
  | _, string s => quoteOption s

def prettyItems : (level : Nat) → List Json → List (List Char)
  | _, [] => []
  | level, j :: js => prettyAt level j :: prettyItems level js

def prettyMembers : (level : Nat) → List (Option String × Json) → List (List Char)
  | _, [] => []
  | level, (name, j) :: ms => (quoteOption name ++ ':' :: ' ' :: prettyAt level j) :: prettyMembers level ms

end

/-- A document on lines. -/
def pretty (j : Json) : List Char := prettyAt 0 j

end FileGraph.Json
