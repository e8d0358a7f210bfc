import FileGraph.Source.Extent.Indentation
import FileGraph.Source.Grammar
/-!
# Indented — Python, whose blocks are indented

Imports are read line by line.  `from m import …` names the module `m`; only when `m` consists of dots are the imported
names modules themselves.
-/
namespace FileGraph.Source.Grammar

open Text Text.Pattern Shape

namespace Python

def definition : Pattern :=
  blanks ++ opt (lit "async" ++ blanks1) ++ lit "def" ++ blanks1 ++ capture 1 name ++ blanks ++ lit "("

def fromImport : Pattern :=
  blanks ++ lit "from" ++ blanks1 ++ capture 1 (many 1 fun c => c == '.' || isWordChar c) ++ blanks1 ++
    lit "import" ++ blanks1 ++ opt (lit "(") ++ capture 2 (many 0 (noneOf "#)"))

def plainImport : Pattern :=
  blanks ++ lit "import" ++ blanks1 ++ capture 1 (many 1 (· != '#'))

/-- The names of a comma-separated list: of each item the first word, without parentheses and backslashes at its
ends, and without `*`. -/
def importedNames (list : List Char) : List String :=
  (pieces ',' list).filterMap fun item =>
    match firstWord? item with
    | none => none
    | some word =>
      match dropEndWhile (someOf "()\\") (word.dropWhile (someOf "()\\")) with
      | [] => none
      | ['*'] => none
      | name => some (.ofList name)

def importsOnLine (line : List Char) : List String :=
  match fromImport.matchStart line with
  | some m =>
    match m.slot? 1, m.slot? 2 with
    | some module, some names =>
      if module.text.all (· == '.') then
        (importedNames names.text).map fun n => dottedToPath (.ofList module.text ++ n)
      else [dottedToPath (.ofList module.text)]
    | _, _ => []
  | none =>
    match plainImport.slotAtStart? line with
    | some names => (importedNames names).map dottedToPath
    | none => []

end Python

/-- Python.  A line with a definition's signature holds no import. -/
def python : Grammar where
  reserved := ["elif", "else", "return"]
  signature := Python.definition.slotAtStart?
  extent _ lines := indentationExtent lines
  imports content :=
    ((lines content).flatMap fun line =>
      if (Python.definition.matchStart line).isSome then [] else Python.importsOnLine line).eraseDups

end FileGraph.Source.Grammar
