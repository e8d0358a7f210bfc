import FileGraph.Language
import FileGraph.Source.Grammar.Braced
import FileGraph.Source.Grammar.Indented
import FileGraph.Source.Grammar.Keyworded
/-!
# Analysis — the functions and specifiers of a file

Each language with functions has a grammar.  A file of any other language, or one whose text is refused, has the empty
analysis: one bad file never stops the others.
-/
namespace FileGraph.Source

def grammar? : Language → Option Grammar
  | .javascript | .typescript => some .script
  | .python => some .python
  | .java => some .java
  | .c | .cpp => some .cFamily
  | .go => some .go
  | .rust => some .rust
  | .php => some .php
  | .ruby => some .ruby
  | .json | .markdown | .css | .html | .yaml | .text | .other => none

/-- The analysis of a file, empty where there is none. -/
def analyzeFile (limits : Limits) (language : Language) (content : String) : Analysis :=
  match grammar? language with
  | none => .empty
  | some g =>
    match g.analyze limits content.toList with
    | .ok analysis => analysis
    | .error _ => .empty

end FileGraph.Source
