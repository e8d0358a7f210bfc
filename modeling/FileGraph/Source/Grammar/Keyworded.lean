import FileGraph.Source.Extent.Keywords
import FileGraph.Source.Grammar
/-!
# Keyworded — Ruby, whose blocks close with `end`
-/
namespace FileGraph.Source.Grammar

open Text Text.Pattern Shape

namespace Ruby

def definition : Pattern :=
  blanks ++ lit "def" ++ blanks1 ++ opt (lit "self.") ++ capture 1 (name ++ opt (one (someOf "?!=")))

def required : Pattern :=
  lineStart ++ blanks ++ anyOf ["require", "require_relative", "load"] ++ blanks ++ opt (lit "(") ++ blanks ++
    quotedSlot

end Ruby

def ruby : Grammar where
  reserved := []
  signature := Ruby.definition.slotAtStart?
  extent limits lines := keywordExtent limits.window lines
  imports content := inOrder (located Ruby.required content)

end FileGraph.Source.Grammar
