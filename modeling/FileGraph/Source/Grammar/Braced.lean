import FileGraph.Source.Grammar
/-!
# Braced — languages whose blocks stand in braces

The signature of a function is recognised line by line; how far the function extends is left to `braceExtent` with the
string delimiters of the language.
-/
namespace FileGraph.Source.Grammar

open Text Text.Pattern Shape

/-- The extent of a block in braces, with the string delimiters of a language. -/
def bracedBy (quotes : List Char) : Limits → List (List Char) → Nat :=
  fun limits lines => braceExtent limits quotes lines

/-! ## JavaScript and TypeScript -/

namespace Script

def isNameChar (c : Char) : Bool := isWordChar c || c == '$'

def name : Pattern := one (fun c => isNameStart c || c == '$') ++ many 0 isNameChar

/-- The keyword `function`, standing alone. -/
def functionWord : Pattern := lit "function" ++ wordEdge

def annotation (excluded : String) : Pattern := opt (lit ":" ++ blanks ++ many 1 (noneOf excluded))

/-- The signature `function name(` with what may stand before it. -/
def declaration : Pattern :=
  blanks ++ opt (lit "export" ++ blanks1) ++ opt (lit "default" ++ blanks1) ++ opt (lit "async" ++ blanks1) ++
    lit "function" ++ blanks ++ opt (lit "*") ++ blanks ++ capture 1 name ++ blanks ++ one (someOf "<(")

/-- A variable that is bound to a function. -/
def binding : Pattern :=
  blanks ++ opt (lit "export" ++ blanks1) ++ anyOf ["const", "let", "var"] ++ blanks1 ++ capture 1 name ++ blanks ++
    annotation "=" ++ lit "=" ++ blanks ++ opt (lit "async" ++ blanks1) ++
    oneOf [functionWord,
      enclosed '(' ')' ++ blanks ++ annotation "=" ++ lit "=>",
      name ++ blanks ++ lit "=>"]

/-- A property that is bound to a function. -/
def property : Pattern :=
  blanks ++ star (name ++ lit ".") ++ capture 1 name ++ blanks ++ one (someOf ":=") ++ blanks ++
    opt (lit "async" ++ blanks1) ++ oneOf [functionWord, enclosed '(' ')' ++ blanks ++ lit "=>"]

/-- A method whose body opens at the end of the line. -/
def method : Pattern :=
  blanks ++
    modifiers ["public", "private", "protected", "static", "readonly", "async", "override", "abstract", "get", "set"] ++
    opt (lit "*") ++ capture 1 name ++ blanks ++ opt (enclosed '<' '>') ++ blanks ++ enclosed '(' ')' ++ blanks ++
    annotation "\x7b;" ++ lit "\x7b" ++ blanks ++ textEnd

def importFrom : Pattern :=
  wordEdge ++ lit "import" ++ blanks1 ++ opt (lit "type" ++ blanks1) ++
    opt (few (noneOf "'\";") ++ blanks1 ++ lit "from" ++ blanks1) ++ quotedSlot

def exportFrom : Pattern :=
  wordEdge ++ lit "export" ++ blanks1 ++ opt (lit "type" ++ blanks1) ++
    oneOf [lit "*" ++ opt (blanks1 ++ lit "as" ++ blanks1 ++ many 1 isNameChar), enclosed '\x7b' '\x7d'] ++
    blanks1 ++ lit "from" ++ blanks1 ++ quotedSlot

def required : Pattern :=
  wordEdge ++ lit "require" ++ blanks ++ lit "(" ++ blanks ++ quotedSlot ++ blanks ++ lit ")"

def dynamicImport : Pattern :=
  wordEdge ++ lit "import" ++ blanks ++ lit "(" ++ blanks ++ quotedSlot ++ blanks ++ lit ")"

end Script

/-- JavaScript and TypeScript. -/
def script : Grammar where
  reserved := ["function", "return", "else", "do", "typeof", "new", "constructor"]
  signature line :=
    ([Script.declaration, Script.binding, Script.property, Script.method].findSome? (·.matchStart line)).bind
      fun m => (m.slot? 1).map (·.text)
  extent := bracedBy ['"', '\'', '\x60']
  imports content :=
    inOrder ([Script.importFrom, Script.exportFrom, Script.required, Script.dynamicImport].flatMap
      (located · content))

/-! ## Java -/

namespace Java

def annotations : Pattern :=
  star (lit "@" ++ many 1 isWordChar ++ opt (enclosed '(' ')') ++ blanks1)

def returnType : Pattern :=
  opt (many 1 (fun c => isWordChar c || someOf ".<>[]?," c) ++ opt (blanks ++ enclosed '<' '>') ++
    star (lit "[]") ++ blanks1)

/-- A method or constructor with an access modifier. -/
def method : Pattern :=
  blanks ++ annotations ++ anyOf ["public", "private", "protected"] ++ blanks1 ++
    modifiers ["static", "final", "abstract", "synchronized", "native", "default", "strictfp"] ++
    opt (lit "<" ++ many 1 (· != '>') ++ lit ">" ++ blanks1) ++ returnType ++ capture 1 name ++ blanks ++ lit "("

def importLine : Pattern :=
  lineStart ++ blanks ++ lit "import" ++ blanks1 ++ opt (lit "static" ++ blanks1) ++
    capture 1 (many 1 (fun c => isWordChar c || c == '.') ++ opt (lit ".*")) ++ blanks ++ lit ";"

end Java

def java : Grammar where
  reserved := ["new", "return", "else", "synchronized"]
  signature := Java.method.slotAtStart?
  extent := bracedBy ['"', '\'']
  imports content := inOrder ((located Java.importLine content).map fun f => (f.1, dottedToPath f.2))

/-! ## C and C++ -/

namespace CFamily

/-- Words that look like a return type and start a statement. -/
def statementWords : List String :=
  ["return", "else", "new", "delete", "case", "goto", "throw", "using", "typedef"]

/-- A return type in the first slot and a possibly qualified name in the second, before an argument list that is not
followed by `;` on the line. -/
def function : Pattern :=
  blanks ++
    star (oneOf [anyOf ["static", "inline", "extern", "virtual", "constexpr", "explicit", "friend", "const",
      "unsigned", "signed", "struct", "enum"], lit "template" ++ blanks ++ enclosed '<' '>'] ++ blanks1) ++
    capture 1 (one isNameStart ++ many 0 (fun c => isWordChar c || c == ':') ++
      opt (blanks ++ lit "<" ++ many 0 (noneOf ";\x7b\x7d()") ++ lit ">")) ++
    oneOf [blanks ++ many 1 (someOf "*&") ++ blanks, blanks1] ++
    capture 2 (star (name ++ lit "::") ++ opt (lit "~") ++ name) ++ blanks ++ lit "(" ++ many 0 (· != ';') ++ textEnd

def signature (line : List Char) : Option (List Char) :=
  match function.matchStart line with
  | none => none
  | some m =>
    match m.slot? 1, m.slot? 2 with
    | some returnType, some name =>
      if statementWords.contains (.ofList returnType.text) then none else some name.text
    | _, _ => none

def includeLine : Pattern :=
  lineStart ++ blanks ++ lit "#" ++ blanks ++ lit "include" ++ blanks ++ one (someOf "<\"") ++
    capture 1 (many 1 (noneOf ">\"")) ++ one (someOf ">\"")

end CFamily

def cFamily : Grammar where
  reserved := ["return", "else", "sizeof", "do", "defined"]
  signature := CFamily.signature
  extent := bracedBy ['"', '\'']
  imports content := inOrder (located CFamily.includeLine content)

/-! ## Go -/

namespace Go

def function : Pattern :=
  blanks ++ lit "func" ++ blanks1 ++ opt (enclosed '(' ')' ++ blanks) ++ capture 1 name ++ blanks ++
    opt (enclosed '[' ']' ++ blanks) ++ lit "("

def singleImport : Pattern :=
  lineStart ++ blanks ++ lit "import" ++ blanks1 ++
    opt (many 1 (fun c => isWordChar c || c == '.') ++ blanks1) ++ lit "\"" ++ capture 1 (many 1 (· != '"')) ++ lit "\""

def importBlock : Pattern :=
  lineStart ++ blanks ++ lit "import" ++ blanks ++ lit "(" ++ capture 1 (few fun _ => true) ++ lit ")"

def quoted : Pattern := lit "\"" ++ capture 1 (many 1 (· != '"')) ++ lit "\""

/-- The specifiers of the parenthesised blocks. -/
def blockImports (content : List Char) : List Located :=
  (importBlock.findAll content).flatMap fun m =>
    match m.slot? 1 with
    | some body => (located quoted body.text).map fun f => (body.start + f.1, f.2)
    | none => []

end Go

def go : Grammar where
  reserved := []
  signature := Go.function.slotAtStart?
  extent := bracedBy ['"', '\'', '\x60']
  imports content := inOrder (located Go.singleImport content ++ Go.blockImports content)

/-! ## Rust -/

namespace Rust

def visibility : Pattern := opt (lit "pub" ++ opt (blanks ++ enclosed '(' ')') ++ blanks1)

def function : Pattern :=
  blanks ++ visibility ++ opt (lit "default" ++ blanks1) ++ opt (lit "const" ++ blanks1) ++
    opt (lit "async" ++ blanks1) ++ opt (lit "unsafe" ++ blanks1) ++
    opt (lit "extern" ++ blanks1 ++ opt (enclosed '"' '"' ++ blanks1)) ++ lit "fn" ++ blanks1 ++ capture 1 name

def useLine : Pattern :=
  lineStart ++ blanks ++ visibility ++ lit "use" ++ blanks1 ++ capture 1 (star (name ++ lit "::") ++ name)

def moduleLine : Pattern :=
  lineStart ++ blanks ++ visibility ++ lit "mod" ++ blanks1 ++ capture 1 name ++ blanks ++ lit ";"

/-- A module path with `/` between its segments. -/
def toPath : List Char → List Char
  | ':' :: ':' :: cs => '/' :: toPath cs
  | c :: cs => c :: toPath cs
  | [] => []

end Rust

/-- Rust.  An apostrophe starts a lifetime more often than a string, so only `"` delimits strings. -/
def rust : Grammar where
  reserved := []
  signature := Rust.function.slotAtStart?
  extent := bracedBy ['"']
  imports content :=
    inOrder ((located Rust.useLine content).map (fun f => (f.1, .ofList (Rust.toPath f.2.toList))) ++
      located Rust.moduleLine content)

/-! ## PHP -/

namespace Php

def function : Pattern :=
  blanks ++ modifiers ["public", "private", "protected", "static", "final", "abstract"] ++ lit "function" ++ blanks1 ++
    opt (lit "&") ++ capture 1 name ++ blanks ++ lit "("

def includeCall : Pattern :=
  wordEdge ++ anyOf ["require", "require_once", "include", "include_once"] ++ blanks ++ opt (lit "(") ++ blanks ++
    opt (lit "__DIR__" ++ blanks ++ lit "." ++ blanks) ++ quotedSlot

def useLine : Pattern :=
  lineStart ++ blanks ++ lit "use" ++ blanks1 ++ opt (oneOf [lit "function" ++ blanks1, lit "const" ++ blanks1]) ++
    opt (lit "\\") ++ capture 1 (many 1 fun c => isWordChar c || c == '\\') ++
    opt (blanks1 ++ lit "as" ++ blanks1 ++ many 1 isWordChar) ++ blanks ++ lit ";"

end Php

def php : Grammar where
  reserved := []
  signature := Php.function.slotAtStart?
  extent := bracedBy ['"', '\'']
  imports content :=
    inOrder (located Php.includeCall content ++
      (located Php.useLine content).map fun f => (f.1, replaceChar '\\' '/' f.2))

end FileGraph.Source.Grammar
