import FileGraph.Json.Basic
import FileGraph.Path
/-!
# Language — what kind of text a file holds

The language of a file is read off its extension, whatever the case of its letters.  Files of unknown kind are
`other`.
-/
namespace FileGraph

/-- The kinds of text that are told apart. -/
inductive Language where
  | javascript | typescript | python | java | c | cpp | json | markdown | css | html | yaml | text | go | rust | php
  | ruby | other
  deriving DecidableEq, Repr

namespace Language

def all : List Language :=
  [javascript, typescript, python, java, c, cpp, json, markdown, css, html, yaml, text, go, rust, php, ruby, other]

/-- The name of a language in reports and cache keys. -/
def tag : Language → String
  | javascript => "javascript"
  | typescript => "typescript"
  | python => "python"
  | java => "java"
  | c => "c"
  | cpp => "cpp"
  | json => "json"
  | markdown => "markdown"
  | css => "css"
  | html => "html"
  | yaml => "yaml"
  | text => "text"
  | go => "go"
  | rust => "rust"
  | php => "php"
  | ruby => "ruby"
  | other => "Other"

def ofTag? (tag : String) : Option Language := all.find? fun l => l.tag == tag

/-- The language of a document: a tag, or an object with the tag as its only name and nothing under it. -/
def ofJson? : Json → Option Language
  | .string (some tag) => ofTag? tag
  | .object [(some tag, .null)] => ofTag? tag
  | _ => none

/-- The extensions of each language, in lower case. -/
def extensions : Language → List String
  | javascript => ["js", "jsx", "mjs", "cjs"]
  | typescript => ["ts", "tsx"]
  | python => ["py", "pyw", "pyi"]
  | java => ["java"]
  | c => ["c", "h"]
  | cpp => ["cpp", "cc", "cxx", "hpp", "hh", "hxx"]
  | json => ["json"]
  | markdown => ["md", "markdown"]
  | css => ["css", "scss", "sass", "less"]
  | html => ["html", "htm"]
  | yaml => ["yaml", "yml"]
  | text => ["txt"]
  | go => ["go"]
  | rust => ["rs"]
  | php => ["php"]
  | ruby => ["rb"]
  | other => []

/-- A text with its ASCII letters in lower case. -/
def lowerCase (s : String) : String := .ofList (s.toList.map Char.toLower)

def ofExtension (extension : String) : Language :=
  (all.find? fun l => l.extensions.contains (lowerCase extension)).getD other

/-- The language of the file with a path. -/
def ofPath (path : String) : Language :=
  match Path.extension? path with
  | some ext => ofExtension ext
  | none => other

end Language

end FileGraph
