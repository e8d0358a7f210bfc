import FileGraph.Text.Pattern
/-!
# Words — counting how often a name is mentioned

A text is searched for names in two ways.  `words` splits it into its maximal runs of word characters, so that one
pass serves all names that consist of such characters.  `mentions` looks for one name that stands alone, with a word
edge on both sides, whatever its characters are.
-/
namespace FileGraph.Text

/-- The maximal runs of word characters of a text, in order. -/
def words : List Char → List (List Char)
  | [] => []
  | c :: cs =>
    if isWordChar c then
      match cs with
      | [] => [[c]]
      | d :: _ =>
        if isWordChar d then
          match words cs with
          | [] => [[c]]
          | w :: ws => (c :: w) :: ws
        else [c] :: words cs
    else words cs

/-- Whether a name consists of letters, digits and `_` only. -/
def isPlainName (name : List Char) : Bool :=
  name.all fun c => isAlphanumeric c || c == '_'

/-- How often a name stands alone in a text, counted from the left without overlaps. -/
def mentions (name text : List Char) : Nat :=
  ((Pattern.standalone name).findAll text).length

end FileGraph.Text
