import FileGraph.Text.Letters
import FileGraph.Text.Lines
/-!
# Pattern — ordered search in text

A pattern is tried at one place of a text (`Cursor`) and either fails or stops at a later place, with the parts that
its slots have captured.  Where it could stop at several places, the order of its choices decides: the first
alternative before the second, a longer repetition before a shorter one (`few` the other way round), earlier parts
before later ones.

`Pattern.run` is written against what follows it: the continuation says whether the rest can be matched, and a
choice is taken back if it cannot.
-/
namespace FileGraph.Text

/-- A place in a text: the character before it, the number of characters before it, and the text after it. -/
structure Cursor where
  before : Option Char
  index  : Nat
  rest   : List Char

/-- The place at which a text starts. -/
def Cursor.start (text : List Char) : Cursor := ⟨none, 0, text⟩

/-- Whether exactly one of the two neighbours of a place is a character of words. -/
def Cursor.atWordEdge (c : Cursor) : Bool :=
  c.before.any isWordChar != c.rest.head?.any isWordChar

def Cursor.atLineStart (c : Cursor) : Bool :=
  match c.before with
  | none => true
  | some b => b == '\n'

/-- What can be searched for. -/
inductive Pattern where
  /-- Nothing: matches everywhere and takes no character. -/
  | empty
  | one (accepts : Char → Bool)
  | text (chars : List Char)
  /-- As many characters of a class as possible, but no fewer than a bound. -/
  | many (least : Nat) (accepts : Char → Bool)
  /-- As few characters of a class as possible. -/
  | few (accepts : Char → Bool)
  | andThen (first second : Pattern)
  | orElse (first second : Pattern)
  /-- A pattern as often as possible, each time on further characters. -/
  | star (body : Pattern)
  /-- A pattern whose extent is kept under a number. -/
  | capture (slot : Nat) (body : Pattern)
  | lineStart
  | textEnd
  /-- A place between a character of words and a neighbour that is none. -/
  | wordEdge

namespace Pattern

instance : Append Pattern := ⟨andThen⟩

def opt (p : Pattern) : Pattern := orElse p empty

/-- The first of several patterns that leads to a match. -/
def oneOf : List Pattern → Pattern
  | [] => one fun _ => false
  | [p] => p
  | p :: ps => orElse p (oneOf ps)

def lit (s : String) : Pattern := text s.toList

/-- One of several fixed texts. -/
def anyOf (words : List String) : Pattern := oneOf (words.map lit)

/-- White space, possibly none. -/
def blanks : Pattern := many 0 isBlank

/-- White space, at least one character. -/
def blanks1 : Pattern := many 1 isBlank

/-- A text that stands alone: with a word edge before and after it. -/
def standalone (chars : List Char) : Pattern := wordEdge ++ text chars ++ wordEdge

end Pattern

/-! ## Trying a pattern at one place -/

/-- The captured part of a text and the number of characters before it. -/
structure Capture where
  start : Nat
  text  : List Char

/-- The captures of the slots, latest first. -/
abbrev Captures := List (Nat × Capture)

variable {α : Type}

/-- Takes characters of a class for as long as possible, giving them back one by one until the rest matches. -/
def takeMany (accepts : Char → Bool) (k : Cursor → Option α) :
    (least : Nat) → Option Char → Nat → List Char → Option α
  | least, before, i, [] => if least = 0 then k ⟨before, i, []⟩ else none
  | least, before, i, c :: cs =>
    (if accepts c then takeMany accepts k (least - 1) (some c) (i + 1) cs else none) <|>
      (if least = 0 then k ⟨before, i, c :: cs⟩ else none)

/-- Takes characters of a class one by one, stopping as soon as the rest matches. -/
def takeFew (accepts : Char → Bool) (k : Cursor → Option α) : Option Char → Nat → List Char → Option α
  | before, i, [] => k ⟨before, i, []⟩
  | before, i, c :: cs =>
    k ⟨before, i, c :: cs⟩ <|> (if accepts c then takeFew accepts k (some c) (i + 1) cs else none)

def takeText (k : Cursor → Option α) : List Char → Option Char → Nat → List Char → Option α
  | [], before, i, cs => k ⟨before, i, cs⟩
  | _ :: _, _, _, [] => none
  | t :: ts, _, i, c :: cs => if t = c then takeText k ts (some c) (i + 1) cs else none

/-- Repeats a step for as long as it advances, at most `bound` times. -/
def takeStar (step : Cursor → Captures → (Cursor → Captures → Option α) → Option α)
    (k : Cursor → Captures → Option α) : (bound : Nat) → Cursor → Captures → Option α
  | 0, c, caps => k c caps
  | n + 1, c, caps =>
    step c caps (fun c' caps' => if c.index < c'.index then takeStar step k n c' caps' else none) <|> k c caps

/-- Tries a pattern at a place, with `k` for what has to follow it. -/
def Pattern.run : Pattern → Cursor → Captures → (Cursor → Captures → Option α) → Option α
  | .empty, c, caps, k => k c caps
  | .one accepts, c, caps, k =>
    match c.rest with
    | [] => none
    | x :: xs => if accepts x then k ⟨some x, c.index + 1, xs⟩ caps else none
  | .text chars, c, caps, k => takeText (fun c' => k c' caps) chars c.before c.index c.rest
  | .many least accepts, c, caps, k => takeMany accepts (fun c' => k c' caps) least c.before c.index c.rest
  | .few accepts, c, caps, k => takeFew accepts (fun c' => k c' caps) c.before c.index c.rest
  | .andThen p q, c, caps, k => p.run c caps fun c' caps' => q.run c' caps' k
  | .orElse p q, c, caps, k => p.run c caps k <|> q.run c caps k
  | .star p, c, caps, k => takeStar p.run k c.rest.length c caps
  | .capture slot p, c, caps, k =>
    p.run c caps fun c' caps' => k c' ((slot, ⟨c.index, c.rest.take (c'.index - c.index)⟩) :: caps')
  | .lineStart, c, caps, k => if c.atLineStart then k c caps else none
  | .textEnd, c, caps, k => if c.rest.isEmpty then k c caps else none
  | .wordEdge, c, caps, k => if c.atWordEdge then k c caps else none

/-! ## Matches -/

/-- A match: where it stops and what its slots have captured. -/
structure Match where
  stop     : Cursor
  captures : Captures

/-- What a slot has captured, if it took part in the match. -/
def Match.slot? (m : Match) (slot : Nat) : Option Capture := m.captures.lookup slot

namespace Pattern

def matchAt (p : Pattern) (c : Cursor) : Option Match :=
  p.run c [] fun c' caps => some ⟨c', caps⟩

def matchStart (p : Pattern) (text : List Char) : Option Match :=
  p.matchAt (.start text)

/-- The matches from a place on, leftmost first and none overlapping an earlier one; `skip` characters still belong
to the latest. -/
def findFrom (p : Pattern) : (skip : Nat) → Option Char → Nat → List Char → List Match
  | _, _, _, [] => []
  | skip + 1, _, i, c :: cs => findFrom p skip (some c) (i + 1) cs
  | 0, before, i, c :: cs =>
    match p.matchAt ⟨before, i, c :: cs⟩ with
    | some m => m :: findFrom p (m.stop.index - i - 1) (some c) (i + 1) cs
    | none => findFrom p 0 (some c) (i + 1) cs

/-- All matches in a text, leftmost first and none overlapping an earlier one.  Meant for patterns that take at
least one character: an empty match at the very end is not found. -/
def findAll (p : Pattern) (text : List Char) : List Match :=
  p.findFrom 0 none 0 text

/-- Whether a pattern matches anywhere in a text. -/
def occursIn (p : Pattern) (text : List Char) : Bool :=
  !(p.findAll text).isEmpty

/-- The first slot of the match at the start of a text. -/
def slotAtStart? (p : Pattern) (text : List Char) : Option (List Char) :=
  (p.matchStart text).bind fun m => (m.slot? 1).map (·.text)

end Pattern

end FileGraph.Text
