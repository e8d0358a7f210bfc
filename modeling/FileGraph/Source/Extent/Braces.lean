/-!
# Braces — the extent of a block in braces

Only the code characters of a line count (`codeChars`): those outside string literals, outside character literals such
as `'{'` where the apostrophe does not delimit strings, and before a `//` comment.  A literal ends with its line.

The block of a signature is the first balanced pair of braces at or after it (`braceExtent`).  The opening brace has to
come within the lookahead and before any `;`, and the closing one within the window; otherwise the signature counts as
one line.
-/
namespace FileGraph.Source

/-- How far a block is searched for: the lines after a signature on which its opening brace may stand, and the lines
on which it has to close. -/
structure Limits where
  lookahead : Nat
  window    : Nat
  deriving DecidableEq, Repr

/-! ## Code characters -/

/-- Where a scan of a line stands. -/
inductive Scan where
  | code
  /-- In a string literal with the given delimiter, possibly just after a backslash. -/
  | quoted (delimiter : Char) (escaped : Bool)
  /-- In a character literal with so many characters left. -/
  | literal (left : Nat)

/-- The number of characters that belong to a character literal after its opening apostrophe, and zero if there is no
such literal. -/
def literalLength : List Char → Nat
  | '\\' :: _ :: '\'' :: _ => 3
  | c :: '\'' :: _ => if c = '\\' then 0 else 2
  | _ => 0

/-- The code characters of the rest of a line. -/
def codeCharsFrom (quotes : List Char) : Scan → List Char → List Char
  | _, [] => []
  | .quoted q true, _ :: cs => codeCharsFrom quotes (.quoted q false) cs
  | .quoted q false, c :: cs =>
    if c = '\\' then codeCharsFrom quotes (.quoted q true) cs
    else if c = q then codeCharsFrom quotes .code cs
    else codeCharsFrom quotes (.quoted q false) cs
  | .literal (n + 1), _ :: cs => codeCharsFrom quotes (if n = 0 then .code else .literal n) cs
  | _, c :: cs =>
    if quotes.contains c then codeCharsFrom quotes (.quoted c false) cs
    else if c = '\'' ∧ 0 < literalLength cs then codeCharsFrom quotes (.literal (literalLength cs)) cs
    else if c = '/' ∧ cs.head? = some '/' then []
    else c :: codeCharsFrom quotes .code cs

def codeChars (quotes : List Char) (line : List Char) : List Char :=
  codeCharsFrom quotes .code line

/-! ## Balance -/

/-- What a stretch of code characters does to a block. -/
inductive Balance where
  | closed
  /-- A statement ends before any block opens. -/
  | refused
  /-- So many braces are open, none of them if no block has opened yet. -/
  | depth (opened : Option Nat)
  deriving DecidableEq

/-- Follows the braces through a stretch of code characters. -/
def balance : Option Nat → List Char → Balance
  | d, [] => .depth d
  | none, c :: cs =>
    if c = '{' then balance (some 1) cs
    else if c = ';' then .refused
    else balance none cs
  | some d, c :: cs =>
    if c = '{' then balance (some (d + 1)) cs
    else if c = '}' then if d ≤ 1 then .closed else balance (some (d - 1)) cs
    else balance (some d) cs

/-- The extent of a block, followed from the line at `offset` on. -/
def braceExtentFrom (lookahead : Nat) (quotes : List Char) : (offset : Nat) → Option Nat → List (List Char) → Nat
  | _, _, [] => 1
  | offset, d, line :: rest =>
    match balance d (codeChars quotes line) with
    | .closed => offset + 1
    | .refused => 1
    | .depth none => if lookahead ≤ offset then 1 else braceExtentFrom lookahead quotes (offset + 1) none rest
    | .depth (some d) => braceExtentFrom lookahead quotes (offset + 1) (some d) rest

/-- The number of lines of the block that opens at or just after the first of the lines. -/
def braceExtent (limits : Limits) (quotes : List Char) (lines : List (List Char)) : Nat :=
  braceExtentFrom limits.lookahead quotes 0 none (lines.take limits.window)

end FileGraph.Source
