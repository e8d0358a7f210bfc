import FileGraph.Json.Reader
import FileGraph.Source.Grammar
/-!
# Scalar — strings, numbers and dates of a settings file

Strings stand in single or double quotes, once or three times: those in double quotes have escapes, and those in three
quotes may have several lines.  Everything else is a word without spaces, told apart by its shape; only a date may be
separated from its time by a space.
-/
namespace FileGraph.Toml

open Text Text.Pattern Decimal

/-! ## Strings -/

/-- The characters that may stand in a line: no control character but the tab. -/
def isPlain (c : Char) : Bool := c == '\t' || (0x20 ≤ c.toNat && c.toNat != 0x7F)

/-- The character of a number, if it is one. -/
def charOf? (n : Nat) : Option Char := if n.isValidChar then some (Char.ofNat n) else none

/-- The number in hexadecimal digits. -/
def hexNumber? (cs : List Char) : Option Nat :=
  (cs.mapM Json.hexDigit?).map fun ds => ds.foldl (fun n d => 16 * n + d) 0

/-- The character of an escape, after its backslash. -/
def readEscape : List Char → Option (Char × List Char)
  | 'u' :: cs =>
    if cs.length < 4 then none else (hexNumber? (cs.take 4)).bind fun n => (charOf? n).map fun c => (c, cs.drop 4)
  | 'U' :: cs =>
    if cs.length < 8 then none else (hexNumber? (cs.take 8)).bind fun n => (charOf? n).map fun c => (c, cs.drop 8)
  | '"' :: cs => some ('"', cs)
  | '\\' :: cs => some ('\\', cs)
  | 'b' :: cs => some ('\x08', cs)
  | 't' :: cs => some ('\t', cs)
  | 'n' :: cs => some ('\n', cs)
  | 'f' :: cs => some ('\x0c', cs)
  | 'r' :: cs => some ('\x0d', cs)
  | _ => none

/-- A newline, with or without a carriage return. -/
def dropNewline? : List Char → Option (List Char)
  | '\n' :: cs => some cs
  | '\x0d' :: '\n' :: cs => some cs
  | _ => none

/-- Spaces and tabs. -/
def skipBlanks (cs : List Char) : List Char := cs.dropWhile fun c => c == ' ' || c == '\t'

/-- Spaces, tabs and newlines. -/
def skipLines : (bound : Nat) → List Char → List Char
  | 0, cs => cs
  | n + 1, cs =>
    match dropNewline? (skipBlanks cs) with
    | some cs => skipLines n cs
    | none => skipBlanks cs

/-- The rest of a string of one line, after its opening quote. -/
def readShort (quote : Char) : (bound : Nat) → List Char → Option (List Char × List Char)
  | 0, _ | _, [] => none
  | n + 1, c :: cs =>
    if c = quote then some ([], cs)
    else if c = '\\' ∧ quote = '"' then do
      let (e, cs) ← readEscape cs
      let (s, cs) ← readShort quote n cs
      return (e :: s, cs)
    else if isPlain c then (readShort quote n cs).map fun p => (c :: p.1, p.2)
    else none

/-- The rest of a string of several lines, after its opening quotes.  It ends with three quotes, before which two more
may stand.  A backslash at the end of a line takes the newline and all blanks after it away. -/
def readLong (quote : Char) : (bound : Nat) → List Char → Option (List Char × List Char)
  | 0, _ | _, [] => none
  | n + 1, c :: cs =>
    if c = quote then
      let quotes := 1 + (cs.takeWhile (· == quote)).length
      if quotes < 3 then
        (readLong quote n (cs.drop (quotes - 1))).map fun p => (List.replicate quotes quote ++ p.1, p.2)
      else some (List.replicate (min quotes 5 - 3) quote, cs.drop (min quotes 5 - 1))
    else if c = '\\' ∧ quote = '"' then
      match dropNewline? (skipBlanks cs) with
      | some cs => readLong quote n (skipLines cs.length cs)
      | none => do
        let (e, cs) ← readEscape cs
        let (s, cs) ← readLong quote n cs
        return (e :: s, cs)
    else
      match dropNewline? (c :: cs) with
      | some cs => (readLong quote n cs).map fun p => ('\n' :: p.1, p.2)
      | none => if isPlain c then (readLong quote n cs).map fun p => (c :: p.1, p.2) else none

def readSimpleString : List Char → Option (String × List Char)
  | c :: cs =>
    if c = '"' ∨ c = '\'' then (readShort c cs.length cs).map fun p => (.ofList p.1, p.2) else none
  | [] => none

/-- A string of one or several lines.  A newline directly after three opening quotes does not count. -/
def readString : List Char → Option (String × List Char)
  | a :: b :: c :: cs =>
    if a = b ∧ b = c then
      let cs := (dropNewline? cs).getD cs
      (readLong a cs.length cs).map fun p => (.ofList p.1, p.2)
    else readSimpleString (a :: b :: c :: cs)
  | cs => readSimpleString cs

/-! ## Words -/

/-- The characters of numbers, dates and truth values. -/
def isWordPart (c : Char) : Bool :=
  c.isAlphanum || c == '_' || c == '+' || c == '-' || c == '.' || c == ':'

def isAll (p : Pattern) (word : List Char) : Bool := ((p ++ textEnd).matchStart word).isSome

def digit : Pattern := one Char.isDigit

def sign : Pattern := opt (one fun c => c == '+' || c == '-')

/-- Digits of a class, with single underscores between them. -/
def digitsOf (accepts : Char → Bool) : Pattern := one accepts ++ star (opt (lit "_") ++ one accepts)

/-- A decimal number without needless zeros before it. -/
def decimal : Pattern :=
  sign ++ oneOf [one (fun c => c.isDigit && c != '0') ++ star (opt (lit "_") ++ digit), digit]

def exponent : Pattern := one (fun c => c == 'e' || c == 'E') ++ sign ++ digitsOf Char.isDigit

def float : Pattern :=
  decimal ++ oneOf [exponent, lit "." ++ digitsOf Char.isDigit ++ opt exponent]

def specialFloat : Pattern := sign ++ anyOf ["inf", "nan"]

/-- The digits of numbers in base eight and two. -/
def isOctalDigit (c : Char) : Bool := '0' ≤ c && c ≤ '7'
def isBinaryDigit (c : Char) : Bool := c == '0' || c == '1'

/-- The number in the digits of a base. -/
def inBase (base : Nat) (ds : List Char) : Nat :=
  ((ds.filter (· != '_')).filterMap Json.hexDigit?).foldl (fun n d => base * n + d) 0

/-- An integer of 64 bits with a sign. -/
def integer? (negative : Bool) (n : Nat) : Option Json :=
  if (if negative then n ≤ Nat.pow 2 63 else n < Nat.pow 2 63) then
    some (.number { Numeral.ofNat n with negative := negative && n != 0 })
  else none

/-- The digits before and after the point and the exponent of a float without its sign. -/
def floatParts (word : List Char) : List Nat × List Nat × Option (Bool × List Nat) :=
  let (whole, rest) := Json.readDigits word
  let (fraction, rest) := (Json.readFraction rest).getD ([], rest)
  let exponent := (Json.readExponent rest).bind (·.1)
  (whole, fraction, exponent)

/-- Whether a float is too large: it has to stay below the middle between the largest float and the next power of
two. -/
def overflows (whole fraction : List Nat) (exponent : Option (Bool × List Nat)) : Bool :=
  let n := ofDigits (whole ++ fraction)
  let e : Int :=
    (match exponent with
     | none => 0
     | some (negative, ds) => if negative then -(ofDigits ds : Int) else ofDigits ds) - fraction.length
  if n = 0 then false
  else if (400 : Int) < e then true
  else if e < -((whole ++ fraction).length : Int) then false
  else decide ((Nat.pow 2 1024 - Nat.pow 2 970) * Nat.pow 10 (-e).toNat ≤ n * Nat.pow 10 e.toNat)

/-- The document of a word that documents have no other form for: a date, or a float that is not finite. -/
def named (word : List Char) : Json := .ofMembers [("word", .ofString (.ofList word))]

def number? (word : List Char) : Option Json :=
  let negative := word.head? == some '-'
  let digits := (word.filter (· != '_')).dropWhile fun c => c == '+' || c == '-'
  if isAll decimal word then integer? negative (inBase 10 digits)
  else if isAll float word then
    let (whole, fraction, exponent) := floatParts digits
    if !negative && overflows whole fraction exponent then none
    else some (.number ⟨negative, whole, if fraction.isEmpty then [0] else fraction, exponent⟩)
  else if isAll specialFloat word then some (named word)
  else none

/-- The number of a word with a base before it. -/
def based? : List Char → Option Json
  | '0' :: 'x' :: ds =>
    if isAll (digitsOf fun c => (Json.hexDigit? c).isSome) ds then integer? false (inBase 16 ds) else none
  | '0' :: 'o' :: ds => if isAll (digitsOf isOctalDigit) ds then integer? false (inBase 8 ds) else none
  | '0' :: 'b' :: ds => if isAll (digitsOf isBinaryDigit) ds then integer? false (inBase 2 ds) else none
  | _ => none

/-! ## Dates -/

def digits (n : Nat) : Pattern := (List.replicate n digit).foldr andThen empty

/-- The number in the digits of a slot. -/
def slotNumber (m : Match) (slot : Nat) : Nat := ((m.slot? slot).map fun c => inBase 10 c.text).getD 0

def daysIn (year month : Nat) : Nat :=
  if month = 2 then if year % 4 = 0 ∧ (year % 100 ≠ 0 ∨ year % 400 = 0) then 29 else 28
  else if [4, 6, 9, 11].contains month then 30
  else 31

def date : Pattern := capture 1 (digits 4) ++ lit "-" ++ capture 2 (digits 2) ++ lit "-" ++ capture 3 (digits 2)

def time : Pattern :=
  capture 4 (digits 2) ++ lit ":" ++ capture 5 (digits 2) ++ lit ":" ++ capture 6 (digits 2) ++
    opt (lit "." ++ many 1 Char.isDigit)

def offset : Pattern :=
  oneOf [one fun c => c == 'Z' || c == 'z',
    one (fun c => c == '+' || c == '-') ++ capture 7 (digits 2) ++ lit ":" ++ capture 8 (digits 2)]

/-- Whether the numbers of a date exist. -/
def dateExists (m : Match) : Bool :=
  let month := slotNumber m 2
  let day := slotNumber m 3
  1 ≤ month && month ≤ 12 && 1 ≤ day && day ≤ daysIn (slotNumber m 1) month

/-- Whether the numbers of a time and its offset exist; a minute may have a leap second. -/
def timeExists (m : Match) : Bool :=
  slotNumber m 4 ≤ 23 && slotNumber m 5 ≤ 59 && slotNumber m 6 ≤ 60 &&
    slotNumber m 7 ≤ 23 && slotNumber m 8 ≤ 59

/-- Whether a word is a date, a time, or both with `T` between them. -/
def isMoment (word : List Char) : Bool :=
  match (date ++ textEnd).matchStart word with
  | some m => dateExists m
  | none =>
    match (time ++ textEnd).matchStart word with
    | some m => timeExists m
    | none =>
      match (date ++ one (fun c => c == 'T' || c == 't') ++ time ++ opt offset ++ textEnd).matchStart word with
      | some m => dateExists m && timeExists m
      | none => false

/-- The time that follows a date after a space, and what follows the time. -/
def spacedTime? : List Char → Option (List Char)
  | ' ' :: cs =>
    let word := cs.takeWhile isWordPart
    match (time ++ opt offset ++ textEnd).matchStart word with
    | some m => if timeExists m then some (cs.dropWhile isWordPart) else none
    | none => none
  | _ => none

/-- A value that is no string and has no parts. -/
def readWord (cs : List Char) : Option (Json × List Char) :=
  let word := cs.takeWhile isWordPart
  let rest := cs.dropWhile isWordPart
  if word = "true".toList then some (.bool true, rest)
  else if word = "false".toList then some (.bool false, rest)
  else if isMoment word then
    if isAll date word then some (named word, (spacedTime? rest).getD rest) else some (named word, rest)
  else ((based? word).or (number? word)).map fun j => (j, rest)

end FileGraph.Toml
