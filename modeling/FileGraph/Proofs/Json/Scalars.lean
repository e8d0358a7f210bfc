import FileGraph.Json.Reader
import FileGraph.Json.Writer
import FileGraph.Proofs.Decimal.Numeral
/-!
# Scalars — numbers and strings are read as they were written

Reading the text of a numeral stops right behind it, if what follows cannot belong to a number (`readNumber_text`).
Reading a quoted string stops behind the quote and gives the string, whatever characters it has (`readString_quote`).
-/
namespace FileGraph.Json

open Decimal

/-! ## Numbers -/

/-- A text that does not begin with a digit. -/
def NoDigit (cs : List Char) : Prop := ∀ c ∈ cs.head?, c.isDigit = false

/-- A text that cannot go on with a number. -/
def Ends (cs : List Char) : Prop := ∀ c ∈ cs.head?, c.isDigit = false ∧ c ≠ '.' ∧ c ≠ 'e' ∧ c ≠ 'E'

theorem Ends.noDigit {cs : List Char} (h : Ends cs) : NoDigit cs := fun c hc => (h c hc).1

theorem ends_nil : Ends [] := fun _ h => nomatch h

theorem isDigit_digitChar : ∀ d < 10, (digitChar d).isDigit = true := by decide

theorem toNat_digitChar : ∀ d < 10, (digitChar d).toNat - '0'.toNat = d := by decide

theorem readDigits_of_noDigit {cs : List Char} (h : NoDigit cs) : readDigits cs = ([], cs) := by
  cases cs with
  | nil => rfl
  | cons c cs =>
    have hc : c.isDigit = false := h c rfl
    rw [readDigits, hc]
    rfl

theorem readDigits_append {rest : List Char} (hrest : NoDigit rest) : ∀ {ds : List Nat}, (∀ d ∈ ds, d < 10) →
    readDigits (ds.map digitChar ++ rest) = (ds, rest)
  | [], _ => readDigits_of_noDigit hrest
  | d :: ds, h => by
    have hd : d < 10 := h d List.mem_cons_self
    have ih := readDigits_append hrest fun x hx => h x (List.mem_cons_of_mem d hx)
    rw [List.map_cons, List.cons_append, readDigits, if_pos (isDigit_digitChar d hd), ih, toNat_digitChar d hd]

/-- The digits after the point, with the point. -/
def fractionText (ds : List Nat) : List Char := if ds.isEmpty then [] else '.' :: ds.map digitChar

/-- The exponent with its letter. -/
def exponentText : Option (Bool × List Nat) → List Char
  | none => []
  | some (negative, ds) => 'e' :: (if negative then '-' else '+') :: ds.map digitChar

theorem text_eq (n : Numeral) : n.text = (if n.negative then ['-'] else []) ++
    (n.whole.map digitChar ++ (fractionText n.fraction ++ exponentText n.exponent)) := by
  rw [Numeral.text, List.append_assoc, List.append_assoc]
  rfl

theorem noDigit_exponentText {rest : List Char} (h : Ends rest) (x : Option (Bool × List Nat)) :
    NoDigit (exponentText x ++ rest) ∧ ∀ c ∈ (exponentText x ++ rest).head?, c ≠ '.' := by
  cases x with
  | none => exact ⟨h.noDigit, fun c hc => (h c hc).2.1⟩
  | some x =>
    constructor
    · rintro c ⟨⟩
      rfl
    · rintro c ⟨⟩
      decide

theorem noDigit_fractionText {rest : List Char} (h : NoDigit rest) (ds : List Nat) :
    NoDigit (fractionText ds ++ rest) := by
  cases ds with
  | nil => exact h
  | cons d ds =>
    rintro c ⟨⟩
    rfl

theorem readFraction_append {ds : List Nat} (h : ∀ d ∈ ds, d < 10) {rest : List Char} (hrest : NoDigit rest)
    (hpoint : ∀ c ∈ rest.head?, c ≠ '.') : readFraction (fractionText ds ++ rest) = some (ds, rest) := by
  cases ds with
  | nil =>
    change readFraction rest = some ([], rest)
    unfold readFraction
    split
    · exact absurd rfl (hpoint '.' rfl)
    · rfl
  | cons d ds =>
    have hread := readDigits_append hrest h
    change readFraction ('.' :: ((d :: ds).map digitChar ++ rest)) = _
    rw [readFraction, hread]

theorem readExponent_append {x : Option (Bool × List Nat)} (h : ∀ y ∈ x, y.2 ≠ [] ∧ ∀ d ∈ y.2, d < 10)
    {rest : List Char} (hrest : Ends rest) : readExponent (exponentText x ++ rest) = some (x, rest) := by
  cases x with
  | none =>
    change readExponent rest = some (none, rest)
    cases rest with
    | nil => rfl
    | cons c cs =>
      obtain ⟨-, -, he, hE⟩ := hrest c rfl
      rw [readExponent, beq_false_of_ne he, beq_false_of_ne hE]
      rfl
  | some x =>
    obtain ⟨negative, ds⟩ := x
    obtain ⟨hne, hdigits⟩ := h (negative, ds) rfl
    have hread := readDigits_append hrest.noDigit hdigits
    obtain ⟨d, ds, rfl⟩ := List.exists_cons_of_ne_nil hne
    change readExponent ('e' :: (if negative then '-' else '+') :: ((d :: ds).map digitChar ++ rest)) = _
    have hsign : ∀ cs, readSign ((if negative then '-' else '+') :: cs) = (negative, cs) := by
      intro cs
      cases negative with
      | false => rfl
      | true => rfl
    rw [readExponent, if_pos (by decide), hsign]
    dsimp only
    rewrite [hread]
    rfl

theorem readMagnitude_append {n : Numeral} (h : n.Written) {rest : List Char} (hrest : Ends rest) :
    readMagnitude n.negative
      (n.whole.map digitChar ++ (fractionText n.fraction ++ (exponentText n.exponent ++ rest))) = some (n, rest) := by
  obtain ⟨hnoDigit, hpoint⟩ := noDigit_exponentText hrest n.exponent
  have hwhole := readDigits_append (noDigit_fractionText hnoDigit n.fraction) h.whole
  have hfraction := readFraction_append h.fraction hnoDigit hpoint
  have hexponent := readExponent_append h.exponent hrest
  obtain ⟨negative, whole, fraction, exponent⟩ := n
  dsimp only at hwhole hfraction hexponent ⊢
  unfold readMagnitude
  rw [hwhole]
  split
  · rename_i heq
    exact absurd (Prod.mk.inj heq).1 h.leading.1
  · rename_i heq
    obtain ⟨rfl, -⟩ := Prod.mk.inj heq
    exact absurd (h.leading.2 rfl) (by simp)
  · rename_i heq
    obtain ⟨rfl, rfl⟩ := Prod.mk.inj heq
    rw [hfraction]
    simp only [Option.bind_eq_bind, Option.bind_some, hexponent]
    rfl

theorem text_cons {n : Numeral} (h : n.Written) :
    ∃ c cs, n.text = c :: cs ∧ (c = '-' ∧ n.negative = true ∨ c.isDigit = true ∧ n.negative = false) := by
  rw [text_eq]
  cases n.negative with
  | true => exact ⟨'-', _, rfl, .inl ⟨rfl, rfl⟩⟩
  | false =>
    obtain ⟨d, ds, hds⟩ := List.exists_cons_of_ne_nil h.leading.1
    have hd : d < 10 := h.whole d (hds ▸ List.mem_cons_self)
    rw [hds]
    exact ⟨digitChar d, _, rfl, .inr ⟨isDigit_digitChar d hd, rfl⟩⟩

/-- **A numeral is read as it was written.** -/
theorem readNumber_text {n : Numeral} (h : n.Written) {rest : List Char} (hrest : Ends rest) :
    readNumber (n.text ++ rest) = some (n, rest) := by
  have hread := readMagnitude_append h hrest
  obtain ⟨c, cs, htext, hfirst⟩ := text_cons h
  rw [text_eq, List.append_assoc, List.append_assoc, List.append_assoc]
  cases hnegative : n.negative with
  | true =>
    rw [hnegative] at hread
    exact hread
  | false =>
    rw [hnegative] at hread
    have hdigit : c.isDigit = true := by
      rcases hfirst with ⟨-, hneg⟩ | ⟨hdigit, -⟩
      · rw [hnegative] at hneg
        cases hneg
      · exact hdigit
    rw [text_eq, hnegative] at htext
    have hcons : n.whole.map digitChar ++ (fractionText n.fraction ++ (exponentText n.exponent ++ rest)) =
        c :: (cs ++ rest) := by
      rw [← List.cons_append, ← htext]
      simp
    change readNumber (n.whole.map digitChar ++ (fractionText n.fraction ++ (exponentText n.exponent ++ rest))) = _
    rw [hcons] at hread ⊢
    unfold readNumber
    split
    · rename_i heq
      obtain ⟨rfl, -⟩ := List.cons.inj heq
      cases hdigit
    · exact hread

/-! ## Strings -/

/-- The part of a string that the text of a character is read as. -/
def unitOf (c : Char) : Char ⊕ Nat :=
  if c.toNat < 0x20 ∧ c ∉ ['\x08', '\x0c', '\n', '\x0d', '\t'] then .inr c.toNat else .inl c

theorem hexQuad?_hexChar : ∀ n < 0x20, hexQuad? '0' '0' (hexChar (n / 16)) (hexChar (n % 16)) = some n := by decide

/-- A character is escaped by a letter, or by its number, or stands for itself. -/
theorem escape_cases (c : Char) :
    (∃ e, escape c = ['\\', e] ∧ shortEscape? e = some c ∧ e ≠ 'u' ∧ unitOf c = .inl c) ∨
    (escape c = ['\\', 'u', '0', '0', hexChar (c.toNat / 16), hexChar (c.toNat % 16)] ∧ c.toNat < 0x20 ∧
      unitOf c = .inr c.toNat) ∨
    (escape c = [c] ∧ c ≠ '"' ∧ c ≠ '\\' ∧ ¬ c.toNat < 0x20 ∧ unitOf c = .inl c) := by
  by_cases hquote : c = '"'
  · subst hquote
    exact .inl ⟨'"', rfl, rfl, by decide, rfl⟩
  by_cases hbackslash : c = '\\'
  · subst hbackslash
    exact .inl ⟨'\\', rfl, rfl, by decide, rfl⟩
  by_cases hletter : c ∈ ['\x08', '\x0c', '\n', '\x0d', '\t']
  · left
    simp only [List.mem_cons, List.not_mem_nil, or_false] at hletter
    rcases hletter with rfl | rfl | rfl | rfl | rfl
    · exact ⟨'b', rfl, rfl, by decide, rfl⟩
    · exact ⟨'f', rfl, rfl, by decide, rfl⟩
    · exact ⟨'n', rfl, rfl, by decide, rfl⟩
    · exact ⟨'r', rfl, rfl, by decide, rfl⟩
    · exact ⟨'t', rfl, rfl, by decide, rfl⟩
  · right
    have hother : escape c = if c.toNat < 0x20 then
        ['\\', 'u', '0', '0', hexChar (c.toNat / 16), hexChar (c.toNat % 16)] else [c] := by
      simp only [List.mem_cons, List.not_mem_nil, or_false, not_or] at hletter
      obtain ⟨hb, hf, hn, hr, ht⟩ := hletter
      rw [escape, if_neg hquote, if_neg hbackslash, if_neg hb, if_neg hf, if_neg hn, if_neg hr, if_neg ht]
    by_cases hcontrol : c.toNat < 0x20
    · left
      exact ⟨hother.trans (if_pos hcontrol), hcontrol, if_pos ⟨hcontrol, hletter⟩⟩
    · right
      exact ⟨hother.trans (if_neg hcontrol), hquote, hbackslash, hcontrol, if_neg fun h => hcontrol h.1⟩

theorem readUnits_escape (c : Char) (cs : List Char) :
    readUnits (escape c ++ cs) = (readUnits cs).map fun p => (unitOf c :: p.1, p.2) := by
  rcases escape_cases c with ⟨e, hescape, hshort, hu, hunit⟩ | ⟨hescape, hcontrol, hunit⟩ |
    ⟨hescape, hquote, hbackslash, hcontrol, hunit⟩
  · have hrow : ∀ a b c d cs', e = 'u' → cs = a :: b :: c :: d :: cs' → False := fun _ _ _ _ _ h => absurd h hu
    rw [hescape, hunit, List.cons_append, List.cons_append, List.nil_append, readUnits.eq_4 e cs hrow, hshort]
    cases readUnits cs <;> rfl
  · have hread : readUnits ('\\' :: 'u' :: '0' :: '0' :: hexChar (c.toNat / 16) :: hexChar (c.toNat % 16) :: cs) =
        (readUnits cs).map fun p => (.inr c.toNat :: p.1, p.2) := by
      rw [readUnits, hexQuad?_hexChar c.toNat hcontrol]
      cases readUnits cs <;> rfl
    rw [hescape, hunit]
    exact hread
  · have hplain : (decide (c.toNat < 32) || c == '\\') = false := by
      rw [decide_eq_false hcontrol, beq_false_of_ne hbackslash]
      rfl
    rw [hescape, hunit, List.singleton_append, readUnits.eq_5 c cs hquote (fun _ _ _ _ _ h => absurd h hbackslash)
      fun _ _ h => absurd h hbackslash, hplain]
    cases readUnits cs <;> rfl

theorem joinUnits_map : ∀ cs : List Char, joinUnits (cs.map unitOf) = some cs
  | [] => rfl
  | c :: cs => by
    have ih := joinUnits_map cs
    rw [List.map_cons, unitOf]
    split
    · rename_i h
      have hsmall : c.toNat < 0xD800 := by omega
      rw [joinUnits.eq_def]
      dsimp only
      rw [if_pos (.inl hsmall), ih, Option.map_some, Char.ofNat_toNat]
    · rw [joinUnits, ih, Option.map_some]

theorem readUnits_flatMap (cs rest : List Char) :
    readUnits (cs.flatMap escape ++ '"' :: rest) = some (cs.map unitOf, rest) := by
  induction cs with
  | nil => rfl
  | cons c cs ih => rw [List.flatMap_cons, List.append_assoc, readUnits_escape, ih, Option.map_some, List.map_cons]

/-- **A string is read as it was written.** -/
theorem readString_quote (s : String) (rest : List Char) :
    readString (s.toList.flatMap escape ++ '"' :: rest) = some (some s, rest) := by
  have hjoin := joinUnits_map s.toList
  rw [readString, readUnits_flatMap, Option.map_some]
  dsimp only
  rw [hjoin, Option.map_some, String.ofList_toList]

end FileGraph.Json
