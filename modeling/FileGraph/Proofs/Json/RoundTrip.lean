import FileGraph.Proofs.Json.Scalars
import Mathlib.Data.List.Forall2
/-!
# RoundTrip — documents are read as they were written

A text reads as a document if the reader stops right behind it, whatever comes after that cannot go on with a number
(`Reads`); twice the length of the text is bound enough.  White space in front changes nothing, and texts that read as
items or members can be put together, with a comma between them and white space before the bracket (`reads_array`,
`reads_object`).  So both layouts read as the document that was written, by induction on the document
(`reads_compact`, `reads_prettyAt`).
-/
namespace FileGraph.Json

open Decimal

/-- The text is read as the document, and no further. -/
def Reads (j : Json) (text : List Char) : Prop :=
  ∀ bound rest, 2 * text.length ≤ bound → Ends rest → readValue bound (text ++ rest) = some (j, rest)

/-! ## White space -/

def AllSpace (cs : List Char) : Prop := ∀ c ∈ cs, isSpace c = true

theorem allSpace_nil : AllSpace [] := fun _ h => nomatch h

theorem skipSpace_append {sp : List Char} (h : AllSpace sp) (cs : List Char) : skipSpace (sp ++ cs) = skipSpace cs :=
  List.dropWhile_append_of_pos h

theorem skipSpace_cons {c : Char} (h : isSpace c = false) (cs : List Char) : skipSpace (c :: cs) = c :: cs := by
  unfold skipSpace
  rw [List.dropWhile_cons, if_neg (by rw [h]; decide)]

theorem skipSpace_skipSpace (cs : List Char) : skipSpace (skipSpace cs) = skipSpace cs := by
  induction cs with
  | nil => rfl
  | cons c cs ih =>
    by_cases h : isSpace c = true
    · have hdrop : skipSpace (c :: cs) = skipSpace cs := by
        unfold skipSpace
        rw [List.dropWhile_cons, if_pos h]
      rw [hdrop, ih]
    · have hstay := skipSpace_cons (Bool.eq_false_iff.2 h) cs
      rw [hstay, hstay]

theorem readValue_congr {cs ds : List Char} (h : skipSpace cs = skipSpace ds) :
    ∀ bound, readValue bound cs = readValue bound ds
  | 0 => rfl
  | bound + 1 => by rw [readValue, readValue, h]

theorem readItems_skipSpace (bound : Nat) (cs : List Char) : readItems bound (skipSpace cs) = readItems bound cs := by
  cases bound with
  | zero => rfl
  | succ bound => rw [readItems, readItems, readValue_congr (skipSpace_skipSpace cs)]

theorem readMembers_skipSpace (bound : Nat) (cs : List Char) :
    readMembers bound (skipSpace cs) = readMembers bound cs := by
  cases bound with
  | zero => rfl
  | succ bound => rw [readMembers, readMembers, skipSpace_skipSpace]

theorem Reads.space {j : Json} {text : List Char} (h : Reads j text) {sp : List Char} (hsp : AllSpace sp) :
    Reads j (sp ++ text) := by
  intro bound rest hbound hrest
  have hskip : skipSpace (sp ++ (text ++ rest)) = skipSpace (text ++ rest) := skipSpace_append hsp _
  rw [List.length_append] at hbound
  rw [List.append_assoc, readValue_congr hskip]
  exact h bound rest (by omega) hrest

theorem ends_append {sp : List Char} (hsp : AllSpace sp) {cs : List Char} (h : Ends cs) : Ends (sp ++ cs) := by
  cases sp with
  | nil => exact h
  | cons c sp =>
    have hc : isSpace c = true := hsp c List.mem_cons_self
    unfold isSpace at hc
    rintro d ⟨⟩
    simp only [Bool.or_eq_true, beq_iff_eq] at hc
    rcases hc with ((rfl | rfl) | rfl) | rfl
    · decide
    · decide
    · decide
    · decide

theorem ends_cons {c : Char} (h : c ∈ [',', ']', '\x7d']) (cs : List Char) : Ends (c :: cs) := by
  simp only [List.mem_cons, List.not_mem_nil, or_false] at h
  rintro d ⟨⟩
  rcases h with rfl | rfl | rfl
  · decide
  · decide
  · decide

/-! ## Scalars -/

theorem reads_of_succ {j : Json} {text : List Char} (hne : text ≠ [])
    (h : ∀ bound rest, Ends rest → readValue (bound + 1) (text ++ rest) = some (j, rest)) : Reads j text := by
  intro bound rest hbound hrest
  have hpos : 0 < text.length := List.length_pos_of_ne_nil hne
  obtain ⟨bound, rfl⟩ := Nat.exists_eq_succ_of_ne_zero (show bound ≠ 0 by omega)
  exact h bound rest hrest

theorem reads_null : Reads null "null".toList := reads_of_succ (by decide) fun _ _ _ => rfl

theorem reads_bool (b : Bool) : Reads (bool b) (compact (bool b)) := by
  cases b with
  | true => exact reads_of_succ (by decide) fun _ _ _ => rfl
  | false => exact reads_of_succ (by decide) fun _ _ _ => rfl

theorem reads_string (s : String) : Reads (ofString s) (quote s) := by
  refine reads_of_succ (List.cons_ne_nil _ _) fun bound rest _ => ?_
  have hread := readString_quote s rest
  have htext : quote s ++ rest = '"' :: (s.toList.flatMap escape ++ '"' :: rest) := by
    rw [quote, List.cons_append, List.cons_append, List.append_assoc]
    rfl
  rw [htext, readValue, skipSpace_cons (by decide)]
  change (readString (s.toList.flatMap escape ++ '"' :: rest)).map _ = _
  rw [hread]
  rfl

theorem readValue_number {c : Char} (h : c = '-' ∨ c.isDigit = true) (bound : Nat) (cs : List Char) :
    readValue (bound + 1) (c :: cs) = (readNumber (c :: cs)).map fun p => (number p.1, p.2) := by
  have hspace : isSpace c = false := by
    rcases h with rfl | h
    · rfl
    · unfold isSpace
      by_contra hc
      simp only [Bool.not_eq_false, Bool.or_eq_true, beq_iff_eq] at hc
      rcases hc with ((rfl | rfl) | rfl) | rfl
      all_goals cases h
  rw [readValue, skipSpace_cons hspace]
  split
  case h_7 => rfl
  all_goals
    rename_i heq
    obtain ⟨rfl, -⟩ := List.cons.inj heq
    rcases h with h | h
    · cases h
    · cases h

theorem reads_number {n : Numeral} (h : n.Written) : Reads (number n) n.text := by
  obtain ⟨c, cs, htext, hfirst⟩ := text_cons h
  refine reads_of_succ (by rw [htext]; exact List.cons_ne_nil _ _) fun bound rest hrest => ?_
  have hread := readNumber_text h hrest
  rw [htext, List.cons_append] at hread ⊢
  rw [readValue_number (hfirst.imp And.left And.left), hread]
  rfl

/-! ## Arrays -/

theorem commaSeparated_cons (p q : List Char) (ps : List (List Char)) :
    commaSeparated (p :: q :: ps) = p ++ ',' :: commaSeparated (q :: ps) := rfl

theorem length_commaSeparated (p q : List Char) (ps : List (List Char)) :
    (commaSeparated (p :: q :: ps)).length = p.length + 1 + (commaSeparated (q :: ps)).length := by
  rw [commaSeparated_cons, List.length_append, List.length_cons]
  omega

theorem readValue_array (bound : Nat) (cs : List Char) :
    readValue (bound + 1) ('[' :: cs) =
      match skipSpace cs with
      | ']' :: cs => some (array [], cs)
      | cs => (readItems bound cs).map fun p => (array p.1, p.2) := rfl

theorem readItems_commaSeparated {sp : List Char} (hsp : AllSpace sp) {j : Json} {items : List Json} {p : List Char}
    {parts : List (List Char)} (hfirst : Reads j p) (h : List.Forall₂ Reads items parts) :
    ∀ bound rest, 2 * (commaSeparated (p :: parts)).length < bound →
      readItems bound (commaSeparated (p :: parts) ++ (sp ++ ']' :: rest)) = some (j :: items, rest) := by
  -- each item takes one of the bound, and its text with the comma is longer than that
  induction h generalizing j p with
  | nil =>
    intro bound rest hbound
    obtain ⟨bound, rfl⟩ := Nat.exists_eq_succ_of_ne_zero (Nat.ne_of_gt (Nat.zero_lt_of_lt hbound))
    have hread := hfirst bound (sp ++ ']' :: rest) (Nat.le_of_lt_succ hbound)
      (ends_append hsp (ends_cons (by decide) rest))
    have hskip : skipSpace (sp ++ ']' :: rest) = ']' :: rest :=
      (skipSpace_append hsp _).trans (skipSpace_cons (by decide) rest)
    change readItems (bound + 1) (p ++ (sp ++ ']' :: rest)) = _
    rw [readItems, hread]
    dsimp only
    rw [hskip]
    rfl
  | @cons k q items parts hk htail ih =>
    intro bound rest hbound
    obtain ⟨bound, rfl⟩ := Nat.exists_eq_succ_of_ne_zero (Nat.ne_of_gt (Nat.zero_lt_of_lt hbound))
    rw [length_commaSeparated] at hbound
    have hread := hfirst bound (',' :: (commaSeparated (q :: parts) ++ (sp ++ ']' :: rest))) (by omega)
      (ends_cons (by decide) _)
    have hrest := ih hk bound rest (by omega)
    rw [commaSeparated_cons, List.append_assoc, List.cons_append, readItems, hread]
    dsimp only
    rw [skipSpace_cons (by decide)]
    change (readItems bound (commaSeparated (q :: parts) ++ (sp ++ ']' :: rest))).map _ = _
    rw [hrest]
    rfl

theorem Reads.not_closing {j : Json} {text : List Char} (h : Reads j text) {rest : List Char} (hrest : Ends rest)
    (cs : List Char) : skipSpace (text ++ rest) ≠ ']' :: cs := by
  intro hskip
  have hread := h (2 * text.length) rest le_rfl hrest
  have hnone : ∀ bound, readValue bound (']' :: cs) = none := by
    intro bound
    cases bound with
    | zero => rfl
    | succ bound => rfl
  have hclosing := hskip.trans (skipSpace_cons (by decide) cs).symm
  rw [readValue_congr hclosing, hnone] at hread
  cases hread

theorem reads_array {items : List Json} {parts : List (List Char)} (h : List.Forall₂ Reads items parts)
    {sp : List Char} (hsp : AllSpace sp) : Reads (array items) ('[' :: (commaSeparated parts ++ (sp ++ [']']))) := by
  intro bound rest hbound hrest
  simp only [List.length_cons, List.length_append, List.length_nil] at hbound
  obtain ⟨bound, rfl⟩ := Nat.exists_eq_succ_of_ne_zero (show bound ≠ 0 by omega)
  have hclosing : skipSpace (sp ++ ']' :: rest) = ']' :: rest :=
    (skipSpace_append hsp _).trans (skipSpace_cons (by decide) rest)
  rw [List.cons_append, List.append_assoc, List.append_assoc, List.singleton_append, readValue_array]
  cases h with
  | nil =>
    rw [commaSeparated, List.nil_append, hclosing]
    rfl
  | @cons j p items parts hj hitems =>
    have hread := readItems_commaSeparated hsp hj hitems bound rest (by omega)
    have hopen : ∀ cs, skipSpace (commaSeparated (p :: parts) ++ (sp ++ ']' :: rest)) ≠ ']' :: cs := by
      intro cs
      cases hitems with
      | nil => exact hj.not_closing (ends_append hsp (ends_cons (by decide) rest)) cs
      | cons _ _ =>
        rw [commaSeparated_cons, List.append_assoc]
        exact hj.not_closing (ends_cons (by decide) _) cs
    split
    · rename_i heq
      exact absurd heq (hopen _)
    · rw [readItems_skipSpace, hread]
      rfl

/-! ## Objects -/

/-- The text is read as the member of an object. -/
def ReadsMember (m : Option String × Json) (text : List Char) : Prop :=
  ∃ sp name value, AllSpace sp ∧ m.1 = some name ∧ text = sp ++ (quote name ++ ':' :: value) ∧ Reads m.2 value

theorem readValue_object (bound : Nat) (cs : List Char) :
    readValue (bound + 1) ('\x7b' :: cs) =
      match skipSpace cs with
      | '\x7d' :: cs => some (object [], cs)
      | cs => (readMembers bound cs).map fun p => (object p.1, p.2) := rfl

/-- A member is its name, a colon and its value; a comma or the brace has to follow. -/
theorem readMembers_quote {bound : Nat} {cs rest after : List Char} {name : Option String} {j : Json}
    (hname : readString cs = some (name, ':' :: rest)) (hvalue : readValue bound rest = some (j, after)) :
    readMembers (bound + 1) ('"' :: cs) =
      match skipSpace after with
      | ',' :: cs => (readMembers bound cs).map fun p => ((name, j) :: p.1, p.2)
      | '\x7d' :: cs => some ([(name, j)], cs)
      | _ => none := by
  have hquote : skipSpace ('"' :: cs) = '"' :: cs := rfl
  have hcolon : skipSpace (':' :: rest) = ':' :: rest := rfl
  rw [readMembers, hquote]
  split
  · rename_i heq
    obtain ⟨-, rfl⟩ := List.cons.inj heq
    rw [hname]
    dsimp only
    rw [hcolon]
    split
    · rename_i heq
      obtain ⟨-, rfl⟩ := List.cons.inj heq
      rewrite [hvalue]
      rfl
    · rename_i h
      exact absurd rfl (h rest)
  · rename_i h
    exact absurd rfl (h cs)

/-- Reading members comes down to the first value and what follows it. -/
theorem ReadsMember.readMembers {m : Option String × Json} {text : List Char} (h : ReadsMember m text) {bound : Nat}
    (hbound : 2 * text.length ≤ bound) {rest : List Char} (hrest : Ends rest) :
    readMembers (bound + 1) (text ++ rest) =
      match skipSpace rest with
      | ',' :: cs => (readMembers bound cs).map fun p => (m :: p.1, p.2)
      | '\x7d' :: cs => some ([m], cs)
      | _ => none := by
  obtain ⟨name, j⟩ := m
  obtain ⟨sp, s, value, hsp, rfl, rfl, hvalue⟩ := h
  have htext : sp ++ (quote s ++ ':' :: value) ++ rest =
      sp ++ '"' :: (s.toList.flatMap escape ++ '"' :: (':' :: (value ++ rest))) := by
    rw [quote]
    simp
  have hlength : value.length ≤ (sp ++ (quote s ++ ':' :: value)).length := by
    simp only [List.length_append, List.length_cons]
    omega
  have hread := hvalue bound rest (by omega) hrest
  have hskip : ∀ cs, Json.readMembers (bound + 1) (sp ++ '"' :: cs) = Json.readMembers (bound + 1) ('"' :: cs) := by
    intro cs
    rw [← readMembers_skipSpace, skipSpace_append hsp, readMembers_skipSpace]
  rw [htext, hskip]
  exact readMembers_quote (readString_quote s _) hread

theorem ReadsMember.not_closing {m : Option String × Json} {text : List Char} (h : ReadsMember m text)
    (rest cs : List Char) : skipSpace (text ++ rest) ≠ '\x7d' :: cs := by
  obtain ⟨sp, name, value, hsp, -, rfl, -⟩ := h
  rw [List.append_assoc, skipSpace_append hsp, List.append_assoc, quote, List.cons_append, List.cons_append,
    skipSpace_cons (by decide)]
  intro heq
  exact absurd (List.cons.inj heq).1 (by decide)

theorem readMembers_commaSeparated {sp : List Char} (hsp : AllSpace sp) {m : Option String × Json}
    {members : List (Option String × Json)} {p : List Char} {parts : List (List Char)} (hfirst : ReadsMember m p)
    (h : List.Forall₂ ReadsMember members parts) : ∀ bound rest, 2 * (commaSeparated (p :: parts)).length < bound →
      readMembers bound (commaSeparated (p :: parts) ++ (sp ++ '\x7d' :: rest)) = some (m :: members, rest) := by
  induction h generalizing m p with
  | nil =>
    intro bound rest hbound
    obtain ⟨bound, rfl⟩ := Nat.exists_eq_succ_of_ne_zero (Nat.ne_of_gt (Nat.zero_lt_of_lt hbound))
    have hread := hfirst.readMembers (Nat.le_of_lt_succ hbound) (ends_append hsp (ends_cons (c := '\x7d') (by decide) rest))
    have hskip : skipSpace (sp ++ '\x7d' :: rest) = '\x7d' :: rest :=
      (skipSpace_append hsp _).trans (skipSpace_cons (by decide) rest)
    rw [hskip] at hread
    exact hread
  | @cons k q members parts hk htail ih =>
    intro bound rest hbound
    obtain ⟨bound, rfl⟩ := Nat.exists_eq_succ_of_ne_zero (Nat.ne_of_gt (Nat.zero_lt_of_lt hbound))
    rw [length_commaSeparated] at hbound
    have hroom : 2 * p.length ≤ bound := by omega
    have hread := hfirst.readMembers hroom
      (ends_cons (c := ',') (by decide) (commaSeparated (q :: parts) ++ (sp ++ '\x7d' :: rest)))
    have hrest := ih hk bound rest (by omega)
    have hcomma : readMembers (bound + 1) (p ++ ',' :: (commaSeparated (q :: parts) ++ (sp ++ '\x7d' :: rest))) =
        (readMembers bound (commaSeparated (q :: parts) ++ (sp ++ '\x7d' :: rest))).map fun r => (m :: r.1, r.2) := hread
    rw [commaSeparated_cons, List.append_assoc, List.cons_append, hcomma, hrest]
    rfl

theorem reads_object {members : List (Option String × Json)} {parts : List (List Char)}
    (h : List.Forall₂ ReadsMember members parts) {sp : List Char} (hsp : AllSpace sp) :
    Reads (object members) ('\x7b' :: (commaSeparated parts ++ (sp ++ ['\x7d']))) := by
  intro bound rest hbound hrest
  simp only [List.length_cons, List.length_append, List.length_nil] at hbound
  obtain ⟨bound, rfl⟩ := Nat.exists_eq_succ_of_ne_zero (show bound ≠ 0 by omega)
  have hclosing : skipSpace (sp ++ '\x7d' :: rest) = '\x7d' :: rest :=
    (skipSpace_append hsp _).trans (skipSpace_cons (by decide) rest)
  rw [List.cons_append, List.append_assoc, List.append_assoc, List.singleton_append, readValue_object]
  cases h with
  | nil =>
    rw [commaSeparated, List.nil_append, hclosing]
    rfl
  | @cons m p members parts hm hmembers =>
    have hread := readMembers_commaSeparated hsp hm hmembers bound rest (by omega)
    have hopen : ∀ cs, skipSpace (commaSeparated (p :: parts) ++ (sp ++ '\x7d' :: rest)) ≠ '\x7d' :: cs := by
      intro cs
      cases hmembers with
      | nil => exact hm.not_closing _ cs
      | cons _ _ =>
        rw [commaSeparated_cons, List.append_assoc]
        exact hm.not_closing _ cs
    split
    · rename_i heq
      exact absurd heq (hopen _)
    · rw [readMembers_skipSpace, hread]
      rfl

/-! ## Layouts -/

/-- The documents that are written so that they can be read again: every string has characters of its own, and every
numeral its digits. -/
inductive Printable : Json → Prop where
  | null : Printable null
  | bool (b : Bool) : Printable (bool b)
  | number {n : Numeral} (h : n.Written) : Printable (number n)
  | string (s : String) : Printable (ofString s)
  | array {items : List Json} (h : ∀ j ∈ items, Printable j) : Printable (array items)
  | object {members : List (String × Json)} (h : ∀ m ∈ members, Printable m.2) : Printable (ofMembers members)

theorem compactItems_eq (items : List Json) : compactItems items = items.map compact := by
  induction items with
  | nil => rfl
  | cons j items ih => rw [compactItems, ih, List.map_cons]

theorem compactMembers_eq (members : List (Option String × Json)) :
    compactMembers members = members.map fun m => quoteOption m.1 ++ ':' :: compact m.2 := by
  induction members with
  | nil => rfl
  | cons m members ih => rw [compactMembers, ih, List.map_cons]

theorem prettyItems_eq (level : Nat) (items : List Json) : prettyItems level items = items.map (prettyAt level) := by
  induction items with
  | nil => rfl
  | cons j items ih => rw [prettyItems, ih, List.map_cons]

theorem prettyMembers_eq (level : Nat) (members : List (Option String × Json)) :
    prettyMembers level members = members.map fun m => quoteOption m.1 ++ ':' :: ' ' :: prettyAt level m.2 := by
  induction members with
  | nil => rfl
  | cons m members ih => rw [prettyMembers, ih, List.map_cons]

theorem forall₂_map {α β : Type} {R : α → β → Prop} {f : α → β} {xs : List α} (h : ∀ x ∈ xs, R x (f x)) :
    List.Forall₂ R xs (xs.map f) :=
  List.forall₂_map_right_iff.2 (List.forall₂_same.2 h)

/-- **The layout without white space is read as the document.** -/
theorem reads_compact {j : Json} (h : Printable j) : Reads j j.compact := by
  induction h with
  | null => exact reads_null
  | bool b => exact reads_bool b
  | number h => exact reads_number h
  | string s => exact reads_string s
  | @array items _ ih =>
    have hparts : List.Forall₂ Reads items (compactItems items) := by
      rw [compactItems_eq]
      exact forall₂_map ih
    exact reads_array hparts allSpace_nil
  | @object members _ ih =>
    have hparts : List.Forall₂ ReadsMember (members.map fun m => (some m.1, m.2))
        (compactMembers (members.map fun m => (some m.1, m.2))) := by
      rw [compactMembers_eq]
      refine forall₂_map fun m hm => ?_
      obtain ⟨m, hmem, rfl⟩ := List.mem_map.1 hm
      exact ⟨[], m.1, m.2.compact, fun _ h => (nomatch h), rfl, rfl, ih m hmem⟩
    exact reads_object hparts allSpace_nil

theorem allSpace_newLine (level : Nat) : AllSpace (newLine level) := by
  intro c hc
  rcases List.mem_cons.1 hc with rfl | hc
  · rfl
  · rw [List.eq_of_mem_replicate hc]
    rfl

/-- Parts on lines are parts with white space in front, and white space before the bracket. -/
theorem onLines_eq (level : Nat) (opening closing : Char) (parts : List (List Char)) :
    ∃ sp, AllSpace sp ∧ onLines level opening closing parts =
      opening :: (commaSeparated (parts.map (newLine (level + 1) ++ ·)) ++ (sp ++ [closing])) := by
  cases parts with
  | nil => exact ⟨[], fun _ h => (nomatch h), rfl⟩
  | cons p parts =>
    refine ⟨newLine level, allSpace_newLine level, ?_⟩
    rw [onLines, List.cons_append, List.cons_append, List.append_assoc]
    exact List.cons_ne_nil _ _

/-- **The layout on lines is read as the document**, at every level. -/
theorem reads_prettyAt {j : Json} (h : Printable j) (level : Nat) : Reads j (prettyAt level j) := by
  -- the line breaks of a list count as white space of its items, and the last one as that of the bracket
  induction h generalizing level with
  | null => exact reads_null
  | bool b =>
    have hread := reads_bool b
    cases b <;> exact hread
  | number h => exact reads_number h
  | string s => exact reads_string s
  | @array items _ ih =>
    obtain ⟨sp, hsp, hlines⟩ := onLines_eq level '[' ']' (prettyItems (level + 1) items)
    have hparts : List.Forall₂ Reads items ((prettyItems (level + 1) items).map (newLine (level + 1) ++ ·)) := by
      rw [prettyItems_eq, List.map_map]
      exact forall₂_map fun j hj => (ih j hj (level + 1)).space (allSpace_newLine _)
    rw [prettyAt, hlines]
    exact reads_array hparts hsp
  | @object members _ ih =>
    obtain ⟨sp, hsp, hlines⟩ := onLines_eq level '\x7b' '\x7d'
      (prettyMembers (level + 1) (members.map fun m => (some m.1, m.2)))
    have hparts : List.Forall₂ ReadsMember (members.map fun m => (some m.1, m.2))
        ((prettyMembers (level + 1) (members.map fun m => (some m.1, m.2))).map (newLine (level + 1) ++ ·)) := by
      rw [prettyMembers_eq, List.map_map]
      refine forall₂_map fun m hm => ?_
      obtain ⟨m, hmem, rfl⟩ := List.mem_map.1 hm
      have hspace : AllSpace [' '] := by
        intro c hc
        rw [List.mem_singleton.1 hc]
        rfl
      exact ⟨newLine (level + 1), m.1, ' ' :: prettyAt (level + 1) m.2, allSpace_newLine _, rfl, rfl,
        (ih m hmem (level + 1)).space hspace⟩
    rw [ofMembers, prettyAt, hlines]
    exact reads_object hparts hsp

theorem Reads.read? {j : Json} {text : List Char} (h : Reads j text) : read? text = some j := by
  have hread := h (2 * text.length + 2) [] (Nat.le_add_right _ _) ends_nil
  rw [List.append_nil] at hread
  rw [Json.read?, hread]
  rfl

end FileGraph.Json
