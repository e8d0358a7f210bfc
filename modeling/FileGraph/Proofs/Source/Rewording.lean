import FileGraph.Source.Extent.Braces
import Mathlib.Data.List.Forall2
import Mathlib.Logic.Relation
/-!
# Rewording — what strings and comments say has no part in extents

A scan of a line goes from one character to the next by what it stands in and by a few characters ahead
(`Scan.next?`, `codeCharsFrom_cons`).  Looking ahead it may see the beginning of a string's body, but nothing that an
apostrophe at that beginning does not decide (`literalLength_append`).  So another body of the string, or another text
of a comment, is neither noticed before it is reached nor part of the code (`Reworded.codeChars_eq`), and all extents
stay as they are (`braceExtent_reworded`).

Two delimiters are different.  A string that a backslash opens has no end, and an apostrophe before it may make a
character literal of the two; and where slashes delimit strings, none of them starts a comment
(`reworded_extents_differ`).
-/
namespace FileGraph.Source

/-! ## One character -/

/-- Whether what a scan comes to next may be code. -/
def Scan.inCode : Scan → Bool
  | .code | .literal 0 => true
  | _ => false

/-- Where a scan in code stands after a character; nowhere if a comment starts with it. -/
def fromCode? (quotes : List Char) (c : Char) (rest : List Char) : Option Scan :=
  if quotes.contains c then some (.quoted c false)
  else if c = '\'' ∧ 0 < literalLength rest then some (.literal (literalLength rest))
  else if c = '/' ∧ rest.head? = some '/' then none
  else some .code

/-- Where a scan stands after a character, with the rest of the line after it. -/
def Scan.next? (quotes : List Char) (s : Scan) (c : Char) (rest : List Char) : Option Scan :=
  match s with
  | .code | .literal 0 => fromCode? quotes c rest
  | .literal (n + 1) => some (if n = 0 then .code else .literal n)
  | .quoted q true => some (.quoted q false)
  | .quoted q false => some (if c = '\\' then .quoted q true else if c = q then .code else .quoted q false)

theorem codeCharsFrom_inCode (quotes : List Char) {s : Scan} (hs : s.inCode = true) (c : Char) (cs : List Char) :
    codeCharsFrom quotes s (c :: cs) =
      match fromCode? quotes c cs with
      | none => []
      | some s' => (if s'.inCode then [c] else []) ++ codeCharsFrom quotes s' cs := by
  have hcode : codeCharsFrom quotes s (c :: cs) =
      if quotes.contains c then codeCharsFrom quotes (.quoted c false) cs
      else if c = '\'' ∧ 0 < literalLength cs then codeCharsFrom quotes (.literal (literalLength cs)) cs
      else if c = '/' ∧ cs.head? = some '/' then []
      else c :: codeCharsFrom quotes .code cs := by
    match s, hs with
    | .code, _ => rfl
    | .literal 0, _ => rfl
  rw [hcode, fromCode?]
  by_cases hquote : quotes.contains c = true
  · simp only [if_pos hquote]
    rfl
  by_cases hliteral : c = '\'' ∧ 0 < literalLength cs
  · simp only [if_neg hquote, if_pos hliteral]
    obtain ⟨n, hn⟩ := Nat.exists_eq_succ_of_ne_zero (Nat.ne_of_gt hliteral.2)
    rw [hn]
    rfl
  by_cases hcomment : c = '/' ∧ cs.head? = some '/'
  · simp only [if_neg hquote, if_neg hliteral, if_pos hcomment]
  · simp only [if_neg hquote, if_neg hliteral, if_neg hcomment]
    rfl

/-- **A character is code if the scan is in code before and after it.** -/
theorem codeCharsFrom_cons (quotes : List Char) (s : Scan) (c : Char) (cs : List Char) :
    codeCharsFrom quotes s (c :: cs) =
      match s.next? quotes c cs with
      | none => []
      | some s' => (if s.inCode && s'.inCode then [c] else []) ++ codeCharsFrom quotes s' cs := by
  match s with
  | .code => exact codeCharsFrom_inCode quotes rfl c cs
  | .literal 0 => exact codeCharsFrom_inCode quotes rfl c cs
  | .literal (n + 1) => rfl
  | .quoted q true => rfl
  | .quoted q false =>
    simp only [codeCharsFrom, Scan.next?]
    by_cases hescape : c = '\\'
    · simp only [if_pos hescape]
      rfl
    · by_cases hend : c = q
      · simp only [if_neg hescape, if_pos hend]
        rfl
      · simp only [if_neg hescape, if_neg hend]
        rfl

/-! ## Up to a place -/

/-- Where a scan stands after some text, with the rest of the line after it; nowhere if a comment starts in it. -/
def scanThrough (quotes : List Char) : Scan → (text rest : List Char) → Option Scan
  | s, [], _ => some s
  | s, c :: text, rest => (s.next? quotes c (text ++ rest)).bind fun s' => scanThrough quotes s' text rest

/-- That a scan comes to the rest of a line outside of strings, character literals and comments. -/
def Reaches (quotes text rest : List Char) : Prop := scanThrough quotes .code text rest = some .code

/-- **What is ahead counts only if a step sees it**: two rests that no step before them tells apart, and whose own code
is the same, come after the same code. -/
theorem codeCharsFrom_append_congr {quotes rest rest' : List Char} {s' : Scan}
    (hrest : codeCharsFrom quotes s' rest = codeCharsFrom quotes s' rest') : ∀ (text : List Char) (s : Scan),
    (∀ (s : Scan) (c : Char) (later : List Char), c :: later <:+ text →
      s.next? quotes c (later ++ rest) = s.next? quotes c (later ++ rest')) →
    scanThrough quotes s text rest = some s' →
      codeCharsFrom quotes s (text ++ rest) = codeCharsFrom quotes s (text ++ rest')
  | [], s, _, h => by
    cases h
    exact hrest
  | c :: text, s, hnext, h => by
    rw [scanThrough] at h
    rw [List.cons_append, List.cons_append, codeCharsFrom_cons, codeCharsFrom_cons,
      ← hnext s c text List.suffix_rfl]
    obtain ⟨t, ht, h⟩ := Option.bind_eq_some_iff.1 h
    have ih := codeCharsFrom_append_congr hrest text t
      (fun s d later hlater => hnext s d later (hlater.trans (List.suffix_cons c text))) h
    simp only [ht, ih]

/-! ## Looking ahead -/

theorem literalLength_eq (cs : List Char) : literalLength cs =
    if cs[0]? = some '\\' ∧ cs[2]? = some '\'' then 3
    else if cs[0]? ≠ some '\\' ∧ cs[1]? = some '\'' then 2
    else 0 := by
  match cs with
  | [] => rfl
  | [c] => simp [literalLength]
  | [c, d] =>
    by_cases hd : d = '\''
    · subst hd
      by_cases hc : c = '\\' <;> simp [literalLength, hc]
    · simp [literalLength, hd]
  | c :: d :: e :: cs =>
    by_cases hc : c = '\\'
    · by_cases he : e = '\''
      · simp [literalLength, hc, he]
      · by_cases hd : d = '\'' <;> simp [literalLength, hc, he, hd]
    · by_cases hd : d = '\'' <;> simp [literalLength, hc, hd]

/-- **A character literal takes in no character but an apostrophe that no apostrophe follows**, except for a backslash
at its beginning. -/
theorem literalLength_append {q : Char} (hquote : q ≠ '\'') {ahead ahead' : List Char}
    (h : ahead.head? ≠ some '\'') (h' : ahead'.head? ≠ some '\'') : ∀ (text : List Char), (text = [] → q ≠ '\\') →
      literalLength (text ++ q :: ahead) = literalLength (text ++ q :: ahead')
  | [], hescape => by
    rw [List.head?_eq_getElem?] at h h'
    simp [literalLength_eq, hescape rfl, h, h']
  | [c], _ => by
    rw [List.head?_eq_getElem?] at h h'
    simp [literalLength_eq, hquote, h, h']
  | [c, d], _ => by simp [literalLength_eq]
  | c :: d :: e :: text, _ => by simp [literalLength_eq]

/-- **What stands after a character is not noticed before it**, unless an apostrophe right after it makes it part of a
character literal, or an apostrophe right before it and the character is a backslash. -/
theorem next?_append {quotes : List Char} {q : Char} {ahead ahead' : List Char}
    (h : '\'' ∉ quotes → q ≠ '\'' ∧ ahead.head? ≠ some '\'' ∧ ahead'.head? ≠ some '\'')
    (s : Scan) (c : Char) (text : List Char) (hescape : q = '\\' → '\'' ∈ quotes ∨ c :: text ≠ ['\'']) :
    s.next? quotes c (text ++ q :: ahead) = s.next? quotes c (text ++ q :: ahead') := by
  have hslash : (text ++ q :: ahead).head? = (text ++ q :: ahead').head? := by cases text <;> rfl
  have hcode : fromCode? quotes c (text ++ q :: ahead) = fromCode? quotes c (text ++ q :: ahead') := by
    unfold fromCode?
    rw [hslash]
    by_cases hc : c = '\''
    · by_cases hq : '\'' ∈ quotes
      · simp [hc, hq]
      · obtain ⟨hquote, h, h'⟩ := h hq
        have hbackslash : text = [] → q ≠ '\\' := fun htext hq' =>
          (hescape hq').elim hq fun hne => hne (by rw [hc, htext])
        rw [literalLength_append hquote h h' text hbackslash]
    · simp [hc]
  match s with
  | .code => exact hcode
  | .literal 0 => exact hcode
  | .literal (n + 1) => rfl
  | .quoted q true => rfl
  | .quoted q false => rfl

/-! ## Bodies of strings -/

/-- Whether the character after some text is escaped, where `escaped` says whether the first of the text is. -/
def escapesNext (escaped : Bool) (text : List Char) : Bool :=
  text.foldl (fun escaped c => !escaped && c == '\\') escaped

/-- That a text is the body of a string with a delimiter: each delimiter in it is escaped, and it does not end in an
unescaped backslash. -/
structure IsBody (q : Char) (text : List Char) : Prop where
  escaped  : ∀ i < text.length, text[i]? = some q → escapesNext false (text.take i) = true
  complete : escapesNext false text = false

instance (q : Char) (text : List Char) : Decidable (IsBody q text) :=
  decidable_of_iff ((∀ i < text.length, text[i]? = some q → escapesNext false (text.take i) = true) ∧
    escapesNext false text = false) ⟨fun h => ⟨h.1, h.2⟩, fun h => ⟨h.1, h.2⟩⟩

theorem codeCharsFrom_body (quotes : List Char) {q : Char} (hescape : q ≠ '\\') (rest : List Char) :
    ∀ (text : List Char) (escaped : Bool),
      (∀ i < text.length, text[i]? = some q → escapesNext escaped (text.take i) = true) →
      escapesNext escaped text = false →
        codeCharsFrom quotes (.quoted q escaped) (text ++ q :: rest) = codeCharsFrom quotes .code rest
  | [], escaped, _, hend => by
    obtain rfl : escaped = false := hend
    rw [List.nil_append, codeCharsFrom, if_neg hescape, if_pos rfl]
  | c :: text, escaped, hq, hend => by
    have hlater : ∀ i < text.length, text[i]? = some q →
        escapesNext (!escaped && c == '\\') (text.take i) = true := fun i hi hc =>
      hq (i + 1) (Nat.succ_lt_succ hi) hc
    have ih := codeCharsFrom_body quotes hescape rest text _ hlater hend
    cases escaped with
    | true =>
      rw [List.cons_append, codeCharsFrom]
      exact ih
    | false =>
      have hne : c ≠ q := fun hc => by simpa [escapesNext] using hq 0 (Nat.succ_pos _) (by rw [hc]; rfl)
      rw [List.cons_append, codeCharsFrom, if_neg hne]
      by_cases hc : c = '\\'
      · rw [if_pos hc]
        simpa [hc] using ih
      · have hc' : (c == '\\') = false := beq_false_of_ne hc
        rw [if_neg hc]
        simpa [hc'] using ih

theorem codeCharsFrom_backslash (quotes : List Char) : ∀ (text : List Char) (escaped : Bool),
    codeCharsFrom quotes (.quoted '\\' escaped) text = []
  | [], _ => by simp [codeCharsFrom]
  | c :: text, true => by
    rw [codeCharsFrom]
    exact codeCharsFrom_backslash quotes text false
  | c :: text, false => by
    rw [codeCharsFrom]
    by_cases hc : c = '\\'
    · rw [if_pos hc]
      exact codeCharsFrom_backslash quotes text true
    · rw [if_neg hc, if_neg hc]
      exact codeCharsFrom_backslash quotes text false

/-! ## Rewording -/

/-- That the body of one string of a line, with the given delimiter and after the given text, is replaced by another
one.  Where an apostrophe delimits no strings, neither body begins with one. -/
inductive StringReworded (quotes before : List Char) (q : Char) : (line line' : List Char) → Prop where
  | intro {body body' after : List Char} : q ∈ quotes → Reaches quotes before (q :: (body ++ q :: after)) →
      IsBody q body → IsBody q body' → ('\'' ∉ quotes → body.head? ≠ some '\'' ∧ body'.head? ≠ some '\'') →
      StringReworded quotes before q (before ++ q :: (body ++ q :: after)) (before ++ q :: (body' ++ q :: after))

/-- That the text of a line's comment is replaced by another one. -/
inductive CommentReworded (quotes : List Char) : (line line' : List Char) → Prop where
  | intro {before text text' : List Char} : Reaches quotes before ('/' :: '/' :: text) →
      CommentReworded quotes (before ++ '/' :: '/' :: text) (before ++ '/' :: '/' :: text')

/-- That a line is reworded in one place: in a string, unless a backslash opens it right after an apostrophe that opens
none, or in a comment, where slashes delimit no strings. -/
def Reworded (quotes line line' : List Char) : Prop :=
  (∃ before q, StringReworded quotes before q line line' ∧
      (q = '\\' → '\'' ∈ quotes ∨ before.getLast? ≠ some '\'')) ∨
    '/' ∉ quotes ∧ CommentReworded quotes line line'

theorem StringReworded.codeChars_eq {quotes before line line' : List Char} {q : Char}
    (h : StringReworded quotes before q line line')
    (hescape : q = '\\' → '\'' ∈ quotes ∨ before.getLast? ≠ some '\'') :
    codeChars quotes line = codeChars quotes line' := by
  obtain ⟨hq, hreach, hbody, hbody', hapostrophe⟩ := h
  rename_i body body' after
  have hopens : ∀ (rest : List Char), codeCharsFrom quotes .code (q :: rest) =
      codeCharsFrom quotes (.quoted q false) rest := by
    intro rest
    have hnext : Scan.code.next? quotes q rest = some (.quoted q false) := if_pos (List.contains_iff_mem.2 hq)
    rw [codeCharsFrom_cons, hnext]
    rfl
  have hstring : codeCharsFrom quotes .code (q :: (body ++ q :: after)) =
      codeCharsFrom quotes .code (q :: (body' ++ q :: after)) := by
    rw [hopens, hopens]
    by_cases hbackslash : q = '\\'
    · rw [hbackslash, codeCharsFrom_backslash, codeCharsFrom_backslash]
    · rw [codeCharsFrom_body quotes hbackslash after body false hbody.escaped hbody.complete,
        codeCharsFrom_body quotes hbackslash after body' false hbody'.escaped hbody'.complete]
  have hhead : ∀ (body : List Char), '\'' ∉ quotes → body.head? ≠ some '\'' →
      (body ++ q :: after).head? ≠ some '\'' := by
    intro body hquotes hne
    cases body with
    | nil => exact fun h => hquotes (Option.some.inj h ▸ hq)
    | cons c body => exact hne
  refine codeCharsFrom_append_congr hstring before .code (fun s c later hlater => ?_) hreach
  refine next?_append (fun hquotes => ?_) s c later fun hbackslash => (hescape hbackslash).imp_right fun hlast he => ?_
  · exact ⟨fun h => hquotes (h ▸ hq), hhead body hquotes (hapostrophe hquotes).1,
      hhead body' hquotes (hapostrophe hquotes).2⟩
  · obtain ⟨pre, rfl⟩ := hlater
    exact hlast (by rw [he, List.getLast?_concat])

theorem CommentReworded.codeChars_eq {quotes line line' : List Char} (h : CommentReworded quotes line line')
    (hslash : '/' ∉ quotes) : codeChars quotes line = codeChars quotes line' := by
  obtain ⟨hreach⟩ := h
  rename_i before text text'
  have hcomment : ∀ (text : List Char), codeCharsFrom quotes .code ('/' :: '/' :: text) = [] := by
    intro text
    have hends : Scan.code.next? quotes '/' ('/' :: text) = none := by
      simp [Scan.next?, fromCode?, hslash]
    rw [codeCharsFrom_cons, hends]
  refine codeCharsFrom_append_congr (by rw [hcomment, hcomment]) before .code (fun s c later _ => ?_) hreach
  exact next?_append (fun _ => ⟨by decide, by simp, by simp⟩) s c later fun h => absurd h (by decide)

theorem Reworded.codeChars_eq {quotes line line' : List Char} (h : Reworded quotes line line') :
    codeChars quotes line = codeChars quotes line' := by
  rcases h with ⟨before, q, h, hescape⟩ | ⟨hslash, h⟩
  · exact h.codeChars_eq hescape
  · exact h.codeChars_eq hslash

/-- Extents depend on the code of the lines only. -/
theorem braceExtentFrom_congr (lookahead : Nat) {quotes : List Char} : ∀ {ls ls' : List (List Char)},
    ls.map (codeChars quotes) = ls'.map (codeChars quotes) → ∀ (offset : Nat) (d : Option Nat),
      braceExtentFrom lookahead quotes offset d ls = braceExtentFrom lookahead quotes offset d ls'
  | [], [], _, _, _ => rfl
  | [], _ :: _, h, _, _ => nomatch h
  | _ :: _, [], h, _, _ => nomatch h
  | line :: rest, line' :: rest', h, offset, d => by
    obtain ⟨hline, hrest⟩ := List.cons.inj h
    have ih := braceExtentFrom_congr lookahead hrest
    simp only [braceExtentFrom, hline, ih]

/-- **What strings and comments say has no part in extents**: however many lines are reworded, and however often each,
the code of each line and the extent from each line on are the same. -/
theorem braceExtent_reworded {quotes : List Char} {ls ls' : List (List Char)}
    (h : List.Forall₂ (Relation.ReflTransGen (Reworded quotes)) ls ls') :
    ls.map (codeChars quotes) = ls'.map (codeChars quotes) ∧
      ∀ (limits : Limits) (start : Nat),
        braceExtent limits quotes (ls.drop start) = braceExtent limits quotes (ls'.drop start) := by
  have hline : ∀ {line line' : List Char}, Relation.ReflTransGen (Reworded quotes) line line' →
      codeChars quotes line = codeChars quotes line' := by
    intro line line' h
    induction h with
    | refl => rfl
    | tail _ hstep ih => exact ih.trans hstep.codeChars_eq
  have hcode : ls.map (codeChars quotes) = ls'.map (codeChars quotes) := by
    induction h with
    | nil => rfl
    | cons hl _ ih => rw [List.map_cons, List.map_cons, hline hl, ih]
  refine ⟨hcode, fun limits start => ?_⟩
  refine braceExtentFrom_congr limits.lookahead ?_ 0 none
  rw [List.map_take, List.map_take, List.map_drop, List.map_drop, hcode]

def sampleAround (line : List Char) : List (List Char) := ["fn a() \x7b".toList, line, "\x7d".toList]

/-- Braces in a string and in a comment, others in both, and none. -/
theorem braceExtent_reworded_sample :
    let line := "  let s = \"\x7d\"; // \x7d".toList
    let line' := "  let s = \"\\\"\x7b\"; // \x7b\x7b".toList
    List.Forall₂ (Relation.ReflTransGen (Reworded ['"'])) (sampleAround line) (sampleAround line') ∧
      braceExtent ⟨3, 200⟩ ['"'] (sampleAround line) = 3 ∧ braceExtent ⟨3, 200⟩ ['"'] (sampleAround line') = 3 := by
  intro line line'
  have hstring : Reworded ['"'] line ("  let s = \"\\\"\x7b\"; // \x7d".toList) :=
    .inl ⟨"  let s = ".toList, '"', @StringReworded.intro _ _ _ "\x7d".toList "\\\"\x7b".toList "; // \x7d".toList
      (by decide) rfl (by decide) (by decide) (fun _ => by decide), fun h => absurd h (by decide)⟩
  have hcomment : Reworded ['"'] ("  let s = \"\\\"\x7b\"; // \x7d".toList) line' :=
    .inr ⟨by decide, @CommentReworded.intro _ "  let s = \"\\\"\x7b\"; ".toList " \x7d".toList " \x7b\x7b".toList rfl⟩
  have hlines : List.Forall₂ (Relation.ReflTransGen (Reworded ['"'])) (sampleAround line) (sampleAround line') :=
    .cons .refl (.cons (.tail (.single hstring) hcomment) (.cons .refl .nil))
  have hextent : braceExtent ⟨3, 200⟩ ['"'] (sampleAround line) = 3 := by decide +kernel
  exact ⟨hlines, hextent, ((braceExtent_reworded hlines).2 ⟨3, 200⟩ 0).symm.trans hextent⟩

/-- Where a backslash opens a string right after an apostrophe, the string's body decides whether the two begin a
character literal; and where slashes delimit strings, two of them start no comment. -/
theorem reworded_extents_differ :
    (StringReworded ['\\'] ['\''] '\\' "'\\xy\x7d\\".toList "'\\x'\x7d\\".toList ∧
        braceExtent ⟨3, 200⟩ ['\\'] (sampleAround "'\\xy\x7d\\".toList) = 3 ∧
        braceExtent ⟨3, 200⟩ ['\\'] (sampleAround "'\\x'\x7d\\".toList) = 2) ∧
      CommentReworded ['/'] "//x".toList "//\x7d".toList ∧
        braceExtent ⟨3, 200⟩ ['/'] (sampleAround "//x".toList) = 3 ∧
        braceExtent ⟨3, 200⟩ ['/'] (sampleAround "//\x7d".toList) = 2 := by
  refine ⟨⟨?_, by decide +kernel, by decide +kernel⟩, ?_, by decide +kernel, by decide +kernel⟩
  · exact @StringReworded.intro _ _ _ "xy\x7d".toList "x'\x7d".toList [] (by decide) rfl (by decide) (by decide)
      (fun _ => by decide)
  · exact @CommentReworded.intro _ [] "x".toList "\x7d".toList rfl

end FileGraph.Source
