import Mathlib.Data.List.Forall2
import FileGraph.Proofs.Source.Modules
/-!
# ImportLists — what is listed is imported

The items of a list have commas between them, white space around them, and may have other names.  Of each item the
first word is imported, and nothing is taken off it (`importedNames_of_lists`).
-/
namespace FileGraph.Source.Grammar.Python

open Text Shape

def Blank (cs : List Char) : Prop := ∀ c ∈ cs, isBlank c = true

instance (cs : List Char) : Decidable (Blank cs) := List.decidableBAll _ cs

/-- White space that separates two words. -/
def Gap (cs : List Char) : Prop := cs ≠ [] ∧ Blank cs

/-- Another name for what stands before, or none. -/
inductive Alias : List Char → Prop where
  | none : Alias []
  | named {gap gap' : List Char} (name : Name) : Gap gap → Gap gap' → Alias (gap ++ "as".toList ++ gap' ++ name.chars)

/-- An item of a list, with white space around it. -/
inductive Item (text : List Char) : List Char → Prop where
  | mk {left other right : List Char} : Blank left → Alias other → Blank right →
      Item text (left ++ text ++ other ++ right)

/-- Items with commas between them. -/
inductive Lists (texts : List (List Char)) : List Char → Prop where
  | mk {items : List (List Char)} : List.Forall₂ Item texts items → Lists texts ([','].intercalate items)

/-! ## Lists -/

theorem Alias.chars {cs : List Char} (h : Alias cs) : ∀ c ∈ cs, isBlank c = true ∨ isModuleChar c = true := by
  cases h with
  | none => nofun
  | named name hgap hgap' =>
    intro c hc
    simp only [List.mem_append] at hc
    rcases hc with ((hc | hc) | hc) | hc
    · exact .inl (hgap.2 c hc)
    · exact .inr (List.all_eq_true.1 (by decide +kernel : "as".toList.all isModuleChar = true) c hc)
    · exact .inl (hgap'.2 c hc)
    · exact .inr (name.isModuleChar c hc)

theorem Alias.head {cs : List Char} (h : Alias cs) : cs.head?.all isBlank = true := by
  cases h with
  | none => rfl
  | named name hgap hgap' =>
    obtain ⟨c, gap, rfl⟩ := List.exists_cons_of_ne_nil hgap.1
    exact hgap.2 c List.mem_cons_self

/-- What follows an item's text does not continue its first word. -/
theorem Alias.takeWhile_append {other right : List Char} (hother : Alias other) (hright : Blank right) :
    (other ++ right).takeWhile (fun c => !isBlank c) = [] := by
  have hhead : (other ++ right).head?.all isBlank = true := by
    cases other with
    | nil =>
      cases right with
      | nil => rfl
      | cons c cs => exact hright c List.mem_cons_self
    | cons c cs => exact hother.head
  cases hrest : other ++ right with
  | nil => rfl
  | cons c cs =>
    rw [hrest] at hhead
    have hc : isBlank c = true := hhead
    exact List.takeWhile_cons_of_neg (by simp [hc])

section Items

variable {text item : List Char} {texts : List (List Char)} {list : List Char}

theorem Item.chars (h : Item text item) (htext : Dotted text) :
    ∀ c ∈ item, isBlank c = true ∨ isModuleChar c = true := by
  cases h with
  | mk hleft hother hright =>
    intro c hc
    simp only [List.mem_append] at hc
    rcases hc with ((hc | hc) | hc) | hc
    · exact .inl (hleft c hc)
    · exact .inr (htext.chars c hc)
    · exact hother.chars c hc
    · exact .inl (hright c hc)

/-- The first word of an item is what is imported. -/
theorem Item.firstWord? (h : Item text item) (htext : Dotted text) : Text.firstWord? item = some text := by
  obtain ⟨hne, hchars⟩ := htext
  cases h with
  | @mk left other right hleft hother hright =>
    obtain ⟨c, cs, rfl⟩ := List.exists_cons_of_ne_nil hne
    have hink : ∀ x ∈ c :: cs, (!isBlank x) = true := fun x hx => by
      rw [isBlank_of_isModuleChar (hchars x hx)]
      rfl
    have hc : isBlank c = false := isBlank_of_isModuleChar (hchars c List.mem_cons_self)
    have hstart : (left ++ c :: cs ++ other ++ right).dropWhile isBlank = c :: cs ++ (other ++ right) := by
      rw [List.append_assoc, List.append_assoc, List.dropWhile_append_of_pos hleft]
      exact List.dropWhile_cons_of_neg (by simp [hc])
    rw [Text.firstWord?, hstart, List.takeWhile_append_of_pos hink, hother.takeWhile_append hright,
      List.append_nil]

/-- Nothing is taken off the ends of what is imported. -/
theorem trimmed_of_dotted (h : Dotted text) :
    dropEndWhile (someOf "()\\") (text.dropWhile (someOf "()\\")) = text := by
  have hnone : "()\\".toList.any isModuleChar = false := by decide +kernel
  have hkept : ∀ c ∈ text, someOf "()\\" c = false := by
    intro c hc
    refine Bool.eq_false_iff.2 fun hsome => ?_
    exact List.any_eq_false.1 hnone c (List.contains_iff_mem.1 hsome) (h.chars c hc)
  rw [dropWhile_eq_self hkept, dropEndWhile_eq_self hkept]

theorem Item.notMem {x : Char} (h : Item text item) (htext : Dotted text) (hblank : isBlank x = false)
    (hchar : isModuleChar x = false) : x ∉ item := by
  intro hmem
  rcases h.chars htext x hmem with hx | hx
  · rw [hblank] at hx
    cases hx
  · rw [hchar] at hx
    cases hx

theorem exists_of_mem_items :
    ∀ {texts items : List (List Char)}, List.Forall₂ Item texts items → ∀ item ∈ items, ∃ t ∈ texts, Item t item
  | _, _, .nil => nofun
  | _, _, .cons hitem hitems => List.forall_mem_cons.2 ⟨⟨_, List.mem_cons_self, hitem⟩, fun item h =>
    have ⟨t, ht, hitem⟩ := exists_of_mem_items hitems item h
    ⟨t, List.mem_cons_of_mem _ ht, hitem⟩⟩

/-- No such text is passed over. -/
theorem imported_of_dotted (h : Dotted text) : (match text with
    | [] => none
    | ['*'] => none
    | name => some (String.ofList name)) = some (.ofList text) := by
  have hstar : isModuleChar '*' = false := by decide +kernel
  split
  · exact absurd rfl h.ne_nil
  · have hmem := h.chars '*' List.mem_cons_self
    rw [hstar] at hmem
    cases hmem
  · rfl

/-- What is listed is imported. -/
theorem importedNames_of_lists (htexts : ∀ t ∈ texts, Dotted t) (hne : texts ≠ []) (h : Lists texts list) :
    importedNames list = texts.map String.ofList := by
  cases h with
  | @mk items hitems =>
    have hcomma : ∀ item ∈ items, ',' ∉ item := by
      intro item hmem
      obtain ⟨text, htext, hitem⟩ := exists_of_mem_items hitems item hmem
      exact hitem.notMem (htexts text htext) (by decide) (by decide +kernel)
    have hitems' : items ≠ [] := by
      rintro rfl
      cases hitems
      exact hne rfl
    rw [importedNames, pieces_intercalate hitems' hcomma]
    clear hcomma hne hitems'
    induction hitems with
    | nil => rfl
    | @cons text item texts items hitem _ ih =>
      rw [List.forall_mem_cons] at htexts
      have hdotted := htexts.1
      refine (List.filterMap_cons_some ?_).trans (congrArg _ (ih htexts.2))
      rw [hitem.firstWord? hdotted]
      simp only [trimmed_of_dotted hdotted]
      exact imported_of_dotted hdotted

/-- The first item of a list begins with what is imported, white space aside. -/
theorem Lists.trimmed {t : List Char} {ts : List (List Char)} (h : Lists (t :: ts) list) :
    ∃ left tail, Blank left ∧ list = left ++ (t ++ tail) ∧ Lists (t :: ts) (t ++ tail) := by
  have hintercalate : ∀ (us vs : List Char) (parts : List (List Char)),
      [','].intercalate ((us ++ vs) :: parts) = us ++ [','].intercalate (vs :: parts) := by
    intro us vs parts
    cases parts <;> simp [List.intercalate_cons_cons]
  cases h with
  | mk hitems =>
    cases hitems with
    | @cons _ item _ items hitem hrest =>
      cases hitem with
      | @mk left other right hleft hother hright =>
        refine ⟨left, [','].intercalate ((other ++ right) :: items), hleft, ?_, ?_⟩
        · rw [← hintercalate, ← hintercalate, List.append_assoc, List.append_assoc]
        · rw [← hintercalate]
          refine .mk (.cons ?_ hrest)
          have hitem : Item t ([] ++ t ++ other ++ right) := .mk nofun hother hright
          rwa [List.nil_append, List.append_assoc] at hitem

theorem Lists.notMem {x : Char} (htexts : ∀ t ∈ texts, Dotted t) (h : Lists texts list) (hblank : isBlank x = false)
    (hchar : isModuleChar x = false) (hcomma : x ≠ ',') : x ∉ list := by
  intro hmem
  cases h with
  | @mk items hitems =>
    obtain ⟨item, hmem, hx⟩ := (mem_intercalate hmem).resolve_left hcomma
    obtain ⟨text, htext, hitem⟩ := exists_of_mem_items hitems item hmem
    exact hitem.notMem (htexts text htext) hblank hchar hx

end Items

end FileGraph.Source.Grammar.Python
