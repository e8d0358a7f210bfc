import FileGraph.Source.Analysis
/-!
# Inventory — what is recorded of a text

Each function of an analysis stands at a line with a signature of its name and extends over as many lines as the grammar
says from there, one at least (`Stands`).  That line is all that decides about it: two functions with one first line are
the same.
-/
namespace FileGraph.Source

/-- The last line of a function, counted from one. -/
def Span.lastLine (s : Span) : Nat := s.firstLine + s.lineCount - 1

theorem Inventory.mem_record {reserved : List String} {t : Inventory} {name : String} {index count : Nat}
    {e : String × Span} (h : e ∈ (t.record reserved name index count).entries) :
    e = (name, ⟨index + 1, max count 1⟩) ∨ e ∈ t.entries := by
  unfold record at h
  split at h
  · exact NameMap.mem_insertSorted h
  · exact .inr h

namespace Grammar

variable {g : Grammar} {limits : Limits}

/-- That a function stands in a text: at `start` there is a signature of its name, and it extends from there on as the
grammar says. -/
structure Stands (g : Grammar) (limits : Limits) (ls : List (List Char)) (e : String × Span) (start : Nat)
    (line : List Char) (rest : List (List Char)) : Prop where
  drop      : ls.drop start = line :: rest
  signature : g.signature line = some e.1.toList
  span      : e.2 = ⟨start + 1, max (g.extent limits (line :: rest)) 1⟩

theorem mem_inventoryFrom {e : String × Span} : ∀ (ls : List (List Char)) (index : Nat) (t : Inventory),
    e ∈ (g.inventoryFrom limits index ls t).entries →
      e ∈ t.entries ∨ ∃ i line rest, ls.drop i = line :: rest ∧ g.signature line = some e.1.toList ∧
        e.2 = ⟨index + i + 1, max (g.extent limits (line :: rest)) 1⟩
  | [], index, t, h => .inl h
  | line :: rest, index, t, h => by
    -- what is recorded later on stands one line further down
    have hlater : ∀ t', e ∈ (g.inventoryFrom limits (index + 1) rest t').entries →
        e ∈ t'.entries ∨ ∃ i line' rest', (line :: rest).drop i = line' :: rest' ∧
          g.signature line' = some e.1.toList ∧
          e.2 = ⟨index + i + 1, max (g.extent limits (line' :: rest')) 1⟩ := by
      intro t' h'
      rcases mem_inventoryFrom rest (index + 1) t' h' with h' | ⟨i, line', rest', hdrop, hs, he⟩
      · exact .inl h'
      · exact .inr ⟨i + 1, line', rest', hdrop, hs, by rw [he]; congr 1; omega⟩
    unfold inventoryFrom at h
    split at h
    · exact hlater t h
    · rename_i name hname
      rcases hlater _ h with h | h
      · split at h
        · rcases Inventory.mem_record h with rfl | h
          · exact .inr ⟨0, line, rest, rfl, by simpa using hname, rfl⟩
          · exact .inl h
        · exact .inl h
      · exact .inr h

theorem stands_of_mem_inventory {content : List Char} {e : String × Span}
    (h : e ∈ (g.inventory limits content).entries) :
    ∃ start line rest, g.Stands limits (Text.lines content) e start line rest := by
  rcases mem_inventoryFrom _ 0 _ h with h | ⟨i, line, rest, hdrop, hs, he⟩
  · cases h
  · exact ⟨i, line, rest, hdrop, hs, by simpa using he⟩

section Stands

variable {ls : List (List Char)} {e e' : String × Span} {start : Nat} {line line' : List Char}
  {rest rest' : List (List Char)}

theorem Stands.firstLine (h : g.Stands limits ls e start line rest) : e.2.firstLine = start + 1 := by rw [h.span]

theorem Stands.lineCount (h : g.Stands limits ls e start line rest) :
    e.2.lineCount = max (g.extent limits (line :: rest)) 1 := by rw [h.span]

theorem Stands.lastLine (h : g.Stands limits ls e start line rest) :
    e.2.lastLine = start + max (g.extent limits (line :: rest)) 1 := by
  rw [Span.lastLine, h.span]
  simp only
  omega

/-- **Functions that stand at one line are the same.** -/
theorem Stands.eq (h : g.Stands limits ls e start line rest) (h' : g.Stands limits ls e' start line' rest') :
    e = e' := by
  obtain ⟨rfl, rfl⟩ := List.cons.inj (h.drop.symm.trans h'.drop)
  have hname : e.1 = e'.1 := String.toList_inj.1 (Option.some.inj (h.signature.symm.trans h'.signature))
  exact Prod.ext hname (h.span.trans h'.span.symm)

end Stands

end Grammar

/-- All functions of a file stand in it by one grammar. -/
theorem stands_of_mem_analyzeFile {limits : Limits} {language : Language} {content : String} {e : String × Span}
    (h : e ∈ (analyzeFile limits language content).functions.entries) :
    ∃ g, grammar? language = some g ∧ ∀ e' ∈ (analyzeFile limits language content).functions.entries,
      ∃ start line rest, g.Stands limits (Text.lines content.toList) e' start line rest := by
  unfold analyzeFile at h ⊢
  cases hg : grammar? language with
  | none =>
    rw [hg] at h
    cases h
  | some g =>
    simp only [hg] at h ⊢
    refine ⟨g, rfl, fun e' he' => ?_⟩
    unfold Grammar.analyze at he'
    split at he'
    · rename_i analysis hok
      split at hok
      · cases hok
        exact Grammar.stands_of_mem_inventory he'
      · cases hok
    · cases he'

end FileGraph.Source
