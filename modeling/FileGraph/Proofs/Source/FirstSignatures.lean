import FileGraph.Proofs.Source.Extents
/-!
# FirstSignatures — the first signature of each admissible name is recorded

What an inventory gives for a name depends on the lines read so far only in that it keeps what it has: a look-up finds
what was there before, or else the first line with a signature of the name (`get?_inventoryFrom`).  So the functions of
a text are its admissible names, each where its signature first stands (`analyze_firstSignatures`).
-/
namespace FileGraph

namespace Source

open Text (lines)

/-- Whether a function may have a name: it is not empty, no word of control flow and no word that the language
reserves. -/
def Admissible (reserved : List String) (name : String) : Prop :=
  name ≠ "" ∧ name ∉ controlWords ∧ name ∉ reserved

instance (reserved : List String) (name : String) : Decidable (Admissible reserved name) :=
  inferInstanceAs (Decidable (_ ∧ _))

/-! ## One line -/

theorem Inventory.wants_iff {reserved : List String} {t : Inventory} {name : String} :
    t.wants reserved name = true ↔ Admissible reserved name ∧ t.get? name = none := by
  simp [wants, Admissible, NameMap.contains, and_assoc]

/-- A signature adds to an inventory what its name does not have yet. -/
theorem Inventory.get?_record (reserved : List String) (t : Inventory) (name other : String) (index count : Nat) :
    (t.record reserved name index count).get? other = (t.get? other).or
      (if Admissible reserved other ∧ name = other then some ⟨index + 1, max count 1⟩ else none) := by
  rw [record]
  by_cases hwants : t.wants reserved name = true
  · obtain ⟨hadmissible, hnew⟩ := wants_iff.1 hwants
    rw [if_pos hwants, NameMap.get?_insert]
    by_cases hname : other = name
    · subst hname
      simp [hadmissible, hnew]
    · simp [hname, Ne.symm hname]
  · rw [if_neg hwants]
    by_cases hother : Admissible reserved other ∧ name = other
    · obtain ⟨hadmissible, rfl⟩ := hother
      obtain ⟨span, hspan⟩ : ∃ span, t.get? name = some span :=
        Option.ne_none_iff_exists'.1 fun hnone => hwants (wants_iff.2 ⟨hadmissible, hnone⟩)
      rw [hspan, Option.some_or]
    · rw [if_neg hother, Option.or_none]

/-! ## All lines -/

namespace Grammar

variable {g : Grammar} {limits : Limits}

/-- The number of lines before the first one with a signature of a name. -/
def firstSignature? (g : Grammar) (ls : List (List Char)) (name : String) : Option Nat :=
  ls.findIdx? fun line => g.signature line == some name.toList

theorem firstSignature?_cons (g : Grammar) (line : List Char) (rest : List (List Char)) (name : String) :
    g.firstSignature? (line :: rest) name =
      if g.signature line = some name.toList then some 0 else (g.firstSignature? rest name).map (· + 1) := by
  simp [firstSignature?, List.findIdx?_cons]

theorem firstSignature?_eq_some_iff {ls : List (List Char)} {name : String} {i : Nat} :
    g.firstSignature? ls name = some i ↔ ∃ line, ls[i]? = some line ∧ g.signature line = some name.toList ∧
      ∀ j < i, ∀ line, ls[j]? = some line → g.signature line ≠ some name.toList := by
  rw [firstSignature?, List.findIdx?_eq_some_iff_getElem]
  constructor
  · rintro ⟨hi, hname, hbefore⟩
    refine ⟨ls[i], List.getElem?_eq_getElem hi, by simpa using hname, fun j hj line hline hs => ?_⟩
    obtain ⟨hlength, rfl⟩ := List.getElem?_eq_some_iff.1 hline
    exact hbefore j hj (by simpa using hs)
  · rintro ⟨line, hline, hname, hbefore⟩
    obtain ⟨hi, rfl⟩ := List.getElem?_eq_some_iff.1 hline
    refine ⟨hi, by simpa using hname, fun j hj hs => ?_⟩
    exact hbefore j hj _ (List.getElem?_eq_getElem (Nat.lt_trans hj hi)) (by simpa using hs)

theorem isSome_firstSignature? {ls : List (List Char)} {name : String} :
    (g.firstSignature? ls name).isSome = true ↔ ∃ line ∈ ls, g.signature line = some name.toList := by
  rw [firstSignature?, List.findIdx?_isSome, List.any_eq_true]
  simp only [beq_iff_eq]

theorem inventoryFrom_cons (g : Grammar) (limits : Limits) (index : Nat) (line : List Char) (rest : List (List Char))
    (t : Inventory) : g.inventoryFrom limits index (line :: rest) t =
      match g.signature line with
      | none => g.inventoryFrom limits (index + 1) rest t
      | some name => g.inventoryFrom limits (index + 1) rest
          (t.record g.reserved (.ofList name) index (g.extent limits (line :: rest))) := by
  rw [inventoryFrom]
  cases g.signature line with
  | none => rfl
  | some name =>
    simp only [Inventory.record]
    by_cases hwants : t.wants g.reserved (.ofList name) = true
    · simp only [if_pos hwants]
    · simp only [if_neg hwants]

variable (g limits) in
/-- **What an inventory gives for a name** is what it gave before the lines, or else the name's first signature among
them. -/
theorem get?_inventoryFrom (name : String) : ∀ (ls : List (List Char)) (index : Nat) (t : Inventory),
    (g.inventoryFrom limits index ls t).get? name = (t.get? name).or
      (if Admissible g.reserved name then
        (g.firstSignature? ls name).map fun i => ⟨index + i + 1, max (g.extent limits (ls.drop i)) 1⟩
      else none)
  | [], index, t => by simp [inventoryFrom, firstSignature?]
  | line :: rest, index, t => by
    have ih := get?_inventoryFrom name rest (index + 1)
    -- without a signature of the name on the line, the first one stands further down
    have hlater : g.signature line ≠ some name.toList →
        (g.firstSignature? (line :: rest) name).map
            (fun i => (⟨index + i + 1, max (g.extent limits ((line :: rest).drop i)) 1⟩ : Span)) =
          (g.firstSignature? rest name).map fun i => ⟨index + 1 + i + 1, max (g.extent limits (rest.drop i)) 1⟩ := by
      intro hne
      rw [firstSignature?_cons, if_neg hne, Option.map_map]
      congr 1
      funext i
      simp only [Function.comp_apply, List.drop_succ_cons]
      congr 1
      omega
    rw [inventoryFrom_cons]
    cases hsignature : g.signature line with
    | none =>
      simp only [ih]
      rw [hlater (by simp [hsignature])]
    | some found =>
      simp only [ih, Inventory.get?_record, Option.or_assoc]
      congr 1
      by_cases hadmissible : Admissible g.reserved name
      · by_cases hname : String.ofList found = name
        · have hfirst : g.firstSignature? (line :: rest) name = some 0 := by
            rw [firstSignature?_cons, hsignature, ← hname, String.toList_ofList, if_pos rfl]
          simp [hadmissible, hname, hfirst]
        · have hne : g.signature line ≠ some name.toList := fun h => hname (by
            rw [hsignature] at h
            rw [Option.some.inj h, String.ofList_toList])
          simp [hadmissible, hname, hlater hne]
      · simp [hadmissible]

theorem get?_inventory (g : Grammar) (limits : Limits) (content : List Char) (name : String) :
    (g.inventory limits content).get? name =
      if Admissible g.reserved name then
        (g.firstSignature? (lines content) name).map fun i =>
          ⟨i + 1, max (g.extent limits ((lines content).drop i)) 1⟩
      else none := by
  rw [inventory, get?_inventoryFrom, NameMap.get?_empty, Option.none_or]
  simp only [Nat.zero_add]

end Grammar

/-! ## Extents -/

theorem one_le_extent {language : Language} {g : Grammar} (h : grammar? language = some g) (limits : Limits)
    (ls : List (List Char)) : 1 ≤ g.extent limits ls := by
  rcases grammar?_cases h with ⟨quotes, -, hextent⟩ | ⟨-, rfl⟩ | ⟨-, rfl⟩
  · rw [hextent, Grammar.bracedBy, braceExtent_eq]
    have hlt := follow_eq_one_or_lt (braceStep limits.lookahead quotes) (ls.take limits.window) 0 none
    omega
  · unfold Grammar.python
    cases ls <;> simp [indentationExtent]
  · unfold Grammar.ruby
    cases ls with
    | nil => exact Nat.le_refl 1
    | cons header rest =>
      simp only [keywordExtent]
      split
      · exact Nat.le_refl 1
      · rw [keywordExtentFrom_eq]
        have hlt := follow_eq_one_or_lt keywordStep ((header :: rest).take limits.window) 0 0
        omega

/-- **The functions of a text are the admissible names that have a signature on a line of it**, each with the place and
the extent of its first signature.  A text with a NUL character is refused, and its analysis is empty. -/
theorem analyze_firstSignatures {language : Language} {g : Grammar} (hg : grammar? language = some g) (limits : Limits)
    (content : String) :
    let ls := lines content.toList
    ('\x00' ∉ content.toList → ∃ analysis,
      g.analyze limits content.toList = .ok analysis ∧ analyzeFile limits language content = analysis ∧
        (∀ name, name ∈ analysis.functions.names ↔
          (∃ line ∈ ls, g.signature line = some name.toList) ∧
            name ≠ "" ∧ name ∉ controlWords ∧ name ∉ g.reserved) ∧
        ∀ name ∈ analysis.functions.names, ∃ i line, ls[i]? = some line ∧ g.signature line = some name.toList ∧
          (∀ j < i, ∀ line, ls[j]? = some line → g.signature line ≠ some name.toList) ∧
          analysis.functions.get? name = some ⟨i + 1, g.extent limits (ls.drop i)⟩) ∧
      ('\x00' ∈ content.toList →
        g.analyze limits content.toList = .error .binary ∧ analyzeFile limits language content = .empty) := by
  intro ls
  refine ⟨fun htext => ?_, fun hbinary => ?_⟩
  · have hanalyze : g.analyze limits content.toList =
        .ok ⟨g.inventory limits content.toList, g.imports content.toList⟩ := if_pos (by simpa [isText] using htext)
    have hnames : ∀ name, name ∈ (g.inventory limits content.toList).names ↔
        Admissible g.reserved name ∧ (g.firstSignature? ls name).isSome = true := by
      intro name
      rw [NameMap.mem_names_iff, Grammar.get?_inventory]
      by_cases hadmissible : Admissible g.reserved name
      · simp [hadmissible, ls]
      · simp [hadmissible]
    refine ⟨_, hanalyze, by simp only [analyzeFile, hg, hanalyze], fun name => ?_, fun name hname => ?_⟩
    · rw [hnames, Grammar.isSome_firstSignature?, and_comm]
      rfl
    · obtain ⟨hadmissible, hfirst⟩ := (hnames name).1 hname
      obtain ⟨i, hi⟩ := Option.isSome_iff_exists.1 hfirst
      obtain ⟨line, hline, hs, hbefore⟩ := Grammar.firstSignature?_eq_some_iff.1 hi
      refine ⟨i, line, hline, hs, hbefore, ?_⟩
      rw [Grammar.get?_inventory, if_pos hadmissible, hi, Option.map_some, Nat.max_eq_left (one_le_extent hg limits _)]
  · have hanalyze : g.analyze limits content.toList = .error .binary := if_neg (by simpa [isText] using hbinary)
    exact ⟨hanalyze, by simp only [analyzeFile, hg, hanalyze]⟩

/-- A function, a statement that looks like one, and another function of the first one's name. -/
def sampleRepeated : String := "function f() \x7b\n\x7d\nfunction if(x) \x7b\n\x7d\nfunction f(x) \x7b \x7d\n"

theorem analyze_firstSignatures_sample :
    (∃ analysis, Grammar.script.analyze ⟨3, 200⟩ sampleRepeated.toList = .ok analysis ∧
        analysis.functions.get? "f" = some ⟨1, 2⟩ ∧ "if" ∉ analysis.functions.names) ∧
      analyzeFile ⟨3, 200⟩ .javascript (sampleRepeated ++ "\x00") = .empty := by
  obtain ⟨analysis, hanalyze, -, hnames, hspans⟩ :=
    (@analyze_firstSignatures .javascript _ rfl ⟨3, 200⟩ sampleRepeated).1 (by decide +kernel)
  have hfirst : (lines sampleRepeated.toList)[0]? = some "function f() \x7b".toList := by decide +kernel
  have hsignature : Grammar.script.signature "function f() \x7b".toList = some "f".toList := by decide +kernel
  have hf : "f" ∈ analysis.functions.names :=
    (hnames "f").2 ⟨⟨_, List.mem_of_getElem? hfirst, hsignature⟩, by decide, by decide, by decide⟩
  obtain ⟨i, line, hline, hs, hbefore, hget⟩ := hspans "f" hf
  obtain rfl : i = 0 := Nat.eq_zero_of_not_pos fun hpos => hbefore 0 hpos _ hfirst hsignature
  have hextent : Grammar.script.extent ⟨3, 200⟩ ((lines sampleRepeated.toList).drop 0) = 2 := by decide +kernel
  refine ⟨⟨analysis, hanalyze, by rw [hget, hextent], fun hif => ?_⟩, ?_⟩
  · exact absurd ((hnames "if").1 hif).2.2.1 (by decide)
  · exact ((@analyze_firstSignatures .javascript _ rfl ⟨3, 200⟩ _).2 (by decide +kernel)).2

end Source

end FileGraph
