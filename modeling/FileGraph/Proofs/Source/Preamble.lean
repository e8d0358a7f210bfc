import FileGraph.Proofs.Source.FirstSignatures
/-!
# Preamble — lines without a signature only move the functions of a text down

A signature and the extent of its function are read off the lines from the signature on.  So the lines before a text have
no part in its functions beyond their number: what is recorded after them is what would be recorded without them, moved
down (`inventoryFrom_below`), as long as they record nothing themselves (`analyze_below_preamble`).
-/
namespace FileGraph

namespace NameMap

variable {α β : Type}

/-- A map with each of its values changed in the same way. -/
def map (f : α → β) (m : NameMap α) : NameMap β :=
  ⟨m.entries.map fun e => (e.1, f e.2), List.pairwise_map.2 m.sorted⟩

theorem insertSorted_map (f : α → β) (name : String) (value : α) : ∀ (es : List (String × α)),
    insertSorted name (f value) (es.map fun e => (e.1, f e.2)) =
      (insertSorted name value es).map fun e => (e.1, f e.2)
  | [] => rfl
  | e :: es => by
    have ih := insertSorted_map f name value es
    simp only [insertSorted, List.map_cons]
    split
    · rfl
    · split
      · rfl
      · rw [List.map_cons, ih]

@[simp] theorem map_insert (f : α → β) (m : NameMap α) (name : String) (value : α) :
    (m.insert name value).map f = (m.map f).insert name (f value) :=
  NameMap.ext (insertSorted_map f name value m.entries).symm

theorem lookup_map (f : α → β) (name : String) : ∀ (es : List (String × α)),
    (es.map fun e => (e.1, f e.2)).lookup name = (es.lookup name).map f
  | [] => rfl
  | e :: es => by
    rw [List.map_cons, lookup_cons_eq, lookup_cons_eq, lookup_map f name es]
    split <;> rfl

@[simp] theorem get?_map (f : α → β) (m : NameMap α) (name : String) : (m.map f).get? name = (m.get? name).map f :=
  lookup_map f name m.entries

@[simp] theorem contains_map (f : α → β) (m : NameMap α) (name : String) :
    (m.map f).contains name = m.contains name := by
  simp [contains]

end NameMap

namespace Source

open Text (lines WholeLines)

/-- Where a function stands once so many lines are put before its text. -/
def Span.below (n : Nat) (s : Span) : Span := ⟨s.firstLine + n, s.lineCount⟩

@[simp] theorem Inventory.wants_map (f : Span → Span) (reserved : List String) (t : Inventory) (name : String) :
    Inventory.wants reserved (t.map f) name = t.wants reserved name := by
  simp [wants]

theorem Inventory.record_below (n : Nat) (reserved : List String) (t : Inventory) (name : String) (index count : Nat) :
    Inventory.record reserved (t.map (Span.below n)) name (index + n) count =
      (t.record reserved name index count).map (Span.below n) := by
  unfold record
  rw [wants_map]
  split
  · have hspan : (⟨index + n + 1, max count 1⟩ : Span) = Span.below n ⟨index + 1, max count 1⟩ := by
      simp only [Span.below, Span.mk.injEq, and_true]
      omega
    rw [NameMap.map_insert, hspan]
  · rfl

namespace Grammar

variable (g : Grammar) (limits : Limits)

/-- **Lines further down record the same, further down.** -/
theorem inventoryFrom_below (n : Nat) : ∀ (ls : List (List Char)) (index : Nat) (t : Inventory),
    g.inventoryFrom limits (index + n) ls (t.map (Span.below n)) =
      (g.inventoryFrom limits index ls t).map (Span.below n)
  | [], _, _ => rfl
  | line :: rest, index, t => by
    rw [inventoryFrom_cons, inventoryFrom_cons]
    cases g.signature line with
    | none =>
      simp only
      rw [← inventoryFrom_below n rest (index + 1) t, Nat.add_right_comm]
    | some name =>
      simp only
      rw [← inventoryFrom_below n rest (index + 1), Inventory.record_below, Nat.add_right_comm]

/-- Lines without a signature record nothing. -/
theorem inventoryFrom_append {ls : List (List Char)} (h : ∀ line ∈ ls, g.signature line = none)
    (ls' : List (List Char)) (index : Nat) (t : Inventory) :
    g.inventoryFrom limits index (ls ++ ls') t = g.inventoryFrom limits (index + ls.length) ls' t := by
  induction ls generalizing index with
  | nil => rfl
  | cons line rest ih =>
    rw [List.forall_mem_cons] at h
    rw [List.cons_append, inventoryFrom_cons, h.1]
    simp only
    rw [ih h.2, List.length_cons]
    congr 1
    omega

theorem inventory_append {preamble : List Char} (hwhole : WholeLines preamble)
    (hbare : ∀ line ∈ lines preamble, g.signature line = none) (content : List Char) :
    g.inventory limits (preamble ++ content) =
      (g.inventory limits content).map (Span.below (lines preamble).length) := by
  have hempty : (NameMap.empty : Inventory).map (Span.below (lines preamble).length) = .empty := rfl
  unfold inventory
  rw [Text.lines_append hwhole, inventoryFrom_append g limits hbare, ← inventoryFrom_below, hempty]

end Grammar

/-- **Whole lines without a signature move the functions of a text down** by as many lines as they are, in every
language and under all settings; the functions keep their names and their extents, and no others come in. -/
theorem analyze_below_preamble {language : Language} {g : Grammar} (hg : grammar? language = some g)
    (settings : Settings) {preamble content : String} (hpreamble : '\x00' ∉ preamble.toList)
    (hcontent : '\x00' ∉ content.toList) (hwhole : WholeLines preamble.toList)
    (hbare : ∀ line ∈ lines preamble.toList, g.signature line = none) :
    ∃ analysis below, g.analyze settings.limits content.toList = .ok analysis ∧
      g.analyze settings.limits (preamble ++ content).toList = .ok below ∧
      analyzeFile settings.limits language content = analysis ∧
      analyzeFile settings.limits language (preamble ++ content) = below ∧
      below.functions.entries = analysis.functions.entries.map fun e =>
        (e.1, ⟨e.2.firstLine + (lines preamble.toList).length, e.2.lineCount⟩) := by
  have hanalyze : ∀ text : String, '\x00' ∉ text.toList → g.analyze settings.limits text.toList =
      .ok ⟨g.inventory settings.limits text.toList, g.imports text.toList⟩ :=
    fun text htext => if_pos (by simpa [isText] using htext)
  have hboth : '\x00' ∉ (preamble ++ content).toList := by simp [hpreamble, hcontent]
  refine ⟨_, _, hanalyze content hcontent, hanalyze _ hboth, ?_, ?_, ?_⟩
  · simp only [analyzeFile, hg, hanalyze content hcontent]
  · simp only [analyzeFile, hg, hanalyze _ hboth]
  · simp only [String.toList_append, Grammar.inventory_append g settings.limits hwhole hbare]
    rfl

/-- A comment that ends in a carriage return, and an empty line. -/
def samplePreamble : String := "// the entry point\r\n\n"

theorem analyze_below_preamble_sample :
    (∀ line ∈ lines samplePreamble.toList, Grammar.script.signature line = none) ∧
      ("f", (⟨3, 2⟩ : Span)) ∈
        (analyzeFile Settings.default.limits .javascript
          (samplePreamble ++ "function f() \x7b\n\x7d\n")).functions.entries := by
  have hbare : ∀ line ∈ lines samplePreamble.toList, Grammar.script.signature line = none := by decide +kernel
  obtain ⟨analysis, below, -, -, hanalysis, hbelow, hentries⟩ :=
    @analyze_below_preamble .javascript _ rfl Settings.default samplePreamble "function f() \x7b\n\x7d\n"
      (by decide +kernel) (by decide +kernel) (by decide +kernel) hbare
  have halone : (analyzeFile Settings.default.limits .javascript "function f() \x7b\n\x7d\n").functions.entries =
      [("f", ⟨1, 2⟩)] := by decide +kernel
  have hlength : (lines samplePreamble.toList).length = 2 := by decide +kernel
  rw [hanalysis] at halone
  refine ⟨hbare, ?_⟩
  rw [hbelow, hentries, halone, hlength]
  exact List.mem_cons_self

end Source

end FileGraph
