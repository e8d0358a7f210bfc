import FileGraph.Graph.Basic
import FileGraph.Proofs.Source.Following
import FileGraph.Proofs.Source.Inventory
import FileGraph.Proofs.Text.Lines
import FileGraph.Settings
/-!
# Extents — functions stay inside their file

A block that is followed reaches no further than the lines it is followed through, which are those of the window; an
indented block reaches no further than the text.  So each function of a file lies on lines that the file has, and no two
of them start on one line (`functions_within_file`).
-/
namespace FileGraph.Source

/-! ## How far extents reach -/

theorem braceExtent_eq (limits : Limits) (quotes : List Char) (ls : List (List Char)) :
    braceExtent limits quotes ls = follow (braceStep limits.lookahead quotes) 0 none (ls.take limits.window) :=
  braceExtentFrom_eq _ _ _ _ _

theorem braceExtent_le (limits : Limits) (quotes : List Char) (ls : List (List Char)) :
    braceExtent limits quotes ls ≤ max (min limits.window ls.length) 1 := by
  have h := follow_le (braceStep limits.lookahead quotes) (ls.take limits.window) 0 none
  rwa [← braceExtent_eq, Nat.zero_add, List.length_take] at h

theorem keywordExtent_le (window : Nat) : ∀ (ls : List (List Char)),
    keywordExtent window ls ≤ max (min window ls.length) 1
  | [] => by simp [keywordExtent]
  | header :: rest => by
    rw [keywordExtent]
    split
    · exact Nat.le_max_right _ _
    · have h := follow_le keywordStep ((header :: rest).take window) 0 0
      rwa [← keywordExtentFrom_eq, Nat.zero_add, List.length_take] at h

theorem indentationExtent_le : ∀ (ls : List (List Char)), indentationExtent ls ≤ max ls.length 1
  | [] => by simp [indentationExtent]
  | header :: rest => by
    have h := (List.takeWhile_sublist (l := rest)
      fun line => line.all Text.isBlank || decide (indentation header < indentation line)).length_le
    rw [indentationExtent, List.length_cons]
    omega

/-! ## Languages by their blocks -/

/-- The delimiters of strings in a language whose blocks stand in braces. -/
def delimiters? : Language → Option (List Char)
  | .javascript | .typescript | .go => some ['"', '\'', '\x60']
  | .java | .c | .cpp | .php => some ['"', '\'']
  | .rust => some ['"']
  | _ => none

theorem grammar?_cases {language : Language} {g : Grammar} (h : grammar? language = some g) :
    (∃ quotes, delimiters? language = some quotes ∧ g.extent = Grammar.bracedBy quotes) ∨
      language = .python ∧ g = .python ∨ language = .ruby ∧ g = .ruby := by
  cases language <;> cases h <;> first | exact .inl ⟨_, rfl, rfl⟩ | simp

theorem extent_le {language : Language} {g : Grammar} (h : grammar? language = some g) (limits : Limits)
    (ls : List (List Char)) :
    g.extent limits ls ≤ max ls.length 1 ∧ (language ≠ .python → g.extent limits ls ≤ max limits.window 1) := by
  rcases grammar?_cases h with ⟨quotes, -, hextent⟩ | ⟨hpython, rfl⟩ | ⟨-, rfl⟩
  · have hle := braceExtent_le limits quotes ls
    rw [hextent]
    unfold Grammar.bracedBy
    omega
  · exact ⟨indentationExtent_le ls, fun hne => absurd hpython hne⟩
  · have hle := keywordExtent_le limits.window ls
    unfold Grammar.ruby
    simp only
    omega

/-- A function ends with the last line that can be read, at the latest. -/
theorem lastLine_le {language : Language} {g : Grammar} (hg : grammar? language = some g) {limits : Limits}
    {ls : List (List Char)} {e : String × Span} {start : Nat} {line : List Char} {rest : List (List Char)}
    (h : g.Stands limits ls e start line rest) : e.2.lastLine ≤ ls.length := by
  have hlength := congrArg List.length h.drop
  rw [List.length_drop, List.length_cons] at hlength
  have hextent := (extent_le hg limits (line :: rest)).1
  rw [List.length_cons] at hextent
  rw [h.lastLine]
  omega

/-- **Functions lie on lines of their file**: they start on one, have at least one line and end with the file at the
latest; no two of them start on one line; and except for indented blocks they are no longer than the window. -/
theorem functions_within_file (settings : Settings) (language : Language) (filepath content : String) :
    let functions := (analyzeFile settings.limits language content).functions.entries
    (∀ e ∈ functions,
      1 ≤ e.2.firstLine ∧ 1 ≤ e.2.lineCount ∧
        e.2.firstLine + e.2.lineCount - 1 ≤ (FileNode.ofContent filepath content).numLines ∧
        (language ≠ .python → e.2.lineCount ≤ max settings.scanWindow 1)) ∧
      ∀ e ∈ functions, ∀ e' ∈ functions, e.2.firstLine = e'.2.firstLine → e = e' := by
  refine ⟨fun e he => ?_, fun e he e' he' hfirst => ?_⟩
  · obtain ⟨g, hg, hstands⟩ := stands_of_mem_analyzeFile he
    obtain ⟨start, line, rest, h⟩ := hstands e he
    refine ⟨by rw [h.firstLine]; omega, by rw [h.lineCount]; omega, ?_, fun hpython => ?_⟩
    · exact Nat.le_trans (lastLine_le hg h) (Text.length_lines_le content.toList)
    · have hwindow := (extent_le hg settings.limits (line :: rest)).2 hpython
      have hlimits : settings.limits.window = max settings.scanWindow 1 := rfl
      rw [h.lineCount]
      omega
  · obtain ⟨g, hg, hstands⟩ := stands_of_mem_analyzeFile he
    obtain ⟨start, line, rest, h⟩ := hstands e he
    obtain ⟨start', line', rest', h'⟩ := hstands e' he'
    have hstart : start = start' := by
      have := h.firstLine
      have := h'.firstLine
      omega
    subst hstart
    exact h.eq h'

end FileGraph.Source
