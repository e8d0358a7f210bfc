import FileGraph.Proofs.Text.Lines
import FileGraph.Proofs.Text.Matching
import FileGraph.Source.Extent.Keywords
/-!
# KeywordBlocks — a block that closes with `end` extends through its `end`

Lines that are well nested are a tree: plain lines, and blocks with an opening line, what stands inside, and a closing
line (`Nested`).  What a line does is read off its code, without the comment.

Such lines leave as many blocks open as were open before them (`keywordExtentFrom_nested`), so each block of the tree is
followed to its own closing line (`keywordExtent_nested`).

Only the test for a definition that is complete in its line reads the comment too.  It can be wrong there for a header
whose code leaves a parenthesis open or stops at an equals sign (`isOpenHeader_of_isEndless`).
-/
namespace FileGraph.Source

open Text

/-- A line that opens a block and closes none. -/
structure OpeningLine where
  text   : List Char
  opens  : opensBlock (dropComment text) = true
  closes : closings (dropComment text) = 0

/-- A line that closes one block and opens none. -/
structure ClosingLine where
  text   : List Char
  opens  : opensBlock (dropComment text) = false
  closes : closings (dropComment text) = 1

/-- A line that neither opens nor closes a block. -/
structure PlainLine where
  text   : List Char
  opens  : opensBlock (dropComment text) = false
  closes : closings (dropComment text) = 0

/-- Lines in which blocks are well nested. -/
inductive Nested where
  | nil
  | plain (line : PlainLine) (rest : Nested)
  | block (first : OpeningLine) (inner : Nested) (last : ClosingLine) (rest : Nested)

structure Block where
  first : OpeningLine
  inner : Nested
  last  : ClosingLine

def Nested.lines : Nested → List (List Char)
  | .nil => []
  | .plain line rest => line.text :: rest.lines
  | .block first inner last rest => first.text :: (inner.lines ++ last.text :: rest.lines)

def Block.lines (b : Block) : List (List Char) := b.first.text :: (b.inner.lines ++ [b.last.text])

/-- All blocks, also those inside of others, each with the number of lines before it; `offset` lines stand before the
first one. -/
def Nested.blocks : (offset : Nat) → Nested → List (Nat × Block)
  | _, .nil => []
  | offset, .plain _ rest => rest.blocks (offset + 1)
  | offset, .block first inner last rest =>
    (offset, ⟨first, inner, last⟩) :: (inner.blocks (offset + 1) ++ rest.blocks (offset + inner.lines.length + 2))

/-! ## Line by line -/

theorem keywordExtentFrom_opening (line : OpeningLine) (offset depth : Nat) (rest : List (List Char)) :
    keywordExtentFrom offset depth (line.text :: rest) = keywordExtentFrom (offset + 1) (depth + 1) rest := by
  simp [keywordExtentFrom, line.opens, line.closes]

theorem keywordExtentFrom_plain (line : PlainLine) (offset depth : Nat) (rest : List (List Char)) :
    keywordExtentFrom offset (depth + 1) (line.text :: rest) = keywordExtentFrom (offset + 1) (depth + 1) rest := by
  simp [keywordExtentFrom, line.opens, line.closes]

theorem keywordExtentFrom_closing (line : ClosingLine) (offset depth : Nat) (rest : List (List Char)) :
    keywordExtentFrom offset (depth + 1) (line.text :: rest) =
      if depth = 0 then offset + 1 else keywordExtentFrom (offset + 1) depth rest := by
  simp [keywordExtentFrom, line.opens, line.closes]

/-- **Well-nested lines leave the blocks around them open.** -/
theorem keywordExtentFrom_nested : ∀ (code : Nested) (offset depth : Nat) (rest : List (List Char)),
    keywordExtentFrom offset (depth + 1) (code.lines ++ rest) =
      keywordExtentFrom (offset + code.lines.length) (depth + 1) rest
  | .nil, offset, depth, rest => rfl
  | .plain line more, offset, depth, rest => by
    rw [Nested.lines, List.cons_append, keywordExtentFrom_plain, keywordExtentFrom_nested more, List.length_cons]
    congr 1
    omega
  | .block first inner last more, offset, depth, rest => by
    have hinner := keywordExtentFrom_nested inner (offset + 1) (depth + 1) (last.text :: (more.lines ++ rest))
    have hmore := keywordExtentFrom_nested more (offset + 1 + inner.lines.length + 1) depth rest
    rw [Nested.lines, List.cons_append, List.append_assoc, List.cons_append, keywordExtentFrom_opening, hinner,
      keywordExtentFrom_closing, if_neg (Nat.succ_ne_zero depth), hmore]
    simp only [List.length_cons, List.length_append]
    congr 1
    omega

/-- What is followed through some lines is followed alike through more of them, if it is found. -/
theorem keywordExtentFrom_append : ∀ (ls more : List (List Char)) (offset depth : Nat),
    keywordExtentFrom offset depth ls = 1 ∨
      keywordExtentFrom offset depth (ls ++ more) = keywordExtentFrom offset depth ls
  | [], more, offset, depth => .inl rfl
  | raw :: rest, more, offset, depth => by
    simp only [List.cons_append, keywordExtentFrom]
    generalize (if opensBlock (dropComment raw) then depth + 1 else depth) - closings (dropComment raw) = left
    by_cases h : left = 0
    · exact .inr (by rw [if_pos h, if_pos h])
    · rw [if_neg h, if_neg h]
      exact keywordExtentFrom_append rest more (offset + 1) left

/-! ## Blocks -/

/-- The number of lines of a block, and one if it does not fit into the window. -/
def Block.extentWithin (b : Block) (window : Nat) : Nat := if b.lines.length ≤ window then b.lines.length else 1

theorem Block.length_lines (b : Block) : b.lines.length = b.inner.lines.length + 2 := by
  simp [Block.lines]

/-- **A block is followed to its closing line**, and not further than the window. -/
theorem keywordExtentFrom_block (b : Block) (after : List (List Char)) (window : Nat) :
    keywordExtentFrom 0 0 ((b.lines ++ after).take window) = b.extentWithin window := by
  rw [Block.extentWithin]
  have hinner : ∀ rest, keywordExtentFrom 0 0 (b.first.text :: (b.inner.lines ++ rest)) =
      keywordExtentFrom (1 + b.inner.lines.length) 1 rest := fun rest => by
    rw [keywordExtentFrom_opening, keywordExtentFrom_nested]
  by_cases hwindow : b.lines.length ≤ window
  · have htake : (b.lines ++ after).take window =
        b.first.text :: (b.inner.lines ++ b.last.text :: after.take (window - b.lines.length)) := by
      rw [List.take_append, List.take_of_length_le hwindow, Block.lines]
      simp
    rw [if_pos hwindow, htake, hinner, keywordExtentFrom_closing, if_pos rfl, b.length_lines]
    omega
  · -- the lines within the window are the first ones of some that leave the block open
    rw [if_neg hwindow]
    have hopen : keywordExtentFrom 0 0 (b.first.text :: b.inner.lines) = 1 := by
      have h := hinner []
      rwa [List.append_nil] at h
    have hlt : window ≤ (b.first.text :: b.inner.lines).length := by
      rw [b.length_lines] at hwindow
      rw [List.length_cons]
      omega
    have htake : (b.lines ++ after).take window = (b.first.text :: b.inner.lines).take window := by
      rw [Block.lines, ← List.cons_append, List.append_assoc, List.take_append_of_le_length hlt]
    rw [htake]
    rcases keywordExtentFrom_append ((b.first.text :: b.inner.lines).take window)
      ((b.first.text :: b.inner.lines).drop window) 0 0 with h | h
    · exact h
    · rw [List.take_append_drop, hopen] at h
      exact h.symm

/-- A block of a tree stands among its lines. -/
theorem lines_of_mem_blocks : ∀ (code : Nested) (start : Nat) {e : Nat × Block}, e ∈ code.blocks start →
    ∃ before after, e.1 = start + before.length ∧ code.lines = before ++ (e.2.lines ++ after)
  | .nil, start, e, h => nomatch h
  | .plain line more, start, e, h => by
    obtain ⟨before, after, he, hlines⟩ := lines_of_mem_blocks more (start + 1) h
    refine ⟨line.text :: before, after, ?_, by rw [Nested.lines, hlines]; rfl⟩
    rw [he, List.length_cons]
    omega
  | .block first inner last more, start, e, h => by
    rw [Nested.blocks] at h
    rcases List.mem_cons.1 h with rfl | h
    · exact ⟨[], more.lines, rfl, by simp [Nested.lines, Block.lines]⟩
    rcases List.mem_append.1 h with h | h
    · obtain ⟨before, after, he, hlines⟩ := lines_of_mem_blocks inner (start + 1) h
      refine ⟨first.text :: before, after ++ last.text :: more.lines, ?_, by simp [Nested.lines, hlines]⟩
      rw [he, List.length_cons]
      omega
    · obtain ⟨before, after, he, hlines⟩ := lines_of_mem_blocks more (start + inner.lines.length + 2) h
      refine ⟨first.text :: (inner.lines ++ last.text :: before), after, ?_, by simp [Nested.lines, hlines]⟩
      rw [he]
      simp only [List.length_cons, List.length_append]
      omega

/-- Whether a line is taken for a definition that is complete in it. -/
def IsEndless (line : List Char) : Prop := (endlessDefinition.matchStart line).isSome = true

instance (line : List Char) : Decidable (IsEndless line) := inferInstanceAs (Decidable (_ = true))

theorem keywordExtent_block (b : Block) (after : List (List Char)) (window : Nat) :
    keywordExtent window (b.lines ++ after) = if IsEndless b.first.text then 1 else b.extentWithin window := by
  have h := keywordExtentFrom_block b after window
  rw [Block.lines, List.cons_append] at h ⊢
  rw [keywordExtent, h]
  rfl

/-! ## Definitions that are complete in their line -/

/-- A comment begins with the first `#` of its line. -/
theorem dropComment_cases (line : List Char) : dropComment line = line ∨
    '#' ∉ dropComment line ∧ ∃ comment, line = dropComment line ++ '#' :: comment := by
  rw [dropComment]
  cases hcut : cut? '#' line with
  | none => exact .inl rfl
  | some p =>
    obtain ⟨code, comment⟩ := p
    obtain ⟨hline, hcode⟩ := eq_of_cut? hcut
    simp only
    split
    · exact .inl rfl
    · exact .inr ⟨hcode, comment, hline⟩

theorem isEndless_iff {line : List Char} : IsEndless line ↔ ∃ w rest, line = w ++ rest ∧ endlessDefinition.Takes w :=
  Pattern.isSome_matchStart_iff (by rfl)

/-- Code that leaves a parenthesis open or stops at an equals sign. -/
def IsOpenHeader (code : List Char) : Prop :=
  (∃ before, code = before ++ ['=']) ∨ ∃ before inside, code = before ++ '(' :: inside ∧ ')' ∉ inside

/-- A comment has a part in what is taken for a complete definition only where the code before it is open. -/
theorem isOpenHeader_of_takes {code comment : List Char} (hcode : '#' ∉ code)
    (h : endlessDefinition.Takes (code ++ '#' :: comment)) : IsOpenHeader code := by
  obtain ⟨upToEquals, _, hw, ⟨upToBlanks, _, rfl, ⟨upToParameters, blanks, rfl, ⟨name, parameters, rfl, hname,
    hparameters⟩, hblanks⟩, rfl⟩, value, rfl, -⟩ := h
  have hname' : '#' ∉ name := Pattern.not_mem_of_takes (by decide +kernel) hname
  have hblanks' : '#' ∉ blanks := Pattern.not_mem_of_takes (by decide +kernel) hblanks
  -- without a `#` in the parameters, the first one can only be the character after the equals sign
  have houtside (hparameters' : '#' ∉ parameters) : ∃ before, code = before ++ ['='] := by
    obtain ⟨zs, hzs, hvalue⟩ := exists_of_append_cons_left hw (by simp [hname', hparameters', hblanks'])
    cases zs with
    | nil => exact ⟨name ++ parameters ++ blanks, by rw [hzs, List.append_nil]; rfl⟩
    | cons z zs => simp at hvalue
  rcases hparameters with ⟨_, _, rfl, ⟨_, inside, rfl, rfl, -, hinside⟩, rfl⟩ | rfl
  · by_cases hmem : '#' ∈ inside
    · obtain ⟨seen, unseen, rfl, hseen⟩ := List.eq_append_cons_of_mem hmem
      have hsplit : code ++ '#' :: comment =
          (name ++ '(' :: seen) ++ '#' :: (unseen ++ ')' :: (blanks ++ '=' :: [value])) := by
        rw [hw]
        simp
      refine .inr ⟨name, seen, ?_, fun hclose => ?_⟩
      · exact before_eq_of_append_cons hsplit hcode (by simp [hname', hseen])
      · simpa using hinside ')' (List.mem_append_left _ hclose)
    · exact .inl (houtside (by simp [hmem]))
  · exact .inl (houtside List.not_mem_nil)

/-- **A line is taken for a complete definition for its code, or its code is open**: if only the line with its comment
is taken for one, then the comment stands inside of it. -/
theorem isOpenHeader_of_isEndless {line : List Char} (h : IsEndless line) (hcode : ¬ IsEndless (dropComment line)) :
    IsOpenHeader (dropComment line) := by
  rcases dropComment_cases line with hline | ⟨hclean, comment, hline⟩
  · exact absurd (by rwa [hline]) hcode
  obtain ⟨w, rest, hw, htakes⟩ := isEndless_iff.1 h
  rw [hline] at hw
  rcases List.append_eq_append_iff.1 hw with ⟨taken, rfl, htaken⟩ | ⟨unseen, hunseen, -⟩
  · cases taken with
    | nil => exact absurd (isEndless_iff.2 ⟨_, [], (List.append_nil _).symm, by rwa [List.append_nil] at htakes⟩) hcode
    | cons c taken =>
      obtain ⟨rfl, -⟩ := List.cons.inj htaken
      exact isOpenHeader_of_takes hclean htakes
  · exact absurd (isEndless_iff.2 ⟨w, unseen, hunseen, htakes⟩) hcode

/-! ## Trees of blocks -/

/-- **Each block of well-nested lines has the extent of its lines**, as far as the window reaches, unless its first line
is taken for a complete definition.  Where the code of that line is none, the comment made it one, which it can only
where the code is open. -/
theorem keywordExtent_nested (window : Nat) (code : Nested) (after : List (List Char)) {e : Nat × Block}
    (he : e ∈ code.blocks 0) :
    keywordExtent window ((code.lines ++ after).drop e.1) =
        (if IsEndless e.2.first.text then 1 else e.2.extentWithin window) ∧
      (¬ IsEndless (dropComment e.2.first.text) →
        ¬ IsEndless e.2.first.text ∨ IsOpenHeader (dropComment e.2.first.text)) := by
  obtain ⟨before, rest, hstart, hlines⟩ := lines_of_mem_blocks code 0 he
  rw [Nat.zero_add] at hstart
  constructor
  · rw [hlines, hstart, List.append_assoc, List.drop_left, List.append_assoc, keywordExtent_block]
  · intro hcode
    by_cases hline : IsEndless e.2.first.text
    · exact .inr (isOpenHeader_of_isEndless hline hcode)
    · exact .inl hline

/-- A method whose parameters stand on two lines, the first with a comment that could be the rest of a definition. -/
def sampleMove : Block :=
  { first := ⟨"  def move(x, # across (in cells) = 0".toList, by decide +kernel, by decide +kernel⟩
    inner := .plain ⟨"           y)".toList, by decide +kernel, by decide +kernel⟩
      (.plain ⟨"    step x, y".toList, by decide +kernel, by decide +kernel⟩ .nil)
    last := ⟨"  end".toList, by decide +kernel, by decide +kernel⟩ }

/-- A method with a block inside, and words in comments that would open and close others. -/
def sampleRun : Block :=
  { first := ⟨"  def run # until the end".toList, by decide +kernel, by decide +kernel⟩
    inner := .block ⟨"    items.each do |item|".toList, by decide +kernel, by decide +kernel⟩
      (.plain ⟨"      item.move # for each do".toList, by decide +kernel, by decide +kernel⟩ .nil)
      ⟨"    end".toList, by decide +kernel, by decide +kernel⟩ .nil
    last := ⟨"  end # run".toList, by decide +kernel, by decide +kernel⟩ }

def sampleClass : Nested :=
  .block ⟨"class Cell".toList, by decide +kernel, by decide +kernel⟩
    (.block sampleMove.first sampleMove.inner sampleMove.last
      (.block sampleRun.first sampleRun.inner sampleRun.last .nil))
    ⟨"end".toList, by decide +kernel, by decide +kernel⟩ .nil

theorem keywordExtent_nested_sample :
    ((1, sampleMove) ∈ sampleClass.blocks 0 ∧ (5, sampleRun) ∈ sampleClass.blocks 0) ∧
      (keywordExtent 200 (sampleClass.lines.drop 1) = 1 ∧ sampleMove.extentWithin 200 = 4 ∧
        ¬ IsEndless (dropComment sampleMove.first.text) ∧ IsOpenHeader (dropComment sampleMove.first.text)) ∧
      keywordExtent 200 (sampleClass.lines.drop 5) = 5 ∧ keywordExtent 4 (sampleClass.lines.drop 5) = 1 := by
  have hmove : (1, sampleMove) ∈ sampleClass.blocks 0 := .tail _ (.head _)
  have hrun : (5, sampleRun) ∈ sampleClass.blocks 0 := .tail _ (.tail _ (.head _))
  have hendless : IsEndless sampleMove.first.text := by decide +kernel
  have hcode : ¬ IsEndless (dropComment sampleMove.first.text) := by decide +kernel
  have hopen := keywordExtent_nested 200 sampleClass [] hmove
  have hextent := (keywordExtent_nested 200 sampleClass [] hrun).1
  have hnarrow := (keywordExtent_nested 4 sampleClass [] hrun).1
  rw [List.append_nil] at hopen hextent hnarrow
  rw [if_neg (by decide +kernel)] at hextent hnarrow
  refine ⟨⟨hmove, hrun⟩, ⟨?_, rfl, hcode, ?_⟩, hextent, hnarrow⟩
  · rw [hopen.1, if_pos hendless]
  · exact (hopen.2 hcode).resolve_left fun h => h hendless

end FileGraph.Source
