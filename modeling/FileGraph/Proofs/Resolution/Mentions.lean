import FileGraph.Proofs.Resolution.Builds
/-!
# Mentions — how often the place of a stem counts

A row holds what each other file is referred to by: the imports of its stem, and the places where the stem stands alone,
each of them once in each of the ways in which the stem is counted, as long as 32 bits are enough
(`mem_row_iff_ways`).  A stem of letters, digits and `_` that all belong to words is counted in one way, and so is one
with a character that is neither.  But the two classes differ: the decomposed `é` is not plain and yet a word, which
makes two ways, and `a²` is plain and no word, which makes none.
-/
namespace FileGraph.Resolution

open Text

theorem reference_eq_ways (importScore : UInt32) (maxScanBytes : Option Nat) (f : Referrer) {stem : String}
    (hne : stem ≠ "") :
    reference importScore maxScanBytes f stem =
      importScore.toNat * (f.imports.countP fun i => Path.specifierName i == stem) +
        ways stem.toList * mentions stem.toList (scanned maxScanBytes f.content) := by
  have hnil : stem.toList ≠ [] := fun e => hne (String.toList_eq_nil_iff.1 e)
  rw [reference, if_neg hne, Nat.add_assoc, count_words_add_mentions hnil]

theorem mul_ways_eq_iff {name : List Char} {n : Nat} :
    ways name * n = n ↔ n = 0 ∨ isPlainName name = name.all isWordChar := by
  rw [← ways_eq_one_iff]
  rcases Nat.eq_zero_or_pos n with rfl | hn
  · simp
  · rw [Nat.mul_eq_right (Nat.ne_of_gt hn)]
    exact ⟨.inr, fun h => h.resolve_left (Nat.ne_of_gt hn)⟩

/-- **A row counts each mention of a stem once in each of the stem's ways**, where sums fit.  So the mentions come out
right if there are none, or if the stem is plain just when it can be a word, and they come out wrong otherwise. -/
theorem mem_row_iff_ways (order : Order) {importScore : UInt32} {maxScanBytes : Option Nat} {files : List Referrer}
    (hfits : Fits importScore maxScanBytes files) {s t : Nat} {f g : Referrer} (hf : files[s]? = some f)
    (hg : files[t]? = some g) (hne : t ≠ s) (hstem : Path.stem g.filepath ≠ "") :
    let stem := (Path.stem g.filepath).toList
    let imported := importScore.toNat * f.imports.countP fun i => Path.specifierName i == Path.stem g.filepath
    let mentioned := mentions stem (scanned maxScanBytes f.content)
    ∃ row, (rows order importScore maxScanBytes files)[s]? = some row ∧
      (∀ n, (t, n) ∈ row ↔ n ≠ 0 ∧ n.toNat = imported + ways stem * mentioned) ∧
      (imported + ways stem * mentioned = imported + mentioned ↔
        mentioned = 0 ∨ isPlainName stem = stem.all isWordChar) := by
  intro stem imported mentioned
  refine ⟨_, by rw [getElem?_rows, hf, Option.map_some], fun n => ?_, ?_⟩
  · rw [mem_rowOf_of_fits order hfits hf hg hne, ← reference_eq_ways importScore maxScanBytes f hstem]
  · rw [Nat.add_left_cancel_iff]
    exact mul_ways_eq_iff

/-- A name with a combining accent, one with a superscript, and a file that mentions each of them once. -/
def sampleNames : List Referrer :=
  [⟨"e\u0301.js", "", []⟩, ⟨"a\u00b2.js", "", []⟩, ⟨"main.js", "e\u0301 a\u00b2b", []⟩]

theorem mem_row_iff_ways_sample :
    Fits 5 none sampleNames ∧
      mentions ['e', '\u0301'] (scanned none "e\u0301 a\u00b2b") = 1 ∧
      mentions ['a', '\u00b2'] (scanned none "e\u0301 a\u00b2b") = 1 ∧
      ∃ row, (rows .asListed 5 none sampleNames)[2]? = some row ∧ (0, 2) ∈ row ∧ ∀ n, (1, n) ∉ row := by
  have hfits : Fits 5 none sampleNames := fits_of_forall (by decide +kernel) (by decide +kernel)
  have haccent : mentions ['e', '\u0301'] (scanned none "e\u0301 a\u00b2b") = 1 := by decide +kernel
  have hpower : mentions ['a', '\u00b2'] (scanned none "e\u0301 a\u00b2b") = 1 := by decide +kernel
  have hf : sampleNames[2]? = some ⟨"main.js", "e\u0301 a\u00b2b", []⟩ := rfl
  obtain ⟨row, hrow, hmem, -⟩ := mem_row_iff_ways .asListed hfits (s := 2) (t := 0) hf rfl (by decide)
    (by decide +kernel)
  obtain ⟨row', hrow', hmem', -⟩ := mem_row_iff_ways .asListed hfits (s := 2) (t := 1) hf rfl (by decide)
    (by decide +kernel)
  obtain rfl := Option.some.inj (hrow.symm.trans hrow')
  refine ⟨hfits, haccent, hpower, row, hrow, (hmem 2).2 (by decide +kernel), fun n hn => ?_⟩
  obtain ⟨hne, hn⟩ := (hmem' n).1 hn
  have hzero : n.toNat = (0 : UInt32).toNat := hn.trans (by decide +kernel)
  exact hne (UInt32.toNat_inj.1 hzero)

end FileGraph.Resolution
