import FileGraph.Proofs.Resolution.Builds
/-!
# Pairs — every pair of files has the edge that its own score calls for

`rawScore` says what one file refers to another by, without an index and without counting words: the imports that ask
for the other's stem, and the places where the stem stands alone.  Resolution has an edge for each pair with a positive
score, in the order of sources and targets, and no other (`resolveIn_by_pairs`), as long as no stem has a character
whose class is in doubt and no score takes more than 32 bits.  The order in which the tables are gone through does not
show.
-/
namespace FileGraph.Resolution

open Text

/-- The raw score of a pair of positions, in as many bits as it takes. -/
def rawScore (importScore : UInt32) (maxScanBytes : Option Nat) (files : List Referrer) (s t : Nat) : Nat :=
  match files[s]?, files[t]? with
  | some f, some g =>
    if s = t ∨ Path.stem g.filepath = "" then 0
    else importScore.toNat * (f.imports.countP fun i => Path.specifierName i == Path.stem g.filepath) +
      mentions (Path.stem g.filepath).toList (scanned maxScanBytes f.content)
  | _, _ => 0

variable {importScore : UInt32} {maxScanBytes : Option Nat} {files : List Referrer}

theorem lt_of_rawScore_pos {s t : Nat} (h : 0 < rawScore importScore maxScanBytes files s t) :
    s < files.length ∧ t < files.length ∧ s ≠ t := by
  unfold rawScore at h
  split at h
  · rename_i f g hf hg
    obtain ⟨hs, -⟩ := List.getElem?_eq_some_iff.1 hf
    obtain ⟨ht, -⟩ := List.getElem?_eq_some_iff.1 hg
    split at h
    · exact absurd h (Nat.lt_irrefl 0)
    · rename_i hne
      exact ⟨hs, ht, fun e => hne (.inl e)⟩
  · exact absurd h (Nat.lt_irrefl 0)

/-- Words and the search of its own count an unambiguous stem once between them. -/
theorem count_words_add {stem : String} (hne : stem ≠ "") (h : Unambiguous stem.toList) (text : List Char) :
    ((words text).count stem.toList + if isPlainName stem.toList then 0 else mentions stem.toList text) =
      mentions stem.toList text := by
  have hnil : stem.toList ≠ [] := fun e => hne (String.toList_eq_nil_iff.1 e)
  rw [count_words_add_mentions hnil, ways_eq_one_iff.2 (isPlainName_eq h), Nat.one_mul]

theorem rawScore_eq {s t : Nat} {f g : Referrer} (hf : files[s]? = some f) (hg : files[t]? = some g) (hne : s ≠ t)
    (h : Unambiguous (Path.stem g.filepath).toList) :
    rawScore importScore maxScanBytes files s t = reference importScore maxScanBytes f (Path.stem g.filepath) := by
  simp only [rawScore, hf, hg, hne, false_or, reference]
  by_cases he : Path.stem g.filepath = ""
  · rw [if_pos he, if_pos he]
  · rw [if_neg he, if_neg he, Nat.add_assoc, count_words_add he h]

section Pairs

variable (h : ∀ f ∈ files, Unambiguous (Path.stem f.filepath).toList)
  (hraw : ∀ s t, rawScore importScore maxScanBytes files s t < UInt32.size)

include h hraw

theorem fits_of_rawScore (hwords : ∀ f ∈ files, ∀ w, (words (scanned maxScanBytes f.content)).count w < UInt32.size) :
    Fits importScore maxScanBytes files := by
  refine fun s f hf => ⟨hwords f (List.mem_of_getElem? hf), fun t stem hat hne => ?_⟩
  rw [List.getElem?_map] at hat
  obtain ⟨g, hg, rfl⟩ := Option.map_eq_some_iff.1 hat
  rw [← rawScore_eq hf hg hne.symm (h g (List.mem_of_getElem? hg))]
  exact hraw s t

theorem mem_edges_iff (order : Order) (e : Edge) :
    e ∈ (resolveIn order importScore maxScanBytes files).edges ↔
      0 < rawScore importScore maxScanBytes files e.source e.target ∧
        e.weight = Weight.ofRaw (rawScore importScore maxScanBytes files e.source e.target) := by
  have hlt := hraw e.source e.target
  rw [mem_edges]
  constructor
  · rintro ⟨f, g, hf, hg, hne, hrefers, hw⟩
    rw [rawScore_eq hf hg hne (h g (List.mem_of_getElem? hg))] at hlt ⊢
    rw [Nat.mod_eq_of_lt hlt] at hw
    exact ⟨(refers_iff hlt).1 hrefers, hw⟩
  · rintro ⟨hpos, hw⟩
    obtain ⟨hs, ht, hne⟩ := lt_of_rawScore_pos hpos
    have hf := List.getElem?_eq_getElem hs
    have hg := List.getElem?_eq_getElem ht
    rw [rawScore_eq hf hg hne (h _ (List.mem_of_getElem? hg))] at hpos hw hlt
    exact ⟨_, _, hf, hg, hne, (refers_iff hlt).2 hpos, by rw [Nat.mod_eq_of_lt hlt, hw]⟩

end Pairs

/-- **Resolution by pairs.**  Let no raw score take more than 32 bits.  Then there is an edge for each pair with a
positive raw score, weighing what the score weighs, and no other; the edges come in the strict order of their sources
and targets; and each file depends on the paths of the targets of its edges, in their order.  How the tables are gone
through does not matter.  A build that checks its sums finds the same or stops, and it does not stop if no word occurs
too often either. -/
theorem resolveIn_by_pairs (order : Order) (importScore : UInt32) (maxScanBytes : Option Nat) (files : List Referrer)
    (h : ∀ f ∈ files, Unambiguous (Path.stem f.filepath).toList)
    (hraw : ∀ s t, rawScore importScore maxScanBytes files s t < UInt32.size) :
    let r := resolveIn order importScore maxScanBytes files
    let raw := rawScore importScore maxScanBytes files
    (∀ e, e ∈ r.edges ↔ 0 < raw e.source e.target ∧ e.weight = Weight.ofRaw (raw e.source e.target)) ∧
      r.edges.Pairwise Edge.Before ∧
      r.dependencies.length = files.length ∧
      (∀ s < files.length, ∃ paths, r.dependencies[s]? = some paths ∧
        paths.map some = (r.edges.filter (·.source == s)).map fun e => files[e.target]?.map (·.filepath)) ∧
      (∀ r', resolveBy checked order importScore maxScanBytes files = some r' → r' = r) ∧
      ((∀ f ∈ files, ∀ w, (words (scanned maxScanBytes f.content)).count w < UInt32.size) →
        resolveBy checked order importScore maxScanBytes files = some r) :=
  ⟨mem_edges_iff h hraw order, pairwise_before_edges order importScore maxScanBytes files,
    length_dependencies order importScore maxScanBytes files,
    fun _ hs => dependencies_eq_targets order importScore maxScanBytes files hs, fun _ h => resolveIn_of_checked h,
    fun hwords => resolveBy_eq_pure exact_checked order (fits_of_rawScore h hraw hwords)⟩

/-- Three files, of which the first imports the second and the second names the others, one of them irregular. -/
def sampleFiles : List Referrer :=
  [⟨"app/main.py", "", ["./db.py"]⟩, ⟨"db.py", "main, then date-utils twice: date-utils", []⟩,
    ⟨"lib/date-utils.js", "", []⟩]

theorem resolveIn_by_pairs_sample :
    (∀ f ∈ sampleFiles, Unambiguous (Path.stem f.filepath).toList) ∧
      (∀ s t, rawScore 100 none sampleFiles s t < UInt32.size) ∧
      ∃ r, resolveBy checked .asListed 100 none sampleFiles = some r ∧
        ⟨0, 1, Weight.ofRaw 100⟩ ∈ r.edges ∧ ⟨1, 2, Weight.ofRaw 2⟩ ∈ r.edges ∧ ∀ w, (⟨0, 2, w⟩ : Edge) ∉ r.edges := by
  have h : ∀ f ∈ sampleFiles, Unambiguous (Path.stem f.filepath).toList := by decide
  have hraw : ∀ s t, rawScore 100 none sampleFiles s t < UInt32.size := by
    intro s t
    by_cases hpos : 0 < rawScore 100 none sampleFiles s t
    · obtain ⟨hs, ht, -⟩ := lt_of_rawScore_pos hpos
      have hall : ∀ s < 3, ∀ t < 3, rawScore 100 none sampleFiles s t < UInt32.size := by decide +kernel
      exact hall s hs t ht
    · exact Nat.lt_of_le_of_lt (Nat.le_of_not_lt hpos) (by decide)
  have hwords : ∀ f ∈ sampleFiles, (words (scanned none f.content)).length < UInt32.size := by decide +kernel
  obtain ⟨hedges, -, -, -, -, hchecked⟩ := resolveIn_by_pairs .asListed 100 none sampleFiles h hraw
  have hmain : rawScore 100 none sampleFiles 0 1 = 100 := by decide +kernel
  have hdb : rawScore 100 none sampleFiles 1 2 = 2 := by decide +kernel
  have hnone : rawScore 100 none sampleFiles 0 2 = 0 := by decide +kernel
  refine ⟨h, hraw, _, hchecked fun f hf w => Nat.lt_of_le_of_lt List.count_le_length (hwords f hf), (hedges _).2 ?_,
    (hedges _).2 ?_, fun w hw => ?_⟩
  · rw [hmain]; exact ⟨by decide, rfl⟩
  · rw [hdb]; exact ⟨by decide, rfl⟩
  · have hpos := ((hedges _).1 hw).1
    rw [hnone] at hpos
    exact absurd hpos (Nat.lt_irrefl 0)

end FileGraph.Resolution
