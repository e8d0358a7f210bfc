import FileGraph.Archive.Selection
import FileGraph.Proofs.Path
import FileGraph.Proofs.Resolution.Links
/-!
# Spellings — the file that an import asks for

A specifier asks for the last segment of its path, without an extension (`specifierName_append`).  With the extension of
a file it always asks for the stem of the file.  Without it, everything from the stem's own last dot on passes for an
extension, so it asks for the stem just if this has no dot (`spellings`).
-/
namespace FileGraph

open Text

namespace Path

/-- **A specifier asks for its last segment without an extension**, whatever the folders before it. -/
theorem specifierName_append {dir : String} (hdir : dir.toList.getLast? = some '/') {last : List Char}
    (hslash : '/' ∉ last) (hne : dropEndWhile isBlank last ≠ []) :
    specifierName (dir ++ .ofList last) = .ofList (dropExtension (dropEndWhile isBlank last)) := by
  obtain ⟨folders, hfolders⟩ := List.getLast?_eq_some_iff.1 hdir
  have hslash' : '/' ∉ dropEndWhile isBlank last := fun h => hslash (dropEndWhile_subset _ _ h)
  obtain ⟨init, c, hinit⟩ : ∃ init c, dropEndWhile isBlank last = init ++ [c] :=
    ⟨_, _, (List.dropLast_concat_getLast hne).symm⟩
  have hc : (c == '/') = false := by
    refine beq_false_of_ne fun h => hslash' ?_
    simp [hinit, h]
  have hblank : isBlank '/' = false := by decide
  have htrim : trim (dir ++ String.ofList last).toList =
      folders.dropWhile isBlank ++ '/' :: dropEndWhile isBlank last := by
    rw [String.toList_append, String.toList_ofList, hfolders, List.append_assoc, List.singleton_append,
      trim_append hblank]
  -- the last character is no slash, so none is dropped from the end
  have hend : dropEndWhile (· == '/') (folders.dropWhile isBlank ++ '/' :: dropEndWhile isBlank last) =
      folders.dropWhile isBlank ++ '/' :: dropEndWhile isBlank last := by
    rw [hinit, ← List.cons_append, ← List.append_assoc]
    exact dropEndWhile_append (p := (· == '/')) hc _ []
  rw [specifierName, htrim, hend, basename, lastPiece_append _ hslash']

section Spelling

variable {dir : String} (hdir : dir.toList.getLast? = some '/') {stem ext : List Char} (hstem : stem ≠ [])
  (hslash : '/' ∉ stem ++ '.' :: ext)

include hdir hstem hslash

theorem specifierName_with_extension (hext : '.' ∉ ext) :
    specifierName (dir ++ .ofList (stem ++ '.' :: ext)) = .ofList stem := by
  -- what is trimmed from the end is part of the extension
  have htrim : dropEndWhile isBlank (stem ++ '.' :: ext) = stem ++ '.' :: dropEndWhile isBlank ext :=
    dropEndWhile_append (by decide) stem ext
  have hext' : '.' ∉ dropEndWhile isBlank ext := fun h => hext (dropEndWhile_subset _ _ h)
  rw [specifierName_append hdir hslash (by simp [htrim]), htrim, dropExtension_append hstem hext']

theorem specifierName_without_extension (htrim : trim stem = stem) :
    specifierName (dir ++ .ofList stem) = .ofList (dropExtension stem) := by
  have hslash' : '/' ∉ stem := fun h => hslash (List.mem_append_left _ h)
  have hend : dropEndWhile isBlank stem = stem := dropEndWhile_of_trim htrim
  rw [specifierName_append hdir hslash' (by rwa [hend]), hend]

end Spelling

end Path

theorem Archive.head?_of_isAdmissible {settings : Settings} {path : String} (h : isAdmissible settings path = true) :
    ∃ c, (Path.basename path.toList).head? = some c ∧ c ≠ '.' := by
  simp only [isAdmissible, Bool.and_eq_true, Option.any_eq_true] at h
  obtain ⟨⟨⟨c, hc, hdot⟩, -⟩, -⟩ := h
  exact ⟨c, hc, by simpa using hdot⟩

/-- A file with one more import. -/
def Referrer.importing (f : Referrer) (specifier : String) : Referrer :=
  { f with imports := f.imports ++ [specifier] }

namespace Resolution

theorem reference_importing (importScore : UInt32) (maxScanBytes : Option Nat) (f : Referrer) (specifier : String)
    {stem : String} (hstem : stem ≠ "") : reference importScore maxScanBytes (f.importing specifier) stem =
      reference importScore maxScanBytes f stem +
        if Path.specifierName specifier = stem then importScore.toNat else 0 := by
  have hcount : (f.importing specifier).imports.countP (fun i => Path.specifierName i == stem) =
      (f.imports.countP fun i => Path.specifierName i == stem) +
        if Path.specifierName specifier = stem then 1 else 0 := by
    simp [Referrer.importing, List.countP_append, List.countP_cons]
  have hcontent : (f.importing specifier).content = f.content := rfl
  rw [reference_eq_ways _ _ _ hstem, reference_eq_ways _ _ _ hstem, hcount, hcontent, Nat.mul_add, Nat.add_right_comm]
  split
  · rw [Nat.mul_one]
  · rw [Nat.mul_zero]

/-- One more import adds to the score of a file just if it asks for the file's stem, in 32 bits and, where sums fit, in
full. -/
theorem exists_row_importing (order : Order) (importScore : UInt32) (maxScanBytes : Option Nat) {files : List Referrer}
    {s t : Nat} {f g : Referrer} (hf : files[s]? = some f) (hg : files[t]? = some g) (hne : t ≠ s)
    (hstem : Path.stem g.filepath ≠ "") (specifier : String) :
    ∃ row row', (rows order importScore maxScanBytes files)[s]? = some row ∧
      (rows order importScore maxScanBytes (files.set s (f.importing specifier)))[s]? = some row' ∧
      scoreIn row' t = scoreIn row t +
        (if Path.specifierName specifier = Path.stem g.filepath then importScore else 0) ∧
      (Fits importScore maxScanBytes (files.set s (f.importing specifier)) →
        (scoreIn row' t).toNat = (scoreIn row t).toNat +
          if Path.specifierName specifier = Path.stem g.filepath then importScore.toNat else 0) := by
  obtain ⟨hs, -⟩ := List.getElem?_eq_some_iff.1 hf
  have hf' : (files.set s (f.importing specifier))[s]? = some (f.importing specifier) := by simp [hs]
  have hg' : (files.set s (f.importing specifier))[t]? = some g := by rw [List.getElem?_set_ne hne.symm, hg]
  have hmore := reference_importing importScore maxScanBytes f specifier hstem
  obtain ⟨row, hrow, hscore⟩ := exists_row order importScore maxScanBytes hf hg hne
  obtain ⟨row', hrow', hscore'⟩ := exists_row order importScore maxScanBytes hf' hg' hne
  refine ⟨row, row', hrow, hrow', ?_, fun hfits => ?_⟩
  · rw [hscore, hscore', hmore, UInt32.ofNat_add]
    split <;> simp
  · have hlt := hfits.reference_lt hf' hg' hne
    have hlt' : reference importScore maxScanBytes f (Path.stem g.filepath) < UInt32.size := by omega
    rw [hscore, hscore', UInt32.toNat_ofNat_of_lt' hlt, UInt32.toNat_ofNat_of_lt' hlt', hmore]

end Resolution

open Resolution

/-- **Both spellings of an import, against the stem of the file.**  The one with the extension asks for the stem and adds
the score of an import.  The one without it asks for the stem up to its own last dot: for the stem itself, and so for
the score, just if the stem has no dot.  Scores have 32 bits, and the sums are exact where they fit. -/
theorem spellings (settings : Settings) {path dir : String} {stem ext : List Char}
    (hadmissible : Archive.isAdmissible settings path = true)
    (hbasename : Path.basename path.toList = stem ++ '.' :: ext) (hext : '.' ∉ ext) (htrim : trim stem = stem)
    (hdir : dir.toList.getLast? = some '/') :
    let full := dir ++ String.ofList (stem ++ '.' :: ext)
    let short := dir ++ String.ofList stem
    Path.specifierName full = Path.stem path ∧
      Path.specifierName short = String.ofList (Path.dropExtension stem) ∧
      (Path.specifierName short = Path.stem path ↔ '.' ∉ stem) ∧
      ∀ (order : Order) (importScore : UInt32) (maxScanBytes : Option Nat) (files : List Referrer) (s t : Nat)
        (f g : Referrer), files[s]? = some f → files[t]? = some g → g.filepath = path → t ≠ s →
          ∃ row fullRow shortRow, (rows order importScore maxScanBytes files)[s]? = some row ∧
            (rows order importScore maxScanBytes (files.set s (f.importing full)))[s]? = some fullRow ∧
            (rows order importScore maxScanBytes (files.set s (f.importing short)))[s]? = some shortRow ∧
            scoreIn fullRow t = scoreIn row t + importScore ∧
            scoreIn shortRow t = scoreIn row t + (if '.' ∈ stem then 0 else importScore) ∧
            (Fits importScore maxScanBytes (files.set s (f.importing full)) →
              (scoreIn fullRow t).toNat = (scoreIn row t).toNat + importScore.toNat) ∧
            (Fits importScore maxScanBytes (files.set s (f.importing short)) →
              (scoreIn shortRow t).toNat = (scoreIn row t).toNat + if '.' ∈ stem then 0 else importScore.toNat) := by
  intro full short
  obtain ⟨c, hc, hdot⟩ := Archive.head?_of_isAdmissible hadmissible
  rw [hbasename] at hc
  have hne : stem ≠ [] := by
    rintro rfl
    exact hdot (Option.some.inj hc).symm
  have hhead : stem.head? ≠ some '.' := by
    intro h
    rw [List.head?_append, h] at hc
    exact hdot (Option.some.inj hc).symm
  have hslash : '/' ∉ stem ++ '.' :: ext := hbasename ▸ not_mem_lastPiece '/' path.toList
  have hstem : Path.stem path = .ofList stem := by
    rw [Path.stem, hbasename, Path.dropExtension_append hne hext]
  have hfull : Path.specifierName full = Path.stem path := by
    rw [hstem]
    exact Path.specifierName_with_extension hdir hne hslash hext
  have hshort : Path.specifierName short = String.ofList (Path.dropExtension stem) :=
    Path.specifierName_without_extension hdir hne hslash htrim
  have hiff : Path.specifierName short = Path.stem path ↔ '.' ∉ stem := by
    rw [hshort, hstem, String.ofList_inj, Path.dropExtension_eq_self_iff hhead]
  refine ⟨hfull, hshort, hiff, fun order importScore maxScanBytes files s t f g hf hg hpath hts => ?_⟩
  have hempty : Path.stem g.filepath ≠ "" := by
    rw [hpath, hstem]
    exact fun h => hne (String.ofList_eq_empty_iff.1 h)
  obtain ⟨row, fullRow, hrow, hfullRow, hfullScore, hfullSum⟩ :=
    exists_row_importing order importScore maxScanBytes hf hg hts hempty full
  obtain ⟨row', shortRow, hrow', hshortRow, hshortScore, hshortSum⟩ :=
    exists_row_importing order importScore maxScanBytes hf hg hts hempty short
  obtain rfl := Option.some.inj (hrow.symm.trans hrow')
  simp only [hpath, if_pos hfull] at hfullScore hfullSum
  simp only [hpath, hiff] at hshortScore hshortSum
  refine ⟨row, fullRow, shortRow, hrow, hfullRow, hshortRow, hfullScore, ?_, hfullSum, fun hfits => ?_⟩
  · rw [hshortScore, ite_not]
  · rw [hshortSum hfits, ite_not]

/-- A file with a plain stem, one with a dot in its stem, and a file that imports nothing. -/
def sampleServices : List Referrer := [⟨"lib/util.js", "", []⟩, ⟨"user.service.ts", "", []⟩, ⟨"main.ts", "", []⟩]

theorem spellings_sample :
    Path.specifierName "../lib/util.js" = Path.stem "lib/util.js" ∧
      Path.specifierName "../lib/util" = Path.stem "lib/util.js" ∧
      ∃ row row', (rows .asListed 5 none sampleServices)[2]? = some row ∧
        (rows .asListed 5 none (sampleServices.set 2 ⟨"main.ts", "", ["../lib/util"]⟩))[2]? = some row' ∧
        (scoreIn row' 0).toNat = (scoreIn row 0).toNat + 5 := by
  obtain ⟨hfull, -, hshort, hscores⟩ := @spellings Settings.default "lib/util.js" "../lib/" "util".toList "js".toList
    (by decide +kernel) (by decide +kernel) (by decide) (by decide +kernel) (by decide +kernel)
  have hfits : Fits 5 none (sampleServices.set 2 ⟨"main.ts", "", ["../lib/util"]⟩) :=
    fits_of_forall (by decide +kernel) (by decide +kernel)
  obtain ⟨row, -, row', hrow, -, hrow', -, -, -, hsum⟩ :=
    hscores .asListed 5 none sampleServices 2 0 ⟨"main.ts", "", []⟩ _ rfl rfl rfl (by decide)
  exact ⟨hfull, hshort.2 (by decide), row, row', hrow, hrow', hsum hfits⟩

/-- **Without its extension, an import of a file with a dot in its stem asks for another file.** -/
theorem dotted_stem_not_found :
    Archive.isAdmissible Settings.default "user.service.ts" = true ∧
      Path.basename "user.service.ts".toList = "user.service".toList ++ '.' :: "ts".toList ∧
      trim "user.service".toList = "user.service".toList ∧ "./".toList.getLast? = some '/' ∧
      Path.specifierName ("./" ++ "user.service") ≠ Path.stem "user.service.ts" ∧
      ¬ Linked (resolveIn .asListed 5 none (sampleServices.set 2 ⟨"main.ts", "", ["./user.service"]⟩)) 2 1 := by
  have hf : (sampleServices.set 2 ⟨"main.ts", "", ["./user.service"]⟩)[2]? =
      some ⟨"main.ts", "", ["./user.service"]⟩ := rfl
  have hfits : Fits 5 none (sampleServices.set 2 ⟨"main.ts", "", ["./user.service"]⟩) :=
    fits_of_forall (by decide +kernel) (by decide +kernel)
  refine ⟨by decide +kernel, by decide +kernel, by decide +kernel, by decide +kernel, by decide +kernel, fun h => ?_⟩
  rw [linked_iff .asListed hf rfl (by decide) hfits (by decide +kernel)] at h
  exact absurd h (by decide +kernel)

end FileGraph
