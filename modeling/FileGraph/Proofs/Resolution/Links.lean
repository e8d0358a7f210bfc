import FileGraph.Proofs.Resolution.Mentions
import FileGraph.Proofs.Text.Places
/-!
# Links — a file is linked to the files that it imports or mentions

There is an edge from a file to another just if it imports the other's stem, or mentions it and the stem is counted in
some way (`linked_iff`).  So a stem that stands between blanks makes a link if it begins and ends with characters of
words and is counted; a stem such as `[slug]` has no edge of a word at its ends there, and only what is found elsewhere
can link to it (`linked_iff_between_blanks`).
-/
namespace FileGraph.Resolution

open Text

/-- That resolution has an edge from one position to another. -/
def Linked (r : Resolution) (s t : Nat) : Prop := ∃ e ∈ r.edges, e.source = s ∧ e.target = t

/-- The score of a position in a row, and zero if the row does not list it. -/
def scoreIn (row : List (Nat × UInt32)) (t : Nat) : UInt32 := (row.lookup t).getD 0

theorem lookup_eq_some_of_mem {t : Nat} {n : UInt32} : ∀ {row : List (Nat × UInt32)}, row.Pairwise (fun a b => a.1 < b.1) →
    (t, n) ∈ row → row.lookup t = some n
  | [], _, h => by cases h
  | (k, m) :: row, hsorted, h => by
    rw [List.pairwise_cons] at hsorted
    rw [List.lookup_cons]
    rcases List.mem_cons.1 h with heq | h
    · obtain ⟨rfl, rfl⟩ := Prod.mk.inj heq
      simp
    · have hlt : k < t := hsorted.1 (t, n) h
      have hother : (t == k) = false := beq_false_of_ne (Nat.ne_of_gt hlt)
      rw [hother]
      exact lookup_eq_some_of_mem hsorted.2 h

theorem lookup_eq_none_of_forall {t : Nat} {row : List (Nat × UInt32)} (h : ∀ n, (t, n) ∉ row) : row.lookup t = none := by
  rw [List.lookup_eq_none_iff]
  rintro ⟨k, n⟩ hmem
  exact bne_iff_ne.2 fun hk => h n (hk ▸ hmem)

section Links

variable (order : Order) (importScore : UInt32) (maxScanBytes : Option Nat) {files : List Referrer} {s t : Nat}
  {f g : Referrer} (hf : files[s]? = some f) (hg : files[t]? = some g) (hne : t ≠ s)

include hf hg hne

/-- **The score of a pair** is the low bits of what the one file refers to the other by. -/
theorem exists_row : ∃ row, (rows order importScore maxScanBytes files)[s]? = some row ∧
    scoreIn row t = .ofNat (reference importScore maxScanBytes f (Path.stem g.filepath)) := by
  refine ⟨_, by rw [getElem?_rows, hf, Option.map_some], ?_⟩
  by_cases hrefers : Refers importScore maxScanBytes f (Path.stem g.filepath)
  · have hmem := (mem_rowOf order importScore maxScanBytes files).2 ⟨hne, g, hg, hrefers, rfl⟩
    rw [scoreIn, lookup_eq_some_of_mem (pairwise_rowOf _ _ _ _ s f) hmem, Option.getD_some]
  · rw [scoreIn, lookup_eq_none_of_forall fun n hn => ?_, ofNat_reference_of_not_refers hrefers, Option.getD_none]
    obtain ⟨-, g', hg', hrefers', -⟩ := (mem_rowOf order importScore maxScanBytes files).1 hn
    obtain rfl := Option.some.inj (hg.symm.trans hg')
    exact hrefers hrefers'

theorem linked_iff_refers : Linked (resolveIn order importScore maxScanBytes files) s t ↔
    Refers importScore maxScanBytes f (Path.stem g.filepath) := by
  simp only [Linked, mem_edges]
  constructor
  · rintro ⟨e, ⟨f', g', hf', hg', -, hrefers, -⟩, rfl, rfl⟩
    obtain rfl := Option.some.inj (hf.symm.trans hf')
    obtain rfl := Option.some.inj (hg.symm.trans hg')
    exact hrefers
  · intro hrefers
    exact ⟨⟨s, t, Weight.ofRaw _⟩, ⟨f, g, hf, hg, hne.symm, hrefers, rfl⟩, rfl, rfl⟩

variable {importScore maxScanBytes} (hfits : Fits importScore maxScanBytes files)

include hfits

/-- Where sums fit, the score of a pair is all of it. -/
theorem exists_row_of_fits : ∃ row, (rows order importScore maxScanBytes files)[s]? = some row ∧
    (scoreIn row t).toNat = reference importScore maxScanBytes f (Path.stem g.filepath) := by
  obtain ⟨row, hrow, hscore⟩ := exists_row order importScore maxScanBytes hf hg hne
  exact ⟨row, hrow, by rw [hscore, UInt32.toNat_ofNat_of_lt' (hfits.reference_lt hf hg hne)]⟩

theorem linked_iff_reference : Linked (resolveIn order importScore maxScanBytes files) s t ↔
    0 < reference importScore maxScanBytes f (Path.stem g.filepath) :=
  (linked_iff_refers order importScore maxScanBytes hf hg hne).trans (refers_iff (hfits.reference_lt hf hg hne))

/-- **A file is linked to what it imports, and to what it mentions in a way that counts.** -/
theorem linked_iff (hstem : Path.stem g.filepath ≠ "") :
    Linked (resolveIn order importScore maxScanBytes files) s t ↔
      0 < importScore.toNat * (f.imports.countP fun i => Path.specifierName i == Path.stem g.filepath) ∨
        0 < ways (Path.stem g.filepath).toList ∧
          places (Path.stem g.filepath).toList (scanned maxScanBytes f.content) ≠ [] := by
  rw [linked_iff_reference order hf hg hne hfits, reference_eq_ways importScore maxScanBytes f hstem,
    ← List.length_pos_iff, length_places, Nat.add_pos_iff_pos_or_pos]
  simp only [Nat.pos_iff_ne_zero, Nat.mul_ne_zero_iff]

end Links

/-- **A stem between blanks makes a link just if it begins and ends with a character of words and is counted**, where
sums fit.  Otherwise nothing is found there, and the file is linked only to what it imports or mentions at another
place. -/
theorem linked_iff_between_blanks (order : Order) {importScore : UInt32} {files : List Referrer}
    (hfits : Fits importScore none files) {s t : Nat} {f g : Referrer} (hf : files[s]? = some f)
    (hg : files[t]? = some g) (hne : t ≠ s) (hstem : Path.stem g.filepath ≠ "")
    (hblank : (Path.stem g.filepath).toList.any isBlank = false) {before after : List Char}
    (hcontent : f.content.toList = before ++ ((Path.stem g.filepath).toList ++ after))
    (hbefore : before.getLast?.all isBlank = true) (hafter : after.head?.all isBlank = true) :
    let stem := (Path.stem g.filepath).toList
    let imported := importScore.toNat * f.imports.countP fun i => Path.specifierName i == Path.stem g.filepath
    (before.length ∈ places stem f.content.toList ↔ WordEnds stem) ∧
      (Linked (resolveIn order importScore none files) s t ↔
        0 < imported ∨ 0 < ways stem ∧ (WordEnds stem ∨ ∃ p ∈ places stem f.content.toList, p ≠ before.length)) := by
  intro stem imported
  have hnil : stem ≠ [] := fun e => hstem (String.toList_eq_nil_iff.1 e)
  have hplace : before.length ∈ places stem f.content.toList ↔ WordEnds stem := by
    rw [hcontent]
    exact mem_places_between_blanks hnil (by simpa using hblank) hbefore hafter
  have hsome : places stem f.content.toList ≠ [] ↔
      WordEnds stem ∨ ∃ p ∈ places stem f.content.toList, p ≠ before.length := by
    rw [← hplace]
    constructor
    · intro hfound
      obtain ⟨p, hp⟩ := List.exists_mem_of_ne_nil _ hfound
      by_cases hother : p = before.length
      · exact .inl (hother ▸ hp)
      · exact .inr ⟨p, hp, hother⟩
    · rintro (hp | ⟨p, hp, -⟩)
      · exact List.ne_nil_of_mem hp
      · exact List.ne_nil_of_mem hp
  refine ⟨hplace, ?_⟩
  rw [linked_iff order hf hg hne hfits hstem, ← hsome]
  rfl

/-- Two files, one of them with brackets around its stem, and a file that mentions each of them between blanks. -/
def sampleRoutes : List Referrer :=
  [⟨"routes/[slug].ts", "", []⟩, ⟨"lib/date-utils.ts", "", []⟩, ⟨"main.ts", "[slug] date-utils", []⟩]

theorem linked_iff_between_blanks_sample :
    Fits 5 none sampleRoutes ∧ ¬ Linked (resolveIn .asListed 5 none sampleRoutes) 2 0 ∧
      Linked (resolveIn .asListed 5 none sampleRoutes) 2 1 := by
  have hfits : Fits 5 none sampleRoutes := fits_of_forall (by decide +kernel) (by decide +kernel)
  have hf : sampleRoutes[2]? = some ⟨"main.ts", "[slug] date-utils", []⟩ := rfl
  have hroutes : "[slug] date-utils".toList = [] ++ ((Path.stem "routes/[slug].ts").toList ++ " date-utils".toList) := by
    decide +kernel
  have hlib : "[slug] date-utils".toList = "[slug] ".toList ++ ((Path.stem "lib/date-utils.ts").toList ++ []) := by
    decide +kernel
  have hslug := linked_iff_between_blanks .asListed hfits (t := 0) hf rfl (by decide) (by decide +kernel)
    (by decide +kernel) hroutes (by decide) (by decide +kernel)
  have hdates := linked_iff_between_blanks .asListed hfits (t := 1) hf rfl (by decide) (by decide +kernel)
    (by decide +kernel) hlib (by decide +kernel) (by decide)
  refine ⟨hfits, fun h => ?_, hdates.2.2 ?_⟩
  · exact absurd (hslug.2.1 h) (by decide +kernel)
  · exact .inr (by decide +kernel)

end FileGraph.Resolution
