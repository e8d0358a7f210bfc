import FileGraph.Proofs.Resolution.Links
/-!
# Budgets — what a narrower scan finds

A budget cuts the text that is scanned back to whole characters, not to whole words.  So a narrower scan finds what a
wider one finds up to its cut, and it may find one mention more: where the cut leaves the start of a longer word that is
a stem.  A score under the narrower budget exceeds the one under the wider budget just if there is such a mention, and
nothing from the cut on makes up for it (`narrower_scan`).
-/
namespace FileGraph.Resolution

open Text

/-- That a budget allows no more than another one; a missing budget allows everything. -/
def NoWider : Option Nat → Option Nat → Prop
  | _, none => True
  | some m, some n => m ≤ n
  | none, some _ => False

instance : ∀ m n : Option Nat, Decidable (NoWider m n)
  | _, none => .isTrue trivial
  | some m, some n => inferInstanceAs (Decidable (m ≤ n))
  | none, some _ => .isFalse id

theorem prefix_takeBytes : ∀ (budget : Nat) (cs : List Char), takeBytes budget cs <+: cs
  | _, [] => List.prefix_rfl
  | budget, c :: cs => by
    rw [takeBytes]
    split
    · exact (List.prefix_cons_inj c).2 (prefix_takeBytes _ cs)
    · exact List.nil_prefix

theorem takeBytes_prefix_of_le : ∀ {m n : Nat} (_ : m ≤ n) (cs : List Char), takeBytes m cs <+: takeBytes n cs
  | _, _, _, [] => List.prefix_rfl
  | m, n, h, c :: cs => by
    simp only [takeBytes]
    by_cases hm : c.utf8Size ≤ m
    · rw [if_pos hm, if_pos (Nat.le_trans hm h), List.prefix_cons_inj]
      exact takeBytes_prefix_of_le (Nat.sub_le_sub_right h _) cs
    · rw [if_neg hm]
      exact List.nil_prefix

theorem scanned_prefix {m n : Option Nat} (h : NoWider m n) (content : String) :
    scanned m content <+: scanned n content := by
  cases m with
  | none =>
    cases n with
    | none => exact List.prefix_rfl
    | some n => exact absurd h id
  | some m =>
    cases n with
    | none => exact prefix_takeBytes m content.toList
    | some n => exact takeBytes_prefix_of_le h content.toList

/-- **What a narrower scan says of a stem, against a wider one**, where sums fit in both.  It counts at most one mention
too many.  The score is no higher unless the narrower scan ends in a mention and the wider one finds none from there on;
the link is kept unless, moreover, the stem is not imported and the wider scan finds no mention at all; and each mention
that the narrower scan finds is one in the wider scan, too, unless its cut goes through a word after a mention.  An empty
stem scores nothing in either. -/
theorem narrower_scan (order order' : Order) {importScore : UInt32} {m n : Option Nat} (hbudget : NoWider m n)
    {files : List Referrer} (hfits : Fits importScore m files) (hfits' : Fits importScore n files) {s t : Nat}
    {f g : Referrer} (hf : files[s]? = some f) (hg : files[t]? = some g) (hne : t ≠ s) :
    let stem := (Path.stem g.filepath).toList
    let near := scanned m f.content
    let far := scanned n f.content
    let imported := importScore.toNat * f.imports.countP fun i => Path.specifierName i == Path.stem g.filepath
    ∃ row row', (rows order importScore m files)[s]? = some row ∧
      (rows order' importScore n files)[s]? = some row' ∧
      (scoreIn row t).toNat ≤ (scoreIn row' t).toNat + ways stem ∧
      (scoreIn row t ≤ scoreIn row' t ↔
        stem = [] ∨ ways stem = 0 ∨ ¬ EndsIn stem near ∨ ∃ p ∈ places stem far, near.length ≤ p + stem.length) ∧
      ((Linked (resolveIn order importScore m files) s t → Linked (resolveIn order' importScore n files) s t) ↔
        stem = [] ∨ 0 < imported ∨ ways stem = 0 ∨ ¬ EndsIn stem near ∨ places stem far ≠ []) ∧
      (stem ≠ [] → ((∀ p ∈ places stem near, p ∈ places stem far) ↔
        ¬ EndsIn stem near ∨ (far.drop near.length).head?.any isWordChar = false)) := by
  intro stem near far imported
  have hprefix : near <+: far := scanned_prefix hbudget f.content
  obtain ⟨row, hrow, hscore⟩ := exists_row_of_fits order hf hg hne hfits
  obtain ⟨row', hrow', hscore'⟩ := exists_row_of_fits order' hf hg hne hfits'
  refine ⟨row, row', hrow, hrow', ?_⟩
  rw [UInt32.le_iff_toNat_le]
  by_cases hstem : Path.stem g.filepath = ""
  · have hnil : stem = [] := String.toList_eq_nil_iff.2 hstem
    have hzero : reference importScore m f (Path.stem g.filepath) = 0 := if_pos hstem
    have hle : (scoreIn row t).toNat ≤ (scoreIn row' t).toNat := by
      rw [hscore, hzero]
      exact Nat.zero_le _
    refine ⟨Nat.le_trans hle (Nat.le_add_right _ _), iff_of_true hle (.inl hnil), iff_of_true ?_ (.inl hnil),
      fun h => absurd hnil h⟩
    rw [linked_iff_reference order hf hg hne hfits, hzero]
    exact fun h => absurd h (Nat.lt_irrefl 0)
  · have hnil : stem ≠ [] := fun e => hstem (String.toList_eq_nil_iff.1 e)
    rw [reference_eq_ways importScore m f hstem] at hscore
    rw [reference_eq_ways importScore n f hstem] at hscore'
    rw [or_iff_right hnil, or_iff_right hnil]
    refine ⟨?_, ?_, ?_, fun _ => places_subset_iff hnil hprefix⟩
    · rw [hscore, hscore']
      calc
        _ ≤ _ + ways stem * (mentions stem far + 1) :=
          Nat.add_le_add_left (Nat.mul_le_mul_left _ (mentions_le_add_one hnil hprefix)) _
        _ = _ := by rw [Nat.mul_succ, Nat.add_assoc]
    · rw [hscore, hscore', Nat.add_le_add_iff_left, ← mentions_le_iff hnil hprefix]
      rcases Nat.eq_zero_or_pos (ways stem) with hways | hways
      · simp [stem, hways]
      · rw [Nat.mul_le_mul_left_iff hways, or_iff_right (Nat.ne_of_gt hways)]
    · rw [linked_iff order hf hg hne hfits hstem, linked_iff order' hf hg hne hfits' hstem,
        ← found_iff hnil hprefix]
      -- what is imported is linked in both, and what is not counted in neither
      by_cases himported : 0 < imported
      · exact iff_of_true (fun _ => .inl himported) (.inl himported)
      rw [or_iff_right himported, or_iff_right himported, or_iff_right himported]
      rcases Nat.eq_zero_or_pos (ways stem) with hways | hways
      · exact iff_of_true (fun h => absurd h.1 (Nat.not_lt.2 (Nat.le_of_eq hways))) (.inl hways)
      · rw [and_iff_right hways, and_iff_right hways, or_iff_right (Nat.ne_of_gt hways)]

/-- A stem, and a file whose only word begins with it. -/
def sampleCut : List Referrer := [⟨"ab.js", "", []⟩, ⟨"main.js", "abcd", []⟩]

theorem narrower_scan_sample :
    NoWider (some 2) none ∧ Fits 5 (some 2) sampleCut ∧ Fits 5 none sampleCut ∧
      ∃ row row', (rows .asListed 5 (some 2) sampleCut)[1]? = some row ∧
        (rows .asListed 5 none sampleCut)[1]? = some row' ∧ ¬ scoreIn row 0 ≤ scoreIn row' 0 ∧
        ¬ (Linked (resolveIn .asListed 5 (some 2) sampleCut) 1 0 → Linked (resolveIn .asListed 5 none sampleCut) 1 0) ∧
        ¬ ∀ p ∈ places ['a', 'b'] ['a', 'b'], p ∈ places ['a', 'b'] ['a', 'b', 'c', 'd'] := by
  have hfits : Fits 5 (some 2) sampleCut := fits_of_forall (by decide +kernel) (by decide +kernel)
  have hfits' : Fits 5 none sampleCut := fits_of_forall (by decide +kernel) (by decide +kernel)
  have hf : sampleCut[1]? = some ⟨"main.js", "abcd", []⟩ := rfl
  obtain ⟨row, row', hrow, hrow', -, hscore, hlinked, hplaces⟩ :=
    narrower_scan .asListed .asListed (m := some 2) (n := none) trivial hfits hfits' (t := 0) hf rfl (by decide)
  refine ⟨trivial, hfits, hfits', row, row', hrow, hrow', fun h => ?_, fun h => ?_, fun h => ?_⟩
  · exact absurd (hscore.1 h) (by decide +kernel)
  · exact absurd (hlinked.1 h) (by decide +kernel)
  · exact absurd ((hplaces (by decide +kernel)).1 h) (by decide +kernel)

end FileGraph.Resolution
