import FileGraph.Proofs.Resolution.Rows
import Mathlib.Data.List.Sort
/-!
# References — a file refers to others by their stems only

How strongly a file refers to a stem depends on that file and on nothing else (`reference`).  There is an edge from a
file to each other file whose stem it refers to, and no other; it weighs what the low bits of the reference weigh
(`mem_edges`), which are all of it where it takes no more than 32.  The row of a file stays the same whatever happens to
the others, as long as they keep their stems (`getElem?_rows_congr`).
-/
namespace FileGraph.Resolution

open Text

section Reference

variable (importScore : UInt32) (maxScanBytes : Option Nat) (f : Referrer) (stem : String)

/-- How strongly a file refers to a stem, in as many bits as it takes: by its imports, by the words of its text and, if
the stem is no plain name, by the places where it stands alone. -/
def reference : Nat :=
  if stem = "" then 0
  else
    importScore.toNat * (f.imports.countP fun i => Path.specifierName i == stem) +
      (words (scanned maxScanBytes f.content)).count stem.toList +
      if isPlainName stem.toList then 0 else mentions stem.toList (scanned maxScanBytes f.content)

/-- That a file refers to a stem: something is added for it, by an import or by a count that is not zero in 32 bits. -/
def Refers : Prop :=
  stem ≠ "" ∧
    ((importScore ≠ 0 ∧ ∃ i ∈ f.imports, Path.specifierName i = stem) ∨
      UInt32.ofNat ((words (scanned maxScanBytes f.content)).count stem.toList) ≠ 0 ∨
        isPlainName stem.toList = false ∧
          UInt32.ofNat (mentions stem.toList (scanned maxScanBytes f.content)) ≠ 0)

variable {importScore maxScanBytes f stem}

theorem ofNat_eq_zero_iff {n : Nat} : UInt32.ofNat n = 0 ↔ n % UInt32.size = 0 :=
  UInt32.ofNat_eq_iff_mod_eq_toNat n 0

theorem ofNat_mod (n : Nat) : UInt32.ofNat (n % UInt32.size) = .ofNat n := UInt32.ofNat_mod_size

theorem import_eq_zero_iff : importScore.toNat * (f.imports.countP fun i => Path.specifierName i == stem) = 0 ↔
    ¬ (importScore ≠ 0 ∧ ∃ i ∈ f.imports, Path.specifierName i = stem) := by
  have hscore : importScore.toNat = 0 ↔ importScore = 0 := by rw [← UInt32.toNat_inj, UInt32.toNat_zero]
  rw [Nat.mul_eq_zero, List.countP_eq_zero, hscore]
  simp only [beq_iff_eq, not_and, not_exists, ne_eq]
  exact or_iff_not_imp_left

/-- What is not referred to has nothing in the low bits. -/
theorem ofNat_reference_of_not_refers (h : ¬ Refers importScore maxScanBytes f stem) :
    UInt32.ofNat (reference importScore maxScanBytes f stem) = 0 := by
  by_cases he : stem = ""
  · rw [reference, if_pos he]
    rfl
  · simp only [Refers, he, not_false_eq_true, true_and, not_or, not_and, ne_eq, Decidable.not_not] at h
    obtain ⟨himport, hwords, hmentions⟩ := h
    have hzero := import_eq_zero_iff.2 fun h => himport h.1 h.2
    rw [reference, if_neg he, hzero, Nat.zero_add, UInt32.ofNat_add, hwords]
    cases hplain : isPlainName stem.toList with
    | true => rfl
    | false => simpa using hmentions hplain

/-- **Where 32 bits are enough, a stem is referred to just if its reference is positive.** -/
theorem refers_iff (h : reference importScore maxScanBytes f stem < UInt32.size) :
    Refers importScore maxScanBytes f stem ↔ 0 < reference importScore maxScanBytes f stem := by
  constructor
  · rintro ⟨he, hrefers⟩
    rw [reference, if_neg he] at h ⊢
    rcases hrefers with himport | hwords | ⟨hplain, hmentions⟩
    · have hpos : ¬ _ = 0 := mt import_eq_zero_iff.1 (not_not_intro himport)
      omega
    · have hne : (words (scanned maxScanBytes f.content)).count stem.toList ≠ 0 := fun h => hwords (by rw [h]; rfl)
      omega
    · have hne : mentions stem.toList (scanned maxScanBytes f.content) ≠ 0 := fun h => hmentions (by rw [h]; rfl)
      rw [if_neg (by simp [hplain])]
      omega
  · intro hpos
    by_contra hno
    have hzero := ofNat_eq_zero_iff.1 (ofNat_reference_of_not_refers hno)
    rw [Nat.mod_eq_of_lt h] at hzero
    omega

end Reference

section Stem

variable (order : Order) (importScore : UInt32) (maxScanBytes : Option Nat) (stems : List String) (source : Nat)
  (f : Referrer)

/-- What a file refers to, where files have these stems. -/
def referencesOf : List (String × UInt32) :=
  (references wrapping importScore (order.stems (irregularStems (indexFrom 0 stems {}))) (order.words source) f.imports
    (scanned maxScanBytes f.content)).run

variable {stems} {t : Nat} {stem : String} (hat : stems[t]? = some stem) (hne : stem ≠ "")

include hat hne

/-- The amounts for a stem are the low bits of its three counts. -/
theorem total_referencesOf : total stem (referencesOf order importScore maxScanBytes stems source f) =
    importScore.toNat * (f.imports.countP fun i => Path.specifierName i == stem) +
      (words (scanned maxScanBytes f.content)).count stem.toList % UInt32.size +
        if isPlainName stem.toList then 0
        else mentions stem.toList (scanned maxScanBytes f.content) % UInt32.size := by
  rw [referencesOf, total_references _ _ (order.stems_perm _) _ (order.words_perm source) _ _ (nodup_irregularStems _)]
  cases hplain : isPlainName stem.toList <;> simp [mem_irregularStems hat hne, hplain]

theorem total_referencesOf_le : total stem (referencesOf order importScore maxScanBytes stems source f) ≤
    reference importScore maxScanBytes f stem := by
  have hwords := Nat.mod_le ((words (scanned maxScanBytes f.content)).count stem.toList) UInt32.size
  have hmentions := Nat.mod_le (mentions stem.toList (scanned maxScanBytes f.content)) UInt32.size
  rw [total_referencesOf order importScore maxScanBytes source f hat hne, reference, if_neg hne]
  split <;> omega

/-- **The amounts for a stem add up to the low bits of its reference.** -/
theorem ofNat_total_referencesOf : UInt32.ofNat (total stem (referencesOf order importScore maxScanBytes stems source f)) =
    .ofNat (reference importScore maxScanBytes f stem) := by
  rw [total_referencesOf order importScore maxScanBytes source f hat hne, reference, if_neg hne]
  split <;> simp [UInt32.ofNat_add, ofNat_mod]

theorem exists_mem_referencesOf_iff :
    (∃ r ∈ referencesOf order importScore maxScanBytes stems source f, r.1 = stem ∧ r.2 ≠ 0) ↔
      Refers importScore maxScanBytes f stem := by
  rw [referencesOf, exists_reference_iff _ _ (order.stems_perm _) _ (order.words_perm source),
    mem_irregularStems hat hne, Refers, and_iff_right hne]

end Stem

section Rows

variable (order : Order) (importScore : UInt32) (maxScanBytes : Option Nat) (files : List Referrer)

/-- **A row lists the other files whose stems are referred to**, whatever order the tables are gone through in, each
with the low bits of the reference. -/
theorem mem_rowOf {s t : Nat} {n : UInt32} {f : Referrer} :
    (t, n) ∈ rowOf order importScore maxScanBytes files s f ↔
      t ≠ s ∧ ∃ g, files[t]? = some g ∧ Refers importScore maxScanBytes f (Path.stem g.filepath) ∧
        n = .ofNat (reference importScore maxScanBytes f (Path.stem g.filepath)) := by
  rw [rowOf, mem_row]
  constructor
  · rintro ⟨stem, hat, hne, hother, hsome, rfl⟩
    have hrefers := (exists_mem_referencesOf_iff order importScore maxScanBytes s f hat hne).1 hsome
    have hsum := ofNat_total_referencesOf order importScore maxScanBytes s f hat hne
    rw [List.getElem?_map] at hat
    obtain ⟨g, hg, rfl⟩ := Option.map_eq_some_iff.1 hat
    exact ⟨hother, g, hg, hrefers, hsum⟩
  · rintro ⟨hother, g, hg, hrefers, rfl⟩
    have hat : (files.map fun f => Path.stem f.filepath)[t]? = some (Path.stem g.filepath) := by
      rw [List.getElem?_map, hg, Option.map_some]
    exact ⟨_, hat, hrefers.1, hother,
      (exists_mem_referencesOf_iff order importScore maxScanBytes s f hat hrefers.1).2 hrefers,
      (ofNat_total_referencesOf order importScore maxScanBytes s f hat hrefers.1).symm⟩

/-- **There is an edge to each other file whose stem is referred to**, and no other edge. -/
theorem mem_edges {e : Edge} :
    e ∈ (resolveIn order importScore maxScanBytes files).edges ↔
      ∃ f g, files[e.source]? = some f ∧ files[e.target]? = some g ∧ e.source ≠ e.target ∧
        Refers importScore maxScanBytes f (Path.stem g.filepath) ∧
        e.weight = Weight.ofRaw (reference importScore maxScanBytes f (Path.stem g.filepath) % UInt32.size) := by
  rw [resolveIn_eq, mem_edgesFrom]
  constructor
  · rintro ⟨s, row, n, hs, hes, ht, hw⟩
    rw [getElem?_rows] at hs
    obtain ⟨f, hf, rfl⟩ := Option.map_eq_some_iff.1 hs
    obtain ⟨hts, g, hg, hrefers, rfl⟩ := (mem_rowOf order importScore maxScanBytes files).1 ht
    rw [Nat.zero_add] at hes
    exact ⟨f, g, hes ▸ hf, hg, hes ▸ hts.symm, hrefers, hw⟩
  · rintro ⟨f, g, hf, hg, hne, hrefers, hw⟩
    refine ⟨e.source, _, _, by rw [getElem?_rows, hf, Option.map_some], (Nat.zero_add _).symm,
      (mem_rowOf order importScore maxScanBytes files).2 ⟨hne.symm, g, hg, hrefers, rfl⟩, hw⟩

end Rows

/-- **The order in which the tables are gone through does not show.** -/
theorem resolveIn_eq_resolve (order : Order) (importScore : UInt32) (maxScanBytes : Option Nat) (files : List Referrer) :
    resolveIn order importScore maxScanBytes files = resolve importScore maxScanBytes files := by
  have hrow : ∀ s f, rowOf order importScore maxScanBytes files s f =
      rowOf .asListed importScore maxScanBytes files s f := by
    intro s f
    have hirrefl : Std.Irrefl fun a b : Nat × UInt32 => a.1 < b.1 := ⟨fun a => Nat.lt_irrefl a.1⟩
    have hantisymm : Std.Antisymm fun a b : Nat × UInt32 => a.1 < b.1 := ⟨fun a b h h' => absurd h (Nat.lt_asymm h')⟩
    refine List.Pairwise.eq_of_mem_iff (pairwise_rowOf _ _ _ _ s f) (pairwise_rowOf _ _ _ _ s f) ?_
    rintro ⟨t, n⟩
    exact (mem_rowOf order importScore maxScanBytes files).trans (mem_rowOf .asListed importScore maxScanBytes files).symm
  have hrows : rows order importScore maxScanBytes files = rows .asListed importScore maxScanBytes files := by
    rw [rows_eq_map, rows_eq_map]
    exact List.map_congr_left fun f _ => hrow f.2 f.1
  rw [resolve, resolveIn_eq, resolveIn_eq, hrows]

/-! ## Others -/

section Others

variable {files files' : List Referrer}

/-- **A row depends on its own file and on the stems of all files**, and on nothing else of the others. -/
theorem getElem?_rows_congr (order : Order) (importScore : UInt32) (maxScanBytes : Option Nat)
    (h : files.map (fun f => Path.stem f.filepath) = files'.map fun f => Path.stem f.filepath) {i : Nat}
    (hi : files[i]? = files'[i]?) :
    (rows order importScore maxScanBytes files)[i]? = (rows order importScore maxScanBytes files')[i]? := by
  rw [getElem?_rows, getElem?_rows, hi]
  refine Option.map_congr fun f _ => ?_
  rw [rowOf, rowOf, h]

/-- Rows that agree on some sources have the same edges from these. -/
theorem filter_edgesFrom_congr (kept : Nat → Bool) : ∀ (k : Nat) {rows rows' : List (List (Nat × UInt32))},
    rows.length = rows'.length → (∀ s, kept (k + s) = true → rows[s]? = rows'[s]?) →
      (edgesFrom k rows).filter (fun e => kept e.source) = (edgesFrom k rows').filter fun e => kept e.source
  | _, [], [], _, _ => rfl
  | k, row :: rows, row' :: rows', hlength, h => by
    have hrest := filter_edgesFrom_congr kept (k + 1) (Nat.succ.inj hlength) fun s hs => by
      have hk : k + 1 + s = k + (s + 1) := by omega
      simpa using h (s + 1) (hk ▸ hs)
    rw [edgesFrom, edgesFrom, List.filter_append, List.filter_append, hrest]
    -- of the first rows nothing is left if their source is not kept, and they are the same if it is
    refine congrArg (· ++ _) ?_
    cases hk : kept k with
    | true =>
      have hrow : row = row' := by simpa using h 0 hk
      rw [hrow]
    | false =>
      have hnone : ∀ row : List (Nat × UInt32),
          (row.map fun t => (⟨k, t.1, Weight.ofRaw t.2.toNat⟩ : Edge)).filter (fun e => kept e.source) = [] := by
        intro row
        refine List.filter_eq_nil_iff.2 fun e he => ?_
        obtain ⟨t, -, rfl⟩ := List.mem_map.1 he
        simp [hk]
      rw [hnone, hnone]

end Others

end FileGraph.Resolution
