import FileGraph.Proofs.Resolution.Scores
import FileGraph.Proofs.Weight
/-!
# Rows — the edges of a source are its row

Each row of scores lists positions of other files in order (`Row`), those of the files whose stems are referred to
(`mem_row`).  So the edges come in the order of their sources and targets, no pair has two of them, and the paths that a
file depends on are those of the targets of its edges.  None of this depends on which characters the stems have.
-/
namespace FileGraph

/-- Whether an edge comes before another: by their sources, and by their targets where the sources agree. -/
def Edge.Before (e e' : Edge) : Prop :=
  e.source < e'.source ∨ e.source = e'.source ∧ e.target < e'.target

instance (e e' : Edge) : Decidable (e.Before e') := by unfold Edge.Before; infer_instance

namespace Resolution

/-- What a row of scores satisfies that belongs to one of so many files. -/
structure Row (count source : Nat) (row : List (Nat × UInt32)) : Prop where
  sorted  : row.Pairwise fun a b => a.1 < b.1
  inRange : ∀ t ∈ row, t.1 < count
  others  : ∀ t ∈ row, t.1 ≠ source

section Row

variable {order : Order} {importScore : UInt32} {maxScanBytes : Option Nat} {index : StemIndex}
  {irregular : List String} {source : Nat} {f : Referrer}

theorem pairwise_row :
    (row wrapping order importScore maxScanBytes index irregular source f).run.Pairwise fun a b => a.1 < b.1 :=
  Std.TreeMap.ordered_keys_toList.imp fun h => Nat.compare_eq_lt.1 h

/-- **A row lists the other files whose stems are referred to**, each with the low bits of what refers to its stem. -/
theorem mem_row {stems : List String} {t : Nat} {n : UInt32} :
    (t, n) ∈ (row wrapping order importScore maxScanBytes (indexFrom 0 stems {}) irregular source f).run ↔
      ∃ stem, stems[t]? = some stem ∧ stem ≠ "" ∧ t ≠ source ∧
        let references := (references wrapping importScore irregular (order.words source) f.imports
          (scanned maxScanBytes f.content)).run
        (∃ r ∈ references, r.1 = stem ∧ r.2 ≠ 0) ∧ n = .ofNat (total stem references) := by
  have hrow : (row wrapping order importScore maxScanBytes (indexFrom 0 stems {}) irregular source f).run =
      ((additions (indexFrom 0 stems {}) source (references wrapping importScore irregular (order.words source) f.imports
        (scanned maxScanBytes f.content)).run).foldlM (addTo wrapping) ({} : Scores)).run.toList := rfl
  rw [hrow, Std.TreeMap.mem_toList_iff_getElem?_eq_some, getElem?_foldlM_addTo]
  constructor
  · intro h
    split at h
    · rename_i hmem
      obtain ⟨hother, stem, hat, hne, hrefers⟩ := mem_additions.1 hmem
      rw [total_additions hat hne hother] at h
      exact ⟨stem, hat, hne, hother, hrefers, by simpa using (Option.some.inj h).symm⟩
    · simp at h
  · rintro ⟨stem, hat, hne, hother, hrefers, rfl⟩
    rw [if_pos (mem_additions.2 ⟨hother, stem, hat, hne, hrefers⟩), total_additions hat hne hother]
    simp

end Row

section Rows

variable (order : Order) (importScore : UInt32) (maxScanBytes : Option Nat) (files : List Referrer)

/-- The row of a file among others. -/
def rowOf (s : Nat) (f : Referrer) : List (Nat × UInt32) :=
  let index := indexFrom 0 (files.map fun f => Path.stem f.filepath) {}
  (row wrapping order importScore maxScanBytes index (order.stems (irregularStems index)) s f).run

theorem pairwise_rowOf (s : Nat) (f : Referrer) :
    (rowOf order importScore maxScanBytes files s f).Pairwise fun a b => a.1 < b.1 :=
  pairwise_row

theorem rows_eq_map : rows order importScore maxScanBytes files =
    files.zipIdx.map fun f => rowOf order importScore maxScanBytes files f.2 f.1 :=
  congrArg Id.run (List.mapM_pure (m := Id))

theorem length_rows : (rows order importScore maxScanBytes files).length = files.length := by simp [rows_eq_map]

theorem getElem?_rows (s : Nat) :
    (rows order importScore maxScanBytes files)[s]? =
      files[s]?.map fun f => rowOf order importScore maxScanBytes files s f := by
  cases h : files[s]? with
  | none => simp [rows_eq_map, h]
  | some f => simp [rows_eq_map, h]

theorem row_of_getElem?_rows {s : Nat} {row : List (Nat × UInt32)}
    (h : (rows order importScore maxScanBytes files)[s]? = some row) : Row files.length s row := by
  rw [getElem?_rows] at h
  obtain ⟨f, -, rfl⟩ := Option.map_eq_some_iff.1 h
  refine ⟨pairwise_rowOf order importScore maxScanBytes files s f, fun t ht => ?_, fun t ht => ?_⟩
  · obtain ⟨stem, hat, -⟩ := mem_row.1 ht
    obtain ⟨hlt, -⟩ := List.getElem?_eq_some_iff.1 hat
    rwa [List.length_map] at hlt
  · obtain ⟨stem, -, -, hother, -⟩ := mem_row.1 ht
    exact hother

end Rows

/-! ## From rows to edges -/

theorem mem_edgesFrom {e : Edge} : ∀ (k : Nat) (rows : List (List (Nat × UInt32))),
    e ∈ edgesFrom k rows ↔
      ∃ s row n, rows[s]? = some row ∧ e.source = k + s ∧ (e.target, n) ∈ row ∧ e.weight = Weight.ofRaw n.toNat
  | k, [] => by simp [edgesFrom]
  | k, row :: rows => by
    rw [edgesFrom, List.mem_append, mem_edgesFrom (k + 1) rows, List.mem_map]
    constructor
    · rintro (⟨⟨t, n⟩, ht, rfl⟩ | ⟨s, row', n, hrow, hs, ht, hw⟩)
      · exact ⟨0, row, n, rfl, rfl, ht, rfl⟩
      · exact ⟨s + 1, row', n, hrow, by omega, ht, hw⟩
    · rintro ⟨s, row', n, hrow, hs, ht, hw⟩
      cases s with
      | zero =>
        have hrow : row = row' := by simpa using hrow
        subst hrow
        exact .inl ⟨(e.target, n), ht, by cases e; simp_all⟩
      | succ s => exact .inr ⟨s, row', n, by simpa using hrow, by omega, ht, hw⟩

theorem source_of_mem_edgesFrom {e : Edge} {k : Nat} {rows : List (List (Nat × UInt32))} (h : e ∈ edgesFrom k rows) :
    k ≤ e.source := by
  obtain ⟨s, row, n, -, hs, -, -⟩ := (mem_edgesFrom k rows).1 h
  omega

theorem pairwise_edgesFrom : ∀ (k : Nat) (rows : List (List (Nat × UInt32))),
    (∀ row ∈ rows, row.Pairwise fun a b => a.1 < b.1) → (edgesFrom k rows).Pairwise Edge.Before
  | _, [], _ => List.Pairwise.nil
  | k, row :: rows, h => by
    rw [edgesFrom, List.pairwise_append, List.pairwise_map]
    refine ⟨?_, pairwise_edgesFrom (k + 1) rows fun r hr => h r (List.mem_cons_of_mem _ hr), ?_⟩
    · exact (h row List.mem_cons_self).imp fun hab => .inr ⟨rfl, hab⟩
    · intro e he e' he'
      obtain ⟨t, -, rfl⟩ := List.mem_map.1 he
      exact .inl (source_of_mem_edgesFrom he')

/-- The edges of a source are its row. -/
theorem filter_edgesFrom (s : Nat) : ∀ (k : Nat) (rows : List (List (Nat × UInt32))),
    (edgesFrom k rows).filter (·.source == k + s) =
      (rows[s]?.getD []).map fun t => ⟨k + s, t.1, Weight.ofRaw t.2.toNat⟩
  | k, [] => by simp [edgesFrom]
  | k, row :: rows => by
    rw [edgesFrom, List.filter_append]
    cases s with
    | zero =>
      have hrest : (edgesFrom (k + 1) rows).filter (·.source == k + 0) = [] := by
        refine List.filter_eq_nil_iff.2 fun e he hs => ?_
        have hk := source_of_mem_edgesFrom he
        have hs := beq_iff_eq.1 hs
        omega
      rw [hrest, List.append_nil]
      refine List.filter_eq_self.2 fun e he => ?_
      obtain ⟨t, -, rfl⟩ := List.mem_map.1 he
      simp
    | succ s =>
      have hfirst : (row.map fun t => (⟨k, t.1, Weight.ofRaw t.2.toNat⟩ : Edge)).filter (·.source == k + (s + 1)) = [] := by
        refine List.filter_eq_nil_iff.2 fun e he hs => ?_
        obtain ⟨t, -, rfl⟩ := List.mem_map.1 he
        have hs : k = k + (s + 1) := beq_iff_eq.1 hs
        omega
      have hk : k + (s + 1) = k + 1 + s := by omega
      rw [hfirst, List.nil_append, hk, filter_edgesFrom s (k + 1) rows]
      rfl

theorem map_some_filterMap {α β : Type} (f : α → Option β) : ∀ (l : List α), (∀ a ∈ l, (f a).isSome) →
    (l.filterMap f).map some = l.map f
  | [], _ => rfl
  | a :: l, h => by
    obtain ⟨b, hb⟩ := Option.isSome_iff_exists.1 (h a List.mem_cons_self)
    rw [List.filterMap_cons_some hb, List.map_cons, List.map_cons, hb,
      map_some_filterMap f l fun x hx => h x (List.mem_cons_of_mem _ hx)]

/-! ## Resolution -/

section Resolve

variable (order : Order) (importScore : UInt32) (maxScanBytes : Option Nat) (files : List Referrer)

theorem resolveIn_eq : resolveIn order importScore maxScanBytes files =
    { edges := edgesFrom 0 (rows order importScore maxScanBytes files)
      dependencies := (rows order importScore maxScanBytes files).map fun row =>
        row.filterMap fun t => files[t.1]?.map (·.filepath) } :=
  rfl

theorem pairwise_before_edges : (resolveIn order importScore maxScanBytes files).edges.Pairwise Edge.Before := by
  refine pairwise_edgesFrom 0 _ fun row hrow => ?_
  obtain ⟨s, hs⟩ := List.getElem?_of_mem hrow
  exact (row_of_getElem?_rows order importScore maxScanBytes files hs).sorted

/-- **An edge of resolution joins two different files.** -/
theorem ends_of_mem_edges {e : Edge} (h : e ∈ (resolveIn order importScore maxScanBytes files).edges) :
    e.source < files.length ∧ e.target < files.length ∧ e.source ≠ e.target := by
  rw [resolveIn_eq] at h
  obtain ⟨s, row, n, hrow, hs, ht, -⟩ := (mem_edgesFrom 0 _).1 h
  have hr := row_of_getElem?_rows order importScore maxScanBytes files hrow
  obtain ⟨hlt, -⟩ := List.getElem?_eq_some_iff.1 hrow
  rw [length_rows] at hlt
  exact ⟨by omega, hr.inRange _ ht, fun he => hr.others _ ht (by simp only; omega)⟩

theorem length_dependencies :
    (resolveIn order importScore maxScanBytes files).dependencies.length = files.length := by
  simp [resolveIn_eq, length_rows]

/-- **The paths that a file depends on are those of the targets of its edges**, in the order of the edges. -/
theorem dependencies_eq_targets {s : Nat} (hs : s < files.length) :
    ∃ paths, (resolveIn order importScore maxScanBytes files).dependencies[s]? = some paths ∧
      paths.map some =
        ((resolveIn order importScore maxScanBytes files).edges.filter (·.source == s)).map fun e =>
          files[e.target]?.map (·.filepath) := by
  obtain ⟨row, hrow⟩ : ∃ row, (rows order importScore maxScanBytes files)[s]? = some row :=
    ⟨_, List.getElem?_eq_getElem (by rwa [length_rows])⟩
  have hr := row_of_getElem?_rows order importScore maxScanBytes files hrow
  have hfilter := filter_edgesFrom s 0 (rows order importScore maxScanBytes files)
  rw [Nat.zero_add, hrow, Option.getD_some] at hfilter
  refine ⟨row.filterMap fun t => files[t.1]?.map (·.filepath), ?_, ?_⟩
  · simp [resolveIn_eq, hrow]
  · rw [resolveIn_eq, hfilter, List.map_map, map_some_filterMap]
    · rfl
    · intro t ht
      simp [hr.inRange t ht]

end Resolve

end Resolution

end FileGraph
