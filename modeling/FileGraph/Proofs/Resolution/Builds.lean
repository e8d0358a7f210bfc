import FileGraph.Proofs.Resolution.References
/-!
# Builds — where sums fit, it does not show how they are added

A build says what becomes of a sum that takes more than 32 bits.  As long as no count and no score does (`Fits`), every
build that can add at all gives what a build gives whose sums wrap (`resolveBy_eq_pure`).  One that checks its sums
either gives the same or stops (`resolveIn_of_checked`), and where all sums fit it does not stop.
-/
namespace FileGraph.Resolution

open Text

/-! ## What fits -/

/-- That no sum takes more than 32 bits that is made for the row of a file: not how often a word occurs in it, and not
how strongly it refers to the stem of another file. -/
structure RowFits (importScore : UInt32) (maxScanBytes : Option Nat) (stems : List String) (source : Nat)
    (f : Referrer) : Prop where
  counts : ∀ word, (words (scanned maxScanBytes f.content)).count word < UInt32.size
  scores : ∀ t stem, stems[t]? = some stem → t ≠ source → reference importScore maxScanBytes f stem < UInt32.size

/-- That no sum takes more than 32 bits that is made for the rows of files. -/
def Fits (importScore : UInt32) (maxScanBytes : Option Nat) (files : List Referrer) : Prop :=
  ∀ s f, files[s]? = some f → RowFits importScore maxScanBytes (files.map fun f => Path.stem f.filepath) s f

theorem Fits.reference_lt {importScore : UInt32} {maxScanBytes : Option Nat} {files : List Referrer}
    (h : Fits importScore maxScanBytes files) {s t : Nat} {f g : Referrer} (hf : files[s]? = some f)
    (hg : files[t]? = some g) (hne : t ≠ s) :
    reference importScore maxScanBytes f (Path.stem g.filepath) < UInt32.size :=
  (h s f hf).scores t _ (by rw [List.getElem?_map, hg, Option.map_some]) hne

/-- **Where sums fit, a row holds the references themselves**, those that are not zero. -/
theorem mem_rowOf_of_fits (order : Order) {importScore : UInt32} {maxScanBytes : Option Nat} {files : List Referrer}
    (h : Fits importScore maxScanBytes files) {s t : Nat} {f g : Referrer} (hf : files[s]? = some f)
    (hg : files[t]? = some g) (hne : t ≠ s) {n : UInt32} :
    (t, n) ∈ rowOf order importScore maxScanBytes files s f ↔
      n ≠ 0 ∧ n.toNat = reference importScore maxScanBytes f (Path.stem g.filepath) := by
  have hlt := h.reference_lt hf hg hne
  have htoNat := UInt32.toNat_ofNat_of_lt' hlt
  rw [mem_rowOf]
  constructor
  · rintro ⟨-, g', hg', hrefers, rfl⟩
    obtain rfl := Option.some.inj (hg.symm.trans hg')
    have hpos := (refers_iff hlt).1 hrefers
    rw [ne_eq, ← UInt32.toNat_inj, htoNat]
    exact ⟨Nat.ne_of_gt hpos, rfl⟩
  · rintro ⟨hn, heq⟩
    have hpos : n.toNat ≠ 0 := fun hzero => hn (UInt32.toNat_inj.1 hzero)
    refine ⟨hne, g, hg, (refers_iff hlt).2 (by omega), UInt32.toNat_inj.1 (heq.trans htoNat.symm)⟩

/-- Sums fit if no file has too many words and none refers too strongly to any stem. -/
theorem fits_of_forall {importScore : UInt32} {maxScanBytes : Option Nat} {files : List Referrer}
    (hwords : ∀ f ∈ files, (words (scanned maxScanBytes f.content)).length < UInt32.size)
    (hscores : ∀ f ∈ files, ∀ g ∈ files, reference importScore maxScanBytes f (Path.stem g.filepath) < UInt32.size) :
    Fits importScore maxScanBytes files := by
  intro s f hf
  have hmem := List.mem_of_getElem? hf
  refine ⟨fun word => Nat.lt_of_le_of_lt List.count_le_length (hwords f hmem), fun t stem hat _ => ?_⟩
  rw [List.getElem?_map] at hat
  obtain ⟨g, hg, rfl⟩ := Option.map_eq_some_iff.1 hat
  exact hscores f hmem g (List.mem_of_getElem? hg)

/-! ## Sums that fit -/

section Exact

variable {m : Type → Type} [Monad m]

/-- That a build adds what it can: a sum that takes no more than 32 bits. -/
def Exact (add : Adder m) : Prop := ∀ a b, a.toNat + b.toNat < UInt32.size → add a b = pure (a + b)

theorem exact_checked : Exact checked := fun _ _ h => if_pos h

variable [LawfulMonad m] {σ α β : Type}

/-- A fold is a plain one if every step of it is, at the state before it. -/
theorem foldlM_eq_pure {f : σ → α → m σ} {g : σ → α → Id σ} : ∀ (xs : List α) (s : σ),
    (∀ before x after, xs = before ++ x :: after →
      f (before.foldlM g s).run x = pure (g (before.foldlM g s).run x).run) →
      xs.foldlM f s = pure (xs.foldlM g s).run
  | [], s, _ => rfl
  | x :: xs, s, h => by
    have hstep : f s x = pure (g s x).run := h [] x xs rfl
    rw [List.foldlM_cons, hstep, pure_bind]
    exact foldlM_eq_pure xs (g s x).run fun before y after hxs => h (x :: before) y after (by rw [hxs]; rfl)

theorem mapM_eq_pure {f : α → m β} {g : α → β} : ∀ (xs : List α), (∀ x ∈ xs, f x = pure (g x)) →
    xs.mapM f = pure (xs.map g)
  | [], _ => by simp
  | x :: xs, h => by
    rw [List.mapM_cons, h x List.mem_cons_self, mapM_eq_pure xs fun y hy => h y (List.mem_cons_of_mem _ hy), pure_bind,
      pure_bind, List.map_cons]

variable {add : Adder m} (hadd : Exact add)

include hadd

theorem countWords_eq_pure {text : List Char} (h : ∀ word, (words text).count word < UInt32.size) :
    countWords add text = pure (countWords wrapping text).run := by
  refine foldlM_eq_pure _ _ fun before w after hws => ?_
  have hcount : before.count w + 1 < UInt32.size := by
    refine Nat.lt_of_le_of_lt ?_ (h w)
    rw [hws, List.count_append, List.count_cons_self]
    omega
  have hold : ((before.foldlM (countWord wrapping) {}).run.getD (.ofList w) 0).toNat = before.count w := by
    rw [getD_foldlM_countWord, String.toList_ofList]
    simp only [Std.HashMap.getD_empty, UInt32.zero_add]
    exact Nat.mod_eq_of_lt (Nat.lt_of_succ_lt hcount)
  have hone : ((before.foldlM (countWord wrapping) {}).run.getD (.ofList w) 0).toNat + (1 : UInt32).toNat <
      UInt32.size := by
    rw [hold]
    exact hcount
  rw [countWord, hadd _ _ hone, pure_bind]
  rfl

theorem foldlM_addTo_eq_pure (as : List (Nat × UInt32)) (h : ∀ a ∈ as, total a.1 as < UInt32.size) :
    as.foldlM (addTo add) {} = pure (as.foldlM (addTo wrapping) ({} : Scores)).run := by
  refine foldlM_eq_pure _ _ fun before a after has => ?_
  have htotal : total a.1 before + a.2.toNat < UInt32.size := by
    refine Nat.lt_of_le_of_lt ?_ (h a (by simp [has]))
    rw [has, total_append, total_cons, if_pos rfl]
    omega
  have hold : ((before.foldlM (addTo wrapping) ({} : Scores)).run.getD a.1 0).toNat = total a.1 before := by
    rw [getD_foldlM_addTo]
    exact Nat.mod_eq_of_lt (Nat.lt_of_le_of_lt (Nat.le_add_right _ _) htotal)
  have hsum : ((before.foldlM (addTo wrapping) ({} : Scores)).run.getD a.1 0).toNat + a.2.toNat < UInt32.size := by
    rw [hold]
    exact htotal
  rw [addTo, hadd _ _ hsum, pure_bind]
  rfl

theorem row_eq_pure {order : Order} {importScore : UInt32} {maxScanBytes : Option Nat} {stems : List String}
    {source : Nat} {f : Referrer} (h : RowFits importScore maxScanBytes stems source f) :
    let index := indexFrom 0 stems {}
    row add order importScore maxScanBytes index (order.stems (irregularStems index)) source f =
      pure (row wrapping order importScore maxScanBytes index (order.stems (irregularStems index)) source f).run := by
  intro index
  have hreferences : references add importScore (order.stems (irregularStems index)) (order.words source) f.imports
      (scanned maxScanBytes f.content) = pure (referencesOf order importScore maxScanBytes stems source f) := by
    rw [references, countWords_eq_pure hadd h.counts, pure_bind]
    rfl
  have hscores := foldlM_addTo_eq_pure hadd
    (additions index source (referencesOf order importScore maxScanBytes stems source f)) ?_
  · rw [row, hreferences, pure_bind, hscores, pure_bind]
    rfl
  · intro a ha
    obtain ⟨hother, stem, hat, hne, -⟩ := mem_additions.1 (List.mem_map.2 ⟨a, ha, rfl⟩)
    rw [total_additions hat hne hother]
    exact Nat.lt_of_le_of_lt (total_referencesOf_le order importScore maxScanBytes source f hat hne)
      (h.scores a.1 stem hat hother)

/-- **Where sums fit, every build resolves files in the same way.** -/
theorem resolveBy_eq_pure (order : Order) {importScore : UInt32} {maxScanBytes : Option Nat} {files : List Referrer}
    (h : Fits importScore maxScanBytes files) :
    resolveBy add order importScore maxScanBytes files = pure (resolveIn order importScore maxScanBytes files) := by
  have hrows : rowsBy add order importScore maxScanBytes files = pure (rows order importScore maxScanBytes files) := by
    rw [rows_eq_map]
    refine mapM_eq_pure _ fun x hx => row_eq_pure hadd (h x.2 x.1 ?_)
    exact List.mem_zipIdx_iff_getElem?.1 hx
  rw [resolveBy, hrows, pure_bind]
  rfl

end Exact

/-! ## Sums that do not fit -/

section Checked

variable {σ α β : Type}

theorem eq_add_of_checked {a b c : UInt32} (h : checked a b = some c) : c = a + b := by
  unfold checked at h
  split at h
  · exact (Option.some.inj h).symm
  · cases h

theorem foldlM_of_some {f : σ → α → Option σ} {g : σ → α → Id σ} (h : ∀ s x s', f s x = some s' → s' = (g s x).run) :
    ∀ (xs : List α) {s s' : σ}, xs.foldlM f s = some s' → s' = (xs.foldlM g s).run
  | [], s, s', hs => (Option.some.inj hs).symm
  | x :: xs, s, s', hs => by
    rw [List.foldlM_cons] at hs
    obtain ⟨next, hnext, hrest⟩ := Option.bind_eq_some_iff.1 hs
    obtain rfl := h s x next hnext
    exact foldlM_of_some h xs hrest

theorem mapM_of_some {f : α → Option β} {g : α → β} (h : ∀ x y, f x = some y → y = g x) :
    ∀ (xs : List α) {ys : List β}, xs.mapM f = some ys → ys = xs.map g
  | [], ys, hys => by simpa using hys.symm
  | x :: xs, ys, hys => by
    rw [List.mapM_cons] at hys
    obtain ⟨y, hy, hrest⟩ := Option.bind_eq_some_iff.1 hys
    obtain ⟨zs, hzs, hcons⟩ := Option.bind_eq_some_iff.1 hrest
    rw [← Option.some.inj hcons, h x y hy, mapM_of_some h xs hzs, List.map_cons]

theorem countWords_of_checked {text : List Char} {counts : Std.HashMap String UInt32}
    (h : countWords checked text = some counts) : counts = (countWords wrapping text).run := by
  refine foldlM_of_some (fun counts w counts' hstep => ?_) _ h
  obtain ⟨n, hn, hinsert⟩ := Option.bind_eq_some_iff.1 hstep
  rw [← Option.some.inj hinsert, eq_add_of_checked hn]
  rfl

theorem row_of_checked {order : Order} {importScore : UInt32} {maxScanBytes : Option Nat} {index : StemIndex}
    {irregular : List String} {source : Nat} {f : Referrer} {r : List (Nat × UInt32)}
    (h : row checked order importScore maxScanBytes index irregular source f = some r) :
    r = (row wrapping order importScore maxScanBytes index irregular source f).run := by
  obtain ⟨rs, hrs, h⟩ := Option.bind_eq_some_iff.1 h
  obtain ⟨counts, hcounts, hreferences⟩ := Option.bind_eq_some_iff.1 hrs
  obtain ⟨scores, hscores, hlist⟩ := Option.bind_eq_some_iff.1 h
  obtain rfl := countWords_of_checked hcounts
  obtain rfl := Option.some.inj hreferences
  have hsum : scores = _ := foldlM_of_some (g := addTo wrapping) (fun scores a scores' hstep => by
    obtain ⟨n, hn, hinsert⟩ := Option.bind_eq_some_iff.1 hstep
    rw [← Option.some.inj hinsert, eq_add_of_checked hn]
    rfl) _ hscores
  rw [← Option.some.inj hlist, hsum]
  rfl

/-- **A build that checks its sums resolves files as one does whose sums wrap, or stops.** -/
theorem resolveIn_of_checked {order : Order} {importScore : UInt32} {maxScanBytes : Option Nat}
    {files : List Referrer} {r : Resolution} (h : resolveBy checked order importScore maxScanBytes files = some r) :
    r = resolveIn order importScore maxScanBytes files := by
  obtain ⟨rows', hrows, hresolution⟩ := Option.bind_eq_some_iff.1 h
  have heq : rows' = rows order importScore maxScanBytes files := by
    rw [rows_eq_map]
    exact mapM_of_some (fun x r hr => row_of_checked hr) _ hrows
  rw [← Option.some.inj hresolution, heq]
  rfl

end Checked

end FileGraph.Resolution
