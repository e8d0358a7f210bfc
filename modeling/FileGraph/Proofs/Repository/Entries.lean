import FileGraph.Proofs.Cache.Lookup
import FileGraph.Repository
/-!
# Entries — the analyses of a list of files

Each file gets one analysis, in order.  What one file does to the cache is looked at once (`analyzeEntry_of_holds`);
whatever it keeps holds after all files (`analyzeEntries_eq_map`).  So a cache that is right about the files gives each
of them the analysis of its own language and content (`analyzeEntries_of_holds`).
-/
namespace FileGraph.Repository

open Source Archive Cache

/-- What the analysis of an entry depends on. -/
def subjectOf (e : Entry) : Subject := (Language.ofPath e.path, e.content)

/-- The analysis that belongs to a file under limits. -/
def analysisOf (limits : Limits) (f : Subject) : Analysis := analyzeFile limits f.1 f.2

theorem analyzeEntry_hit {limits : Limits} {c : Cache} {s : Storage} {e : Entry} {a : Analysis}
    (h : (c.get s (keyOf (subjectOf e))).1 = some a) :
    analyzeEntry limits c s e = (a, (c.get s (keyOf (subjectOf e))).2, s) := by
  change (c.get s (Cache.key (Language.ofPath e.path) e.content)).1 = some a at h
  rw [analyzeEntry]
  simp only
  split
  · rename_i a' c' hget
    rw [hget] at h
    cases h
    change _ = (a, (c.get s (Cache.key (Language.ofPath e.path) e.content)).2, s)
    rw [hget]
  · rename_i c' hget
    rw [hget] at h
    cases h

theorem analyzeEntry_miss {limits : Limits} {c : Cache} {s : Storage} {e : Entry}
    (h : (c.get s (keyOf (subjectOf e))).1 = none) :
    analyzeEntry limits c s e =
      (analysisOf limits (subjectOf e),
        ((c.get s (keyOf (subjectOf e))).2.store s (keyOf (subjectOf e)) (analysisOf limits (subjectOf e))).1,
        ((c.get s (keyOf (subjectOf e))).2.store s (keyOf (subjectOf e)) (analysisOf limits (subjectOf e))).2.1) := by
  change (c.get s (Cache.key (Language.ofPath e.path) e.content)).1 = none at h
  rw [analyzeEntry]
  simp only
  split
  · rename_i a' c' hget
    rw [hget] at h
    cases h
  · rename_i c' hget
    have hc : c' = (c.get s (keyOf (subjectOf e))).2 := by
      change _ = (c.get s (Cache.key (Language.ofPath e.path) e.content)).2
      rw [hget]
    rw [hc]
    rfl

theorem folder_analyzeEntry (limits : Limits) (c : Cache) (s : Storage) (e : Entry) :
    (analyzeEntry limits c s e).2.1.folder = c.folder := by
  cases h : (c.get s (keyOf (subjectOf e))).1 with
  | some a => rw [analyzeEntry_hit h]; exact folder_get c s _
  | none => rw [analyzeEntry_miss h]; exact (folder_store _ s _ _).trans (folder_get c s _)

/-- **One file**: if the cache is right, and what would be found out now is what belongs to the file, then the file
gets what belongs to it and the cache stays right. -/
theorem analyzeEntry_of_holds {limits : Limits} {belongs : Subject → Analysis} {fs : List Subject} {c : Cache}
    {s : Storage} {e : Entry} (hapart : Apart fs) (hf : subjectOf e ∈ fs) (h : Holds belongs fs c s)
    (hmiss : (c.get s (keyOf (subjectOf e))).1 = none → analysisOf limits (subjectOf e) = belongs (subjectOf e))
    (hcodec : c.folder = none ∨ decode (encode (belongs (subjectOf e))) = some (belongs (subjectOf e))) :
    (analyzeEntry limits c s e).1 = belongs (subjectOf e) ∧
      Holds belongs fs (analyzeEntry limits c s e).2.1 (analyzeEntry limits c s e).2.2 := by
  cases hget : (c.get s (keyOf (subjectOf e))).1 with
  | some a =>
    rw [analyzeEntry_hit hget]
    exact ⟨h.get_eq hf hget, h.get hapart hf⟩
  | none =>
    rw [analyzeEntry_miss hget, hmiss hget]
    refine ⟨rfl, (h.get hapart hf).store hapart hf ?_⟩
    rw [folder_get]
    exact hcodec

theorem analyzeEntries_cons (limits : Limits) (c : Cache) (s : Storage) (e : Entry) (es : List Entry) :
    analyzeEntries limits c s (e :: es) =
      ((analyzeEntry limits c s e).1 ::
          (analyzeEntries limits (analyzeEntry limits c s e).2.1 (analyzeEntry limits c s e).2.2 es).1,
        (analyzeEntries limits (analyzeEntry limits c s e).2.1 (analyzeEntry limits c s e).2.2 es).2) := rfl

theorem folder_analyzeEntries (limits : Limits) : ∀ (es : List Entry) (c : Cache) (s : Storage),
    (analyzeEntries limits c s es).2.1.folder = c.folder
  | [], _, _ => rfl
  | e :: es, c, s => by
    rw [analyzeEntries_cons]
    exact (folder_analyzeEntries limits es _ _).trans (folder_analyzeEntry limits c s e)

/-- If one file gets what belongs to it and adds itself to those that are done, then all files do. -/
theorem analyzeEntries_eq_map {limits : Limits} {belongs : Subject → Analysis}
    {keeps : List Subject → Cache → Storage → Prop} :
    ∀ (es : List Entry) (done : List Subject) (c : Cache) (s : Storage),
      (∀ e ∈ es, ∀ done c s, keeps done c s → (analyzeEntry limits c s e).1 = belongs (subjectOf e) ∧
        keeps (subjectOf e :: done) (analyzeEntry limits c s e).2.1 (analyzeEntry limits c s e).2.2) →
      keeps done c s →
      (analyzeEntries limits c s es).1 = es.map (fun e => belongs (subjectOf e)) ∧
        keeps ((es.map subjectOf).reverse ++ done) (analyzeEntries limits c s es).2.1 (analyzeEntries limits c s es).2.2
  | [], _, _, _, _, h => ⟨rfl, h⟩
  | e :: es, done, c, s, hstep, h => by
    obtain ⟨hone, hkeeps⟩ := hstep e List.mem_cons_self done c s h
    obtain ⟨hrest, hkeeps⟩ := analyzeEntries_eq_map es _ _ _ (fun e he => hstep e (List.mem_cons_of_mem _ he)) hkeeps
    rw [analyzeEntries_cons, List.map_cons, List.map_cons, List.reverse_cons, List.append_assoc, List.singleton_append]
    refine ⟨?_, hkeeps⟩
    simp only
    rw [hone, hrest]

theorem length_analyzeEntries (limits : Limits) : ∀ (es : List Entry) (c : Cache) (s : Storage),
    (analyzeEntries limits c s es).1.length = es.length
  | [], _, _ => rfl
  | e :: es, c, s => by
    rw [analyzeEntries_cons, List.length_cons, length_analyzeEntries limits es, List.length_cons]

theorem analyze_eq (settings : Settings) (c : Cache) (s : Storage) (epoch : Epoch) (data : ByteArray)
    (root : Option String) :
    analyze settings c s epoch data root = (load settings data root).map (analyzeFiles settings c s epoch) := by
  rw [analyze, load]
  cases rawFiles data with
  | error f => rfl
  | ok files =>
    simp only [analyzeRaw]
    cases entriesOf settings root files <;> rfl

theorem zip_map_self {α β : Type} (g : α → β) : ∀ (xs : List α), xs.zip (xs.map g) = xs.map fun x => (x, g x)
  | [] => rfl
  | x :: xs => by rw [List.map_cons, List.zip_cons_cons, zip_map_self g xs, List.map_cons]

/-- **Through a cache that is right about the files each gets the analysis of its own language and content.** -/
theorem analyzeEntries_of_holds {limits : Limits} {fs : List Subject} {c : Cache} {s : Storage} {es : List Entry}
    (hapart : Apart fs) (hmem : ∀ e ∈ es, subjectOf e ∈ fs) (h : Holds (analysisOf limits) fs c s)
    (hcodec : c.folder = none ∨ ∀ f ∈ fs, decode (encode (analysisOf limits f)) = some (analysisOf limits f)) :
    (analyzeEntries limits c s es).1 = es.map fun e => analysisOf limits (subjectOf e) := by
  have hstep : ∀ e ∈ es, ∀ (_ : List Subject) c' s',
      (Holds (analysisOf limits) fs c' s' ∧ c'.folder = c.folder) →
      (analyzeEntry limits c' s' e).1 = analysisOf limits (subjectOf e) ∧
        Holds (analysisOf limits) fs (analyzeEntry limits c' s' e).2.1 (analyzeEntry limits c' s' e).2.2 ∧
        (analyzeEntry limits c' s' e).2.1.folder = c.folder := by
    rintro e he _ c' s' ⟨h, hfolder⟩
    have hread : c'.folder = none ∨ decode (encode (analysisOf limits (subjectOf e))) =
        some (analysisOf limits (subjectOf e)) := by
      rw [hfolder]
      exact hcodec.imp id fun hall => hall _ (hmem e he)
    obtain ⟨hone, hholds⟩ := analyzeEntry_of_holds hapart (hmem e he) h (fun _ => rfl) hread
    exact ⟨hone, hholds, (folder_analyzeEntry limits c' s' e).trans hfolder⟩
  exact (analyzeEntries_eq_map es [] c s hstep ⟨h, rfl⟩).1

/-- **With a new cache each file gets the analysis of its own language and content.** -/
theorem analyzeEntries_inMemory (limits : Limits) (s : Storage) {es : List Entry} (hapart : Apart (es.map subjectOf)) :
    (analyzeEntries limits .inMemory s es).1 = es.map fun e => analysisOf limits (subjectOf e) := by
  refine analyzeEntries_of_holds hapart (fun e he => List.mem_map.2 ⟨e, he, rfl⟩) ⟨?_, ?_⟩ (.inl rfl)
  · intro f _ a h
    cases h
  · intro f _ a h
    cases h

end FileGraph.Repository
