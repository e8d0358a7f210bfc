import FileGraph.Proofs.Cache.Retention
import FileGraph.Proofs.Repository.Entries
/-!
# Pool — jobs that go through shared caches

Jobs with settings of their own go through caches that share a folder, or through one cache without a folder (`Pool`).
The key of a file says nothing of the limits on blocks, so that a file keeps the analysis of the first job that had it,
whoever asks later (`keeps_run`).
-/
namespace FileGraph.Repository

open Source Archive Cache

/-- Caches that share a folder, if they have one, and the storage. -/
structure Pool where
  folder   : Option String
  memories : Nat → NameMap Analysis
  storage  : Storage

/-- An archive that is analysed, with settings and through one of the caches. -/
structure Job where
  cache    : Nat
  settings : Settings
  epoch    : Epoch
  data     : ByteArray
  root     : Option String

/-- The files of a job, none if it fails. -/
def Job.subjects (j : Job) : List Subject :=
  match load j.settings j.data j.root with
  | .ok entries => entries.map subjectOf
  | .error _ => []

/-- The graph of a job with a new cache of its own. -/
def Job.alone (j : Job) : Except Fault Graph :=
  (analyze j.settings .inMemory .empty j.epoch j.data j.root).map (·.1)

namespace Pool

/-- One of the caches. -/
def cache (p : Pool) (i : Nat) : Cache := ⟨p.memories i, p.folder⟩

/-- The graph of a job, and the caches afterwards. -/
def perform (p : Pool) (j : Job) : Except Fault Graph × Pool :=
  match analyze j.settings (p.cache j.cache) p.storage j.epoch j.data j.root with
  | .ok (g, c, s) =>
    (.ok g, { p with memories := fun i => if i = j.cache then c.memory else p.memories i, storage := s })
  | .error f => (.error f, p)

/-- The caches after jobs, one after another. -/
def run (p : Pool) (js : List Job) : Pool := js.foldl (fun p j => (p.perform j).2) p

/-- Nothing is cached yet, and a folder can take whatever will be. -/
structure Fresh (p : Pool) : Prop where
  memories : ∀ i, p.memories i = .empty
  folder   : ∀ folder, p.folder = some folder → p.storage.files? folder = some .empty ∧ Ready p.storage folder

end Pool

/-- The limits under which a file is analysed first. -/
def firstLimits (js : List Job) (f : Subject) : Option Limits :=
  (js.find? fun j => j.subjects.contains f).map (·.settings.limits)

/-- The analysis that a file keeps. -/
def kept (js : List Job) (f : Subject) : Analysis :=
  match firstLimits js f with
  | some limits => analysisOf limits f
  | none => .empty

theorem firstLimits_eq_some {js : List Job} {f : Subject} (h : ∃ j ∈ js, f ∈ j.subjects) :
    ∃ j ∈ js, f ∈ j.subjects ∧ firstLimits js f = some j.settings.limits := by
  obtain ⟨j, hj, hf⟩ := h
  have hsome : (js.find? fun j => j.subjects.contains f).isSome := by
    rw [List.find?_isSome]
    exact ⟨j, hj, by simpa using hf⟩
  obtain ⟨k, hk⟩ := Option.isSome_iff_exists.1 hsome
  refine ⟨k, List.mem_of_find?_eq_some hk, ?_, by rw [firstLimits, hk, Option.map_some]⟩
  simpa using List.find?_some hk

/-- A file that no job before had is analysed under the limits of the job that has it now. -/
theorem kept_of_new {before after : List Job} {j : Job} {f : Subject} (hnew : ∀ k ∈ before, f ∉ k.subjects)
    (hf : f ∈ j.subjects) : kept (before ++ j :: after) f = analysisOf j.settings.limits f := by
  have hbefore : before.find? (fun j => j.subjects.contains f) = none := by
    rw [List.find?_eq_none]
    intro k hk
    simpa using hnew k hk
  have hj : j.subjects.contains f = true := by simpa using hf
  have hfind : (j :: after).find? (fun j => j.subjects.contains f) = some j := List.find?_cons_of_pos hj
  rw [kept, firstLimits, List.find?_append, hbefore, Option.none_or, hfind, Option.map_some]

/-! ## Jobs -/

/-- One file adds itself to those that are done, and gets what belongs to it. -/
theorem analyzeEntry_keeps {limits : Limits} {belongs : Subject → Analysis} {fs done : List Subject} {c : Cache}
    {s : Storage} {e : Entry} (hapart : Apart fs) (hroom : fs.length < capacity) (hf : subjectOf e ∈ fs)
    (hnew : subjectOf e ∉ done → analysisOf limits (subjectOf e) = belongs (subjectOf e))
    (hfits : Fits (belongs (subjectOf e))) (h : Keeps belongs fs done c s) :
    (analyzeEntry limits c s e).1 = belongs (subjectOf e) ∧
      Keeps belongs fs (subjectOf e :: done) (analyzeEntry limits c s e).2.1 (analyzeEntry limits c s e).2.2 := by
  cases hget : (c.get s (keyOf (subjectOf e))).1 with
  | some a =>
    have hdone : subjectOf e ∈ done := h.found _ hf (by rw [hget]; rfl)
    rw [analyzeEntry_hit hget]
    refine ⟨h.holds.get_eq hf hget, (h.get hapart hf).congr fun f => ?_⟩
    rw [List.mem_cons, or_iff_right_of_imp]
    rintro rfl
    exact hdone
  | none =>
    have hdone : subjectOf e ∉ done := by
      intro hmem
      have hsome := isSome_get_of_retains (h.retains _ hmem)
      rw [hget] at hsome
      cases hsome
    rw [analyzeEntry_miss hget, hnew hdone]
    exact ⟨rfl, (h.get hapart hf).store hapart hf hroom hfits⟩

/-- The files of a job add themselves to those that are done, and get what belongs to them. -/
theorem analyzeEntries_keeps {limits : Limits} {belongs : Subject → Analysis} {fs done : List Subject} {c : Cache}
    {s : Storage} {es : List Entry} (hapart : Apart fs) (hroom : fs.length < capacity)
    (hf : ∀ f ∈ es.map subjectOf, f ∈ fs)
    (hnew : ∀ f ∈ es.map subjectOf, f ∉ done → analysisOf limits f = belongs f)
    (hfits : ∀ f ∈ es.map subjectOf, Fits (belongs f)) (h : Keeps belongs fs done c s) :
    (analyzeEntries limits c s es).1 = es.map (fun e => belongs (subjectOf e)) ∧
      Keeps belongs fs ((es.map subjectOf).reverse ++ done) (analyzeEntries limits c s es).2.1
        (analyzeEntries limits c s es).2.2 := by
  have hstep : ∀ e ∈ es, ∀ done' c s, (∀ f ∈ done, f ∈ done') ∧ Keeps belongs fs done' c s →
      (analyzeEntry limits c s e).1 = belongs (subjectOf e) ∧ (∀ f ∈ done, f ∈ subjectOf e :: done') ∧
        Keeps belongs fs (subjectOf e :: done') (analyzeEntry limits c s e).2.1 (analyzeEntry limits c s e).2.2 := by
    rintro e he done' c s ⟨hsub, h⟩
    have hmem : subjectOf e ∈ es.map subjectOf := List.mem_map.2 ⟨e, he, rfl⟩
    obtain ⟨hone, hkeeps⟩ := analyzeEntry_keeps hapart hroom (hf _ hmem)
      (fun hdone => hnew _ hmem fun hmem => hdone (hsub _ hmem)) (hfits _ hmem) h
    exact ⟨hone, fun f hf => List.mem_cons_of_mem _ (hsub f hf), hkeeps⟩
  obtain ⟨hmap, -, hkeeps⟩ := analyzeEntries_eq_map es done c s hstep ⟨fun _ hf => hf, h⟩
  exact ⟨hmap, hkeeps⟩

/-! ## Pools -/

namespace Pool

/-- Each of the caches that jobs may use keeps what belongs to the files that are done. -/
def Keeps (belongs : Subject → Analysis) (fs done : List Subject) (p : Pool) : Prop :=
  ∀ i, (p.folder = none → i = 0) → Cache.Keeps belongs fs done (p.cache i) p.storage

variable {belongs : Subject → Analysis} {fs done : List Subject} {p : Pool} {j : Job}

theorem Fresh.keeps (h : p.Fresh) : p.Keeps belongs fs [] := by
  intro i _
  have hkept : ∀ f, kept? p.folder p.storage (keyOf f) = none := by
    intro f
    cases hfolder : p.folder with
    | none => rfl
    | some folder => rw [kept?, Option.bind_some, Storage.read?, (h.folder folder hfolder).1]; rfl
  have hmemory : (p.cache i).memory = .empty := h.memories i
  refine ⟨⟨fun f _ a ha => ?_, fun f _ a ha => ?_⟩, fun name hname => ?_, fun f hf => (by cases hf),
    fun f _ hsome => ?_, fun folder hfolder => (h.folder folder hfolder).2⟩
  · rw [hmemory] at ha
    cases ha
  · rw [cache, hkept] at ha
    cases ha
  · rw [hmemory] at hname
    cases hname
  · rw [get_fst, hmemory, cache, hkept] at hsome
    cases hsome

/-- Caches with a new folder. -/
def ofFolder (folder : String) : Pool := ⟨some folder, fun _ => .empty, .ofFolder folder .empty⟩

theorem fresh_ofFolder {folder : String} (h : folder ≠ "") : (ofFolder folder).Fresh where
  memories _ := rfl
  folder folder' h' := by
    cases h'
    exact ⟨by rw [ofFolder, Storage.ofFolder, Storage.files?, NameMap.get?_insert, if_pos rfl], ready_ofFolder h⟩

theorem folder_perform (p : Pool) (j : Job) : (p.perform j).2.folder = p.folder := by
  rw [perform]
  split <;> rfl

theorem perform_of_load {es : List Entry} (h : load j.settings j.data j.root = .ok es) :
    p.perform j =
      (.ok (assemble j.settings j.epoch
          (es.zip (analyzeEntries j.settings.limits (p.cache j.cache) p.storage es).1)),
        { p with
          memories := fun i => if i = j.cache then
            (analyzeEntries j.settings.limits (p.cache j.cache) p.storage es).2.1.memory else p.memories i,
          storage := (analyzeEntries j.settings.limits (p.cache j.cache) p.storage es).2.2 }) := by
  rw [perform, analyze_eq, h]
  rfl

/-- **One job**: it gets the graph in which each file has what belongs to it, and the caches go on keeping that. -/
theorem perform_keeps (hapart : Apart fs) (hroom : fs.length < capacity) (hcache : p.folder = none → j.cache = 0)
    (hf : ∀ f ∈ j.subjects, f ∈ fs) (hnew : ∀ f ∈ j.subjects, f ∉ done → analysisOf j.settings.limits f = belongs f)
    (hfits : ∀ f ∈ j.subjects, Fits (belongs f)) (h : p.Keeps belongs fs done) :
    (p.perform j).1 = (load j.settings j.data j.root).map (fun es =>
        assemble j.settings j.epoch (es.map fun e => (e, belongs (subjectOf e)))) ∧
      (p.perform j).2.Keeps belongs fs (j.subjects.reverse ++ done) := by
  cases hload : load j.settings j.data j.root with
  | error f =>
    have hsubjects : j.subjects = [] := by rw [Job.subjects, hload]
    rw [perform, analyze_eq, hload, hsubjects]
    exact ⟨rfl, h⟩
  | ok es =>
    have hsubjects : j.subjects = es.map subjectOf := by rw [Job.subjects, hload]
    rw [hsubjects] at hf hnew hfits ⊢
    obtain ⟨hmap, hkeeps⟩ := analyzeEntries_keeps hapart hroom hf hnew hfits (h j.cache hcache)
    have hfolder : (analyzeEntries j.settings.limits (p.cache j.cache) p.storage es).2.1.folder = p.folder :=
      folder_analyzeEntries j.settings.limits es (p.cache j.cache) p.storage
    rw [perform_of_load hload, hmap, zip_map_self]
    refine ⟨rfl, fun i hi => ?_⟩
    by_cases hij : i = j.cache
    · simp only [cache, if_pos hij]
      rw [← cache, ← hfolder]
      exact hkeeps
    · -- another cache has its own memory and sees the folder that the job has written
      cases hshared : p.folder with
      | none => exact absurd ((hi hshared).trans (hcache hshared).symm) hij
      | some folder =>
        have hkept := (h i hi).sibling hkeeps hshared (hfolder.trans hshared)
          fun f hf => List.mem_append_right _ hf
        simp only [cache, if_neg hij, hshared] at hkept ⊢
        exact hkept

theorem Keeps.congr {done' : List Subject} (h : p.Keeps belongs fs done) (hdone : ∀ f, f ∈ done' ↔ f ∈ done) :
    p.Keeps belongs fs done' :=
  fun i hi => (h i hi).congr hdone

end Pool

/-- The files of jobs have keys of their own, are few enough to be kept in memory all at once, and their analyses can be
written down. -/
structure Cacheable (fs : List Subject) (js : List Job) : Prop where
  apart : Apart fs
  room  : fs.length < capacity
  mem   : ∀ j ∈ js, ∀ f ∈ j.subjects, f ∈ fs
  fits  : ∀ j ∈ js, ∀ f ∈ j.subjects, Fits (analysisOf j.settings.limits f)

theorem Cacheable.fits_kept {fs : List Subject} {js : List Job} (h : Cacheable fs js) {j : Job} (hj : j ∈ js)
    {f : Subject} (hf : f ∈ j.subjects) : Fits (kept js f) := by
  obtain ⟨k, hk, hfk, hfirst⟩ := firstLimits_eq_some ⟨j, hj, hf⟩
  rw [kept, hfirst]
  exact h.fits k hk f hfk

/-- One of several jobs, with the caches that those before it left. -/
theorem perform_kept {fs : List Subject} {before after : List Job} {j : Job} {p : Pool}
    (h : Cacheable fs (before ++ j :: after)) (hcache : p.folder = none → j.cache = 0)
    (hp : p.Keeps (kept (before ++ j :: after)) fs (before.flatMap Job.subjects)) :
    (p.perform j).1 = (load j.settings j.data j.root).map (fun es =>
        assemble j.settings j.epoch (es.map fun e => (e, kept (before ++ j :: after) (subjectOf e)))) ∧
      (p.perform j).2.Keeps (kept (before ++ j :: after)) fs ((before ++ [j]).flatMap Job.subjects) := by
  have hj : j ∈ before ++ j :: after := List.mem_append_right _ List.mem_cons_self
  have hnew : ∀ f ∈ j.subjects, f ∉ before.flatMap Job.subjects →
      analysisOf j.settings.limits f = kept (before ++ j :: after) f := fun f hf hnew =>
    (kept_of_new (fun k hk hfk => hnew (List.mem_flatMap.2 ⟨k, hk, hfk⟩)) hf).symm
  obtain ⟨hgraph, hkeeps⟩ := Pool.perform_keeps h.apart h.room hcache (h.mem j hj) hnew
    (fun f hf => h.fits_kept hj hf) hp
  refine ⟨hgraph, hkeeps.congr fun f => ?_⟩
  rw [List.flatMap_append, List.mem_append, List.mem_append, List.mem_reverse, List.flatMap_singleton]
  exact Or.comm

/-- **Through all jobs each file keeps the analysis of the first job that had it.** -/
theorem keeps_run {fs : List Subject} {all : List Job} (h : Cacheable fs all) :
    ∀ (js before after : List Job) (p : Pool), all = before ++ (js ++ after) →
      (p.folder = none → ∀ k ∈ js, k.cache = 0) → p.Keeps (kept all) fs (before.flatMap Job.subjects) →
      (p.run js).Keeps (kept all) fs ((before ++ js).flatMap Job.subjects)
  | [], before, _, _, _, _, hp => by
    rw [List.append_nil]
    exact hp
  | j :: js, before, after, p, hall, hcache, hp => by
    subst hall
    rw [List.cons_append] at h hp ⊢
    have hstep := (perform_kept h (fun hnone => hcache hnone j List.mem_cons_self) hp).2
    have hrest := keeps_run h js (before ++ [j]) after (p.perform j).2
      (by rw [List.append_assoc, List.singleton_append])
      (fun hnone k hk => hcache ((Pool.folder_perform p j).symm.trans hnone) k (List.mem_cons_of_mem _ hk)) hstep
    rw [List.append_assoc, List.singleton_append] at hrest
    exact hrest

theorem folder_run : ∀ (js : List Job) (p : Pool), (p.run js).folder = p.folder
  | [], _ => rfl
  | j :: js, p => (folder_run js (p.perform j).2).trans (Pool.folder_perform p j)

end FileGraph.Repository
