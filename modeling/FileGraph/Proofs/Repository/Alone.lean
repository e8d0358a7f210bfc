import FileGraph.Proofs.Cache.Codec
import FileGraph.Proofs.Cache.Message
import FileGraph.Proofs.Repository.Assembly
/-!
# Alone — the graph of files that each have their own analysis

Through a cache in which nothing is kept yet (`Unused`) an archive gives the graph in which each file has the analysis
of its own language and content (`analyzeRaw_unused`).  `graphOf` is that graph without any cache.
-/
namespace FileGraph.Repository

open Source Archive Cache

/-- The files of a list that are analysed. -/
def subjectsOf (settings : Settings) (root : Option String) (files : List RawFile) : List Subject :=
  match entriesOf settings root files with
  | .ok es => es.map subjectOf
  | .error _ => []

/-- The graph of files that each have the analysis of their own language and content. -/
def graphOf (settings : Settings) (epoch : Epoch) (es : List Entry) : Graph :=
  assemble settings epoch (es.map fun e => (e, analysisOf settings.limits (subjectOf e)))

def referrerOf (settings : Settings) (e : Entry) : Referrer :=
  ⟨e.path, e.content, (analysisOf settings.limits (subjectOf e)).imports⟩

/-- What resolution finds between such files. -/
def resolutionOf (settings : Settings) (es : List Entry) : Resolution :=
  Resolution.resolve settings.importScore settings.maxScanBytes (es.map (referrerOf settings))

theorem resolution_analysisOf (settings : Settings) (es : List Entry) :
    resolution settings (es.map fun e => (e, analysisOf settings.limits (subjectOf e))) = resolutionOf settings es := by
  rw [resolution, referrers, List.map_map]
  rfl

/-- That no sum takes more than 32 bits that resolution makes for the file at a position. -/
def SumsFitAt (settings : Settings) (es : List Entry) (i : Nat) : Prop :=
  ∀ e, es[i]? = some e → Resolution.RowFits settings.importScore settings.maxScanBytes
    (es.map fun e => Path.stem e.path) i (referrerOf settings e)

/-- A build that checks its sums does not stop where they fit, and finds the same. -/
theorem resolveBy_checked_of_sumsFitAt {settings : Settings} {es : List Entry} (h : ∀ i, SumsFitAt settings es i) :
    Resolution.resolveBy Resolution.checked .asListed settings.importScore settings.maxScanBytes
      (es.map (referrerOf settings)) = some (resolutionOf settings es) := by
  refine Resolution.resolveBy_eq_pure Resolution.exact_checked .asListed fun i f hf => ?_
  rw [List.getElem?_map] at hf
  obtain ⟨e, he, rfl⟩ := Option.map_eq_some_iff.1 hf
  rw [List.map_map]
  exact h i e he

/-- A cache in which nothing is kept yet, with a folder, if it has one, that can keep the analyses of files. -/
structure Unused (limits : Limits) (fs : List Subject) (c : Cache) (s : Storage) : Prop where
  memory : c.memory = .empty
  folder : ∀ key, kept? c.folder s key = none
  fits   : c.folder = none ∨ ∀ f ∈ fs, Fits (analysisOf limits f)

theorem unused_inMemory (limits : Limits) (fs : List Subject) (s : Storage) : Unused limits fs .inMemory s :=
  ⟨rfl, fun _ => rfl, .inl rfl⟩

theorem Unused.mono {limits : Limits} {fs fs' : List Subject} {c : Cache} {s : Storage} (h : Unused limits fs c s)
    (hsub : ∀ f ∈ fs', f ∈ fs) : Unused limits fs' c s :=
  ⟨h.memory, h.folder, h.fits.imp id fun hfits f hf => hfits f (hsub f hf)⟩

theorem Unused.holds {limits : Limits} {fs : List Subject} {c : Cache} {s : Storage} (h : Unused limits fs c s) :
    Holds (analysisOf limits) fs c s where
  memory f _ a ha := by
    rw [h.memory] at ha
    cases ha
  folder f _ a ha := by
    rw [h.folder] at ha
    cases ha

/-- **An unused cache does not show.** -/
theorem analyzeRaw_unused {settings : Settings} {files : List RawFile} {root : Option String} {c : Cache} {s : Storage}
    (hdigest : Uncollided (subjectsOf settings root files))
    (h : Unused settings.limits (subjectsOf settings root files) c s) (epoch : Epoch) :
    (analyzeRaw settings c s epoch files root).map (·.1) =
      (entriesOf settings root files).map (graphOf settings epoch) := by
  rw [analyzeRaw]
  cases hentries : entriesOf settings root files with
  | error f => rfl
  | ok es =>
    have hsubjects : subjectsOf settings root files = es.map subjectOf := by rw [subjectsOf, hentries]
    rw [hsubjects] at hdigest h
    have hcodec : c.folder = none ∨ ∀ f ∈ es.map subjectOf,
        decode (encode (analysisOf settings.limits f)) = some (analysisOf settings.limits f) :=
      h.fits.imp id fun hfits f hf => decode_encode_self (hfits f hf)
    have hanalyses := analyzeEntries_of_holds (Apart.of_uncollided hdigest) (fun e he => List.mem_map.2 ⟨e, he, rfl⟩)
      h.holds hcodec
    simp only [Except.map, analyzeFiles, hanalyses, zip_map_self, graphOf]

section GraphOf

variable (settings : Settings) (epoch : Epoch) {es : List Entry} (hnodup : (es.map (·.path)).Nodup)

include hnodup

theorem graphOf_eq : graphOf settings epoch es =
    ⟨[defaultCategory], nodesOf (es.map fun e => (e, analysisOf settings.limits (subjectOf e))) (resolutionOf settings es),
      (resolutionOf settings es).edges.filter fun e => decide (0.0 < e.weight), epoch⟩ := by
  have hpaths : (es.map fun e => (e, analysisOf settings.limits (subjectOf e))).map (·.1.path) = es.map (·.path) := by
    rw [List.map_map]
    rfl
  rw [graphOf, assemble_eq settings epoch _ (by rw [hpaths]; exact hnodup), resolution_analysisOf]

theorem edges_graphOf : (graphOf settings epoch es).edges =
    (resolutionOf settings es).edges.filter fun e => decide (0.0 < e.weight) := by
  rw [graphOf_eq settings epoch hnodup]

theorem filepaths_graphOf : (graphOf settings epoch es).filepaths = es.map (·.path) := by
  have hdeps : (resolutionOf settings es).dependencies.length =
      (es.map fun e => (e, analysisOf settings.limits (subjectOf e))).length := by
    rw [← resolution_analysisOf]
    exact length_dependencies settings _
  rw [graphOf_eq settings epoch hnodup, Graph.filepaths, map_filepath_nodesOf _ hdeps, List.map_map]
  rfl

/-- The node of a file: its own counts and functions, and the paths of the targets of the edges from it. -/
theorem getElem?_nodes_graphOf {i : Nat} {e : Entry} (he : es[i]? = some e) :
    ∃ paths, (graphOf settings epoch es).nodes[i]? =
        some (nodeOf e (analysisOf settings.limits (subjectOf e)) paths) ∧
      paths.map some = ((resolutionOf settings es).edges.filter (·.source == i)).map
        fun d => (es.map (·.path))[d.target]? := by
  have ha : (es.map fun e => analysisOf settings.limits (subjectOf e))[i]? =
      some (analysisOf settings.limits (subjectOf e)) := by
    rw [List.getElem?_map, he, Option.map_some]
  obtain ⟨paths, hn, hpaths⟩ := getElem?_nodes_assemble settings epoch (List.length_map _) hnodup he ha
  rw [zip_map_self] at hn hpaths
  refine ⟨paths, hn, ?_⟩
  simp only [List.getElem?_map]
  rw [hpaths, resolution_analysisOf]

end GraphOf

end FileGraph.Repository
