import FileGraph.Proofs.Repository.Assembly
import FileGraph.Proofs.Repository.Pool
/-!
# Shared — what caches that are shared give to others

The specifiers of a file do not depend on the limits on blocks, and edges depend on nothing else of an analysis.  So a
job through shared caches gives the same edges as with a cache of its own, and the same nodes exactly if the limits of
the first jobs make no difference to its files (`perform_shared`).
-/
namespace FileGraph.Repository

open Source Archive Cache

/-- The specifiers of a file do not depend on the limits. -/
theorem imports_analysisOf (limits limits' : Limits) (f : Subject) :
    (analysisOf limits f).imports = (analysisOf limits' f).imports := by
  simp only [analysisOf, analyzeFile]
  cases grammar? f.1 with
  | none => rfl
  | some g =>
    simp only [Grammar.analyze]
    by_cases htext : isText f.2.toList
    · simp only [if_pos htext]
    · simp only [if_neg htext]

theorem imports_kept {js : List Job} {j : Job} (hj : j ∈ js) {f : Subject} (hf : f ∈ j.subjects) (limits : Limits) :
    (kept js f).imports = (analysisOf limits f).imports := by
  obtain ⟨k, -, -, hfirst⟩ := firstLimits_eq_some ⟨j, hj, hf⟩
  rw [kept, hfirst]
  exact imports_analysisOf k.settings.limits limits f

/-! ## Graphs -/

theorem analysis_ext {a b : Analysis} (hf : a.functions = b.functions) (hi : a.imports = b.imports) : a = b := by
  cases a
  cases b
  simp only at hf hi
  rw [hf, hi]

/-- Files whose specifiers are the same have the same edges, and the same nodes exactly if their functions are too. -/
theorem assemble_compare (settings : Settings) (epoch : Epoch) {es : List Entry} (hnodup : (es.map (·.path)).Nodup)
    {given own : Entry → Analysis} (himports : ∀ e ∈ es, (given e).imports = (own e).imports) :
    (assemble settings epoch (es.map fun e => (e, given e))).edges =
        (assemble settings epoch (es.map fun e => (e, own e))).edges ∧
      ((assemble settings epoch (es.map fun e => (e, given e))).nodes =
        (assemble settings epoch (es.map fun e => (e, own e))).nodes ↔ ∀ e ∈ es, given e = own e) := by
  have hpath : ∀ g : Entry → Analysis, ((es.map fun e => (e, g e)).map (·.1.path)).Nodup := by
    intro g
    rw [List.map_map]
    exact hnodup
  have hreferrers : referrers (es.map fun e => (e, given e)) = referrers (es.map fun e => (e, own e)) := by
    rw [referrers, referrers, List.map_map, List.map_map]
    refine List.map_congr_left fun e he => ?_
    simp only [Function.comp_apply]
    rw [himports e he]
  have hres : resolution settings (es.map fun e => (e, given e)) =
      resolution settings (es.map fun e => (e, own e)) := by
    rw [resolution, hreferrers, resolution]
  have hdeps := length_dependencies settings (es.map fun e => (e, own e))
  rw [List.length_map] at hdeps
  rw [assemble_eq settings epoch _ (hpath given), assemble_eq settings epoch _ (hpath own), hres]
  refine ⟨rfl, fun hnodes e he => ?_, fun heq => ?_⟩
  · obtain ⟨i, hi⟩ := List.getElem?_of_mem he
    obtain ⟨hlt, -⟩ := List.getElem?_eq_some_iff.1 hi
    have hpaths := List.getElem?_eq_getElem (hdeps.symm ▸ hlt)
    have hfile : ∀ g : Entry → Analysis, (es.map fun e => (e, g e))[i]? = some (e, g e) := by
      intro g
      rw [List.getElem?_map, hi, Option.map_some]
    have hgiven := getElem?_nodesOf _ (hfile given) hpaths
    have hown := getElem?_nodesOf _ (hfile own) hpaths
    simp only at hnodes
    rw [hnodes, hown] at hgiven
    exact analysis_ext (congrArg FileNode.functions (Option.some.inj hgiven)).symm (himports e he)
  · simp only
    rw [List.map_congr_left fun e he => by rw [heq e he]]

theorem nodup_load {settings : Settings} {data : ByteArray} {root : Option String} {es : List Entry}
    (h : load settings data root = .ok es) : (es.map (·.path)).Nodup := by
  obtain ⟨files, -, hentries⟩ := entriesOf_of_load h
  exact nodup_entriesOf hentries

/-- The graph of a job with a cache of its own: each file has the analysis under the limits of the job. -/
theorem alone_eq {fs : List Subject} {j : Job} (hapart : Apart fs) (hf : ∀ f ∈ j.subjects, f ∈ fs) :
    j.alone = (load j.settings j.data j.root).map fun es =>
      assemble j.settings j.epoch (es.map fun e => (e, analysisOf j.settings.limits (subjectOf e))) := by
  cases hload : load j.settings j.data j.root with
  | error f => rw [Job.alone, analyze_eq, hload]; rfl
  | ok es =>
    have hsubjects : j.subjects = es.map subjectOf := by rw [Job.subjects, hload]
    have hown : Apart (es.map subjectOf) := fun f hmem f' hmem' =>
      hapart f (hf f (hsubjects ▸ hmem)) f' (hf f' (hsubjects ▸ hmem'))
    rw [Job.alone, analyze_eq, hload]
    simp only [Except.map, analyzeFiles, analyzeEntries_inMemory j.settings.limits .empty hown, zip_map_self]

/-- **What sharing caches changes.**  After any jobs through fresh caches, one more job fails exactly if it would with a
cache of its own, and in the same way.  Otherwise it has the edges that it would have; but it has the nodes that it
would have exactly if the limits of the first job that had a file make no difference to its analysis, for each of its
files. -/
theorem perform_shared {p : Pool} (hfresh : p.Fresh) {before : List Job} {j : Job} {fs : List Subject}
    (hcache : p.folder = none → ∀ k ∈ before ++ [j], k.cache = 0) (h : Cacheable fs (before ++ [j])) :
    (∀ f, load j.settings j.data j.root = .error f → ((p.run before).perform j).1 = .error f ∧ j.alone = .error f) ∧
      ∀ es, load j.settings j.data j.root = .ok es →
        ∃ g g', ((p.run before).perform j).1 = .ok g ∧ j.alone = .ok g' ∧ g.edges = g'.edges ∧
          (g.nodes = g'.nodes ↔
            ∀ e ∈ es, kept (before ++ [j]) (subjectOf e) = analysisOf j.settings.limits (subjectOf e)) := by
  have hj : j ∈ before ++ [j] := List.mem_append_right _ List.mem_cons_self
  have hrun : (p.run before).Keeps (kept (before ++ [j])) fs (before.flatMap Job.subjects) :=
    keeps_run h before [] [j] p rfl (fun hnone k hk => hcache hnone k (List.mem_append_left _ hk)) hfresh.keeps
  have hshared := (perform_kept h (fun hnone => hcache ((folder_run before p).symm.trans hnone) j hj) hrun).1
  have halone := alone_eq h.apart (h.mem j hj)
  refine ⟨fun f hload => ?_, fun es hload => ?_⟩
  · rw [hload] at hshared halone
    exact ⟨hshared, halone⟩
  · rw [hload] at hshared halone
    have hsubjects : j.subjects = es.map subjectOf := by rw [Job.subjects, hload]
    have himports : ∀ e ∈ es, (kept (before ++ [j]) (subjectOf e)).imports =
        (analysisOf j.settings.limits (subjectOf e)).imports := fun e he =>
      imports_kept hj (hsubjects ▸ List.mem_map.2 ⟨e, he, rfl⟩) j.settings.limits
    obtain ⟨hedges, hnodes⟩ := assemble_compare j.settings j.epoch (nodup_load hload) himports
    exact ⟨_, _, hshared, halone, hedges, hnodes⟩

/-- An archive of one file, `a.js`, with a function whose block is opened on the line below. -/
def sampleArchive : ByteArray := ⟨#[
  0x50, 0x4b, 0x03, 0x04, 0x14, 0x00, 0x00, 0x00, 0x00, 0x00, 0x00, 0x00, 0x21, 0x00, 0xb3, 0xc2, 0x9d, 0xed,
  0x11, 0x00, 0x00, 0x00, 0x11, 0x00, 0x00, 0x00, 0x04, 0x00, 0x00, 0x00, 0x61, 0x2e, 0x6a, 0x73, 0x66, 0x75,
  0x6e, 0x63, 0x74, 0x69, 0x6f, 0x6e, 0x20, 0x66, 0x28, 0x29, 0x0a, 0x7b, 0x0a, 0x7d, 0x0a, 0x50, 0x4b, 0x01,
  0x02, 0x14, 0x03, 0x14, 0x00, 0x00, 0x00, 0x00, 0x00, 0x00, 0x00, 0x21, 0x00, 0xb3, 0xc2, 0x9d, 0xed, 0x11,
  0x00, 0x00, 0x00, 0x11, 0x00, 0x00, 0x00, 0x04, 0x00, 0x00, 0x00, 0x00, 0x00, 0x00, 0x00, 0x00, 0x00, 0x00,
  0x00, 0x80, 0x01, 0x00, 0x00, 0x00, 0x00, 0x61, 0x2e, 0x6a, 0x73, 0x50, 0x4b, 0x05, 0x06, 0x00, 0x00, 0x00,
  0x00, 0x01, 0x00, 0x01, 0x00, 0x32, 0x00, 0x00, 0x00, 0x33, 0x00, 0x00, 0x00, 0x00, 0x00]⟩

def sampleEntry : Entry := ⟨"a.js", "function f()\n\x7b\n\x7d\n"⟩

/-- The analysis of the file if its function is found to have some number of lines. -/
def sampleAnalysis (lineCount : Nat) : Analysis := ⟨.ofList [("f", ⟨1, lineCount⟩)], []⟩

/-- A job that looks for a block on the line of its function only, through the first cache. -/
def narrowJob : Job := ⟨0, { Settings.default with braceLookahead := 0 }, 1, sampleArchive, none⟩

/-- A job on the same archive through the second cache. -/
def usualJob : Job := ⟨1, .default, 2, sampleArchive, none⟩

theorem load_sample {j : Job} (hj : j ∈ [narrowJob, usualJob]) :
    load j.settings j.data j.root = .ok [sampleEntry] := by
  have hraw : rawFiles sampleArchive = .ok [⟨"a.js", sampleEntry.content.toUTF8.data.toList⟩] := by
    have hsome : (rawFiles sampleArchive).toOption = some [⟨"a.js", sampleEntry.content.toUTF8.data.toList⟩] := by
      decide +kernel
    cases hfiles : rawFiles sampleArchive with
    | error f => rw [hfiles] at hsome; cases hsome
    | ok files => rw [hfiles] at hsome; rw [Option.some.inj hsome]
  have hselect : ∀ j ∈ [narrowJob, usualJob],
      select j.settings (rootFor j.root [⟨"a.js", sampleEntry.content.toUTF8.data.toList⟩]) []
        [⟨"a.js", sampleEntry.content.toUTF8.data.toList⟩] = [sampleEntry] := by decide +kernel
  have hdata : j.data = sampleArchive := by
    rcases List.mem_cons.1 hj with rfl | hj
    · rfl
    · rw [List.mem_singleton.1 hj]
      rfl
  rw [load, hdata, hraw]
  simp only [entriesOf, hselect j hj]

theorem perform_shared_sample :
    ∃ g g', (((Pool.ofFolder "cache").run [narrowJob]).perform usualJob).1 = .ok g ∧ usualJob.alone = .ok g' ∧
      g.edges = g'.edges ∧ g.nodes ≠ g'.nodes := by
  have hsubjects : ∀ j ∈ [narrowJob, usualJob], j.subjects = [subjectOf sampleEntry] := by
    intro j hj
    rw [Job.subjects, load_sample hj]
    rfl
  have hnarrow : analysisOf narrowJob.settings.limits (subjectOf sampleEntry) = sampleAnalysis 1 := by decide +kernel
  have husual : analysisOf usualJob.settings.limits (subjectOf sampleEntry) = sampleAnalysis 3 := by decide +kernel
  have hcacheable : Cacheable [subjectOf sampleEntry] ([narrowJob] ++ [usualJob]) := by
    refine ⟨fun f hf f' hf' _ => ?_, by decide, fun j hj f hf => ?_, fun j hj f hf => ?_⟩
    · rw [List.mem_singleton.1 hf, List.mem_singleton.1 hf']
    · rwa [hsubjects j hj] at hf
    · rw [hsubjects j hj] at hf
      rw [List.mem_singleton.1 hf]
      rcases List.mem_cons.1 hj with rfl | hj
      · rw [hnarrow]
        exact ⟨by decide, by decide, by decide, by decide, by decide⟩
      · rw [List.mem_singleton.1 hj, husual]
        exact ⟨by decide, by decide, by decide, by decide, by decide⟩
  have hfresh : (Pool.ofFolder "cache").Fresh := Pool.fresh_ofFolder (by decide)
  obtain ⟨g, g', hg, hg', hedges, hnodes⟩ :=
    (perform_shared hfresh (fun hnone => by cases hnone) hcacheable).2 _
      (load_sample (List.mem_cons_of_mem _ List.mem_cons_self))
  refine ⟨g, g', hg, hg', hedges, fun heq => ?_⟩
  have hfirst : kept ([] ++ narrowJob :: [usualJob]) (subjectOf sampleEntry) =
      analysisOf narrowJob.settings.limits (subjectOf sampleEntry) :=
    kept_of_new (fun k hk => by cases hk) (by rw [hsubjects _ List.mem_cons_self]; exact List.mem_singleton.2 rfl)
  have hkept := hnodes.1 heq sampleEntry List.mem_cons_self
  rw [husual] at hkept
  rw [hnarrow] at hfirst
  have hdiffer : sampleAnalysis 1 ≠ sampleAnalysis 3 := by decide
  exact hdiffer (hfirst.symm.trans hkept)

end FileGraph.Repository
