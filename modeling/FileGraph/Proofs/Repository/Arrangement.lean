import FileGraph.Proofs.Repository.Alone
import FileGraph.Proofs.Resolution.References
/-!
# Arrangement — the order of an archive only arranges its graph

An edge joins positions, and these change with the order of the files.  Said by paths, the edges of a graph are pairs
of files of which one refers to the stem of the other (`links_graphOf`), a file depends on whatever it refers to
(`getElem?_nodes_depending`), and the sums that are made are those for such pairs (`sumsFitAt_iff`); none of these says
anything about order.  So an archive with its files in any order gives the same graph but for the order of nodes, edges
and dependencies (`analyzeRaw_perm`).
-/
namespace FileGraph

/-- An edge of some weight from the file with a path to the file with another. -/
def Graph.Links (g : Graph) (source target : String) (weight : Float) : Prop :=
  ∃ e ∈ g.edges, g.filepaths[e.source]? = some source ∧ g.filepaths[e.target]? = some target ∧ e.weight = weight

namespace Repository

open Source Archive Cache

/-- A position is known by the path at it. -/
theorem position_eq_iff {es : List Entry} (hnodup : (es.map (·.path)).Nodup) {i j : Nat} {e e' : Entry}
    (he : es[i]? = some e) (he' : es[j]? = some e') : i = j ↔ e.path = e'.path := by
  have hi : i < (es.map (·.path)).length := by
    rw [List.length_map]
    exact (List.getElem?_eq_some_iff.1 he).1
  rw [← List.getElem?_inj hi hnodup, List.getElem?_map, List.getElem?_map, he, he', Option.map_some, Option.map_some,
    Option.some.injEq]

/-- That a file refers to another one among files. -/
def DependsOn (settings : Settings) (es : List Entry) (source target : String) : Prop :=
  ∃ e ∈ es, ∃ e' ∈ es, e.path = source ∧ e'.path = target ∧ source ≠ target ∧
    Resolution.Refers settings.importScore settings.maxScanBytes (referrerOf settings e) (Path.stem target)

section GraphOf

variable (settings : Settings) (epoch : Epoch) {es : List Entry} (hnodup : (es.map (·.path)).Nodup)

include hnodup

/-- **Files are linked by what they refer to**, wherever they stand, if that weighs something in 32 bits. -/
theorem links_graphOf {source target : String} {weight : Float} :
    (graphOf settings epoch es).Links source target weight ↔
      0.0 < weight ∧ ∃ e ∈ es, ∃ e' ∈ es, e.path = source ∧ e'.path = target ∧ source ≠ target ∧
        Resolution.Refers settings.importScore settings.maxScanBytes (referrerOf settings e) (Path.stem target) ∧
        weight = Weight.ofRaw (Resolution.reference settings.importScore settings.maxScanBytes (referrerOf settings e)
          (Path.stem target) % UInt32.size) := by
  simp only [Graph.Links, edges_graphOf settings epoch hnodup, filepaths_graphOf settings epoch hnodup, resolutionOf,
    Resolution.resolve, List.mem_filter, decide_eq_true_eq, Resolution.mem_edges, List.getElem?_map,
    Option.map_eq_some_iff]
  constructor
  · rintro ⟨d, ⟨⟨_, _, ⟨e, he, rfl⟩, ⟨e', he', rfl⟩, hne, hrefers, hw⟩, hpos⟩, ⟨x, hx, rfl⟩, ⟨x', hx', rfl⟩, rfl⟩
    obtain rfl : e = x := Option.some.inj (he.symm.trans hx)
    obtain rfl : e' = x' := Option.some.inj (he'.symm.trans hx')
    exact ⟨hpos, e, List.mem_of_getElem? he, e', List.mem_of_getElem? he', rfl, rfl,
      fun hpath => hne ((position_eq_iff hnodup he he').2 hpath), hrefers, hw⟩
  · rintro ⟨hpos, e, he, e', he', rfl, rfl, hne, hrefers, hw⟩
    obtain ⟨i, hi⟩ := List.getElem?_of_mem he
    obtain ⟨j, hj⟩ := List.getElem?_of_mem he'
    exact ⟨⟨i, j, weight⟩, ⟨⟨_, _, ⟨e, hi, rfl⟩, ⟨e', hj, rfl⟩,
      fun hij => hne ((position_eq_iff hnodup hi hj).1 hij), hrefers, hw⟩, hpos⟩, ⟨e, hi, rfl⟩, ⟨e', hj, rfl⟩, rfl⟩

/-- **The node of a file** has what belongs to the file and depends on whatever the file refers to. -/
theorem getElem?_nodes_depending {i : Nat} {e : Entry} (hi : es[i]? = some e) :
    ∃ n, (graphOf settings epoch es).nodes[i]? = some n ∧
      n = nodeOf e (analysisOf settings.limits (subjectOf e)) n.dependencies ∧
        ∀ q, q ∈ n.dependencies ↔ DependsOn settings es e.path q := by
  obtain ⟨paths, hn, hpaths⟩ := getElem?_nodes_graphOf settings epoch hnodup hi
  refine ⟨_, hn, rfl, fun q => ?_⟩
  have hmem : q ∈ paths ↔ ∃ d ∈ (resolutionOf settings es).edges, d.source = i ∧
      (es.map (·.path))[d.target]? = some q := by
    have hsome : q ∈ paths ↔ some q ∈ paths.map some := by simp
    rw [hsome, hpaths, List.mem_map]
    simp only [List.mem_filter, beq_iff_eq, and_assoc]
  refine hmem.trans ?_
  -- a dependency is known by positions, and what a file refers to by paths
  simp only [resolutionOf, Resolution.resolve, Resolution.mem_edges, List.getElem?_map, Option.map_eq_some_iff]
  constructor
  · rintro ⟨d, ⟨_, _, ⟨x, hx, rfl⟩, ⟨e', he', rfl⟩, hne, hrefers, -⟩, rfl, ⟨x', hx', rfl⟩⟩
    obtain rfl : e = x := Option.some.inj (hi.symm.trans hx)
    obtain rfl : e' = x' := Option.some.inj (he'.symm.trans hx')
    exact ⟨e, List.mem_of_getElem? hi, e', List.mem_of_getElem? he', rfl, rfl,
      fun hpath => hne ((position_eq_iff hnodup hi he').2 hpath), hrefers⟩
  · rintro ⟨x, hx, e', he', hpath, rfl, hne, hrefers⟩
    obtain ⟨k, hk⟩ := List.getElem?_of_mem hx
    obtain ⟨j, hj⟩ := List.getElem?_of_mem he'
    obtain rfl := (position_eq_iff hnodup hk hi).2 hpath
    obtain rfl : x = e := Option.some.inj (hk.symm.trans hi)
    obtain ⟨weight, hw⟩ : ∃ weight, weight = Weight.ofRaw (Resolution.reference settings.importScore
      settings.maxScanBytes (referrerOf settings x) (Path.stem e'.path) % UInt32.size) := ⟨_, rfl⟩
    exact ⟨⟨k, j, weight⟩, ⟨_, _, ⟨x, hi, rfl⟩, ⟨e', hj, rfl⟩, fun hij => hne ((position_eq_iff hnodup hi hj).1 hij),
      hrefers, hw⟩, rfl, ⟨e', hj, rfl⟩⟩

theorem exists_node_of_mem {e : Entry} (he : e ∈ es) :
    ∃ n ∈ (graphOf settings epoch es).nodes,
      n = nodeOf e (analysisOf settings.limits (subjectOf e)) n.dependencies ∧
        ∀ q, q ∈ n.dependencies ↔ DependsOn settings es e.path q := by
  obtain ⟨i, hi⟩ := List.getElem?_of_mem he
  obtain ⟨n, hn, hnode⟩ := getElem?_nodes_depending settings epoch hnodup hi
  exact ⟨n, List.mem_of_getElem? hn, hnode⟩

theorem exists_entry_of_mem_nodes {n : FileNode} (hn : n ∈ (graphOf settings epoch es).nodes) :
    ∃ e ∈ es, n = nodeOf e (analysisOf settings.limits (subjectOf e)) n.dependencies ∧
      ∀ q, q ∈ n.dependencies ↔ DependsOn settings es e.path q := by
  obtain ⟨i, hi⟩ := List.getElem?_of_mem hn
  have hlt : i < es.length := by
    have hlength := congrArg List.length (filepaths_graphOf settings epoch hnodup)
    rw [Graph.filepaths, List.length_map, List.length_map] at hlength
    rw [← hlength]
    exact (List.getElem?_eq_some_iff.1 hi).1
  obtain ⟨m, hm, hnode⟩ := getElem?_nodes_depending settings epoch hnodup (List.getElem?_eq_getElem hlt)
  obtain rfl : n = m := Option.some.inj (hi.symm.trans hm)
  exact ⟨es[i], List.getElem_mem hlt, hnode⟩

/-- **The sums that are made** are how often words occur and how strongly files refer to others. -/
theorem sumsFitAt_iff : (∀ i, SumsFitAt settings es i) ↔
    ∀ e ∈ es, (∀ w, (Text.words (Resolution.scanned settings.maxScanBytes e.content)).count w < UInt32.size) ∧
      ∀ e' ∈ es, e'.path ≠ e.path →
        Resolution.reference settings.importScore settings.maxScanBytes (referrerOf settings e) (Path.stem e'.path) <
          UInt32.size := by
  constructor
  · intro h e he
    obtain ⟨i, hi⟩ := List.getElem?_of_mem he
    refine ⟨(h i e hi).counts, fun e' he' hne => ?_⟩
    obtain ⟨j, hj⟩ := List.getElem?_of_mem he'
    exact (h i e hi).scores j _ (by rw [List.getElem?_map, hj, Option.map_some])
      fun hji => hne ((position_eq_iff hnodup hj hi).1 hji)
  · intro h i e hi
    obtain ⟨hcounts, hscores⟩ := h e (List.mem_of_getElem? hi)
    refine ⟨hcounts, fun j stem hat hne => ?_⟩
    rw [List.getElem?_map] at hat
    obtain ⟨e', hj, rfl⟩ := Option.map_eq_some_iff.1 hat
    exact hscores e' (List.mem_of_getElem? hj) fun hpath => hne ((position_eq_iff hnodup hj hi).2 hpath)

end GraphOf

section Perm

variable {settings : Settings} {es es' : List Entry} (h : es.Perm es') (hnodup : (es.map (·.path)).Nodup)

include h

theorem dependsOn_perm (source target : String) :
    DependsOn settings es source target ↔ DependsOn settings es' source target := by
  simp only [DependsOn, h.mem_iff]

include hnodup

theorem links_graphOf_perm (epoch epoch' : Epoch) (source target : String) (weight : Float) :
    (graphOf settings epoch es).Links source target weight ↔
      (graphOf settings epoch' es').Links source target weight := by
  have hnodup' := (h.map (·.path)).nodup_iff.1 hnodup
  rw [links_graphOf settings epoch hnodup, links_graphOf settings epoch' hnodup']
  simp only [h.mem_iff]

theorem sumsFitAt_perm : (∀ i, SumsFitAt settings es i) ↔ ∀ i, SumsFitAt settings es' i := by
  rw [sumsFitAt_iff settings hnodup, sumsFitAt_iff settings ((h.map (·.path)).nodup_iff.1 hnodup)]
  simp only [h.mem_iff]

end Perm

theorem subjectsOf_perm {settings : Settings} {root : Option String} {files files' : List RawFile} {es es' : List Entry}
    (hok : entriesOf settings root files = .ok es) (hok' : entriesOf settings root files' = .ok es') (h : es.Perm es') :
    (subjectsOf settings root files).Perm (subjectsOf settings root files') := by
  rw [subjectsOf, subjectsOf, hok, hok']
  exact h.map subjectOf

/-- **The order of an archive only arranges its graph.**  Let an archive be analysed twice, through unused caches, with
its files in different orders, of which no two admissible ones have the same path.  Then either there is nothing to
analyse both times, or both graphs have the same paths; the nodes of each path are the same but for the order of their
dependencies; and both have the same edges between the same paths, with the same weights.  No sum takes more than 32
bits in the one order just if none does in the other, and then it does not matter either whether sums are checked
(`resolveBy_checked_of_sumsFitAt`). -/
theorem analyzeRaw_perm {settings : Settings} {root : Option String} {files files' : List RawFile} {c c' : Cache}
    {s s' : Storage} (epoch epoch' : Epoch) (hperm : files.Perm files')
    (hpaths : ((files.map fun f => stripRoot (rootFor root files) f.name).filter (isAdmissible settings)).Nodup)
    (hdigest : Uncollided (subjectsOf settings root files))
    (hunused : Unused settings.limits (subjectsOf settings root files) c s)
    (hunused' : Unused settings.limits (subjectsOf settings root files) c' s') :
    ((analyzeRaw settings c s epoch files root).map (·.1) = .error .empty ∧
        (analyzeRaw settings c' s' epoch' files' root).map (·.1) = .error .empty) ∨
      ∃ es es' g g', entriesOf settings root files = .ok es ∧ entriesOf settings root files' = .ok es' ∧
        (analyzeRaw settings c s epoch files root).map (·.1) = .ok g ∧
        (analyzeRaw settings c' s' epoch' files' root).map (·.1) = .ok g' ∧
        g.filepaths.Perm g'.filepaths ∧
        (∀ n ∈ g.nodes, ∃ n' ∈ g'.nodes, n' = { n with dependencies := n'.dependencies } ∧
          ∀ path, path ∈ n'.dependencies ↔ path ∈ n.dependencies) ∧
        (∀ source target weight, g.Links source target weight ↔ g'.Links source target weight) ∧
        ((∀ i, SumsFitAt settings es i) ↔ ∀ i, SumsFitAt settings es' i) := by
  rcases entriesOf_perm hperm hpaths with ⟨herror, herror'⟩ | ⟨es, es', hok, hok', hentries⟩
  · refine .inl ⟨?_, ?_⟩
    · rw [analyzeRaw, herror]
      rfl
    · rw [analyzeRaw, herror']
      rfl
  · have hsubjects : ∀ f ∈ subjectsOf settings root files', f ∈ subjectsOf settings root files := fun f hf =>
      (subjectsOf_perm hok hok' hentries).mem_iff.2 hf
    have hnodup := nodup_entriesOf hok
    have hnodup' := nodup_entriesOf hok'
    rw [analyzeRaw_unused hdigest hunused, analyzeRaw_unused (hdigest.mono hsubjects) (hunused'.mono hsubjects), hok, hok']
    refine .inr ⟨es, es', _, _, rfl, rfl, rfl, rfl, ?_, fun n hn => ?_,
      links_graphOf_perm hentries hnodup epoch epoch', sumsFitAt_perm hentries hnodup⟩
    · rw [filepaths_graphOf settings epoch hnodup, filepaths_graphOf settings epoch' hnodup']
      exact hentries.map _
    · obtain ⟨e, he, hnode, hdeps⟩ := exists_entry_of_mem_nodes settings epoch hnodup hn
      obtain ⟨n', hn', hnode', hdeps'⟩ := exists_node_of_mem settings epoch' hnodup' (hentries.mem_iff.1 he)
      refine ⟨n', hn', ?_, fun path => ?_⟩
      · rw [hnode, hnode']
        rfl
      · rw [hdeps, hdeps', dependsOn_perm hentries]

/-- Two files with the same import and a hidden one, in a folder of their own. -/
def arrangedFiles : List RawFile :=
  [⟨"app/main.py", "import db\n".toUTF8.data.toList⟩, ⟨"app/.hidden", []⟩,
    ⟨"app/db.py", "import db\n".toUTF8.data.toList⟩]

theorem analyzeRaw_perm_sample :
    ∃ g g', (analyzeRaw .default .inMemory .empty 1 arrangedFiles none).map (·.1) = .ok g ∧
      (analyzeRaw .default .inMemory .empty 2 arrangedFiles.reverse none).map (·.1) = .ok g' ∧
      g.filepaths.Perm g'.filepaths ∧ ∀ weight, g.Links "main.py" "db.py" weight ↔ g'.Links "main.py" "db.py" weight := by
  have hselect : select .default (rootFor none arrangedFiles) [] arrangedFiles =
      [⟨"main.py", "import db\n"⟩, ⟨"db.py", "import db\n"⟩] := by decide +kernel
  have hentries : entriesOf .default none arrangedFiles = .ok [⟨"main.py", "import db\n"⟩, ⟨"db.py", "import db\n"⟩] := by
    rw [entriesOf, hselect]
  have hdigest : Uncollided (subjectsOf .default none arrangedFiles) := by
    have hsubjects : subjectsOf .default none arrangedFiles = List.replicate 2 (.python, "import db\n") := by
      rw [subjectsOf, hentries]
      decide +kernel
    rw [hsubjects]
    exact uncollided_replicate 2 _
  have hpaths : ((arrangedFiles.map fun f => stripRoot (rootFor none arrangedFiles) f.name).filter
      (isAdmissible .default)).Nodup := by decide +kernel
  rcases analyzeRaw_perm 1 2 (List.reverse_perm arrangedFiles).symm hpaths hdigest (unused_inMemory _ _ .empty)
    (unused_inMemory _ _ .empty) with ⟨herror, -⟩ | ⟨-, -, g, g', -, -, hg, hg', hfilepaths, -, hlinks, -⟩
  · rw [analyzeRaw_unused hdigest (unused_inMemory _ _ .empty), hentries] at herror
    cases herror
  · exact ⟨g, g', hg, hg', hfilepaths, hlinks "main.py" "db.py"⟩

end Repository

end FileGraph
