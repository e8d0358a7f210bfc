import FileGraph.Proofs.Repository.Alone
import FileGraph.Proofs.Resolution.References
/-!
# Isolation — what a file holds shows in its own node only

The edges from a file come from that file and the paths of all files (`filter_edges_resolutionOf`), and with them its
whole node (`getElem?_nodes_congr`).  What another file holds changes no path, so it changes no node but that file's own
and no edge that starts elsewhere (`analyzeRaw_isolates`), whatever bytes these are; nor does it change the sums that
are made for the others.
-/
namespace FileGraph.Repository

open Source Archive Cache

section Entries

variable {es es' : List Entry} (hpaths : es.map (·.path) = es'.map (·.path)) (settings : Settings)

include hpaths

theorem map_stem_congr : (es.map fun e => Path.stem e.path) = es'.map fun e => Path.stem e.path := by
  have hstem : (fun e : Entry => Path.stem e.path) = Path.stem ∘ fun e : Entry => e.path := rfl
  rw [hstem, ← List.map_map, hpaths, List.map_map]

/-- **From files that are the same in two lists resolution finds the same edges in both**, if the paths of all files are
the same. -/
theorem filter_edges_resolutionOf (kept : Nat → Bool) (h : ∀ i, kept i = true → es[i]? = es'[i]?) :
    (resolutionOf settings es).edges.filter (fun e => kept e.source) =
      (resolutionOf settings es').edges.filter fun e => kept e.source := by
  have hlength := congrArg List.length hpaths
  rw [List.length_map, List.length_map] at hlength
  have hstems : (es.map (referrerOf settings)).map (fun f => Path.stem f.filepath) =
      (es'.map (referrerOf settings)).map fun f => Path.stem f.filepath := by
    rw [List.map_map, List.map_map]
    exact map_stem_congr hpaths
  simp only [resolutionOf, Resolution.resolve, Resolution.resolveIn_eq]
  refine Resolution.filter_edgesFrom_congr kept 0 ?_ fun i hi => ?_
  · rw [Resolution.length_rows, Resolution.length_rows, List.length_map, List.length_map, hlength]
  · refine Resolution.getElem?_rows_congr .asListed _ _ hstems ?_
    rw [List.getElem?_map, List.getElem?_map, h i (by rwa [Nat.zero_add] at hi)]

theorem sumsFitAt_congr {i : Nat} (hi : es[i]? = es'[i]?) : SumsFitAt settings es i ↔ SumsFitAt settings es' i := by
  rw [SumsFitAt, SumsFitAt, hi, map_stem_congr hpaths]

variable (hnodup : (es.map (·.path)).Nodup) (epoch epoch' : Epoch)

include hnodup

theorem filter_edges_graphOf (kept : Nat → Bool) (h : ∀ i, kept i = true → es[i]? = es'[i]?) :
    (graphOf settings epoch es).edges.filter (fun e => kept e.source) =
      (graphOf settings epoch' es').edges.filter fun e => kept e.source := by
  have hedges := filter_edges_resolutionOf hpaths settings kept h
  rw [edges_graphOf settings epoch hnodup, edges_graphOf settings epoch' (hpaths ▸ hnodup), List.filter_filter,
    List.filter_filter]
  simp only [Bool.and_comm (kept _), ← List.filter_filter, hedges]

theorem getElem?_nodes_congr {i : Nat} (hi : es[i]? = es'[i]?) :
    (graphOf settings epoch es).nodes[i]? = (graphOf settings epoch' es').nodes[i]? := by
  cases he : es[i]? with
  | none =>
    have hnone : ∀ {g : Graph} {es : List Entry}, g.filepaths = es.map (·.path) → es[i]? = none → g.nodes[i]? = none := by
      intro g es hg hnone
      have hlength := congrArg List.length hg
      rw [Graph.filepaths, List.length_map, List.length_map] at hlength
      rw [List.getElem?_eq_none_iff] at hnone ⊢
      omega
    rw [hnone (filepaths_graphOf settings epoch hnodup) he,
      hnone (filepaths_graphOf settings epoch' (hpaths ▸ hnodup)) (hi ▸ he)]
  | some e =>
    obtain ⟨paths, hn, htargets⟩ := getElem?_nodes_graphOf settings epoch hnodup he
    obtain ⟨paths', hn', htargets'⟩ := getElem?_nodes_graphOf settings epoch' (hpaths ▸ hnodup) (hi ▸ he)
    -- the paths that a file depends on are read off the edges from it
    have hedges := filter_edges_resolutionOf hpaths settings (· == i) fun j hj => by
      rwa [beq_iff_eq.1 hj]
    have heq : paths = paths' := by
      refine (List.map_inj_right fun _ _ => Option.some.inj).1 ?_
      rw [htargets, htargets', hpaths, hedges]
    rw [hn, hn', heq]

end Entries

/-- **What a file holds does not disturb the others.**  Let an archive be analysed twice, through unused caches, with
other bytes in one of its files.  Then either both fail in the same way, or both have the same paths in the same order,
the same nodes but for that of the file itself, and the same edges but for those from that file.  The sums for another
file take more than 32 bits in both or in neither, so that if sums are checked (`resolveBy_checked_of_sumsFitAt`), none
but those for the file itself can make a difference. -/
theorem analyzeRaw_isolates {settings : Settings} {root : Option String} {before after : List RawFile} {name : String}
    {bytes bytes' : List UInt8} {files files' : List RawFile} {c c' : Cache} {s s' : Storage} (epoch epoch' : Epoch)
    (hfiles : files = before ++ ⟨name, bytes⟩ :: after) (hfiles' : files' = before ++ ⟨name, bytes'⟩ :: after)
    (hdigest : Uncollided (subjectsOf settings root files)) (hdigest' : Uncollided (subjectsOf settings root files'))
    (hunused : Unused settings.limits (subjectsOf settings root files) c s)
    (hunused' : Unused settings.limits (subjectsOf settings root files') c' s') :
    let own := takenPath? settings (rootFor root files) before name
    (∃ f, (analyzeRaw settings c s epoch files root).map (·.1) = .error f ∧
        (analyzeRaw settings c' s' epoch' files' root).map (·.1) = .error f) ∨
      ∃ es es' g g', entriesOf settings root files = .ok es ∧ entriesOf settings root files' = .ok es' ∧
        (analyzeRaw settings c s epoch files root).map (·.1) = .ok g ∧
        (analyzeRaw settings c' s' epoch' files' root).map (·.1) = .ok g' ∧
        g.filepaths = g'.filepaths ∧
        (∀ i : Nat, g.filepaths[i]? ≠ own → g.nodes[i]? = g'.nodes[i]?) ∧
        g.edges.filter (fun e => g.filepaths[e.source]? != own) =
          g'.edges.filter (fun e => g'.filepaths[e.source]? != own) ∧
        ∀ i : Nat, g.filepaths[i]? ≠ own → (SumsFitAt settings es i ↔ SumsFitAt settings es' i) := by
  intro own
  rw [analyzeRaw_unused hdigest hunused, analyzeRaw_unused hdigest' hunused']
  have haround := entriesOf_around settings root before after name bytes bytes'
  simp only [← hfiles, ← hfiles'] at haround
  rcases haround with ⟨herror, herror'⟩ | ⟨es, es', hok, hok', hpaths, hothers⟩
  · rw [herror, herror']
    exact .inl ⟨_, rfl, rfl⟩
  · have hnodup := nodup_entriesOf hok
    have hfilepaths := filepaths_graphOf settings epoch hnodup
    have hfilepaths' := filepaths_graphOf settings epoch' (hpaths ▸ hnodup)
    rw [hok, hok']
    refine .inr ⟨es, es', _, _, rfl, rfl, rfl, rfl, ?_, fun i hi => ?_, ?_, fun i hi => ?_⟩
    · rw [hfilepaths, hfilepaths', hpaths]
    · rw [hfilepaths] at hi
      exact getElem?_nodes_congr hpaths settings hnodup epoch epoch' (hothers i hi)
    · rw [hfilepaths, hfilepaths', ← hpaths]
      exact filter_edges_graphOf hpaths settings hnodup epoch epoch' (fun i => (es.map (·.path))[i]? != own)
        fun i hi => hothers i (by simpa using hi)
    · rw [hfilepaths] at hi
      exact sumsFitAt_congr hpaths settings (hothers i hi)

/-- A file with an import, and the file that it imports with some bytes in it. -/
def importingFiles (bytes : List UInt8) : List RawFile :=
  [⟨"app/main.py", "import db\n".toUTF8.data.toList⟩, ⟨"app/db.py", bytes⟩]

theorem entriesOf_importingFiles :
    entriesOf .default none (importingFiles "import db\n".toUTF8.data.toList) =
        .ok [⟨"main.py", "import db\n"⟩, ⟨"db.py", "import db\n"⟩] ∧
      entriesOf .default none (importingFiles [0xff, 0x00]) =
        .ok [⟨"main.py", "import db\n"⟩, ⟨"db.py", "\uFFFD\x00"⟩] := by
  have hselect : select .default (rootFor none (importingFiles "import db\n".toUTF8.data.toList)) []
      (importingFiles "import db\n".toUTF8.data.toList) =
        [⟨"main.py", "import db\n"⟩, ⟨"db.py", "import db\n"⟩] := by decide +kernel
  have hselect' : select .default (rootFor none (importingFiles [0xff, 0x00])) [] (importingFiles [0xff, 0x00]) =
      [⟨"main.py", "import db\n"⟩, ⟨"db.py", "\uFFFD\x00"⟩] := by decide +kernel
  constructor
  · rw [entriesOf, hselect]
  · rw [entriesOf, hselect']

/-- The imported file is replaced by bytes that are no text and a zero byte. -/
theorem analyzeRaw_isolates_sample :
    let files := importingFiles "import db\n".toUTF8.data.toList
    let files' := importingFiles [0xff, 0x00]
    ∃ g g', (analyzeRaw .default .inMemory .empty 1 files none).map (·.1) = .ok g ∧
      (analyzeRaw .default .inMemory .empty 2 files' none).map (·.1) = .ok g' ∧
      g.nodes[0]? = g'.nodes[0]? ∧
      g.edges.filter (fun e => g.filepaths[e.source]? != some "db.py") =
        g'.edges.filter fun e => g'.filepaths[e.source]? != some "db.py" := by
  intro files files'
  obtain ⟨hentries, hentries'⟩ := entriesOf_importingFiles
  have hdigest : Uncollided (subjectsOf .default none files) := by
    have hsubjects : subjectsOf .default none files = [(.python, "import db\n"), (.python, "import db\n")] := by
      rw [subjectsOf, hentries]
      decide +kernel
    rw [hsubjects]
    exact uncollided_replicate 2 _
  have hdigest' : Uncollided (subjectsOf .default none files') := by
    have hsubjects : subjectsOf .default none files' = [(.python, "import db\n"), (.python, "\uFFFD\x00")] := by
      rw [subjectsOf, hentries']
      decide +kernel
    rw [hsubjects]
    exact uncollided_pair (by decide +kernel)
  have hfiles : files = [⟨"app/main.py", "import db\n".toUTF8.data.toList⟩] ++
      ⟨"app/db.py", "import db\n".toUTF8.data.toList⟩ :: [] := rfl
  have hfiles' : files' = [⟨"app/main.py", "import db\n".toUTF8.data.toList⟩] ++ ⟨"app/db.py", [0xff, 0x00]⟩ :: [] := rfl
  have hown : takenPath? .default (rootFor none files) [⟨"app/main.py", "import db\n".toUTF8.data.toList⟩] "app/db.py" =
      some "db.py" := by decide +kernel
  have halone := analyzeRaw_unused hdigest (unused_inMemory _ _ .empty) 1
  rw [hentries] at halone
  have hisolates := analyzeRaw_isolates 1 2 hfiles hfiles' hdigest hdigest' (unused_inMemory _ _ .empty)
    (unused_inMemory _ _ .empty)
  simp only [hown] at hisolates
  rcases hisolates with ⟨f, hf, -⟩ | ⟨-, -, g, g', -, -, hg, hg', -, hnodes, hedges, -⟩
  · rw [halone] at hf
    cases hf
  · refine ⟨g, g', hg, hg', hnodes 0 ?_, hedges⟩
    have hfilepaths := filepaths_graphOf .default 1 (nodup_entriesOf hentries)
    rw [halone] at hg
    cases hg
    rw [hfilepaths]
    decide

end FileGraph.Repository
