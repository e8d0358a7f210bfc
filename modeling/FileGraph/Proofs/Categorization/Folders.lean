import FileGraph.Proofs.Categorization.Repointing
import FileGraph.Proofs.Path
import FileGraph.Proofs.Repository.Assembly
import FileGraph.Proofs.Text.ByteOrder
/-!
# Folders — files grouped by their top folders

The answer that groups paths by their top folders has the default category first and then the other folders, each once
and in the order of their bytes (`categories_byFolder`), and assigns every path to one of them.  A graph to which it is
applied has its files in the categories that are named as their folders (`grouped_by_folder`).

It is refused just if a folder has a blank name: the adapter sees to it that no name is empty, but not that each has
something beside white space (`directory_accepted_iff`).
-/
namespace FileGraph

open FileGraph.Path (LiesIn)

namespace Categorizer

theorem lookup_map_of_mem {α : Type} (f : String → α) {p : String} : ∀ {ps : List String}, p ∈ ps →
    (ps.map fun q => (q, f q)).lookup p = some (f p)
  | q :: ps, h => by
    rw [List.map_cons, NameMap.lookup_cons_eq]
    by_cases heq : p = q
    · rw [if_pos heq, heq]
    · rw [if_neg heq]
      exact lookup_map_of_mem f ((List.mem_cons.1 h).resolve_left heq)

theorem get?_assignments_byFolder {ps : List String} {p : String} (h : p ∈ ps) :
    (byFolder ps).assignments.get? p = some (groupOf p) := by
  rw [byFolder, NameMap.get?_ofList, ← List.map_reverse]
  exact lookup_map_of_mem groupOf (List.mem_reverse.2 h)

theorem groupOf_of_liesIn {path folder : String} (h : LiesIn path folder) : groupOf path = folder := by
  rw [groupOf, Path.topFolder?_eq_some_iff.2 h, Option.getD_some]

theorem groupOf_eq_default {path : String} (h : ∀ folder, ¬ LiesIn path folder) : groupOf path = defaultCategory := by
  have hnone : Path.topFolder? path = none :=
    Option.eq_none_iff_forall_ne_some.2 fun folder hsome => h folder (Path.topFolder?_eq_some_iff.1 hsome)
  rw [groupOf, hnone, Option.getD_none]

theorem liesIn_groupOf {path : String} (h : groupOf path ≠ defaultCategory) : LiesIn path (groupOf path) := by
  by_cases hfolder : ∃ folder, LiesIn path folder
  · obtain ⟨folder, hfolder⟩ := hfolder
    rw [groupOf_of_liesIn hfolder]
    exact hfolder
  · exact absurd (groupOf_eq_default (not_exists.1 hfolder)) h

theorem mem_names_groups {ps : List String} {name : String} :
    name ∈ (NameMap.ofList (ps.map fun p => (groupOf p, ()))).names ↔ ∃ p ∈ ps, groupOf p = name := by
  rw [NameMap.mem_names_iff, NameMap.get?_ofList, List.lookup_isSome_iff]
  constructor
  · rintro ⟨e, he, hname⟩
    obtain ⟨p, hp, rfl⟩ := List.mem_map.1 (List.mem_reverse.1 he)
    exact ⟨p, hp, (beq_iff_eq.1 hname).symm⟩
  · rintro ⟨p, hp, rfl⟩
    exact ⟨_, List.mem_reverse.2 (List.mem_map.2 ⟨p, hp, rfl⟩), beq_self_eq_true _⟩

/-- **The categories**: the default one, and then every other top folder once, in order. -/
theorem categories_byFolder (ps : List String) :
    ∃ folders, (byFolder ps).categories = defaultCategory :: folders ∧ folders.Pairwise (· < ·) ∧
      ∀ folder, folder ∈ folders ↔ folder ≠ defaultCategory ∧ ∃ p ∈ ps, LiesIn p folder := by
  refine ⟨_, rfl, ?_, fun folder => ?_⟩
  · have hsorted := (NameMap.ofList (ps.map fun p => (groupOf p, ()))).sorted
    exact (List.pairwise_map.2 hsorted).filter _
  · rw [List.mem_filter, mem_names_groups, bne_iff_ne]
    constructor
    · rintro ⟨⟨p, hp, rfl⟩, hne⟩
      exact ⟨hne, p, hp, liesIn_groupOf hne⟩
    · rintro ⟨hne, p, hp, hlies⟩
      exact ⟨⟨p, hp, groupOf_of_liesIn hlies⟩, hne⟩

theorem groupOf_mem_categories {ps : List String} {p : String} (h : p ∈ ps) :
    groupOf p ∈ (byFolder ps).categories := by
  obtain ⟨folders, hcategories, -, hmem⟩ := categories_byFolder ps
  rw [hcategories, List.mem_cons]
  by_cases hdefault : groupOf p = defaultCategory
  · exact .inl hdefault
  · exact .inr ((hmem _).2 ⟨hdefault, p, h, liesIn_groupOf hdefault⟩)

theorem nodup_categories_byFolder (ps : List String) : (byFolder ps).categories.Nodup := by
  obtain ⟨folders, hcategories, hsorted, hmem⟩ := categories_byFolder ps
  rw [hcategories, List.nodup_cons]
  exact ⟨fun hdefault => ((hmem _).1 hdefault).1 rfl, hsorted.imp fun hlt => String.ne_of_lt hlt⟩

/-- A path that is grouped gets the category that is named as its group. -/
theorem firstAt_groupOf {ps : List String} {p : String} (h : p ∈ ps) :
    Categorization.FirstAt (byFolder ps).categories (groupOf p) ((byFolder ps).categoryOf p) :=
  Categorization.firstAt_categoryOf (get?_assignments_byFolder h) (groupOf_mem_categories h)

/-- The answer is refused just if a top folder has a blank name. -/
theorem check_byFolder (ps : List String) :
    ((∀ p ∈ ps, ∀ folder, LiesIn p folder → Categorization.isBlankName folder = false) ∧
        (byFolder ps).check = .ok ()) ∨
      ((∃ p ∈ ps, ∃ folder, LiesIn p folder ∧ Categorization.isBlankName folder = true) ∧
        (byFolder ps).check = .error (.malformed "category names must not be blank")) := by
  obtain ⟨folders, hcategories, -, hmem⟩ := categories_byFolder ps
  have hdefault : Categorization.isBlankName defaultCategory = false := by decide
  rcases (byFolder ps).check_cases with ⟨hempty, -⟩ | ⟨-, ⟨folder, hfolder, hblank⟩, herror⟩ | ⟨-, hnone, hok⟩
  · rw [hcategories] at hempty
    cases hempty
  · refine .inr ⟨?_, herror⟩
    rw [hcategories, List.mem_cons] at hfolder
    rcases hfolder with rfl | hfolder
    · rw [hdefault] at hblank
      cases hblank
    · obtain ⟨-, p, hp, hlies⟩ := (hmem folder).1 hfolder
      exact ⟨p, hp, folder, hlies, hblank⟩
  · refine .inl ⟨fun p hp folder hlies => ?_, hok⟩
    have hgroup := groupOf_mem_categories hp
    rw [groupOf_of_liesIn hlies] at hgroup
    exact hnone folder hgroup

end Categorizer

open Categorizer

/-! ## Graphs that are grouped -/

/-- **Files are grouped by their top folders.**  If the answer for the paths of a graph is accepted, then the categories
are the default one and the other top folders, each once and in the order of their bytes; each of these others has a
file; and the category of a file is named as the folder that its path begins with, or is the default one if there is
none. -/
theorem grouped_by_folder {g g' : Graph} {c : Categorization} {n : Nat}
    (hanswer : directory.answer g.filepaths = .ok c) (h : (Graph.adopt c).run g = .ok n g') :
    (∃ folders, g'.categories = "General" :: folders ∧
        folders.Pairwise (fun a b => Text.bytes a < Text.bytes b) ∧
        ∀ folder, folder ∈ folders ↔ folder ≠ "General" ∧ ∃ p ∈ g.filepaths, LiesIn p folder) ∧
      (∀ (i : Nat) (name : String), g'.categories[i]? = some name → name ≠ "General" →
        ∃ node ∈ g'.nodes, node.category = i) ∧
      g'.filepaths = g.filepaths ∧
      ∀ node ∈ g'.nodes,
        (∀ folder, LiesIn node.filepath folder → g'.categoryName node = folder) ∧
          ((∀ folder, ¬ LiesIn node.filepath folder) → g'.categoryName node = "General") := by
  cases hanswer
  rcases check_byFolder g.filepaths with ⟨-, hok⟩ | ⟨-, herror⟩
  case inr => rw [Graph.adopt_of_not_check herror] at h; cases h
  obtain ⟨-, rfl⟩ := EStateM.Result.ok.inj ((Graph.adopt_of_check hok g).symm.trans h)
  obtain ⟨folders, hcategories, hsorted, hmem⟩ := categories_byFolder g.filepaths
  have hnames : ∀ node ∈ g.nodes, Categorization.FirstAt (byFolder g.filepaths).categories
      (groupOf node.filepath) ((byFolder g.filepaths).categoryOf node.filepath) := fun node hnode =>
    firstAt_groupOf (List.mem_map.2 ⟨node, hnode, rfl⟩)
  refine ⟨⟨folders, hcategories, hsorted.imp fun hlt => Text.lt_iff_bytes_lt.1 hlt, hmem⟩, fun i name hi hne => ?_, ?_,
    fun node hnode => ?_⟩
  · -- a folder is a category because some file lies in it, and a name has one position only
    have hfolder : name ∈ "General" :: folders := hcategories ▸ List.mem_of_getElem? hi
    obtain ⟨-, p, hp, hlies⟩ := (hmem name).1 ((List.mem_cons.1 hfolder).resolve_left hne)
    obtain ⟨node, hnode, rfl⟩ := List.mem_map.1 hp
    refine ⟨_, List.mem_map.2 ⟨node, hnode, rfl⟩, ?_⟩
    have hat := (hnames node hnode).1
    rw [groupOf_of_liesIn hlies] at hat
    obtain ⟨hlt, -⟩ := List.getElem?_eq_some_iff.1 hat
    exact (List.getElem?_inj hlt (nodup_categories_byFolder g.filepaths)).1 (hat.trans hi.symm)
  · simp only [Graph.filepaths, List.map_map]
    rfl
  · obtain ⟨old, hold, rfl⟩ := List.mem_map.1 hnode
    have hname : (byFolder g.filepaths).categories[(byFolder g.filepaths).categoryOf old.filepath]? =
        some (groupOf old.filepath) := (hnames old hold).1
    simp only [Graph.categoryName, hname, Option.getD_some]
    exact ⟨fun folder hlies => groupOf_of_liesIn hlies, groupOf_eq_default⟩

/-- Files in a folder that is named as the default category, after a leading slash, in one folder twice, and in none. -/
def scatteredGraph : Graph :=
  ⟨[], ["src/a.rs", "General/b.rs", "/c.rs", "src/a.rs", "d.rs", "lib/src/e.rs"].map (FileNode.ofContent · ""), [], 1⟩

theorem grouped_by_folder_sample :
    ∃ c n g', directory.answer scatteredGraph.filepaths = .ok c ∧ (Graph.adopt c).run scatteredGraph = .ok n g' ∧
      g'.categories = ["General", "lib", "src"] ∧
      (∀ (i : Nat) (name : String), g'.categories[i]? = some name → name ≠ "General" →
        ∃ node ∈ g'.nodes, node.category = i) ∧
      g'.nodes.map g'.categoryName = ["src", "General", "General", "src", "General", "lib"] := by
  have hok : (byFolder scatteredGraph.filepaths).check = .ok () := by decide +kernel
  have hrun := Graph.adopt_of_check hok scatteredGraph
  obtain ⟨-, hfilled, -⟩ := grouped_by_folder rfl hrun
  exact ⟨_, _, _, rfl, hrun, by decide +kernel, hfilled, by decide +kernel⟩

/-! ## Archives -/

namespace Repository

open Archive

theorem filepaths_of_analyzeRaw {settings : Settings} {c c' : Cache} {s s' : Storage} {epoch : Epoch}
    {files : List RawFile} {root : Option String} {g : Graph}
    (h : analyzeRaw settings c s epoch files root = .ok (g, c', s')) :
    g.filepaths = (select settings (rootFor root files) [] files).map (·.path) := by
  unfold analyzeRaw at h
  cases hentries : entriesOf settings root files with
  | error f => rw [hentries] at h; cases h
  | ok entries =>
    rw [hentries] at h
    have hlength := length_analyzeEntries settings.limits entries c s
    have hgraph := assemble_eq settings epoch (entries.zip (analyzeEntries settings.limits c s entries).1)
      (by rw [map_path_zip hlength]; exact nodup_entriesOf hentries)
    have hg : g = assemble settings epoch (entries.zip (analyzeEntries settings.limits c s entries).1) := by
      cases h
      rfl
    rw [hg, hgraph, Graph.filepaths, map_filepath_nodesOf _ (length_dependencies settings _), map_path_zip hlength,
      select_eq_of_entriesOf hentries]

/-- No file of an archive that is analysed lies in a top folder with a blank name. -/
def FoldersNamed (settings : Settings) (root : Option String) (files : List RawFile) : Prop :=
  ∀ f ∈ files, isAdmissible settings (stripRoot (rootFor root files) f.name) = true →
    ∀ folder, LiesIn (stripRoot (rootFor root files) f.name) folder → ∃ x ∈ folder.toList, Text.isBlank x = false

/-- **When an archive can be grouped by folders.**  There always is an answer for the graph of an archive, and it can be
used and is applied just if no file of it lies in a top folder with a blank name.  Otherwise it is refused for that
name, and the graph stays as it was. -/
theorem directory_accepted_iff {settings : Settings} {c c' : Cache} {s s' : Storage} {epoch : Epoch} {data : ByteArray}
    {root : Option String} {g : Graph} (h : analyze settings c s epoch data root = .ok (g, c', s')) :
    ∃ files answer, rawFiles data = .ok files ∧ directory.answer g.filepaths = .ok answer ∧
      (answer.check = .ok () ↔ FoldersNamed settings root files) ∧
      ((∃ n g', (Graph.adopt answer).run g = .ok n g') ↔ FoldersNamed settings root files) ∧
      (¬ FoldersNamed settings root files →
        answer.check = .error (.malformed "category names must not be blank") ∧
          (Graph.adopt answer).run g = .error (.malformed "category names must not be blank") g) := by
  unfold analyze at h
  cases hraw : rawFiles data with
  | error f => rw [hraw] at h; cases h
  | ok files =>
    rw [hraw] at h
    have hpaths := filepaths_of_analyzeRaw h
    have hnamed : FoldersNamed settings root files ↔
        ∀ p ∈ g.filepaths, ∀ folder, LiesIn p folder → Categorization.isBlankName folder = false := by
      simp only [FoldersNamed, hpaths, mem_map_path_select, ← Categorization.isBlankName_eq_false_iff]
      constructor
      · rintro hnamed p ⟨hadmissible, -, hp⟩
        obtain ⟨f, hf, rfl⟩ := List.mem_map.1 hp
        exact hnamed f hf hadmissible
      · intro hnamed f hf hadmissible
        exact hnamed _ ⟨hadmissible, List.not_mem_nil, List.mem_map.2 ⟨f, hf, rfl⟩⟩
    refine ⟨files, _, rfl, rfl, ?_⟩
    rcases check_byFolder g.filepaths with ⟨hgood, hok⟩ | ⟨⟨p, hp, folder, hlies, hblank⟩, herror⟩
    · have hyes := hnamed.2 hgood
      exact ⟨iff_of_true hok hyes, iff_of_true ⟨_, _, Graph.adopt_of_check hok g⟩ hyes, fun hno => absurd hyes hno⟩
    · have hno : ¬ FoldersNamed settings root files := by
        intro hyes
        rw [hnamed.1 hyes p hp folder hlies] at hblank
        cases hblank
      have hrun := Graph.adopt_of_not_check herror g
      refine ⟨iff_of_false (fun hok => ?_) hno, iff_of_false ?_ hno, fun _ => ⟨herror, hrun⟩⟩
      · rw [herror] at hok
        cases hok
      · rintro ⟨n, g', hok⟩
        rw [hrun] at hok
        cases hok

/-- An archive of one empty file, `repo/ /a.js`. -/
def blankFolderArchive : ByteArray := ⟨#[
  0x50, 0x4b, 0x03, 0x04, 0x14, 0x00, 0x00, 0x00, 0x00, 0x00, 0x00, 0x00, 0x21, 0x00, 0x00, 0x00, 0x00, 0x00, 0x00,
  0x00, 0x00, 0x00, 0x00, 0x00, 0x00, 0x00, 0x0b, 0x00, 0x00, 0x00, 0x72, 0x65, 0x70, 0x6f, 0x2f, 0x20, 0x2f, 0x61,
  0x2e, 0x6a, 0x73, 0x50, 0x4b, 0x01, 0x02, 0x14, 0x03, 0x14, 0x00, 0x00, 0x00, 0x00, 0x00, 0x00, 0x00, 0x21, 0x00,
  0x00, 0x00, 0x00, 0x00, 0x00, 0x00, 0x00, 0x00, 0x00, 0x00, 0x00, 0x00, 0x0b, 0x00, 0x00, 0x00, 0x00, 0x00, 0x00,
  0x00, 0x00, 0x00, 0x00, 0x00, 0x80, 0x01, 0x00, 0x00, 0x00, 0x00, 0x72, 0x65, 0x70, 0x6f, 0x2f, 0x20, 0x2f, 0x61,
  0x2e, 0x6a, 0x73, 0x50, 0x4b, 0x05, 0x06, 0x00, 0x00, 0x00, 0x00, 0x01, 0x00, 0x01, 0x00, 0x39, 0x00, 0x00, 0x00,
  0x29, 0x00, 0x00, 0x00, 0x00, 0x00
]⟩

/-- A folder has a blank as its name, so that nothing is grouped. -/
theorem directory_accepted_iff_sample :
    ∃ g c s answer, analyze .default .inMemory .empty 1 blankFolderArchive none = .ok (g, c, s) ∧
      g.filepaths = [" /a.js"] ∧ directory.answer g.filepaths = .ok answer ∧
      answer.check = .error (.malformed "category names must not be blank") ∧
      (Graph.adopt answer).run g = .error (.malformed "category names must not be blank") g := by
  have hraw : rawFiles blankFolderArchive = .ok [⟨"repo/ /a.js", []⟩] := by decide +kernel
  have hselect : select .default (rootFor none [⟨"repo/ /a.js", []⟩]) [] [⟨"repo/ /a.js", []⟩] = [⟨" /a.js", ""⟩] := by
    decide +kernel
  obtain ⟨⟨g, c, s⟩, hg⟩ : ∃ r, analyze .default .inMemory .empty 1 blankFolderArchive none = .ok r := by
    rw [analyze, hraw]
    simp only [analyzeRaw, entriesOf, hselect]
    exact ⟨_, rfl⟩
  obtain ⟨files, answer, hfiles, hanswer, -, -, hrefused⟩ := directory_accepted_iff hg
  obtain rfl := Except.ok.inj (hraw.symm.trans hfiles)
  have hno : ¬ FoldersNamed .default none [⟨"repo/ /a.js", []⟩] := by
    intro hnamed
    have hblank := hnamed ⟨"repo/ /a.js", []⟩ List.mem_cons_self (by decide +kernel) " "
      (Path.topFolder?_eq_some_iff.1 (by decide +kernel))
    simp [Text.isBlank] at hblank
  obtain ⟨hcheck, hrun⟩ := hrefused hno
  have hpaths : g.filepaths = [" /a.js"] := by
    rw [analyze, hraw] at hg
    rw [filepaths_of_analyzeRaw hg, hselect]
    rfl
  exact ⟨g, c, s, answer, hg, hpaths, hanswer, hcheck, hrun⟩

end Repository

end FileGraph
