import FileGraph.Proofs.Archive.Roots
import FileGraph.Proofs.Path
/-!
# FirstPaths — loading takes the first file of each path

A path is admissible if it ends in a name with a stem and an extension that is asked for, and the name is neither
hidden nor a lockfile (`IsSourcePath`).  Of the files with admissible paths those are taken that have no such file with
the same path before them, in the order of the archive (`select_eq_firsts`).  Under a root that is discovered, different
names have different paths, so none is lost (`firsts_eq_filter`).
-/
namespace FileGraph.Archive

open Text

/-! ## Admissible paths -/

/-- A path ends, after its folders, in a stem, a dot and an extension.  The stem is not empty and does not begin with a
dot, the extension is one of those asked for, whatever the case of its ASCII letters, and the name is no lockfile. -/
def IsSourcePath (s : Settings) (path : String) : Prop :=
  ∃ folders stem ext : List Char,
    path.toList = folders ++ (stem ++ '.' :: ext) ∧ (folders = [] ∨ folders.getLast? = some '/') ∧
      '/' ∉ stem ++ '.' :: ext ∧ '.' ∉ ext ∧ stem ≠ [] ∧ stem.head? ≠ some '.' ∧
      String.ofList (stem ++ '.' :: ext) ∉ s.lockfiles ∧ String.ofList (ext.map Char.toLower) ∈ s.extensions

theorem basename_eq_iff {path name : List Char} :
    Path.basename path = name ↔
      ∃ folders, path = folders ++ name ∧ (folders = [] ∨ folders.getLast? = some '/') ∧ '/' ∉ name := by
  rw [Path.basename, lastPiece_eq_iff]
  constructor
  · rintro ⟨hslash, rfl | ⟨us, rfl⟩⟩
    · exact ⟨[], rfl, .inl rfl, hslash⟩
    · exact ⟨us ++ ['/'], by simp, .inr (by simp), hslash⟩
  · rintro ⟨folders, rfl, rfl | hlast, hslash⟩
    · exact ⟨hslash, .inl rfl⟩
    · obtain ⟨us, rfl⟩ := List.getLast?_eq_some_iff.1 hlast
      exact ⟨hslash, .inr ⟨us, by simp⟩⟩

theorem isAdmissible_eq (s : Settings) (path : String) :
    isAdmissible s path =
      let name := Path.basename path.toList
      name.head?.any (· != '.') && !s.lockfiles.contains (.ofList name) &&
        (Path.splitExtension? name).any fun p => s.extensions.contains (.ofList (p.2.map Char.toLower)) := by
  unfold isAdmissible Path.extension? Settings.isLockfile Settings.allowsExtension Language.lowerCase
  cases hsplit : Path.splitExtension? (Path.basename path.toList) <;> simp [hsplit]

theorem isAdmissible_iff {s : Settings} {path : String} : isAdmissible s path = true ↔ IsSourcePath s path := by
  rw [isAdmissible_eq]
  simp only [Bool.and_eq_true, Bool.not_eq_true', List.contains_eq_mem, decide_eq_false_iff_not, Option.any_eq_true,
    decide_eq_true_eq, bne_iff_ne]
  constructor
  · rintro ⟨⟨⟨c, hc, hhidden⟩, hlock⟩, ⟨stem, ext⟩, hsplit, hext⟩
    obtain ⟨hname, hstem, hdot⟩ := Path.splitExtension?_eq_some_iff.1 hsplit
    obtain ⟨folders, hpath, hfolders, hslash⟩ := basename_eq_iff.1 hname
    rw [hname] at hc hlock
    refine ⟨folders, stem, ext, hpath, hfolders, hslash, hdot, hstem, fun hhead => hhidden ?_, hlock, hext⟩
    rw [List.head?_append, hhead] at hc
    exact (Option.some.inj hc).symm
  · rintro ⟨folders, stem, ext, hpath, hfolders, hslash, hdot, hstem, hhidden, hlock, hext⟩
    have hname : Path.basename path.toList = stem ++ '.' :: ext := basename_eq_iff.2 ⟨folders, hpath, hfolders, hslash⟩
    obtain ⟨c, cs, rfl⟩ := List.exists_cons_of_ne_nil hstem
    rw [hname]
    exact ⟨⟨⟨c, rfl, fun heq => hhidden (congrArg some heq)⟩, hlock⟩, (c :: cs, ext),
      Path.splitExtension?_append hstem hdot, hext⟩

instance (s : Settings) : DecidablePred (IsSourcePath s) := fun _ => decidable_of_iff _ isAdmissible_iff

/-! ## The first file of each path -/

/-- A file that comes after others is taken if its path is admissible and none of those before it has an admissible path
that is the same. -/
def IsTaken (s : Settings) (root : Option String) (before : List RawFile) (f : RawFile) : Prop :=
  IsSourcePath s (stripRoot root f.name) ∧
    ∀ g ∈ before, IsSourcePath s (stripRoot root g.name) → stripRoot root g.name ≠ stripRoot root f.name

instance (s : Settings) (root : Option String) (before : List RawFile) : DecidablePred (IsTaken s root before) :=
  fun _ => inferInstanceAs (Decidable (_ ∧ _))

/-- The entries of the files that are taken, in order. -/
def firsts (s : Settings) (root : Option String) (files : List RawFile) : List Entry :=
  (files.zipIdx.filter fun f => IsTaken s root (files.take f.2) f.1).map fun f => entryOf root f.1

theorem exists_mem_append_singleton {α : Type} {p : α → Prop} {xs : List α} {x : α} :
    (∃ y ∈ xs ++ [x], p y) ↔ (∃ y ∈ xs, p y) ∨ p x := by
  simp [or_and_right, exists_or]

theorem select_eq_firstsFrom (s : Settings) (root : Option String) :
    ∀ (files before : List RawFile) (seen : List String),
    (∀ path, path ∈ seen ↔ ∃ g ∈ before, IsSourcePath s (stripRoot root g.name) ∧ stripRoot root g.name = path) →
      select s root seen files =
        ((files.zipIdx before.length).filter fun f => IsTaken s root ((before ++ files).take f.2) f.1).map
          fun f => entryOf root f.1
  | [], _, _, _ => rfl
  | f :: fs, before, seen, hseen => by
    have hbefore : (before ++ f :: fs).take before.length = before := by simp
    have hlength : (before ++ [f]).length = before.length + 1 := by simp
    have hfirst : IsTaken s root before f ↔
        isAdmissible s (stripRoot root f.name) = true ∧ stripRoot root f.name ∉ seen := by
      rw [IsTaken, isAdmissible_iff, hseen]
      simp
    rw [List.zipIdx_cons, List.filter_cons, hbefore]
    by_cases htaken : IsTaken s root before f
    · obtain ⟨hadmissible, hnew⟩ := hfirst.1 htaken
      have ih := select_eq_firstsFrom s root fs (before ++ [f]) (stripRoot root f.name :: seen) fun path => by
        rw [List.mem_cons, hseen, exists_mem_append_singleton, or_comm]
        exact or_congr_right ⟨fun h => ⟨htaken.1, h.symm⟩, fun h => h.2.symm⟩
      rw [hlength, ← List.append_cons] at ih
      rw [if_pos (by simpa using htaken), List.map_cons, select_cons_of_taken fs hadmissible hnew, ih]
    · have ih := select_eq_firstsFrom s root fs (before ++ [f]) seen fun path => by
        -- if the path is admissible, it was seen before
        rw [hseen, exists_mem_append_singleton]
        refine ⟨.inl, fun h => h.elim id fun ⟨hadmissible, hpath⟩ => ?_⟩
        rw [← hseen, ← hpath]
        exact Decidable.byContradiction fun hnew => htaken (hfirst.2 ⟨isAdmissible_iff.2 hadmissible, hnew⟩)
      rw [hlength, ← List.append_cons] at ih
      rw [if_neg (by simpa using htaken), select_cons_of_not_taken fs (mt hfirst.2 htaken), ih]

theorem select_eq_firsts (s : Settings) (root : Option String) (files : List RawFile) :
    select s root [] files = firsts s root files :=
  select_eq_firstsFrom s root files [] [] fun _ => by simp

/-! ## Nothing lost -/

/-- **Under a root that is discovered, paths tell as much as names.** -/
theorem relativeName_eq_of_stripRoot_eq {names : List String} {x y : String} (hx : x ∈ names) (hy : y ∈ names)
    (h : stripRoot (discoverRoot names) x = stripRoot (discoverRoot names) y) :
    relativeName x.toList = relativeName y.toList := by
  cases hroot : discoverRoot names with
  | none =>
    rw [hroot] at h
    exact String.ofList_inj.1 h
  | some root =>
    have hshared := discoverRoot_eq_some_iff_sharedRoot.1 hroot
    obtain ⟨rest, -, hrest⟩ := hshared.within x hx
    obtain ⟨rest', -, hrest'⟩ := hshared.within y hy
    rw [hroot, stripRoot_inside hrest, stripRoot_inside hrest', String.ofList_inj] at h
    rw [isRelative_iff.1 hrest, isRelative_iff.1 hrest', h]

/-- All admissible files are taken if the root is discovered and no two names are the same but for `./` and `/`. -/
theorem firsts_eq_filter (s : Settings) {files : List RawFile}
    (h : files.Pairwise fun f g => ∀ rest, IsRelative f.name.toList rest → ¬ IsRelative g.name.toList rest) :
    let root := rootFor none files
    firsts s root files = (files.filter fun f => IsSourcePath s (stripRoot root f.name)).map (entryOf root) := by
  intro root
  have hpaths : (files.map fun f => stripRoot root f.name).Nodup := by
    refine List.pairwise_map.2 (h.imp_of_mem fun {f g} hf hg hne heq => ?_)
    have hsame := relativeName_eq_of_stripRoot_eq (List.mem_map_of_mem hf) (List.mem_map_of_mem hg) heq
    exact hne _ (isRelative_iff.2 rfl) (isRelative_iff.2 hsame.symm)
  have hall := select_eq_filter s root [] files (hpaths.filter _) fun _ _ hmem => nomatch hmem
  rw [← select_eq_firsts, hall]
  simp [← isAdmissible_iff]

/-! ## Loading -/

theorem rawFilesOf_ne_empty (data : ByteArray) : ∀ (ms : List Member), rawFilesOf data ms ≠ .error .empty
  | [], h => nomatch h
  | m :: ms, h => by
    have ih := rawFilesOf_ne_empty data ms
    unfold rawFilesOf at h
    split at h
    · cases h
    · dsimp only at h
      split at h
      · exact ih h
      · split at h
        · cases h
        · cases hrest : rawFilesOf data ms with
          | error f =>
            rw [hrest] at h
            cases h
            exact ih hrest
          | ok files =>
            rw [hrest] at h
            cases h

theorem rawFiles_ne_empty (data : ByteArray) : rawFiles data ≠ .error .empty := by
  unfold rawFiles
  split
  · exact rawFilesOf_ne_empty data _
  · exact fun h => nomatch h

theorem entriesOf_eq_firsts (s : Settings) (root : Option String) (files : List RawFile) :
    entriesOf s root files =
      if firsts s (rootFor root files) files = [] then .error .empty
      else .ok (firsts s (rootFor root files) files) := by
  rw [entriesOf, select_eq_firsts]
  cases firsts s (rootFor root files) files with
  | nil => rfl
  | cons e es => rfl

/-- **Loading takes the first file of each admissible path**, in the order of the archive, and fails just if there is
none.  The root is the given one without the `/` at its ends, or else the folder that all files share; a path is what
follows the root and a `/` in what counts of a name, or all that counts of it.  If the root is discovered and no two
names have the same to count, then every file with an admissible path is taken. -/
theorem load_firsts (s : Settings) (root : Option String) :
    (∀ files : List RawFile,
      let r := rootFor root files
      let taken := firsts s r files
      (∀ given, root = some given → ∀ t, r = some t ↔ IsGiven given t) ∧
        (root = none → ∀ t, r = some t ↔ SharedRoot (files.map (·.name)) t) ∧
        (∀ name path : String, stripRoot r name = path ↔ IsPath r name.toList path.toList) ∧
        entriesOf s root files = (if taken = [] then .error .empty else .ok taken) ∧
        (∀ data, rawFiles data = .ok files → load s data root = entriesOf s root files) ∧
        (root = none →
          files.Pairwise (fun f g => ∀ rest, IsRelative f.name.toList rest → ¬ IsRelative g.name.toList rest) →
            taken = (files.filter fun f => IsSourcePath s (stripRoot r f.name)).map (entryOf r))) ∧
      ∀ data, load s data root = .error .empty ↔
        ∃ files, rawFiles data = .ok files ∧ firsts s (rootFor root files) files = [] := by
  refine ⟨fun files => ⟨?_, ?_, fun _ _ => isPath_iff.symm, entriesOf_eq_firsts s root files, fun data hdata => ?_, ?_⟩,
    fun data => ?_⟩
  · rintro given rfl t
    exact givenRoot_eq_some_iff
  · rintro rfl t
    exact discoverRoot_eq_some_iff_sharedRoot
  · rw [load, hdata]
  · rintro rfl hnames
    exact firsts_eq_filter s hnames
  · rw [load]
    cases hraw : rawFiles data with
    | error f =>
      have hne : f ≠ .empty := fun heq => rawFiles_ne_empty data (heq ▸ hraw)
      simp [hne]
    | ok files =>
      simp only [entriesOf_eq_firsts, Except.ok.injEq, exists_eq_left']
      split
      · rename_i hnone
        simp [hnone]
      · rename_i hsome
        simp [hsome]

/-- A file in two spellings of one name, between a hidden one and a lockfile. -/
def sampleCopies : List RawFile :=
  [⟨"web/.env.js", []⟩, ⟨"web/b.TS", [0x62]⟩, ⟨"./web/b.TS", [0x63]⟩, ⟨"web/yarn.lock", []⟩]

theorem load_firsts_sample :
    entriesOf .default none sampleCopies = .ok [⟨"b.TS", "b"⟩] ∧
      load .default folderArchive none = .ok [⟨"a.ts", ""⟩] ∧
      (sampleNames.map (⟨·, []⟩)).Pairwise
        (fun f g : RawFile => ∀ rest, IsRelative f.name.toList rest → ¬ IsRelative g.name.toList rest) ∧
      firsts .default (rootFor none (sampleNames.map (⟨·, []⟩))) (sampleNames.map (⟨·, []⟩)) =
        [⟨"src/a.ts", ""⟩, ⟨"b.ts", ""⟩, ⟨"/c.ts", ""⟩] := by
  obtain ⟨hfiles, -⟩ := load_firsts .default none
  obtain ⟨-, -, -, hentries, -, -⟩ := hfiles sampleCopies
  obtain ⟨-, -, -, hone, hload, -⟩ := hfiles [⟨"repo/a.ts", []⟩]
  obtain ⟨-, -, -, -, -, hall⟩ := hfiles (sampleNames.map (⟨·, []⟩))
  have hfirsts : firsts .default (rootFor none sampleCopies) sampleCopies = [⟨"b.TS", "b"⟩] := by decide +kernel
  have hapart : (sampleNames.map (⟨·, []⟩)).Pairwise
      (fun f g : RawFile => relativeName f.name.toList ≠ relativeName g.name.toList) := by decide +kernel
  have hnames := hapart.imp fun {f g : RawFile} hne rest (h : IsRelative f.name.toList rest)
    (h' : IsRelative g.name.toList rest) => hne ((isRelative_iff.1 h).trans (isRelative_iff.1 h').symm)
  have hfirst : firsts .default (rootFor none [⟨"repo/a.ts", []⟩]) [⟨"repo/a.ts", []⟩] = [⟨"a.ts", ""⟩] := by
    decide +kernel
  refine ⟨?_, ?_, hnames, (hall rfl hnames).trans (by decide +kernel)⟩
  · rw [hentries, hfirsts, if_neg (List.cons_ne_nil _ _)]
  · rw [hload folderArchive rawFiles_folderArchive, hone, hfirst, if_neg (List.cons_ne_nil _ _)]

end FileGraph.Archive
