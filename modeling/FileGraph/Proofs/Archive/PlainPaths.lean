import FileGraph.Proofs.Archive.FirstPaths
import Mathlib.Data.List.Nodup
/-!
# PlainPaths — which prefixes of names are left in paths

Of a name first any `./` are left out, then any `/`, and at last the root with one `/`.  So a `./` that stands after a
`/`, and a `/` or `./` that stands after the root, are left in the path (`KeepsPrefix`), and the path is plain just if
there are none (`keepsPrefix_iff`).  Paths that differ by such prefixes only are admissible together
(`isSourcePath_congr`), so that all of them are loaded, each as a file of its own (`load_plain_iff`).
-/
namespace FileGraph.Archive

open Text

/-! ## Plain paths -/

/-- A path that begins with neither `/` nor `./`. -/
def IsPlain (path : List Char) : Prop := ¬ ['/'] <+: path ∧ ¬ ['.', '/'] <+: path

instance : DecidablePred IsPlain := fun _ => inferInstanceAs (Decidable (_ ∧ _))

/-- A path without any `/` and `./` before it, in whatever order. -/
def plainPart : List Char → List Char
  | '/' :: cs => plainPart cs
  | '.' :: '/' :: cs => plainPart cs
  | cs => cs

theorem plainPart_of_isPlain {path : List Char} (h : IsPlain path) : plainPart path = path := by
  unfold plainPart
  split
  · exact absurd (List.prefix_append ['/'] _) h.1
  · exact absurd (List.prefix_append ['.', '/'] _) h.2
  · rfl

/-- **A path is plain** just if what stands before its first `/` is neither empty nor `.`. -/
theorem isPlain_iff_cut? {path : List Char} :
    IsPlain path ↔ ∀ folder rest, cut? '/' path = some (folder, rest) → folder ≠ [] ∧ folder ≠ ['.'] := by
  constructor
  · rintro ⟨hslash, hdot⟩ folder rest hcut
    obtain ⟨rfl, -⟩ := eq_of_cut? hcut
    constructor
    · rintro rfl
      exact hslash (List.prefix_append ['/'] rest)
    · rintro rfl
      exact hdot (List.prefix_append ['.', '/'] rest)
  · intro h
    constructor
    · rintro ⟨rest, rfl⟩
      exact (h [] rest (cut?_append List.not_mem_nil)).1 rfl
    · rintro ⟨rest, rfl⟩
      have hno : '/' ∉ ['.'] := by decide
      exact (h ['.'] rest (cut?_append hno)).2 rfl

theorem basename_plainPart (path : List Char) : Path.basename (plainPart path) = Path.basename path := by
  fun_induction plainPart path with
  | case1 cs ih => exact ih.trans (lastPiece_append_cons [] cs).symm
  | case2 cs ih => exact ih.trans (lastPiece_append_cons ['.'] cs).symm
  | case3 cs => rfl

/-- Whether a path is admissible is seen from its last piece. -/
theorem isSourcePath_congr {s : Settings} {path path' : String}
    (h : plainPart path.toList = plainPart path'.toList) : IsSourcePath s path ↔ IsSourcePath s path' := by
  have hname : Path.basename path.toList = Path.basename path'.toList := by
    rw [← basename_plainPart path.toList, h, basename_plainPart]
  rw [← isAdmissible_iff, ← isAdmissible_iff, isAdmissible_eq, isAdmissible_eq, hname]

/-! ## Prefixes that are kept -/

/-- A prefix that is left when the root is left out: a `./` that stands after a `/` and belongs to no root, or a `/` or
`./` after the root. -/
inductive KeepsPrefix (root : Option String) (name : List Char) : Prop
  | before (dots slashes : Nat) (rest : List Char)
      (hname : name = (List.replicate dots ['.', '/']).flatten ++ (List.replicate (slashes + 1) '/' ++ '.' :: '/' :: rest))
      (hout : ∀ r, root = some r → ¬ r.toList ++ ['/'] <+: '.' :: '/' :: rest)
  | after (r : String) (rest : List Char) (hroot : root = some r)
      (h : IsRelative name (r.toList ++ '/' :: rest)) (hrest : ['/'] <+: rest ∨ ['.', '/'] <+: rest)

theorem keepsPrefix_iff {root : Option String} {name : String} :
    KeepsPrefix root name.toList ↔ ¬ IsPlain (stripRoot root name).toList := by
  constructor
  · rintro (⟨dots, slashes, rest, hname, hout⟩ | ⟨r, rest, rfl, h, hrest⟩) hplain
    · have hrelative : IsRelative name.toList ('.' :: '/' :: rest) :=
        ⟨dots, slashes + 1, hname, by simp, fun hzero => absurd hzero (Nat.succ_ne_zero slashes)⟩
      rw [stripRoot_whole hrelative hout, String.toList_ofList] at hplain
      exact hplain.2 (List.prefix_append ['.', '/'] rest)
    · rw [stripRoot_inside h, String.toList_ofList] at hplain
      exact hrest.elim hplain.1 hplain.2
  · intro hkept
    have hpath : IsPath root name.toList (stripRoot root name).toList := isPath_iff.2 rfl
    generalize (stripRoot root name).toList = path at hkept hpath
    rcases hpath with ⟨r, hroot, h⟩ | ⟨⟨dots, slashes, hname, hhead, hprefix⟩, hout⟩
    · refine .after r path hroot h ?_
      by_contra hnone
      exact hkept (not_or.1 hnone)
    · have hslash : ¬ ['/'] <+: path := by
        rintro ⟨rest, rfl⟩
        exact hhead rfl
      obtain ⟨rest, rfl⟩ : ['.', '/'] <+: path := by
        by_contra hdot
        exact hkept ⟨hslash, hdot⟩
      -- a `./` that stands before all `/` is left out
      obtain ⟨slashes, rfl⟩ : ∃ n, slashes = n + 1 :=
        Nat.exists_eq_succ_of_ne_zero fun hzero => hprefix hzero (List.prefix_append _ rest)
      exact .before dots slashes rest hname hout

theorem stripRoot_congr (root : Option String) {name name' : String}
    (h : relativeName name.toList = relativeName name'.toList) : stripRoot root name = stripRoot root name' := by
  unfold stripRoot
  rw [h]

theorem stripRoot_dot (root : Option String) (name : String) : stripRoot root ("./" ++ name) = stripRoot root name := by
  refine stripRoot_congr root ?_
  rw [String.toList_append]
  rfl

/-- A `/` is left out as well, but keeps a `./` behind it from being left out. -/
theorem stripRoot_slash (root : Option String) {name : String} (h : ¬ ['.', '/'] <+: name.toList) :
    stripRoot root ("/" ++ name) = stripRoot root name := by
  refine stripRoot_congr root ?_
  have hmore : dropDotFolders ('/' :: name.toList) = '/' :: name.toList := dropDotFolders_eq_self (by simp)
  have hslash : ("/" ++ name).toList = '/' :: name.toList := String.toList_append
  rw [hslash, relativeName, relativeName, hmore, dropDotFolders_eq_self h]
  rfl

/-! ## Loading -/

/-- The paths of entries are the admissible ones of files, each once. -/
structure Loaded (s : Settings) (root : Option String) (files : List RawFile) (entries : List Entry) : Prop where
  nodup   : (entries.map (·.path)).Nodup
  mem_iff : ∀ path, path ∈ entries.map (·.path) ↔ IsSourcePath s path ∧ ∃ f ∈ files, stripRoot root f.name = path

theorem loaded_of_load {s : Settings} {root : Option String} {data : ByteArray} {entries : List Entry}
    (h : load s data root = .ok entries) :
    ∃ files, rawFiles data = .ok files ∧ Loaded s (rootFor root files) files entries := by
  obtain ⟨files, hfiles, hentries⟩ := entriesOf_of_load h
  refine ⟨files, hfiles, nodup_entriesOf hentries, fun path => ?_⟩
  rw [← select_eq_of_entriesOf hentries, mem_map_path_select, isAdmissible_iff, List.mem_map]
  simp

namespace Loaded

variable {s : Settings} {root : Option String} {files : List RawFile} {entries : List Entry}

theorem exists_entry (h : Loaded s root files entries) {f : RawFile} (hf : f ∈ files)
    (hsource : IsSourcePath s (stripRoot root f.name)) : ∃ e ∈ entries, e.path = stripRoot root f.name :=
  List.mem_map.1 ((h.mem_iff _).2 ⟨hsource, f, hf, rfl⟩)

theorem exists_file (h : Loaded s root files entries) {e : Entry} (he : e ∈ entries) :
    IsSourcePath s e.path ∧ ∃ f ∈ files, stripRoot root f.name = e.path :=
  (h.mem_iff _).1 (List.mem_map_of_mem he)

theorem eq_of_path_eq (h : Loaded s root files entries) {e e' : Entry} (he : e ∈ entries) (he' : e' ∈ entries)
    (hpath : e.path = e'.path) : e = e' :=
  List.inj_on_of_nodup_map h.nodup he he' hpath

theorem plain_iff (h : Loaded s root files entries) :
    (∀ e ∈ entries, IsPlain e.path.toList) ↔
      ∀ f ∈ files, IsSourcePath s (stripRoot root f.name) → ¬ KeepsPrefix root f.name.toList := by
  simp only [keepsPrefix_iff, not_not]
  constructor
  · intro hall f hf hsource
    obtain ⟨e, he, hpath⟩ := h.exists_entry hf hsource
    rw [← hpath]
    exact hall e he
  · intro hall e he
    obtain ⟨hsource, f, hf, hpath⟩ := h.exists_file he
    rw [← hpath] at hsource ⊢
    exact hall f hf hsource

/-- **A file is loaded once** under however many spellings just if these have the same path. -/
theorem once_iff (h : Loaded s root files entries) :
    (∀ e ∈ entries, ∀ e' ∈ entries, plainPart e.path.toList = plainPart e'.path.toList → e = e') ↔
      ∀ f ∈ files, ∀ g ∈ files, IsSourcePath s (stripRoot root f.name) →
        plainPart (stripRoot root f.name).toList = plainPart (stripRoot root g.name).toList →
          stripRoot root f.name = stripRoot root g.name := by
  constructor
  · intro honce f hf g hg hsource hplain
    obtain ⟨e, he, hpath⟩ := h.exists_entry hf hsource
    obtain ⟨e', he', hpath'⟩ := h.exists_entry hg ((isSourcePath_congr hplain).1 hsource)
    rw [← hpath, ← hpath'] at hplain ⊢
    rw [honce e he e' he' hplain]
  · intro hall e he e' he' hplain
    obtain ⟨hsource, f, hf, hpath⟩ := h.exists_file he
    obtain ⟨-, g, hg, hpath'⟩ := h.exists_file he'
    refine h.eq_of_path_eq he he' ?_
    rw [← hpath] at hsource
    rw [← hpath, ← hpath'] at hplain ⊢
    exact hall f hf g hg hsource hplain

theorem once_of_plain (h : Loaded s root files entries) (hall : ∀ e ∈ entries, IsPlain e.path.toList) :
    ∀ e ∈ entries, ∀ e' ∈ entries, plainPart e.path.toList = plainPart e'.path.toList → e = e' := by
  intro e he e' he' hplain
  rw [plainPart_of_isPlain (hall e he), plainPart_of_isPlain (hall e' he'), String.toList_inj] at hplain
  exact h.eq_of_path_eq he he' hplain

end Loaded

/-- **Loaded paths are plain** just if no file with an admissible path keeps a prefix of its name, and then each file is
loaded once, however it is spelled.  In general it is loaded once just if all its spellings have the same path.  Names
that differ by `./` do, and so do those that differ by one `/` but for those that begin with `./`. -/
theorem load_plain_iff {s : Settings} {root : Option String} {data : ByteArray} {entries : List Entry}
    (h : load s data root = .ok entries) :
    ∃ files, rawFiles data = .ok files ∧
      let r := rootFor root files
      (∀ f ∈ files, IsSourcePath s (stripRoot r f.name) → ∃ e ∈ entries, e.path = stripRoot r f.name ∧
        (IsPlain e.path.toList ↔ ¬ KeepsPrefix r f.name.toList)) ∧
      ((∀ e ∈ entries, IsPlain e.path.toList) ↔
        ∀ f ∈ files, IsSourcePath s (stripRoot r f.name) → ¬ KeepsPrefix r f.name.toList) ∧
      (∀ e ∈ entries, IsPlain e.path.toList ↔
        ∀ folder rest, cut? '/' e.path.toList = some (folder, rest) → folder ≠ [] ∧ folder ≠ ['.']) ∧
      ((∀ e ∈ entries, IsPlain e.path.toList) →
        ∀ e ∈ entries, ∀ e' ∈ entries, plainPart e.path.toList = plainPart e'.path.toList → e = e') ∧
      ((∀ e ∈ entries, ∀ e' ∈ entries, plainPart e.path.toList = plainPart e'.path.toList → e = e') ↔
        ∀ f ∈ files, ∀ g ∈ files, IsSourcePath s (stripRoot r f.name) →
          plainPart (stripRoot r f.name).toList = plainPart (stripRoot r g.name).toList →
            stripRoot r f.name = stripRoot r g.name) ∧
      ∀ name, stripRoot r ("./" ++ name) = stripRoot r name ∧
        (¬ ['.', '/'] <+: name.toList → stripRoot r ("/" ++ name) = stripRoot r name) := by
  obtain ⟨files, hfiles, hloaded⟩ := loaded_of_load h
  refine ⟨files, hfiles, fun f hf hsource => ?_, hloaded.plain_iff, fun e _ => isPlain_iff_cut?, hloaded.once_of_plain,
    hloaded.once_iff, fun name => ⟨stripRoot_dot _ name, stripRoot_slash _⟩⟩
  obtain ⟨e, he, hpath⟩ := hloaded.exists_entry hf hsource
  refine ⟨e, he, hpath, ?_⟩
  rw [keepsPrefix_iff, hpath, not_not]

/-- An archive of two empty files, `a.js` and `/./a.js`. -/
def twiceArchive : ByteArray := ⟨#[
  0x50, 0x4b, 0x03, 0x04, 0x14, 0x00, 0x00, 0x00, 0x00, 0x00, 0x00, 0x00, 0x21, 0x00, 0x00, 0x00, 0x00, 0x00, 0x00,
  0x00, 0x00, 0x00, 0x00, 0x00, 0x00, 0x00, 0x04, 0x00, 0x00, 0x00, 0x61, 0x2e, 0x6a, 0x73, 0x50, 0x4b, 0x03, 0x04,
  0x14, 0x00, 0x00, 0x00, 0x00, 0x00, 0x00, 0x00, 0x21, 0x00, 0x00, 0x00, 0x00, 0x00, 0x00, 0x00, 0x00, 0x00, 0x00,
  0x00, 0x00, 0x00, 0x07, 0x00, 0x00, 0x00, 0x2f, 0x2e, 0x2f, 0x61, 0x2e, 0x6a, 0x73, 0x50, 0x4b, 0x01, 0x02, 0x14,
  0x03, 0x14, 0x00, 0x00, 0x00, 0x00, 0x00, 0x00, 0x00, 0x21, 0x00, 0x00, 0x00, 0x00, 0x00, 0x00, 0x00, 0x00, 0x00,
  0x00, 0x00, 0x00, 0x00, 0x04, 0x00, 0x00, 0x00, 0x00, 0x00, 0x00, 0x00, 0x00, 0x00, 0x00, 0x00, 0x80, 0x01, 0x00,
  0x00, 0x00, 0x00, 0x61, 0x2e, 0x6a, 0x73, 0x50, 0x4b, 0x01, 0x02, 0x14, 0x03, 0x14, 0x00, 0x00, 0x00, 0x00, 0x00,
  0x00, 0x00, 0x21, 0x00, 0x00, 0x00, 0x00, 0x00, 0x00, 0x00, 0x00, 0x00, 0x00, 0x00, 0x00, 0x00, 0x07, 0x00, 0x00,
  0x00, 0x00, 0x00, 0x00, 0x00, 0x00, 0x00, 0x00, 0x00, 0x80, 0x01, 0x22, 0x00, 0x00, 0x00, 0x2f, 0x2e, 0x2f, 0x61,
  0x2e, 0x6a, 0x73, 0x50, 0x4b, 0x05, 0x06, 0x00, 0x00, 0x00, 0x00, 0x02, 0x00, 0x02, 0x00, 0x67, 0x00, 0x00, 0x00,
  0x47, 0x00, 0x00, 0x00, 0x00, 0x00]⟩

theorem rawFiles_twiceArchive : rawFiles twiceArchive = .ok [⟨"a.js", []⟩, ⟨"/./a.js", []⟩] := by decide +kernel

theorem load_plain_iff_sample :
    load .default twiceArchive none = .ok [⟨"a.js", ""⟩, ⟨"./a.js", ""⟩] ∧ KeepsPrefix none "/./a.js".toList ∧
      ¬ KeepsPrefix none "a.js".toList := by
  have hload : load .default twiceArchive none = .ok [⟨"a.js", ""⟩, ⟨"./a.js", ""⟩] := by
    rw [load, rawFiles_twiceArchive]
    decide +kernel
  obtain ⟨files, hfiles, hkeeps, -⟩ := load_plain_iff hload
  obtain rfl := Except.ok.inj (rawFiles_twiceArchive.symm.trans hfiles)
  have hroot : rootFor none [⟨"a.js", []⟩, ⟨"/./a.js", []⟩] = none := by decide +kernel
  rw [hroot] at hkeeps
  obtain ⟨e, -, hpath, hiff⟩ := hkeeps ⟨"/./a.js", []⟩ (by simp) (by decide +kernel)
  obtain ⟨e', -, hpath', hiff'⟩ := hkeeps ⟨"a.js", []⟩ (by simp) (by decide +kernel)
  rw [hpath] at hiff
  rw [hpath'] at hiff'
  exact ⟨hload, by_contra fun hnone => absurd (hiff.2 hnone) (by decide +kernel), hiff'.1 (by decide +kernel)⟩

end FileGraph.Archive
