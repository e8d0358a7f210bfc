import FileGraph.Proofs.Archive.Selection
import FileGraph.Proofs.Text.Lines
import Mathlib.Data.List.Basic
/-!
# Roots — the folder that all files lie in

A name is `./` some times, `/` some times and then what counts of it (`IsRelative`), and all of a root that is given
counts but the `/` at its ends (`IsGiven`).  The root that is discovered is the one folder with which all names begin
and after which each of them goes on (`SharedRoot`).  Stripping it leaves what goes on, and giving it changes nothing
(`discoverRoot_exact`).
-/
namespace FileGraph.Archive

open Text

/-! ## Relative names -/

/-- A name begins with any number of `./` and then of `/`, and the rest of it with neither. -/
def IsRelative (name rest : List Char) : Prop :=
  ∃ dots slashes : Nat,
    name = (List.replicate dots ['.', '/']).flatten ++ (List.replicate slashes '/' ++ rest) ∧
      rest.head? ≠ some '/' ∧ (slashes = 0 → ¬ ['.', '/'] <+: rest)

theorem dropDotFolders_append (cs : List Char) : ∀ (dots : Nat),
    dropDotFolders ((List.replicate dots ['.', '/']).flatten ++ cs) = dropDotFolders cs
  | 0 => rfl
  | dots + 1 => by
    rw [List.replicate_succ, List.flatten_cons, List.append_assoc]
    exact dropDotFolders_append cs dots

theorem dropDotFolders_eq_self {cs : List Char} (h : ¬ ['.', '/'] <+: cs) : dropDotFolders cs = cs := by
  unfold dropDotFolders
  split
  · exact absurd (List.prefix_append ['.', '/'] _) h
  · rfl

theorem exists_dropDotFolders (name : List Char) :
    ¬ ['.', '/'] <+: dropDotFolders name ∧
      ∃ dots, name = (List.replicate dots ['.', '/']).flatten ++ dropDotFolders name := by
  fun_induction dropDotFolders name with
  | case1 cs ih =>
    obtain ⟨hno, dots, heq⟩ := ih
    refine ⟨hno, dots + 1, ?_⟩
    rw [List.replicate_succ, List.flatten_cons, List.append_assoc, ← heq]
    rfl
  | case2 cs hcs =>
    refine ⟨?_, 0, rfl⟩
    rintro ⟨rest, rfl⟩
    exact hcs rest rfl

theorem dropWhile_replicate_append {x : Char} {cs : List Char} (h : cs.head? ≠ some x) (n : Nat) :
    (List.replicate n x ++ cs).dropWhile (· == x) = cs := by
  rw [List.dropWhile_append_of_pos (by simp)]
  cases cs with
  | nil => rfl
  | cons c cs =>
    have hne : c ≠ x := fun heq => h (congrArg some heq)
    simp [hne]

theorem exists_dropWhile (x : Char) (cs : List Char) :
    (cs.dropWhile (· == x)).head? ≠ some x ∧ ∃ n, cs = List.replicate n x ++ cs.dropWhile (· == x) := by
  refine ⟨fun hhead => ?_, (cs.takeWhile (· == x)).length, ?_⟩
  · have hstop := List.head?_dropWhile_not (· == x) cs
    rw [hhead] at hstop
    simp at hstop
  · have hall : cs.takeWhile (· == x) = List.replicate (cs.takeWhile (· == x)).length x :=
      List.eq_replicate_iff.2 ⟨rfl, fun c hc => by simpa using List.all_eq_true.1 List.all_takeWhile c hc⟩
    rw [← hall, List.takeWhile_append_dropWhile]

/-- **What counts of a name** is what is left without its `./` and its `/`. -/
theorem isRelative_iff {name rest : List Char} : IsRelative name rest ↔ relativeName name = rest := by
  constructor
  · rintro ⟨dots, slashes, rfl, hhead, hprefix⟩
    have hno : ¬ ['.', '/'] <+: List.replicate slashes '/' ++ rest := by
      cases slashes with
      | zero => exact hprefix rfl
      | succ slashes => simp [List.replicate_succ]
    rw [relativeName, dropDotFolders_append, dropDotFolders_eq_self hno, dropWhile_replicate_append hhead]
  · rintro rfl
    obtain ⟨hno, dots, hname⟩ := exists_dropDotFolders name
    obtain ⟨hhead, slashes, hrest⟩ := exists_dropWhile '/' (dropDotFolders name)
    refine ⟨dots, slashes, ?_, hhead, ?_⟩
    · rw [relativeName, ← hrest]
      exact hname
    · rintro rfl
      rw [relativeName, ← List.nil_append (List.dropWhile _ _)]
      exact hrest ▸ hno

/-! ## Roots that are given -/

/-- A root without the `/` at its ends, if anything is left of it. -/
def IsGiven (given root : String) : Prop :=
  root ≠ "" ∧ root.toList.head? ≠ some '/' ∧ root.toList.getLast? ≠ some '/' ∧
    ∃ before after : Nat, given.toList = List.replicate before '/' ++ (root.toList ++ List.replicate after '/')

theorem dropEndWhile_dropWhile_iff {x : Char} {cs rest : List Char} (hne : rest ≠ []) :
    dropEndWhile (· == x) (cs.dropWhile (· == x)) = rest ↔
      rest.head? ≠ some x ∧ rest.getLast? ≠ some x ∧
        ∃ before after : Nat, cs = List.replicate before x ++ (rest ++ List.replicate after x) := by
  constructor
  · rintro rfl
    obtain ⟨hhead, before, hcs⟩ := exists_dropWhile x cs
    obtain ⟨hlast, after, hrest⟩ := exists_dropWhile x (cs.dropWhile (· == x)).reverse
    have hends : cs.dropWhile (· == x) = dropEndWhile (· == x) (cs.dropWhile (· == x)) ++ List.replicate after x := by
      rw [List.reverse_eq_iff, List.reverse_append, List.reverse_replicate] at hrest
      exact hrest
    refine ⟨fun hfirst => hhead ?_, ?_, before, after, ?_⟩
    · rw [hends, List.head?_append, hfirst]
      rfl
    · rw [dropEndWhile, List.getLast?_reverse]
      exact hlast
    · rw [← hends]
      exact hcs
  · rintro ⟨hhead, hlast, before, after, rfl⟩
    have hhead' : (rest ++ List.replicate after x).head? ≠ some x := by
      obtain ⟨c, cs, rfl⟩ := List.exists_cons_of_ne_nil hne
      exact hhead
    have hlast' : rest.reverse.head? ≠ some x := by rwa [List.head?_reverse]
    rw [dropWhile_replicate_append hhead', dropEndWhile, List.reverse_append, List.reverse_replicate,
      dropWhile_replicate_append hlast', List.reverse_reverse]

theorem givenRoot_eq_some_iff {given root : String} : givenRoot given = some root ↔ IsGiven given root := by
  have hempty : root.toList = [] ↔ root = "" := by simp
  unfold givenRoot
  constructor
  · intro h
    split at h
    · cases h
    · rename_i c cs htrim
      obtain rfl := Option.some.inj h
      rw [IsGiven, String.toList_ofList]
      exact ⟨by simp, (dropEndWhile_dropWhile_iff (List.cons_ne_nil c cs)).1 htrim⟩
  · rintro ⟨hne, htrim⟩
    have hroot : root.toList ≠ [] := mt hempty.1 hne
    rw [(dropEndWhile_dropWhile_iff hroot).2 htrim]
    split
    · rename_i hnil
      exact absurd hnil hroot
    · rename_i c cs hcons
      rw [← hcons, String.ofList_toList]

/-! ## Paths -/

/-- The path of a name: what follows the root and a `/`, or all that counts of the name if it does not begin so. -/
inductive IsPath (root : Option String) (name path : List Char) : Prop
  | inside (r : String) (hroot : root = some r) (h : IsRelative name (r.toList ++ '/' :: path))
  | whole (h : IsRelative name path) (hout : ∀ r, root = some r → ¬ r.toList ++ ['/'] <+: path)

theorem stripRoot_inside {root name : String} {path : List Char}
    (h : IsRelative name.toList (root.toList ++ '/' :: path)) : stripRoot (some root) name = .ofList path := by
  have hstart : dropStart? root.toList (relativeName name.toList) = some ('/' :: path) :=
    dropStart?_eq_some_iff.2 (isRelative_iff.1 h)
  have hslash : dropStart? ['/'] ('/' :: path) = some path := dropStart?_eq_some_iff.2 rfl
  simp only [stripRoot, hstart, Option.bind_some, hslash]

theorem stripRoot_whole {root : Option String} {name : String} {path : List Char} (h : IsRelative name.toList path)
    (hout : ∀ r, root = some r → ¬ r.toList ++ ['/'] <+: path) : stripRoot root name = .ofList path := by
  rw [isRelative_iff] at h
  cases root with
  | none => rw [stripRoot, h]
  | some root =>
    simp only [stripRoot, h]
    split
    · rename_i rest hstrip
      obtain ⟨tail, htail, hrest⟩ := Option.bind_eq_some_iff.1 hstrip
      rw [dropStart?_eq_some_iff] at htail hrest
      exact absurd ⟨rest, by rw [htail, hrest, List.append_assoc]⟩ (hout root rfl)
    · rfl

/-- **The path of a name**, with or without a root, is what stripping leaves. -/
theorem isPath_iff {root : Option String} {name path : String} :
    IsPath root name.toList path.toList ↔ stripRoot root name = path := by
  constructor
  · rintro (⟨r, rfl, h⟩ | ⟨h, hout⟩)
    · rw [stripRoot_inside h, String.ofList_toList]
    · rw [stripRoot_whole h hout, String.ofList_toList]
  · rintro rfl
    have hrelative : IsRelative name.toList (relativeName name.toList) := isRelative_iff.2 rfl
    by_cases hin : ∃ r, root = some r ∧ r.toList ++ ['/'] <+: relativeName name.toList
    · obtain ⟨r, rfl, rest, hrest⟩ := hin
      rw [← hrest, List.append_assoc] at hrelative
      rw [stripRoot_inside hrelative, String.toList_ofList]
      exact .inside r rfl hrelative
    · have hout : ∀ r, root = some r → ¬ r.toList ++ ['/'] <+: relativeName name.toList :=
        fun r hroot hprefix => hin ⟨r, hroot, hprefix⟩
      rw [stripRoot_whole hrelative hout, String.toList_ofList]
      exact .whole hrelative hout

/-! ## Roots that are discovered -/

/-- A folder that all names share: there are names, and each of them is the folder, a `/` and something more. -/
structure SharedRoot (names : List String) (root : String) : Prop where
  names_ne : names ≠ []
  root_ne  : root ≠ ""
  folder   : '/' ∉ root.toList
  within   : ∀ x ∈ names, ∃ rest, rest ≠ [] ∧ IsRelative x.toList (root.toList ++ '/' :: rest)

theorem rootOf?_eq_some_iff {name root : List Char} :
    rootOf? name = some root ↔
      root ≠ [] ∧ '/' ∉ root ∧ ∃ rest, rest ≠ [] ∧ IsRelative name (root ++ '/' :: rest) := by
  simp only [isRelative_iff]
  constructor
  · intro h
    unfold rootOf? at h
    split at h
    · rename_i c cs d ds hcut
      obtain ⟨hname, hslash⟩ := eq_of_cut? hcut
      obtain rfl := Option.some.inj h
      exact ⟨List.cons_ne_nil _ _, hslash, d :: ds, List.cons_ne_nil _ _, hname⟩
    · cases h
  · rintro ⟨hroot, hslash, rest, hrest, hname⟩
    obtain ⟨c, cs, rfl⟩ := List.exists_cons_of_ne_nil hroot
    obtain ⟨d, ds, rfl⟩ := List.exists_cons_of_ne_nil hrest
    rw [rootOf?, hname, cut?_append hslash]

theorem discoverRoot_eq_some_iff_sharedRoot {names : List String} {root : String} :
    discoverRoot names = some root ↔ SharedRoot names root := by
  simp only [discoverRoot_eq_some_iff, rootOf?_eq_some_iff]
  constructor
  · rintro ⟨hnames, hall⟩
    obtain ⟨x, hx⟩ := List.exists_mem_of_ne_nil names hnames
    obtain ⟨hroot, hslash, -⟩ := hall x hx
    exact ⟨hnames, fun h => hroot (by simp [h]), hslash, fun y hy => (hall y hy).2.2⟩
  · rintro ⟨hnames, hroot, hslash, hwithin⟩
    exact ⟨hnames, fun x hx => ⟨by simpa using hroot, hslash, hwithin x hx⟩⟩

theorem SharedRoot.givenRoot_eq {names : List String} {root : String} (h : SharedRoot names root) :
    givenRoot root = some root := by
  refine givenRoot_eq_some_iff.2 ⟨h.root_ne, fun hhead => h.folder ?_, fun hlast => h.folder ?_, 0, 0, by simp⟩
  · exact List.mem_of_head? hhead
  · exact List.mem_of_getLast? hlast

/-- **The root is discovered exactly**: it is the one folder that all names share, if there is one, whatever the order
of the names.  Stripping it leaves of each name exactly what follows it, and giving it to load an archive is as good as
having it discovered. -/
theorem discoverRoot_exact (names : List String) :
    (∀ root, discoverRoot names = some root ↔ SharedRoot names root) ∧
      (discoverRoot names = none ↔ ∀ root, ¬ SharedRoot names root) ∧
      (∀ names', names.Perm names' → discoverRoot names' = discoverRoot names) ∧
      ∀ root, discoverRoot names = some root →
        (∀ x ∈ names, ∃ rest, rest ≠ [] ∧ IsRelative x.toList (root.toList ++ '/' :: rest) ∧
          stripRoot (some root) x = .ofList rest) ∧
        ∀ (settings : Settings) (files : List RawFile), files.map (·.name) = names →
          entriesOf settings (some root) files = entriesOf settings none files ∧
            ∀ data, rawFiles data = .ok files → load settings data (some root) = load settings data none := by
  refine ⟨fun root => discoverRoot_eq_some_iff_sharedRoot, ?_, fun names' h => (discoverRoot_perm h).symm,
    fun root hroot => ⟨fun x hx => ?_, fun settings files hfiles => ?_⟩⟩
  · rw [Option.eq_none_iff_forall_ne_some]
    exact forall_congr' fun root => not_congr discoverRoot_eq_some_iff_sharedRoot
  · obtain ⟨rest, hrest, hname⟩ := (discoverRoot_eq_some_iff_sharedRoot.1 hroot).within x hx
    exact ⟨rest, hrest, hname, stripRoot_inside hname⟩
  · have hgiven : rootFor (some root) files = some root :=
      (discoverRoot_eq_some_iff_sharedRoot.1 hroot).givenRoot_eq
    have hdiscovered : rootFor none files = some root := by rw [rootFor, hfiles, hroot]
    have hentries : entriesOf settings (some root) files = entriesOf settings none files := by
      rw [entriesOf, entriesOf, hgiven, hdiscovered]
    refine ⟨hentries, fun data hdata => ?_⟩
    rw [load, load, hdata]
    exact hentries

/-- Names in one folder, in several spellings. -/
def sampleNames : List String := ["repo/src/a.ts", "./repo/b.ts", "/repo//c.ts"]

/-- An archive of one empty file, `repo/a.ts`. -/
def folderArchive : ByteArray := ⟨#[
  0x50, 0x4b, 0x03, 0x04, 0x14, 0x00, 0x00, 0x00, 0x00, 0x00, 0x00, 0x00, 0x21, 0x00, 0x00, 0x00, 0x00, 0x00, 0x00,
  0x00, 0x00, 0x00, 0x00, 0x00, 0x00, 0x00, 0x09, 0x00, 0x00, 0x00, 0x72, 0x65, 0x70, 0x6f, 0x2f, 0x61, 0x2e, 0x74,
  0x73, 0x50, 0x4b, 0x01, 0x02, 0x14, 0x03, 0x14, 0x00, 0x00, 0x00, 0x00, 0x00, 0x00, 0x00, 0x21, 0x00, 0x00, 0x00,
  0x00, 0x00, 0x00, 0x00, 0x00, 0x00, 0x00, 0x00, 0x00, 0x00, 0x09, 0x00, 0x00, 0x00, 0x00, 0x00, 0x00, 0x00, 0x00,
  0x00, 0x00, 0x00, 0x80, 0x01, 0x00, 0x00, 0x00, 0x00, 0x72, 0x65, 0x70, 0x6f, 0x2f, 0x61, 0x2e, 0x74, 0x73, 0x50,
  0x4b, 0x05, 0x06, 0x00, 0x00, 0x00, 0x00, 0x01, 0x00, 0x01, 0x00, 0x37, 0x00, 0x00, 0x00, 0x27, 0x00, 0x00, 0x00,
  0x00, 0x00]⟩

theorem rawFiles_folderArchive : rawFiles folderArchive = .ok [⟨"repo/a.ts", []⟩] := by decide +kernel

theorem discoverRoot_exact_sample :
    discoverRoot sampleNames = some "repo" ∧ SharedRoot sampleNames "repo" ∧
      discoverRoot sampleNames.reverse = some "repo" ∧
      entriesOf .default (some "repo") (sampleNames.map (⟨·, []⟩)) =
        entriesOf .default none (sampleNames.map (⟨·, []⟩)) ∧
      ∃ rest, IsRelative "/repo//c.ts".toList ("repo".toList ++ '/' :: rest) ∧
        stripRoot (some "repo") "/repo//c.ts" = .ofList rest ∧
        load .default folderArchive (some "repo") = load .default folderArchive none := by
  obtain ⟨hiff, -, hperm, hroot⟩ := discoverRoot_exact sampleNames
  have hdiscovered : discoverRoot sampleNames = some "repo" := by decide +kernel
  obtain ⟨hrests, hload⟩ := hroot "repo" hdiscovered
  obtain ⟨rest, -, hrest, hstrip⟩ := hrests "/repo//c.ts" (by decide)
  have hentries := (hload .default (sampleNames.map (⟨·, []⟩)) (by decide)).1
  obtain ⟨-, -, -, hfolder⟩ := discoverRoot_exact ["repo/a.ts"]
  obtain ⟨-, harchive⟩ := (hfolder "repo" (by decide +kernel)).2 .default [⟨"repo/a.ts", []⟩] rfl
  exact ⟨hdiscovered, (hiff "repo").1 hdiscovered, (hperm _ (List.reverse_perm _).symm).trans hdiscovered, hentries,
    rest, hrest, hstrip, harchive folderArchive rawFiles_folderArchive⟩

end FileGraph.Archive
