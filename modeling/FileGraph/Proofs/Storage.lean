import FileGraph.Proofs.Text.Lines
import FileGraph.Storage
/-!
# Storage — the folders of a storage are a tree

Every folder but the top one is in another (`Storage.Rooted`).  Making the folders of a path keeps that, gives a folder
that is there, and leaves every file as it was (`Rooted.makeFolders?`, `makeFolders?_keeps`); emptying a folder keeps it
too, and takes away no folders but those below it (`Rooted.emptied`, `hasFolder_emptied`).
-/
namespace FileGraph

open Text

namespace Storage

/-- There is a top folder, and every folder is in one that is there. -/
structure Rooted (s : Storage) : Prop where
  top    : s.hasFolder "" = true
  parent : ∀ folder, s.hasFolder folder = true → s.hasFolder (parent folder) = true

theorem hasFolder_insert (s : Storage) (folder other : String) (files : NameMap (List UInt8)) :
    hasFolder ⟨s.folders.insert folder files⟩ other = (other == folder || s.hasFolder other) := by
  rw [hasFolder, NameMap.contains, NameMap.get?_insert]
  by_cases h : other = folder
  · rw [if_pos h, beq_iff_eq.2 h]
    rfl
  · rw [if_neg h, beq_false_of_ne h]
    rfl

theorem read?_of_not_hasFolder {s : Storage} {folder : String} (h : s.hasFolder folder = false) (name : String) :
    s.read? folder name = none := by
  rw [hasFolder, NameMap.contains, Option.isSome_eq_false_iff, Option.isNone_iff_eq_none] at h
  rw [read?, files?, h, Option.bind_none]

theorem rooted_empty : empty.Rooted where
  top := by rw [empty, hasFolder_insert ⟨.empty⟩, beq_self_eq_true, Bool.true_or]
  parent folder h := by
    rw [empty, hasFolder_insert ⟨.empty⟩, Bool.or_eq_true, beq_iff_eq] at h
    rcases h with rfl | h
    · rfl
    · cases h

theorem slash_notMem_of_isFileName {name : String} (h : isFileName name = true) : '/' ∉ name.toList := by
  simp only [isFileName, Bool.and_eq_true, List.all_eq_true] at h
  intro hmem
  simpa using (h.1.2 '/' hmem).1

theorem child_ne_self {folder name : String} (h : name ≠ "") : child folder name ≠ folder := by
  intro heq
  rw [child] at heq
  by_cases hf : folder = ""
  · rw [if_pos hf, hf] at heq
    exact h heq
  · rw [if_neg hf] at heq
    have hlength := congrArg (fun s => s.toList.length) heq
    simp only [String.toList_append, List.length_append] at hlength
    have hslash : "/".toList.length = 1 := rfl
    omega

/-- What is in a folder under a name has that folder as its parent. -/
theorem parent_child {name : String} (h : isFileName name = true) (folder : String) :
    parent (child folder name) = folder := by
  have hslash := slash_notMem_of_isFileName h
  rw [child]
  by_cases hf : folder = ""
  · rw [if_pos hf, parent, cutLast?_eq_none.2 hslash, hf]
  · have hchars : (folder ++ "/" ++ name).toList = folder.toList ++ '/' :: name.toList := by
      rw [String.toList_append, String.toList_append, List.append_assoc]
      rfl
    rw [if_neg hf, parent, hchars, cutLast?_append hslash]
    exact String.ofList_toList

variable {s s' : Storage} {folder name : String}

/-! ## Writing -/

theorem hasFolder_write? {bytes : List UInt8} (h : s.write? folder name bytes = some s') (other : String) :
    s'.hasFolder other = s.hasFolder other := by
  rw [write?] at h
  cases hfiles : s.files? folder with
  | none => rw [hfiles] at h; cases h
  | some files =>
    simp only [hfiles] at h
    split at h
    · cases h
      rw [files?] at hfiles
      simp only [hasFolder, NameMap.contains, NameMap.get?_insert]
      by_cases hother : other = folder
      · rw [if_pos hother, hother, hfiles]
        rfl
      · rw [if_neg hother]
    · cases h

theorem Rooted.write? {bytes : List UInt8} (hs : s.Rooted) (h : s.write? folder name bytes = some s') :
    s'.Rooted where
  top := (hasFolder_write? h "").trans hs.top
  parent path hpath := by
    rw [hasFolder_write? h] at hpath ⊢
    exact hs.parent path hpath

/-- A folder that is there takes a file whose name is good and not that of a folder. -/
theorem exists_write? (hthere : s.hasFolder folder = true) (hname : isFileName name = true)
    (hfree : s.hasFolder (child folder name) = false) (bytes : List UInt8) :
    ∃ s', s.write? folder name bytes = some s' := by
  obtain ⟨files, hfiles⟩ := Option.isSome_iff_exists.1 hthere
  refine ⟨⟨s.folders.insert folder (files.insert name bytes)⟩, ?_⟩
  rw [write?, files?, hfiles]
  simp only [hname, hfree, Bool.not_false, Bool.and_self, if_true]

/-! ## Making folders -/

theorem makeFolder?_eq_some (h : s.makeFolder? folder name = some s') :
    (s.hasFolder (child folder name) = true ∧ s' = s) ∨
    (s.hasFolder (child folder name) = false ∧ isFileName name = true ∧ s.hasFolder folder = true ∧
      s' = ⟨s.folders.insert (child folder name) .empty⟩) := by
  rw [makeFolder?] at h
  cases hthere : s.hasFolder (child folder name) with
  | true =>
    rw [hthere, if_pos rfl] at h
    exact .inl ⟨rfl, (Option.some.inj h).symm⟩
  | false =>
    rw [hthere, if_neg Bool.false_ne_true] at h
    split at h
    · rename_i hgood
      rw [Bool.and_eq_true, Bool.and_eq_true] at hgood
      exact .inr ⟨rfl, hgood.1.1, hgood.2, (Option.some.inj h).symm⟩
    · cases h

theorem Rooted.makeFolder? (hs : s.Rooted) (h : s.makeFolder? folder name = some s') :
    s'.Rooted ∧ s'.hasFolder (child folder name) = true := by
  obtain ⟨hthere, rfl⟩ | ⟨-, hname, hfolder, rfl⟩ := makeFolder?_eq_some h
  · exact ⟨hs, hthere⟩
  · refine ⟨⟨?_, fun f hf => ?_⟩, ?_⟩
    · rw [hasFolder_insert, hs.top, Bool.or_true]
    · rw [hasFolder_insert, Bool.or_eq_true, beq_iff_eq] at hf
      rw [hasFolder_insert, Bool.or_eq_true]
      rcases hf with rfl | hf
      · exact .inr ((parent_child hname folder).symm ▸ hfolder)
      · exact .inr (hs.parent f hf)
    · rw [hasFolder_insert, beq_self_eq_true, Bool.true_or]

/-- **Making the folders of a path** gives a folder that is there. -/
theorem Rooted.makeFolders? : ∀ (names : List String) {s : Storage} {folder : String}, s.Rooted →
    s.hasFolder folder = true → ∀ made, s.makeFolders? folder names = some made →
      made.1.Rooted ∧ made.1.hasFolder made.2 = true
  | [], s, folder, hs, hfolder, made, h => by
    rw [Storage.makeFolders?] at h
    cases h
    exact ⟨hs, hfolder⟩
  | name :: names, s, folder, hs, hfolder, made, h => by
    rw [Storage.makeFolders?] at h
    split at h
    · exact Rooted.makeFolders? names hs (hs.parent folder hfolder) made h
    · obtain ⟨s₁, hmake, h⟩ := Option.bind_eq_some_iff.1 h
      obtain ⟨hs₁, hchild⟩ := hs.makeFolder? hmake
      exact Rooted.makeFolders? names hs₁ hchild made h

theorem hasFolder_of_makeFolder? (h : s.makeFolder? folder name = some s') {other : String}
    (hother : s.hasFolder other = true) : s'.hasFolder other = true := by
  obtain ⟨-, rfl⟩ | ⟨-, -, -, rfl⟩ := makeFolder?_eq_some h
  · exact hother
  · rw [hasFolder_insert, hother, Bool.or_true]

theorem read?_makeFolder? (h : s.makeFolder? folder name = some s') (other file : String) :
    s'.read? other file = s.read? other file := by
  obtain ⟨-, rfl⟩ | ⟨hno, -, -, rfl⟩ := makeFolder?_eq_some h
  · rfl
  · by_cases hother : other = child folder name
    · rw [hother, read?_of_not_hasFolder hno, read?, files?, NameMap.get?_insert, if_pos rfl]
      rfl
    · rw [read?, files?, NameMap.get?_insert, if_neg hother]
      rfl

/-- Making the folders of a path takes no folder away and changes no file. -/
theorem makeFolders?_keeps : ∀ (names : List String) {s : Storage} {folder : String} (made : Storage × String),
    s.makeFolders? folder names = some made → ∀ other,
      (s.hasFolder other = true → made.1.hasFolder other = true) ∧
        ∀ file, made.1.read? other file = s.read? other file
  | [], s, folder, made, h, other => by
    rw [Storage.makeFolders?] at h
    cases h
    exact ⟨id, fun _ => rfl⟩
  | name :: names, s, folder, made, h, other => by
    rw [Storage.makeFolders?] at h
    split at h
    · exact makeFolders?_keeps names made h other
    · obtain ⟨s₁, hmake, h⟩ := Option.bind_eq_some_iff.1 h
      obtain ⟨hfolders, hfiles⟩ := makeFolders?_keeps names made h other
      exact ⟨fun hother => hfolders (hasFolder_of_makeFolder? hmake hother),
        fun file => (hfiles file).trans (read?_makeFolder? hmake other file)⟩

/-- The path of what names lead to from a folder. -/
def pathTo (folder : String) (names : List String) : String := names.foldl child folder

theorem Rooted.hasFolder_of_pathTo (hs : s.Rooted) : ∀ (names : List String) {folder : String},
    (∀ name ∈ names, isFileName name = true) → s.hasFolder (pathTo folder names) = true → s.hasFolder folder = true
  | [], _, _, h => h
  | name :: names, folder, hnames, h => by
    have hchild : s.hasFolder (child folder name) = true :=
      hs.hasFolder_of_pathTo names (fun n hn => hnames n (List.mem_cons_of_mem _ hn)) h
    rw [← parent_child (hnames name List.mem_cons_self) folder]
    exact hs.parent _ hchild

/-- **A folder that is there can be opened**, and nothing is made for it. -/
theorem Rooted.makeFolders?_of_hasFolder (hs : s.Rooted) : ∀ (names : List String) {folder : String},
    (∀ name ∈ names, isFileName name = true) → s.hasFolder (pathTo folder names) = true →
      s.makeFolders? folder names = some (s, pathTo folder names)
  | [], _, _, _ => rfl
  | name :: names, folder, hnames, h => by
    have hgood := hnames name List.mem_cons_self
    have hrest : ∀ n ∈ names, isFileName n = true := fun n hn => hnames n (List.mem_cons_of_mem _ hn)
    have hdots : name ≠ ".." := by
      rintro rfl
      revert hgood
      decide
    have hchild : s.hasFolder (child folder name) = true := hs.hasFolder_of_pathTo names hrest h
    rw [Storage.makeFolders?, if_neg hdots, Storage.makeFolder?, if_pos hchild, Option.bind_some]
    exact hs.makeFolders?_of_hasFolder names hrest h

/-! ## Emptying a folder -/

/-- A path leads to something in a folder, or further down. -/
def Below (folder path : String) : Prop := ∃ rest, path.toList = folder.toList ++ '/' :: rest

theorem not_below_iff {folder path : String} :
    (dropStart? (folder.toList ++ ['/']) path.toList).isNone = true ↔ ¬ Below folder path := by
  rw [Option.isNone_iff_eq_none, Option.eq_none_iff_forall_ne_some, Below, not_exists]
  refine forall_congr' fun rest => not_congr ?_
  rw [dropStart?_eq_some_iff, List.append_assoc, List.singleton_append]

theorem hasFolder_removeFolder {other : String} :
    (s.removeFolder folder).hasFolder other = true ↔
      s.hasFolder other = true ∧ other ≠ folder ∧ ¬ Below folder other := by
  have hlookup := NameMap.lookup_filter
    (fun path => path != folder && (dropStart? (folder.toList ++ ['/']) path.toList).isNone) other s.folders.entries
  have hget : (s.removeFolder folder).folders.get? other =
      if other != folder && (dropStart? (folder.toList ++ ['/']) other.toList).isNone then s.folders.get? other
      else none := hlookup
  rw [hasFolder, NameMap.contains, hget, ← not_below_iff, ← bne_iff_ne, ← Bool.and_eq_true]
  cases hkeeps : other != folder && (dropStart? (folder.toList ++ ['/']) other.toList).isNone with
  | true => rw [if_pos rfl, and_iff_left rfl]; rfl
  | false => simp

/-- The storage with a folder in which there is nothing. -/
def emptied (s : Storage) (folder : String) : Storage := ⟨(s.removeFolder folder).folders.insert folder .empty⟩

theorem hasFolder_emptied {other : String} :
    (s.emptied folder).hasFolder other = true ↔
      other = folder ∨ s.hasFolder other = true ∧ ¬ Below folder other := by
  rw [emptied, hasFolder_insert, Bool.or_eq_true, beq_iff_eq, hasFolder_removeFolder]
  constructor
  · rintro (heq | ⟨hother, -, hbelow⟩)
    · exact .inl heq
    · exact .inr ⟨hother, hbelow⟩
  · rintro (heq | ⟨hother, hbelow⟩)
    · exact .inl heq
    · by_cases heq : other = folder
      · exact .inl heq
      · exact .inr ⟨hother, heq, hbelow⟩

theorem read?_emptied (s : Storage) (folder name : String) : (s.emptied folder).read? folder name = none := by
  rw [read?, files?, emptied, NameMap.get?_insert, if_pos rfl]
  rfl

/-- What is in something below a folder is below the folder too. -/
theorem below_of_below_parent {path : String} (h : Below folder (parent path)) : Below folder path := by
  obtain ⟨rest, hrest⟩ := h
  rw [parent] at hrest
  cases hcut : cutLast? '/' path.toList with
  | none =>
    rw [hcut] at hrest
    simp at hrest
  | some p =>
    obtain ⟨before, after⟩ := p
    rw [hcut, String.toList_ofList] at hrest
    have hbefore : before = folder.toList ++ '/' :: rest := hrest
    exact ⟨rest ++ '/' :: after, by rw [(eq_of_cutLast? hcut).1, hbefore, List.append_assoc, List.cons_append]⟩

theorem not_below_parent_self (folder : String) : ¬ Below folder (parent folder) := by
  intro h
  obtain ⟨rest, hrest⟩ := below_of_below_parent h
  have hlength := congrArg List.length hrest
  rw [List.length_append, List.length_cons] at hlength
  omega

/-- **Emptying a folder** leaves a tree. -/
theorem Rooted.emptied (hs : s.Rooted) (hfolder : s.hasFolder folder = true) : (s.emptied folder).Rooted where
  top := hasFolder_emptied.2 (.inr ⟨hs.top, fun ⟨rest, hrest⟩ => by simp at hrest⟩)
  parent path hpath := by
    rw [hasFolder_emptied] at hpath ⊢
    rcases hpath with rfl | ⟨hpath, hbelow⟩
    · exact .inr ⟨hs.parent path hfolder, not_below_parent_self path⟩
    · exact .inr ⟨hs.parent path hpath, fun h => hbelow (below_of_below_parent h)⟩

end Storage

end FileGraph
