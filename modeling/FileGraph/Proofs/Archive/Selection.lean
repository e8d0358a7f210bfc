import FileGraph.Archive.Selection
/-!
# Selection — which files are taken

The root depends on the names only, in any order (`discoverRoot_perm`), and so does which files are taken: the
admissible ones that have no file with the same path before them (`mem_map_path_select`).  So the paths of the files
that are analysed are distinct; what a file holds shows in its own entry, if it is taken at all (`select_around`); and
if no two admissible files have the same path, then all of them are taken (`select_eq_filter`).
-/
namespace FileGraph.Archive

/-- The selected paths are distinct, and none of them was seen before. -/
theorem nodup_select (settings : Settings) (root : Option String) : ∀ (seen : List String) (files : List RawFile),
    ((select settings root seen files).map (·.path)).Nodup ∧
      ∀ e ∈ select settings root seen files, e.path ∉ seen
  | _, [] => ⟨.nil, fun _ h => by cases h⟩
  | seen, f :: fs => by
    rw [select]
    by_cases h : (isAdmissible settings (stripRoot root f.name) && !seen.contains (stripRoot root f.name)) = true
    · obtain ⟨ihnodup, ihseen⟩ := nodup_select settings root (stripRoot root f.name :: seen) fs
      have hnew : stripRoot root f.name ∉ seen := by
        rw [Bool.and_eq_true, Bool.not_eq_true'] at h
        simpa using h.2
      rw [if_pos h]
      refine ⟨?_, fun e he => ?_⟩
      · rw [List.map_cons, List.nodup_cons]
        refine ⟨fun hmem => ?_, ihnodup⟩
        obtain ⟨e, he, heq⟩ := List.mem_map.1 hmem
        exact ihseen e he (heq ▸ List.mem_cons_self)
      · rcases List.mem_cons.1 he with rfl | he
        · exact hnew
        · exact fun hmem => ihseen e he (List.mem_cons_of_mem _ hmem)
    · rw [if_neg h]
      exact nodup_select settings root seen fs

theorem select_eq_of_entriesOf {settings : Settings} {root : Option String} {files : List RawFile}
    {entries : List Entry} (h : entriesOf settings root files = .ok entries) :
    select settings (rootFor root files) [] files = entries := by
  rw [entriesOf] at h
  split at h
  · cases h
  · exact Except.ok.inj h

theorem nodup_entriesOf {settings : Settings} {root : Option String} {files : List RawFile} {entries : List Entry}
    (h : entriesOf settings root files = .ok entries) : (entries.map (·.path)).Nodup := by
  rw [← select_eq_of_entriesOf h]
  exact (nodup_select settings (rootFor root files) [] files).1

theorem entriesOf_of_load {settings : Settings} {root : Option String} {data : ByteArray} {entries : List Entry}
    (h : load settings data root = .ok entries) :
    ∃ files, rawFiles data = .ok files ∧ entriesOf settings root files = .ok entries := by
  rw [load] at h
  cases hraw : rawFiles data with
  | error f =>
    rw [hraw] at h
    cases h
  | ok files =>
    rw [hraw] at h
    exact ⟨files, rfl, h⟩

def entryOf (root : Option String) (f : RawFile) : Entry := ⟨stripRoot root f.name, .ofList (Text.decodeLossy f.bytes)⟩

theorem select_cons_of_taken {settings : Settings} {root : Option String} {seen : List String} {f : RawFile}
    (fs : List RawFile) (h : isAdmissible settings (stripRoot root f.name) = true) (hnew : stripRoot root f.name ∉ seen) :
    select settings root seen (f :: fs) =
      entryOf root f :: select settings root (stripRoot root f.name :: seen) fs := by
  have htaken : (isAdmissible settings (stripRoot root f.name) && !seen.contains (stripRoot root f.name)) = true := by
    simp [h, hnew]
  rw [select, if_pos htaken, entryOf]

theorem select_cons_of_not_taken {settings : Settings} {root : Option String} {seen : List String} {f : RawFile}
    (fs : List RawFile)
    (h : ¬ (isAdmissible settings (stripRoot root f.name) = true ∧ stripRoot root f.name ∉ seen)) :
    select settings root seen (f :: fs) = select settings root seen fs := by
  have hskipped : ¬ (isAdmissible settings (stripRoot root f.name) && !seen.contains (stripRoot root f.name)) = true := by
    simpa using h
  rw [select, if_neg hskipped]

/-- **The paths that are taken** are the admissible ones of the files that were not seen before. -/
theorem mem_map_path_select (settings : Settings) (root : Option String) (path : String) :
    ∀ (seen : List String) (files : List RawFile),
      path ∈ (select settings root seen files).map (·.path) ↔
        isAdmissible settings path = true ∧ path ∉ seen ∧ path ∈ files.map fun f => stripRoot root f.name
  | _, [] => by simp [select]
  | seen, f :: fs => by
    by_cases h : isAdmissible settings (stripRoot root f.name) = true ∧ stripRoot root f.name ∉ seen
    · -- a file of the rest with the same path is not taken, but its path is
      have ih := mem_map_path_select settings root path (stripRoot root f.name :: seen) fs
      rw [select_cons_of_taken fs h.1 h.2, List.map_cons, List.mem_cons, ih, List.map_cons, List.mem_cons]
      by_cases hpath : path = stripRoot root f.name
      · subst hpath
        simp [entryOf, h]
      · simp [entryOf, hpath]
    · rw [select_cons_of_not_taken fs h, mem_map_path_select settings root path seen fs, List.map_cons, List.mem_cons]
      constructor
      · rintro ⟨hadmissible, hseen, hmem⟩
        exact ⟨hadmissible, hseen, .inr hmem⟩
      · rintro ⟨hadmissible, hseen, rfl | hmem⟩
        · exact absurd ⟨hadmissible, hseen⟩ h
        · exact ⟨hadmissible, hseen, hmem⟩

/-! ## What one file holds -/

theorem select_append (settings : Settings) (root : Option String) : ∀ (seen : List String) (xs ys : List RawFile),
    select settings root seen (xs ++ ys) =
      select settings root seen xs ++
        select settings root (((select settings root seen xs).map (·.path)).reverse ++ seen) ys
  | _, [], _ => rfl
  | seen, f :: fs, ys => by
    rw [List.cons_append]
    by_cases h : isAdmissible settings (stripRoot root f.name) = true ∧ stripRoot root f.name ∉ seen
    · rw [select_cons_of_taken _ h.1 h.2, select_cons_of_taken _ h.1 h.2, select_append settings root _ fs ys,
        List.map_cons, List.reverse_cons, List.append_assoc]
      rfl
    · rw [select_cons_of_not_taken _ h, select_cons_of_not_taken _ h, select_append settings root seen fs ys]

/-- The path under which a file is taken that comes after others, if it is taken. -/
def takenPath? (settings : Settings) (root : Option String) (before : List RawFile) (name : String) : Option String :=
  if isAdmissible settings (stripRoot root name) ∧ stripRoot root name ∉ before.map fun f => stripRoot root f.name then
    some (stripRoot root name)
  else none

/-- **What a file holds shows in its own entry only**: whatever it is, the other entries are the same. -/
theorem select_around (settings : Settings) (root : Option String) (before after : List RawFile) (name : String) :
    ∃ xs ys, ∀ bytes, select settings root [] (before ++ ⟨name, bytes⟩ :: after) =
      xs ++ ((takenPath? settings root before name).toList.map fun path => ⟨path, .ofList (Text.decodeLossy bytes)⟩) ++ ys := by
  -- the paths before the file say whether it is taken; they and its own path say which files after it are
  obtain ⟨seen, heq⟩ : ∃ seen, seen = ((select settings root [] before).map (·.path)).reverse := ⟨_, rfl⟩
  have hsplit : ∀ bytes, select settings root [] (before ++ ⟨name, bytes⟩ :: after) =
      select settings root [] before ++ select settings root seen (⟨name, bytes⟩ :: after) := by
    intro bytes
    rw [select_append, List.append_nil, heq]
  have hseen : ∀ path, path ∈ seen ↔
      isAdmissible settings path = true ∧ path ∈ before.map fun f => stripRoot root f.name := by
    intro path
    rw [heq, List.mem_reverse, mem_map_path_select]
    simp
  by_cases h : isAdmissible settings (stripRoot root name) = true ∧
      stripRoot root name ∉ before.map fun f => stripRoot root f.name
  · have hnew : stripRoot root name ∉ seen := fun hmem => h.2 ((hseen _).1 hmem).2
    refine ⟨select settings root [] before, select settings root (stripRoot root name :: seen) after, fun bytes => ?_⟩
    have htaken := select_cons_of_taken (f := ⟨name, bytes⟩) after h.1 hnew
    rw [hsplit, htaken, takenPath?, if_pos h, List.append_assoc]
    rfl
  · refine ⟨select settings root [] before, select settings root seen after, fun bytes => ?_⟩
    have hskipped := select_cons_of_not_taken (f := ⟨name, bytes⟩) after fun ht =>
      h ⟨ht.1, fun hmem => ht.2 ((hseen _).2 ⟨ht.1, hmem⟩)⟩
    rw [hsplit, hskipped, takenPath?, if_neg h, Option.toList_none, List.map_nil, List.append_nil]

/-- Lists of which equally many files are selected both have nothing to analyse, or both have something. -/
theorem entriesOf_cases {settings : Settings} {root : Option String} {files files' : List RawFile}
    {es es' : List Entry} (h : select settings (rootFor root files) [] files = es)
    (h' : select settings (rootFor root files') [] files' = es') (hlength : es.length = es'.length) :
    (entriesOf settings root files = .error .empty ∧ entriesOf settings root files' = .error .empty) ∨
      (entriesOf settings root files = .ok es ∧ entriesOf settings root files' = .ok es') := by
  rw [entriesOf, entriesOf, h, h']
  cases es with
  | nil =>
    cases es' with
    | nil => exact .inl ⟨rfl, rfl⟩
    | cons e' es' => cases hlength
  | cons e es =>
    cases es' with
    | nil => cases hlength
    | cons e' es' => exact .inr ⟨rfl, rfl⟩

theorem rootFor_congr (root : Option String) {files files' : List RawFile}
    (h : files.map (·.name) = files'.map (·.name)) : rootFor root files = rootFor root files' := by
  simp only [rootFor, h]

/-- **Files that differ in what one of them holds** have the same paths, and the same entries but for its own. -/
theorem entriesOf_around (settings : Settings) (root : Option String) (before after : List RawFile) (name : String)
    (bytes bytes' : List UInt8) :
    let files := before ++ ⟨name, bytes⟩ :: after
    let files' := before ++ ⟨name, bytes'⟩ :: after
    (entriesOf settings root files = .error .empty ∧ entriesOf settings root files' = .error .empty) ∨
      ∃ es es', entriesOf settings root files = .ok es ∧ entriesOf settings root files' = .ok es' ∧
        es.map (·.path) = es'.map (·.path) ∧
        ∀ i : Nat, (es.map (·.path))[i]? ≠ takenPath? settings (rootFor root files) before name → es[i]? = es'[i]? := by
  intro files files'
  have hroot : rootFor root files' = rootFor root files := rootFor_congr root (by simp [files, files'])
  obtain ⟨xs, ys, hselect⟩ := select_around settings (rootFor root files) before after name
  have hpaths : (select settings (rootFor root files) [] files).map (·.path) =
      (select settings (rootFor root files) [] files').map (·.path) := by
    simp [files, files', hselect, Function.comp_def]
  have hlength := congrArg List.length hpaths
  rw [List.length_map, List.length_map] at hlength
  have hselect' : select settings (rootFor root files') [] files' = select settings (rootFor root files) [] files' := by
    rw [hroot]
  rcases entriesOf_cases rfl hselect' hlength with herror | ⟨hok, hok'⟩
  · exact .inl herror
  · refine .inr ⟨_, _, hok, hok', hpaths, fun i hi => ?_⟩
    rw [hselect bytes] at hi ⊢
    rw [hselect bytes']
    cases hown : takenPath? settings (rootFor root files) before name with
    | none => rfl
    | some path =>
      rw [hown] at hi
      have hset : ∀ a b : Entry, xs ++ [b] ++ ys = (xs ++ [a] ++ ys).set xs.length b := by simp
      have hne : xs.length ≠ i := by
        rintro rfl
        simp at hi
      simp only [Option.toList_some, List.map_cons, List.map_nil]
      rw [hset ⟨path, .ofList (Text.decodeLossy bytes)⟩ ⟨path, .ofList (Text.decodeLossy bytes')⟩,
        List.getElem?_set_ne hne]

/-! ## Any order -/

theorem discoverRoot_eq_some_iff {names : List String} {root : String} :
    discoverRoot names = some root ↔ names ≠ [] ∧ ∀ n ∈ names, rootOf? n.toList = some root.toList := by
  cases names with
  | nil => simp [discoverRoot]
  | cons name others =>
    simp only [discoverRoot]
    cases hfirst : rootOf? name.toList with
    | none => simp [hfirst]
    | some first =>
      simp only [List.mem_cons, forall_eq_or_imp, hfirst, Option.some.injEq]
      by_cases hall : (others.all fun n => rootOf? n.toList == some first) = true
      · rw [if_pos hall, Option.some.injEq]
        simp only [List.all_eq_true, beq_iff_eq] at hall
        constructor
        · rintro rfl
          rw [String.toList_ofList]
          exact ⟨List.cons_ne_nil _ _, rfl, hall⟩
        · rintro ⟨-, hroot, -⟩
          rw [hroot, String.ofList_toList]
      · rw [if_neg hall]
        simp only [List.all_eq_true, beq_iff_eq] at hall
        constructor
        · intro h
          cases h
        · rintro ⟨-, rfl, hothers⟩
          exact absurd hothers hall

/-- **The root that is discovered does not depend on the order of the files.** -/
theorem discoverRoot_perm {names names' : List String} (h : names.Perm names') :
    discoverRoot names = discoverRoot names' := by
  have hne : names ≠ [] ↔ names' ≠ [] := by
    rw [← List.length_pos_iff, h.length_eq, List.length_pos_iff]
  refine Option.ext fun root => ?_
  rw [discoverRoot_eq_some_iff, discoverRoot_eq_some_iff, hne]
  simp only [h.mem_iff]

theorem rootFor_perm (root : Option String) {files files' : List RawFile} (h : files.Perm files') :
    rootFor root files = rootFor root files' := by
  cases root with
  | some root => rfl
  | none => exact discoverRoot_perm (h.map _)

/-- **All admissible files are taken** if no two of them have the same path. -/
theorem select_eq_filter (settings : Settings) (root : Option String) : ∀ (seen : List String) (files : List RawFile),
    ((files.map fun f => stripRoot root f.name).filter (isAdmissible settings)).Nodup →
      (∀ f ∈ files, stripRoot root f.name ∉ seen) →
        select settings root seen files =
          (files.filter fun f => isAdmissible settings (stripRoot root f.name)).map (entryOf root)
  | _, [], _, _ => rfl
  | seen, f :: fs, hnodup, hseen => by
    have hnew : stripRoot root f.name ∉ seen := hseen f List.mem_cons_self
    have hrest : ∀ g ∈ fs, stripRoot root g.name ∉ seen := fun g hg => hseen g (List.mem_cons_of_mem _ hg)
    rw [List.map_cons] at hnodup
    by_cases h : isAdmissible settings (stripRoot root f.name) = true
    · rw [List.filter_cons_of_pos h, List.nodup_cons, List.mem_filter] at hnodup
      -- a file of the rest with the same path would be admissible too
      have hothers : ∀ g ∈ fs, stripRoot root g.name ∉ stripRoot root f.name :: seen := by
        intro g hg hmem
        rcases List.mem_cons.1 hmem with hsame | hmem
        · exact hnodup.1 ⟨List.mem_map.2 ⟨g, hg, hsame⟩, h⟩
        · exact hrest g hg hmem
      rw [select_cons_of_taken fs h hnew, select_eq_filter settings root _ fs hnodup.2 hothers,
        List.filter_cons, if_pos h, List.map_cons]
    · rw [List.filter_cons_of_neg h] at hnodup
      rw [select_cons_of_not_taken fs fun ht => h ht.1, select_eq_filter settings root seen fs hnodup hrest,
        List.filter_cons, if_neg h]

/-- **Files in any order** give the same entries in some order, if no two admissible ones have the same path. -/
theorem entriesOf_perm {settings : Settings} {root : Option String} {files files' : List RawFile}
    (h : files.Perm files')
    (hnodup : ((files.map fun f => stripRoot (rootFor root files) f.name).filter (isAdmissible settings)).Nodup) :
    (entriesOf settings root files = .error .empty ∧ entriesOf settings root files' = .error .empty) ∨
      ∃ es es', entriesOf settings root files = .ok es ∧ entriesOf settings root files' = .ok es' ∧ es.Perm es' := by
  have hroot := rootFor_perm root h
  have hpaths := (h.map fun f => stripRoot (rootFor root files) f.name).filter (isAdmissible settings)
  have hselect : select settings (rootFor root files) [] files =
      (files.filter fun f => isAdmissible settings (stripRoot (rootFor root files) f.name)).map
        (entryOf (rootFor root files)) :=
    select_eq_filter settings _ [] files hnodup fun f _ hmem => by cases hmem
  have hselect' : select settings (rootFor root files') [] files' =
      (files'.filter fun f => isAdmissible settings (stripRoot (rootFor root files) f.name)).map
        (entryOf (rootFor root files)) := by
    rw [← hroot]
    exact select_eq_filter settings _ [] files' (hpaths.nodup_iff.1 hnodup) fun f _ hmem => by cases hmem
  have hperm := (h.filter fun f => isAdmissible settings (stripRoot (rootFor root files) f.name)).map
    (entryOf (rootFor root files))
  rcases entriesOf_cases hselect hselect' hperm.length_eq with herror | ⟨hok, hok'⟩
  · exact .inl herror
  · exact .inr ⟨_, _, hok, hok', hperm⟩

end FileGraph.Archive
