import FileGraph.Proofs.Cache.Codec
import FileGraph.Proofs.Cache.FileName
import FileGraph.Proofs.Cache.Lookup
import FileGraph.Proofs.Storage
/-!
# Retention — what has been stored is found again

A cache that is right about its files loses none of them as long as it has room for all of them, and a folder it has
can be written (`Keeps`).  Both looking up and storing keep this; storing adds a file to those that are found.
-/
namespace FileGraph

open Source

namespace Cache

/-- A folder that takes the file of any key. -/
structure Ready (s : Storage) (folder : String) : Prop where
  there : s.hasFolder folder = true
  free  : ∀ language content, s.hasFolder (Storage.child folder (fileName (key language content))) = false

/-- A folder that is new takes the file of any key. -/
theorem ready_ofFolder {folder : String} (h : folder ≠ "") : Ready (Storage.ofFolder folder .empty) folder where
  there := by rw [Storage.hasFolder, NameMap.contains, Storage.ofFolder, NameMap.get?_insert, if_pos rfl]; rfl
  free language content := by
    have hname : fileName (key language content) ≠ "" := by
      rintro hname
      have hgood := isFileName_fileName language content
      rw [hname] at hgood
      cases hgood
    have htop : Storage.child folder (fileName (key language content)) ≠ "" := by
      rw [Storage.child, if_neg h]
      exact fun heq => h (String.append_eq_empty_iff.1 (String.append_eq_empty_iff.1 heq).1).1
    rw [Storage.hasFolder, NameMap.contains, Storage.ofFolder, NameMap.get?_insert,
      if_neg (Storage.child_ne_self hname), Storage.empty, NameMap.get?_insert, if_neg htop, NameMap.get?_empty]
    rfl

theorem Ready.write? {s : Storage} {folder : String} (h : Ready s folder) (f : Subject) (bytes : List UInt8) :
    ∃ s', s.write? folder (fileName (keyOf f)) bytes = some s' ∧ Ready s' folder := by
  obtain ⟨s', hwrite⟩ := Storage.exists_write? h.there (isFileName_fileName f.1 f.2) (h.free f.1 f.2) bytes
  refine ⟨s', hwrite, (Storage.hasFolder_write? hwrite folder).trans h.there, fun language content => ?_⟩
  exact (Storage.hasFolder_write? hwrite _).trans (h.free language content)

/-- Whether there is something for a file: in the folder if there is one, and in memory otherwise. -/
def Retains (c : Cache) (s : Storage) (f : Subject) : Prop :=
  match c.folder with
  | none => (c.memory.get? (keyOf f)).isSome
  | some folder => (kept? (some folder) s (keyOf f)).isSome

/-- A cache that is right about files, has something for those that are done and for no others, and can take all of
them. -/
structure Keeps (belongs : Subject → Analysis) (fs done : List Subject) (c : Cache) (s : Storage) : Prop where
  holds   : Holds belongs fs c s
  names   : ∀ name ∈ c.memory.names, name ∈ fs.map keyOf
  retains : ∀ f ∈ done, c.Retains s f
  found   : ∀ f ∈ fs, (c.get s (keyOf f)).1.isSome → f ∈ done
  ready   : ∀ folder, c.folder = some folder → Ready s folder

theorem isSome_get_of_retains {c : Cache} {s : Storage} {f : Subject} (h : c.Retains s f) :
    (c.get s (keyOf f)).1.isSome := by
  rw [get_fst, Option.isSome_or]
  rw [Retains] at h
  cases hfolder : c.folder with
  | none => rw [hfolder] at h; rw [h, Bool.true_or]
  | some folder => rw [hfolder] at h; rw [h, Bool.or_true]

theorem mem_names_insert {memory : NameMap Analysis} {key name : String} {a : Analysis}
    (h : name ∈ (memory.insert key a).names) : name = key ∨ name ∈ memory.names := by
  obtain ⟨e, he, rfl⟩ := List.mem_map.1 h
  rcases NameMap.mem_insertSorted he with rfl | he
  · exact .inl rfl
  · exact .inr (List.mem_map.2 ⟨e, he, rfl⟩)

theorem names_get {c : Cache} {s : Storage} {key name : String} (h : name ∈ (c.get s key).2.memory.names) :
    name = key ∨ name ∈ c.memory.names := by
  rw [Cache.get] at h
  cases hm : c.memory.get? key with
  | some a => rw [hm] at h; exact .inr h
  | none =>
    rw [hm] at h
    cases hk : kept? c.folder s key with
    | none => rw [hk] at h; exact .inr h
    | some a =>
      rw [hk] at h
      simp only at h
      split at h
      · exact mem_names_insert h
      · exact .inr h

theorem isSome_memory_get {c : Cache} {s : Storage} {key key' : String} (h : (c.memory.get? key').isSome) :
    ((c.get s key).2.memory.get? key').isSome := by
  rw [Cache.get]
  cases hm : c.memory.get? key with
  | some a => exact h
  | none =>
    cases hk : kept? c.folder s key with
    | none => exact h
    | some a =>
      simp only
      split
      · rw [NameMap.get?_insert]
        split
        · rfl
        · exact h
      · exact h

variable {belongs : Subject → Analysis} {fs done : List Subject} {c : Cache} {s : Storage} {f : Subject}

/-- The memory has room: its names are keys of the files. -/
theorem Keeps.size_lt (h : Keeps belongs fs done c s) (hroom : fs.length < capacity) : c.memory.size < capacity := by
  have hle := NameMap.size_le_of_names h.names
  rw [List.length_map] at hle
  omega

theorem Keeps.get (h : Keeps belongs fs done c s) (hapart : Apart fs) (hf : f ∈ fs) :
    Keeps belongs fs done (c.get s (keyOf f)).2 s where
  holds := h.holds.get hapart hf
  names name hname := by
    rcases names_get hname with rfl | hname
    · exact List.mem_map.2 ⟨f, hf, rfl⟩
    · exact h.names name hname
  retains f' hf' := by
    have hr := h.retains f' hf'
    rw [Retains] at hr ⊢
    rw [folder_get]
    cases hfolder : c.folder with
    | none => rw [hfolder] at hr; exact isSome_memory_get hr
    | some folder => rw [hfolder] at hr; exact hr
  found f' hf' hsome := by
    refine h.found f' hf' ?_
    obtain ⟨a, ha⟩ := Option.isSome_iff_exists.1 hsome
    rw [get_fst, folder_get, Option.or_eq_some_iff] at ha
    rw [get_fst, Option.isSome_or]
    rcases ha with hm | ⟨-, hk⟩
    · rcases memory_get hm with hm | ⟨hkey, hk⟩
      · rw [hm]; rfl
      · rw [hkey, hk]; exact Bool.or_true _
    · rw [hk]; exact Bool.or_true _
  ready folder hfolder := h.ready folder ((folder_get c s _).symm.trans hfolder)

/-- It is only the members of `done` that matter. -/
theorem Keeps.congr {done' : List Subject} (h : Keeps belongs fs done c s) (hdone : ∀ f, f ∈ done' ↔ f ∈ done) :
    Keeps belongs fs done' c s where
  holds := h.holds
  names := h.names
  retains f hf := h.retains f ((hdone f).1 hf)
  found f hf hsome := (hdone f).2 (h.found f hf hsome)
  ready := h.ready

/-- A cache keeps what it has when another one with the same folder has done more. -/
theorem Keeps.sibling {done' : List Subject} {c' : Cache} {s' : Storage} {folder : String}
    (h : Keeps belongs fs done c s) (h' : Keeps belongs fs done' c' s') (hfolder : c.folder = some folder)
    (hfolder' : c'.folder = some folder) (hdone : ∀ f ∈ done, f ∈ done') : Keeps belongs fs done' c s' := by
  have hshared : c.folder = c'.folder := hfolder.trans hfolder'.symm
  refine ⟨⟨h.holds.memory, ?_⟩, h.names, fun f hf => ?_, fun f hf hsome => ?_, ?_⟩
  · rw [hshared]
    exact h'.holds.folder
  · have hr := h'.retains f hf
    rw [Retains, hfolder'] at hr
    rw [Retains, hfolder]
    exact hr
  · rw [get_fst, Option.isSome_or, hshared, Bool.or_eq_true] at hsome
    rcases hsome with hm | hk
    · refine hdone f (h.found f hf ?_)
      rw [get_fst, Option.isSome_or, hm, Bool.true_or]
    · refine h'.found f hf ?_
      rw [get_fst, Option.isSome_or, hk, Bool.or_true]
  · rw [hshared]
    exact h'.ready

/-- A stored file is there from then on, and so is whatever was. -/
theorem Keeps.retains_store (h : Keeps belongs fs done c s)
    (hmemory : (c.store s (keyOf f) (belongs f)).1.memory = c.memory.insert (keyOf f) (belongs f))
    (hdecode : decode (encode (belongs f)) = some (belongs f)) {f' : Subject} (hf' : f' ∈ f :: done) :
    (c.store s (keyOf f) (belongs f)).1.Retains (c.store s (keyOf f) (belongs f)).2.1 f' := by
  have hold : keyOf f' ≠ keyOf f → c.Retains s f' := by
    intro hne
    rcases List.mem_cons.1 hf' with rfl | hf'
    · exact absurd rfl hne
    · exact h.retains f' hf'
  rw [Retains, folder_store]
  cases hfolder : c.folder with
  | none =>
    simp only [hmemory, NameMap.get?_insert]
    by_cases hkey : keyOf f' = keyOf f
    · rw [if_pos hkey]
      rfl
    · have hr := hold hkey
      rw [Retains, hfolder] at hr
      rw [if_neg hkey]
      exact hr
  | some folder =>
    obtain ⟨s', hwrite, -⟩ := (h.ready folder hfolder).write? f (encode (belongs f))
    simp only [Cache.store, hfolder, hwrite, kept?_write? hwrite]
    by_cases hkey : keyOf f' = keyOf f
    · rw [if_pos hkey, hdecode]
      rfl
    · have hr := hold hkey
      rw [Retains, hfolder] at hr
      rw [if_neg hkey]
      exact hr

/-- **Storing what belongs to a file loses nothing**, and the file is found from then on. -/
theorem Keeps.store (h : Keeps belongs fs done c s) (hapart : Apart fs) (hf : f ∈ fs) (hroom : fs.length < capacity)
    (hfits : Fits (belongs f)) :
    Keeps belongs fs (f :: done) (c.store s (keyOf f) (belongs f)).1 (c.store s (keyOf f) (belongs f)).2.1 := by
  have hdecode := decode_encode_self hfits
  have hmemory := memory_store_of_room (h.size_lt hroom) s (keyOf f) (belongs f)
  refine ⟨h.holds.store hapart hf (.inr hdecode), fun name hname => ?_, fun f' hf' => ?_, fun f' hf' hsome => ?_, ?_⟩
  · rw [hmemory] at hname
    rcases mem_names_insert hname with rfl | hname
    · exact List.mem_map.2 ⟨f, hf, rfl⟩
    · exact h.names name hname
  · exact h.retains_store hmemory hdecode hf'
  · by_cases hkey : keyOf f' = keyOf f
    · rw [hapart f' hf' f hf hkey]
      exact List.mem_cons_self
    · refine List.mem_cons_of_mem _ (h.found f' hf' ?_)
      rwa [get_fst, folder_store, kept?_store_of_ne hkey, hmemory, NameMap.get?_insert, if_neg hkey, ← get_fst]
        at hsome
  · intro folder hfolder
    rw [folder_store] at hfolder
    obtain ⟨s', hwrite, hready⟩ := (h.ready folder hfolder).write? f (encode (belongs f))
    rw [Cache.store, hfolder]
    simp only [hwrite]
    exact hready

end Cache

end FileGraph
