import FileGraph.Cache.Basic
/-!
# Lookup — what a cache finds is what was stored

A cache is right about files if whatever it holds under their keys, in memory or in its folder, is the analysis that
belongs to them (`Holds`).  Looking up keeps that, storing what belongs to a file keeps it, and throwing something out
to make room does too: an analysis may get lost, but none gets into another's place.  For this the keys of different
files have to be different (`Apart`), which is assumed of the digest for the files at hand only.
-/
namespace FileGraph

open Source

/-- What an analysis depends on: the language of a file and its content. -/
abbrev Subject := Language × String

namespace Cache

/-- The key of a file. -/
def keyOf (f : Subject) : String := key f.1 f.2

/-- Different files have different keys. -/
def Apart (fs : List Subject) : Prop := ∀ f ∈ fs, ∀ f' ∈ fs, keyOf f = keyOf f' → f = f'

/-- Whatever is held for one of the files is what belongs to it. -/
structure Holds (belongs : Subject → Analysis) (fs : List Subject) (c : Cache) (s : Storage) : Prop where
  memory : ∀ f ∈ fs, ∀ a, c.memory.get? (keyOf f) = some a → a = belongs f
  folder : ∀ f ∈ fs, ∀ a, kept? c.folder s (keyOf f) = some a → a = belongs f

/-! ## Parts -/

theorem lookup_eq_none_of_lt {α : Type} {name : String} : ∀ {es : List (String × α)},
    (∀ e ∈ es, name < e.1) → es.lookup name = none
  | [], _ => rfl
  | e :: es, h => by
    have hne : name ≠ e.1 := String.ne_of_lt (h e List.mem_cons_self)
    rw [NameMap.lookup_cons_eq, if_neg hne]
    exact lookup_eq_none_of_lt fun x hx => h x (List.mem_cons_of_mem _ hx)

/-- Making room takes away only. -/
theorem get?_makeRoom {memory : NameMap Analysis} {key : String} {a : Analysis}
    (h : (makeRoom memory).get? key = some a) : memory.get? key = some a := by
  obtain ⟨entries, sorted⟩ := memory
  by_cases hroom : NameMap.size ⟨entries, sorted⟩ < capacity
  · rwa [makeRoom, if_pos hroom] at h
  · rw [makeRoom, if_neg hroom] at h
    cases entries with
    | nil => cases h
    | cons e es =>
      rw [List.pairwise_cons] at sorted
      change es.lookup key = some a at h
      change (e :: es).lookup key = some a
      rw [NameMap.lookup_cons_eq]
      by_cases hkey : key = e.1
      · rw [hkey, lookup_eq_none_of_lt sorted.1] at h
        cases h
      · rw [if_neg hkey, h]

theorem fileName_injective {key key' : String} (h : fileName key = fileName key') : key = key' := by
  have hchars := congrArg String.toList h
  simp only [fileName, String.toList_append, List.append_assoc, List.append_cancel_left_eq,
    List.append_cancel_right_eq] at hchars
  exact String.toList_inj.1 hchars

theorem read?_write? {s s' : Storage} {folder name : String} {bytes : List UInt8}
    (h : s.write? folder name bytes = some s') (folder' name' : String) :
    s'.read? folder' name' =
      if folder' = folder ∧ name' = name then some bytes else s.read? folder' name' := by
  rw [Storage.write?] at h
  cases hfiles : s.files? folder with
  | none => rw [hfiles] at h; cases h
  | some files =>
    simp only [hfiles] at h
    split at h
    · cases h
      simp only [Storage.read?, Storage.files?, NameMap.get?_insert]
      by_cases hf : folder' = folder
      · subst hf
        by_cases hn : name' = name
        · simp [hn]
        · simp only [if_true, Option.bind_some, NameMap.get?_insert, hn, if_false, and_false]
          rw [Storage.files?] at hfiles
          rw [hfiles, Option.bind_some]
      · simp [hf]
    · cases h

/-- What a folder keeps after a file has been written into it. -/
theorem kept?_write? {s s' : Storage} {folder key : String} {bytes : List UInt8}
    (h : s.write? folder (fileName key) bytes = some s') (key' : String) :
    kept? (some folder) s' key' = if key' = key then decode bytes else kept? (some folder) s key' := by
  simp only [kept?, Option.bind_some, read?_write? h, true_and]
  by_cases hkey : key' = key
  · subst hkey; simp
  · have hname : fileName key' ≠ fileName key := fun e => hkey (fileName_injective e)
    rw [if_neg hname, if_neg hkey]

/-! ## Looking up and storing -/

theorem folder_get (c : Cache) (s : Storage) (key : String) : (c.get s key).2.folder = c.folder := by
  rw [get]
  cases c.memory.get? key with
  | some a => rfl
  | none =>
    cases kept? c.folder s key with
    | none => rfl
    | some a => simp only; split <;> rfl

/-- What looking up finds stands in memory, or else in the folder. -/
theorem get_fst (c : Cache) (s : Storage) (key : String) :
    (c.get s key).1 = (c.memory.get? key).or (kept? c.folder s key) := by
  rw [get]
  cases c.memory.get? key with
  | some a => rfl
  | none =>
    rw [Option.none_or]
    cases kept? c.folder s key with
    | some a => rfl
    | none => rfl

/-- What is in memory after looking up was there before, or is what was found. -/
theorem memory_get {c : Cache} {s : Storage} {key key' : String} {a : Analysis}
    (h : (c.get s key).2.memory.get? key' = some a) :
    c.memory.get? key' = some a ∨ key' = key ∧ kept? c.folder s key = some a := by
  rw [get] at h
  cases hm : c.memory.get? key with
  | some a' => rw [hm] at h; exact .inl h
  | none =>
    rw [hm] at h
    cases hk : kept? c.folder s key with
    | none => rw [hk] at h; exact .inl h
    | some a' =>
      rw [hk] at h
      simp only at h
      split at h
      · rw [NameMap.get?_insert] at h
        split at h
        · rename_i heq
          exact .inr ⟨heq, h⟩
        · exact .inl h
      · exact .inl h

theorem folder_store (c : Cache) (s : Storage) (key : String) (a : Analysis) :
    (c.store s key a).1.folder = c.folder := by
  rw [Cache.store]
  cases h : c.folder with
  | none => rfl
  | some folder => simp only; split <;> rfl

theorem memory_store (c : Cache) (s : Storage) (key : String) (a : Analysis) :
    (c.store s key a).1.memory = (makeRoom c.memory).insert key a := by
  rw [store]
  cases h : c.folder with
  | none => rfl
  | some folder => simp only; split <;> rfl

theorem memory_store_of_room {c : Cache} (hroom : c.memory.size < capacity) (s : Storage) (key : String)
    (a : Analysis) : (c.store s key a).1.memory = c.memory.insert key a := by
  rw [memory_store, makeRoom, if_pos hroom]

/-- Storing changes what the folder keeps under one key only. -/
theorem kept?_store_of_ne {c : Cache} {s : Storage} {key key' : String} {a : Analysis} (h : key' ≠ key) :
    kept? c.folder (c.store s key a).2.1 key' = kept? c.folder s key' := by
  rw [store]
  cases hfolder : c.folder with
  | none => rfl
  | some folder =>
    simp only
    cases hwrite : s.write? folder (fileName key) (encode a) with
    | none => rfl
    | some s' => simp only [kept?_write? hwrite, if_neg h]

variable {belongs : Subject → Analysis} {fs : List Subject} {c : Cache} {s : Storage} {f : Subject}

theorem Holds.get_eq (h : Holds belongs fs c s) (hf : f ∈ fs) {a : Analysis} (hget : (c.get s (keyOf f)).1 = some a) :
    a = belongs f := by
  rw [get_fst, Option.or_eq_some_iff] at hget
  rcases hget with hm | ⟨-, hk⟩
  · exact h.memory f hf a hm
  · exact h.folder f hf a hk

theorem Holds.get (h : Holds belongs fs c s) (hapart : Apart fs) (hf : f ∈ fs) :
    Holds belongs fs (c.get s (keyOf f)).2 s where
  memory f' hf' a ha := by
    rcases memory_get ha with hm | ⟨hkey, hk⟩
    · exact h.memory f' hf' a hm
    · rw [hapart f' hf' f hf hkey]
      exact h.folder f hf a hk
  folder f' hf' a ha := by
    rw [folder_get] at ha
    exact h.folder f' hf' a ha

/-- **Storing what belongs to a file keeps a cache right**, whether the folder takes it or not. -/
theorem Holds.store (h : Holds belongs fs c s) (hapart : Apart fs) (hf : f ∈ fs)
    (hcodec : c.folder = none ∨ decode (encode (belongs f)) = some (belongs f)) :
    Holds belongs fs (c.store s (keyOf f) (belongs f)).1 (c.store s (keyOf f) (belongs f)).2.1 := by
  have hmemory : ∀ f' ∈ fs, ∀ a, ((makeRoom c.memory).insert (keyOf f) (belongs f)).get? (keyOf f') = some a →
      a = belongs f' := by
    intro f' hf' a ha
    rw [NameMap.get?_insert] at ha
    split at ha
    · rename_i hkey
      cases ha
      rw [hapart f' hf' f hf hkey]
    · exact h.memory f' hf' a (get?_makeRoom ha)
  rw [Cache.store]
  cases hfolder : c.folder with
  | none => exact ⟨hmemory, fun f' _ a ha => by cases ha⟩
  | some folder =>
    have hkept := h.folder
    rw [hfolder] at hkept
    simp only
    cases hwrite : s.write? folder (fileName (keyOf f)) (encode (belongs f)) with
    | none => exact ⟨hmemory, hkept⟩
    | some s' =>
      refine ⟨hmemory, fun f' hf' a ha => ?_⟩
      rw [kept?_write? hwrite] at ha
      split at ha
      · rename_i hkey
        rcases hcodec with hnone | hcodec
        · rw [hfolder] at hnone; cases hnone
        · rw [hcodec] at ha
          cases ha
          rw [hapart f' hf' f hf hkey]
      · exact hkept f' hf' a ha

end Cache

end FileGraph
