import FileGraph.Proofs.Cache.Retention
/-!
# Uses — a cache agrees with its folder

A cache is used in one of four ways (`Cache.Use`).  One without a folder is a map by itself (`perform_of_no_folder`).
The memory of one with a folder never says anything else than the folder does (`Cache.Coherent`): a store goes to both,
clearing empties both, and a lookup takes into memory only what the folder has.
-/
namespace FileGraph

open Source

namespace Cache

/-- One thing that is done with a cache. -/
inductive Use where
  | store (key : String) (a : Analysis)
  | get (key : String)
  | size
  | clear

/-- What a use answers. -/
inductive Answer where
  | stored (taken : Bool)
  | found (a : Option Analysis)
  | counted (n : Nat)
  | cleared
  deriving DecidableEq

/-- A cache and its storage after a use, and the answer. -/
def perform (c : Cache) (s : Storage) : Use → Cache × Storage × Answer
  | .store key a => ((c.store s key a).1, (c.store s key a).2.1, .stored (c.store s key a).2.2)
  | .get key => ((c.get s key).2, s, .found (c.get s key).1)
  | .size => (c, s, .counted c.size)
  | .clear => ((c.clear s).1, (c.clear s).2, .cleared)

/-- Whether it is up to a use what is under a key from then on. -/
def Use.settles (key : String) : Use → Bool
  | .store key' _ => key' == key
  | .clear => true
  | .get _ | .size => false

def Use.analysis? : Use → Option Analysis
  | .store _ a => some a
  | _ => none

/-- The analysis that was stored last under a key, if nothing has been cleared since. -/
def latest (key : String) (uses : List Use) : Option Analysis :=
  (uses.reverse.find? (·.settles key)).bind Use.analysis?

/-- A folder takes what a use stores: the file has a good name, no folder is in its place, and the numbers of the
analysis are words. -/
def Use.Fitting (folder : String) (s : Storage) : Use → Prop
  | .store key a =>
    Storage.isFileName (fileName key) = true ∧ s.hasFolder (Storage.child folder (fileName key)) = false ∧ Fits a
  | _ => True

instance (folder : String) (s : Storage) : (u : Use) → Decidable (u.Fitting folder s)
  | .store _ _ => inferInstanceAs (Decidable (_ ∧ _ ∧ _))
  | .get _ | .size | .clear => inferInstanceAs (Decidable True)

/-- A cache has a folder that is there, and its memory says nothing else than the folder. -/
structure Coherent (folder : String) (c : Cache) (s : Storage) : Prop where
  folder_eq : c.folder = some folder
  there     : s.hasFolder folder = true
  agree     : ∀ key a, c.memory.get? key = some a → kept? (some folder) s key = some a

/-! ## One use -/

theorem latest_concat (key : String) (uses : List Use) (u : Use) :
    latest key (uses ++ [u]) = if u.settles key then u.analysis? else latest key uses := by
  rw [latest, List.reverse_append, List.reverse_singleton, List.singleton_append, List.find?_cons]
  cases u.settles key with
  | true => rfl
  | false => rfl

theorem mem_of_latest {key : String} {uses : List Use} {a : Analysis} (h : latest key uses = some a) :
    .store key a ∈ uses := by
  obtain ⟨u, hfind, hu⟩ := Option.bind_eq_some_iff.1 h
  have hsettles := List.find?_some hfind
  have hmem := List.mem_reverse.1 (List.mem_of_find?_eq_some hfind)
  cases u with
  | store key' a' =>
    obtain rfl := Option.some.inj hu
    obtain rfl := beq_iff_eq.1 hsettles
    exact hmem
  | get _ => cases hu
  | size => cases hu
  | clear => cases hu

variable {folder : String} {c : Cache} {s : Storage}

theorem folder_perform (c : Cache) (s : Storage) (u : Use) : (c.perform s u).1.folder = c.folder := by
  cases u with
  | store key a => exact folder_store c s key a
  | get key => exact folder_get c s key
  | size => rfl
  | clear =>
    rw [perform, Cache.clear]
    cases c.folder <;> rfl

/-- **A cache without a folder** is a map by itself, and leaves the storage alone. -/
theorem perform_of_no_folder (hfolder : c.folder = none) (hroom : c.memory.size < capacity) (u : Use) :
    (c.perform s u).2.1 = s ∧ ∀ key, (c.perform s u).1.memory.get? key =
      if u.settles key then u.analysis? else c.memory.get? key := by
  cases u with
  | store key' a =>
    have hstorage : (c.store s key' a).2.1 = s := by simp only [Cache.store, hfolder]
    refine ⟨hstorage, fun key => ?_⟩
    simp only [perform, memory_store_of_room hroom, NameMap.get?_insert, Use.settles, beq_iff_eq, Use.analysis?,
      @eq_comm String key]
  | get key' =>
    have hsame : (c.get s key').2 = c := by
      rw [Cache.get, hfolder]
      cases c.memory.get? key' <;> rfl
    exact ⟨rfl, fun key => by rw [perform, hsame]; rfl⟩
  | size => exact ⟨rfl, fun _ => rfl⟩
  | clear =>
    rw [perform, Cache.clear, hfolder]
    exact ⟨rfl, fun _ => rfl⟩

theorem rooted_perform (hs : s.Rooted) (c : Cache) (u : Use) : (c.perform s u).2.1.Rooted := by
  cases u with
  | store key a =>
    rw [perform, Cache.store]
    cases c.folder with
    | none => exact hs
    | some folder =>
      cases hwrite : s.write? folder (fileName key) (encode a) with
      | none => simp only [hwrite]; exact hs
      | some s' => simp only [hwrite]; exact hs.write? hwrite
  | get key => exact hs
  | size => exact hs
  | clear =>
    rw [perform, Cache.clear]
    cases c.folder with
    | none => exact hs
    | some folder =>
      cases hthere : s.hasFolder folder with
      | false => simp only [hthere]; exact hs
      | true => simp only [hthere, if_true]; exact hs.emptied hthere

theorem Coherent.store_eq (h : Coherent folder c s) {key : String} {a : Analysis}
    (hfit : (Use.store key a).Fitting folder s) :
    ∃ s', s.write? folder (fileName key) (encode a) = some s' ∧
      c.store s key a = ((c.store s key a).1, s', true) := by
  obtain ⟨s', hwrite⟩ := Storage.exists_write? h.there hfit.1 hfit.2.1 (encode a)
  refine ⟨s', hwrite, ?_⟩
  simp only [Cache.store, h.folder_eq, hwrite]

/-- **A cache that agrees with its folder** still does after a use, and then the folder has what the use stored. -/
theorem Coherent.perform (h : Coherent folder c s) (hroom : c.memory.size < capacity) {u : Use}
    (hfit : u.Fitting folder s) :
    Coherent folder (c.perform s u).1 (c.perform s u).2.1 ∧
      ∀ key, kept? (some folder) (c.perform s u).2.1 key =
        if u.settles key then u.analysis? else kept? (some folder) s key := by
  have hfolder := (folder_perform c s u).trans h.folder_eq
  cases u with
  | store key' a =>
    obtain ⟨s', hwrite, hstore⟩ := h.store_eq hfit
    have hstorage : (c.perform s (.store key' a)).2.1 = s' := congrArg (·.2.1) hstore
    have hkept : ∀ key, kept? (some folder) s' key = if key = key' then some a else kept? (some folder) s key :=
      fun key => by rw [kept?_write? hwrite, decode_encode_self hfit.2.2]
    rw [hstorage]
    refine ⟨⟨hfolder, (Storage.hasFolder_write? hwrite folder).trans h.there, fun key b hb => ?_⟩, fun key => ?_⟩
    · rw [Cache.perform, memory_store_of_room hroom, NameMap.get?_insert] at hb
      rw [hkept]
      split at hb
      · rw [if_pos ‹_›, hb]
      · rw [if_neg ‹_›, h.agree key b hb]
    · simp only [hkept, Use.settles, beq_iff_eq, Use.analysis?, @eq_comm String key]
  | get key' =>
    refine ⟨⟨hfolder, h.there, fun key b hb => ?_⟩, fun _ => rfl⟩
    rcases memory_get hb with hb | ⟨rfl, hb⟩
    · exact h.agree key b hb
    · rwa [h.folder_eq] at hb
  | size => exact ⟨h, fun _ => rfl⟩
  | clear =>
    have hclear : c.clear s = (⟨.empty, some folder⟩, s.emptied folder) := by
      rw [Cache.clear, h.folder_eq]
      simp only [h.there, if_true]
      rfl
    rw [Cache.perform, hclear]
    refine ⟨⟨rfl, Storage.hasFolder_emptied.2 (.inl rfl), fun key b hb => by cases hb⟩, fun key => ?_⟩
    rw [kept?, Option.bind_some, Storage.read?_emptied]
    rfl

end Cache

end FileGraph
