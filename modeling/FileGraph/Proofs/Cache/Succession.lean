import FileGraph.Proofs.Cache.Uses
import Mathlib.Data.List.Dedup
/-!
# Succession — caches that follow one another on a folder are one map

Caches are opened on a storage, some with a folder that they share and some with a memory of their own only
(`Caches`).  A cache with the folder is used until the next one with it is opened (`Caches.InTurn`).  Then the folder
has what was stored last by any cache that has the folder, since one of them was cleared, and the cache in use agrees
with it (`Caches.Agrees`).  So looking up a key gives just that (`Caches.found_latest`).
-/
namespace FileGraph

open Source

open Cache (Use Answer Coherent latest kept? capacity)

/-- Caches in the order in which they were opened, and the storage on which they were. -/
structure Caches where
  caches  : List Cache
  storage : Storage

namespace Caches

/-- What a caller does: opening a cache, or using the one at a position. -/
inductive Call where
  | openFolder (names : List String)
  | openMemory
  | use (i : Nat) (u : Use)

/-- The caches after a call, and what it answers. -/
def call (cs : Caches) : Call → Caches × Option Answer
  | .openFolder names =>
    (⟨cs.caches ++ [(Cache.openFolder cs.storage names).1], (Cache.openFolder cs.storage names).2⟩, none)
  | .openMemory => (⟨cs.caches ++ [.inMemory], cs.storage⟩, none)
  | .use i u =>
    match cs.caches[i]? with
    | some c => (⟨cs.caches.set i (c.perform cs.storage u).1, (c.perform cs.storage u).2.1⟩,
        some (c.perform cs.storage u).2.2)
    | none => (cs, none)

/-- The caches after calls, one after another. -/
def run (cs : Caches) (calls : List Call) : Caches := calls.foldl (fun cs x => (cs.call x).1) cs

/-- Whether the cache at a position has a folder. -/
def hasFolder (cs : Caches) (i : Nat) : Bool := (cs.caches[i]?.bind (·.folder)).isSome

/-- A cache is in use: if it has a folder, no cache with a folder has been opened after it. -/
def Current (cs : Caches) (i : Nat) : Prop :=
  i < cs.caches.length ∧ (cs.hasFolder i = true → ∀ j < cs.caches.length, i < j → cs.hasFolder j = false)

instance (cs : Caches) (i : Nat) : Decidable (cs.Current i) := inferInstanceAs (Decidable (_ ∧ _))

/-- A call that may be made: the one folder is opened, or no folder can be; or a cache is used that is in use, and its
folder takes what is stored. -/
def InTurn (folder : String) (cs : Caches) : Call → Prop
  | .openFolder names => ∀ made ∈ cs.storage.makeFolders? "" names, made.2 = folder
  | .openMemory => True
  | .use i u => cs.Current i ∧ (cs.hasFolder i = true → u.Fitting folder cs.storage)

instance (folder : String) (cs : Caches) : (x : Call) → Decidable (cs.InTurn folder x)
  | .openFolder names => inferInstanceAs (Decidable (∀ made ∈ cs.storage.makeFolders? "" names, made.2 = folder))
  | .openMemory => inferInstanceAs (Decidable True)
  | .use _ _ => inferInstanceAs (Decidable (_ ∧ _))

/-- Each of some calls is one that may be made when it is. -/
def InOrder (folder : String) : Caches → List Call → Prop
  | _, [] => True
  | cs, x :: calls => cs.InTurn folder x ∧ InOrder folder (cs.call x).1 calls

instance decideInOrder (folder : String) : (cs : Caches) → (calls : List Call) → Decidable (InOrder folder cs calls)
  | _, [] => inferInstanceAs (Decidable True)
  | cs, x :: calls =>
    have := decideInOrder folder (cs.call x).1 calls
    inferInstanceAs (Decidable (cs.InTurn folder x ∧ InOrder folder (cs.call x).1 calls))

/-- The uses of some of the caches. -/
def usesOf (mine : Nat → Bool) (calls : List Call) : List Use :=
  calls.filterMap fun
    | .use i u => if mine i then some u else none
    | _ => none

/-- The keys under which something is stored. -/
def storedKeys (calls : List Call) : List String :=
  calls.filterMap fun
    | .use _ (.store key _) => some key
    | _ => none

/-- What is stored in a cache is seen by another: it is the same, or they share the folder. -/
def sees (cs : Caches) (i j : Nat) : Bool := j == i || cs.hasFolder i && cs.hasFolder j

/-- What the caches and the storage have after some calls: the folder has what was stored last by any cache with it, a
cache with it that is in use agrees with it, and one without has what was stored last by itself. -/
structure Agrees (folder : String) (start : Storage) (calls : List Call) (cs : Caches) : Prop where
  rooted : cs.storage.Rooted
  there  : cs.storage = start ∨ cs.storage.hasFolder folder = true
  opened : ∀ i u, .use i u ∈ calls → i < cs.caches.length
  kept   : ∀ key, kept? (some folder) cs.storage key = latest key (usesOf cs.hasFolder calls)
  shared : ∀ i c, cs.caches[i]? = some c → c.folder ≠ none → cs.Current i → Coherent folder c cs.storage
  own    : ∀ i c, cs.caches[i]? = some c → c.folder = none →
    ∀ key, c.memory.get? key = latest key (usesOf (· == i) calls)

/-! ## Calls -/

variable {folder : String} {start : Storage} {calls : List Call} {cs : Caches} {i j : Nat} {c : Cache}

theorem inOrder_append : ∀ (xs : List Call) {ys : List Call} {cs : Caches}, InOrder folder cs (xs ++ ys) →
    InOrder folder cs xs ∧ InOrder folder (cs.run xs) ys
  | [], _, _, h => ⟨trivial, h⟩
  | _ :: xs, _, _, h => by
    obtain ⟨hxs, hys⟩ := inOrder_append xs h.2
    exact ⟨⟨h.1, hxs⟩, hys⟩

theorem usesOf_congr {mine mine' : Nat → Bool} : ∀ {calls : List Call},
    (∀ i u, .use i u ∈ calls → mine i = mine' i) → usesOf mine calls = usesOf mine' calls
  | [], _ => rfl
  | x :: calls, h => by
    have ih : usesOf mine calls = usesOf mine' calls := usesOf_congr fun i u hu => h i u (List.mem_cons_of_mem _ hu)
    cases x with
    | openFolder names => exact ih
    | openMemory => exact ih
    | use i u =>
      rw [usesOf, usesOf, List.filterMap_cons, List.filterMap_cons]
      simp only [h i u List.mem_cons_self]
      split
      · exact ih
      · exact congrArg _ ih

theorem mem_of_mem_usesOf {mine : Nat → Bool} {u : Use} (h : u ∈ usesOf mine calls) : ∃ i, .use i u ∈ calls := by
  obtain ⟨x, hx, hu⟩ := List.mem_filterMap.1 h
  cases x with
  | openFolder names => cases hu
  | openMemory => cases hu
  | use i u' =>
    simp only at hu
    split at hu
    · obtain rfl := Option.some.inj hu
      exact ⟨i, hx⟩
    · cases hu

theorem usesOf_eq_nil {mine : Nat → Bool} (h : ∀ i u, .use i u ∈ calls → mine i = false) :
    usesOf mine calls = [] := by
  rw [usesOf, List.filterMap_eq_nil_iff]
  intro x hx
  cases x with
  | openFolder names => rfl
  | openMemory => rfl
  | use i u =>
    simp only
    rw [h i u hx, if_neg Bool.false_ne_true]

theorem usesOf_use (mine : Nat → Bool) (calls : List Call) (i : Nat) (u : Use) :
    usesOf mine (calls ++ [.use i u]) = usesOf mine calls ++ if mine i then [u] else [] := by
  rw [usesOf, List.filterMap_append]
  cases hi : mine i with
  | true => simp [usesOf, hi]
  | false => simp [usesOf, hi]

theorem latest_use_of_mine (mine : Nat → Bool) (h : mine i = true) (key : String) (u : Use) :
    latest key (usesOf mine (calls ++ [.use i u])) =
      if u.settles key then u.analysis? else latest key (usesOf mine calls) := by
  rw [usesOf_use, if_pos h, Cache.latest_concat]

theorem latest_use_of_not_mine (mine : Nat → Bool) (h : mine i = false) (key : String) (u : Use) :
    latest key (usesOf mine (calls ++ [.use i u])) = latest key (usesOf mine calls) := by
  rw [usesOf_use, h, if_neg Bool.false_ne_true, List.append_nil]

theorem mem_storedKeys_of_latest {mine : Nat → Bool} {key : String} {a : Analysis}
    (h : latest key (usesOf mine calls) = some a) : key ∈ storedKeys calls := by
  obtain ⟨i, hi⟩ := mem_of_mem_usesOf (Cache.mem_of_latest h)
  exact List.mem_filterMap.2 ⟨_, hi, rfl⟩

theorem hasFolder_of_getElem? (h : cs.caches[i]? = some c) : cs.hasFolder i = c.folder.isSome := by
  rw [hasFolder, h, Option.bind_some]

theorem Current.exists_getElem? (h : cs.Current i) : ∃ c, cs.caches[i]? = some c := ⟨_, List.getElem?_eq_getElem h.1⟩

theorem Current.unique (hi : cs.Current i) (hj : cs.Current j) (hfi : cs.hasFolder i = true)
    (hfj : cs.hasFolder j = true) : i = j := by
  rcases Nat.lt_trichotomy i j with hlt | heq | hlt
  · rw [hi.2 hfi j hj.1 hlt] at hfj
    cases hfj
  · exact heq
  · rw [hj.2 hfj i hi.1 hlt] at hfi
    cases hfi

/-- A cache that is in use has in memory only what has been stored. -/
theorem Agrees.size_lt (h : Agrees folder start calls cs) (hi : cs.caches[i]? = some c) (hcurrent : cs.Current i)
    {keys : List String} (hkeys : ∀ key ∈ storedKeys calls, key ∈ keys) (hfew : keys.length < capacity) :
    c.memory.size < capacity := by
  refine Nat.lt_of_le_of_lt (NameMap.size_le_of_names fun key hkey => hkeys key ?_) hfew
  obtain ⟨a, ha⟩ := Option.isSome_iff_exists.1 (NameMap.mem_names_iff.1 hkey)
  cases hfolder : c.folder with
  | none =>
    rw [h.own i c hi hfolder] at ha
    exact mem_storedKeys_of_latest ha
  | some _ =>
    -- what is in memory is in the folder, and what is in the folder has been stored
    have hkept := (h.shared i c hi (by simp [hfolder]) hcurrent).agree key a ha
    rw [h.kept] at hkept
    exact mem_storedKeys_of_latest hkept

theorem hasFolder_set {c' : Cache} (hi : cs.caches[i]? = some c) (hfolder : c'.folder = c.folder) (s : Storage)
    (j : Nat) : hasFolder ⟨cs.caches.set i c', s⟩ j = cs.hasFolder j := by
  rw [hasFolder, hasFolder, List.getElem?_set]
  by_cases hij : i = j
  · subst hij
    obtain ⟨hlt, -⟩ := List.getElem?_eq_some_iff.1 hi
    rw [if_pos rfl, if_pos hlt, hi, Option.bind_some, Option.bind_some, hfolder]
  · rw [if_neg hij]

theorem hasFolder_concat (s : Storage) (c : Cache) (hj : j < cs.caches.length) :
    hasFolder ⟨cs.caches ++ [c], s⟩ j = cs.hasFolder j := by
  rw [hasFolder, hasFolder, List.getElem?_append_left hj]

theorem Current.of_concat {s : Storage} (hj : j < cs.caches.length) (h : Current ⟨cs.caches ++ [c], s⟩ j) :
    cs.Current j := by
  refine ⟨hj, fun hfolder k hk hlt => ?_⟩
  rw [← hasFolder_concat s c hj] at hfolder
  rw [← hasFolder_concat s c hk]
  exact h.2 hfolder k (by rw [List.length_append]; omega) hlt

theorem getElem?_set_cases {c' : Cache} {k : Nat} {d : Cache} (hk : (cs.caches.set i c')[k]? = some d) :
    (k = i ∧ d = c') ∨ (k ≠ i ∧ cs.caches[k]? = some d) := by
  rw [List.getElem?_set] at hk
  by_cases hik : i = k
  · rw [if_pos hik] at hk
    split at hk
    · exact .inl ⟨hik.symm, (Option.some.inj hk).symm⟩
    · cases hk
  · rw [if_neg hik] at hk
    exact .inr ⟨Ne.symm hik, hk⟩

theorem getElem?_concat_cases {k : Nat} {d : Cache} (hk : (cs.caches ++ [c])[k]? = some d) :
    (k < cs.caches.length ∧ cs.caches[k]? = some d) ∨ (k = cs.caches.length ∧ d = c) := by
  rcases Nat.lt_or_ge k cs.caches.length with hlt | hge
  · rw [List.getElem?_append_left hlt] at hk
    exact .inl ⟨hlt, hk⟩
  · rw [List.getElem?_append_right hge, List.getElem?_singleton] at hk
    split at hk
    · exact .inr ⟨by omega, (Option.some.inj hk).symm⟩
    · cases hk

/-- A cache with the folder that is in use agrees with it after a use, too. -/
theorem Agrees.coherent_perform (h : Agrees folder start calls cs) (hi : cs.caches[i]? = some c) {u : Use}
    (hturn : cs.InTurn folder (.use i u)) (hroom : c.memory.size < capacity) (hfolder : cs.hasFolder i = true) :
    Coherent folder (c.perform cs.storage u).1 (c.perform cs.storage u).2.1 ∧
      ∀ key, kept? (some folder) (c.perform cs.storage u).2.1 key =
        if u.settles key then u.analysis? else kept? (some folder) cs.storage key := by
  have hsome := hfolder
  rw [hasFolder_of_getElem? hi, Option.isSome_iff_ne_none] at hsome
  exact (h.shared i c hi hsome hturn.1).perform hroom (hturn.2 hfolder)

/-- **A use keeps what the caches have.** -/
theorem Agrees.use (h : Agrees folder start calls cs) (hi : cs.caches[i]? = some c) {u : Use}
    (hturn : cs.InTurn folder (.use i u)) (hroom : c.memory.size < capacity) :
    Agrees folder start (calls ++ [.use i u])
      ⟨cs.caches.set i (c.perform cs.storage u).1, (c.perform cs.storage u).2.1⟩ := by
  have hsame := hasFolder_set hi (Cache.folder_perform c cs.storage u) (c.perform cs.storage u).2.1
  have halone : cs.hasFolder i = false → c.folder = none := by
    rw [hasFolder_of_getElem? hi, Option.isSome_eq_false_iff, Option.isNone_iff_eq_none]
    exact id
  have hwith := h.coherent_perform hi hturn hroom
  refine ⟨Cache.rooted_perform h.rooted c u, ?there, fun j u' hu' => ?opened, fun key => ?kept,
    fun j d hj hsome hcurrent => ?shared, fun j d hj hnone key => ?own⟩
  case there =>
    cases hfolder : cs.hasFolder i with
    | false =>
      rw [(Cache.perform_of_no_folder (halone hfolder) hroom u).1]
      exact h.there
    | true => exact .inr (hwith hfolder).1.there
  case opened =>
    rw [List.length_set]
    rcases List.mem_append.1 hu' with hu' | hu'
    · exact h.opened j u' hu'
    · cases List.mem_singleton.1 hu'
      exact hturn.1.1
  case kept =>
    rw [funext hsame]
    cases hfolder : cs.hasFolder i with
    | false =>
      rw [latest_use_of_not_mine _ hfolder, (Cache.perform_of_no_folder (halone hfolder) hroom u).1]
      exact h.kept key
    | true => rw [latest_use_of_mine _ hfolder, (hwith hfolder).2, h.kept]
  case shared =>
    have hcurrent' : cs.Current j := by
      simp only [Current, List.length_set, hsame] at hcurrent
      exact hcurrent
    rcases getElem?_set_cases hj with ⟨rfl, rfl⟩ | ⟨hne, hj⟩
    · rw [Cache.folder_perform, ← Option.isSome_iff_ne_none, ← hasFolder_of_getElem? hi] at hsome
      exact (hwith hsome).1
    · cases hfolder : cs.hasFolder i with
      | false =>
        rw [(Cache.perform_of_no_folder (halone hfolder) hroom u).1]
        exact h.shared j d hj hsome hcurrent'
      | true =>
        -- two caches with the folder cannot both be in use
        rw [← Option.isSome_iff_ne_none, ← hasFolder_of_getElem? hj] at hsome
        exact absurd (hcurrent'.unique hturn.1 hsome hfolder) hne
  case own =>
    rcases getElem?_set_cases hj with ⟨rfl, rfl⟩ | ⟨hne, hj⟩
    · rw [Cache.folder_perform] at hnone
      rw [latest_use_of_mine (· == j) (beq_self_eq_true j),
        (Cache.perform_of_no_folder hnone hroom u).2, h.own j c hi hnone]
    · rw [latest_use_of_not_mine (· == j) (beq_false_of_ne (Ne.symm hne)), h.own j d hj hnone]

theorem usesOf_concat_of_ne (mine : Nat → Bool) {x : Call} (hx : ∀ i u, x ≠ .use i u) :
    usesOf mine (calls ++ [x]) = usesOf mine calls := by
  rw [usesOf, List.filterMap_append]
  cases x with
  | openFolder names => exact List.append_nil _
  | openMemory => exact List.append_nil _
  | use i u => exact absurd rfl (hx i u)

/-- **Opening a cache keeps what the caches have**, if it changes nothing in the folder. -/
theorem Agrees.opening (h : Agrees folder start calls cs) {x : Call} (hx : ∀ i u, x ≠ .use i u) {s : Storage}
    (hrooted : s.Rooted) (hthere : cs.storage.hasFolder folder = true → s.hasFolder folder = true)
    (hkept : ∀ key, kept? (some folder) s key = kept? (some folder) cs.storage key) (hempty : c.memory = .empty)
    (hfolder : c.folder = none ∧ s = cs.storage ∨ c.folder = some folder ∧ s.hasFolder folder = true) :
    Agrees folder start (calls ++ [x]) ⟨cs.caches ++ [c], s⟩ := by
  have hcalls : ∀ i u, .use i u ∈ calls ++ [x] → .use i u ∈ calls := by
    intro i u hu
    rcases List.mem_append.1 hu with hu | hu
    · exact hu
    · exact absurd (List.mem_singleton.1 hu).symm (hx i u)
  refine ⟨hrooted, ?there, fun i u hu => ?opened, fun key => ?kept, fun j d hj hsome hcurrent => ?shared,
    fun j d hj hnone key => ?own⟩
  case there =>
    rcases hfolder with ⟨-, hsame⟩ | ⟨-, hmade⟩
    · exact h.there.imp hsame.trans hthere
    · exact .inr hmade
  case opened =>
    have hlt := h.opened i u (hcalls i u hu)
    rw [List.length_append]
    omega
  case kept =>
    have hsame : usesOf (hasFolder ⟨cs.caches ++ [c], s⟩) calls = usesOf cs.hasFolder calls :=
      usesOf_congr fun i u hu => hasFolder_concat s c (h.opened i u hu)
    rw [usesOf_concat_of_ne _ hx, hsame, hkept, h.kept]
  case shared =>
    rcases getElem?_concat_cases hj with ⟨hlt, hj⟩ | ⟨-, rfl⟩
    · obtain ⟨heq, hold, hagree⟩ := h.shared j d hj hsome (hcurrent.of_concat hlt)
      exact ⟨heq, hthere hold, fun key a ha => (hkept key).trans (hagree key a ha)⟩
    · obtain ⟨heq, hmade⟩ := hfolder.resolve_left fun hnone => hsome hnone.1
      refine ⟨heq, hmade, fun key a ha => ?_⟩
      rw [hempty] at ha
      cases ha
  case own =>
    rw [usesOf_concat_of_ne _ hx]
    rcases getElem?_concat_cases hj with ⟨-, hj⟩ | ⟨rfl, rfl⟩
    · exact h.own j d hj hnone key
    · rw [hempty, usesOf_eq_nil fun i u hu => beq_false_of_ne (Nat.ne_of_lt (h.opened i u hu))]
      rfl

/-- **Every call in turn keeps what the caches have.** -/
theorem Agrees.call (h : Agrees folder start calls cs) {x : Call} (hturn : cs.InTurn folder x) {keys : List String}
    (hkeys : ∀ key ∈ storedKeys calls, key ∈ keys) (hfew : keys.length < capacity) :
    Agrees folder start (calls ++ [x]) (cs.call x).1 := by
  cases x with
  | openFolder names =>
    rw [Caches.call, Cache.openFolder]
    cases hmake : cs.storage.makeFolders? "" names with
    | none =>
      exact h.opening (fun _ _ => by simp) h.rooted id (fun _ => rfl) rfl (.inl ⟨rfl, rfl⟩)
    | some made =>
      obtain ⟨hrooted, hmade⟩ := h.rooted.makeFolders? names h.rooted.top made hmake
      have hkeeps := Storage.makeFolders?_keeps names made hmake folder
      rw [hturn made hmake] at hmade
      refine h.opening (fun _ _ => by simp) hrooted hkeeps.1 (fun key => ?_) rfl
        (.inr ⟨congrArg some (hturn made hmake), hmade⟩)
      rw [kept?, kept?, Option.bind_some, Option.bind_some, hkeeps.2]
  | openMemory => exact h.opening (fun _ _ => by simp) h.rooted id (fun _ => rfl) rfl (.inl ⟨rfl, rfl⟩)
  | use i u =>
    obtain ⟨c, hi⟩ := hturn.1.exists_getElem?
    rw [Caches.call, hi]
    exact h.use hi hturn (h.size_lt hi hturn.1 hkeys hfew)

theorem Agrees.run {keys : List String} (hfew : keys.length < capacity) : ∀ {xs done : List Call} {cs : Caches},
    Agrees folder start done cs → InOrder folder cs xs → (∀ key ∈ storedKeys (done ++ xs), key ∈ keys) →
      Agrees folder start (done ++ xs) (cs.run xs)
  | [], done, cs, h, _, _ => by rwa [List.append_nil]
  | x :: xs, done, cs, h, horder, hkeys => by
    have hdone : ∀ key ∈ storedKeys done, key ∈ keys := by
      intro key hkey
      refine hkeys key ?_
      rw [storedKeys, List.filterMap_append]
      exact List.mem_append_left _ hkey
    have hstep := h.call horder.1 hdone hfew
    rw [List.append_cons] at hkeys ⊢
    exact Agrees.run hfew hstep horder.2 hkeys

/-! ## Runs -/

/-- A run on one folder: at first it has no analysis, and each call is one that may be made; fewer keys are stored than
a memory has room for. -/
structure Orderly (folder : String) (start : Storage) (calls : List Call) : Prop where
  rooted  : start.Rooted
  fresh   : ∀ key, kept? (some folder) start key = none
  few     : (storedKeys calls).dedup.length < capacity
  inOrder : InOrder folder ⟨[], start⟩ calls

/-- What the caches have at any moment of a run, and that the call there is in turn. -/
theorem Orderly.agrees (h : Orderly folder start calls) {before after : List Call} {x : Call}
    (hcalls : calls = before ++ x :: after) :
    Agrees folder start before (run ⟨[], start⟩ before) ∧ (run ⟨[], start⟩ before).InTurn folder x := by
  obtain ⟨hbefore, hafter⟩ := inOrder_append before (hcalls ▸ h.inOrder)
  have hkeys : ∀ key ∈ storedKeys before, key ∈ (storedKeys calls).dedup := by
    intro key hkey
    rw [List.mem_dedup, hcalls, storedKeys, List.filterMap_append]
    exact List.mem_append_left _ hkey
  have hstart : Agrees folder start [] ⟨[], start⟩ := ⟨h.rooted, .inl rfl, nofun, h.fresh, nofun, nofun⟩
  exact ⟨hstart.run h.few hbefore hkeys, hafter.1⟩

theorem Agrees.get_eq (h : Agrees folder start calls cs) (hi : cs.caches[i]? = some c) (hcurrent : cs.Current i)
    (key : String) : (c.get cs.storage key).1 = latest key (usesOf (cs.sees i) calls) := by
  rw [Cache.get_fst]
  cases hfolder : c.folder with
  | none =>
    have hsees : cs.sees i = (· == i) := by
      funext j
      rw [sees, hasFolder_of_getElem? hi, hfolder, Option.isSome_none, Bool.false_and, Bool.or_false]
    rw [kept?, Option.bind_none, Option.or_none, h.own i c hi hfolder, hsees]
  | some name =>
    have hsome : cs.hasFolder i = true := by rw [hasFolder_of_getElem? hi, hfolder]; rfl
    have hsees : cs.sees i = cs.hasFolder := by
      funext j
      rw [sees, hsome, Bool.true_and]
      by_cases hj : j = i
      · rw [hj, hsome, Bool.or_true]
      · rw [beq_false_of_ne hj, Bool.false_or]
    obtain ⟨heq, -, hagree⟩ := h.shared i c hi (by simp [hfolder]) hcurrent
    obtain rfl := Option.some.inj (hfolder.symm.trans heq)
    rw [hsees, ← h.kept]
    cases hmemory : c.memory.get? key with
    | none => exact Option.none_or
    | some a => exact (hagree key a hmemory).symm

theorem Agrees.store_taken (h : Agrees folder start calls cs) (hi : cs.caches[i]? = some c) {key : String} {a : Analysis}
    (hturn : cs.InTurn folder (.use i (.store key a))) : (c.store cs.storage key a).2.2 = true := by
  cases hfolder : c.folder with
  | none => simp only [Cache.store, hfolder]
  | some name =>
    have hsome : cs.hasFolder i = true := by rw [hasFolder_of_getElem? hi, hfolder]; rfl
    obtain ⟨s, -, hstore⟩ := (h.shared i c hi (by simp [hfolder]) hturn.1).store_eq (hturn.2 hsome)
    rw [hstore]

theorem Agrees.makeFolders? (h : Agrees folder start calls cs) {names : List String}
    (hnames : ∀ name ∈ names, Storage.isFileName name = true) (hfolder : Storage.pathTo "" names = folder)
    (hstart : (start.makeFolders? "" names).isSome = true) : (cs.storage.makeFolders? "" names).isSome = true := by
  rcases h.there with hsame | hthere
  · rwa [hsame]
  -- the folders that it is in are there too, so that nothing has to be made
  · rw [h.rooted.makeFolders?_of_hasFolder names hnames (hfolder ▸ hthere)]
    rfl

theorem hasFolder_openFolder (cs : Caches) {names : List String}
    (h : (cs.storage.makeFolders? "" names).isSome = true) :
    (cs.call (.openFolder names)).1.hasFolder cs.caches.length = true := by
  obtain ⟨made, hmade⟩ := Option.isSome_iff_exists.1 h
  rw [call, Cache.openFolder, hmade, hasFolder, List.getElem?_concat_length]
  rfl

/-- **Looking up gives what was stored last**: in a run on one folder, by any cache with the folder since one of them
was cleared, or, for a cache without a folder, by itself since it was cleared.  Every store is taken; and if the folder
can be made at first, then every cache that is opened on its path has it. -/
theorem found_latest (h : Orderly folder start calls) (before after : List Call) :
    (∀ i key, calls = before ++ .use i (.get key) :: after →
      ((run ⟨[], start⟩ before).call (.use i (.get key))).2 =
        some (.found (latest key (usesOf ((run ⟨[], start⟩ before).sees i) before)))) ∧
    (∀ i key a, calls = before ++ .use i (.store key a) :: after →
      ((run ⟨[], start⟩ before).call (.use i (.store key a))).2 = some (.stored true)) ∧
    ∀ names, (∀ name ∈ names, Storage.isFileName name = true) → Storage.pathTo "" names = folder →
      (start.makeFolders? "" names).isSome = true → calls = before ++ .openFolder names :: after →
        ((run ⟨[], start⟩ before).call (.openFolder names)).1.hasFolder (run ⟨[], start⟩ before).caches.length =
          true := by
  refine ⟨fun i key hcalls => ?_, fun i key a hcalls => ?_, fun names hnames hfolder hmake hcalls => ?_⟩
  · obtain ⟨hagrees, hcurrent, -⟩ := h.agrees hcalls
    obtain ⟨c, hi⟩ := hcurrent.exists_getElem?
    rw [call, hi, ← hagrees.get_eq hi hcurrent]
    rfl
  · obtain ⟨hagrees, hturn⟩ := h.agrees hcalls
    obtain ⟨c, hi⟩ := hturn.1.exists_getElem?
    rw [call, hi]
    exact congrArg (fun taken => some (Answer.stored taken)) (hagrees.store_taken hi hturn)
  · exact hasFolder_openFolder _ ((h.agrees hcalls).1.makeFolders? hnames hfolder hmake)

/-- A cache with the folder stores twice under a key; one without, and another one with the folder look it up. -/
def handover (old new : Analysis) : List Call :=
  [.openFolder ["cache"], .use 0 (.store "k" old), .use 0 (.store "k" new), .openMemory, .openFolder ["cache"],
    .use 1 (.get "k"), .use 2 (.get "k"), .use 2 .clear, .use 2 (.get "k")]

theorem found_latest_handover :
    let calls := handover ⟨.empty, ["old"]⟩ ⟨.empty, ["new"]⟩
    Orderly "cache" .empty calls ∧
      ((run ⟨[], .empty⟩ (calls.take 2)).call (.use 0 (.store "k" ⟨.empty, ["new"]⟩))).2 = some (.stored true) ∧
      (run ⟨[], .empty⟩ (calls.take 5)).hasFolder 2 = true ∧
      ((run ⟨[], .empty⟩ (calls.take 5)).call (.use 1 (.get "k"))).2 = some (.found none) ∧
      ((run ⟨[], .empty⟩ (calls.take 6)).call (.use 2 (.get "k"))).2 = some (.found (some ⟨.empty, ["new"]⟩)) ∧
      ((run ⟨[], .empty⟩ (calls.take 8)).call (.use 2 (.get "k"))).2 = some (.found none) := by
  intro calls
  have h : Orderly "cache" .empty calls := by
    refine ⟨Storage.rooted_empty, fun key => ?_, by decide +kernel, by decide +kernel⟩
    rw [kept?, Option.bind_some, Storage.read?_of_not_hasFolder (by decide +kernel), Option.bind_none]
  refine ⟨h, ?_, ?_, ?_, ?_, ?_⟩
  · exact (found_latest h (calls.take 2) (calls.drop 3)).2.1 0 "k" _ rfl
  · exact (found_latest h (calls.take 4) (calls.drop 5)).2.2 ["cache"] (by decide +kernel) (by decide +kernel)
      (by decide +kernel) rfl
  · rw [(found_latest h (calls.take 5) (calls.drop 6)).1 1 "k" rfl]
    decide +kernel
  · rw [(found_latest h (calls.take 6) (calls.drop 7)).1 2 "k" rfl]
    decide +kernel
  · rw [(found_latest h (calls.take 8) (calls.drop 9)).1 2 "k" rfl]
    decide +kernel

end Caches

end FileGraph
