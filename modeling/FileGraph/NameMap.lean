/-!
# NameMap — values under names, in the order of the names

A finite map from strings, kept as its list of entries in strictly increasing order of the names.  Two maps are equal
as soon as their entries are (`NameMap.ext`), and what a lookup gives after an insertion is `get?_insert`.
-/
namespace FileGraph

universe u

/-- A finite map from names to values. -/
@[ext] structure NameMap (α : Type u) where
  entries : List (String × α)
  sorted  : entries.Pairwise fun a b => a.1 < b.1

namespace NameMap

variable {α : Type u}

instance [DecidableEq α] : DecidableEq (NameMap α) := fun a b =>
  if h : a.entries = b.entries then isTrue (NameMap.ext h) else isFalse fun e => h (e ▸ rfl)

/-- The map without entries. -/
def empty : NameMap α := ⟨[], .nil⟩

instance : Inhabited (NameMap α) := ⟨empty⟩

/-- Puts an entry into its place in a sorted list, instead of an entry of the same name if there is one. -/
def insertSorted (name : String) (value : α) : List (String × α) → List (String × α)
  | [] => [(name, value)]
  | e :: es =>
    if name < e.1 then (name, value) :: e :: es
    else if name = e.1 then (name, value) :: es
    else e :: insertSorted name value es

theorem mem_insertSorted {name : String} {value : α} {x : String × α} :
    ∀ {es : List (String × α)}, x ∈ insertSorted name value es → x = (name, value) ∨ x ∈ es
  | [], h => by simpa [insertSorted] using h
  | e :: es, h => by
    unfold insertSorted at h
    split at h
    · simpa using h
    · split at h
      · rcases List.mem_cons.1 h with h | h
        · exact .inl h
        · exact .inr (.tail _ h)
      · rcases List.mem_cons.1 h with h | h
        · exact .inr (h ▸ .head _)
        · exact (mem_insertSorted h).imp id (.tail _)

theorem name_lt_of_not {a b : String} (h : ¬ a < b) (hne : a ≠ b) : b < a :=
  Decidable.byContradiction fun h' => hne (String.le_antisymm h' h)

theorem sorted_insertSorted (name : String) (value : α) :
    ∀ {es : List (String × α)}, es.Pairwise (fun a b => a.1 < b.1) →
      (insertSorted name value es).Pairwise fun a b => a.1 < b.1
  | [], _ => by simp [insertSorted]
  | e :: es, h => by
    have htl := List.pairwise_cons.1 h
    unfold insertSorted
    split
    · next hlt =>
      refine List.pairwise_cons.2 ⟨fun x hx => ?_, h⟩
      rcases List.mem_cons.1 hx with hx | hx
      · exact hx ▸ hlt
      · exact String.lt_trans hlt (htl.1 x hx)
    · next hlt =>
      split
      · next heq => exact List.pairwise_cons.2 ⟨fun x hx => heq ▸ htl.1 x hx, htl.2⟩
      · next hne =>
        refine List.pairwise_cons.2 ⟨fun x hx => ?_, sorted_insertSorted name value htl.2⟩
        rcases mem_insertSorted hx with hx | hx
        · exact hx ▸ name_lt_of_not hlt hne
        · exact htl.1 x hx

/-- The map with a value under a name, instead of the value that was there. -/
def insert (m : NameMap α) (name : String) (value : α) : NameMap α :=
  ⟨insertSorted name value m.entries, sorted_insertSorted name value m.sorted⟩

/-- The value under a name. -/
def get? (m : NameMap α) (name : String) : Option α := m.entries.lookup name

/-- Whether there is a value under a name. -/
def contains (m : NameMap α) (name : String) : Bool := (m.get? name).isSome

def size (m : NameMap α) : Nat := m.entries.length

/-- The map of a list of entries, the later of two entries of one name counting. -/
def ofList (es : List (String × α)) : NameMap α :=
  es.foldl (fun m e => m.insert e.1 e.2) empty

/-- The names, in increasing order. -/
def names (m : NameMap α) : List String := m.entries.map (·.1)

theorem lookup_cons_eq (name : String) (e : String × α) (es : List (String × α)) :
    (e :: es).lookup name = if name = e.1 then some e.2 else es.lookup name := by
  rw [List.lookup_cons]
  by_cases h : name = e.1
  · rw [if_pos h, beq_iff_eq.2 h]
  · rw [if_neg h, beq_false_of_ne h]

theorem lookup_insertSorted (name : String) (value : α) (other : String) :
    ∀ es : List (String × α),
      (insertSorted name value es).lookup other = if other = name then some value else es.lookup other
  | [] => by rw [insertSorted, lookup_cons_eq]
  | e :: es => by
    unfold insertSorted
    split
    · rw [lookup_cons_eq]
    · split
      · next heq =>
        rw [lookup_cons_eq, lookup_cons_eq, ← heq]
        by_cases h : other = name <;> simp [h]
      · next hne =>
        rw [lookup_cons_eq, lookup_insertSorted name value other es, lookup_cons_eq]
        by_cases h : other = name
        · subst h; simp [hne]
        · simp [h]

/-- **A lookup gives what was inserted last under the name.** -/
@[simp] theorem get?_insert (m : NameMap α) (name : String) (value : α) (other : String) :
    (m.insert name value).get? other = if other = name then some value else m.get? other :=
  lookup_insertSorted name value other m.entries

@[simp] theorem get?_empty (name : String) : (empty : NameMap α).get? name = none := rfl

theorem get?_foldl_insert (name : String) : ∀ (es : List (String × α)) (m : NameMap α),
    (es.foldl (fun m e => m.insert e.1 e.2) m).get? name = (es.reverse.lookup name).or (m.get? name)
  | [], _ => rfl
  | e :: es, m => by
    rw [List.foldl_cons, get?_foldl_insert name es, get?_insert, List.reverse_cons, List.lookup_append, Option.or_assoc,
      lookup_cons_eq]
    by_cases h : name = e.1
    · rw [if_pos h, if_pos h, Option.some_or]
    · rw [if_neg h, if_neg h]
      rfl

theorem mem_names_iff {m : NameMap α} {name : String} : name ∈ m.names ↔ (m.get? name).isSome = true := by
  rw [names, get?, List.lookup_isSome_iff, List.mem_map]
  simp only [beq_iff_eq, @eq_comm String name]

theorem lookup_filter (p : String → Bool) (name : String) : ∀ es : List (String × α),
    (es.filter fun e => p e.1).lookup name = if p name then es.lookup name else none
  | [] => by rw [List.filter_nil, List.lookup_nil, ite_self]
  | e :: es => by
    have ih := lookup_filter p name es
    rw [List.filter_cons, lookup_cons_eq]
    cases hp : p e.1 with
    | true =>
      rw [if_pos rfl, lookup_cons_eq, ih]
      by_cases hname : name = e.1
      · rw [if_pos hname, hname, hp, if_pos rfl, if_pos rfl]
      · rw [if_neg hname, if_neg hname]
    | false =>
      rw [if_neg Bool.false_ne_true, ih]
      by_cases hname : name = e.1
      · rw [hname, hp, if_neg Bool.false_ne_true, if_neg Bool.false_ne_true]
      · rw [if_neg hname]

theorem lookup_eq_some_iff {name : String} {value : α} : ∀ {es : List (String × α)},
    es.Pairwise (fun a b => a.1 < b.1) → (es.lookup name = some value ↔ (name, value) ∈ es)
  | [], _ => by simp
  | e :: es, h => by
    obtain ⟨hhead, htail⟩ := List.pairwise_cons.1 h
    rw [lookup_cons_eq, List.mem_cons, Prod.ext_iff]
    by_cases hname : name = e.1
    · have habsent : (name, value) ∉ es := fun hmem => String.lt_irrefl _ (hname ▸ hhead _ hmem)
      simp [hname, hname ▸ habsent, @eq_comm α value]
    · simp [hname, lookup_eq_some_iff htail]

theorem mem_entries_iff {m : NameMap α} {name : String} {value : α} :
    (name, value) ∈ m.entries ↔ m.get? name = some value :=
  (lookup_eq_some_iff m.sorted).symm

theorem nodup_names (m : NameMap α) : m.names.Nodup := by
  rw [names, List.Nodup, List.pairwise_map]
  exact m.sorted.imp fun hlt => String.ne_of_lt hlt

theorem size_le_of_names {m : NameMap α} {keys : List String} (h : ∀ name ∈ m.names, name ∈ keys) :
    m.size ≤ keys.length := by
  have hle := m.nodup_names.length_le_of_subset h
  rwa [names, List.length_map] at hle

/-- **A lookup in the map of a list gives the last entry of the name.** -/
theorem get?_ofList (es : List (String × α)) (name : String) : (ofList es).get? name = es.reverse.lookup name := by
  rw [ofList, get?_foldl_insert, get?_empty, Option.or_none]

end NameMap

end FileGraph
