import Mathlib.Data.List.Basic
/-!
# Sorting — sorts are stable, and repeats are erased behind the first

A sort leaves what is equal in the order in which it was, position by position (`pairwise_mergeSort_zipIdx`).  When
repeats are erased from values read off a list, each value stays where the first element with it stands
(`pairwise_eraseDups_map`).
-/
namespace FileGraph

variable {α β : Type}

/-! ## Stable sorts -/

section Stable

variable (le : α → α → Bool) (htrans : ∀ a b c, le a b → le b c → le a c) (htotal : ∀ a b, le a b || le b a)
include htrans htotal

/-- **A sort is stable**: of two elements of which each could come first, that one does which has the earlier
position. -/
theorem pairwise_mergeSort_zipIdx (l : List α) :
    (l.zipIdx.mergeSort (List.zipIdxLE le)).Pairwise fun p q =>
      le p.1 q.1 = true ∧ (le q.1 p.1 = true → p.2 < q.2) := by
  have hordered := List.pairwise_mergeSort (List.zipIdxLE_trans htrans) (List.zipIdxLE_total htotal) l.zipIdx
  -- no position twice
  have hapart : (l.zipIdx.mergeSort (List.zipIdxLE le)).Pairwise fun p q => p.2 ≠ q.2 := by
    have hnodup : ((l.zipIdx.mergeSort (List.zipIdxLE le)).map Prod.snd).Nodup := by
      rw [((List.mergeSort_perm l.zipIdx (List.zipIdxLE le)).map Prod.snd).nodup_iff, List.zipIdx_map_snd]
      exact List.nodup_range'
    exact List.pairwise_map.1 hnodup
  refine (hordered.and hapart).imp ?_
  rintro ⟨a, i⟩ ⟨b, j⟩ ⟨hle, hne⟩
  unfold List.zipIdxLE at hle
  split at hle
  · rename_i hab
    refine ⟨hab, fun hba => ?_⟩
    rw [if_pos hba, decide_eq_true_eq] at hle
    exact Nat.lt_of_le_of_ne hle hne
  · cases hle

theorem pairwise_mergeSort_stable (l : List α) :
    (l.mergeSort le).Pairwise fun a b => le a b = true ∧ (le b a = true → [a, b].Sublist l) := by
  have hpairs : l.Pairwise fun a b => [a, b].Sublist l := List.pairwise_iff_forall_sublist.2 fun h => h
  rw [← List.mergeSort_zipIdx, List.pairwise_map]
  refine (pairwise_mergeSort_zipIdx le htrans htotal l).imp_of_mem ?_
  rintro ⟨a, i⟩ ⟨b, j⟩ ha hb ⟨hle, hstays⟩
  rw [List.mem_mergeSort, List.mk_mem_zipIdx_iff_getElem?] at ha hb
  obtain ⟨hi, rfl⟩ := List.getElem?_eq_some_iff.1 ha
  obtain ⟨hj, rfl⟩ := List.getElem?_eq_some_iff.1 hb
  exact ⟨hle, fun hba => List.pairwise_iff_getElem.1 hpairs i j hi hj (hstays hba)⟩

end Stable

/-! ## Repeats -/

/-- **Each value stays where its first element stands**: of two values that are left, the earlier one has an element
that comes before every element of the later one. -/
theorem pairwise_eraseDups_map [BEq β] [LawfulBEq β] {R : α → α → Prop} (f : α → β) : ∀ {l : List α}, l.Pairwise R →
    (l.map f).eraseDups.Pairwise fun x y => ∃ a ∈ l, f a = x ∧ ∀ b ∈ l, f b = y → R a b
  | [], _ => .nil
  | a :: l, h => by
    obtain ⟨hhead, htail⟩ := List.pairwise_cons.1 h
    have hrest : (l.map f).filter (fun x => !x == f a) = (l.filter fun b => !f b == f a).map f := by
      rw [List.filter_map]
      rfl
    have hlength : (l.filter fun b => !f b == f a).length < l.length + 1 :=
      Nat.lt_succ_of_le (List.length_filter_le _ l)
    have ih := pairwise_eraseDups_map f (htail.filter fun b => !f b == f a)
    rw [List.map_cons, List.eraseDups_cons, hrest, List.pairwise_cons]
    -- what is left behind the head has another value, and so do the elements that have it
    have hother : ∀ {x}, x ∈ ((l.filter fun b => !f b == f a).map f).eraseDups → x ≠ f a := by
      intro x hx
      rw [List.mem_eraseDups, ← hrest, List.mem_filter] at hx
      simpa using hx.2
    have hmem : ∀ {b}, b ∈ a :: l → f b ≠ f a → b ∈ l := by
      intro b hb hne
      rcases List.mem_cons.1 hb with rfl | hb
      · exact absurd rfl hne
      · exact hb
    constructor
    · intro y hy
      refine ⟨a, List.mem_cons_self, rfl, ?_⟩
      rintro b hb rfl
      exact hhead b (hmem hb (hother hy))
    · refine ih.imp_of_mem ?_
      rintro x y - hy ⟨b, hb, rfl, hbefore⟩
      refine ⟨b, List.mem_cons_of_mem _ (List.mem_of_mem_filter hb), rfl, ?_⟩
      rintro c hc rfl
      exact hbefore c (List.mem_filter.2 ⟨hmem hc (hother hy), by simpa using hother hy⟩) rfl
termination_by l => l.length

/-! ## Positions -/

variable [BEq α] [LawfulBEq α] {l : List α}

theorem idxOf_le_of_getElem? {a : α} {i : Nat} (h : l[i]? = some a) : l.idxOf a ≤ i := by
  obtain ⟨hi, hget⟩ := List.getElem?_eq_some_iff.1 h
  by_contra hlt
  have hfirst := List.not_of_lt_findIdx (Nat.lt_of_not_le hlt)
  simp [hget] at hfirst

theorem rel_of_idxOf_lt {R : α → α → Prop} (h : l.Pairwise R) {x y : α} (hy : y ∈ l) (hlt : l.idxOf x < l.idxOf y) :
    R x y := by
  have hylength := List.idxOf_lt_length_of_mem hy
  have hxy := List.pairwise_iff_getElem.1 h _ _ (Nat.lt_trans hlt hylength) hylength hlt
  rwa [List.getElem_idxOf, List.getElem_idxOf] at hxy

end FileGraph
