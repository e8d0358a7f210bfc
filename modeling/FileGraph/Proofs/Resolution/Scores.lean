import FileGraph.Proofs.Text.Words
import FileGraph.Resolution
import Mathlib.Algebra.Ring.Nat
/-!
# Scores — what the references of a file add up to

What a file adds to the files of one stem is the sum of its references to that stem (`total`), whatever the order in
which the references come.  A position has a score if something was added for it, and the score is the low bits of all
that was (`getElem?_foldlM_addTo`): of the references to the stem at the position (`total_additions`).  Their sum has
three parts: imports, words, and the search for an irregular stem (`total_references`).
-/
namespace FileGraph.Resolution

open Text

section Total

variable {κ : Type} [DecidableEq κ]

/-- What is listed under a key, added up in as many bits as it takes. -/
def total (k : κ) (xs : List (κ × UInt32)) : Nat := (xs.map fun x => if x.1 = k then x.2.toNat else 0).sum

theorem total_append (k : κ) (xs ys : List (κ × UInt32)) : total k (xs ++ ys) = total k xs + total k ys := by
  simp [total, List.sum_append]

theorem total_cons (k : κ) (x : κ × UInt32) (xs : List (κ × UInt32)) :
    total k (x :: xs) = (if x.1 = k then x.2.toNat else 0) + total k xs := by
  simp [total]

theorem total_perm (k : κ) {xs ys : List (κ × UInt32)} (h : xs.Perm ys) : total k xs = total k ys :=
  (h.map _).sum_nat

theorem total_eq_zero (k : κ) : ∀ (xs : List (κ × UInt32)), (∀ x ∈ xs, x.1 ≠ k) → total k xs = 0
  | [], _ => rfl
  | x :: xs, h => by
    rw [total_cons, if_neg (h x List.mem_cons_self), total_eq_zero k xs fun y hy => h y (List.mem_cons_of_mem _ hy)]

/-- In a table each key is listed once. -/
theorem total_of_mem (k : κ) (n : UInt32) : ∀ (xs : List (κ × UInt32)),
    xs.Pairwise (fun a b => a.1 ≠ b.1) → (k, n) ∈ xs → total k xs = n.toNat
  | [], _, h => by cases h
  | x :: xs, hd, h => by
    rw [List.pairwise_cons] at hd
    rw [total_cons]
    rcases List.mem_cons.1 h with rfl | h
    · rw [if_pos rfl, total_eq_zero k xs fun y hy => (hd.1 y hy).symm, Nat.add_zero]
    · rw [if_neg (hd.1 _ h), total_of_mem k n xs hd.2 h, Nat.zero_add]

end Total

/-! ## The index -/

/-- **A position stands once under the stem that stands at it**, and never under the empty one. -/
theorem count_indexFrom (stem : String) (t : Nat) : ∀ (stems : List String) (position : Nat) (index : StemIndex),
    ((indexFrom position stems index).getD stem []).count t =
      (index.getD stem []).count t + if stem ≠ "" ∧ position ≤ t ∧ stems[t - position]? = some stem then 1 else 0
  | [], position, index => by simp [indexFrom]
  | s :: ss, position, index => by
    rw [indexFrom, count_indexFrom stem t ss (position + 1)]
    by_cases ht : t = position
    · subst ht
      have hno : ¬ t + 1 ≤ t := Nat.not_succ_le_self t
      by_cases hs : s = ""
      · subst hs
        by_cases he : stem = ""
        · simp [he]
        · simp [hno, Ne.symm he]
      · rw [if_neg hs, Std.HashMap.getD_insert]
        by_cases hss : s = stem
        · subst hss; simp [hs, hno]
        · simp [hss, hno]
    · have hcount : ((if s = "" then index else index.insert s (position :: index.getD s [])).getD stem []).count t =
          (index.getD stem []).count t := by
        by_cases hs : s = ""
        · rw [if_pos hs]
        · rw [if_neg hs, Std.HashMap.getD_insert]
          by_cases hss : s = stem
          · subst hss; simp [Ne.symm ht]
          · simp [hss]
      rw [hcount]
      by_cases hlt : position < t
      · have hsub : t - position = (t - (position + 1)) + 1 := by omega
        simp [hsub, Nat.le_of_lt hlt, Nat.succ_le_of_lt hlt]
      · have h1 : ¬ position + 1 ≤ t := by omega
        have h2 : ¬ position ≤ t := by omega
        simp [h1, h2]

theorem mem_indexFrom (stem : String) : ∀ (stems : List String) (position : Nat) (index : StemIndex),
    stem ∈ indexFrom position stems index ↔ stem ∈ index ∨ stem ≠ "" ∧ stem ∈ stems
  | [], position, index => by simp [indexFrom]
  | s :: ss, position, index => by
    rw [indexFrom, mem_indexFrom stem ss]
    by_cases hs : s = ""
    · subst hs
      by_cases he : stem = "" <;> simp [he]
    · rw [if_neg hs, Std.HashMap.mem_insert, beq_iff_eq, List.mem_cons]
      by_cases hss : s = stem
      · subst hss; simp [hs]
      · simp [hss, Ne.symm hss]

theorem mem_irregularStems {stem : String} {stems : List String} {t : Nat} (hat : stems[t]? = some stem)
    (hne : stem ≠ "") : stem ∈ irregularStems (indexFrom 0 stems {}) ↔ isPlainName stem.toList = false := by
  rw [irregularStems, List.mem_filter, Std.HashMap.mem_keys, mem_indexFrom]
  simp [hne, List.mem_of_getElem? hat]

theorem nodup_irregularStems (index : StemIndex) : (irregularStems index).Nodup :=
  Std.HashMap.nodup_keys.filter _

theorem mem_getD_indexFrom {name : String} {stems : List String} {t : Nat} :
    t ∈ (indexFrom 0 stems {}).getD name [] ↔ name ≠ "" ∧ stems[t]? = some name := by
  rw [← List.count_pos_iff, count_indexFrom]
  by_cases hne : name = ""
  · simp [hne]
  · by_cases hat : stems[t]? = some name <;> simp [hne, hat]

/-! ## Adding up -/

/-- **A position has a score if something was added for it**: the low bits of all that was. -/
theorem getElem?_foldlM_addTo (t : Nat) : ∀ (as : List (Nat × UInt32)) (scores : Scores),
    (as.foldlM (addTo wrapping) scores).run[t]? =
      if t ∈ as.map (·.1) then some (scores.getD t 0 + .ofNat (total t as)) else scores[t]?
  | [], scores => by simp
  | a :: as, scores => by
    have hstep : ((a :: as).foldlM (addTo wrapping) scores).run =
        (as.foldlM (addTo wrapping) (scores.insert a.1 (scores.getD a.1 0 + a.2))).run := rfl
    rw [hstep, getElem?_foldlM_addTo t as, Std.TreeMap.getD_insert, Std.TreeMap.getElem?_insert, total_cons]
    by_cases hat : a.1 = t
    · subst hat
      by_cases hmem : a.1 ∈ as.map (·.1)
      · simp [hmem, UInt32.ofNat_add, UInt32.add_assoc]
      · have hzero : total a.1 as = 0 :=
          total_eq_zero a.1 as fun x hx hxa => hmem (List.mem_map.2 ⟨x, hx, hxa⟩)
        simp [hmem, hzero]
    · have hcompare : compare a.1 t ≠ .eq := fun h => hat (Std.LawfulEqCmp.eq_of_compare h)
      have hmem : t ∈ (a :: as).map (·.1) ↔ t ∈ as.map (·.1) := by
        rw [List.map_cons, List.mem_cons, or_iff_right (Ne.symm hat)]
      simp only [if_neg hcompare, if_neg hat, Nat.zero_add, hmem]

theorem getD_foldlM_addTo (t : Nat) (as : List (Nat × UInt32)) :
    (as.foldlM (addTo wrapping) ({} : Scores)).run.getD t 0 = .ofNat (total t as) := by
  rw [Std.TreeMap.getD_eq_getD_getElem?, getElem?_foldlM_addTo]
  by_cases hmem : t ∈ as.map (·.1)
  · simp [hmem]
  · have hzero : total t as = 0 := total_eq_zero t as fun x hx hxt => hmem (List.mem_map.2 ⟨x, hx, hxt⟩)
    simp [hmem, hzero]

theorem mem_additions {stems : List String} {source t : Nat} {rs : List (String × UInt32)} :
    t ∈ (additions (indexFrom 0 stems {}) source rs).map (·.1) ↔
      t ≠ source ∧ ∃ stem, stems[t]? = some stem ∧ stem ≠ "" ∧ ∃ r ∈ rs, r.1 = stem ∧ r.2 ≠ 0 := by
  simp only [additions, List.mem_map, List.mem_flatMap]
  constructor
  · rintro ⟨_, ⟨r, hr, hmem⟩, rfl⟩
    by_cases hzero : r.2 = 0
    · simp [hzero] at hmem
    · rw [if_neg hzero, List.mem_map] at hmem
      obtain ⟨t, ht, rfl⟩ := hmem
      obtain ⟨hin, hother⟩ := List.mem_filter.1 ht
      obtain ⟨hne, hat⟩ := mem_getD_indexFrom.1 hin
      exact ⟨by simpa using hother, r.1, hat, hne, r, hr, rfl, hzero⟩
  · rintro ⟨hother, _, hat, hne, r, hr, rfl, hzero⟩
    refine ⟨(t, r.2), ⟨r, hr, ?_⟩, rfl⟩
    rw [if_neg hzero, List.mem_map]
    exact ⟨t, List.mem_filter.2 ⟨mem_getD_indexFrom.2 ⟨hne, hat⟩, by simpa using hother⟩, rfl⟩

/-- **What is added for a position is what refers to the stem at it.** -/
theorem total_additions {stems : List String} {source t : Nat} {stem : String} (hat : stems[t]? = some stem)
    (hne : stem ≠ "") (hother : t ≠ source) : ∀ (rs : List (String × UInt32)),
      total t (additions (indexFrom 0 stems {}) source rs) = total stem rs
  | [] => rfl
  | r :: rs => by
    have hrest := total_additions hat hne hother rs
    have hone : ∀ targets : List Nat, total t ((targets.filter (· != source)).map fun target => (target, r.2)) =
        targets.count t * r.2.toNat := by
      intro targets
      induction targets with
      | nil => simp [total]
      | cons x xs ih =>
        by_cases hx : x = t
        · subst hx
          simp [hother, total_cons, ih, Nat.add_mul, Nat.add_comm]
        · by_cases hs : x = source
          · simp [hs, ih, Ne.symm hother]
          · simp [hs, total_cons, hx, ih]
    rw [total_cons, ← hrest]
    simp only [additions, List.flatMap_cons, total_append]
    refine congrArg (· + _) ?_
    by_cases hzero : r.2 = 0
    · simp [hzero, total]
    · rw [if_neg hzero, hone, count_indexFrom]
      by_cases hr : r.1 = stem
      · simp [hr, hne, hat]
      · simp [hr, Ne.symm hr, hat]

/-! ## What a file refers to -/

theorem total_imports (stem : String) (importScore : UInt32) : ∀ (imports : List String),
    total stem (imports.map fun s => (Path.specifierName s, importScore)) =
      importScore.toNat * imports.countP fun s => Path.specifierName s == stem
  | [] => rfl
  | s :: ss => by
    rw [List.map_cons, total_cons, total_imports stem importScore ss, List.countP_cons, Nat.mul_add, Nat.add_comm]
    by_cases h : Path.specifierName s = stem <;> simp [h]

theorem getD_foldlM_countWord (stem : String) : ∀ (ws : List (List Char)) (counts : Std.HashMap String UInt32),
    (ws.foldlM (countWord wrapping) counts).run.getD stem 0 = counts.getD stem 0 + .ofNat (ws.count stem.toList)
  | [], counts => by simp
  | w :: ws, counts => by
    have hstep : ((w :: ws).foldlM (countWord wrapping) counts).run =
        (ws.foldlM (countWord wrapping) (counts.insert (.ofList w) (counts.getD (.ofList w) 0 + 1))).run := rfl
    rw [hstep, getD_foldlM_countWord stem ws, Std.HashMap.getD_insert, List.count_cons]
    by_cases h : w = stem.toList
    · subst h
      simp [UInt32.ofNat_add, UInt32.add_assoc, UInt32.add_comm 1]
    · have hs : ¬ String.ofList w = stem := fun e => h (by rw [← e, String.toList_ofList])
      simp [h, hs]

theorem getD_countWords (stem : String) (text : List Char) :
    (countWords wrapping text).run.getD stem 0 = .ofNat ((words text).count stem.toList) := by
  rw [countWords, getD_foldlM_countWord]
  simp

theorem total_toList (stem : String) (counts : Std.HashMap String UInt32) :
    total stem counts.toList = (counts.getD stem 0).toNat := by
  rw [Std.HashMap.getD_eq_getD_getElem?]
  cases h : counts[stem]? with
  | none =>
    refine total_eq_zero stem _ fun r hr e => ?_
    have := Std.HashMap.mem_toList_iff_getElem?_eq_some.1 hr
    rw [e, h] at this
    cases this
  | some n =>
    refine total_of_mem stem n _ ?_ (Std.HashMap.mem_toList_iff_getElem?_eq_some.2 h)
    exact Std.HashMap.distinct_keys_toList.imp fun h => by simpa using h

theorem total_mentions (stem : String) (text : List Char) {stems : List String} (h : stems.Nodup) :
    total stem (stems.map fun s => (s, .ofNat (mentions s.toList text))) =
      if stem ∈ stems then mentions stem.toList text % UInt32.size else 0 := by
  by_cases hm : stem ∈ stems
  · rw [if_pos hm]
    refine total_of_mem stem (.ofNat (mentions stem.toList text)) _ ?_ (List.mem_map.2 ⟨stem, hm, rfl⟩)
    exact List.pairwise_map.2 h
  · rw [if_neg hm]
    refine total_eq_zero stem _ fun r hr e => ?_
    obtain ⟨s, hs, rfl⟩ := List.mem_map.1 hr
    exact hm (e ▸ hs)

section References

variable (stem : String) (importScore : UInt32) {irregular stems : List String} (hperm : irregular.Perm stems)
  (order : List (String × UInt32) → List (String × UInt32)) (horder : ∀ ws, (order ws).Perm ws) (imports : List String)
  (text : List Char)

theorem references_wrapping : (references wrapping importScore irregular order imports text).run =
    imports.map (fun s => (Path.specifierName s, importScore)) ++ order (countWords wrapping text).run.toList ++
      irregular.map fun s => (s, .ofNat (mentions s.toList text)) :=
  rfl

include hperm horder

/-- **A stem is counted in three ways**, in whatever order the words and the irregular stems come: by the imports, by
the words of the text, and, if it is irregular, by a search of its own.  Each count keeps its low bits. -/
theorem total_references (hnodup : stems.Nodup) :
    total stem (references wrapping importScore irregular order imports text).run =
      importScore.toNat * (imports.countP fun s => Path.specifierName s == stem) +
        (words text).count stem.toList % UInt32.size +
          if stem ∈ stems then mentions stem.toList text % UInt32.size else 0 := by
  rw [references_wrapping, total_append, total_append, total_imports, total_perm stem (horder _), total_toList,
    getD_countWords, total_perm stem (hperm.map _), total_mentions stem text hnodup]
  rfl

/-- One of the three counts is not zero. -/
theorem exists_reference_iff :
    (∃ r ∈ (references wrapping importScore irregular order imports text).run, r.1 = stem ∧ r.2 ≠ 0) ↔
      (importScore ≠ 0 ∧ ∃ s ∈ imports, Path.specifierName s = stem) ∨
        UInt32.ofNat ((words text).count stem.toList) ≠ 0 ∨
          stem ∈ stems ∧ UInt32.ofNat (mentions stem.toList text) ≠ 0 := by
  have hword : ∀ n, (stem, n) ∈ order (countWords wrapping text).run.toList ∧ n ≠ 0 ↔
      n = UInt32.ofNat ((words text).count stem.toList) ∧ n ≠ 0 := by
    intro n
    rw [(horder _).mem_iff, Std.HashMap.mem_toList_iff_getElem?_eq_some, ← getD_countWords,
      Std.HashMap.getD_eq_getD_getElem?]
    cases (countWords wrapping text).run[stem]? with
    | none => simp
    | some k => simp [eq_comm]
  rw [references_wrapping]
  constructor
  · rintro ⟨r, hr, rfl, hne⟩
    rcases List.mem_append.1 hr with hr | hr
    · rcases List.mem_append.1 hr with hr | hr
      · obtain ⟨s, hs, rfl⟩ := List.mem_map.1 hr
        exact .inl ⟨hne, s, hs, rfl⟩
      · obtain ⟨heq, -⟩ := (hword r.2).1 ⟨hr, hne⟩
        exact .inr (.inl (heq ▸ hne))
    · obtain ⟨s, hs, rfl⟩ := List.mem_map.1 hr
      exact .inr (.inr ⟨hperm.mem_iff.1 hs, hne⟩)
  · rintro (⟨hne, s, hs, rfl⟩ | hne | ⟨hmem, hne⟩)
    · exact ⟨_, List.mem_append_left _ (List.mem_append_left _ (List.mem_map.2 ⟨s, hs, rfl⟩)), rfl, hne⟩
    · have hmem := ((hword _).2 ⟨rfl, hne⟩).1
      exact ⟨_, List.mem_append_left _ (List.mem_append_right _ hmem), rfl, hne⟩
    · exact ⟨_, List.mem_append_right _ (List.mem_map.2 ⟨stem, hperm.mem_iff.2 hmem, rfl⟩), rfl, hne⟩

end References

end FileGraph.Resolution
