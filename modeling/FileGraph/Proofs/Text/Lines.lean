import FileGraph.Text.Lines
/-!
# Lines — pieces are one more than separators

The count of a text's lines by newlines takes in every line that can be read (`length_lines_le`).  The lines of a text
that is put after whole lines come after these (`lines_append`).  What is cut off at a separator is cut at the first one
(`eq_of_cut?`) or at the last one (`eq_of_cutLast?`), whatever stands before that.  A text is trimmed up to the last
character that is not trimmed away (`trim_append`).
-/
namespace FileGraph.Text

theorem length_pieces (sep : Char) : ∀ (cs : List Char), (pieces sep cs).length = cs.count sep + 1
  | [] => rfl
  | c :: cs => by
    have ih := length_pieces sep cs
    rw [pieces, List.count_cons]
    by_cases h : c = sep
    · rw [if_pos h, List.length_cons, ih, if_pos (beq_iff_eq.2 h)]
    · rw [if_neg h, if_neg (by simpa using h)]
      cases hp : pieces sep cs with
      | nil => rw [hp] at ih; cases ih
      | cons p ps => rw [hp] at ih; exact ih

theorem length_lines_le (cs : List Char) : (lines cs).length ≤ lineCount cs := by
  unfold lines lineCount
  have hpos : 0 < (pieces '\n' cs).length := by rw [length_pieces]; omega
  have hlast : ((pieces '\n' cs).getLast?.toList.filter fun l => !l.isEmpty).length ≤ 1 :=
    Nat.le_trans (List.length_filter_le _ _) (by cases (pieces '\n' cs).getLast? <;> simp)
  simp only [List.length_append, List.length_map, List.length_dropLast]
  omega

/-! ## Whole lines -/

theorem pieces_ne_nil (sep : Char) (cs : List Char) : pieces sep cs ≠ [] := by
  intro h
  have hlength := length_pieces sep cs
  simp [h] at hlength

theorem pieces_append (sep : Char) (vs : List Char) : ∀ (us : List Char),
    pieces sep (us ++ sep :: vs) = pieces sep us ++ pieces sep vs
  | [] => by simp [pieces]
  | u :: us => by
    have ih := pieces_append sep vs us
    rw [List.cons_append, pieces, pieces, ih]
    by_cases h : u = sep
    · simp [h]
    · cases hp : pieces sep us with
      | nil => exact absurd hp (pieces_ne_nil sep us)
      | cons p ps => simp [h]

theorem pieces_of_notMem {sep : Char} : ∀ {cs : List Char}, sep ∉ cs → pieces sep cs = [cs]
  | [], _ => rfl
  | c :: cs, h => by
    rw [List.mem_cons, not_or] at h
    rw [pieces, if_neg fun heq => h.1 heq.symm, pieces_of_notMem h.2]

/-- That a text consists of lines each of which is ended by a newline. -/
def WholeLines (cs : List Char) : Prop := cs.getLast?.all (· == '\n') = true

instance (cs : List Char) : Decidable (WholeLines cs) := inferInstanceAs (Decidable (_ = true))

theorem lines_append_newline (us vs : List Char) :
    lines (us ++ '\n' :: vs) = (pieces '\n' us).map dropReturn ++ lines vs := by
  have hne := pieces_ne_nil '\n' vs
  obtain ⟨l, hl⟩ : ∃ l, (pieces '\n' vs).getLast? = some l := ⟨_, List.getLast?_eq_some_getLast hne⟩
  unfold lines
  simp [pieces_append, List.dropLast_append_of_ne_nil hne, hl]

/-- **A text after whole lines adds its lines to them.** -/
theorem lines_append {us : List Char} (h : WholeLines us) (vs : List Char) : lines (us ++ vs) = lines us ++ lines vs := by
  cases hlast : us.getLast? with
  | none =>
    obtain rfl : us = [] := List.getLast?_eq_none_iff.1 hlast
    rfl
  | some c =>
    obtain ⟨init, rfl⟩ := List.getLast?_eq_some_iff.1 hlast
    obtain rfl : c = '\n' := by simpa [WholeLines] using h
    have hempty : lines [] = [] := rfl
    rw [List.append_assoc, List.singleton_append, lines_append_newline, lines_append_newline init [], hempty,
      List.append_nil]

/-! ## Cutting at a separator -/

theorem eq_of_cut? {sep : Char} : ∀ {cs before after : List Char}, cut? sep cs = some (before, after) →
    cs = before ++ sep :: after ∧ sep ∉ before
  | [], before, after, h => nomatch h
  | c :: cs, before, after, h => by
    rw [cut?] at h
    by_cases hc : c = sep
    · rw [if_pos hc] at h
      obtain ⟨rfl, rfl⟩ := Prod.mk.inj (Option.some.inj h)
      exact ⟨by rw [hc]; rfl, List.not_mem_nil⟩
    · rw [if_neg hc] at h
      obtain ⟨⟨before', after'⟩, hcut, he⟩ := Option.map_eq_some_iff.1 h
      obtain ⟨rfl, rfl⟩ := Prod.mk.inj he
      obtain ⟨rfl, hbefore⟩ := eq_of_cut? hcut
      exact ⟨rfl, by simp [Ne.symm hc, hbefore]⟩

theorem cut?_append {sep : Char} {vs : List Char} : ∀ {us : List Char}, sep ∉ us →
    cut? sep (us ++ sep :: vs) = some (us, vs)
  | [], _ => by rw [List.nil_append, cut?, if_pos rfl]
  | u :: us, h => by
    obtain ⟨hu, hus⟩ := not_or.1 (mt List.mem_cons.2 h)
    rw [List.cons_append, cut?, if_neg (Ne.symm hu), cut?_append hus]
    rfl

theorem cutLast?_eq_none {sep : Char} : ∀ {cs : List Char}, cutLast? sep cs = none ↔ sep ∉ cs
  | [] => by simp [cutLast?]
  | c :: cs => by
    have ih := @cutLast?_eq_none sep cs
    rw [cutLast?, List.mem_cons, not_or, ← ih]
    cases cutLast? sep cs with
    | some p => simp
    | none =>
      by_cases h : c = sep
      · simp [h]
      · simp [h, Ne.symm h]

theorem cutLast?_append {sep : Char} {vs : List Char} (h : sep ∉ vs) : ∀ (us : List Char),
    cutLast? sep (us ++ sep :: vs) = some (us, vs)
  | [] => by
    rw [List.nil_append, cutLast?, cutLast?_eq_none.2 h]
    simp
  | u :: us => by rw [List.cons_append, cutLast?, cutLast?_append h us]

theorem eq_of_cutLast? {sep : Char} : ∀ {cs before after : List Char}, cutLast? sep cs = some (before, after) →
    cs = before ++ sep :: after ∧ sep ∉ after
  | [], before, after, h => by simp [cutLast?] at h
  | c :: cs, before, after, h => by
    rw [cutLast?] at h
    cases hcut : cutLast? sep cs with
    | some p =>
      obtain ⟨rfl, hafter⟩ := eq_of_cutLast? hcut
      rw [hcut] at h
      obtain ⟨rfl, rfl⟩ := Prod.mk.inj (Option.some.inj h)
      exact ⟨rfl, hafter⟩
    | none =>
      rw [hcut] at h
      by_cases hc : c = sep
      · simp only [if_pos hc] at h
        obtain ⟨rfl, rfl⟩ := Prod.mk.inj (Option.some.inj h)
        exact ⟨by rw [hc]; rfl, cutLast?_eq_none.1 hcut⟩
      · simp [hc] at h

theorem lastPiece_append {sep : Char} {vs : List Char} (us : List Char) (h : sep ∉ vs) :
    lastPiece sep (us ++ sep :: vs) = vs := by
  rw [lastPiece, cutLast?_append h]

theorem not_mem_lastPiece (sep : Char) (cs : List Char) : sep ∉ lastPiece sep cs := by
  unfold lastPiece
  cases hcut : cutLast? sep cs with
  | some p => exact (eq_of_cutLast? hcut).2
  | none => exact cutLast?_eq_none.1 hcut

/-- **The last piece** has no separator, and is all of the text or stands after one. -/
theorem lastPiece_eq_iff {sep : Char} {cs last : List Char} :
    lastPiece sep cs = last ↔ sep ∉ last ∧ (cs = last ∨ ∃ us, cs = us ++ sep :: last) := by
  constructor
  · rintro rfl
    refine ⟨not_mem_lastPiece sep cs, ?_⟩
    unfold lastPiece
    cases hcut : cutLast? sep cs with
    | some p => exact .inr ⟨p.1, (eq_of_cutLast? hcut).1⟩
    | none => exact .inl rfl
  · rintro ⟨hlast, rfl | ⟨us, rfl⟩⟩
    · rw [lastPiece, cutLast?_eq_none.2 hlast]
    · exact lastPiece_append us hlast

theorem lastPiece_append_cons {sep : Char} (us vs : List Char) : lastPiece sep (us ++ sep :: vs) = lastPiece sep vs := by
  obtain ⟨hlast, hvs⟩ := lastPiece_eq_iff.1 (rfl : lastPiece sep vs = _)
  refine lastPiece_eq_iff.2 ⟨hlast, .inr ?_⟩
  rcases hvs with hvs | ⟨ws, hvs⟩
  · exact ⟨us, by rw [← hvs]⟩
  · refine ⟨us ++ sep :: ws, ?_⟩
    rw [List.append_assoc, List.cons_append, ← hvs]

theorem dropStart?_eq_some_iff : ∀ {start cs rest : List Char}, dropStart? start cs = some rest ↔ cs = start ++ rest
  | [], cs, rest => by rw [dropStart?, Option.some.injEq, List.nil_append]
  | p :: ps, [], rest => by simp [dropStart?]
  | p :: ps, c :: cs, rest => by
    rw [dropStart?, List.cons_append, List.cons.injEq]
    by_cases h : p = c
    · rw [if_pos h, dropStart?_eq_some_iff]
      exact (and_iff_right h.symm).symm
    · rw [if_neg h]
      exact ⟨fun hnone => (nomatch hnone), fun heq => absurd heq.1.symm h⟩

/-! ## Trimming -/

section Trimming

variable {p : Char → Bool} {x : Char}

theorem dropEndWhile_append (hx : p x = false) (us vs : List Char) :
    dropEndWhile p (us ++ x :: vs) = us ++ x :: dropEndWhile p vs := by
  have hreverse : (us ++ x :: vs).reverse = vs.reverse ++ (x :: us.reverse) := by simp
  have hstop : (x :: us.reverse).dropWhile p = x :: us.reverse := by simp [hx]
  unfold dropEndWhile
  rw [hreverse, List.dropWhile_append, hstop]
  split
  · rename_i hnil
    simp [List.isEmpty_iff.1 hnil]
  · simp

theorem dropEndWhile_subset (p : Char → Bool) (cs : List Char) : dropEndWhile p cs ⊆ cs := by
  intro c hc
  rw [dropEndWhile, List.mem_reverse] at hc
  exact List.mem_reverse.1 ((List.dropWhile_sublist p).subset hc)

theorem trim_append (hx : isBlank x = false) (us vs : List Char) :
    trim (us ++ x :: vs) = us.dropWhile isBlank ++ x :: dropEndWhile isBlank vs := by
  have hstop : (x :: vs).dropWhile isBlank = x :: vs := by simp [hx]
  have hstart : (us ++ x :: vs).dropWhile isBlank = us.dropWhile isBlank ++ x :: vs := by
    rw [List.dropWhile_append, hstop]
    split
    · rename_i hnil
      rw [List.isEmpty_iff.1 hnil, List.nil_append]
    · rfl
  rw [trim, hstart, dropEndWhile_append hx]

theorem length_dropEndWhile_le (p : Char → Bool) (cs : List Char) : (dropEndWhile p cs).length ≤ cs.length := by
  unfold dropEndWhile
  simpa using (List.dropWhile_sublist p (l := cs.reverse)).length_le

/-- What is trimmed has no white space at its end. -/
theorem dropEndWhile_of_trim {cs : List Char} (h : trim cs = cs) : dropEndWhile isBlank cs = cs := by
  have hstart : cs.dropWhile isBlank = cs := by
    refine (List.dropWhile_sublist isBlank).eq_of_length (Nat.le_antisymm (List.dropWhile_sublist _).length_le ?_)
    calc
      cs.length = (trim cs).length := by rw [h]
      _ ≤ (cs.dropWhile isBlank).length := length_dropEndWhile_le isBlank _
  rw [trim, hstart] at h
  exact h

end Trimming

/-! ## Members of lists that are put together -/

variable {α : Type} {x : α} {xs ys us vs : List α}

/-- A member that is not in the first part of a list stands in the second one. -/
theorem exists_of_append_cons_left (h : xs ++ x :: ys = us ++ vs) (hx : x ∉ us) :
    ∃ zs, xs = us ++ zs ∧ vs = zs ++ x :: ys := by
  rcases List.append_eq_append_iff.1 h with ⟨zs, rfl, hzs⟩ | ⟨zs, rfl, hzs⟩
  · cases zs with
    | nil => exact ⟨[], by simp, hzs.symm⟩
    | cons z zs =>
      obtain ⟨rfl, -⟩ := List.cons.inj hzs
      exact absurd (by simp) hx
  · exact ⟨zs, rfl, hzs⟩

/-- What stands before the first occurrence of a member is determined. -/
theorem before_eq_of_append_cons (h : xs ++ x :: ys = us ++ x :: vs) (hxs : x ∉ xs) (hus : x ∉ us) : xs = us := by
  obtain ⟨zs, rfl, hzs⟩ := exists_of_append_cons_left h hus
  cases zs with
  | nil => exact List.append_nil us
  | cons z zs =>
    obtain ⟨rfl, -⟩ := List.cons.inj hzs
    exact absurd (by simp) hxs

end FileGraph.Text
