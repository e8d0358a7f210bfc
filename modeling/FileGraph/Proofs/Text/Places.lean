import FileGraph.Proofs.Text.Words
/-!
# Places — where a name stands alone

A search for a name goes through a text from the left and passes over each place that it finds, so what it finds is the
list of its `places`, in order.  Whether it stops at a place depends on the name's own characters there and on one
neighbour on each side.  Two consequences:
- the places in a text that was cut short are those in the whole text that end before the cut, and at most one more,
  which ends at the cut (`filter_places`, `mentions_of_prefix`);
- between blanks a name is found just when it begins and ends with a character of words (`mem_places_between_blanks`).
-/
namespace FileGraph.Text

open Pattern

/-- That a name stands alone at the start of a text: the text begins with it, and there is an edge of a word before it
and another one after it. -/
def StandsAlone (name : List Char) (before : Option Char) (cs : List Char) : Prop :=
  name <+: cs ∧ before.any isWordChar ≠ cs.head?.any isWordChar ∧
    (name.getLast?.or before).any isWordChar ≠ (cs.drop name.length).head?.any isWordChar

instance (name : List Char) (before : Option Char) (cs : List Char) : Decidable (StandsAlone name before cs) :=
  inferInstanceAs (Decidable (_ ∧ _ ∧ _))

theorem matchAt_standalone_eq (name : List Char) (before : Option Char) (i : Nat) (cs : List Char) :
    (standalone name).matchAt ⟨before, i, cs⟩ =
      if StandsAlone name before cs then
        some ⟨⟨name.getLast?.or before, i + name.length, cs.drop name.length⟩, []⟩
      else none := by
  rw [matchAt_standalone, takeText_eq]
  simp only [Cursor.atWordEdge, StandsAlone, bne_iff_ne]
  by_cases hname : name <+: cs
  · by_cases hbefore : before.any isWordChar = cs.head?.any isWordChar <;> simp [hname, hbefore]
  · simp [hname]

/-- The numbers of characters before the places of a name, for a search that stands after `i` characters with so many
still to be passed over. -/
def placesFrom (name : List Char) (skip : Nat) (before : Option Char) (i : Nat) (cs : List Char) : List Nat :=
  ((standalone name).findFrom skip before i cs).map fun m => m.stop.index - name.length

def places (name text : List Char) : List Nat := placesFrom name 0 none 0 text

theorem length_places (name text : List Char) : (places name text).length = mentions name text := by
  simp [places, placesFrom, mentions, findAll]

section Places

variable {name : List Char} {before : Option Char} {skip i p : Nat}

@[simp] theorem placesFrom_nil : placesFrom name skip before i [] = [] := by
  simp [placesFrom, findFrom]

@[simp] theorem placesFrom_succ (c : Char) (cs : List Char) :
    placesFrom name (skip + 1) before i (c :: cs) = placesFrom name skip (some c) (i + 1) cs := by
  simp [placesFrom, findFrom]

theorem placesFrom_zero (c : Char) (cs : List Char) : placesFrom name 0 before i (c :: cs) =
    if StandsAlone name before (c :: cs) then i :: placesFrom name (name.length - 1) (some c) (i + 1) cs
    else placesFrom name 0 (some c) (i + 1) cs := by
  simp only [placesFrom, findFrom, matchAt_standalone_eq]
  by_cases hstands : StandsAlone name before (c :: cs) <;> simp [hstands]

theorem le_of_mem_placesFrom : ∀ {cs : List Char} {skip : Nat} {before : Option Char} {i : Nat},
    p ∈ placesFrom name skip before i cs → i + skip ≤ p
  | [], _, _, _, h => by simp at h
  | c :: cs, skip + 1, before, i, h => by
    rw [placesFrom_succ] at h
    have := le_of_mem_placesFrom h
    omega
  | c :: cs, 0, before, i, h => by
    rw [placesFrom_zero] at h
    split at h
    · rcases List.mem_cons.1 h with rfl | h
      · exact Nat.le_refl _
      · have := le_of_mem_placesFrom h
        omega
    · have := le_of_mem_placesFrom h
      omega

/-- **At each of its places a name stands alone.** -/
theorem standsAlone_of_mem_placesFrom : ∀ {cs : List Char} {skip : Nat} {before : Option Char} {i p : Nat},
    i + p ∈ placesFrom name skip before i cs → StandsAlone name ((cs.take p).getLast?.or before) (cs.drop p)
  | [], _, _, _, _, h => by simp at h
  | c :: cs, skip, before, i, p, h => by
    -- a later place is one of the search that stands one character further on
    have hlater : ∀ skip', i + p ∈ placesFrom name skip' (some c) (i + 1) cs →
        StandsAlone name (((c :: cs).take p).getLast?.or before) ((c :: cs).drop p) := by
      intro skip' h'
      obtain ⟨q, rfl⟩ : ∃ q, p = q + 1 := ⟨p - 1, by have := le_of_mem_placesFrom h'; omega⟩
      rw [← Nat.add_assoc, Nat.add_right_comm] at h'
      rw [List.take_succ_cons, List.drop_succ_cons, getLast?_cons_or]
      exact standsAlone_of_mem_placesFrom h'
    cases skip with
    | succ skip =>
      rw [placesFrom_succ] at h
      exact hlater _ h
    | zero =>
      rw [placesFrom_zero] at h
      split at h
      · rename_i hstands
        rcases List.mem_cons.1 h with hp | h
        · obtain rfl : p = 0 := by omega
          simpa using hstands
        · exact hlater _ h
      · exact hlater _ h

theorem standsAlone_of_mem_places {text : List Char} (h : p ∈ places name text) :
    StandsAlone name (text.take p).getLast? (text.drop p) := by
  have hstands := standsAlone_of_mem_placesFrom (i := 0) (p := p) (by rwa [Nat.zero_add])
  simpa using hstands

theorem add_length_le_of_mem_places (hne : name ≠ []) {text : List Char} (h : p ∈ places name text) :
    p + name.length ≤ text.length := by
  have hlength := (standsAlone_of_mem_places h).1.length_le
  have hpos := List.length_pos_iff.2 hne
  rw [List.length_drop] at hlength
  omega

theorem pairwise_placesFrom : ∀ (cs : List Char) (skip : Nat) (before : Option Char) (i : Nat),
    (placesFrom name skip before i cs).Pairwise (· < ·)
  | [], _, _, _ => by simp
  | c :: cs, skip + 1, before, i => by
    rw [placesFrom_succ]
    exact pairwise_placesFrom cs skip (some c) (i + 1)
  | c :: cs, 0, before, i => by
    rw [placesFrom_zero]
    split
    · refine List.pairwise_cons.2 ⟨fun q hq => ?_, pairwise_placesFrom cs _ (some c) (i + 1)⟩
      have := le_of_mem_placesFrom hq
      omega
    · exact pairwise_placesFrom cs 0 (some c) (i + 1)

end Places

/-! ## A text that is cut short -/

section Cut

variable {name : List Char} (hne : name ≠ [])

include hne in
/-- What follows a text has no part in whether a name stands alone at its start, except for the neighbour of a name that
is all of the text. -/
theorem standsAlone_append {us : List Char} (vs : List Char) (before : Option Char)
    (h : name.length < us.length ∨ name.length = us.length ∧ vs.head?.any isWordChar = false) :
    StandsAlone name before (us ++ vs) ↔ StandsAlone name before us := by
  have hle : name.length ≤ us.length := by omega
  have hpos := List.length_pos_iff.2 hne
  have hprefix : name <+: us ++ vs ↔ name <+: us := by
    rw [List.prefix_iff_eq_take, List.prefix_iff_eq_take, List.take_append_of_le_length hle]
  have hhead : (us ++ vs).head? = us.head? := by
    cases us with
    | nil => exact absurd (Nat.lt_of_lt_of_le hpos hle) (Nat.lt_irrefl 0)
    | cons u us => rfl
  have hnext : ((us ++ vs).drop name.length).head?.any isWordChar = (us.drop name.length).head?.any isWordChar := by
    rw [List.drop_append_of_le_length hle]
    rcases h with h | ⟨h, hvs⟩
    · obtain ⟨u, rest, hrest⟩ := List.exists_cons_of_length_pos (l := us.drop name.length) (by simp; omega)
      simp [hrest]
    · simp [h, hvs]
  rw [StandsAlone, StandsAlone, hprefix, hhead, hnext]

include hne in
/-- **A text that goes on has the same places up to its cut**; the one that ends at the cut is among them unless the
next character belongs to a word. -/
theorem filter_placesFrom (vs : List Char) (bound : Nat) : ∀ (us : List Char) (skip : Nat) (before : Option Char)
    (i : Nat), bound ≤ i + us.length ∨ bound = i + us.length + 1 ∧ vs.head?.any isWordChar = false →
      (placesFrom name skip before i (us ++ vs)).filter (fun p => decide (p + name.length < bound)) =
        (placesFrom name skip before i us).filter fun p => decide (p + name.length < bound)
  | [], skip, before, i, hbound => by
    have hpos := List.length_pos_iff.2 hne
    simp only [List.nil_append, placesFrom_nil, List.filter_nil, List.filter_eq_nil_iff, decide_eq_true_eq]
    intro p hp
    have := le_of_mem_placesFrom hp
    simp only [List.length_nil] at hbound
    omega
  | c :: cs, skip, before, i, hbound => by
    rw [List.length_cons] at hbound
    have hlater : bound ≤ i + 1 + cs.length ∨ bound = i + 1 + cs.length + 1 ∧ vs.head?.any isWordChar = false :=
      hbound.imp (by omega) (And.imp_left (by omega))
    have ih := fun skip => filter_placesFrom vs bound cs skip (some c) (i + 1) hlater
    rw [List.cons_append]
    cases skip with
    | succ skip => simp only [placesFrom_succ, ih]
    | zero =>
      by_cases hshort : i + name.length < bound
      · have hfits : name.length < (c :: cs).length ∨
            name.length = (c :: cs).length ∧ vs.head?.any isWordChar = false := by
          rw [List.length_cons]
          rcases hbound with hbound | ⟨hbound, hvs⟩
          · exact .inl (by omega)
          · exact (Nat.lt_or_eq_of_le (show name.length ≤ cs.length + 1 by omega)).imp_right fun h => ⟨h, hvs⟩
        have hstands := standsAlone_append hne vs before hfits
        rw [List.cons_append] at hstands
        simp only [placesFrom_zero, hstands]
        split
        · simp only [List.filter_cons, ih]
        · exact ih 0
      · -- nothing that is found from here on ends before the bound
        have hnone : ∀ text : List Char, (placesFrom name 0 before i text).filter
            (fun p => decide (p + name.length < bound)) = [] := by
          intro text
          simp only [List.filter_eq_nil_iff, decide_eq_true_eq]
          intro p hp
          have := le_of_mem_placesFrom hp
          omega
        rw [hnone, hnone]

variable {near far : List Char}

include hne in
theorem filter_places (h : near <+: far) :
    (places name far).filter (fun p => decide (p + name.length < near.length)) =
      (places name near).filter fun p => decide (p + name.length < near.length) := by
  obtain ⟨vs, rfl⟩ := h
  exact filter_placesFrom hne vs near.length near 0 none 0 (.inl (by omega))

/-- That the last place of a name in a text ends with the text. -/
def EndsIn (name text : List Char) : Prop := ∃ p ∈ places name text, p + name.length = text.length

instance (name text : List Char) : Decidable (EndsIn name text) :=
  inferInstanceAs (Decidable (∃ p ∈ places name text, p + name.length = text.length))

include hne in
theorem mem_places_iff_endsIn (text : List Char) : text.length - name.length ∈ places name text ↔ EndsIn name text := by
  constructor
  · intro h
    have := add_length_le_of_mem_places hne h
    exact ⟨_, h, by omega⟩
  · rintro ⟨p, hp, hend⟩
    have hplace : text.length - name.length = p := by omega
    rwa [hplace]

include hne in
theorem mentions_eq (text : List Char) : mentions name text =
    ((places name text).filter fun p => decide (p + name.length < text.length)).length +
      if EndsIn name text then 1 else 0 := by
  have hlast : (places name text).countP (fun p => ¬ decide (p + name.length < text.length) = true) =
      (places name text).count (text.length - name.length) := by
    refine List.countP_congr fun p hp => ?_
    have := add_length_le_of_mem_places hne hp
    simp only [decide_eq_true_eq, beq_iff_eq]
    omega
  have hnodup : (places name text).Nodup := (pairwise_placesFrom text 0 none 0).imp Nat.ne_of_lt
  rw [← length_places, List.length_eq_countP_add_countP fun p => decide (p + name.length < text.length), hlast,
    List.countP_eq_length_filter, hnodup.count]
  simp only [mem_places_iff_endsIn hne]

include hne in
/-- The mentions in a text that was cut short, and those in the whole text: the same up to the cut. -/
theorem mentions_of_prefix (h : near <+: far) :
    ∃ settled, mentions name near = settled + (if EndsIn name near then 1 else 0) ∧
      mentions name far = settled + (places name far).countP fun p => decide (near.length ≤ p + name.length) := by
  refine ⟨((places name far).filter fun p => decide (p + name.length < near.length)).length, ?_, ?_⟩
  · rw [filter_places hne h, mentions_eq hne]
  · rw [← length_places, List.length_eq_countP_add_countP fun p => decide (p + name.length < near.length),
      List.countP_eq_length_filter]
    congr 1
    refine List.countP_congr fun p _ => ?_
    simp

include hne in
theorem mentions_le_add_one (h : near <+: far) : mentions name near ≤ mentions name far + 1 := by
  obtain ⟨settled, hnear, hfar⟩ := mentions_of_prefix hne h
  rw [hnear, hfar]
  split <;> omega

include hne in
/-- **A text that is cut short over-counts a name just if it ends in a mention of it and the whole text has none from
there on.** -/
theorem mentions_le_iff (h : near <+: far) : mentions name near ≤ mentions name far ↔
    ¬ EndsIn name near ∨ ∃ p ∈ places name far, near.length ≤ p + name.length := by
  obtain ⟨settled, hnear, hfar⟩ := mentions_of_prefix hne h
  have hlate : 0 < (places name far).countP (fun p => decide (near.length ≤ p + name.length)) ↔
      ∃ p ∈ places name far, near.length ≤ p + name.length := by
    simp [List.countP_pos_iff]
  rw [hnear, hfar, ← hlate]
  by_cases hends : EndsIn name near
  · rw [if_pos hends, Nat.add_le_add_iff_left]
    exact ⟨.inr, fun h => h.resolve_left fun hno => hno hends⟩
  · rw [if_neg hends, Nat.add_zero]
    exact ⟨fun _ => .inl hends, fun _ => Nat.le_add_right _ _⟩

include hne in
/-- A name that is found in a text that is cut short is found in the whole text, too, unless it stands at the cut only. -/
theorem found_iff (h : near <+: far) : (places name near ≠ [] → places name far ≠ []) ↔
    ¬ EndsIn name near ∨ places name far ≠ [] := by
  constructor
  · intro hkeeps
    by_cases hends : EndsIn name near
    · obtain ⟨p, hp, -⟩ := hends
      exact .inr (hkeeps (List.ne_nil_of_mem hp))
    · exact .inl hends
  · rintro (hno | hfar) hfound
    · have hle := (mentions_le_iff hne h).2 (.inl hno)
      rw [← length_places, ← length_places] at hle
      rw [← List.length_pos_iff] at hfound ⊢
      exact Nat.lt_of_lt_of_le hfound hle
    · exact hfar

include hne in
/-- **Each place in a text that is cut short is a place in the whole text**, but for one that ends at the cut within a
word. -/
theorem places_subset_iff (h : near <+: far) : (∀ p ∈ places name near, p ∈ places name far) ↔
    ¬ EndsIn name near ∨ (far.drop near.length).head?.any isWordChar = false := by
  obtain ⟨vs, rfl⟩ := h
  rw [List.drop_left]
  constructor
  · intro hall
    by_cases hends : EndsIn name near
    · -- the end of a text is an edge only after a character of words, and so the next one is none
      obtain ⟨p, hp, hend⟩ := hends
      have hshort := (standsAlone_of_mem_places hp).2.2
      have hlong := (standsAlone_of_mem_places (hall p hp)).2.2
      obtain ⟨l, hl⟩ : ∃ l, name.getLast? = some l := ⟨_, List.getLast?_eq_some_getLast hne⟩
      have hword : isWordChar l = true := by simpa [hend, hl] using hshort
      exact .inr (by simpa [hend, hl, hword] using hlong)
    · exact .inl hends
  · intro h p hp
    have hle := add_length_le_of_mem_places hne hp
    have hmem : p ∈ (places name near).filter fun q => decide (q + name.length < p + name.length + 1) :=
      List.mem_filter.2 ⟨hp, by simp⟩
    rw [places, ← filter_placesFrom hne vs (p + name.length + 1) near 0 none 0 ?_] at hmem
    · exact (List.mem_filter.1 hmem).1
    · rw [Nat.zero_add]
      rcases Nat.lt_or_eq_of_le hle with hlt | heq
      · exact .inl hlt
      · exact .inr ⟨by rw [heq], h.resolve_left fun hno => hno ⟨p, hp, heq⟩⟩

end Cut

/-! ## A name between blanks -/

/-- The code points of white space. -/
def blankPoints : List Nat :=
  List.range' 9 5 ++ [0x20, 0x85, 0xA0, 0x1680] ++ List.range' 0x2000 11 ++ [0x2028, 0x2029, 0x202F, 0x205F, 0x3000]

theorem toNat_mem_blankPoints {c : Char} (h : isBlank c = true) : c.toNat ∈ blankPoints := by
  simp only [isBlank, Bool.or_eq_true, Bool.and_eq_true, decide_eq_true_eq, beq_iff_eq] at h
  simp only [blankPoints, List.mem_append, List.mem_range'_1, List.mem_cons, List.not_mem_nil, or_false]
  omega

theorem isWordChar_of_isBlank {c : Char} (h : isBlank c = true) : isWordChar c = false := by
  have hnone : ∀ n ∈ blankPoints, isWordChar (Char.ofNat n) = false := by decide +kernel
  rw [← Char.ofNat_toNat c]
  exact hnone c.toNat (toNat_mem_blankPoints h)

/-- That a name begins and ends with a character of words. -/
def WordEnds (name : List Char) : Prop :=
  name.head?.any isWordChar = true ∧ name.getLast?.any isWordChar = true

instance (name : List Char) : Decidable (WordEnds name) := inferInstanceAs (Decidable (_ ∧ _))

theorem standsAlone_between {name : List Char} (hne : name ≠ []) {before : Option Char} {after : List Char}
    (hbefore : before.any isWordChar = false) (hafter : after.head?.any isWordChar = false) :
    StandsAlone name before (name ++ after) ↔ WordEnds name := by
  obtain ⟨c, cs, rfl⟩ := List.exists_cons_of_ne_nil hne
  obtain ⟨l, hl⟩ : ∃ l, (c :: cs).getLast? = some l := ⟨_, List.getLast?_eq_some_getLast (List.cons_ne_nil c cs)⟩
  simp [StandsAlone, WordEnds, hl, hbefore, hafter]

section Between

variable {name : List Char} (hne : name ≠ []) (hname : ∀ c ∈ name, isBlank c = false)

include hne in
theorem mem_placesFrom_self {before : Option Char} {i : Nat} : ∀ {cs : List Char},
    i ∈ placesFrom name 0 before i cs ↔ StandsAlone name before cs
  | [] => by simp [StandsAlone, hne]
  | c :: cs => by
    have hlater : ∀ skip, i ∉ placesFrom name skip (some c) (i + 1) cs := by
      intro skip hi
      have := le_of_mem_placesFrom hi
      omega
    rw [placesFrom_zero]
    split <;> rename_i hstands <;> simp [hstands, hlater]

include hname in
/-- A name without blanks that begins before a blank ends before it. -/
theorem length_le_of_prefix_blank {us rest : List Char} {c : Char} (hlast : us.getLast? = some c)
    (hblank : isBlank c = true) (h : name <+: us ++ rest) : name.length ≤ us.length - 1 := by
  obtain ⟨init, rfl⟩ := List.getLast?_eq_some_iff.1 hlast
  by_cases hle : (init ++ [c]).length ≤ name.length
  · have hprefix : init ++ [c] <+: name := List.prefix_of_prefix_length_le (List.prefix_append _ _) h hle
    have hmem : c ∈ name := hprefix.subset (by simp)
    rw [hname c hmem] at hblank
    cases hblank
  · omega

include hne hname in
/-- **What stands before a blank does not hide what stands after it**: the search gets to the place after a blank with
nothing to pass over. -/
theorem mem_placesFrom_after_blank (rest : List Char) : ∀ (us : List Char) (skip : Nat) (before : Option Char) (i : Nat),
    us.getLast?.all isBlank = true → skip ≤ us.length - 1 →
      (i + us.length ∈ placesFrom name skip before i (us ++ rest) ↔ StandsAlone name (us.getLast?.or before) rest)
  | [], skip, before, i, _, hskip => by
    obtain rfl : skip = 0 := Nat.le_zero.1 hskip
    exact mem_placesFrom_self hne
  | c :: cs, skip, before, i, hblank, hskip => by
    have hblank' : cs.getLast?.all isBlank = true := by
      rw [List.getLast?_cons] at hblank
      cases hl : cs.getLast? with
      | none => rfl
      | some l => simpa [hl] using hblank
    have ih := fun skip => mem_placesFrom_after_blank rest cs skip (some c) (i + 1) hblank'
    have hindex : i + (c :: cs).length = i + 1 + cs.length := by rw [List.length_cons]; omega
    rw [List.cons_append, getLast?_cons_or, hindex]
    rw [List.length_cons] at hskip
    cases skip with
    | succ skip =>
      rw [placesFrom_succ]
      exact ih skip (by omega)
    | zero =>
      rw [placesFrom_zero]
      split
      · rename_i hstands
        obtain ⟨l, hl⟩ : ∃ l, (c :: cs).getLast? = some l := ⟨_, List.getLast?_eq_some_getLast (List.cons_ne_nil c cs)⟩
        have hlength := length_le_of_prefix_blank hname hl (by simpa [hl] using hblank) hstands.1
        have hother : i + 1 + cs.length ≠ i := by omega
        rw [List.length_cons, Nat.add_sub_cancel] at hlength
        rw [List.mem_cons, or_iff_right hother]
        exact ih _ (by omega)
      · exact ih 0 (Nat.zero_le _)

include hne hname in
/-- **Between blanks a name is found just when it begins and ends with a character of words.** -/
theorem mem_places_between_blanks {before after : List Char} (hbefore : before.getLast?.all isBlank = true)
    (hafter : after.head?.all isBlank = true) :
    before.length ∈ places name (before ++ (name ++ after)) ↔ WordEnds name := by
  have hblanks : ∀ o : Option Char, o.all isBlank = true → o.any isWordChar = false := by
    intro o ho
    cases o with
    | none => rfl
    | some c => exact isWordChar_of_isBlank ho
  have hfound := mem_placesFrom_after_blank hne hname (name ++ after) before 0 none 0 hbefore (Nat.zero_le _)
  rw [Nat.zero_add, Option.or_none] at hfound
  rw [places, hfound, standsAlone_between hne (hblanks _ hbefore) (hblanks _ hafter)]

end Between

end FileGraph.Text
