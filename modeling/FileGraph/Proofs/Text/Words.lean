import FileGraph.Text.Words
/-!
# Words — a word of a text is a name that stands alone in it

For a name of word characters the two searches count the same (`count_words`): the places where it stands alone are the
maximal runs of word characters that are equal to it.  A name with any other character is no word at all
(`count_words_of_other`).  So each name is counted by exactly one of the two ways, as long as the classification of its
characters leaves no doubt (`Unambiguous`); otherwise it may be counted by both, or by none (`ways`).
-/
namespace FileGraph.Text

open Pattern

/-- Whether the characters of a name are letters, digits or `_` exactly where they are word characters. -/
def Unambiguous (name : List Char) : Prop := ∀ c ∈ name, (isAlphanumeric c || c == '_') = isWordChar c

instance (name : List Char) : Decidable (Unambiguous name) := List.decidableBAll _ _

theorem unambiguous_of_ascii (name : List Char) (h : ∀ c ∈ name, c.toNat < 0x80) : Unambiguous name := by
  intro c hc
  simp [isAlphanumeric, isWordChar, h c hc]

theorem isPlainName_eq {name : List Char} (h : Unambiguous name) : isPlainName name = name.all isWordChar := by
  rw [isPlainName, Bool.eq_iff_iff, List.all_eq_true, List.all_eq_true]
  exact ⟨fun hp c hc => h c hc ▸ hp c hc, fun hw c hc => (h c hc).trans (hw c hc)⟩

/-! ## Words as runs -/

theorem words_cons_word : ∀ (c : Char) (cs : List Char), isWordChar c = true →
    words (c :: cs) = (c :: cs.takeWhile isWordChar) :: words (cs.dropWhile isWordChar)
  | c, [], h => by simp [words, h]
  | c, d :: cs, h => by
    rw [words.eq_def]
    simp only [if_pos h]
    by_cases hd : isWordChar d = true
    · simp only [if_pos hd, words_cons_word d cs hd, List.takeWhile_cons_of_pos hd, List.dropWhile_cons_of_pos hd]
    · simp only [if_neg hd, List.takeWhile_cons_of_neg hd, List.dropWhile_cons_of_neg hd]

theorem words_cons_other (c : Char) (cs : List Char) (h : ¬ isWordChar c = true) : words (c :: cs) = words cs := by
  rw [words.eq_def]
  simp only [if_neg h]

theorem isWordChar_of_mem_words : ∀ (text : List Char), ∀ w ∈ words text, ∀ c ∈ w, isWordChar c = true
  | [], w, hw => by simp [words] at hw
  | c :: cs, w, hw => by
    by_cases h : isWordChar c = true
    · rw [words_cons_word c cs h] at hw
      rcases List.mem_cons.1 hw with rfl | hw
      · intro x hx
        rcases List.mem_cons.1 hx with rfl | hx
        · exact h
        · exact List.all_eq_true.1 List.all_takeWhile x hx
      · exact isWordChar_of_mem_words (cs.dropWhile isWordChar) w hw
    · rw [words_cons_other c cs h] at hw
      exact isWordChar_of_mem_words cs w hw
termination_by text => text.length
decreasing_by
  all_goals simp only [List.length_cons]
  · exact Nat.lt_succ_of_le (List.dropWhile_sublist _).length_le
  · exact Nat.lt_succ_self _

/-- A name with a character that belongs to no word is no word. -/
theorem count_words_of_other {name : List Char} (text : List Char) {c : Char} (hc : c ∈ name)
    (h : ¬ isWordChar c = true) : (words text).count name = 0 :=
  List.count_eq_zero.2 fun hm => h (isWordChar_of_mem_words text name hm c hc)

/-! ## A name at one place -/

variable {α : Type}

theorem getLast?_cons_or (c : Char) (cs : List Char) (before : Option Char) :
    (c :: cs).getLast?.or before = cs.getLast?.or (some c) := by
  rw [List.getLast?_cons]
  cases cs.getLast? <;> rfl

theorem takeText_eq (k : Cursor → Option α) : ∀ (ts : List Char) (before : Option Char) (i : Nat) (cs : List Char),
    takeText k ts before i cs =
      if ts <+: cs then k ⟨ts.getLast?.or before, i + ts.length, cs.drop ts.length⟩ else none
  | [], before, i, cs => by simp [takeText]
  | t :: ts, before, i, [] => by simp [takeText]
  | t :: ts, before, i, c :: cs => by
    rw [takeText]
    by_cases htc : t = c
    · subst htc
      rw [if_pos rfl, takeText_eq k ts (some t) (i + 1) cs]
      simp only [List.prefix_cons_inj, getLast?_cons_or, List.length_cons, List.drop_succ_cons, Nat.add_assoc,
        Nat.add_comm 1]
    · have hno : ¬ t :: ts <+: c :: cs := fun hp => htc (List.cons_prefix_cons.1 hp).1
      rw [if_neg htc, if_neg hno]

theorem matchAt_standalone (name : List Char) (c : Cursor) : (standalone name).matchAt c =
    if c.atWordEdge then
      takeText (fun c' => if c'.atWordEdge then some ⟨c', []⟩ else none) name c.before c.index c.rest
    else none := rfl

/-- The run at the start of a text is a name exactly if the text starts with the name and the run ends with it. -/
theorem takeWhile_eq_iff {name : List Char} (hw : ∀ c ∈ name, isWordChar c = true) (cs : List Char) :
    cs.takeWhile isWordChar = name ↔ name <+: cs ∧ (cs.drop name.length).head?.any isWordChar = false := by
  constructor
  · rintro rfl
    refine ⟨List.takeWhile_prefix _, ?_⟩
    have hd : cs.drop (cs.takeWhile isWordChar).length = cs.dropWhile isWordChar := by
      conv => lhs; rhs; rw [← List.takeWhile_append_dropWhile (p := isWordChar) (l := cs)]
      exact List.drop_left
    rw [hd]
    cases hcs : cs.dropWhile isWordChar with
    | nil => rfl
    | cons d ds =>
      have hne : cs.dropWhile isWordChar ≠ [] := by simp [hcs]
      simpa [hcs] using List.head_dropWhile_not isWordChar hne
  · rintro ⟨⟨rest, rfl⟩, hend⟩
    rw [List.drop_left] at hend
    rw [List.takeWhile_append_of_pos hw]
    cases rest with
    | nil => simp
    | cons d ds => simp [List.takeWhile_cons_of_neg (show ¬ isWordChar d = true by simpa using hend)]

/-- **A name of word characters is found where the run it equals begins.** -/
theorem matchAt_standalone_word {name : List Char} (hne : name ≠ []) (hw : ∀ c ∈ name, isWordChar c = true)
    (before : Option Char) (i : Nat) (cs : List Char) :
    (standalone name).matchAt ⟨before, i, cs⟩ =
      if before.any isWordChar = false ∧ cs.takeWhile isWordChar = name then
        some ⟨⟨name.getLast?, i + name.length, cs.drop name.length⟩, []⟩
      else none := by
  rw [matchAt_standalone, takeText_eq]
  simp only [takeWhile_eq_iff hw, Cursor.atWordEdge]
  obtain ⟨l, hl⟩ : ∃ l, name.getLast? = some l := Option.ne_none_iff_exists'.1 (by simpa using hne)
  have hlast : isWordChar l = true := hw l (List.mem_of_getLast? hl)
  by_cases hp : name <+: cs
  · have hhead : cs.head?.any isWordChar = true := by
      obtain ⟨rest, rfl⟩ := hp
      cases name with
      | nil => exact absurd rfl hne
      | cons d ds => simpa using hw d List.mem_cons_self
    simp only [hp, hhead, hl, if_true, true_and]
    cases before.any isWordChar <;> cases (cs.drop name.length).head?.any isWordChar <;> simp [hlast]
  · simp [hp]

/-! ## Counting -/

/-- From a place outside of a run on, and from a place inside of one with so many of its characters still belonging to
a match. -/
theorem length_findFrom {name : List Char} (hne : name ≠ []) (hw : ∀ c ∈ name, isWordChar c = true) :
    ∀ (cs : List Char) (before : Option Char) (i : Nat),
      (before.any isWordChar = false →
        ((standalone name).findFrom 0 before i cs).length = (words cs).count name) ∧
      (before.any isWordChar = true → ∀ skip ≤ (cs.takeWhile isWordChar).length,
        ((standalone name).findFrom skip before i cs).length = (words (cs.dropWhile isWordChar)).count name)
  | [], before, i => by simp [findFrom, words]
  | c :: cs, before, i => by
    obtain ⟨ihOut, ihIn⟩ := length_findFrom hne hw cs (some c) (i + 1)
    have hstart : (standalone name).matchAt ⟨before, i, c :: cs⟩ = _ :=
      matchAt_standalone_word hne hw before i (c :: cs)
    by_cases hc : isWordChar c = true
    · -- a run starts or goes on here
      have hin : ∀ skip ≤ (cs.takeWhile isWordChar).length,
          ((standalone name).findFrom skip (some c) (i + 1) cs).length =
            (words (cs.dropWhile isWordChar)).count name := ihIn hc
      constructor
      · intro hb
        rw [words_cons_word c cs hc, findFrom, hstart]
        by_cases hrun : c :: cs.takeWhile isWordChar = name
        · have hskip : i + name.length - i - 1 = (cs.takeWhile isWordChar).length := by
            rw [← hrun, List.length_cons]; omega
          simp only [hb, List.takeWhile_cons_of_pos hc, hrun, and_self, if_true, List.length_cons, hskip,
            hin _ (Nat.le_refl _), List.count_cons_self]
        · have hno : ¬ (before.any isWordChar = false ∧ (c :: cs).takeWhile isWordChar = name) := by
            rw [List.takeWhile_cons_of_pos hc]
            exact fun h => hrun h.2
          rw [if_neg hno, List.count_cons_of_ne hrun]
          exact hin 0 (Nat.zero_le _)
      · intro hb skip hskip
        rw [List.dropWhile_cons_of_pos hc]
        cases skip with
        | zero =>
          rw [findFrom, hstart, if_neg (by simp [hb])]
          exact hin 0 (Nat.zero_le _)
        | succ k =>
          rw [List.takeWhile_cons_of_pos hc, List.length_cons] at hskip
          exact hin k (by omega)
    · have hno : ¬ (before.any isWordChar = false ∧ (c :: cs).takeWhile isWordChar = name) := by
        rw [List.takeWhile_cons_of_neg hc]
        exact fun h => hne h.2.symm
      have hout := ihOut (by simpa using hc)
      rw [if_neg hno] at hstart
      constructor
      · intro _
        rw [findFrom, hstart, words_cons_other c cs hc]
        exact hout
      · intro _ skip hskip
        rw [List.takeWhile_cons_of_neg hc, List.length_nil, Nat.le_zero] at hskip
        subst hskip
        rw [findFrom, hstart, List.dropWhile_cons_of_neg hc, words_cons_other c cs hc]
        exact hout

/-- **The words that equal a name of word characters are the places where it stands alone.** -/
theorem count_words {name : List Char} (hne : name ≠ []) (hw : ∀ c ∈ name, isWordChar c = true) (text : List Char) :
    (words text).count name = mentions name text :=
  ((length_findFrom hne hw text none 0).1 rfl).symm

/-! ## Both searches together -/

/-- In how many ways a name is counted: among the words if it can be one, and by a search of its own if it is not
plain. -/
def ways (name : List Char) : Nat :=
  (if name.all isWordChar then 1 else 0) + if isPlainName name then 0 else 1

theorem ways_eq_one_iff {name : List Char} : ways name = 1 ↔ isPlainName name = name.all isWordChar := by
  unfold ways
  cases isPlainName name <;> cases name.all isWordChar <;> simp

/-- **Each place where a name stands alone is counted once in each of its ways.** -/
theorem count_words_add_mentions {name : List Char} (hne : name ≠ []) (text : List Char) :
    ((words text).count name + if isPlainName name then 0 else mentions name text) =
      ways name * mentions name text := by
  have hwords : (words text).count name = (if name.all isWordChar then 1 else 0) * mentions name text := by
    by_cases hw : name.all isWordChar = true
    · rw [if_pos hw, Nat.one_mul, count_words hne (List.all_eq_true.1 hw)]
    · obtain ⟨c, hc, hother⟩ : ∃ c ∈ name, ¬ isWordChar c = true := by simpa using hw
      rw [if_neg hw, Nat.zero_mul, count_words_of_other text hc hother]
  rw [hwords, ways, Nat.add_mul]
  cases isPlainName name <;> simp

end FileGraph.Text
