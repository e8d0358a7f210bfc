import FileGraph.Proofs.Source.Crossing
/-!
# FirstBlock — the extent in braces is that of the first balanced block

Without its line ends, the code of a stretch is one text in which each character has the number of its line
(`placedCode`).  In it a block goes from the first opening brace, if that comes before any `;` and soon enough, to the
least place after it up to which as many braces close as open (`FirstBlock`).

The extent ends with the line of that place, and is one line if there is no such block (`braceExtent_firstBlock`).  So
what follows a closed block has no part in its extent, and the number of open braces is always the difference of two
counts.
-/
namespace FileGraph.Source

/-- The code of lines, each character with the number of lines before its own; `offset` lines stand before them. -/
def placedCode (quotes : List Char) (offset : Nat) (ls : List (List Char)) : List (Nat × Char) :=
  (ls.zipIdx offset).flatMap fun l => (codeChars quotes l.1).map fun c => (l.2, c)

/-- The characters of some code from one place through another. -/
def charsThrough (code : List (Nat × Char)) (first last : Nat) : List Char :=
  ((code.map Prod.snd).drop first).take (last + 1 - first)

/-- Whether as many braces close as open. -/
def Balanced (code : List Char) : Prop := code.count '}' = code.count '{'

instance (code : List Char) : Decidable (Balanced code) := inferInstanceAs (Decidable (_ = _))

/-- That a block opens at `first` and closes at `last`: its opening brace is the first one of the code, stands on no
line beyond the lookahead and has no `;` before it; `last` is the least place after it with which the code from there on
is balanced. -/
structure FirstBlock (lookahead : Nat) (code : List (Nat × Char)) (first last : Nat) : Prop where
  opens    : ∃ line ≤ lookahead, code[first]? = some (line, '{')
  before   : ∀ x ∈ code.take first, x.2 ≠ '{' ∧ x.2 ≠ ';'
  lt       : first < last
  inside   : last < code.length
  balanced : Balanced (charsThrough code first last)
  least    : ∀ place, first < place → place < last → ¬ Balanced (charsThrough code first place)

/-! ## Open braces -/

/-- **The number of open braces is a difference of counts** and stays positive until the block closes. -/
theorem depth_of_balance_some : ∀ (cs : List Char) {d d' : Nat}, 0 < d → balance (some d) cs = .depth (some d') →
    0 < d' ∧ d' + cs.count '}' = d + cs.count '{'
  | [], d, d', hd, h => by
    cases h
    exact ⟨hd, rfl⟩
  | c :: cs, d, d', hd, h => by
    rw [balance] at h
    by_cases hopen : c = '{'
    · rw [if_pos hopen] at h
      have ih := depth_of_balance_some cs (Nat.succ_pos d) h
      simp [hopen]
      omega
    · rw [if_neg hopen] at h
      by_cases hclose : c = '}'
      · rw [if_pos hclose] at h
        split at h
        · cases h
        · have ih := depth_of_balance_some cs (by omega) h
          simp [hclose]
          omega
      · rw [if_neg hclose] at h
        have ih := depth_of_balance_some cs hd h
        simpa [hopen, hclose, List.count_cons] using ih

theorem depth_of_balance_none : ∀ (cs : List Char) {d : Nat}, balance none cs = .depth (some d) →
    ∃ pre post, cs = pre ++ '{' :: post ∧ Bare pre ∧ 0 < d ∧ d + post.count '}' = 1 + post.count '{'
  | [], d, h => by cases h
  | c :: cs, d, h => by
    rw [balance] at h
    by_cases hopen : c = '{'
    · rw [if_pos hopen] at h
      exact ⟨[], cs, by rw [hopen]; rfl, .nil, depth_of_balance_some cs Nat.one_pos h⟩
    · rw [if_neg hopen] at h
      split at h
      · cases h
      · rename_i hend
        obtain ⟨pre, post, rfl, hbare, hd⟩ := depth_of_balance_none cs h
        exact ⟨c :: pre, post, rfl, fun x hx => (List.mem_cons.1 hx).elim (fun e => e ▸ ⟨hopen, hend⟩) (hbare x), hd⟩

/-! ## Character by character -/

/-- The extent of a block, followed through placed code. -/
def extentIn (lookahead : Nat) : Option Nat → List (Nat × Char) → Nat
  | _, [] => 1
  | none, (line, c) :: code =>
    if c = '{' then if line ≤ lookahead then extentIn lookahead (some 1) code else 1
    else if c = ';' then 1
    else extentIn lookahead none code
  | some d, (line, c) :: code =>
    if c = '{' then extentIn lookahead (some (d + 1)) code
    else if c = '}' then if d ≤ 1 then line + 1 else extentIn lookahead (some (d - 1)) code
    else extentIn lookahead (some d) code

theorem placedCode_cons (quotes : List Char) (offset : Nat) (line : List Char) (rest : List (List Char)) :
    placedCode quotes offset (line :: rest) =
      (codeChars quotes line).map (fun c => (offset, c)) ++ placedCode quotes (offset + 1) rest := rfl

theorem placedCode_append (quotes : List Char) (offset : Nat) (ls more : List (List Char)) :
    placedCode quotes offset (ls ++ more) =
      placedCode quotes offset ls ++ placedCode quotes (offset + ls.length) more := by
  simp [placedCode, List.zipIdx_append]

theorem le_of_mem_placedCode {quotes : List Char} {offset : Nat} {ls : List (List Char)} {x : Nat × Char}
    (hx : x ∈ placedCode quotes offset ls) : offset ≤ x.1 := by
  obtain ⟨l, hl, hx⟩ := List.mem_flatMap.1 hx
  obtain ⟨c, -, rfl⟩ := List.mem_map.1 hx
  exact (List.mem_zipIdx hl).1

theorem extentIn_late (lookahead : Nat) : ∀ (code : List (Nat × Char)), (∀ x ∈ code, lookahead < x.1) →
    extentIn lookahead none code = 1
  | [], _ => rfl
  | (line, c) :: code, h => by
    rw [extentIn, extentIn_late lookahead code fun x hx => h x (List.mem_cons_of_mem _ hx),
      if_neg (Nat.not_le_of_lt (h (line, c) List.mem_cons_self))]
    simp

theorem extentIn_line (lookahead offset : Nat) (code : List (Nat × Char)) : ∀ (cs : List Char) (d : Option Nat),
    (d = none → offset ≤ lookahead) → extentIn lookahead d (cs.map (fun c => (offset, c)) ++ code) =
      match balance d cs with
      | .closed => offset + 1
      | .refused => 1
      | .depth d' => extentIn lookahead d' code
  | [], d, _ => by cases d <;> rfl
  | c :: cs, none, h => by
    have hsome := extentIn_line lookahead offset code cs (some 1) (by simp)
    have hnone := extentIn_line lookahead offset code cs none h
    simp only [List.map_cons, List.cons_append, extentIn, balance, if_pos (h rfl), hsome, hnone]
    by_cases hopen : c = '{'
    · simp only [if_pos hopen]
    · by_cases hend : c = ';'
      · simp only [if_neg hopen, if_pos hend]
      · simp only [if_neg hopen, if_neg hend]
  | c :: cs, some d, _ => by
    have hsome := fun d => extentIn_line lookahead offset code cs (some d) (by simp)
    simp only [List.map_cons, List.cons_append, extentIn, balance, hsome]
    by_cases hopen : c = '{'
    · simp only [if_pos hopen]
    · by_cases hclose : c = '}'
      · by_cases hd : d ≤ 1
        · simp only [if_neg hopen, if_pos hclose, if_pos hd]
        · simp only [if_neg hopen, if_pos hclose, if_neg hd]
      · simp only [if_neg hopen, if_neg hclose]

/-- **Line ends have no part in an extent** but for the lookahead, which says on which lines a block may open. -/
theorem braceExtentFrom_eq_extentIn (lookahead : Nat) (quotes : List Char) : ∀ (ls : List (List Char)) (offset : Nat)
    (d : Option Nat), (d = none → offset ≤ lookahead) →
      braceExtentFrom lookahead quotes offset d ls = extentIn lookahead d (placedCode quotes offset ls)
  | [], offset, d, _ => by cases d <;> rfl
  | line :: rest, offset, d, h => by
    rw [braceExtentFrom, placedCode_cons, extentIn_line lookahead offset _ _ d h]
    cases balance d (codeChars quotes line) with
    | closed => rfl
    | refused => rfl
    | depth d' =>
      cases d' with
      | some d' => exact braceExtentFrom_eq_extentIn lookahead quotes rest _ _ (by simp)
      | none =>
        by_cases hlate : lookahead ≤ offset
        · simp only [if_pos hlate]
          exact (extentIn_late lookahead _ fun x hx => Nat.lt_of_le_of_lt hlate (le_of_mem_placedCode hx)).symm
        · simp only [if_neg hlate]
          exact braceExtentFrom_eq_extentIn lookahead quotes rest _ _ fun _ => by omega

/-! ## Where a block closes -/

/-- That a block with `d` braces open closes at a place: the least one through which all of them and all further ones
are closed. -/
structure ClosesAt (d : Nat) (cs : List Char) (last : Nat) : Prop where
  inside   : last < cs.length
  balanced : (cs.take (last + 1)).count '}' = d + (cs.take (last + 1)).count '{'
  least    : ∀ place < last, (cs.take (place + 1)).count '}' ≠ d + (cs.take (place + 1)).count '{'

/-- A character that leaves `d'` of `d` braces open puts off where the block closes. -/
theorem closesAt_cons {d d' : Nat} {c : Char} (hd' : 0 < d')
    (hcount : ∀ l : List Char, (c :: l).count '}' = d + (c :: l).count '{' ↔ l.count '}' = d' + l.count '{')
    (cs : List Char) (last : Nat) : ClosesAt d (c :: cs) last ↔ ∃ last', last = last' + 1 ∧ ClosesAt d' cs last' := by
  have hopen : ¬ [c].count '}' = d + [c].count '{' := fun h => by
    have := (hcount []).1 h
    simp at this
    omega
  constructor
  · intro h
    cases last with
    | zero => exact absurd h.balanced hopen
    | succ last =>
      refine ⟨last, rfl, Nat.lt_of_succ_lt_succ h.inside, (hcount _).1 h.balanced, fun place hplace hb => ?_⟩
      exact h.least (place + 1) (Nat.succ_lt_succ hplace) ((hcount _).2 hb)
  · rintro ⟨last, rfl, h⟩
    refine ⟨Nat.succ_lt_succ h.inside, (hcount _).2 h.balanced, fun place hplace hb => ?_⟩
    cases place with
    | zero => exact hopen hb
    | succ place => exact h.least place (Nat.lt_of_succ_lt_succ hplace) ((hcount _).1 hb)

/-- That an extent ends with the line of the place at which a block closes, and is one line if it closes nowhere. -/
def EndsWhere (closes : Nat → Prop) (code : List (Nat × Char)) (extent : Nat) : Prop :=
  (∃ last line, closes last ∧ code[last]? = some (line, '}') ∧ extent = line + 1) ∨
    (∀ last, ¬ closes last) ∧ extent = 1

theorem EndsWhere.cons {closes closes' : Nat → Prop} {x : Nat × Char} {code : List (Nat × Char)} {extent : Nat}
    (h : EndsWhere closes' code extent) (hcons : ∀ last, closes last ↔ ∃ last', last = last' + 1 ∧ closes' last') :
    EndsWhere closes (x :: code) extent := by
  rcases h with ⟨last, line, hlast, hline, he⟩ | ⟨hnone, he⟩
  · exact .inl ⟨last + 1, line, (hcons _).2 ⟨last, rfl, hlast⟩, hline, he⟩
  · refine .inr ⟨fun last h => ?_, he⟩
    obtain ⟨last', -, hlast'⟩ := (hcons last).1 h
    exact hnone last' hlast'

/-- **An open block extends through the line on which it closes.** -/
theorem endsWhere_some (lookahead : Nat) : ∀ (code : List (Nat × Char)) (d : Nat), 0 < d →
    EndsWhere (ClosesAt d (code.map Prod.snd)) code (extentIn lookahead (some d) code)
  | [], d, _ => .inr ⟨fun last h => absurd h.inside (Nat.not_lt_zero last), rfl⟩
  | (line, c) :: code, d, hd => by
    rw [extentIn]
    by_cases hopen : c = '{'
    · rw [if_pos hopen]
      refine (endsWhere_some lookahead code (d + 1) (Nat.succ_pos d)).cons
        (closesAt_cons (Nat.succ_pos d) (fun l => ?_) _)
      simp [hopen]
      omega
    by_cases hclose : c = '}'
    · rw [if_neg hopen, if_pos hclose]
      by_cases hone : d ≤ 1
      · obtain rfl : d = 1 := by omega
        refine .inl ⟨0, line, ⟨Nat.succ_pos _, by simp [hclose], fun _ h => absurd h (Nat.not_lt_zero _)⟩, ?_,
          if_pos hone⟩
        rw [hclose]
        rfl
      · rw [if_neg hone]
        refine (endsWhere_some lookahead code (d - 1) (by omega)).cons (closesAt_cons (by omega) (fun l => ?_) _)
        simp [hclose]
        omega
    · rw [if_neg hopen, if_neg hclose]
      refine (endsWhere_some lookahead code d hd).cons (closesAt_cons hd (fun l => ?_) _)
      simp [hopen, hclose]

/-! ## The first block -/

section FirstBlock

variable {lookahead : Nat} {code : List (Nat × Char)} {first last : Nat}

theorem FirstBlock.eq_zero {x : Nat × Char} (h : FirstBlock lookahead (x :: code) first last)
    (hx : x.2 = '{' ∨ x.2 = ';') : first = 0 := by
  cases first with
  | zero => rfl
  | succ first =>
    have hne := h.before x (by simp)
    exact absurd hx (not_or.2 hne)

theorem firstBlock_zero (line : Nat) : FirstBlock lookahead ((line, '{') :: code) 0 last ↔
    line ≤ lookahead ∧ ∃ last', last = last' + 1 ∧ ClosesAt 1 (code.map Prod.snd) last' := by
  have hcount : ∀ place, Balanced (charsThrough ((line, '{') :: code) 0 (place + 1)) ↔
      ((code.map Prod.snd).take (place + 1)).count '}' = 1 + ((code.map Prod.snd).take (place + 1)).count '{' := by
    intro place
    rw [Balanced, charsThrough, List.drop_zero, Nat.sub_zero, List.map_cons, List.take_succ_cons]
    simp [Nat.add_comm]
  constructor
  · intro h
    obtain ⟨line', hline', he⟩ := h.opens
    cases he
    cases last with
    | zero => exact absurd h.lt (Nat.lt_irrefl 0)
    | succ last =>
      refine ⟨hline', last, rfl, by simpa using h.inside, (hcount last).1 h.balanced, fun place hplace hb => ?_⟩
      exact h.least (place + 1) (Nat.succ_pos place) (Nat.succ_lt_succ hplace) ((hcount place).2 hb)
  · rintro ⟨hline, last, rfl, h⟩
    refine ⟨⟨line, hline, rfl⟩, fun x hx => by simp at hx, Nat.succ_pos last, by simpa using h.inside,
      (hcount last).2 h.balanced, fun place hpos hplace hb => ?_⟩
    cases place with
    | zero => exact absurd hpos (Nat.lt_irrefl 0)
    | succ place => exact h.least place (Nat.lt_of_succ_lt_succ hplace) ((hcount place).1 hb)

theorem firstBlock_cons {x : Nat × Char} (hopen : x.2 ≠ '{') (hend : x.2 ≠ ';') :
    FirstBlock lookahead (x :: code) first last ↔
      ∃ first' last', first = first' + 1 ∧ last = last' + 1 ∧ FirstBlock lookahead code first' last' := by
  have hchars : ∀ first place, charsThrough (x :: code) (first + 1) (place + 1) = charsThrough code first place := by
    intro first place
    simp [charsThrough]
  constructor
  · intro h
    have hlt := h.lt
    obtain ⟨last, rfl⟩ : ∃ last', last = last' + 1 := ⟨last - 1, by omega⟩
    cases first with
    | zero =>
      obtain ⟨line, -, he⟩ := h.opens
      exact absurd (congrArg Prod.snd (Option.some.inj he)) hopen
    | succ first =>
      refine ⟨first, last, rfl, rfl, h.opens, fun y hy => h.before y (List.mem_cons_of_mem x hy), by omega,
        by simpa using h.inside, ?_, fun place hpos hplace hb => ?_⟩
      · rw [← hchars]
        exact h.balanced
      · rw [← hchars] at hb
        exact h.least (place + 1) (by omega) (by omega) hb
  · rintro ⟨first, last, rfl, rfl, h⟩
    refine ⟨h.opens, fun y hy => ?_, Nat.succ_lt_succ h.lt, by simpa using h.inside, ?_, fun place hpos hplace hb => ?_⟩
    · rcases List.mem_cons.1 hy with rfl | hy
      · exact ⟨hopen, hend⟩
      · exact h.before y hy
    · rw [hchars]
      exact h.balanced
    · obtain ⟨place, rfl⟩ : ∃ place', place = place' + 1 := ⟨place - 1, by omega⟩
      rw [hchars] at hb
      exact h.least place (by omega) (by omega) hb

theorem FirstBlock.last_unique {first' last' : Nat} (h : FirstBlock lookahead code first last)
    (h' : FirstBlock lookahead code first' last') : last = last' := by
  have hle : ∀ {f f' l l' : Nat}, FirstBlock lookahead code f l → FirstBlock lookahead code f' l' → f ≤ f' := by
    intro f f' l l' h h'
    refine Nat.le_of_not_lt fun hlt => ?_
    obtain ⟨line, -, hopens⟩ := h'.opens
    have hmem : (line, '{') ∈ code.take f := by
      refine List.mem_of_getElem? (i := f') ?_
      rw [List.getElem?_take_of_lt hlt, hopens]
    exact (h.before _ hmem).1 rfl
  obtain rfl : first = first' := Nat.le_antisymm (hle h h') (hle h' h)
  exact Nat.le_antisymm (Nat.le_of_not_lt fun hlt => h.least last' h'.lt hlt h'.balanced)
    (Nat.le_of_not_lt fun hlt => h'.least last h.lt hlt h.balanced)

variable (lookahead) in
/-- **A block that has not opened extends through the line on which the first block closes.** -/
theorem endsWhere_none : ∀ (code : List (Nat × Char)),
    EndsWhere (fun last => ∃ first, FirstBlock lookahead code first last) code (extentIn lookahead none code)
  | [] => .inr ⟨fun last ⟨_, h⟩ => absurd h.inside (Nat.not_lt_zero last), rfl⟩
  | (line, c) :: code => by
    rw [extentIn]
    by_cases hopen : c = '{'
    · subst hopen
      -- with an opening brace at its start, the code has no other first block than one from there
      have hzero : ∀ last, (∃ first, FirstBlock lookahead ((line, '{') :: code) first last) ↔
          line ≤ lookahead ∧ ∃ last', last = last' + 1 ∧ ClosesAt 1 (code.map Prod.snd) last' := by
        intro last
        rw [← firstBlock_zero line]
        exact ⟨fun ⟨first, h⟩ => h.eq_zero (.inl rfl) ▸ h, fun h => ⟨0, h⟩⟩
      rw [if_pos rfl]
      by_cases hsoon : line ≤ lookahead
      · rw [if_pos hsoon]
        refine (endsWhere_some lookahead code 1 Nat.one_pos).cons fun last => ?_
        rw [hzero, and_iff_right hsoon]
      · rw [if_neg hsoon]
        exact .inr ⟨fun last h => hsoon ((hzero last).1 h).1, rfl⟩
    rw [if_neg hopen]
    by_cases hend : c = ';'
    · rw [if_pos hend]
      refine .inr ⟨fun last ⟨first, h⟩ => ?_, rfl⟩
      obtain rfl := h.eq_zero (.inr hend)
      obtain ⟨_, -, he⟩ := h.opens
      exact hopen (congrArg Prod.snd (Option.some.inj he))
    · rw [if_neg hend]
      refine (endsWhere_none code).cons fun last => ⟨fun ⟨first, h⟩ => ?_, fun ⟨last', hlast, first, h⟩ => ?_⟩
      · obtain ⟨first', last', -, hlast, h'⟩ := (firstBlock_cons hopen hend).1 h
        exact ⟨last', hlast, first', h'⟩
      · exact ⟨first + 1, (firstBlock_cons hopen hend).2 ⟨first, last', rfl, hlast, h⟩⟩

/-- What follows a block has no part in it. -/
theorem FirstBlock.append (h : FirstBlock lookahead code first last) (more : List (Nat × Char)) :
    FirstBlock lookahead (code ++ more) first last := by
  have hinside := h.inside
  have hlt := h.lt
  have hchars : ∀ place, place ≤ last → charsThrough (code ++ more) first place = charsThrough code first place := by
    intro place hplace
    rw [charsThrough, charsThrough, List.map_append, List.drop_append_of_le_length (by rw [List.length_map]; omega),
      List.take_append_of_le_length (by rw [List.length_drop, List.length_map]; omega)]
  refine ⟨?_, ?_, hlt, by rw [List.length_append]; omega, ?_, fun place hpos hplace hb => ?_⟩
  · rw [List.getElem?_append_left (by omega)]
    exact h.opens
  · rw [List.take_append_of_le_length (by omega)]
    exact h.before
  · rw [hchars last (Nat.le_refl last)]
    exact h.balanced
  · rw [hchars place (by omega)] at hb
    exact h.least place hpos hplace hb

end FirstBlock

/-! ## Extents -/

/-- The code in which the block of the first of the lines is searched for. -/
def codeWithin (limits : Limits) (quotes : List Char) (ls : List (List Char)) : List (Nat × Char) :=
  placedCode quotes 0 (ls.take limits.window)

theorem braceExtent_eq_extentIn (limits : Limits) (quotes : List Char) (ls : List (List Char)) :
    braceExtent limits quotes ls = extentIn limits.lookahead none (codeWithin limits quotes ls) :=
  braceExtentFrom_eq_extentIn _ _ _ _ _ fun _ => Nat.zero_le _

theorem braceExtent_of_firstBlock {limits : Limits} {quotes : List Char} {ls : List (List Char)} {first last : Nat}
    (h : FirstBlock limits.lookahead (codeWithin limits quotes ls) first last) :
    ∃ line, (codeWithin limits quotes ls)[last]? = some (line, '}') ∧ braceExtent limits quotes ls = line + 1 := by
  rw [braceExtent_eq_extentIn]
  rcases endsWhere_none limits.lookahead (codeWithin limits quotes ls) with ⟨_, line, ⟨_, h'⟩, hline, he⟩ | ⟨hnone, -⟩
  · exact ⟨line, by rw [h.last_unique h', hline], he⟩
  · exact absurd ⟨first, h⟩ (hnone last)

/-- A wider window and further lines leave the code of the lines before as it is. -/
theorem exists_codeWithin_append (limits : Limits) (quotes : List Char) (ls more : List (List Char)) {window : Nat}
    (hwindow : limits.window ≤ window) :
    ∃ code, codeWithin { limits with window := window } quotes (ls ++ more) = codeWithin limits quotes ls ++ code := by
  have hprefix : ls.take limits.window <+: (ls ++ more).take window :=
    (List.IsPrefix.take (List.prefix_append ls more) limits.window).trans (List.take_prefix_take_left hwindow)
  obtain ⟨later, hlater⟩ := hprefix
  exact ⟨_, by rw [codeWithin, ← hlater, placedCode_append, codeWithin]⟩

/-- **The extent in braces ends with the line on which the first block closes**, whatever the window beyond that line
and whatever follows it; without such a block it is one line.  Through each stretch of the code in which a block is
open, the braces that are open are those that opened less those that closed. -/
theorem braceExtent_firstBlock (limits : Limits) (quotes : List Char) (ls : List (List Char)) (start : Nat) :
    let code := codeWithin limits quotes (ls.drop start)
    let extent := braceExtent limits quotes (ls.drop start)
    (∀ first last, FirstBlock limits.lookahead code first last →
        (∃ line, code[last]? = some (line, '}') ∧ extent = line + 1) ∧
          ∀ window more, limits.window ≤ window →
            braceExtent { limits with window := window } quotes ((ls ++ more).drop start) = extent) ∧
      ((∀ first last, ¬ FirstBlock limits.lookahead code first last) → extent = 1) ∧
      ∀ k d, balance none ((code.take k).map Prod.snd) = .depth (some d) →
        ∃ pre post, (code.take k).map Prod.snd = pre ++ '{' :: post ∧ Bare pre ∧
          0 < d ∧ d + post.count '}' = 1 + post.count '{' := by
  intro code extent
  refine ⟨fun first last h => ?_, fun hnone => ?_, fun k d h => depth_of_balance_none _ h⟩
  · obtain ⟨line, hline, he⟩ := braceExtent_of_firstBlock h
    refine ⟨⟨line, hline, he⟩, fun window more hwindow => ?_⟩
    have hinside := h.inside
    have hstart : start ≤ ls.length := by
      refine Nat.le_of_not_lt fun hlt => ?_
      simp [code, codeWithin, placedCode, List.drop_of_length_le (Nat.le_of_lt hlt)] at hinside
    rw [List.drop_append_of_le_length hstart]
    obtain ⟨later, hlater⟩ := exists_codeWithin_append limits quotes (ls.drop start) more hwindow
    have h' : FirstBlock limits.lookahead (codeWithin { limits with window := window } quotes (ls.drop start ++ more))
        first last := by
      rw [hlater]
      exact h.append later
    obtain ⟨line', hline', he'⟩ := @braceExtent_of_firstBlock { limits with window := window } _ _ _ _ h'
    rw [hlater, List.getElem?_append_left hinside] at hline'
    obtain ⟨rfl, -⟩ := Prod.mk.inj (Option.some.inj (hline.symm.trans hline'))
    exact he'.trans he.symm
  · rcases endsWhere_none limits.lookahead code with ⟨last, _, ⟨first, h⟩, -⟩ | ⟨-, he⟩
    · exact absurd h (hnone first last)
    · exact (braceExtent_eq_extentIn limits quotes (ls.drop start)).trans he

def sampleBlock : List (List Char) := ["f() \x7b".toList, " \x7b \x7d".toList, "\x7d".toList]

theorem braceExtent_firstBlock_sample :
    FirstBlock 3 (codeWithin ⟨3, 200⟩ ['"'] sampleBlock) 4 9 ∧ braceExtent ⟨3, 200⟩ ['"'] sampleBlock = 3 ∧
      ∀ more, braceExtent ⟨3, 400⟩ ['"'] (sampleBlock ++ more) = 3 := by
  have hcode : codeWithin ⟨3, 200⟩ ['"'] sampleBlock = [(0, 'f'), (0, '('), (0, ')'), (0, ' '), (0, '{'), (1, ' '),
      (1, '{'), (1, ' '), (1, '}'), (2, '}')] := by decide +kernel
  have hblock : FirstBlock 3 (codeWithin ⟨3, 200⟩ ['"'] sampleBlock) 4 9 := by
    rw [hcode]
    refine ⟨⟨0, by decide, rfl⟩, by decide, by decide, by decide, by decide, fun place hpos hplace => ?_⟩
    exact (by decide : ∀ place < 9, 4 < place → ¬ Balanced (charsThrough _ 4 place)) place hplace hpos
  obtain ⟨⟨line, hline, he⟩, hmore⟩ := (braceExtent_firstBlock ⟨3, 200⟩ ['"'] sampleBlock 0).1 4 9 hblock
  have hthree : braceExtent ⟨3, 200⟩ ['"'] sampleBlock = 3 := by
    rw [List.drop_zero, hcode] at hline
    cases hline
    exact he
  exact ⟨hblock, hthree, fun more => (hmore 400 more (by decide)).trans hthree⟩

end FileGraph.Source
