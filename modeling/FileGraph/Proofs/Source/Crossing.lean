import FileGraph.Proofs.Source.Nesting
import Mathlib.Data.List.Infix
/-!
# Crossing — when functions in braces overlap without being nested

A function that starts inside a block in braces and opens a block of its own there closes it there: its block is
followed with no more braces open than the outer one has.  But the search for an opening brace passes over closing ones.
So a function without a block, such as one whose value is an expression, may be given a block that opens only after the
one it stands in has closed.

That is the only way in which two functions cross: the code from the later one's first line up to the brace that closes
the earlier one has neither an opening brace nor a `;` (`Unopened`, `nested_apart_or_unopened`).
-/
namespace FileGraph.Source

open Text (lines)

/-- The code of lines: what stands outside of strings, character literals and comments. -/
def codeOf (quotes : List Char) (ls : List (List Char)) : List Char := ls.flatMap (codeChars quotes)

/-- Code in which no block opens and no statement ends. -/
def Bare (code : List Char) : Prop := ∀ c ∈ code, c ≠ '{' ∧ c ≠ ';'

/-- That a closing brace after some code closes the block that opens in it. -/
def Closes (code : List Char) : Prop := balance none code ≠ .closed ∧ balance none (code ++ ['}']) = .closed

theorem Bare.nil : Bare [] := fun _ h => nomatch h

theorem Bare.append {xs ys : List Char} (hx : Bare xs) (hy : Bare ys) : Bare (xs ++ ys) := fun c hc =>
  (List.mem_append.1 hc).elim (hx c) (hy c)

/-! ## Balance -/

theorem balance_append : ∀ (xs : List Char) (d : Option Nat) (ys : List Char), balance d (xs ++ ys) =
    match balance d xs with
    | .depth d' => balance d' ys
    | v => v
  | [], d, ys => by simp [balance]
  | c :: xs, none, ys => by
    simp only [List.cons_append, balance]
    split
    · exact balance_append xs _ ys
    · split
      · rfl
      · exact balance_append xs _ ys
  | c :: xs, some d, ys => by
    simp only [List.cons_append, balance]
    split
    · exact balance_append xs _ ys
    · split
      · split
        · rfl
        · exact balance_append xs _ ys
      · exact balance_append xs _ ys

theorem Bare.balance {code : List Char} (h : Bare code) : balance none code = .depth none := by
  induction code with
  | nil => rfl
  | cons c cs ih =>
    obtain ⟨hopen, hend⟩ := h c List.mem_cons_self
    rw [Source.balance, if_neg hopen, if_neg hend]
    exact ih fun x hx => h x (List.mem_cons_of_mem _ hx)

theorem closes_of_balance {code : List Char} {d : Nat} (h : balance none code = .depth (some d)) (hd : d ≤ 1) :
    Closes code := by
  unfold Closes
  rw [balance_append, h]
  simp [balance, hd]

/-- **With fewer braces open a block is closed no later.** -/
theorem balance_some_under : ∀ (cs : List Char) {t s : Nat}, t ≤ s →
    balance (some t) cs = .closed ∨
      ∃ t' s', t' ≤ s' ∧ balance (some t) cs = .depth (some t') ∧ balance (some s) cs = .depth (some s')
  | [], t, s, h => .inr ⟨t, s, h, rfl, rfl⟩
  | c :: cs, t, s, h => by
    simp only [balance]
    split
    · exact balance_some_under cs (Nat.succ_le_succ h)
    · split
      · by_cases ht : t ≤ 1
        · exact .inl (if_pos ht)
        · rw [if_neg ht, if_neg (by omega)]
          exact balance_some_under cs (by omega)
      · exact balance_some_under cs h

/-- What some code does to a block that has not opened, inside of one that has: it is over, it opens under the outer
one, or it stays unopened — until the outer one closes, or to the end. -/
theorem balance_none_under : ∀ (cs : List Char) (s : Nat),
    (balance none cs = .closed ∨ balance none cs = .refused) ∨
      (∃ t' s', t' ≤ s' ∧ balance none cs = .depth (some t') ∧ balance (some s) cs = .depth (some s')) ∨
      (Bare cs ∧ ∃ s', balance (some s) cs = .depth (some s')) ∨
      balance (some s) cs = .closed ∧ ∃ pre post, cs = pre ++ '}' :: post ∧ Bare pre ∧
        ∃ s' ≤ 1, balance (some s) pre = .depth (some s')
  | [], s => .inr (.inr (.inl ⟨.nil, s, rfl⟩))
  | c :: cs, s => by
    by_cases hopen : c = '{'
    · simp only [balance, if_pos hopen]
      rcases balance_some_under cs (Nat.succ_le_succ (Nat.zero_le s)) with h | h
      · exact .inl (.inl h)
      · exact .inr (.inl h)
    by_cases hend : c = ';'
    · exact .inl (.inr (by simp [balance, hend]))
    have hbare : ∀ {pre : List Char}, Bare pre → Bare (c :: pre) := fun h x hx =>
      (List.mem_cons.1 hx).elim (fun e => e ▸ ⟨hopen, hend⟩) (h x)
    by_cases hclose : c = '}' ∧ s ≤ 1
    · obtain ⟨rfl, hs⟩ := hclose
      exact .inr (.inr (.inr ⟨by simp [balance, hs], [], cs, rfl, .nil, s, hs, rfl⟩))
    · -- the character changes at most how many braces of the outer block are open
      obtain ⟨s₁, hs₁⟩ : ∃ s₁, ∀ ds, balance (some s) (c :: ds) = balance (some s₁) ds := by
        by_cases hc : c = '}'
        · exact ⟨s - 1, fun ds => by simp [balance, hc, show ¬ s ≤ 1 from fun h => hclose ⟨hc, h⟩]⟩
        · exact ⟨s, fun ds => by simp [balance, hopen, hc]⟩
      have hnone : ∀ ds, balance none (c :: ds) = balance none ds := fun ds => by simp [balance, hopen, hend]
      rw [hs₁, hnone]
      rcases balance_none_under cs s₁ with h | h | ⟨hb, h⟩ | ⟨h, pre, post, rfl, hb, s', hs', hpre⟩
      · exact .inl h
      · exact .inr (.inl h)
      · exact .inr (.inr (.inl ⟨hbare hb, h⟩))
      · exact .inr (.inr (.inr ⟨h, c :: pre, post, rfl, hbare hb, s', hs', by rw [hs₁]; exact hpre⟩))

/-! ## Line by line -/

theorem codeOf_append (quotes : List Char) (ls ls' : List (List Char)) :
    codeOf quotes (ls ++ ls') = codeOf quotes ls ++ codeOf quotes ls' := by simp [codeOf]

theorem codeOf_cons (quotes : List Char) (line : List Char) (ls : List (List Char)) :
    codeOf quotes (line :: ls) = codeChars quotes line ++ codeOf quotes ls := rfl

section Lines

variable {lookahead : Nat} {quotes : List Char}

theorem balance_of_goesOn {offset : Nat} {s s' : Option Nat} {line : List Char}
    (h : braceStep lookahead quotes offset s line = .goesOn s') : balance s (codeChars quotes line) = .depth s' := by
  unfold braceStep at h
  split at h
  · cases h
  · cases h
  · split at h
    · cases h
    · cases h
      assumption
  · cases h
    assumption

/-- That two blocks have both not opened, or have both opened and no more braces are open in the inner one. -/
def Under (t s : Option Nat) : Prop := t = none ∧ s = none ∨ ∃ t' s', t' ≤ s' ∧ t = some t' ∧ s = some s'

theorem braceStep_under (offset offset' : Nat) {t s : Option Nat} (line : List Char) (h : Under t s) :
    (braceStep lookahead quotes offset t line).Under Under (braceStep lookahead quotes offset' s line) := by
  unfold braceStep
  rcases h with ⟨rfl, rfl⟩ | ⟨t, s, hts, rfl, rfl⟩
  · cases balance none (codeChars quotes line) with
    | closed => exact .closed _
    | refused => exact .refused _
    | depth d =>
      cases d with
      | some d => exact .goesOn (.inr ⟨d, d, Nat.le_refl d, rfl, rfl⟩)
      | none =>
        by_cases hinner : lookahead ≤ offset
        · simp only [if_pos hinner]
          exact .refused _
        by_cases houter : lookahead ≤ offset'
        · simp only [if_pos houter]
          exact .lost _
        · simp only [if_neg hinner, if_neg houter]
          exact .goesOn (.inl ⟨rfl, rfl⟩)
  · rcases balance_some_under (codeChars quotes line) hts with ht | ⟨t', s', hts', ht, hs⟩
    · rw [ht]
      exact .closed _
    · rw [ht, hs]
      exact .goesOn (.inr ⟨t', s', hts', rfl, rfl⟩)

theorem add_follow_le_of_under {j : Nat} (more ls : List (List Char)) (offset : Nat) {t s : Option Nat}
    (h : Under t s) (hfound : 1 < follow (braceStep lookahead quotes) (j + offset) s ls) :
    j + follow (braceStep lookahead quotes) offset t (ls ++ more) ≤
      follow (braceStep lookahead quotes) (j + offset) s ls :=
  add_follow_le (fun offset _ _ line => braceStep_under offset (j + offset) line) more ls offset t s h hfound

/-- That the brace that closes an outer block stands `k` lines further on and the code up to it is bare. -/
def BareUntilClosed (quotes : List Char) (s : Nat) (ls : List (List Char)) (k : Nat) : Prop :=
  ∃ line pre post, ls[k]? = some line ∧ codeChars quotes line = pre ++ '}' :: post ∧
    Bare (codeOf quotes (ls.take k) ++ pre) ∧
    ∃ s' ≤ 1, balance (some s) (codeOf quotes (ls.take k) ++ pre) = .depth (some s')

theorem BareUntilClosed.cons {s s' : Nat} {line : List Char} {rest : List (List Char)} {k : Nat}
    (h : BareUntilClosed quotes s' rest k) (hbare : Bare (codeChars quotes line))
    (hline : balance (some s) (codeChars quotes line) = .depth (some s')) :
    BareUntilClosed quotes s (line :: rest) (k + 1) := by
  obtain ⟨last, pre, post, hlast, hcode, hpre, d, hd, hbalance⟩ := h
  refine ⟨last, pre, post, hlast, hcode, ?_, d, hd, ?_⟩
  · rw [List.take_succ_cons, codeOf_cons, List.append_assoc]
    exact hbare.append hpre
  · rw [List.take_succ_cons, codeOf_cons, List.append_assoc, balance_append, hline]
    exact hbalance

theorem BareUntilClosed.mono {s k : Nat} {ls ls' : List (List Char)} (h : BareUntilClosed quotes s ls k)
    (hle : ls <+: ls') : BareUntilClosed quotes s ls' k := by
  obtain ⟨more, rfl⟩ := hle
  obtain ⟨line, pre, post, hline, h⟩ := h
  have hk : k < ls.length := (List.getElem?_eq_some_iff.1 hline).1
  refine ⟨line, pre, post, by rw [List.getElem?_append_left hk, hline], ?_⟩
  rwa [List.take_append_of_le_length (Nat.le_of_lt hk)]

/-- **A block that has not opened inside another ends with it**, or it does not open before that one closes. -/
theorem add_follow_le_or_bare (j : Nat) (more : List (List Char)) : ∀ (ls : List (List Char)) (offset s : Nat),
    1 < follow (braceStep lookahead quotes) (j + offset) (some s) ls →
      j + follow (braceStep lookahead quotes) offset none (ls ++ more) ≤
          follow (braceStep lookahead quotes) (j + offset) (some s) ls ∨
        ∃ k, follow (braceStep lookahead quotes) (j + offset) (some s) ls = j + offset + k + 1 ∧
          BareUntilClosed quotes s ls k
  | [], offset, s, h => absurd h (Nat.lt_irrefl 1)
  | line :: rest, offset, s, h => by
    have hlt := (follow_eq_one_or_lt _ (line :: rest) (j + offset) (some s)).resolve_left (Nat.ne_of_gt h)
    generalize hn : follow (braceStep lookahead quotes) (j + offset) (some s) (line :: rest) = n at h hlt ⊢
    have houter : ∀ s', balance (some s) (codeChars quotes line) = .depth (some s') →
        n = follow (braceStep lookahead quotes) (j + (offset + 1)) (some s') rest := by
      intro s' hs
      rw [← hn, follow]
      simp only [braceStep, hs]
      rfl
    rw [List.cons_append, follow]
    rcases balance_none_under (codeChars quotes line) s with
      (ht | ht) | ⟨t', s', hts, ht, hs⟩ | ⟨hbare, s', hs⟩ | ⟨hs, pre, post, hcode, hbare, s', hs', hpre⟩
    · simp only [braceStep, ht]
      exact .inl (by omega)
    · simp only [braceStep, ht]
      exact .inl (by omega)
    · -- both have opened
      obtain rfl := houter s' hs
      simp only [braceStep, ht]
      exact .inl (add_follow_le_of_under more rest (offset + 1) (.inr ⟨t', s', hts, rfl, rfl⟩) h)
    · -- the outer block goes on, and the inner one has still to open
      simp only [braceStep, hbare.balance]
      by_cases hlookahead : lookahead ≤ offset
      · simp only [if_pos hlookahead]
        exact .inl (by omega)
      · simp only [if_neg hlookahead]
        obtain rfl := houter s' hs
        rcases add_follow_le_or_bare j more rest (offset + 1) s' h with hle | ⟨k, hk, hbares⟩
        · exact .inl hle
        · exact .inr ⟨k + 1, by omega, hbares.cons hbare hs⟩
    · -- the outer block closes on this line
      have hclosed : n = j + offset + 1 := by
        rw [← hn, follow]
        simp only [braceStep, hs]
      refine .inr ⟨0, hclosed, line, pre, post, rfl, hcode, ?_, s', hs', ?_⟩
      · simpa [codeOf] using hbare
      · simpa [codeOf] using hpre

variable (lookahead) in
/-- A block that has not opened after some bare lines is given up, or it reaches beyond them. -/
theorem follow_of_bare : ∀ (k : Nat) (ls : List (List Char)) (offset : Nat), Bare (codeOf quotes (ls.take k)) →
    follow (braceStep lookahead quotes) offset none ls = 1 ∨
      offset + k < follow (braceStep lookahead quotes) offset none ls
  | 0, ls, offset, _ => follow_eq_one_or_lt _ ls offset none
  | k + 1, [], offset, _ => .inl rfl
  | k + 1, line :: rest, offset, h => by
    rw [List.take_succ_cons, codeOf_cons] at h
    have hline : Bare (codeChars quotes line) := fun c hc => h c (List.mem_append_left _ hc)
    rw [follow, braceStep, hline.balance]
    by_cases hlookahead : lookahead ≤ offset
    · exact .inl (by simp only [if_pos hlookahead])
    · simp only [if_neg hlookahead]
      rcases follow_of_bare k rest (offset + 1) fun c hc => h c (List.mem_append_right _ hc) with hone | hlt
      · exact .inl hone
      · exact .inr (by omega)

end Lines

/-! ## Functions -/

/-- The code from one line up to another, both counted from one, without that other line. -/
def codeBetween (quotes : List Char) (ls : List (List Char)) (first last : Nat) : List Char :=
  codeOf quotes ((ls.drop (first - 1)).take (last - first))

/-- That a function which starts inside another one opens no block before the brace that closes the other: from its
first line on up to that brace there is neither an opening brace nor the end of a statement. -/
structure Unopened (quotes : List Char) (ls : List (List Char)) (s t : Span) : Prop where
  starts : s.firstLine < t.firstLine ∧ t.firstLine ≤ s.lastLine
  bare   : ∃ line pre post, ls[s.lastLine - 1]? = some line ∧ codeChars quotes line = pre ++ '}' :: post ∧
    Closes (codeBetween quotes ls s.firstLine s.lastLine ++ pre) ∧
    Bare (codeBetween quotes ls t.firstLine s.lastLine ++ pre)

theorem unopened_of_bare {quotes : List Char} {ls : List (List Char)} {s t : Span} {start j k d : Nat} (hj : 0 < j)
    (hs : s.firstLine = start + 1) (ht : t.firstLine = start + j + 1) (hlast : s.lastLine = start + (j + k + 1))
    (hopen : balance none (codeOf quotes ((ls.drop start).take j)) = .depth (some d))
    (hbare : BareUntilClosed quotes d (ls.drop (start + j)) k) : Unopened quotes ls s t := by
  obtain ⟨line, pre, post, hline, hcode, hpre, d', hd', hbalance⟩ := hbare
  have houter : codeBetween quotes ls s.firstLine s.lastLine =
      codeOf quotes ((ls.drop start).take j) ++ codeOf quotes ((ls.drop (start + j)).take k) := by
    unfold codeBetween
    rw [hs, hlast, show start + (j + k + 1) - (start + 1) = j + k by omega, Nat.add_sub_cancel, List.take_add,
      codeOf_append, List.drop_drop]
  have hinner : codeBetween quotes ls t.firstLine s.lastLine = codeOf quotes ((ls.drop (start + j)).take k) := by
    unfold codeBetween
    rw [ht, hlast, show start + (j + k + 1) - (start + j + 1) = k by omega, Nat.add_sub_cancel]
  refine ⟨by omega, line, pre, post, ?_, hcode, ?_, by rwa [hinner]⟩
  · rw [List.getElem?_drop] at hline
    rw [hlast, ← hline, show start + (j + k + 1) - 1 = start + j + k by omega]
  · rw [houter, List.append_assoc]
    refine closes_of_balance (d := d') ?_ hd'
    rw [balance_append, hopen]
    exact hbalance

section Functions

variable {g : Grammar} {limits : Limits} {quotes : List Char} {ls : List (List Char)} {e e' : String × Span}
  {start start' : Nat} {line line' : List Char} {rest rest' : List (List Char)}

open Grammar

theorem add_le_or_unopened (hg : g.extent = bracedBy quotes) (h : g.Stands limits ls e start line rest)
    (h' : g.Stands limits ls e' start' line' rest') (hlt : start < start')
    (hin : start' - start < g.extent limits (line :: rest)) :
    start' - start + g.extent limits (line' :: rest') ≤ g.extent limits (line :: rest) ∨
      Unopened quotes ls e.2 e'.2 := by
  have hfirst' := h'.firstLine
  have hlast := h.lastLine
  have hdrop := h.drop_of_lt h' hlt
  obtain ⟨j, rfl⟩ : ∃ j, start' = start + j := ⟨start' - start, by omega⟩
  rw [Nat.add_sub_cancel_left] at hdrop hin ⊢
  have hextent : ∀ block, g.extent limits block =
      follow (braceStep limits.lookahead quotes) 0 none (block.take limits.window) := fun block => by
    rw [hg]
    exact braceExtent_eq limits quotes block
  rw [hextent] at hin hlast
  rw [hextent, hextent, ← hdrop]
  obtain ⟨more, hmore⟩ := take_drop_append limits.window j (line :: rest)
  -- what is open of the outer block where the inner function starts
  obtain ⟨state, hstate, hfollow⟩ := exists_follow_drop (braceStep limits.lookahead quotes)
    (fun before s => balance none (codeOf quotes before) = .depth s)
    (fun before offset s line s' hs hstep => by
      rw [codeOf_append, balance_append, hs]
      simpa [codeOf] using balance_of_goesOn hstep)
    j [] ((line :: rest).take limits.window) 0 none rfl (by omega) (by omega)
  rw [Nat.zero_add] at hfollow
  rw [hmore, ← hfollow]
  cases state with
  | none =>
    exact .inl (add_follow_le_of_under more _ 0 (.inl ⟨rfl, rfl⟩) (by rw [Nat.add_zero, hfollow]; omega))
  | some d =>
    rcases add_follow_le_or_bare j more _ 0 d (by rw [Nat.add_zero, hfollow]; omega) with hle | ⟨k, hk, hbare⟩
    · exact .inl hle
    · have hwindow := follow_le (braceStep limits.lookahead quotes) ((line :: rest).take limits.window) 0 none
      rw [List.length_take] at hwindow
      rw [Nat.add_zero, hfollow] at hk
      rw [List.nil_append, List.take_take, Nat.min_eq_left (by omega), ← h.drop] at hstate
      have hlast' : e.2.lastLine = start + (j + k + 1) := by omega
      refine .inr (unopened_of_bare (by omega) h.firstLine hfirst' hlast' hstate ?_)
      rw [← List.drop_drop, h.drop]
      exact hbare.mono (List.IsPrefix.drop (List.take_prefix limits.window _) j)

theorem within_apart_or_unopened (hg : g.extent = bracedBy quotes) (h : g.Stands limits ls e start line rest)
    (h' : g.Stands limits ls e' start' line' rest') (hlt : start < start') :
    e'.2.Within e.2 ∨ e.2.Apart e'.2 ∨ Unopened quotes ls e.2 e'.2 := by
  by_cases hunopened : Unopened quotes ls e.2 e'.2
  · exact .inr (.inr hunopened)
  · have hnested := h.within_or_apart h' hlt fun hin => (add_le_or_unopened hg h h' hlt hin).resolve_right hunopened
    exact hnested.imp_right .inl

/-- A function that has no block by the end of the one it starts in has one line, or reaches that end at least. -/
theorem Unopened.lastLine_le (hun : Unopened quotes ls e.2 e'.2) (hg : g.extent = bracedBy quotes)
    (h' : g.Stands limits ls e' start' line' rest') : e'.2.lineCount = 1 ∨ e.2.lastLine ≤ e'.2.lastLine := by
  obtain ⟨⟨_, hle⟩, _, pre, _, _, _, _, hbare⟩ := hun
  rw [h'.lineCount, h'.lastLine, hg]
  unfold bracedBy
  rw [braceExtent_eq]
  have hfirst := h'.firstLine
  have hlines : Bare (codeOf quotes (((line' :: rest').take limits.window).take (e.2.lastLine - e'.2.firstLine))) := by
    intro c hc
    obtain ⟨l, hl, hc⟩ := List.mem_flatMap.1 hc
    refine hbare c (List.mem_append_left _ (List.mem_flatMap.2 ⟨l, ?_, hc⟩))
    rw [hfirst, Nat.add_sub_cancel, h'.drop, ← hfirst]
    rw [List.take_take, Nat.min_comm, ← List.take_take] at hl
    exact List.mem_of_mem_take hl
  rcases follow_of_bare limits.lookahead _ _ 0 hlines with hone | hlt
  · exact .inl (by omega)
  · exact .inr (by omega)

end Functions

/-- **Functions in braces are nested or apart unless one has no block before the other one closes**: then it has one
line, or reaches the end of the other one at least and may cross it. -/
theorem nested_apart_or_unopened {language : Language} {quotes : List Char} (hq : delimiters? language = some quotes)
    (limits : Limits) (content : String) :
    let functions := (analyzeFile limits language content).functions.entries
    let ls := lines content.toList
    ∀ e ∈ functions, ∀ e' ∈ functions,
      (e.2.Within e'.2 ∨ e'.2.Within e.2 ∨ e.2.Apart e'.2 ∨
          Unopened quotes ls e.2 e'.2 ∨ Unopened quotes ls e'.2 e.2) ∧
        (Unopened quotes ls e.2 e'.2 → e'.2.lineCount = 1 ∨ e.2.lastLine ≤ e'.2.lastLine) := by
  intro functions ls e he e' he'
  obtain ⟨g, hg, hstands⟩ := stands_of_mem_analyzeFile he
  obtain ⟨start, line, rest, hs⟩ := hstands e he
  obtain ⟨start', line', rest', hs'⟩ := hstands e' he'
  have hbraced : g.extent = Grammar.bracedBy quotes := by
    rcases grammar?_cases hg with ⟨quotes', hq', hextent⟩ | ⟨rfl, -⟩ | ⟨rfl, -⟩
    · rw [hextent, Option.some.inj (hq.symm.trans hq')]
    · cases hq
    · cases hq
  refine ⟨?_, fun hun => hun.lastLine_le hbraced hs'⟩
  rcases Nat.lt_trichotomy start start' with hlt | rfl | hlt
  · rcases within_apart_or_unopened hbraced hs hs' hlt with hw | ha | hun
    · exact .inr (.inl hw)
    · exact .inr (.inr (.inl ha))
    · exact .inr (.inr (.inr (.inl hun)))
  · rw [hs.eq hs']
    exact .inl ⟨Nat.le_refl _, Nat.le_refl _⟩
  · rcases within_apart_or_unopened hbraced hs' hs hlt with hw | ha | hun
    · exact .inl hw
    · exact .inr (.inr (.inl ha.symm))
    · exact .inr (.inr (.inr (.inr hun)))

/-- A function whose value is an expression, as the last one of a block. -/
def sampleArrow : String := "function f() \x7b\n  const g = (x) => x * 2\n\x7d\nfunction h() \x7b\n\x7d\n"

theorem nested_apart_or_unopened_sample :
    (analyzeFile ⟨3, 200⟩ .javascript sampleArrow).functions.entries =
        [("f", ⟨1, 3⟩), ("g", ⟨2, 4⟩), ("h", ⟨4, 2⟩)] ∧
      ¬ (Span.Within ⟨1, 3⟩ ⟨2, 4⟩ ∨ Span.Within ⟨2, 4⟩ ⟨1, 3⟩ ∨ Span.Apart ⟨1, 3⟩ ⟨2, 4⟩) ∧
      Unopened ['"', '\'', '\x60'] (lines sampleArrow.toList) ⟨1, 3⟩ ⟨2, 4⟩ := by
  have hfunctions : (analyzeFile ⟨3, 200⟩ .javascript sampleArrow).functions.entries =
      [("f", ⟨1, 3⟩), ("g", ⟨2, 4⟩), ("h", ⟨4, 2⟩)] := by decide +kernel
  have hcross : ¬ (Span.Within ⟨1, 3⟩ ⟨2, 4⟩ ∨ Span.Within ⟨2, 4⟩ ⟨1, 3⟩ ∨ Span.Apart ⟨1, 3⟩ ⟨2, 4⟩) := by decide
  have hdelimiters : delimiters? .javascript = some ['"', '\'', '\x60'] := rfl
  have hpairs := nested_apart_or_unopened hdelimiters ⟨3, 200⟩ sampleArrow
  rw [hfunctions] at hpairs
  obtain ⟨hpair, -⟩ := hpairs ("f", ⟨1, 3⟩) (by simp) ("g", ⟨2, 4⟩) (by simp)
  refine ⟨hfunctions, hcross, ?_⟩
  rcases hpair with h | h | h | h | h
  · exact absurd (.inl h) hcross
  · exact absurd (.inr (.inl h)) hcross
  · exact absurd (.inr (.inr h)) hcross
  · exact h
  · exact absurd h.starts.1 (by decide)

end FileGraph.Source
