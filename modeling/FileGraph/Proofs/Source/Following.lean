import FileGraph.Source.Extent.Braces
import FileGraph.Source.Extent.Keywords
/-!
# Following — a block line by line

A block in braces and one that closes with `end` are both followed line by line until one closes them or gives them up,
and only the step differs (`follow` with `braceStep` and `keywordStep`).  What is followed from a later line of a block,
in a state that stays under the block's own, is over no later than the block (`add_follow_le`).
-/
namespace FileGraph.Source

/-- What a line does to a block that is followed. -/
inductive Verdict (σ : Type) where
  | closed
  | refused
  | goesOn (state : σ)

variable {σ : Type}

/-- The extent of a block that is followed from the line at `offset` on. -/
def follow (step : Nat → σ → List Char → Verdict σ) : (offset : Nat) → σ → List (List Char) → Nat
  | _, _, [] => 1
  | offset, s, line :: rest =>
    match step offset s line with
    | .closed => offset + 1
    | .refused => 1
    | .goesOn s => follow step (offset + 1) s rest

def braceStep (lookahead : Nat) (quotes : List Char) (offset : Nat) (d : Option Nat) (line : List Char) :
    Verdict (Option Nat) :=
  match balance d (codeChars quotes line) with
  | .closed => .closed
  | .refused => .refused
  | .depth none => if lookahead ≤ offset then .refused else .goesOn none
  | .depth (some d) => .goesOn (some d)

def keywordStep (_offset depth : Nat) (raw : List Char) : Verdict Nat :=
  let left := (if opensBlock (dropComment raw) then depth + 1 else depth) - closings (dropComment raw)
  if left = 0 then .closed else .goesOn left

section Follow

variable (step : Nat → σ → List Char → Verdict σ)

theorem follow_le : ∀ (ls : List (List Char)) (offset : Nat) (s : σ),
    follow step offset s ls ≤ max (offset + ls.length) 1
  | [], offset, s => by unfold follow; omega
  | line :: rest, offset, s => by
    unfold follow
    rw [List.length_cons]
    split
    · omega
    · omega
    · rename_i s' _
      have ih := follow_le rest (offset + 1) s'
      omega

theorem follow_eq_one_or_lt : ∀ (ls : List (List Char)) (offset : Nat) (s : σ),
    follow step offset s ls = 1 ∨ offset < follow step offset s ls
  | [], offset, s => .inl rfl
  | line :: rest, offset, s => by
    unfold follow
    split
    · exact .inr (Nat.lt_succ_self offset)
    · exact .inl rfl
    · rename_i s' _
      exact (follow_eq_one_or_lt rest (offset + 1) s').imp_right Nat.lt_of_succ_lt

/-- **A block that is found is followed through each of its lines**, in a state that keeps what each line keeps of the
lines before it. -/
theorem exists_follow_drop (Keeps : List (List Char) → σ → Prop)
    (hkeeps : ∀ before offset s line s', Keeps before s → step offset s line = .goesOn s' →
      Keeps (before ++ [line]) s') :
    ∀ (j : Nat) (before ls : List (List Char)) (offset : Nat) (s : σ), Keeps before s →
      1 < follow step offset s ls → offset + j < follow step offset s ls →
        ∃ s', Keeps (before ++ ls.take j) s' ∧
          follow step (offset + j) s' (ls.drop j) = follow step offset s ls
  | 0, before, ls, offset, s, hs, _, _ => ⟨s, by simpa using hs, rfl⟩
  | j + 1, before, [], offset, s, _, h, _ => absurd h (Nat.lt_irrefl 1)
  | j + 1, before, line :: rest, offset, s, hs, h, hj => by
    rw [follow] at h hj ⊢
    cases hstep : step offset s line with
    | closed => simp only [hstep] at hj; omega
    | refused => simp only [hstep] at h; omega
    | goesOn s' =>
      simp only [hstep] at h hj ⊢
      obtain ⟨s'', hs'', hfollow⟩ := exists_follow_drop Keeps hkeeps j (before ++ [line]) rest (offset + 1) s'
        (hkeeps _ _ _ _ _ hs hstep) h (by omega)
      have hoffset : offset + (j + 1) = offset + 1 + j := by omega
      rw [List.append_assoc] at hs''
      exact ⟨s'', hs'', by rw [hoffset]; exact hfollow⟩

/-! ## A block inside of another -/

/-- That an inner block is over with a line if the outer one is, and stays under it if both go on. -/
inductive Verdict.Under (R : σ → σ → Prop) : (inner outer : Verdict σ) → Prop where
  | closed (outer : Verdict σ) : Under R .closed outer
  | refused (outer : Verdict σ) : Under R .refused outer
  | lost (inner : Verdict σ) : Under R inner .refused
  | goesOn {t s : σ} : R t s → Under R (.goesOn t) (.goesOn s)

variable {step} in
/-- **A block that starts inside another and stays under it ends with it at the latest**, `j` lines after its start. -/
theorem add_follow_le {R : σ → σ → Prop} {j : Nat}
    (hstep : ∀ offset t s line, R t s → (step offset t line).Under R (step (j + offset) s line))
    (more : List (List Char)) : ∀ (ls : List (List Char)) (offset : Nat) (t s : σ), R t s →
      1 < follow step (j + offset) s ls → j + follow step offset t (ls ++ more) ≤ follow step (j + offset) s ls
  | [], offset, t, s, _, h => absurd h (Nat.lt_irrefl 1)
  | line :: rest, offset, t, s, hR, h => by
    have hlt := (follow_eq_one_or_lt step (line :: rest) (j + offset) s).resolve_left (Nat.ne_of_gt h)
    have hunder := hstep offset t s line hR
    simp only [List.cons_append, follow] at h hlt ⊢
    generalize step (j + offset) s line = outer, step offset t line = inner at h hlt hunder ⊢
    cases hunder with
    | closed => exact hlt
    | refused => exact Nat.succ_le_of_lt (Nat.lt_of_le_of_lt (Nat.le_add_right j offset) hlt)
    | lost => exact absurd h (Nat.lt_irrefl 1)
    | goesOn hR' => exact add_follow_le hstep more rest (offset + 1) _ _ hR' h

theorem take_drop_append (window j : Nat) (ls : List (List Char)) :
    ∃ more, (ls.drop j).take window = (ls.take window).drop j ++ more := by
  obtain ⟨more, h⟩ := List.take_prefix_take_left (l := ls.drop j) (Nat.sub_le window j)
  exact ⟨more, by rw [List.drop_take, h]⟩

end Follow

/-! ## Braces and keywords -/

theorem braceExtentFrom_eq (lookahead : Nat) (quotes : List Char) : ∀ (ls : List (List Char)) (offset : Nat)
    (d : Option Nat), braceExtentFrom lookahead quotes offset d ls = follow (braceStep lookahead quotes) offset d ls
  | [], offset, d => rfl
  | line :: rest, offset, d => by
    rw [braceExtentFrom, follow, braceStep]
    cases balance d (codeChars quotes line) with
    | closed => rfl
    | refused => rfl
    | depth d' =>
      cases d' with
      | none => by_cases h : lookahead ≤ offset <;> simp [h, braceExtentFrom_eq lookahead quotes rest]
      | some d' => exact braceExtentFrom_eq lookahead quotes rest _ _

theorem keywordExtentFrom_eq : ∀ (ls : List (List Char)) (offset depth : Nat),
    keywordExtentFrom offset depth ls = follow keywordStep offset depth ls
  | [], offset, depth => rfl
  | raw :: rest, offset, depth => by
    rw [keywordExtentFrom, follow, keywordStep]
    simp only [keywordExtentFrom_eq rest]
    generalize (if opensBlock (dropComment raw) then depth + 1 else depth) - closings (dropComment raw) = left
    by_cases h : left = 0 <;> simp [h]

end FileGraph.Source
