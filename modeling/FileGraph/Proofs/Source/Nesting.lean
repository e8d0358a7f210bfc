import FileGraph.Proofs.Source.Extents
import FileGraph.Proofs.Text.Matching
/-!
# Nesting — functions of Python and Ruby are nested or apart

A signature inside an indented block is indented deeper than the block's header, so what it heads stays in the block.  A
signature inside a block that closes with `end` is followed with no more blocks open than the outer one has, so it is
over no later.  In both cases extents nest (`Grammar.Nests`), and so any two functions of a file are nested or have no
line in common (`nested_or_apart`).
-/
namespace FileGraph.Source

open Text

/-- Whether a function lies inside another. -/
def Span.Within (s t : Span) : Prop := t.firstLine ≤ s.firstLine ∧ s.lastLine ≤ t.lastLine

/-- Whether two functions have no line in common. -/
def Span.Apart (s t : Span) : Prop := s.lastLine < t.firstLine ∨ t.lastLine < s.firstLine

instance (s t : Span) : Decidable (s.Within t) := inferInstanceAs (Decidable (_ ∧ _))

instance (s t : Span) : Decidable (s.Apart t) := inferInstanceAs (Decidable (_ ∨ _))

theorem Span.Apart.symm {s t : Span} (h : s.Apart t) : t.Apart s := Or.symm h

namespace Grammar

/-- That what a signature inside another one's extent heads ends inside of it. -/
def Nests (g : Grammar) (limits : Limits) : Prop :=
  ∀ header block j line rest, block.drop j = line :: rest → (g.signature line).isSome = true →
    j + 1 < g.extent limits (header :: block) →
      j + 1 + g.extent limits (line :: rest) ≤ g.extent limits (header :: block)

variable {g : Grammar} {limits : Limits} {ls : List (List Char)} {e e' : String × Span} {start start' : Nat}
  {line line' : List Char} {rest rest' : List (List Char)}

/-- The lines of a later function are among those of an earlier one, and of all that follow it. -/
theorem Stands.drop_of_lt (h : g.Stands limits ls e start line rest) (h' : g.Stands limits ls e' start' line' rest')
    (hlt : start < start') : (line :: rest).drop (start' - start) = line' :: rest' := by
  rw [← h.drop, List.drop_drop, ← h'.drop]
  congr 1
  omega

/-- Two functions are nested or apart if the later one, where it starts inside the other, ends inside of it. -/
theorem Stands.within_or_apart (h : g.Stands limits ls e start line rest)
    (h' : g.Stands limits ls e' start' line' rest') (hlt : start < start')
    (hle : start' - start < g.extent limits (line :: rest) →
      start' - start + g.extent limits (line' :: rest') ≤ g.extent limits (line :: rest)) :
    e'.2.Within e.2 ∨ e.2.Apart e'.2 := by
  unfold Span.Within Span.Apart
  rw [h.firstLine, h.lastLine, h'.firstLine, h'.lastLine]
  omega

theorem Nests.add_le (hn : g.Nests limits) (h : g.Stands limits ls e start line rest)
    (h' : g.Stands limits ls e' start' line' rest') (hlt : start < start')
    (hin : start' - start < g.extent limits (line :: rest)) :
    start' - start + g.extent limits (line' :: rest') ≤ g.extent limits (line :: rest) := by
  have hdrop := h.drop_of_lt h' hlt
  obtain ⟨j, hj⟩ : ∃ j, start' - start = j + 1 := ⟨start' - start - 1, by omega⟩
  rw [hj] at hdrop hin ⊢
  exact hn line rest j line' rest' hdrop (by rw [h'.signature]; rfl) hin

theorem Nests.laminar (hn : g.Nests limits) (h : g.Stands limits ls e start line rest)
    (h' : g.Stands limits ls e' start' line' rest') : e.2.Within e'.2 ∨ e'.2.Within e.2 ∨ e.2.Apart e'.2 := by
  rcases Nat.lt_trichotomy start start' with hlt | rfl | hlt
  · exact .inr (h.within_or_apart h' hlt (hn.add_le h h' hlt))
  · rw [h.eq h']
    exact .inl ⟨Nat.le_refl _, Nat.le_refl _⟩
  · rcases h'.within_or_apart h hlt (hn.add_le h' h hlt) with hw | ha
    · exact .inl hw
    · exact .inr (.inr ha.symm)

end Grammar

/-! ## Indented blocks -/

theorem length_takeWhile_le {α : Type} {p q : α → Bool} (hpq : ∀ x, p x = true → q x = true) :
    ∀ (l : List α), (l.takeWhile p).length ≤ (l.takeWhile q).length
  | [] => Nat.le_refl _
  | x :: l => by
    have ih := length_takeWhile_le hpq l
    by_cases hp : p x = true
    · simpa [hp, hpq x hp] using ih
    · simp [hp]

theorem takeWhile_of_drop {α : Type} (p : α → Bool) {x : α} {r : List α} : ∀ (l : List α) (k : Nat),
    l.drop k = x :: r → k < (l.takeWhile p).length →
      p x = true ∧ (l.takeWhile p).length = k + 1 + (r.takeWhile p).length
  | [], k, _, hk => absurd hk (Nat.not_lt_zero k)
  | y :: l, k, hdrop, hk => by
    by_cases hp : p y = true
    · rw [List.takeWhile_cons_of_pos hp, List.length_cons] at hk ⊢
      cases k with
      | zero =>
        obtain ⟨rfl, rfl⟩ := List.cons.inj hdrop
        exact ⟨hp, by omega⟩
      | succ k =>
        obtain ⟨hx, hlength⟩ := takeWhile_of_drop p l k hdrop (by omega)
        exact ⟨hx, by omega⟩
    · rw [List.takeWhile_cons_of_neg hp] at hk
      exact absurd hk (Nat.not_lt_zero k)

theorem nests_python (limits : Limits) : Grammar.python.Nests limits := by
  intro header block j line rest hdrop hsignature hj
  unfold Grammar.python at hsignature hj ⊢
  simp only [indentationExtent] at hsignature hj ⊢
  obtain ⟨hline, hlength⟩ := takeWhile_of_drop _ block j hdrop (Nat.lt_of_add_lt_add_left (by rwa [Nat.add_comm] at hj))
  -- the line holds a definition and is not blank, so it is indented deeper than the header
  obtain ⟨name, hname⟩ := Option.isSome_iff_exists.1 hsignature
  have hd : 'd' ∈ line := Pattern.mem_of_slotAtStart? hname (by rfl)
  have hdeeper : indentation header < indentation line := by
    rcases Bool.or_eq_true_iff.1 hline with hblank | hdeeper
    · exact absurd (List.all_eq_true.1 hblank 'd' hd) (by decide)
    · exact of_decide_eq_true hdeeper
  have hrest := length_takeWhile_le (l := rest)
    (p := fun l => l.all isBlank || decide (indentation line < indentation l))
    (q := fun l => l.all isBlank || decide (indentation header < indentation l)) (by
      intro l hl
      rcases Bool.or_eq_true_iff.1 hl with hblank | hl
      · exact Bool.or_eq_true_iff.2 (.inl hblank)
      · exact Bool.or_eq_true_iff.2 (.inr (decide_eq_true (Nat.lt_trans hdeeper (of_decide_eq_true hl)))))
  omega

/-! ## Blocks that close with a word -/

/-- With fewer blocks open a line leaves fewer open. -/
theorem keywordStep_under (offset offset' : Nat) {t s : Nat} (line : List Char) (h : t ≤ s) :
    (keywordStep offset t line).Under (· ≤ ·) (keywordStep offset' s line) := by
  unfold keywordStep
  simp only
  have hleft : (if opensBlock (dropComment line) then t + 1 else t) - closings (dropComment line) ≤
      (if opensBlock (dropComment line) then s + 1 else s) - closings (dropComment line) := by split <;> omega
  generalize (if opensBlock (dropComment line) then t + 1 else t) - closings (dropComment line) = inner at hleft ⊢
  generalize (if opensBlock (dropComment line) then s + 1 else s) - closings (dropComment line) = outer at hleft ⊢
  by_cases hinner : inner = 0
  · rw [if_pos hinner]
    exact .closed _
  · rw [if_neg hinner, if_neg (by omega)]
    exact .goesOn hleft

theorem nests_ruby (limits : Limits) : Grammar.ruby.Nests limits := by
  intro header block j line rest hdrop _ hj
  unfold Grammar.ruby at hj ⊢
  simp only [keywordExtent] at hj ⊢
  split at hj
  · omega
  · rename_i hheader
    rw [if_neg hheader]
    split
    · omega
    · rw [keywordExtentFrom_eq] at hj ⊢
      rw [keywordExtentFrom_eq]
      have hdrop' : (header :: block).drop (j + 1) = line :: rest := hdrop
      obtain ⟨depth, -, hdepth⟩ := exists_follow_drop keywordStep (fun _ _ => True)
        (fun _ _ _ _ _ _ _ => trivial) (j + 1) [] ((header :: block).take limits.window) 0 0 trivial
        (by omega) (by omega)
      obtain ⟨more, hmore⟩ := take_drop_append limits.window (j + 1) (header :: block)
      rw [Nat.zero_add] at hdepth
      rw [← hdrop', hmore, ← hdepth]
      exact add_follow_le (fun offset t s line h => keywordStep_under _ _ line h) more _ 0 0 depth
        (Nat.zero_le depth) (by rw [Nat.add_zero, hdepth]; omega)

/-- **Functions of Python and Ruby are nested or apart**, whatever the limits on blocks. -/
theorem nested_or_apart {language : Language} (h : language = .python ∨ language = .ruby) (limits : Limits)
    (content : String) :
    let functions := (analyzeFile limits language content).functions.entries
    ∀ e ∈ functions, ∀ e' ∈ functions, e.2.Within e'.2 ∨ e'.2.Within e.2 ∨ e.2.Apart e'.2 := by
  intro functions e he e' he'
  obtain ⟨g, hg, hstands⟩ := stands_of_mem_analyzeFile he
  obtain ⟨start, line, rest, hs⟩ := hstands e he
  obtain ⟨start', line', rest', hs'⟩ := hstands e' he'
  have hn : g.Nests limits := by
    rcases h with rfl | rfl
    · obtain rfl := Option.some.inj hg
      exact nests_python limits
    · obtain rfl := Option.some.inj hg
      exact nests_ruby limits
  exact hn.laminar hs hs'

/-- A method in a method, and one that is complete in its line. -/
def sampleMethods : String := "def outer\n  def inner(x)\n    x\n  end\nend\ndef brief = 1\n"

theorem nested_or_apart_sample :
    (analyzeFile ⟨3, 200⟩ .ruby sampleMethods).functions.entries =
        [("brief", ⟨6, 1⟩), ("inner", ⟨2, 3⟩), ("outer", ⟨1, 5⟩)] ∧
      ∀ e ∈ [("inner", (⟨2, 3⟩ : Span)), ("brief", ⟨6, 1⟩)],
        e.2.Within ⟨1, 5⟩ ∨ Span.Within ⟨1, 5⟩ e.2 ∨ e.2.Apart ⟨1, 5⟩ := by
  have hfunctions : (analyzeFile ⟨3, 200⟩ .ruby sampleMethods).functions.entries =
      [("brief", ⟨6, 1⟩), ("inner", ⟨2, 3⟩), ("outer", ⟨1, 5⟩)] := by decide +kernel
  have hnested := nested_or_apart (.inr rfl) ⟨3, 200⟩ sampleMethods
  rw [hfunctions] at hnested
  refine ⟨hfunctions, fun e he => hnested e ?_ ("outer", ⟨1, 5⟩) (by simp)⟩
  simp only [List.mem_cons, List.not_mem_nil, or_false] at he ⊢
  rcases he with rfl | rfl
  · exact .inr (.inl rfl)
  · exact .inl rfl

end FileGraph.Source
