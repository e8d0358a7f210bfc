import FileGraph.Proofs.Text.Lines
import FileGraph.Proofs.Text.Matching
/-!
# Greedy — the text that a pattern tries first

A repetition tries first to take all the characters of its class, an alternative what its first side takes.  If what
follows can be matched after that, no other choice is tried (`Pattern.First`).  So where the parts of a text stop the
repetitions of a pattern one after another, the match and its captures are those parts (`First.matchStart`).
-/
namespace FileGraph.Text

variable {α : Type}

theorem takeMany_eq_some {accepts : Char → Bool} {k : Cursor → Option α} {rest : List Char} {r : α}
    (hrest : rest.head?.any accepts = false) : ∀ (w : List Char) (least : Nat) (before : Option Char) (i : Nat),
      least ≤ w.length → (∀ c ∈ w, accepts c = true) → k (Cursor.after ⟨before, i, w ++ rest⟩ w rest) = some r →
        takeMany accepts k least before i (w ++ rest) = some r
  | [], least, before, i, hleast, _, hk => by
    obtain rfl : least = 0 := Nat.le_zero.1 hleast
    have hk' : k ⟨before, i, rest⟩ = some r := hk
    cases rest with
    | nil => exact hk
    | cons c cs =>
      have hc : accepts c = false := hrest
      simp [takeMany, hc, hk']
  | c :: w, least, before, i, hleast, hw, hk => by
    rw [List.forall_mem_cons] at hw
    rw [List.length_cons] at hleast
    rw [Cursor.after_cons] at hk
    have ih := takeMany_eq_some hrest w (least - 1) (some c) (i + 1) (by omega) hw.2 hk
    rw [List.cons_append, takeMany, if_pos hw.1, ih]
    rfl

namespace Pattern

/-- That a pattern takes a text first, before a rest: whenever what follows it can be matched after this text, the text
is taken, with captures that depend on where it stands. -/
structure First (p : Pattern) (w rest : List Char) (found : Nat → Captures) : Prop where
  run_eq : ∀ {α : Type} (c : Cursor) (caps : Captures) (k : Cursor → Captures → Option α) (r : α), c.rest = w ++ rest →
    k (c.after w rest) (found c.index ++ caps) = some r → p.run c caps k = some r

namespace First

variable {p q : Pattern} {u v w rest : List Char} {found found' : Nat → Captures}

theorem text (w rest : List Char) : First (text w) w rest fun _ => [] := by
  constructor
  intro α c caps k r hrest hk
  rw [run, takeText_eq, hrest, if_pos (List.prefix_append w rest), List.drop_left]
  exact hk

theorem many {least : Nat} {accepts : Char → Bool} (hleast : least ≤ w.length) (hw : ∀ c ∈ w, accepts c = true)
    (hrest : rest.head?.any accepts = false) : First (many least accepts) w rest fun _ => [] := by
  constructor
  intro α c caps k r hc hk
  rw [run, hc]
  exact takeMany_eq_some hrest w least c.before c.index hleast hw hk

theorem andThen (hp : First p u (v ++ rest) found) (hq : First q v rest found') :
    First (p ++ q) (u ++ v) rest fun i => found' (i + u.length) ++ found i := by
  constructor
  intro α c caps k r hrest hk
  rw [List.append_assoc] at hrest
  refine hp.run_eq c caps _ r hrest (hq.run_eq _ _ k r rfl ?_)
  rw [Cursor.after_after, ← List.append_assoc]
  exact hk

theorem capture (slot : Nat) (hp : First p w rest found) :
    First (capture slot p) w rest fun i => (slot, ⟨i, w⟩) :: found i := by
  constructor
  intro α c caps k r hrest hk
  refine hp.run_eq c caps _ r hrest ?_
  have hlength : (c.after w rest).index - c.index = w.length := Nat.add_sub_cancel_left c.index w.length
  rw [hlength, hrest, List.take_left]
  exact hk

theorem opt (hp : First p w rest found) : First (Pattern.opt p) w rest found := by
  constructor
  intro α c caps k r hrest hk
  change (p.run c caps k <|> k c caps) = some r
  rw [hp.run_eq c caps k r hrest hk]
  rfl

/-- An optional text is passed over where another character stands. -/
theorem opt_text {t : Char} {ts : List Char} (h : rest.head? ≠ some t) :
    First (Pattern.opt (Pattern.text (t :: ts))) [] rest fun _ => [] := by
  constructor
  intro α c caps k r hrest hk
  have hc : c.after [] rest = c := by
    rw [← c.after_nil, hrest]
    rfl
  have hfail : ¬ t :: ts <+: c.rest := by
    rintro ⟨us, hus⟩
    rw [hrest] at hus
    exact h (by rw [← List.nil_append rest, ← hus]; rfl)
  rw [hc] at hk
  change (takeText _ _ _ _ _ <|> k c caps) = some r
  rw [takeText_eq, if_neg hfail]
  exact hk

/-- **The match at the start of a text** is the text that is taken first. -/
theorem matchStart (hp : First p w rest found) :
    p.matchStart (w ++ rest) = some ⟨(Cursor.start (w ++ rest)).after w rest, found 0⟩ := by
  refine hp.run_eq _ _ _ _ rfl ?_
  rw [List.append_nil]
  rfl

end First

end Pattern

end FileGraph.Text
