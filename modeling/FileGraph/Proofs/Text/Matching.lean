import FileGraph.Proofs.Text.Words
import Mathlib.Data.List.Basic
import Mathlib.Data.Option.Basic
/-!
# Matching — the texts that a pattern takes

Which texts a pattern takes can be said without the order in which it tries its choices (`Pattern.Takes`).  A match
takes a text at its place (`run_takes`), and a pattern that looks at no edges matches wherever it takes a text at all
(`isSome_run`).  So whether a pattern matches at the start of a text is a question of the texts that this one begins
with (`isSome_matchStart_iff`), and a text has every character that the pattern cannot do without
(`mem_of_slotAtStart?`).
-/
namespace FileGraph.Text

variable {α : Type}

/-- The place that is reached over some text, with the rest after it. -/
def Cursor.after (c : Cursor) (w rest : List Char) : Cursor := ⟨w.getLast?.or c.before, c.index + w.length, rest⟩

@[simp] theorem Cursor.rest_after (c : Cursor) (w rest : List Char) : (c.after w rest).rest = rest := rfl

theorem Cursor.after_nil (c : Cursor) : c.after [] c.rest = c := rfl

theorem Cursor.after_cons (before : Option Char) (i : Nat) (c : Char) (cs cs' w rest : List Char) :
    Cursor.after ⟨before, i, cs⟩ (c :: w) rest = Cursor.after ⟨some c, i + 1, cs'⟩ w rest := by
  simp only [after, getLast?_cons_or, List.length_cons, Nat.add_assoc, Nat.add_comm 1]

theorem Cursor.after_after (c : Cursor) (u v mid rest : List Char) :
    (c.after u mid).after v rest = c.after (u ++ v) rest := by
  simp only [after, List.getLast?_append, List.length_append, Option.or_assoc, Nat.add_assoc]

/-- Whether a pattern can take a text, its edges left aside. -/
def Pattern.Takes : Pattern → List Char → Prop
  | .empty, w => w = []
  | .one accepts, w => ∃ c, w = [c] ∧ accepts c = true
  | .text chars, w => w = chars
  | .many least accepts, w => least ≤ w.length ∧ ∀ c ∈ w, accepts c = true
  | .few accepts, w => ∀ c ∈ w, accepts c = true
  | .andThen p q, w => ∃ u v, w = u ++ v ∧ p.Takes u ∧ q.Takes v
  | .orElse p q, w => p.Takes w ∨ q.Takes w
  | .star p, w => ∃ ws : List (List Char), w = ws.flatten ∧ ∀ u ∈ ws, u ≠ [] ∧ p.Takes u
  | .capture _ p, w => p.Takes w
  | .lineStart, w | .textEnd, w | .wordEdge, w => w = []

/-! ## A match takes a text -/

theorem takeMany_takes (accepts : Char → Bool) (k : Cursor → Option α) {r : α} :
    ∀ (least : Nat) (before : Option Char) (i : Nat) (cs : List Char), takeMany accepts k least before i cs = some r →
      ∃ w rest, cs = w ++ rest ∧ (least ≤ w.length ∧ ∀ c ∈ w, accepts c = true) ∧
        k (Cursor.after ⟨before, i, cs⟩ w rest) = some r
  | least, before, i, [], h => by
    unfold takeMany at h
    split at h
    · rename_i hleast
      exact ⟨[], [], rfl, ⟨Nat.le_of_eq hleast, fun _ hc => nomatch hc⟩, h⟩
    · cases h
  | least, before, i, c :: cs, h => by
    unfold takeMany at h
    rcases (Option.orElse_eq_some _ _ _).1 h with h | ⟨-, h⟩
    · split at h
      · rename_i hc
        obtain ⟨w, rest, rfl, ⟨hleast, hw⟩, hk⟩ := takeMany_takes accepts k _ _ _ cs h
        refine ⟨c :: w, rest, rfl, ⟨by rw [List.length_cons]; omega, fun x hx => ?_⟩, ?_⟩
        · exact (List.mem_cons.1 hx).elim (fun e => e ▸ hc) (hw x)
        · rw [Cursor.after_cons]
          exact hk
      · cases h
    · split at h
      · rename_i hleast
        exact ⟨[], c :: cs, rfl, ⟨Nat.le_of_eq hleast, fun _ hc => nomatch hc⟩, h⟩
      · cases h

theorem takeFew_takes (accepts : Char → Bool) (k : Cursor → Option α) {r : α} :
    ∀ (before : Option Char) (i : Nat) (cs : List Char), takeFew accepts k before i cs = some r →
      ∃ w rest, cs = w ++ rest ∧ (∀ c ∈ w, accepts c = true) ∧ k (Cursor.after ⟨before, i, cs⟩ w rest) = some r
  | before, i, [], h => ⟨[], [], rfl, (fun _ hc => nomatch hc), h⟩
  | before, i, c :: cs, h => by
    unfold takeFew at h
    rcases (Option.orElse_eq_some _ _ _).1 h with h | ⟨-, h⟩
    · exact ⟨[], c :: cs, rfl, (fun _ hc => nomatch hc), h⟩
    · split at h
      · rename_i hc
        obtain ⟨w, rest, rfl, hw, hk⟩ := takeFew_takes accepts k _ _ cs h
        refine ⟨c :: w, rest, rfl, fun x hx => (List.mem_cons.1 hx).elim (fun e => e ▸ hc) (hw x), ?_⟩
        rw [Cursor.after_cons]
        exact hk
      · cases h

theorem takeText_takes {k : Cursor → Option α} {ts cs : List Char} {before : Option Char} {i : Nat} {r : α}
    (h : takeText k ts before i cs = some r) :
    ∃ rest, cs = ts ++ rest ∧ k (Cursor.after ⟨before, i, cs⟩ ts rest) = some r := by
  rw [takeText_eq] at h
  split at h
  · rename_i hprefix
    obtain ⟨rest, rfl⟩ := hprefix
    rw [List.drop_left] at h
    exact ⟨rest, rfl, h⟩
  · cases h

theorem takeStar_takes {step : Cursor → Captures → (Cursor → Captures → Option α) → Option α}
    {k : Cursor → Captures → Option α} {T : List Char → Prop} {r : α}
    (hstep : ∀ c caps k, step c caps k = some r →
      ∃ w rest caps', c.rest = w ++ rest ∧ T w ∧ k (c.after w rest) caps' = some r) :
    ∀ (bound : Nat) (c : Cursor) (caps : Captures), takeStar step k bound c caps = some r →
      ∃ w rest caps', c.rest = w ++ rest ∧ (∃ ws : List (List Char), w = ws.flatten ∧ ∀ u ∈ ws, u ≠ [] ∧ T u) ∧
        k (c.after w rest) caps' = some r
  | 0, c, caps, h => ⟨[], c.rest, caps, rfl, ⟨[], rfl, fun _ hu => nomatch hu⟩, h⟩
  | n + 1, c, caps, h => by
    unfold takeStar at h
    rcases (Option.orElse_eq_some _ _ _).1 h with h | ⟨-, h⟩
    · obtain ⟨u, rest, caps', hrest, hu, h⟩ := hstep _ _ _ h
      split at h
      · rename_i hadvance
        obtain ⟨w, rest', caps'', hrest', ⟨ws, rfl, hws⟩, hk⟩ := takeStar_takes hstep n _ caps' h
        rw [Cursor.rest_after] at hrest'
        refine ⟨u ++ ws.flatten, rest', caps'', by rw [hrest, hrest', List.append_assoc], ⟨u :: ws, rfl, ?_⟩, ?_⟩
        · rw [List.forall_mem_cons]
          refine ⟨⟨fun hnil => ?_, hu⟩, hws⟩
          rw [hnil] at hadvance
          exact Nat.lt_irrefl _ hadvance
        · rw [← Cursor.after_after c u ws.flatten rest]
          exact hk
      · cases h
    · exact ⟨[], c.rest, caps, rfl, ⟨[], rfl, fun _ hu => nomatch hu⟩, h⟩

namespace Pattern

/-- **A match takes a text at its place**, and what follows the pattern is tried after it. -/
theorem run_takes {r : α} (p : Pattern) : ∀ (c : Cursor) (caps : Captures) (k : Cursor → Captures → Option α),
    p.run c caps k = some r →
      ∃ w rest caps', c.rest = w ++ rest ∧ p.Takes w ∧ k (c.after w rest) caps' = some r := by
  induction p with
  | empty => exact fun c caps k h => ⟨[], c.rest, caps, rfl, rfl, h⟩
  | one accepts =>
    intro c caps k h
    unfold run at h
    split at h
    · cases h
    · rename_i x xs hrest
      split at h
      · rename_i hx
        exact ⟨[x], xs, caps, hrest, ⟨x, rfl, hx⟩, h⟩
      · cases h
  | text chars =>
    intro c caps k h
    obtain ⟨rest, hrest, hk⟩ := takeText_takes h
    exact ⟨chars, rest, caps, hrest, rfl, hk⟩
  | many least accepts =>
    intro c caps k h
    obtain ⟨w, rest, hrest, hw, hk⟩ := takeMany_takes accepts _ _ _ _ _ h
    exact ⟨w, rest, caps, hrest, hw, hk⟩
  | few accepts =>
    intro c caps k h
    obtain ⟨w, rest, hrest, hw, hk⟩ := takeFew_takes accepts _ _ _ _ h
    exact ⟨w, rest, caps, hrest, hw, hk⟩
  | andThen p q ihp ihq =>
    intro c caps k h
    obtain ⟨u, mid, caps', hmid, hu, h⟩ := ihp _ _ _ h
    obtain ⟨v, rest, caps'', hrest, hv, hk⟩ := ihq _ _ _ h
    rw [Cursor.rest_after] at hrest
    refine ⟨u ++ v, rest, caps'', by rw [hmid, hrest, List.append_assoc], ⟨u, v, rfl, hu, hv⟩, ?_⟩
    rw [← Cursor.after_after c u v mid]
    exact hk
  | orElse p q ihp ihq =>
    intro c caps k h
    rcases (Option.orElse_eq_some _ _ _).1 h with h | ⟨-, h⟩
    · obtain ⟨w, rest, caps', hrest, hw, hk⟩ := ihp _ _ _ h
      exact ⟨w, rest, caps', hrest, .inl hw, hk⟩
    · obtain ⟨w, rest, caps', hrest, hw, hk⟩ := ihq _ _ _ h
      exact ⟨w, rest, caps', hrest, .inr hw, hk⟩
  | star p ih => exact fun c caps k h => takeStar_takes ih _ _ _ h
  | capture slot p ih =>
    intro c caps k h
    obtain ⟨w, rest, caps', hrest, hw, hk⟩ := ih _ _ _ h
    exact ⟨w, rest, _, hrest, hw, hk⟩
  | lineStart | textEnd | wordEdge =>
    intro c caps k h
    unfold run at h
    split at h
    · exact ⟨[], c.rest, caps, rfl, rfl, h⟩
    · cases h

theorem takes_of_matchStart {p : Pattern} {text : List Char} (h : (p.matchStart text).isSome = true) :
    ∃ w rest, text = w ++ rest ∧ p.Takes w := by
  obtain ⟨m, hm⟩ := Option.isSome_iff_exists.1 h
  obtain ⟨w, rest, -, hrest, hw, -⟩ := run_takes p _ _ _ hm
  exact ⟨w, rest, hrest, hw⟩

/-! ## Characters that a pattern needs -/

/-- Whether a pattern matches only where a character stands. -/
def needs (x : Char) : Pattern → Bool
  | .text chars => chars.contains x
  | .andThen p q => needs x p || needs x q
  | .orElse p q => needs x p && needs x q
  | .capture _ p => needs x p
  | _ => false

theorem mem_of_takes {x : Char} {p : Pattern} (hx : p.needs x = true) : ∀ {w : List Char}, p.Takes w → x ∈ w := by
  induction p with
  | text chars =>
    rintro w rfl
    exact List.contains_iff_mem.1 hx
  | andThen p q ihp ihq =>
    rintro w ⟨u, v, rfl, hu, hv⟩
    rcases Bool.or_eq_true_iff.1 hx with hx | hx
    · exact List.mem_append_left v (ihp hx hu)
    · exact List.mem_append_right u (ihq hx hv)
  | orElse p q ihp ihq =>
    obtain ⟨hp, hq⟩ := Bool.and_eq_true_iff.1 hx
    exact fun hw => hw.elim (ihp hp) (ihq hq)
  | capture slot p ih => exact ih hx
  | _ => cases hx

/-- **A text at whose start a pattern is found has each character that the pattern needs.** -/
theorem mem_of_slotAtStart? {x : Char} {p : Pattern} {text slot : List Char} (h : p.slotAtStart? text = some slot)
    (hx : p.needs x = true) : x ∈ text := by
  obtain ⟨m, hm, -⟩ := Option.bind_eq_some_iff.1 h
  obtain ⟨w, rest, rfl, hw⟩ := takes_of_matchStart (Option.isSome_iff_exists.2 ⟨m, hm⟩)
  exact List.mem_append_left rest (mem_of_takes hx hw)

/-- Whether a pattern takes a character nowhere. -/
def avoids (x : Char) : Pattern → Bool
  | .one accepts | .many _ accepts | .few accepts => !accepts x
  | .text chars => !chars.contains x
  | .andThen p q | .orElse p q => avoids x p && avoids x q
  | .star p | .capture _ p => avoids x p
  | .empty | .lineStart | .textEnd | .wordEdge => true

theorem not_mem_of_takes {x : Char} {p : Pattern} (hx : p.avoids x = true) : ∀ {w : List Char}, p.Takes w → x ∉ w := by
  induction p with
  | one accepts =>
    rintro w ⟨c, rfl, hc⟩ hmem
    rw [List.mem_singleton.1 hmem] at hx
    simp [avoids, hc] at hx
  | text chars =>
    rintro w rfl hmem
    simp [avoids, hmem] at hx
  | many least accepts =>
    rintro w ⟨-, hw⟩ hmem
    simp [avoids, hw x hmem] at hx
  | few accepts =>
    intro w hw hmem
    simp [avoids, hw x hmem] at hx
  | andThen p q ihp ihq =>
    obtain ⟨hp, hq⟩ := Bool.and_eq_true_iff.1 hx
    rintro w ⟨u, v, rfl, hu, hv⟩ hmem
    exact (List.mem_append.1 hmem).elim (ihp hp hu) (ihq hq hv)
  | orElse p q ihp ihq =>
    obtain ⟨hp, hq⟩ := Bool.and_eq_true_iff.1 hx
    exact fun hw => hw.elim (ihp hp) (ihq hq)
  | star p ih =>
    rintro w ⟨ws, rfl, hws⟩ hmem
    obtain ⟨u, hu, hmem⟩ := List.mem_flatten.1 hmem
    exact ih hx (hws u hu).2 hmem
  | capture slot p ih => exact ih hx
  | empty | lineStart | textEnd | wordEdge =>
    rintro w rfl hmem
    cases hmem

end Pattern

/-! ## A pattern without edges matches what it takes -/

theorem isSome_takeMany {accepts : Char → Bool} {k : Cursor → Option α} {rest : List Char} : ∀ (w : List Char)
    (least : Nat) (before : Option Char) (i : Nat), least ≤ w.length → (∀ c ∈ w, accepts c = true) →
      (k (Cursor.after ⟨before, i, w ++ rest⟩ w rest)).isSome = true →
        (takeMany accepts k least before i (w ++ rest)).isSome = true
  | [], least, before, i, hleast, _, hk => by
    obtain rfl : least = 0 := Nat.le_zero.1 hleast
    have hk' : (k ⟨before, i, rest⟩).isSome = true := hk
    cases rest with
    | nil => exact hk
    | cons c cs => simp [takeMany, hk']
  | c :: w, least, before, i, hleast, hw, hk => by
    rw [List.length_cons] at hleast
    have ih := @isSome_takeMany accepts k rest w (least - 1) (some c) (i + 1) (by omega)
      (fun x hx => hw x (List.mem_cons_of_mem c hx))
      (by rwa [Cursor.after_cons] at hk)
    simp [takeMany, hw c List.mem_cons_self, ih]

theorem isSome_takeFew {accepts : Char → Bool} {k : Cursor → Option α} {rest : List Char} : ∀ (w : List Char)
    (before : Option Char) (i : Nat), (∀ c ∈ w, accepts c = true) →
      (k (Cursor.after ⟨before, i, w ++ rest⟩ w rest)).isSome = true →
        (takeFew accepts k before i (w ++ rest)).isSome = true
  | [], before, i, _, hk => by
    have hk' : (k ⟨before, i, rest⟩).isSome = true := hk
    cases rest with
    | nil => exact hk
    | cons c cs => simp [takeFew, hk']
  | c :: w, before, i, hw, hk => by
    have ih := @isSome_takeFew accepts k rest w (some c) (i + 1)
      (fun x hx => hw x (List.mem_cons_of_mem c hx))
      (by rwa [Cursor.after_cons] at hk)
    simp [takeFew, hw c List.mem_cons_self, ih]

theorem isSome_takeStar {step : Cursor → Captures → (Cursor → Captures → Option α) → Option α}
    {k : Cursor → Captures → Option α} {T : List Char → Prop} {rest : List Char}
    (hstep : ∀ c caps k w rest, c.rest = w ++ rest → T w → (∀ caps', (k (c.after w rest) caps').isSome = true) →
      (step c caps k).isSome = true) :
    ∀ (ws : List (List Char)) (bound : Nat) (c : Cursor) (caps : Captures), ws.length ≤ bound →
      (∀ u ∈ ws, u ≠ [] ∧ T u) → c.rest = ws.flatten ++ rest →
      (∀ caps', (k (c.after ws.flatten rest) caps').isSome = true) → (takeStar step k bound c caps).isSome = true
  | [], bound, c, caps, _, _, hrest, hk => by
    have hc : c.after [] rest = c := by rw [← c.after_nil, hrest]; rfl
    have hk' := hk caps
    rw [List.flatten_nil, hc] at hk'
    cases bound with
    | zero => exact hk'
    | succ n => simp [takeStar, hk']
  | u :: ws, 0, c, caps, hbound, _, _, _ => absurd hbound (Nat.not_succ_le_zero _)
  | u :: ws, n + 1, c, caps, hbound, hws, hrest, hk => by
    rw [List.forall_mem_cons] at hws
    obtain ⟨⟨hne, hu⟩, hws⟩ := hws
    rw [List.flatten_cons, List.append_assoc] at hrest
    have hadvance : c.index < (c.after u (ws.flatten ++ rest)).index :=
      Nat.lt_add_of_pos_right (List.length_pos_iff.2 hne)
    have hfirst := hstep c caps
      (fun c' caps' => if c.index < c'.index then takeStar step k n c' caps' else none) u (ws.flatten ++ rest) hrest hu
      fun caps' => by
        rw [if_pos hadvance]
        refine isSome_takeStar hstep ws n _ caps' (Nat.le_of_succ_le_succ hbound) hws rfl fun caps'' => ?_
        rw [Cursor.after_after]
        exact hk caps''
    simp [takeStar, hfirst]

theorem length_le_length_flatten : ∀ (ws : List (List Char)), (∀ u ∈ ws, u ≠ []) → ws.length ≤ ws.flatten.length
  | [], _ => Nat.le_refl 0
  | u :: ws, h => by
    rw [List.forall_mem_cons] at h
    have hu := List.length_pos_iff.2 h.1
    have ih := length_le_length_flatten ws h.2
    rw [List.length_cons, List.flatten_cons, List.length_append]
    omega

namespace Pattern

/-- Whether a pattern looks at no edges: what it takes decides whether it matches. -/
def edgeless : Pattern → Bool
  | .andThen p q | .orElse p q => edgeless p && edgeless q
  | .star p | .capture _ p => edgeless p
  | .lineStart | .textEnd | .wordEdge => false
  | _ => true

/-- **A pattern without edges matches if it can take what stands at a place** and what follows it matches after that. -/
theorem isSome_run (p : Pattern) (hp : p.edgeless = true) : ∀ (c : Cursor) (caps : Captures)
    (k : Cursor → Captures → Option α) (w rest : List Char), c.rest = w ++ rest → p.Takes w →
      (∀ caps', (k (c.after w rest) caps').isSome = true) → (p.run c caps k).isSome = true := by
  induction p with
  | empty =>
    rintro c caps k w rest hrest rfl hk
    have hc : c.after [] rest = c := by rw [← c.after_nil, hrest]; rfl
    rw [hc] at hk
    exact hk caps
  | one accepts =>
    rintro c caps k w rest hrest ⟨x, rfl, hx⟩ hk
    have hk' : (k ⟨some x, c.index + 1, rest⟩ caps).isSome = true := hk caps
    simp [run, hrest, hx, hk']
  | text chars =>
    rintro c caps k w rest hrest rfl hk
    rw [run, takeText_eq, hrest, if_pos (List.prefix_append w rest), List.drop_left]
    exact hk caps
  | many least accepts =>
    rintro c caps k w rest hrest ⟨hleast, hw⟩ hk
    rw [run, hrest]
    exact isSome_takeMany w least c.before c.index hleast hw (hk caps)
  | few accepts =>
    intro c caps k w rest hrest hw hk
    rw [run, hrest]
    exact isSome_takeFew w c.before c.index hw (hk caps)
  | andThen p q ihp ihq =>
    obtain ⟨hp, hq⟩ := Bool.and_eq_true_iff.1 hp
    rintro c caps k w rest hrest ⟨u, v, rfl, hu, hv⟩ hk
    rw [List.append_assoc] at hrest
    refine ihp hp c caps _ u (v ++ rest) hrest hu fun caps' => ihq hq _ caps' k v rest rfl hv fun caps'' => ?_
    rw [Cursor.after_after]
    exact hk caps''
  | orElse p q ihp ihq =>
    obtain ⟨hp, hq⟩ := Bool.and_eq_true_iff.1 hp
    intro c caps k w rest hrest hw hk
    rcases hw with hw | hw
    · simp [run, ihp hp c caps k w rest hrest hw hk]
    · simp [run, ihq hq c caps k w rest hrest hw hk]
  | star p ih =>
    rintro c caps k w rest hrest ⟨ws, rfl, hws⟩ hk
    have hbound : ws.length ≤ c.rest.length := by
      have hle := length_le_length_flatten ws fun u hu => (hws u hu).1
      rw [hrest, List.length_append]
      omega
    exact isSome_takeStar (ih hp) ws c.rest.length c caps hbound hws hrest hk
  | capture slot p ih => exact fun c caps k w rest hrest hw hk => ih hp c caps _ w rest hrest hw fun caps' => hk _
  | lineStart | textEnd | wordEdge => cases hp

/-- **A pattern without edges matches at the start of the texts that begin with one it takes.** -/
theorem isSome_matchStart_iff {p : Pattern} (hp : p.edgeless = true) {text : List Char} :
    (p.matchStart text).isSome = true ↔ ∃ w rest, text = w ++ rest ∧ p.Takes w := by
  refine ⟨takes_of_matchStart, fun ⟨w, rest, hrest, hw⟩ => ?_⟩
  exact isSome_run p hp _ _ _ w rest hrest hw fun _ => rfl

end Pattern

end FileGraph.Text
