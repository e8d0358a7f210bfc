import FileGraph.Proofs.Path
import FileGraph.Proofs.Text.Places
import FileGraph.Source.Grammar.Indented
import Mathlib.Data.List.TakeWhile
/-!
# Modules — the resolver takes the last name of a module back

A module of Python is written as its names with dots between them, after the dots that climb if it is relative.  As a
specifier it becomes a path (`toList_path`), of which the resolver takes the last name (`specifierName_path`).
-/
namespace FileGraph.Source.Grammar.Python

open Text

/-- A name: characters of words, at least one. -/
structure Name where
  chars  : List Char
  ne_nil : chars ≠ []
  word   : ∀ c ∈ chars, isWordChar c = true

/-- A module: names with dots between them, and dots before them if it is relative. -/
structure Module where
  dots   : Nat
  names  : List Name
  ne_nil : names ≠ []

namespace Module

def text (m : Module) : List Char := List.replicate m.dots '.' ++ ['.'].intercalate (m.names.map (·.chars))

/-- The last of the names. -/
def last (m : Module) : Name := m.names.getLast m.ne_nil

/-- The specifier under which a module is extracted. -/
def path (m : Module) : String := dottedToPath (.ofList m.text)

end Module

/-! ## Characters -/

/-- A character of a module's text. -/
def isModuleChar (c : Char) : Bool := c == '.' || isWordChar c

/-- A text of such characters, at least one. -/
structure Dotted (cs : List Char) : Prop where
  ne_nil : cs ≠ []
  chars  : ∀ c ∈ cs, isModuleChar c = true

theorem isModuleChar_of_isBlank {c : Char} (h : isBlank c = true) : isModuleChar c = false := by
  have hdot : c ≠ '.' := by
    rintro rfl
    exact absurd h (by decide)
  simp [isModuleChar, hdot, isWordChar_of_isBlank h]

theorem isBlank_of_isModuleChar {c : Char} (h : isModuleChar c = true) : isBlank c = false := by
  refine Bool.eq_false_iff.2 fun hblank => ?_
  rw [isModuleChar_of_isBlank hblank] at h
  cases h

theorem Name.isModuleChar (n : Name) : ∀ c ∈ n.chars, isModuleChar c = true := fun c hc =>
  Bool.or_eq_true_iff.2 (.inr (n.word c hc))

theorem Name.dotted (n : Name) : Dotted n.chars := ⟨n.ne_nil, n.isModuleChar⟩

/-- A character that is none of words is in no name. -/
theorem Name.notMem (n : Name) {x : Char} (hx : isWordChar x = false) : x ∉ n.chars := by
  intro hmem
  rw [n.word x hmem] at hx
  cases hx

/-! ## Parts with a separator -/

section Parts

variable {sep x : Char}

theorem mem_intercalate : ∀ {parts : List (List Char)}, x ∈ [sep].intercalate parts → x = sep ∨ ∃ part ∈ parts, x ∈ part
  | [], h => by simp at h
  | [part], h => .inr ⟨part, List.mem_cons_self, by simpa using h⟩
  | part :: next :: rest, h => by
    rw [List.intercalate_cons_cons, List.append_assoc, List.mem_append, List.singleton_append, List.mem_cons] at h
    rcases h with h | h | h
    · exact .inr ⟨part, List.mem_cons_self, h⟩
    · exact .inl h
    · exact (mem_intercalate h).imp_right fun ⟨p, hp, hx⟩ => ⟨p, List.mem_cons_of_mem part hp, hx⟩

theorem pieces_intercalate : ∀ {parts : List (List Char)}, parts ≠ [] → (∀ part ∈ parts, sep ∉ part) →
    pieces sep ([sep].intercalate parts) = parts
  | [], hne, _ => absurd rfl hne
  | [part], _, h => by simpa using pieces_of_notMem (h part List.mem_cons_self)
  | part :: next :: rest, _, h => by
    rw [List.forall_mem_cons] at h
    rw [List.intercalate_cons_cons, List.append_assoc, List.singleton_append, pieces_append, pieces_of_notMem h.1,
      pieces_intercalate (List.cons_ne_nil next rest) h.2]
    rfl

/-- The last part is all there is, or it stands after a separator. -/
theorem intercalate_eq : ∀ {parts : List (List Char)} (h : parts ≠ []), [sep].intercalate parts = parts.getLast h ∨
    ∃ us, [sep].intercalate parts = us ++ sep :: parts.getLast h
  | [], h => absurd rfl h
  | [part], _ => .inl (by simp)
  | part :: next :: rest, h => by
    right
    rw [List.intercalate_cons_cons, List.getLast_cons_cons]
    rcases intercalate_eq (List.cons_ne_nil next rest) with hlast | ⟨us, hus⟩
    · exact ⟨part, by rw [hlast, List.append_assoc]; rfl⟩
    · exact ⟨part ++ [sep] ++ us, by rw [hus]; simp⟩

theorem map_intercalate (f : Char → Char) : ∀ (parts : List (List Char)),
    ([sep].intercalate parts).map f = [f sep].intercalate (parts.map (·.map f))
  | [] => by simp
  | [part] => by simp
  | part :: next :: rest => by
    have ih := map_intercalate f (next :: rest)
    rw [List.map_cons] at ih
    simp [List.intercalate_cons_cons, ih]

end Parts

/-! ## Texts of modules -/

theorem dropWhile_eq_self {p : Char → Bool} {cs : List Char} (h : ∀ c ∈ cs, p c = false) : cs.dropWhile p = cs := by
  cases cs with
  | nil => rfl
  | cons c cs => exact List.dropWhile_cons_of_neg (by simp [h c List.mem_cons_self])

theorem dropEndWhile_eq_self {p : Char → Bool} {cs : List Char} (h : ∀ c ∈ cs, p c = false) :
    dropEndWhile p cs = cs := by
  rw [dropEndWhile, dropWhile_eq_self fun c hc => h c (List.mem_reverse.1 hc), List.reverse_reverse]

theorem isWordChar_dot : isWordChar '.' = false := by decide +kernel

namespace Module

variable (m : Module)

/-- The names with a separator between them. -/
def joined (sep : Char) : List Char := [sep].intercalate (m.names.map (·.chars))

theorem text_eq : m.text = List.replicate m.dots '.' ++ m.joined '.' := rfl

theorem joined_eq (sep : Char) : m.joined sep = m.last.chars ∨ ∃ us, m.joined sep = us ++ sep :: m.last.chars := by
  have hne : m.names.map (·.chars) ≠ [] := by simpa using m.ne_nil
  have hlast : (m.names.map (·.chars)).getLast hne = m.last.chars := by rw [List.getLast_map]; rfl
  rw [← hlast]
  exact intercalate_eq hne

theorem joined_eq_cons (sep : Char) : ∃ c cs, m.joined sep = c :: cs ∧ isWordChar c = true := by
  obtain ⟨n, names, hnames⟩ := List.exists_cons_of_ne_nil m.ne_nil
  obtain ⟨c, cs, hc⟩ := List.exists_cons_of_ne_nil n.ne_nil
  unfold joined
  rw [hnames, List.map_cons]
  have hword := n.word c (hc ▸ List.mem_cons_self)
  cases names.map (·.chars) with
  | nil => exact ⟨c, cs, by simp [hc], hword⟩
  | cons next rest => exact ⟨c, _, by rw [List.intercalate_cons_cons, hc]; rfl, hword⟩

theorem mem_joined {sep x : Char} (h : x ∈ m.joined sep) : x = sep ∨ isWordChar x = true := by
  refine (mem_intercalate h).imp_right ?_
  rintro ⟨part, hpart, hx⟩
  obtain ⟨n, -, rfl⟩ := List.mem_map.1 hpart
  exact n.word x hx

theorem dotted : Dotted m.text := by
  constructor
  · obtain ⟨c, cs, hjoined, -⟩ := m.joined_eq_cons '.'
    rw [text_eq, hjoined]
    exact List.append_ne_nil_of_right_ne_nil _ (List.cons_ne_nil c cs)
  · intro c hc
    have hcases : c = '.' ∨ isWordChar c = true := by
      rw [text_eq, List.mem_append] at hc
      exact hc.elim (fun h => .inl (List.eq_of_mem_replicate h)) m.mem_joined
    exact Bool.or_eq_true_iff.2 (hcases.imp_left beq_iff_eq.2)

/-- The dots end at the first name. -/
theorem takeWhile_joined : (m.joined '.').takeWhile (· == '.') = [] := by
  obtain ⟨c, cs, hjoined, hword⟩ := m.joined_eq_cons '.'
  rw [hjoined]
  refine List.takeWhile_cons_of_neg fun hc => ?_
  rw [beq_iff_eq.1 hc, isWordChar_dot] at hword
  cases hword

theorem takeWhile_text : m.text.takeWhile (· == '.') = List.replicate m.dots '.' := by
  rw [text_eq, List.takeWhile_append_of_pos (by simp), takeWhile_joined, List.append_nil]

theorem drop_text : m.text.drop m.dots = m.joined '.' := by
  rw [text_eq, List.drop_append_of_le_length (by simp)]
  simp

theorem all_text_eq_false : m.text.all (· == '.') = false := by
  refine Bool.eq_false_iff.2 fun hall => ?_
  have htext : m.text = List.replicate m.dots '.' := by
    rw [← m.takeWhile_text, List.takeWhile_eq_self_iff.2 (List.all_eq_true.1 hall)]
  obtain ⟨c, cs, hjoined, -⟩ := m.joined_eq_cons '.'
  rw [text_eq, hjoined] at htext
  simp at htext

/-! ## Specifiers -/

theorem map_joined : ((m.joined '.').map fun c => if c = '.' then '/' else c) = m.joined '/' := by
  have hkept : ∀ n ∈ m.names, n.chars.map (fun c => if c = '.' then '/' else c) = n.chars := by
    intro n _
    refine (List.map_congr_left fun c hc => if_neg ?_).trans (List.map_id _)
    rintro rfl
    exact n.notMem isWordChar_dot hc
  rw [joined, map_intercalate, List.map_map, joined]
  exact congrArg _ (List.map_congr_left hkept)

/-- The specifier of a module is its names as a path, after the climb for its dots. -/
theorem toList_path : ∃ climb, m.path.toList = climb ++ m.joined '/' ∧ (∀ c ∈ climb, c = '.' ∨ c = '/') ∧
    (climb = [] ∨ ∃ us, climb = us ++ ['/']) := by
  unfold path dottedToPath
  simp only [String.toList_ofList, takeWhile_text, List.length_replicate, drop_text, map_joined]
  refine ⟨_, rfl, ?_, ?_⟩
  · split
    · nofun
    · intro c hc
      simpa using hc
    · intro c hc
      obtain ⟨us, hus, hc⟩ := List.mem_flatten.1 hc
      rw [List.eq_of_mem_replicate hus] at hc
      simpa using hc
  · split
    · exact .inl rfl
    · exact .inr ⟨['.'], rfl⟩
    · rename_i n hne _
      cases n with
      | zero => exact absurd rfl hne
      | succ k => exact .inr ⟨(List.replicate k ['.', '.', '/']).flatten ++ ['.', '.'], by simp [List.replicate_succ']⟩

/-- The last name is all of the path or stands after a slash. -/
theorem path_eq : m.path.toList = m.last.chars ∨ ∃ us, m.path.toList = us ++ '/' :: m.last.chars := by
  obtain ⟨climb, hpath, -, hfolders⟩ := m.toList_path
  rw [hpath]
  rcases m.joined_eq '/' with hone | ⟨us, hus⟩
  · rcases hfolders with rfl | ⟨us, rfl⟩
    · exact .inl hone
    · exact .inr ⟨us, by rw [hone, List.append_assoc]; rfl⟩
  · exact .inr ⟨climb ++ us, by rw [hus, List.append_assoc]⟩

theorem isBlank_of_mem_path {c : Char} (h : c ∈ m.path.toList) : isBlank c = false := by
  obtain ⟨climb, hpath, hclimb, -⟩ := m.toList_path
  rw [hpath, List.mem_append] at h
  rcases h with h | h
  · rcases hclimb c h with rfl | rfl <;> decide
  · rcases m.mem_joined h with rfl | hword
    · decide
    · exact isBlank_of_isModuleChar (Bool.or_eq_true_iff.2 (.inr hword))

/-- **The resolver takes the last name of a module back** from its specifier. -/
theorem specifierName_path : Path.specifierName m.path = .ofList m.last.chars := by
  have hslash : '/' ∉ m.last.chars := m.last.notMem (by decide +kernel)
  have hdot : '.' ∉ m.last.chars := m.last.notMem isWordChar_dot
  have htrim : trim m.path.toList = m.path.toList := by
    rw [trim, dropWhile_eq_self fun c => m.isBlank_of_mem_path, dropEndWhile_eq_self fun c => m.isBlank_of_mem_path]
  have hend : dropEndWhile (· == '/') m.path.toList = m.path.toList := by
    obtain ⟨init, c, hc⟩ : ∃ init c, m.last.chars = init ++ [c] :=
      ⟨_, _, (List.dropLast_concat_getLast m.last.ne_nil).symm⟩
    obtain ⟨before, hbefore⟩ : ∃ before, m.path.toList = before ++ [c] := by
      rcases m.path_eq with h | ⟨us, h⟩
      · exact ⟨init, h.trans hc⟩
      · exact ⟨us ++ '/' :: init, by rw [h, hc]; simp⟩
    have hne : (c == '/') = false := beq_false_of_ne fun h => hslash (by simp [hc, h])
    rw [hbefore]
    exact dropEndWhile_append (p := (· == '/')) hne before []
  have hhead : m.last.chars.head? ≠ some '.' := fun h => hdot (List.mem_of_head? h)
  rw [Path.specifierName, htrim, hend, Path.basename, lastPiece_eq_iff.2 ⟨hslash, m.path_eq⟩,
    (Path.dropExtension_eq_self_iff hhead).2 hdot]

end Module

end FileGraph.Source.Grammar.Python
