import FileGraph.Path
import FileGraph.Proofs.Text.Lines
/-!
# Path — names put together from their parts

A basename is cut into stem and extension just where it is put together from them (`splitExtension?_eq_some_iff`): at
its last dot, with something before it.  The top folder of a path is what stands before its first `/`, if that is not
empty (`topFolder?_eq_some_iff`).
-/
namespace FileGraph.Path

open Text

theorem splitExtension?_append {stem ext : List Char} (hstem : stem ≠ []) (hext : '.' ∉ ext) :
    splitExtension? (stem ++ '.' :: ext) = some (stem, ext) := by
  obtain ⟨c, cs, rfl⟩ := List.exists_cons_of_ne_nil hstem
  rw [splitExtension?, cutLast?_append hext]

/-- **A name has an extension** just if it is a stem that is not empty, a dot, and something without a dot. -/
theorem splitExtension?_eq_some_iff {name stem ext : List Char} :
    splitExtension? name = some (stem, ext) ↔ name = stem ++ '.' :: ext ∧ stem ≠ [] ∧ '.' ∉ ext := by
  constructor
  · intro h
    unfold splitExtension? at h
    split at h
    · rename_i c cs ext' hcut
      obtain ⟨rfl, hext⟩ := eq_of_cutLast? hcut
      obtain ⟨rfl, rfl⟩ := Prod.mk.inj (Option.some.inj h)
      exact ⟨rfl, List.cons_ne_nil _ _, hext⟩
    · cases h
  · rintro ⟨rfl, hstem, hext⟩
    exact splitExtension?_append hstem hext

theorem dropExtension_append {stem ext : List Char} (hstem : stem ≠ []) (hext : '.' ∉ ext) :
    dropExtension (stem ++ '.' :: ext) = stem := by
  simp [dropExtension, splitExtension?_append hstem hext]

/-- **A name is its own stem just if it has no dot**, unless it begins with one. -/
theorem dropExtension_eq_self_iff {name : List Char} (h : name.head? ≠ some '.') :
    dropExtension name = name ↔ '.' ∉ name := by
  constructor
  · intro hself hdot
    obtain ⟨⟨stem, ext⟩, hcut⟩ : ∃ p, cutLast? '.' name = some p :=
      Option.ne_none_iff_exists'.1 fun hnone => cutLast?_eq_none.1 hnone hdot
    obtain ⟨rfl, hext⟩ := eq_of_cutLast? hcut
    have hstem : stem ≠ [] := by
      rintro rfl
      exact h rfl
    rw [dropExtension_append hstem hext] at hself
    simpa using congrArg List.length hself
  · intro hdot
    simp [dropExtension, splitExtension?, cutLast?_eq_none.2 hdot]

/-- The part of a path before its first `/` is the name of a folder. -/
def LiesIn (path folder : String) : Prop :=
  folder ≠ "" ∧ '/' ∉ folder.toList ∧ ∃ rest, path.toList = folder.toList ++ '/' :: rest

theorem topFolder?_eq_some_iff {path folder : String} : topFolder? path = some folder ↔ LiesIn path folder := by
  constructor
  · intro h
    unfold topFolder? at h
    split at h
    · rename_i c cs rest hcut
      obtain ⟨hpath, hno⟩ := eq_of_cut? hcut
      obtain rfl := Option.some.inj h
      rw [LiesIn, String.toList_ofList]
      refine ⟨fun hempty => ?_, hno, rest, hpath⟩
      simpa using congrArg String.toList hempty
    · cases h
  · rintro ⟨hne, hno, rest, hpath⟩
    rw [topFolder?, hpath, cut?_append hno]
    cases hfolder : folder.toList with
    | nil => exact absurd (String.toList_eq_nil_iff.1 hfolder) hne
    | cons c cs =>
      simp only
      rw [← hfolder, String.ofList_toList]

end FileGraph.Path
