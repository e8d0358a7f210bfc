import Mathlib.Data.List.Nodup
import Mathlib.Data.Nat.Find
import Mathlib.Order.Bounds.Basic
import FileGraph.Proofs.Sorting
import FileGraph.Source.Grammar.Braced
/-!
# FirstPlaces — each specifier is kept where it is found first

One text leads another if it is found at a smaller place than the other is found anywhere, or at the same place and
earlier in the list (`Leads`).  So it does just if its least place is smaller, or these are equal and it is first found
there earlier (`leads_iff`).  The texts are put in this order (`pairwise_inOrder`), and if no place occurs twice, then
the list as it stands does not matter (`inOrder_first_places`).
-/
namespace FileGraph.Source

open Text

variable {found : List Located} {x y : String} {m n : Nat}

/-! ## First places -/

/-- Some occurrence of the one text comes before every occurrence of the other one. -/
def Leads (found : List Located) (x y : String) : Prop :=
  ∃ m i : Nat, found[i]? = some (m, x) ∧ ∀ n j : Nat, found[j]? = some (n, y) → m < n ∨ m = n ∧ i < j

theorem exists_isLeast_place (hx : x ∈ found.map (·.2)) : ∃ m, IsLeast {place | (place, x) ∈ found} m := by
  obtain ⟨⟨place, y⟩, hmem, rfl⟩ := List.mem_map.1 hx
  have hsome : ∃ m, (m, y) ∈ found := ⟨place, hmem⟩
  exact ⟨Nat.find hsome, Nat.find_spec hsome, fun m hm => Nat.find_min' hsome hm⟩

theorem leads_iff (hx : IsLeast {place | (place, x) ∈ found} m) (hy : IsLeast {place | (place, y) ∈ found} n) :
    Leads found x y ↔ m < n ∨ m = n ∧ found.idxOf (m, x) < found.idxOf (n, y) := by
  constructor
  · rintro ⟨k, i, hi, hall⟩
    have hleast : m ≤ k := hx.2 (List.mem_of_getElem? hi)
    have hbefore : k < n ∨ k = n ∧ i < found.idxOf (n, y) := hall n _ (List.getElem?_idxOf hy.1)
    rcases Nat.lt_or_eq_of_le hleast with hlt | rfl
    · exact .inl (by omega)
    · have hfirst : found.idxOf (m, x) ≤ i := idxOf_le_of_getElem? hi
      omega
  · intro h
    refine ⟨m, found.idxOf (m, x), List.getElem?_idxOf hx.1, fun k j hj => ?_⟩
    have hleast : n ≤ k := hy.2 (List.mem_of_getElem? hj)
    rcases Nat.lt_or_eq_of_le hleast with hlt | rfl
    · exact .inl (by omega)
    · have hfirst : found.idxOf (n, y) ≤ j := idxOf_le_of_getElem? hj
      omega

/-! ## The order of places -/

/-- The order by which the list is sorted. -/
def placeLE (a b : Located) : Bool := decide (a.1 ≤ b.1)

theorem placeLE_trans (a b c : Located) (hab : placeLE a b) (hbc : placeLE b c) : placeLE a c := by
  simp only [placeLE, decide_eq_true_eq] at hab hbc ⊢
  omega

theorem placeLE_total (a b : Located) : placeLE a b || placeLE b a := by
  simp only [placeLE, Bool.or_eq_true, decide_eq_true_eq]
  omega

theorem inOrder_eq (found : List Located) : inOrder found = ((found.mergeSort placeLE).map (·.2)).eraseDups := rfl

theorem pairwise_inOrder (found : List Located) : (inOrder found).Pairwise (Leads found) := by
  rw [inOrder_eq, ← List.mergeSort_zipIdx, List.map_map]
  refine (pairwise_eraseDups_map _ (pairwise_mergeSort_zipIdx placeLE placeLE_trans placeLE_total found)).imp ?_
  rintro x y ⟨⟨⟨m, _⟩, i⟩, hmem, rfl, hbefore⟩
  rw [List.mem_mergeSort, List.mk_mem_zipIdx_iff_getElem?] at hmem
  refine ⟨m, i, hmem, fun n j hj => ?_⟩
  have hlater : ((n, y), j) ∈ found.zipIdx := List.mk_mem_zipIdx_iff_getElem?.2 hj
  obtain ⟨hle, hstays⟩ := hbefore _ (List.mem_mergeSort.2 hlater) rfl
  simp only [placeLE, decide_eq_true_eq] at hle hstays
  omega

/-! ## What is kept -/

theorem mem_inOrder : x ∈ inOrder found ↔ x ∈ found.map (·.2) := by
  rw [inOrder_eq, List.mem_eraseDups, List.mem_map, List.mem_map]
  simp only [List.mem_mergeSort]

theorem not_leads_self (found : List Located) (x : String) : ¬ Leads found x x := by
  rintro ⟨m, i, hi, hall⟩
  have hself := hall m i hi
  omega

theorem nodup_inOrder (found : List Located) : (inOrder found).Nodup := by
  refine (pairwise_inOrder found).imp ?_
  rintro x y hleads rfl
  exact not_leads_self found x hleads

theorem idxOf_inOrder_lt_iff (hx : IsLeast {place | (place, x) ∈ found} m)
    (hy : IsLeast {place | (place, y) ∈ found} n) :
    (inOrder found).idxOf x < (inOrder found).idxOf y ↔
      m < n ∨ m = n ∧ found.idxOf (m, x) < found.idxOf (n, y) := by
  have hxmem : x ∈ inOrder found := mem_inOrder.2 (List.mem_map_of_mem hx.1)
  have hymem : y ∈ inOrder found := mem_inOrder.2 (List.mem_map_of_mem hy.1)
  rw [← leads_iff hx hy]
  constructor
  · exact rel_of_idxOf_lt (pairwise_inOrder found) hymem
  · intro hleads
    by_contra hnot
    rcases Nat.lt_or_eq_of_le (Nat.le_of_not_lt hnot) with hlt | heq
    · have hback := rel_of_idxOf_lt (pairwise_inOrder found) hxmem hlt
      rw [leads_iff hx hy] at hleads
      rw [leads_iff hy hx] at hback
      omega
    · obtain rfl := (List.idxOf_inj hymem).1 heq
      exact not_leads_self found y hleads

/-- **If no place occurs twice, only what is found counts**, not how it is listed. -/
theorem inOrder_perm {found' : List Located} (hplaces : (found.map (·.1)).Nodup) (h : found.Perm found') :
    inOrder found' = inOrder found := by
  have hordered := List.pairwise_mergeSort placeLE_trans placeLE_total
  have hsame : found'.mergeSort placeLE = found.mergeSort placeLE := by
    refine List.Perm.eq_of_pairwise ?_ (hordered found') (hordered found)
      (((List.mergeSort_perm _ _).trans h.symm).trans (List.mergeSort_perm _ _).symm)
    intro a b ha hb hab hba
    simp only [placeLE, decide_eq_true_eq] at hab hba
    rw [List.mem_mergeSort] at ha hb
    exact List.inj_on_of_nodup_map hplaces (h.mem_iff.2 ha) hb (Nat.le_antisymm hab hba)
  rw [inOrder_eq, inOrder_eq, hsame]

/-- **Putting specifiers in order keeps the first of each.**  Each text that is found is kept just once.  One comes
before another just if its least place is smaller, or these are equal and it is first listed with it earlier.  If no
place occurs twice, then it does not matter how the list is ordered, nor in which order patterns fill it. -/
theorem inOrder_first_places (found : List Located) :
    (inOrder found).Nodup ∧
      (∀ x, x ∈ inOrder found ↔ x ∈ found.map (·.2)) ∧
      (∀ x ∈ found.map (·.2), ∃ m, IsLeast {place | (place, x) ∈ found} m) ∧
      (∀ x y m n, IsLeast {place | (place, x) ∈ found} m → IsLeast {place | (place, y) ∈ found} n →
        ((inOrder found).idxOf x < (inOrder found).idxOf y ↔
          m < n ∨ m = n ∧ found.idxOf (m, x) < found.idxOf (n, y))) ∧
      ((found.map (·.1)).Nodup →
        (∀ found', found.Perm found' → inOrder found' = inOrder found) ∧
          ∀ (text : List Char) (ps ps' : List Pattern), ps.Perm ps' → found = ps.flatMap (located · text) →
            inOrder (ps'.flatMap (located · text)) = inOrder found) := by
  refine ⟨nodup_inOrder found, fun _ => mem_inOrder, fun _ => exists_isLeast_place, fun _ _ _ _ => idxOf_inOrder_lt_iff,
    fun hplaces => ⟨fun _ => inOrder_perm hplaces, fun text ps ps' hps hfound => ?_⟩⟩
  refine inOrder_perm hplaces ?_
  rw [hfound]
  exact hps.flatMap_right _

/-- A text at two places, and two texts at one place. -/
def sampleFound : List Located := [(7, "b"), (3, "d"), (7, "a"), (3, "c"), (1, "b")]

/-- A file that is required before one is imported. -/
def sampleScript : List Char := "const a = require('x')\nimport b from 'y'\n".toList

theorem inOrder_first_places_sample :
    "b" ∈ inOrder sampleFound ∧
      IsLeast {place | (place, "d") ∈ sampleFound} 3 ∧ IsLeast {place | (place, "c") ∈ sampleFound} 3 ∧
      (inOrder sampleFound).idxOf "d" < (inOrder sampleFound).idxOf "c" ∧
      [Grammar.Script.required, Grammar.Script.importFrom].flatMap (located · sampleScript) = [(19, "x"), (38, "y")] ∧
      inOrder ([Grammar.Script.importFrom, Grammar.Script.required].flatMap (located · sampleScript)) =
        inOrder [(19, "x"), (38, "y")] := by
  obtain ⟨-, hkept, -, hbefore, -⟩ := inOrder_first_places sampleFound
  have hleast : ∀ {x m}, (m, x) ∈ sampleFound → (∀ p ∈ sampleFound, p.2 = x → m ≤ p.1) →
      IsLeast {place | (place, x) ∈ sampleFound} m := fun hmem hall => ⟨hmem, fun _ h => hall _ h rfl⟩
  have hd : IsLeast {place | (place, "d") ∈ sampleFound} 3 := hleast (by decide) (by decide)
  have hc : IsLeast {place | (place, "c") ∈ sampleFound} 3 := hleast (by decide) (by decide)
  have hscript : [Grammar.Script.required, Grammar.Script.importFrom].flatMap (located · sampleScript) =
      [(19, "x"), (38, "y")] := by decide +kernel
  obtain ⟨-, -, -, -, hplaces⟩ := inOrder_first_places [(19, "x"), (38, "y")]
  have hswapped := (hplaces (by decide)).2 sampleScript _ [Grammar.Script.importFrom, Grammar.Script.required]
    (.swap _ _ _) hscript.symm
  exact ⟨(hkept "b").2 (by decide), hd, hc, (hbefore "d" "c" 3 3 hd hc).2 (.inr ⟨rfl, by decide⟩), hscript, hswapped⟩

end FileGraph.Source
