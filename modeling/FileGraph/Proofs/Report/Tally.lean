import FileGraph.Proofs.Text.ByteOrder
import FileGraph.Report.Summary
import Mathlib.Algebra.BigOperators.Group.List.Lemmas
import Mathlib.Algebra.Ring.Nat
/-!
# Tally — every file is counted once under its name

A tally has an entry for each of the names that it was given, with the number of times it was (`get?_tally`), and its
numbers add up to all of them (`sum_tally`).  So a section of the summary has a line for each name (`countList_tally`).
-/
namespace FileGraph.Report

theorem get?_foldl_tally (name : String) : ∀ (names : List String) (t : NameMap Nat),
    (names.foldl (fun t n => t.insert n ((t.get? n).getD 0 + 1)) t).get? name =
      if name ∈ names then some ((t.get? name).getD 0 + names.count name) else t.get? name
  | [], t => rfl
  | n :: names, t => by
    rw [List.foldl_cons, get?_foldl_tally name names, NameMap.get?_insert]
    by_cases hname : name = n
    · subst hname
      by_cases hmem : name ∈ names
      · simp [hmem, Nat.add_assoc, Nat.add_comm 1]
      · simp [hmem, List.count_eq_zero_of_not_mem hmem]
    · simp [hname, List.count_cons_of_ne (Ne.symm hname)]

theorem get?_tally (names : List String) (name : String) :
    (tally names).get? name = if name ∈ names then some (names.count name) else none := by
  rw [tally, get?_foldl_tally, NameMap.get?_empty, Option.getD_none, Nat.zero_add]

theorem getD_get?_tally (names : List String) (name : String) :
    ((tally names).get? name).getD 0 = names.count name := by
  rw [get?_tally]
  split
  · rfl
  · rename_i h
    exact (List.count_eq_zero_of_not_mem h).symm

theorem mem_entries_tally {names : List String} {c : String × Nat} :
    c ∈ (tally names).entries ↔ c.1 ∈ names ∧ c.2 = names.count c.1 := by
  rw [NameMap.mem_entries_iff, get?_tally]
  split
  · rename_i h
    simp [h, eq_comm]
  · rename_i h
    simp [h]

/-- **The numbers of a tally add up to all that was counted.** -/
theorem sum_tally (names : List String) : ((tally names).entries.map (·.2)).sum = names.length := by
  have hnumbers : (tally names).entries.map (·.2) = (tally names).names.map names.count := by
    rw [NameMap.names, List.map_map]
    exact List.map_congr_left fun c hc => (mem_entries_tally.1 hc).2
  have hnames : (tally names).names.Perm names.dedup := by
    refine (List.perm_ext_iff_of_nodup (NameMap.nodup_names _) names.nodup_dedup).2 fun name => ?_
    rw [NameMap.mem_names_iff, get?_tally, List.mem_dedup]
    split <;> simp_all
  rw [hnumbers, (hnames.map _).sum_eq, List.sum_map_count_dedup_eq_length]

/-- What is listed of the files under their names: each name that a file has, once and in the order of the bytes, with
the number of the files that have it; and these numbers add up to the files. -/
structure Counted (nodes : List FileNode) (name : FileNode → String) (counts : List (String × Nat)) : Prop where
  ordered : counts.Pairwise fun a b => Text.bytes a.1 < Text.bytes b.1
  mem_iff : ∀ c, c ∈ counts ↔ (∃ n ∈ nodes, name n = c.1) ∧ c.2 = nodes.countP fun n => name n == c.1
  sum     : (counts.map (·.2)).sum = nodes.length

theorem counted_tally (nodes : List FileNode) (name : FileNode → String) :
    Counted nodes name (tally (nodes.map name)).entries := by
  constructor
  · exact (tally (nodes.map name)).sorted.imp fun h => Text.lt_iff_bytes_lt.1 h
  · intro c
    rw [mem_entries_tally, List.mem_map, List.count, List.countP_map]
    rfl
  · rw [sum_tally, List.length_map]

/-- The section of the counts has a line for each name, and is missing just if there are no files. -/
theorem countList_tally (title : String) (nodes : List FileNode) (name : FileNode → String) :
    countList title (tally (nodes.map name)) = if nodes = [] then []
      else ["", "## " ++ title, ""] ++ (tally (nodes.map name)).entries.map fun c =>
        "- " ++ c.1 ++ ": " ++ toString c.2 := by
  cases nodes with
  | nil => rfl
  | cons n nodes =>
    -- the first file has been counted, so that the numbers cannot add up to nothing
    have hsome : (tally ((n :: nodes).map name)).entries ≠ [] := by
      intro hnone
      have hsum := sum_tally ((n :: nodes).map name)
      rw [hnone] at hsum
      cases hsum
    rw [countList, if_neg (mt List.isEmpty_iff.1 hsome), if_neg (List.cons_ne_nil n nodes)]

theorem tag_injective {l l' : Language} (h : l.tag = l'.tag) : l = l' := by
  cases l <;> cases l' <;> first | rfl | exact absurd h (by decide)

end FileGraph.Report
