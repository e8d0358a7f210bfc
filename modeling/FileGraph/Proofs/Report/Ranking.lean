import FileGraph.Proofs.Decimal.Order
import FileGraph.Proofs.Report.Tally
import FileGraph.Proofs.Sorting
/-!
# Ranking — the files that are listed are the heaviest

The ranking goes by the total weights, and by the positions of the files where these are equal (`pairwise_ranking`).
The table lists the first files of the ranking, and with the counts of languages and categories it makes up the summary
(`summary_counts_and_ranking`).
-/
namespace FileGraph.Report

/-! ## Totals -/

theorem isNaN_add {x y : Float} (h : x.isNaN = true) : (x + y).isNaN = true := by
  have hunpack : x.toModel.unpack = .notANumber := by
    unfold Float.isNaN Float.Model.isNaN at h
    cases hx : x.toModel.unpack <;> rw [hx] at h <;> first | rfl | cases h
  have hadd : ∀ f, Float.Model.UnpackedFloat.add .binary64 .notANumber f = .notANumber := by
    intro f
    cases f <;> rfl
  change (Float.Model.pack (Float.Model.UnpackedFloat.add .binary64 x.toModel.unpack y.toModel.unpack)).isNaN = true
  rw [hunpack, hadd]
  rfl

theorem isNaN_eq_false_of_lt {x y : Float} (h : x < y) : x.isNaN = false ∧ y.isNaN = false := by
  obtain ⟨hx, hy⟩ := Decimal.parts_ne_nan_of_lt h
  rw [Decimal.parts_eq] at hx hy
  unfold Float.isNaN Float.Model.isNaN
  constructor
  · cases hunpack : x.toModel.unpack <;> first | rfl | exact absurd (congrArg _ hunpack) hx
  · cases hunpack : y.toModel.unpack <;> first | rfl | exact absurd (congrArg _ hunpack) hy

namespace TotalWeight

/-- A sum that is void is no number. -/
def Sound (t : TotalWeight) : Prop := t.isVoid = true → t.value.isNaN = true

theorem sound_foldl : ∀ (ws : List Float) {t : TotalWeight}, t.Sound → (ws.foldl add t).Sound
  | [], _, h => h
  | w :: ws, t, h => by
    refine sound_foldl ws fun hvoid => ?_
    rcases Bool.or_eq_true_iff.1 hvoid with hbefore | hnow
    · exact isNaN_add (h hbefore)
    · rw [Bool.and_eq_true, Bool.and_eq_true] at hnow
      exact hnow.1.1

theorem value_foldl : ∀ (ws : List Float) (t : TotalWeight), (ws.foldl add t).value = ws.foldl (· + ·) t.value
  | [], _ => rfl
  | _ :: ws, t => value_foldl ws (t.add _)

/-- **A smaller sum has a smaller key.** -/
theorem orderKey_lt {s t : TotalWeight} (hs : s.Sound) (ht : t.Sound) (h : s.value < t.value) :
    s.orderKey < t.orderKey := by
  obtain ⟨hns, hnt⟩ := isNaN_eq_false_of_lt h
  have hvoid : ∀ {t : TotalWeight}, t.Sound → t.value.isNaN = false → t.isVoid = false := by
    intro t ht hnt
    refine Bool.eq_false_iff.2 fun hvoid => ?_
    rw [ht hvoid] at hnt
    cases hnt
  simp only [orderKey, hvoid hs hns, hvoid ht hnt, Bool.false_eq_true, if_false]
  exact Decimal.orderKey_lt h

end TotalWeight

theorem sound_rankOf (g : Graph) (index : Nat) : (rankOf g index).weight.Sound :=
  TotalWeight.sound_foldl (incoming g index) nofun

theorem value_rankOf (g : Graph) (index : Nat) : (rankOf g index).weight.value =
    ((g.edges.reverse.filter fun e => e.target == index).map (·.weight)).foldl (· + ·) 0.0 :=
  TotalWeight.value_foldl (incoming g index) .zero

theorem dependents_rankOf (g : Graph) (index : Nat) :
    (rankOf g index).dependents = g.edges.countP fun e => e.target == index := by
  rw [rankOf, incoming, List.length_map, ← List.countP_eq_length_filter, List.countP_reverse]

/-! ## Order -/

/-- The order of the table: the greater total comes first, and of equal totals the earlier file. -/
def Precedes (a b : Rank) : Prop :=
  b.weight.orderKey < a.weight.orderKey ∨ b.weight.orderKey = a.weight.orderKey ∧ a.index < b.index

/-- The files on which others depend, in the order of the graph. -/
def depended (g : Graph) : List Rank := ((List.range g.nodes.length).map (rankOf g)).filter fun r => r.dependents != 0

theorem pairwise_index_depended (g : Graph) : (depended g).Pairwise fun a b => a.index < b.index := by
  refine List.Pairwise.filter _ (List.pairwise_map.2 ?_)
  exact List.pairwise_lt_range

theorem dependents_ne_zero_iff (g : Graph) (i : Nat) :
    ((rankOf g i).dependents != 0) = true ↔ ∃ e ∈ g.edges, e.target = i := by
  rw [dependents_rankOf, bne_iff_ne, ← Nat.pos_iff_ne_zero, List.countP_pos_iff]
  simp only [beq_iff_eq]

theorem mem_ranking {g : Graph} {r : Rank} :
    r ∈ ranking g ↔ ∃ i < g.nodes.length, rankOf g i = r ∧ ∃ e ∈ g.edges, e.target = i := by
  rw [ranking, List.mem_mergeSort, List.mem_filter, List.mem_map]
  constructor
  · rintro ⟨⟨i, hi, rfl⟩, hr⟩
    exact ⟨i, List.mem_range.1 hi, rfl, (dependents_ne_zero_iff g i).1 hr⟩
  · rintro ⟨i, hi, rfl, hedge⟩
    exact ⟨⟨i, List.mem_range.2 hi, rfl⟩, (dependents_ne_zero_iff g i).2 hedge⟩

theorem pairwise_ranking (g : Graph) : (ranking g).Pairwise Precedes := by
  have hstable := pairwise_mergeSort_stable (fun a b : Rank => decide (b.weight.orderKey ≤ a.weight.orderKey))
    (by simp only [decide_eq_true_eq]; omega) (by simp only [Bool.or_eq_true, decide_eq_true_eq]; omega) (depended g)
  refine hstable.imp ?_
  rintro a b ⟨hle, hstays⟩
  simp only [decide_eq_true_eq] at hle hstays
  rcases Int.lt_or_eq_of_le hle with hlt | heq
  · exact .inl hlt
  · refine .inr ⟨heq, ?_⟩
    exact List.pairwise_iff_forall_sublist.1 (pairwise_index_depended g) (hstays (Int.le_of_eq heq.symm))

theorem length_ranking (g : Graph) :
    (ranking g).length = (List.range g.nodes.length).countP fun i => ∃ e ∈ g.edges, e.target = i := by
  rw [ranking, List.length_mergeSort, ← List.countP_eq_length_filter, List.countP_map]
  refine List.countP_congr fun i _ => ?_
  rw [decide_eq_true_eq]
  exact dependents_ne_zero_iff g i

theorem ranking_eq_nil_iff {g : Graph} (h : ∀ e ∈ g.edges, e.source < g.nodes.length ∧ e.target < g.nodes.length) :
    ranking g = [] ↔ g.edges = [] := by
  rw [List.eq_nil_iff_forall_not_mem, List.eq_nil_iff_forall_not_mem]
  constructor
  · intro hnone e he
    exact hnone _ (mem_ranking.2 ⟨e.target, (h e he).2, rfl, e, he, rfl⟩)
  · rintro hnone r hr
    obtain ⟨-, -, -, e, he, -⟩ := mem_ranking.1 hr
    exact hnone e he

/-! ## The summary -/

/-- The files listed in the table are the first of those on which others depend, as many as are asked for. -/
structure Listed (g : Graph) (top : Nat) (listed : List Rank) : Prop where
  length  : listed.length = min top ((List.range g.nodes.length).countP fun i => ∃ e ∈ g.edges, e.target = i)
  ranked  : ∀ r ∈ listed, r = rankOf g r.index ∧ (∃ e ∈ g.edges, e.target = r.index) ∧
    ∃ n, g.nodes[r.index]? = some n ∧ row g r =
      "| " ++ n.filepath ++ " | " ++ toString (g.edges.countP fun e => e.target == r.index) ++ " | " ++
        .ofList (Decimal.twoPlaces r.weight.value) ++ " |"
  nodup   : (listed.map (·.index)).Nodup
  ordered : listed.Pairwise fun a b => Precedes a b ∧ ¬ a.weight.value < b.weight.value
  rest    : ∀ i, (∃ e ∈ g.edges, e.target = i) → i < g.nodes.length → i ∉ listed.map (·.index) → ∀ r ∈ listed,
    Precedes r (rankOf g i) ∧ ¬ r.weight.value < (rankOf g i).weight.value

theorem listed_take (g : Graph) (top : Nat) : Listed g top ((ranking g).take top) := by
  have hnumber : ∀ {a b : Rank}, a ∈ ranking g → b ∈ ranking g → Precedes a b → ¬ a.weight.value < b.weight.value := by
    intro a b ha hb hprecedes hlt
    obtain ⟨i, -, rfl, -⟩ := mem_ranking.1 ha
    obtain ⟨j, -, rfl, -⟩ := mem_ranking.1 hb
    have hkey := TotalWeight.orderKey_lt (sound_rankOf g i) (sound_rankOf g j) hlt
    rcases hprecedes with h | ⟨h, -⟩ <;> omega
  have hall : (ranking g).Pairwise fun a b => Precedes a b ∧ ¬ a.weight.value < b.weight.value :=
    (pairwise_ranking g).imp_of_mem fun ha hb h => ⟨h, hnumber ha hb h⟩
  constructor
  · rw [List.length_take, length_ranking]
  · intro r hr
    obtain ⟨i, hi, rfl, hedge⟩ := mem_ranking.1 (List.mem_of_mem_take hr)
    refine ⟨rfl, hedge, g.nodes[i], List.getElem?_eq_getElem hi, ?_⟩
    have hnode : g.nodes[(rankOf g i).index]? = some g.nodes[i] := List.getElem?_eq_getElem hi
    rw [row, hnode, dependents_rankOf]
    rfl
  · refine List.pairwise_map.2 ((hall.sublist (List.take_sublist top _)).imp_of_mem ?_)
    rintro a b ha hb ⟨hprecedes, -⟩ heq
    obtain ⟨i, -, rfl, -⟩ := mem_ranking.1 (List.mem_of_mem_take ha)
    obtain ⟨j, -, rfl, -⟩ := mem_ranking.1 (List.mem_of_mem_take hb)
    have hij : i = j := heq
    subst hij
    rcases hprecedes with h | ⟨-, h⟩ <;> exact absurd h (lt_irrefl _)
  · exact hall.sublist (List.take_sublist top _)
  · intro i hedge hi hout r hr
    have hmem : rankOf g i ∈ ranking g := mem_ranking.2 ⟨i, hi, rfl, hedge⟩
    rw [← List.take_append_drop top (ranking g), List.mem_append] at hmem
    have hlate : rankOf g i ∈ (ranking g).drop top :=
      hmem.resolve_left fun hin => hout (List.mem_map.2 ⟨_, hin, rfl⟩)
    rw [← List.take_append_drop top (ranking g)] at hall
    exact (List.pairwise_append.1 hall).2.2 r hr _ hlate

/-- **Counts and ranking are complete and ordered.**  The summary is the overview, a line for each language and for each
category with the number of its files, and the table of the heaviest files.  The counts are missing just if there are
no files, and the table just if there are no edges. -/
theorem summary_counts_and_ranking {g : Graph}
    (h : ∀ e ∈ g.edges, e.source < g.nodes.length ∧ e.target < g.nodes.length) (top : Nat) :
    let languages := tally (g.nodes.map fun n => (Language.ofPath n.filepath).tag)
    let categories := tally (g.nodes.map g.categoryName)
    let line := fun c : String × Nat => "- " ++ c.1 ++ ": " ++ toString c.2
    let listed := (ranking g).take top
    summary g top = String.join ((overview g ++
        (if g.nodes = [] then [] else ["", "## Languages", ""] ++ languages.entries.map line) ++
        (if g.nodes = [] then [] else ["", "## Categories", ""] ++ categories.entries.map line) ++
        if g.edges = [] then []
        else ["", "## Most depended-upon files", "", "| File | Dependents | Weight |", "|---|---|---|"] ++
          listed.map (row g)).map (· ++ "\n")) ∧
      Counted g.nodes (fun n => (Language.ofPath n.filepath).tag) languages.entries ∧
      (∀ l : Language, (languages.get? l.tag).getD 0 = g.nodes.countP fun n => Language.ofPath n.filepath = l) ∧
      Counted g.nodes g.categoryName categories.entries ∧
      (∀ i, (rankOf g i).weight.value =
        ((g.edges.reverse.filter fun e => e.target == i).map (·.weight)).foldl (· + ·) 0.0) ∧
      Listed g top listed := by
  intro languages categories line listed
  refine ⟨?_, counted_tally _ _, ?_, counted_tally _ _, value_rankOf g, listed_take g top⟩
  · have htable : rankingTable g top = if g.edges = [] then []
        else ["", "## Most depended-upon files", "", "| File | Dependents | Weight |", "|---|---|---|"] ++
          listed.map (row g) := by
      unfold rankingTable
      split
      · rename_i hnone
        rw [if_pos ((ranking_eq_nil_iff h).1 hnone)]
      · rename_i hsome
        rw [if_neg (mt (ranking_eq_nil_iff h).2 hsome)]
    rw [summary, summaryLines, countList_tally, countList_tally, htable]
    rfl
  · intro l
    rw [getD_get?_tally, List.count, List.countP_map]
    refine List.countP_congr fun n _ => ?_
    simp only [Function.comp_apply, beq_iff_eq, decide_eq_true_eq]
    exact ⟨tag_injective, congrArg Language.tag⟩

/-- A category of two places, a file outside all of them, two edges between the same files and one from a file to
itself. -/
def sampleGraph : Graph where
  categories := ["core", "ui", "core"]
  nodes := [{ FileNode.ofContent "a.py" "" with category := 0 }, { FileNode.ofContent "b.py" "" with category := 2 },
    { FileNode.ofContent "c.rs" "" with category := 7 }, { FileNode.ofContent "d" "" with category := 1 }]
  edges := [⟨1, 0, 1.0⟩, ⟨1, 0, 1.0⟩, ⟨2, 2, 2.0⟩, ⟨0, 3, 0.5⟩]
  epoch := 1

/-- Two files have the same total, of which the earlier one is listed. -/
theorem summary_counts_and_ranking_sample :
    (∀ e ∈ sampleGraph.edges, e.source < sampleGraph.nodes.length ∧ e.target < sampleGraph.nodes.length) ∧
      ("core", 2) ∈ (tally (sampleGraph.nodes.map sampleGraph.categoryName)).entries ∧
      ("General", 1) ∈ (tally (sampleGraph.nodes.map sampleGraph.categoryName)).entries ∧
      (ranking sampleGraph).take 1 = [rankOf sampleGraph 0] ∧
      (rankOf sampleGraph 0).weight.orderKey = (rankOf sampleGraph 2).weight.orderKey ∧
      row sampleGraph (rankOf sampleGraph 0) = "| a.py | 2 | 2.00 |" := by
  have hvalid : ∀ e ∈ sampleGraph.edges, e.source < sampleGraph.nodes.length ∧ e.target < sampleGraph.nodes.length := by
    decide
  obtain ⟨-, -, -, hcategories, -, hlisted⟩ := summary_counts_and_ranking hvalid 1
  refine ⟨hvalid, (hcategories.mem_iff _).2 (by decide +kernel), (hcategories.mem_iff _).2 (by decide +kernel), ?_,
    by decide +kernel, by decide +kernel⟩
  obtain ⟨r, hr⟩ := List.length_eq_one_iff.1 (hlisted.length.trans (by decide))
  rw [hr] at hlisted ⊢
  obtain ⟨hrank, ⟨e, he, htarget⟩, -⟩ := hlisted.ranked r List.mem_cons_self
  -- nothing precedes the first file, so that it cannot have been left out
  have hnone : ∀ i < 4, i ≠ 0 → ¬ Precedes (rankOf sampleGraph i) (rankOf sampleGraph 0) := by
    unfold Precedes
    decide +kernel
  have hindex : r.index < 4 := htarget ▸ (hvalid e he).2
  by_cases hzero : r.index = 0
  · rw [hrank, hzero]
  · have hprecedes := (hlisted.rest 0 (by decide) (by decide) (by simpa using Ne.symm hzero) r List.mem_cons_self).1
    rw [hrank] at hprecedes
    exact absurd hprecedes (hnone r.index hindex hzero)

end FileGraph.Report
