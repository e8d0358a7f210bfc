import FileGraph.Proofs.Graph.Calls
import FileGraph.Proofs.Text.Lines
import FileGraph.Report.Summary
import Mathlib.Logic.Relation
/-!
# Cycle — the search finds a circle just if there is one

While the search is on its way along a path, the nodes that it has reached and not finished are those of the path, and
whatever is finished leads to finished nodes only and lies in no circle (`Search.Along`).  So an edge back to a node of
the path closes a circle, and a node whose edges all lead to finished nodes can be finished (`outcome_visit`).  Once all
nodes are finished there is no circle (`hasCycle_iff`).
-/
namespace FileGraph

open Relation (TransGen ReflTransGen)

namespace Report

theorem mem_getD_successors {u v : Nat} : ∀ (edges : List (Nat × Nat)),
    v ∈ (successors edges).getD u [] ↔ (u, v) ∈ edges := by
  have hfold : ∀ (edges : List (Nat × Nat)) (t : Successors),
      v ∈ (edges.foldl (fun t e => t.insert e.1 (e.2 :: t.getD e.1 [])) t).getD u [] ↔
        (u, v) ∈ edges ∨ v ∈ t.getD u [] := by
    intro edges
    induction edges with
    | nil => simp
    | cons e edges ih =>
      intro t
      rw [List.foldl_cons, ih, Std.HashMap.getD_insert, List.mem_cons, Prod.ext_iff]
      by_cases h : e.1 = u
      · subst h
        simp only [beq_self_eq_true, if_true, List.mem_cons, true_and]
        tauto
      · have hne : ¬ u = e.1 := fun heq => h heq.symm
        simp [h, hne]
  intro edges
  simp [successors, hfold]

namespace Search

variable {next : Nat → List Nat} {count : Nat} {path : List Nat} {s : Search}

/-- That an edge leads from one node to another. -/
def Leads (next : Nat → List Nat) (u v : Nat) : Prop := v ∈ next u

/-- What holds of a search that is on its way along a path: what it has reached and not finished lies on the path, and
what is finished leads to finished nodes only and lies in no circle. -/
structure Along (next : Nat → List Nat) (count : Nat) (path : List Nat) (s : Search) : Prop where
  onPath  : ∀ x, x ∈ path ↔ x ∈ s.reached ∧ x ∉ s.finished
  reached : ∀ x ∈ s.finished, x ∈ s.reached
  closed  : ∀ x ∈ s.finished, ∀ y ∈ next x, y ∈ s.finished
  acyclic : ∀ x ∈ s.finished, ¬ TransGen (Leads next) x x
  nodup   : path.Nodup
  bounded : ∀ x ∈ path, x < count

/-- What comes of a search for some nodes: a circle, or a state in which all of them are finished too. -/
def Outcome (next : Nat → List Nat) (count : Nat) (path : List Nat) (s : Search) (us : List Nat) : Option Search → Prop
  | none => ∃ x, TransGen (Leads next) x x
  | some s' => Along next count path s' ∧ (∀ u ∈ us, u ∈ s'.finished) ∧ ∀ x ∈ s.finished, x ∈ s'.finished

/-! ## One step -/

theorem Along.length_le (h : Along next count path s) : path.length ≤ count := by
  have hsubset : path ⊆ List.range count := fun x hx => List.mem_range.2 (h.bounded x hx)
  have hle := h.nodup.length_le_of_subset hsubset
  rwa [List.length_range] at hle

theorem Along.reach (h : Along next count path s) {u : Nat} (hnew : u ∉ s.reached) (hu : u < count) :
    Along next count (u :: path) { s with reached := s.reached.insert u } := by
  have hpath : u ∉ path := fun hmem => hnew ((h.onPath u).1 hmem).1
  have hunfinished : u ∉ s.finished := fun hmem => hnew (h.reached u hmem)
  constructor
  · intro x
    rw [List.mem_cons, h.onPath, Std.HashSet.mem_insert, beq_iff_eq]
    constructor
    · rintro (rfl | ⟨hreached, hx⟩)
      · exact ⟨.inl rfl, hunfinished⟩
      · exact ⟨.inr hreached, hx⟩
    · rintro ⟨rfl | hreached, hx⟩
      · exact .inl rfl
      · exact .inr ⟨hreached, hx⟩
  · intro x hx
    exact Std.HashSet.mem_insert.2 (.inr (h.reached x hx))
  · exact h.closed
  · exact h.acyclic
  · exact List.nodup_cons.2 ⟨hpath, h.nodup⟩
  · exact List.forall_mem_cons.2 ⟨hu, h.bounded⟩

/-- In a closed set of nodes no way leads out. -/
theorem Along.finished_of_reflTransGen (h : Along next count path s) {x y : Nat} (hx : x ∈ s.finished)
    (hway : ReflTransGen (Leads next) x y) : y ∈ s.finished := by
  induction hway with
  | refl => exact hx
  | tail _ hedge ih => exact h.closed _ ih _ hedge

theorem Along.finish {u : Nat} (h : Along next count (u :: path) s) (hnext : ∀ v ∈ next u, v ∈ s.finished) :
    Along next count path { s with finished := s.finished.insert u } := by
  obtain ⟨hpath, hnodup⟩ := List.nodup_cons.1 h.nodup
  obtain ⟨hreached, hunfinished⟩ := (h.onPath u).1 List.mem_cons_self
  have hmem : ∀ {x}, x ∈ s.finished.insert u ↔ x = u ∨ x ∈ s.finished := by
    intro x
    rw [Std.HashSet.mem_insert, beq_iff_eq, @eq_comm Nat u]
  constructor
  · intro x
    have hx := h.onPath x
    rw [List.mem_cons] at hx
    rw [hmem, not_or]
    constructor
    · intro hmem
      obtain ⟨hin, hout⟩ := hx.1 (.inr hmem)
      exact ⟨hin, fun heq => hpath (heq ▸ hmem), hout⟩
    · rintro ⟨hin, hne, hout⟩
      exact (hx.2 ⟨hin, hout⟩).resolve_left hne
  · intro x hx
    rcases hmem.1 hx with rfl | hx
    · exact hreached
    · exact h.reached x hx
  · intro x hx y hy
    refine hmem.2 (.inr ?_)
    rcases hmem.1 hx with rfl | hx
    · exact hnext y hy
    · exact h.closed x hx y hy
  · intro x hx hcircle
    rcases hmem.1 hx with rfl | hx
    -- a circle through the node would come back to it from the finished nodes
    · obtain ⟨y, hedge, hway⟩ := Relation.TransGen.head'_iff.1 hcircle
      exact hunfinished (h.finished_of_reflTransGen (hnext y hedge) hway)
    · exact h.acyclic x hx hcircle
  · exact hnodup
  · exact (List.forall_mem_cons.1 h.bounded).2

/-! ## Whole searches -/

/-- Nodes are searched one after another, each in the state that the one before it has left. -/
theorem outcome_foldlM {f : Search → Nat → Option Search} : ∀ (us : List Nat) {s : Search},
    (∀ u ∈ us, ∀ s, Along next count path s → Outcome next count path s [u] (f s u)) → Along next count path s →
      Outcome next count path s us (us.foldlM f s)
  | [], _, _, h => ⟨h, nofun, fun _ hx => hx⟩
  | u :: us, s, hf, h => by
    have hfirst := hf u List.mem_cons_self s h
    rw [List.foldlM_cons]
    cases hs : f s u with
    | none =>
      rw [hs] at hfirst
      exact hfirst
    | some s' =>
      rw [hs] at hfirst
      obtain ⟨halong, hu, hkept⟩ := hfirst
      have hrest := outcome_foldlM us (fun v hv => hf v (List.mem_cons_of_mem u hv)) halong
      change Outcome next count path s (u :: us) (us.foldlM f s')
      cases hlast : us.foldlM f s' with
      | none =>
        rw [hlast] at hrest
        exact hrest
      | some s'' =>
        rw [hlast] at hrest
        obtain ⟨halong', hus, hkept'⟩ := hrest
        refine ⟨halong', ?_, fun x hx => hkept' x (hkept x hx)⟩
        exact List.forall_mem_cons.2 ⟨hkept' u (hu u List.mem_cons_self), hus⟩

/-- **A visit finds a circle or finishes the node.**  The depth suffices as a path has each node at most once. -/
theorem outcome_visit (hnext : ∀ u, ∀ v ∈ next u, v < count) :
    ∀ (depth : Nat) {path : List Nat} {s : Search} {u : Nat}, Along next count path s → u < count →
      count < path.length + depth → (∀ x ∈ path, TransGen (Leads next) x u) →
        Outcome next count path s [u] (visit next depth s u)
  | 0, path, s, u, h, _, hdepth, _ => absurd hdepth (Nat.not_lt.2 h.length_le)
  | depth + 1, path, s, u, h, hu, hdepth, hpath => by
    unfold visit
    by_cases hreached : u ∈ s.reached
    · rw [if_pos (Std.HashSet.contains_iff_mem.2 hreached)]
      by_cases hfinished : u ∈ s.finished
      · rw [if_pos (Std.HashSet.contains_iff_mem.2 hfinished)]
        exact ⟨h, by simpa using hfinished, fun _ hx => hx⟩
      · rw [if_neg (mt Std.HashSet.contains_iff_mem.1 hfinished)]
        exact ⟨u, hpath u ((h.onPath u).2 ⟨hreached, hfinished⟩)⟩
    · rw [if_neg (mt Std.HashSet.contains_iff_mem.1 hreached)]
      have hways : ∀ v ∈ next u, ∀ x ∈ u :: path, TransGen (Leads next) x v := by
        intro v hv x hx
        rcases List.mem_cons.1 hx with rfl | hx
        · exact .single hv
        · exact (hpath x hx).tail hv
      have hdepth' : count < (u :: path).length + depth := by
        rw [List.length_cons]
        omega
      have hall := outcome_foldlM (next u)
        (fun v hv s' h' => outcome_visit hnext depth h' (hnext u v hv) hdepth' (hways v hv)) (h.reach hreached hu)
      cases hsearch : (next u).foldlM (visit next depth) { s with reached := s.reached.insert u } with
      | none =>
        rw [hsearch] at hall
        exact hall
      | some s' =>
        rw [hsearch] at hall
        obtain ⟨halong, hfinished, hkept⟩ := hall
        refine ⟨halong.finish hfinished, ?_, fun x hx => ?_⟩
        · simp
        · exact Std.HashSet.mem_insert.2 (.inr (hkept x hx))

theorem along_start : Along next count [] start := by
  constructor <;> simp [start]

end Search

open Search in
/-- **The search finds a circle just if there is one**, whatever the edges between the nodes are. -/
theorem hasCycle_iff {count : Nat} {edges : List (Nat × Nat)} (h : ∀ e ∈ edges, e.1 < count ∧ e.2 < count) :
    hasCycle count edges = true ↔ ∃ v, TransGen (fun u v => (u, v) ∈ edges) v v := by
  have hleads : Leads (fun u => (successors edges).getD u []) = fun u v => (u, v) ∈ edges := by
    funext u v
    exact propext (mem_getD_successors edges)
  have hnext : ∀ u, ∀ v ∈ (successors edges).getD u [], v < count := fun u v hv =>
    (h (u, v) ((mem_getD_successors edges).1 hv)).2
  have hall := outcome_foldlM (List.range count) (fun u hu s hs =>
    outcome_visit hnext (count + 1) hs (List.mem_range.1 hu) (by simp) (by simp)) along_start
  have heq : hasCycle count edges = ((List.range count).foldlM
      (visit (fun u => (successors edges).getD u []) (count + 1)) start).isNone := rfl
  rw [heq]
  cases hsearch : (List.range count).foldlM (visit (fun u => (successors edges).getD u []) (count + 1)) start with
  | none =>
    rw [hsearch, Outcome, hleads] at hall
    exact iff_of_true rfl hall
  | some s =>
    rw [hsearch] at hall
    obtain ⟨halong, hfinished, -⟩ := hall
    refine iff_of_false Bool.false_ne_true ?_
    rintro ⟨v, hcircle⟩
    rw [← hleads] at hcircle
    -- a node of a circle has an edge, so that it is one of those that were visited
    obtain ⟨w, hedge, -⟩ := Relation.TransGen.head'_iff.1 hcircle
    rw [hleads] at hedge
    exact halong.acyclic v (hfinished v (List.mem_range.2 (h _ hedge).1)) hcircle

/-! ## The line of the summary -/

/-- No character of a text ends a line. -/
def OneLine (text : String) : Prop := ∀ c ∈ text.toList, c ≠ '\n' ∧ c ≠ '\r'

instance (text : String) : Decidable (OneLine text) := List.decidableBAll _ text.toList

theorem lines_join (rest : List Char) : ∀ (ls : List String), (∀ l ∈ ls, OneLine l) →
    Text.lines ((String.join (ls.map (· ++ "\n"))).toList ++ rest) = ls.map String.toList ++ Text.lines rest
  | [], _ => rfl
  | l :: ls, h => by
    rw [List.forall_mem_cons] at h
    have ih := lines_join rest ls h.2
    have hnewline : '\n' ∉ l.toList := fun hmem => (h.1 _ hmem).1 rfl
    have hreturn : Text.dropReturn l.toList = l.toList := by
      unfold Text.dropReturn
      split
      · rename_i hlast
        exact absurd rfl (h.1 _ (List.mem_of_getLast? hlast)).2
      · rfl
    have hfirst : (String.join ((l :: ls).map (· ++ "\n"))).toList ++ rest =
        l.toList ++ '\n' :: ((String.join (ls.map (· ++ "\n"))).toList ++ rest) := by
      simp
    rw [hfirst, Text.lines_append_newline, Text.pieces_of_notMem hnewline, ih]
    simp [hreturn]

theorem oneLine_of_mem_overview (g : Graph) : ∀ l ∈ overview g, OneLine l := by
  have hdigit : ∀ (n : Nat), OneLine (toString n) := by
    intro n c hc
    rw [Nat.toString_eq_repr, Nat.toList_repr] at hc
    have hd := Nat.isDigit_of_mem_toDigits (by decide) (by decide) hc
    constructor <;> rintro rfl <;> cases hd
  have happend : ∀ (label : String), OneLine label → ∀ (n : Nat), OneLine (label ++ toString n) := by
    intro label hlabel n c hc
    rw [String.toList_append, List.mem_append] at hc
    exact hc.elim (hlabel c) (hdigit n c)
  unfold overview
  simp only [List.forall_mem_cons]
  refine ⟨by decide, by decide, happend _ (by decide) _, happend _ (by decide) _, happend _ (by decide) _,
    happend _ (by decide) _, ?_, nofun⟩
  split <;> decide

/-- The line of the summary that tells of circles: the heading, an empty line and four counts stand above it. -/
def cycleLine? (g : Graph) (top : Nat) : Option (List Char) := (Text.lines (summary g top).toList)[6]?

theorem cycleLine?_eq (g : Graph) (top : Nat) : cycleLine? g top = some
    ("- Cycles: " ++ if hasCycle g.nodes.length (g.edges.map fun e => (e.source, e.target)) then "yes"
      else "none").toList := by
  have htext : ∃ rest : List Char,
      (summary g top).toList = (String.join ((overview g).map (· ++ "\n"))).toList ++ rest := by
    unfold summary summaryLines
    rw [List.append_assoc, List.append_assoc, List.map_append, String.join_append, String.toList_append]
    exact ⟨_, rfl⟩
  obtain ⟨rest, hrest⟩ := htext
  rw [cycleLine?, hrest, lines_join rest _ (oneLine_of_mem_overview g)]
  rfl

end Report

/-- That an edge leads from one file to another. -/
def Graph.LeadsTo (g : Graph) (source target : Nat) : Prop := ∃ e ∈ g.edges, e.source = source ∧ e.target = target

namespace Report

theorem hasCycle_graph {g : Graph} (h : ∀ e ∈ g.edges, e.source < g.nodes.length ∧ e.target < g.nodes.length) :
    hasCycle g.nodes.length (g.edges.map fun e => (e.source, e.target)) = true ↔ ∃ v, TransGen g.LeadsTo v v := by
  have hleads : g.LeadsTo = fun u v => (u, v) ∈ g.edges.map fun e => (e.source, e.target) := by
    funext u v
    simp [Graph.LeadsTo]
  rw [hleads]
  refine hasCycle_iff fun p hp => ?_
  obtain ⟨e, he, rfl⟩ := List.mem_map.1 hp
  exact h e he

/-- Where no edge leads to its own source, a circle goes through two nodes at least. -/
theorem exists_circle_iff {r : Nat → Nat → Prop} (h : ∀ u, ¬ r u u) :
    (∃ v, TransGen r v v) ↔ ∃ u v, u ≠ v ∧ TransGen r u v ∧ TransGen r v u := by
  constructor
  · rintro ⟨v, hcircle⟩
    obtain ⟨w, hedge, hway⟩ := Relation.TransGen.head'_iff.1 hcircle
    have hne : v ≠ w := fun heq => h v (heq ▸ hedge)
    exact ⟨v, w, hne, .single hedge, (Relation.reflTransGen_iff_eq_or_transGen.1 hway).resolve_left hne⟩
  · rintro ⟨u, v, -, hto, hback⟩
    exact ⟨u, hto.trans hback⟩

/-- **The cycle line is right.**  The line of the summary that tells of circles says that there is one just if some
file is led back to by edges, at least one; and it says that there is none otherwise.  In a graph made by a builder
there is one just if two different files lead to each other. -/
theorem cycle_line_iff (top : Nat) :
    (∀ g : Graph, (∀ e ∈ g.edges, e.source < g.nodes.length ∧ e.target < g.nodes.length) →
      (cycleLine? g top = some "- Cycles: yes".toList ↔ ∃ v, TransGen g.LeadsTo v v) ∧
      (cycleLine? g top = some "- Cycles: none".toList ↔ ¬ ∃ v, TransGen g.LeadsTo v v)) ∧
    ∀ (calls : List Builder.Call) (epoch : Epoch),
      cycleLine? ((Builder.ofCalls calls).build epoch) top = some "- Cycles: yes".toList ↔
        ∃ u v, u ≠ v ∧ TransGen ((Builder.ofCalls calls).build epoch).LeadsTo u v ∧
          TransGen ((Builder.ofCalls calls).build epoch).LeadsTo v u := by
  have hline : ∀ g : Graph, (∀ e ∈ g.edges, e.source < g.nodes.length ∧ e.target < g.nodes.length) →
      (cycleLine? g top = some "- Cycles: yes".toList ↔ ∃ v, TransGen g.LeadsTo v v) ∧
      (cycleLine? g top = some "- Cycles: none".toList ↔ ¬ ∃ v, TransGen g.LeadsTo v v) := by
    intro g h
    rw [← hasCycle_graph h, cycleLine?_eq]
    cases hasCycle g.nodes.length (g.edges.map fun e => (e.source, e.target)) with
    | true => exact ⟨iff_of_true rfl rfl, iff_of_false (by decide) (by simp)⟩
    | false => exact ⟨iff_of_false (by decide) (by simp), iff_of_true rfl (by simp)⟩
  refine ⟨hline, fun calls epoch => ?_⟩
  have hsound := Builder.sound_ofCalls calls
  have hloopless : ∀ u, ¬ ((Builder.ofCalls calls).build epoch).LeadsTo u u := by
    rintro u ⟨e, he, rfl, htarget⟩
    exact (hsound.admitted e he).apart htarget.symm
  rw [(hline _ (hsound.valid_build epoch).ends).1, exists_circle_iff hloopless]

/-- Files without content, with edges of weight one between them. -/
def drawing (count : Nat) (pairs : List (Nat × Nat)) : Graph :=
  ⟨[], List.replicate count (.ofContent "a" ""), pairs.map fun p => ⟨p.1, p.2, 1.0⟩, 1⟩

/-- A ring that is entered twice over one pair, and a file that is reached on two ways without a circle. -/
theorem cycle_line_iff_drawings :
    let ring := drawing 4 [(3, 0), (0, 1), (1, 2), (3, 0), (2, 0)]
    let fork := drawing 3 [(0, 1), (0, 2), (1, 2), (1, 2)]
    cycleLine? ring 10 = some "- Cycles: yes".toList ∧
      cycleLine? fork 0 = some "- Cycles: none".toList := by
  intro ring fork
  have hedge : ∀ u v, (u, v) ∈ [(3, 0), (0, 1), (1, 2), (3, 0), (2, 0)] → ring.LeadsTo u v := fun u v h =>
    ⟨⟨u, v, 1.0⟩, List.mem_map.2 ⟨(u, v), h, rfl⟩, rfl, rfl⟩
  have hup : ∀ {u v}, TransGen fork.LeadsTo u v → u < v := by
    have hstep : ∀ {u v}, fork.LeadsTo u v → u < v := by
      rintro u v ⟨e, he, rfl, rfl⟩
      exact (by decide : ∀ e ∈ fork.edges, e.source < e.target) e he
    intro u v hway
    induction hway with
    | single hedge => exact hstep hedge
    | tail _ hedge ih => exact Nat.lt_trans ih (hstep hedge)
  constructor
  · refine ((cycle_line_iff 10).1 ring (by decide)).1.2 ⟨0, ?_⟩
    exact .tail (.tail (.single (hedge 0 1 (by decide))) (hedge 1 2 (by decide))) (hedge 2 0 (by decide))
  · refine ((cycle_line_iff 0).1 fork (by decide)).2.2 ?_
    rintro ⟨v, hcircle⟩
    exact Nat.lt_irrefl v (hup hcircle)

end Report

end FileGraph
