import FileGraph.Proofs.Cache.Codec
import FileGraph.Proofs.Graph.Validity
import FileGraph.Proofs.Json.RoundTrip
/-!
# Document — a graph is read as it was written

The fields of a record are read back from the object that lists them in order (`record?_ofMembers`), and so is each
part of a graph whose numbers are words (`Fits`).  Only weights may come back as other numbers, or not at all
(`Edge.reread?`): reading what was written gives the graph with the weights as they are read, if the check allows it
(`read_write`).
-/
namespace FileGraph

open Decimal Json Source

namespace Json

/-! ## Records and lists -/

theorem lookup_members : ∀ {members : List (String × Json)} {m : String × Json},
    (members.map (·.1)).Nodup → m ∈ members → (members.map fun m => (some m.1, m.2)).lookup (some m.1) = some m.2
  | m :: members, k, hnodup, hk => by
    rw [List.map_cons, List.nodup_cons] at hnodup
    rw [List.map_cons, List.lookup_cons]
    rcases List.mem_cons.1 hk with rfl | hk
    · simp
    · have hne : k.1 ≠ m.1 := fun h => hnodup.1 (h ▸ List.mem_map.2 ⟨k, hk, rfl⟩)
      have hbeq : (some k.1 == some m.1) = false := beq_false_of_ne fun h => hne (Option.some.inj h)
      rw [hbeq]
      exact lookup_members hnodup.2 hk

/-- An object with exactly the fields of a record gives their values. -/
theorem record?_ofMembers (members : List (String × Json)) (h : (members.map (·.1)).Nodup) :
    (ofMembers members).record? (members.map (·.1)) = some (members.map fun m => some m.2) := by
  have hnames : ((members.map fun m => (some m.1, m.2)).all fun m => m.1.isSome) = true := by
    rw [List.all_eq_true]
    intro m hm
    obtain ⟨k, -, rfl⟩ := List.mem_map.1 hm
    rfl
  have honce : ((members.map (·.1)).all fun f =>
      decide (((members.map fun m => (some m.1, m.2)).filter fun m => m.1 == some f).length ≤ 1)) = true := by
    rw [List.all_eq_true]
    intro f _
    have hcount := List.nodup_iff_count_le_one.1 h f
    rw [List.count, List.countP_map] at hcount
    rw [decide_eq_true_eq, ← List.countP_eq_length_filter, List.countP_map]
    exact hcount
  unfold record? ofMembers
  dsimp only
  rw [hnames, honce, Bool.true_and, if_pos rfl, List.map_map]
  congr 1
  exact List.map_congr_left fun m hm => lookup_members h hm

theorem mapM_map_eq_some {α β : Type} {read : β → Option α} {write : α → β} : ∀ {xs : List α},
    (∀ x ∈ xs, read (write x) = some x) → (xs.map write).mapM read = some xs
  | [], _ => rfl
  | x :: xs, h => by
    have ih := mapM_map_eq_some fun y hy => h y (List.mem_cons_of_mem x hy)
    rw [List.map_cons, List.mapM_cons, h x List.mem_cons_self, ih]
    rfl

theorem mapM_congr {α β : Type} {f g : α → Option β} : ∀ {xs : List α}, (∀ x ∈ xs, f x = g x) →
    xs.mapM f = xs.mapM g
  | [], _ => rfl
  | x :: xs, h => by
    have ih := mapM_congr fun y hy => h y (List.mem_cons_of_mem x hy)
    rw [List.mapM_cons, List.mapM_cons, h x List.mem_cons_self, ih]

theorem listOf?_strings (ss : List String) : listOf? string? (array (ss.map ofString)) = some ss :=
  mapM_map_eq_some fun _ _ => rfl

theorem natural?_number {n : Nat} (h : n < 2 ^ 64) : (ofNat n).natural? = some n := Numeral.natural?_ofNat h

theorem printable_ofNat (n : Nat) : Printable (ofNat n) := .number (Numeral.written_ofNat n)

theorem printable_ofFloat (x : Float) : Printable (ofFloat x) := by
  unfold ofFloat
  split
  · rename_i n hn
    exact .number (Numeral.written_ofFloat? hn)
  · exact .null

theorem printable_strings (ss : List String) : Printable (array (ss.map ofString)) := by
  refine .array fun j hj => ?_
  obtain ⟨s, -, rfl⟩ := List.mem_map.1 hj
  exact .string s

end Json

/-! ## Parts of a graph -/

/-- The numbers of a span are words. -/
structure Source.Span.Fits (s : Span) : Prop where
  firstLine : s.firstLine < 2 ^ 64
  lineCount : s.lineCount < 2 ^ 64

/-- The numbers of a file are words. -/
structure FileNode.Fits (n : FileNode) : Prop where
  numLines      : n.numLines < 2 ^ 64
  numCharacters : n.numCharacters < 2 ^ 64
  category      : n.category < 2 ^ 64
  spans         : ∀ f ∈ n.functions.entries, f.2.Fits

/-- The ends of an edge are words. -/
structure Edge.Fits (e : Edge) : Prop where
  source : e.source < 2 ^ 64
  target : e.target < 2 ^ 64

/-- The numbers of a graph are words. -/
structure Graph.Fits (g : Graph) : Prop where
  nodes : ∀ n ∈ g.nodes, n.Fits
  edges : ∀ e ∈ g.edges, e.Fits

instance (s : Span) : Decidable s.Fits :=
  decidable_of_iff (s.firstLine < 2 ^ 64 ∧ s.lineCount < 2 ^ 64) ⟨fun h => ⟨h.1, h.2⟩, fun h => ⟨h.1, h.2⟩⟩

instance (n : FileNode) : Decidable n.Fits :=
  decidable_of_iff (n.numLines < 2 ^ 64 ∧ n.numCharacters < 2 ^ 64 ∧ n.category < 2 ^ 64 ∧
      ∀ f ∈ n.functions.entries, f.2.Fits)
    ⟨fun ⟨h₁, h₂, h₃, h₄⟩ => ⟨h₁, h₂, h₃, h₄⟩, fun h => ⟨h.1, h.2, h.3, h.4⟩⟩

instance (e : Edge) : Decidable e.Fits :=
  decidable_of_iff (e.source < 2 ^ 64 ∧ e.target < 2 ^ 64) ⟨fun h => ⟨h.1, h.2⟩, fun h => ⟨h.1, h.2⟩⟩

instance (g : Graph) : Decidable g.Fits :=
  decidable_of_iff ((∀ n ∈ g.nodes, n.Fits) ∧ ∀ e ∈ g.edges, e.Fits) ⟨fun h => ⟨h.1, h.2⟩, fun h => ⟨h.1, h.2⟩⟩

theorem Source.Span.ofJson?_toJson {s : Span} (h : s.Fits) : Span.ofJson? s.toJson = some s := by
  have hrecord : s.toJson.record? ["line_start", "line_count"] =
      some [some (.ofNat s.firstLine), some (.ofNat s.lineCount)] :=
    record?_ofMembers [("line_start", .ofNat s.firstLine), ("line_count", .ofNat s.lineCount)] (by simp)
  rw [Span.ofJson?, hrecord]
  simp only [required?, natural?_number h.firstLine, natural?_number h.lineCount]
  rfl

theorem Source.Span.printable_toJson (s : Span) : Printable s.toJson := by
  refine .object fun m hm => ?_
  simp only [List.mem_cons, List.not_mem_nil, or_false] at hm
  rcases hm with rfl | rfl
  · exact printable_ofNat _
  · exact printable_ofNat _

theorem members?_functions {functions : Inventory} (h : ∀ f ∈ functions.entries, f.2.Fits) :
    members? Span.ofJson? (.ofMembers (functions.entries.map fun e => (e.1, e.2.toJson))) =
      some functions.entries := by
  rw [ofMembers, members?, List.map_map]
  refine mapM_map_eq_some fun f hf => ?_
  simp only [Function.comp_apply, Option.bind_some, Span.ofJson?_toJson (h f hf)]
  rfl

namespace FileNode

/-- The members of the object that a file is written as. -/
def members (n : FileNode) : List (String × Json) :=
  [("filepath", .ofString n.filepath), ("num_lines", .ofNat n.numLines), ("num_characters", .ofNat n.numCharacters),
    ("category", .ofNat n.category), ("functions", .ofMembers (n.functions.entries.map fun e => (e.1, e.2.toJson))),
    ("description", .ofString n.description), ("fileDependencies", .array (n.dependencies.map .ofString))]

theorem ofJson?_toJson {n : FileNode} (h : n.Fits) : ofJson? n.toJson = some n := by
  have hnames : n.members.map (·.1) = fields := rfl
  have hrecord := record?_ofMembers n.members (by rw [hnames]; decide)
  rw [hnames] at hrecord
  change n.toJson.record? fields = some [some _, some _, some _, some _, some _, some _, some _] at hrecord
  rw [ofJson?, hrecord]
  simp only [required?, optional?, natural?_number h.numLines, natural?_number h.numCharacters,
    natural?_number h.category, members?_functions h.spans, listOf?_strings, Option.bind_eq_bind, Option.bind_some,
    NameMap.ofList_entries]
  rfl

theorem printable_toJson (n : FileNode) : Printable n.toJson := by
  have hfunctions : Printable (.ofMembers (n.functions.entries.map fun e => (e.1, e.2.toJson))) := by
    refine .object fun m hm => ?_
    obtain ⟨f, -, rfl⟩ := List.mem_map.1 hm
    exact f.2.printable_toJson
  have hmembers : ∀ m ∈ n.members, Printable m.2 := by
    intro m hm
    simp only [members, List.mem_cons, List.not_mem_nil, or_false] at hm
    rcases hm with rfl | rfl | rfl | rfl | rfl | rfl | rfl
    · exact .string _
    · exact printable_ofNat _
    · exact printable_ofNat _
    · exact printable_ofNat _
    · exact hfunctions
    · exact .string _
    · exact printable_strings _
  exact .object hmembers

end FileNode

namespace Edge

/-- The edge as it is read from what was written, with the weight that its numeral has. -/
def reread? (e : Edge) : Option Edge := (ofFloat e.weight).float?.map fun w => { e with weight := w }

theorem ofJson?_toJson {e : Edge} (h : e.Fits) : ofJson? e.toJson = e.reread? := by
  have hrecord : e.toJson.record? ["source", "target", "weight"] =
      some [some (.ofNat e.source), some (.ofNat e.target), some (.ofFloat e.weight)] :=
    record?_ofMembers [("source", .ofNat e.source), ("target", .ofNat e.target), ("weight", .ofFloat e.weight)]
      (by simp)
  rw [ofJson?, hrecord]
  simp only [required?, natural?_number h.source, natural?_number h.target, Option.bind_eq_bind, Option.bind_some,
    reread?]
  cases (ofFloat e.weight).float? <;> rfl

theorem printable_toJson (e : Edge) : Printable e.toJson := by
  refine .object fun m hm => ?_
  simp only [List.mem_cons, List.not_mem_nil, or_false] at hm
  rcases hm with rfl | rfl | rfl
  · exact printable_ofNat _
  · exact printable_ofNat _
  · exact printable_ofFloat _

end Edge

/-! ## Graphs -/

namespace Graph

theorem ofJson?_toJson {g : Graph} (h : g.Fits) (epoch : Epoch) :
    ofJson? epoch g.toJson = (g.edges.mapM Edge.reread?).map fun es => ⟨g.categories, g.nodes, es, epoch⟩ := by
  have hrecord : g.toJson.record? ["categories", "nodes", "edges"] = some [some (.array (g.categories.map .ofString)),
      some (.array (g.nodes.map (·.toJson))), some (.array (g.edges.map (·.toJson)))] :=
    record?_ofMembers [("categories", .array (g.categories.map .ofString)),
      ("nodes", .array (g.nodes.map FileNode.toJson)), ("edges", .array (g.edges.map Edge.toJson))] (by simp)
  have hnodes : listOf? FileNode.ofJson? (.array (g.nodes.map (·.toJson))) = some g.nodes :=
    mapM_map_eq_some fun n hn => FileNode.ofJson?_toJson (h.nodes n hn)
  have hedges : listOf? Edge.ofJson? (.array (g.edges.map (·.toJson))) = g.edges.mapM Edge.reread? := by
    change (g.edges.map (·.toJson)).mapM Edge.ofJson? = _
    rw [List.mapM_map]
    exact mapM_congr fun e he => Edge.ofJson?_toJson (h.edges e he)
  rw [ofJson?, hrecord]
  simp only [required?, listOf?_strings, hnodes, hedges, Option.bind_eq_bind, Option.bind_some]
  cases g.edges.mapM Edge.reread? <;> rfl

theorem printable_toJson (g : Graph) : Printable g.toJson := by
  refine .object fun m hm => ?_
  simp only [List.mem_cons, List.not_mem_nil, or_false] at hm
  rcases hm with rfl | rfl | rfl
  · exact printable_strings _
  · refine .array fun j hj => ?_
    obtain ⟨n, -, rfl⟩ := List.mem_map.1 hj
    exact n.printable_toJson
  · refine .array fun j hj => ?_
    obtain ⟨e, -, rfl⟩ := List.mem_map.1 hj
    exact e.printable_toJson

/-- **Either layout is read as the document that was written.** -/
theorem read?_write (g : Graph) (layout : Layout) : Json.read? (g.write layout).toList = some g.toJson := by
  cases layout with
  | pretty =>
    rw [write, String.toList_ofList]
    exact (reads_prettyAt g.printable_toJson 0).read?
  | compact =>
    rw [write, String.toList_ofList]
    exact (reads_compact g.printable_toJson).read?

/-- **What was written is read as the graph with the weights as they are read**, if they are and if it is valid. -/
theorem read_write {g : Graph} (h : g.Fits) (epoch : Epoch) (layout : Layout) :
    read epoch (g.write layout) =
      match g.edges.mapM Edge.reread? with
      | none => .error .notADocument
      | some es =>
        match (Graph.mk g.categories g.nodes es epoch).check with
        | .ok () => .ok ⟨g.categories, g.nodes, es, epoch⟩
        | .error f => .error (.invalid f) := by
  rw [read, read?_write, Option.bind_some, ofJson?_toJson h]
  cases g.edges.mapM Edge.reread? <;> rfl

end Graph

/-! ## What is read -/

theorem Json.mem_of_mapM {α β : Type} {read : α → Option β} {y : β} : ∀ {xs : List α} {ys : List β},
    xs.mapM read = some ys → y ∈ ys → ∃ x ∈ xs, read x = some y
  | [], ys, h, hy => by
    obtain rfl := Option.some.inj h
    cases hy
  | x :: xs, ys, h, hy => by
    simp only [List.mapM_cons, Option.bind_eq_bind, Option.bind_eq_some_iff] at h
    obtain ⟨z, hz, zs, hzs, hys⟩ := h
    obtain rfl := Option.some.inj hys
    rcases List.mem_cons.1 hy with rfl | hy
    · exact ⟨x, List.mem_cons_self, hz⟩
    · obtain ⟨w, hw, hread⟩ := mem_of_mapM hzs hy
      exact ⟨w, List.mem_cons_of_mem x hw, hread⟩

theorem Json.mem_of_listOf? {α : Type} {read : Json → Option α} {j : Json} {xs : List α} {x : α}
    (h : listOf? read j = some xs) (hx : x ∈ xs) : ∃ item, read item = some x := by
  obtain ⟨items, -, hitems⟩ := Option.bind_eq_some_iff.1 h
  obtain ⟨item, -, hread⟩ := mem_of_mapM hitems hx
  exact ⟨item, hread⟩

theorem Json.lt_of_natural? {j : Json} {n : Nat} (h : j.natural? = some n) : n < 2 ^ 64 := by
  cases j with
  | number m =>
    have hmax : Numeral.maxWord < 2 ^ 64 := by decide
    simp only [natural?, Numeral.natural?] at h
    split at h
    · cases h
    · split at h
      · obtain rfl := Option.some.inj h
        omega
      · cases h
  | _ => cases h

theorem Json.exists_of_required? {α : Type} {read : Json → Option α} {field : Option Json} {x : α}
    (h : required? read field = some x) : ∃ j, read j = some x := by
  cases field with
  | none => cases h
  | some j => exact ⟨j, h⟩

theorem Json.eq_or_exists_of_optional? {α : Type} {read : Json → Option α} {default x : α} {field : Option Json}
    (h : optional? read default field = some x) : x = default ∨ ∃ j, read j = some x := by
  cases field with
  | none => exact .inl (Option.some.inj h).symm
  | some j => exact .inr ⟨j, h⟩

theorem NameMap.mem_of_mem_foldl_insert {α : Type} {e : String × α} : ∀ {es : List (String × α)} {m : NameMap α},
    e ∈ (es.foldl (fun m e => m.insert e.1 e.2) m).entries → e ∈ m.entries ∨ e ∈ es
  | [], _, h => .inl h
  | x :: es, m, h => by
    rcases mem_of_mem_foldl_insert (m := m.insert x.1 x.2) h with h | h
    · rcases NameMap.mem_insertSorted h with rfl | h
      · exact .inr List.mem_cons_self
      · exact .inl h
    · exact .inr (List.mem_cons_of_mem x h)

theorem Source.Span.fits_of_ofJson? {j : Json} {s : Span} (h : Span.ofJson? j = some s) : s.Fits := by
  unfold Span.ofJson? at h
  split at h
  · simp only [Option.bind_eq_bind, Option.bind_eq_some_iff] at h
    obtain ⟨first, hfirst, count, hcount, hs⟩ := h
    obtain rfl := Option.some.inj hs
    obtain ⟨j₁, hj₁⟩ := exists_of_required? hfirst
    obtain ⟨j₂, hj₂⟩ := exists_of_required? hcount
    exact ⟨lt_of_natural? hj₁, lt_of_natural? hj₂⟩
  · cases h

theorem FileNode.fits_of_ofJson? {j : Json} {n : FileNode} (h : FileNode.ofJson? j = some n) : n.Fits := by
  unfold FileNode.ofJson? at h
  split at h
  · simp only [Option.bind_eq_bind, Option.bind_eq_some_iff] at h
    obtain ⟨path, -, lines, hlines, characters, hcharacters, category, hcategory, functions, hfunctions, text, -,
      paths, -, hn⟩ := h
    obtain rfl := Option.some.inj hn
    obtain ⟨j₁, hj₁⟩ := exists_of_required? hlines
    obtain ⟨j₂, hj₂⟩ := exists_of_required? hcharacters
    refine ⟨lt_of_natural? hj₁, lt_of_natural? hj₂, ?_, fun f hf => ?_⟩
    · rcases eq_or_exists_of_optional? hcategory with rfl | ⟨j₃, hj₃⟩
      · exact Nat.two_pow_pos 64
      · exact lt_of_natural? hj₃
    · rcases NameMap.mem_of_mem_foldl_insert hf with hf | hf
      · cases hf
      · rcases eq_or_exists_of_optional? hfunctions with rfl | ⟨j₄, hj₄⟩
        · cases hf
        · cases j₄ with
          | object members =>
            obtain ⟨m, -, hm⟩ := mem_of_mapM hj₄ hf
            obtain ⟨name, -, hspan⟩ := Option.bind_eq_some_iff.1 hm
            obtain ⟨span, hread, rfl⟩ := Option.map_eq_some_iff.1 hspan
            exact Source.Span.fits_of_ofJson? hread
          | _ => cases hj₄
  · cases h

/-- **The numbers of the files that are read are words.** -/
theorem Graph.fits_of_ofJson? {epoch : Epoch} {j : Json} {g : Graph} (h : ofJson? epoch j = some g) :
    ∀ n ∈ g.nodes, n.Fits := by
  unfold ofJson? at h
  split at h
  · simp only [Option.bind_eq_bind, Option.bind_eq_some_iff] at h
    obtain ⟨categories, -, nodes, hnodes, edges, -, hg⟩ := h
    obtain rfl := Option.some.inj hg
    intro n hn
    obtain ⟨items, hitems⟩ := exists_of_required? hnodes
    obtain ⟨item, hread⟩ := mem_of_listOf? hitems hn
    exact FileNode.fits_of_ofJson? hread
  · cases h

end FileGraph
