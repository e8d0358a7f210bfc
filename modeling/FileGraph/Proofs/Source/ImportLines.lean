import FileGraph.Proofs.Source.ImportLists
import FileGraph.Proofs.Source.Preamble
import FileGraph.Proofs.Text.Greedy
/-!
# ImportLines — Python's imports on single lines are extracted exactly

The three forms of an import on one line are a relation between statements and lines (`Written`), with white space,
other names, parentheses and comments wherever they may stand.  From each such line exactly the modules of its
statement are extracted (`importsOnLine_of_written`), so that this holds of files of such lines
(`imports_of_statements`).
-/
namespace FileGraph.Source.Grammar.Python

open Text Text.Pattern Shape

/-! ## Statements -/

/-- What a line imports. -/
inductive Statement where
  | modules (modules : List Module)
  /-- Any names from a module. -/
  | within (module : Module)
  /-- Modules of the folder that the dots stand for. -/
  | siblings (dots : Nat) (names : List Name)

/-- The modules that a statement depends on. -/
def Statement.targets : Statement → List Module
  | .modules ms => ms
  | .within m => [m]
  | .siblings dots names => names.map fun n => ⟨dots, [n], List.cons_ne_nil n []⟩

/-- The rest of a line from `#` on, or none. -/
def Comment (cs : List Char) : Prop := cs.head?.all (· == '#') = true

/-- How a statement is written on a line. -/
inductive Written : Statement → List Char → Prop where
  | modules {ms : List Module} {indent gap list comment : List Char} :
      ms ≠ [] → (∀ m ∈ ms, m.dots = 0) → Blank indent → Gap gap → Lists (ms.map Module.text) list → Comment comment →
        Written (.modules ms) (indent ++ "import".toList ++ gap ++ list ++ comment)
  | within {m : Module} {indent gap gap' gap'' rest : List Char} :
      Blank indent → Gap gap → Gap gap' → Gap gap'' →
        Written (.within m) (indent ++ "from".toList ++ gap ++ m.text ++ gap' ++ "import".toList ++ gap'' ++ rest)
  | siblings {dots : Nat} {names : List Name} {indent gap gap' gap'' list comment : List Char} :
      0 < dots → names ≠ [] → Blank indent → Gap gap → Gap gap' → Gap gap'' →
        Lists (names.map Name.chars) list → Comment comment →
          Written (.siblings dots names) (indent ++ "from".toList ++ gap ++ List.replicate dots '.' ++ gap' ++
            "import".toList ++ gap'' ++ list ++ comment)
  | siblingsInParens {dots : Nat} {names : List Name} {indent gap gap' gap'' list trail comment : List Char} :
      0 < dots → names ≠ [] → Blank indent → Gap gap → Gap gap' → Gap gap'' →
        Lists (names.map Name.chars) list → Blank trail → Comment comment →
          Written (.siblings dots names) (indent ++ "from".toList ++ gap ++ List.replicate dots '.' ++ gap' ++
            "import".toList ++ gap'' ++ "(".toList ++ list ++ (")".toList ++ trail ++ comment))

/-! ## The forms of a line -/

/-- The first character of a text that is no white space. -/
theorem eq_of_blank_append {us vs rest rest' : List Char} {x y : Char} (hus : Blank us) (hvs : Blank vs)
    (hx : isBlank x = false) (hy : isBlank y = false) (h : us ++ x :: rest = vs ++ y :: rest') : x = y := by
  have hdrop : ∀ {us rest : List Char} {x : Char}, Blank us → isBlank x = false →
      (us ++ x :: rest).dropWhile isBlank = x :: rest := by
    intro us rest x hus hx
    rw [List.dropWhile_append_of_pos hus]
    exact List.dropWhile_cons_of_neg (by simp [hx])
  have heq := congrArg (List.dropWhile isBlank) h
  rw [hdrop hus hx, hdrop hvs hy] at heq
  exact (List.cons.inj heq).1

theorem definition_fails {indent rest : List Char} {x : Char} (hindent : Blank indent) (hx : isBlank x = false)
    (hd : x ≠ 'd') (ha : x ≠ 'a') : definition.matchStart (indent ++ x :: rest) = none := by
  refine Option.not_isSome_iff_eq_none.1 fun hsome => ?_
  obtain ⟨w, rest', hline, hw⟩ := takes_of_matchStart hsome
  obtain ⟨_, _, rfl, ⟨_, _, rfl, ⟨_, _, rfl, ⟨_, _, rfl, ⟨_, _, rfl, ⟨blanks, async, rfl, hblanks, hasync⟩,
    rfl⟩, -⟩, -⟩, -⟩, -⟩ := hw
  rcases hasync with ⟨_, _, rfl, rfl, -⟩ | rfl
  · simp only [List.append_assoc] at hline
    exact ha (eq_of_blank_append hindent hblanks.2 hx (by decide) hline)
  · simp only [List.append_assoc] at hline
    exact hd (eq_of_blank_append hindent hblanks.2 hx (by decide) hline)

theorem fromImport_fails {indent rest : List Char} {x : Char} (hindent : Blank indent) (hx : isBlank x = false)
    (hf : x ≠ 'f') : fromImport.matchStart (indent ++ x :: rest) = none := by
  refine Option.not_isSome_iff_eq_none.1 fun hsome => ?_
  obtain ⟨w, rest', hline, hw⟩ := takes_of_matchStart hsome
  obtain ⟨_, _, rfl, ⟨_, _, rfl, ⟨_, _, rfl, ⟨_, _, rfl, ⟨_, _, rfl, ⟨_, _, rfl, ⟨_, _, rfl, ⟨blanks, _, rfl, hblanks,
    rfl⟩, -⟩, -⟩, -⟩, -⟩, -⟩, -⟩, -⟩ := hw
  simp only [List.append_assoc] at hline
  exact hf (eq_of_blank_append hindent hblanks.2 hx (by decide) hline)

theorem head?_any_append {p : Char → Bool} {us : List Char} (vs : List Char) (hne : us ≠ [])
    (h : ∀ c ∈ us, p c = false) : (us ++ vs).head?.any p = false := by
  obtain ⟨c, cs, rfl⟩ := List.exists_cons_of_ne_nil hne
  exact h c List.mem_cons_self

section Words

variable {indent gap gap' gap'' module : List Char}

theorem first_blanks (rest : List Char) (hindent : Blank indent) (h : rest.head?.any isBlank = false) :
    First blanks indent rest fun _ => [] :=
  .many (Nat.zero_le _) hindent h

theorem first_blanks1 (rest : List Char) (hgap : Gap gap) (h : rest.head?.any isBlank = false) :
    First blanks1 gap rest fun _ => [] :=
  .many (List.length_pos_iff.2 hgap.1) hgap.2 h

/-- A line that imports modules. -/
theorem slotAtStart?_plainImport {names rest : List Char} (hindent : Blank indent) (hgap : Gap gap)
    (hnames : names ≠ []) (hink : names.head?.any isBlank = false) (hhash : '#' ∉ names) (hrest : Comment rest) :
    plainImport.slotAtStart? (indent ++ "import".toList ++ gap ++ names ++ rest) = some names := by
  have hink' : (names ++ rest).head?.any isBlank = false := by
    cases names with
    | nil => exact absurd rfl hnames
    | cons c cs => exact hink
  have hstop : rest.head?.any (· != '#') = false := by
    cases rest with
    | nil => rfl
    | cons c cs => simpa [Comment] using hrest
  have hblanks := first_blanks ("import".toList ++ (gap ++ (names ++ rest))) hindent
    rfl
  have htaken : First (many 1 (· != '#')) names rest fun _ => [] :=
    .many (List.length_pos_iff.2 hnames) (fun c hc => bne_iff_ne.2 fun h => hhash (h ▸ hc)) hstop
  have hfirst := ((hblanks.andThen (.text _ _)).andThen (first_blanks1 _ hgap hink')).andThen (htaken.capture 1)
  unfold slotAtStart?
  rw [show plainImport.matchStart _ = _ from hfirst.matchStart]
  rfl

/-- A line that imports names from a module.  After an opening parenthesis there are no names but those before the
closing one. -/
theorem importsOnLine_from (paren names rest : List Char) (hindent : Blank indent) (hgap : Gap gap)
    (hmodule : Dotted module) (hgap' : Gap gap') (hgap'' : Gap gap'')
    (hparen : paren = "(".toList ∨
      paren = [] ∧ (names ++ rest).head?.any isBlank = false ∧ (names ++ rest).head? ≠ some '(')
    (hnames : ∀ c ∈ names, noneOf "#)" c = true) (hrest : rest.head?.any (noneOf "#)") = false) :
    importsOnLine (indent ++ "from".toList ++ gap ++ module ++ gap' ++ "import".toList ++ gap'' ++ paren ++ names ++
        rest) =
      if module.all (· == '.') then (importedNames names).map fun n => dottedToPath (.ofList module ++ n)
      else [dottedToPath (.ofList module)] := by
  have htail : (paren ++ (names ++ rest)).head?.any isBlank = false := by
    rcases hparen with rfl | ⟨rfl, hink, -⟩
    · rfl
    · exact hink
  have hbracket : First (opt (lit "(")) paren (names ++ rest) fun _ => [] := by
    rcases hparen with rfl | ⟨rfl, -, hbracket⟩
    · exact (First.text _ _).opt
    · exact First.opt_text hbracket
  have htaken : First (many 0 (noneOf "#)")) names rest fun _ => [] := .many (Nat.zero_le _) hnames hrest
  have himport : First (lit "import") "import".toList (gap'' ++ (paren ++ (names ++ rest))) fun _ => [] := .text _ _
  have hdots : First (many 1 fun c => c == '.' || isWordChar c) module
      (gap' ++ ("import".toList ++ (gap'' ++ (paren ++ (names ++ rest))))) fun _ => [] :=
    .many (List.length_pos_iff.2 hmodule.ne_nil) hmodule.chars
      (head?_any_append _ hgap'.1 fun c hc => isModuleChar_of_isBlank (hgap'.2 c hc))
  have hstart := first_blanks ("from".toList ++
    (gap ++ (module ++ (gap' ++ ("import".toList ++ (gap'' ++ (paren ++ (names ++ rest)))))))) hindent
      rfl
  have hgaps := first_blanks1 (module ++ (gap' ++ ("import".toList ++ (gap'' ++ (paren ++ (names ++ rest)))))) hgap
    (head?_any_append _ hmodule.ne_nil fun c hc => isBlank_of_isModuleChar (hmodule.chars c hc))
  have hgaps' := first_blanks1 ("import".toList ++ (gap'' ++ (paren ++ (names ++ rest)))) hgap'
    rfl
  have hmodules := ((hstart.andThen (.text _ _)).andThen hgaps).andThen (hdots.capture 1)
  have hfirst := ((((hmodules.andThen hgaps').andThen himport).andThen (first_blanks1 _ hgap'' htail)).andThen
    hbracket).andThen (htaken.capture 2)
  unfold importsOnLine
  rw [show fromImport.matchStart _ = _ from hfirst.matchStart]
  rfl

end Words

theorem head?_dropWhile (p : Char → Bool) : ∀ (cs : List Char), (cs.dropWhile p).head?.any p = false
  | [] => rfl
  | c :: cs => by
    by_cases hc : p c = true
    · rw [List.dropWhile_cons_of_pos hc]
      exact head?_dropWhile p cs
    · rw [List.dropWhile_cons_of_neg hc]
      exact Bool.eq_false_iff.2 hc

/-- Whatever stands after `import` begins with white space and maybe a parenthesis, before the names up to the closing
parenthesis or the comment. -/
theorem exists_names (text : List Char) : ∃ left paren names rest : List Char, text = left ++ paren ++ names ++ rest ∧
    Blank left ∧ (paren = "(".toList ∨
      paren = [] ∧ (names ++ rest).head?.any isBlank = false ∧ (names ++ rest).head? ≠ some '(') ∧
    (∀ c ∈ names, noneOf "#)" c = true) ∧ rest.head?.any (noneOf "#)") = false := by
  have hleft : Blank (text.takeWhile isBlank) := List.all_eq_true.1 List.all_takeWhile
  have hink := head?_dropWhile isBlank text
  have htext : text = text.takeWhile isBlank ++ text.dropWhile isBlank := List.takeWhile_append_dropWhile.symm
  have hnames : ∀ cs : List Char, (∀ c ∈ cs.takeWhile (noneOf "#)"), noneOf "#)" c = true) ∧
      (cs.dropWhile (noneOf "#)")).head?.any (noneOf "#)") = false := fun cs =>
    ⟨List.all_eq_true.1 List.all_takeWhile, head?_dropWhile _ cs⟩
  by_cases hparen : (text.dropWhile isBlank).head? = some '('
  · obtain ⟨cs, hcs⟩ := List.head?_eq_some_iff.1 hparen
    refine ⟨_, "(".toList, cs.takeWhile (noneOf "#)"), cs.dropWhile (noneOf "#)"), ?_, hleft, .inl rfl, hnames cs⟩
    rw [List.append_assoc, List.takeWhile_append_dropWhile, List.append_assoc]
    conv => lhs; rw [htext, hcs]
    rfl
  · refine ⟨_, [], (text.dropWhile isBlank).takeWhile (noneOf "#)"), (text.dropWhile isBlank).dropWhile (noneOf "#)"),
      ?_, hleft, .inr ⟨rfl, ?_, ?_⟩, hnames _⟩
    · rw [List.append_nil, List.append_assoc, List.takeWhile_append_dropWhile, List.takeWhile_append_dropWhile]
    · rwa [List.takeWhile_append_dropWhile]
    · rwa [List.takeWhile_append_dropWhile]

theorem Gap.append {gap left : List Char} (hgap : Gap gap) (hleft : Blank left) : Gap (gap ++ left) :=
  ⟨List.append_ne_nil_of_left_ne_nil hgap.1 left, List.forall_mem_append.2 ⟨hgap.2, hleft⟩⟩

theorem dotted_replicate {dots : Nat} (h : 0 < dots) : Dotted (List.replicate dots '.') :=
  ⟨by simpa using Nat.ne_of_gt h, fun c hc => by rw [List.eq_of_mem_replicate hc]; rfl⟩

theorem dotted_of_mem_text {ms : List Module} : ∀ t ∈ ms.map Module.text, Dotted t := by
  intro t ht
  obtain ⟨m, -, rfl⟩ := List.mem_map.1 ht
  exact m.dotted

theorem dotted_of_mem_chars {names : List Name} : ∀ t ∈ names.map (·.chars), Dotted t := by
  intro t ht
  obtain ⟨n, -, rfl⟩ := List.mem_map.1 ht
  exact n.dotted

/-- The names that are imported from a folder are modules in it. -/
theorem paths_of_siblings {dots : Nat} {names : List Name} {list : List Char} (hne : names ≠ [])
    (hlist : Lists (names.map (·.chars)) list) :
    ((importedNames list).map fun n => dottedToPath (.ofList (List.replicate dots '.') ++ n)) =
      (Statement.siblings dots names).targets.map Module.path := by
  rw [importedNames_of_lists dotted_of_mem_chars (by simpa using hne) hlist, Statement.targets, List.map_map,
    List.map_map, List.map_map]
  refine List.map_congr_left fun n _ => ?_
  simp [Module.path, Module.text]

theorem noneOf_of_lists {texts : List (List Char)} {list : List Char} (htexts : ∀ t ∈ texts, Dotted t)
    (hlist : Lists texts list) : ∀ c ∈ list, noneOf "#)" c = true := by
  have hhash : '#' ∉ list := hlist.notMem htexts (by decide) (by decide +kernel) (by decide)
  have hclosing : ')' ∉ list := hlist.notMem htexts (by decide) (by decide +kernel) (by decide)
  intro c hc
  simp only [noneOf, Bool.not_eq_true', List.contains_eq_mem, decide_eq_false_iff_not]
  intro hmem
  have hends : c ∈ ['#', ')'] := hmem
  rw [List.mem_cons, List.mem_singleton] at hends
  rcases hends with rfl | rfl
  · exact hhash hc
  · exact hclosing hc

theorem Comment.head?_noneOf {cs : List Char} (h : Comment cs) : cs.head?.any (noneOf "#)") = false := by
  cases cs with
  | nil => rfl
  | cons c cs =>
    have hc : c = '#' := by simpa [Comment] using h
    rw [hc]
    rfl

theorem importsOnLine_modules {ms : List Module} {indent gap list comment : List Char} (hne : ms ≠ [])
    (hindent : Blank indent) (hgap : Gap gap) (hlist : Lists (ms.map Module.text) list) (hcomment : Comment comment) :
    importsOnLine (indent ++ "import".toList ++ gap ++ list ++ comment) = ms.map Module.path := by
  obtain ⟨m, ms, rfl⟩ := List.exists_cons_of_ne_nil hne
  obtain ⟨left, tail, hleft, rfl, htrimmed⟩ := Lists.trimmed hlist
  have hlisted : Lists ((m :: ms).map Module.text) (m.text ++ tail) := htrimmed
  have hhash : '#' ∉ m.text ++ tail :=
    hlisted.notMem dotted_of_mem_text (by decide) (by decide +kernel) (by decide)
  have hslot := slotAtStart?_plainImport hindent (hgap.append hleft)
    (List.append_ne_nil_of_left_ne_nil m.dotted.ne_nil tail)
    (head?_any_append tail m.dotted.ne_nil fun c hc => isBlank_of_isModuleChar (m.dotted.chars c hc)) hhash hcomment
  have hnone : fromImport.matchStart (indent ++ "import".toList ++ (gap ++ left) ++ (m.text ++ tail) ++ comment) =
      none := by
    simp only [List.append_assoc]
    exact fromImport_fails hindent (by decide) (by decide)
  -- the white space before the first module belongs to the gap
  have hline : indent ++ "import".toList ++ gap ++ (left ++ (m.text ++ tail)) ++ comment =
      indent ++ "import".toList ++ (gap ++ left) ++ (m.text ++ tail) ++ comment := by
    simp only [List.append_assoc]
  rw [hline]
  unfold importsOnLine
  simp only [hnone, hslot]
  rw [importedNames_of_lists dotted_of_mem_text (by simp) hlisted, List.map_map, List.map_map]
  rfl

theorem importsOnLine_siblings {dots : Nat} {names : List Name} {indent gap gap' gap'' list comment : List Char}
    (hpos : 0 < dots) (hne : names ≠ []) (hindent : Blank indent) (hgap : Gap gap) (hgap' : Gap gap')
    (hgap'' : Gap gap'') (hlist : Lists (names.map Name.chars) list) (hcomment : Comment comment) :
    importsOnLine (indent ++ "from".toList ++ gap ++ List.replicate dots '.' ++ gap' ++ "import".toList ++ gap'' ++
      list ++ comment) = (Statement.siblings dots names).targets.map Module.path := by
  obtain ⟨n, names, rfl⟩ := List.exists_cons_of_ne_nil hne
  obtain ⟨left, tail, hleft, rfl, htrimmed⟩ := Lists.trimmed hlist
  have hink : (n.chars ++ tail ++ comment).head?.any isBlank = false := by
    rw [List.append_assoc]
    exact head?_any_append _ n.ne_nil fun c hc => isBlank_of_isModuleChar (n.isModuleChar c hc)
  have hbracket : (n.chars ++ tail ++ comment).head? ≠ some '(' := by
    obtain ⟨c, cs, hc⟩ := List.exists_cons_of_ne_nil n.ne_nil
    rw [hc]
    intro hhead
    obtain rfl : c = '(' := Option.some.inj hhead
    exact n.notMem (by decide +kernel) (hc ▸ List.mem_cons_self)
  have hlisted : Lists ((n :: names).map (·.chars)) (n.chars ++ tail) := htrimmed
  have hline := importsOnLine_from [] (n.chars ++ tail) comment hindent hgap (dotted_replicate hpos) hgap'
    (hgap''.append hleft) (.inr ⟨rfl, hink, hbracket⟩) (noneOf_of_lists dotted_of_mem_chars hlisted)
    hcomment.head?_noneOf
  rw [if_pos (by simp), paths_of_siblings hne hlisted] at hline
  simp only [List.append_assoc, List.append_nil] at hline ⊢
  exact hline

/-- **From each line exactly the modules of its statement are extracted**, in their order. -/
theorem importsOnLine_of_written {s : Statement} {line : List Char} (h : Written s line) :
    importsOnLine line = s.targets.map Module.path := by
  cases h with
  | modules hne _ hindent hgap hlist hcomment => exact importsOnLine_modules hne hindent hgap hlist hcomment
  | @within m indent gap gap' gap'' rest hindent hgap hgap' hgap'' =>
    obtain ⟨left, paren, names, tail, rfl, hleft, hparen, hnames, htail⟩ := exists_names rest
    have hline := importsOnLine_from paren names tail hindent hgap m.dotted hgap' (hgap''.append hleft) hparen hnames
      htail
    rw [if_neg (by simp [m.all_text_eq_false])] at hline
    simp only [List.append_assoc] at hline ⊢
    exact hline
  | siblings hpos hne hindent hgap hgap' hgap'' hlist hcomment =>
    exact importsOnLine_siblings hpos hne hindent hgap hgap' hgap'' hlist hcomment
  | @siblingsInParens _ _ _ _ _ _ list trail comment hpos hne hindent hgap hgap' hgap'' hlist _ _ =>
    have hline := importsOnLine_from "(".toList list (")".toList ++ trail ++ comment) hindent hgap
      (dotted_replicate hpos) hgap' hgap'' (.inl rfl) (noneOf_of_lists dotted_of_mem_chars hlist) rfl
    rw [if_pos (by simp), paths_of_siblings hne hlist] at hline
    exact hline

/-- No such line defines a function. -/
theorem definition_of_written {s : Statement} {line : List Char} (h : Written s line) :
    definition.matchStart line = none := by
  cases h <;> simp only [List.append_assoc] <;>
    exact definition_fails (by assumption) (by decide) (by decide) (by decide)

/-! ## Files -/

theorem flatMap_of_written : ∀ {statements : List Statement} {lines : List (List Char)},
    List.Forall₂ Written statements lines →
      (lines.flatMap fun line => if (definition.matchStart line).isSome then [] else importsOnLine line) =
        (statements.flatMap Statement.targets).map Module.path
  | _, _, .nil => rfl
  | _, _, .cons h hs => by
    rw [List.flatMap_cons, List.flatMap_cons, List.map_append, definition_of_written h, importsOnLine_of_written h,
      flatMap_of_written hs]
    rfl

theorem inventory_of_written (limits : Limits) {statements : List Statement} {content : List Char}
    (h : List.Forall₂ Written statements (lines content)) : python.inventory limits content = .empty := by
  have hnone : ∀ {statements : List Statement} {lines : List (List Char)}, List.Forall₂ Written statements lines →
      ∀ line ∈ lines, python.signature line = none := by
    intro statements lines hlines
    induction hlines with
    | nil => nofun
    | cons hline _ ih =>
      refine List.forall_mem_cons.2 ⟨?_, ih⟩
      change definition.slotAtStart? _ = none
      rw [slotAtStart?, definition_of_written hline]
      rfl
  have hskip := inventoryFrom_append python limits (hnone h) [] 0 .empty
  rwa [List.append_nil] at hskip

/-- **Imports on single lines are extracted exactly.**  From a file of such lines the modules of the statements are
extracted in their order, each where it is first; the file has no functions; and from the specifier of each module the
resolver takes its last name. -/
theorem imports_of_statements (limits : Limits) {content : String} {statements : List Statement}
    (h : List.Forall₂ Written statements (lines content.toList)) :
    let modules := statements.flatMap Statement.targets
    python.imports content.toList = (modules.map Module.path).eraseDups ∧
      ('\x00' ∉ content.toList → analyzeFile limits .python content = ⟨.empty, (modules.map Module.path).eraseDups⟩) ∧
      ∀ m ∈ modules, Path.specifierName m.path = .ofList m.last.chars := by
  intro modules
  have himports : python.imports content.toList = (modules.map Module.path).eraseDups :=
    congrArg List.eraseDups (flatMap_of_written h)
  refine ⟨himports, fun hnul => ?_, fun m _ => m.specifierName_path⟩
  have htext : isText content.toList = true := by simpa [isText] using hnul
  have hanalysis : python.analyze limits content.toList = .ok ⟨.empty, (modules.map Module.path).eraseDups⟩ := by
    rw [analyze, if_pos htext, inventory_of_written limits h, himports]
  unfold analyzeFile grammar?
  simp only [hanalysis]

def os : Name := ⟨"os".toList, by decide, List.all_eq_true.1 (by decide +kernel)⟩

def sys : Name := ⟨"sys".toList, by decide, List.all_eq_true.1 (by decide +kernel)⟩

/-- A module in a package, and one in the folder above. -/
def sampleModules : Module × Module := (⟨0, [os, sys], by decide⟩, ⟨2, [sys], by decide⟩)

/-- A list in which a module has another name, one that goes on beyond its line, and one in parentheses, from which one
name is imported again. -/
def sampleStatements : List Statement :=
  [.modules [sampleModules.1], .within sampleModules.2, .siblings 1 [os, sys], .within sampleModules.2]

def sampleFile : String :=
  "import os.sys as a # b\n\tfrom ..sys import (a,\nfrom . import ( os, sys as b )#\r\nfrom ..sys import *"

theorem imports_of_statements_sample :
    List.Forall₂ Written sampleStatements (lines sampleFile.toList) ∧
      analyzeFile ⟨3, 200⟩ .python sampleFile = ⟨.empty, ["os/sys", "../sys", "./os", "./sys"]⟩ ∧
      Path.specifierName sampleModules.2.path = "sys" := by
  have hlines : lines sampleFile.toList = [
      [] ++ "import".toList ++ [' '] ++ [','].intercalate [
        [] ++ sampleModules.1.text ++ ([' '] ++ "as".toList ++ [' '] ++ ['a']) ++ [' ']] ++ ['#', ' ', 'b'],
      ['\t'] ++ "from".toList ++ [' '] ++ sampleModules.2.text ++ [' '] ++ "import".toList ++ [' '] ++ ['(', 'a', ','],
      [] ++ "from".toList ++ [' '] ++ List.replicate 1 '.' ++ [' '] ++ "import".toList ++ [' '] ++ "(".toList ++
        [','].intercalate [
          [' '] ++ os.chars ++ [] ++ [],
          [' '] ++ sys.chars ++ ([' '] ++ "as".toList ++ [' '] ++ ['b']) ++ [' ']] ++ (")".toList ++ [] ++ ['#']),
      [] ++ "from".toList ++ [' '] ++ sampleModules.2.text ++ [' '] ++ "import".toList ++ [' '] ++ ['*']] := by
    decide +kernel
  have hblank : Blank [' '] := by decide
  have hgap : Gap [' '] := ⟨by decide, hblank⟩
  have hother : ∀ c, isWordChar c = true → Alias ([' '] ++ "as".toList ++ [' '] ++ [c]) := fun c hc =>
    .named ⟨[c], by simp, by simpa using hc⟩ hgap hgap
  have hwritten : List.Forall₂ Written sampleStatements (lines sampleFile.toList) := by
    rw [hlines]
    refine .cons ?_ (.cons (.within (by decide) hgap hgap hgap) (.cons ?_ (.cons (.within nofun hgap hgap hgap) .nil)))
    · refine .modules (by simp) (by simp [sampleModules]) nofun hgap (.mk (.cons ?_ .nil)) rfl
      exact .mk nofun (hother 'a' (by decide +kernel)) hblank
    · refine .siblingsInParens (by decide) (by simp) nofun hgap hgap hgap (.mk (.cons ?_ (.cons ?_ .nil))) nofun rfl
      · exact .mk hblank .none nofun
      · exact .mk hblank (hother 'b' (by decide +kernel)) hblank
  obtain ⟨-, hanalysis, hname⟩ := imports_of_statements ⟨3, 200⟩ hwritten
  refine ⟨hwritten, (hanalysis (by decide +kernel)).trans (by decide +kernel), ?_⟩
  exact hname sampleModules.2 (by simp [sampleStatements, Statement.targets])

end FileGraph.Source.Grammar.Python
