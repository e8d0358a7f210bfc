import FileGraph.Proofs.Cache.Message
import FileGraph.Proofs.Repository.Shared
import FileGraph.Proofs.Repository.Workers
/-!
# Interleaving — a cache for one kind of limits does not show

Workers that finish one after another do what `analyzeEntries` does (`interleave_nil`), so that `analyze` is one of the
ways in which an archive can be analysed side by side (`analyzeBy_nil`).  All of these ways give the same: through a
cache that is right about the files under the limits at hand, each file gets its own analysis, and jobs get the graphs
that they would have got with caches of their own (`cache_invisible`).
-/
namespace FileGraph.Repository

open Source Archive Cache

/-- The graph of an archive whose files are analysed side by side. -/
def analyzeBy (settings : Settings) (turns : List Turn) (c : Cache) (s : Storage) (epoch : Epoch) (data : ByteArray)
    (root : Option String) : Except Fault (Graph × Cache × Storage) :=
  (load settings data root).map fun es =>
    let (as, c, s) := interleave settings.limits turns c s es
    (assemble settings epoch (es.zip as), c, s)

/-- What jobs give that go through one cache after another, each with turns of its own workers. -/
def performAll : Cache → Storage → List (Job × List Turn) → List (Except Fault Graph)
  | _, _, [] => []
  | c, s, (j, turns) :: js =>
    match analyzeBy j.settings turns c s j.epoch j.data j.root with
    | .ok (g, c, s) => .ok g :: performAll c s js
    | .error f => .error f :: performAll c s js

/-! ## One after another -/

theorem turn_turn (limits : Limits) (c : Cache) (s : Storage) (e : Entry) (before after : List (Entry × Worker)) :
    Work.run limits ⟨c, s, before ++ (e, .waiting) :: after⟩ [⟨before.length, .taken⟩, ⟨before.length, .taken⟩] =
      ⟨(analyzeEntry limits c s e).2.1, (analyzeEntry limits c s e).2.2,
        before ++ (e, .done (analyzeEntry limits c s e).1) :: after⟩ := by
  have hget : ∀ p, (before ++ p :: after)[before.length]? = some p := by
    intro p
    rw [List.getElem?_append_right (Nat.le_refl _), Nat.sub_self, List.getElem?_cons_zero]
  have hset : ∀ p p' : Entry × Worker, (before ++ p :: after).set before.length p' = before ++ p' :: after := by
    intro p p'
    rw [List.set_append_right _ _ (Nat.le_refl _), Nat.sub_self, List.set_cons_zero]
  have hlook : Work.turn limits ⟨c, s, before ++ (e, .waiting) :: after⟩ ⟨before.length, .taken⟩ =
      ⟨(c.get s (keyOf (subjectOf e))).2, s,
        before ++ (e, .ofFound (c.get s (keyOf (subjectOf e))).1) :: after⟩ := by
    simp only [Work.turn, hget, Work.lookUp, hset]
  rw [Work.run, List.foldl_cons, List.foldl_cons, List.foldl_nil, hlook]
  cases hfound : (c.get s (keyOf (subjectOf e))).1 with
  | some a =>
    rw [analyzeEntry_hit hfound]
    simp only [Work.turn, hget, Worker.ofFound]
  | none =>
    rw [analyzeEntry_miss hfound]
    simp only [Work.turn, hget, Worker.ofFound, Work.record, hset, storageAfter]

theorem run_inOrder (limits : Limits) : ∀ (es : List Entry) (before : List (Entry × Worker)) (c : Cache) (s : Storage),
    Work.run limits ⟨c, s, before ++ es.map fun e => (e, .waiting)⟩ (Work.inOrder before.length es.length) =
      ⟨(analyzeEntries limits c s es).2.1, (analyzeEntries limits c s es).2.2,
        before ++ (es.zip (analyzeEntries limits c s es).1).map fun p => (p.1, .done p.2)⟩
  | [], _, _, _ => rfl
  | e :: es, before, c, s => by
    -- two turns finish the first worker, and the others start with the cache that it leaves
    have htwo := turn_turn limits c s e before (es.map fun e => (e, .waiting))
    have ih := run_inOrder limits es (before ++ [(e, .done (analyzeEntry limits c s e).1)])
      (analyzeEntry limits c s e).2.1 (analyzeEntry limits c s e).2.2
    rw [List.length_append, List.length_singleton, List.append_assoc, List.append_assoc] at ih
    rw [analyzeEntries_cons, List.zip_cons_cons, List.map_cons, List.map_cons]
    exact (congrArg (fun w => Work.run limits w (Work.inOrder (before.length + 1) es.length)) htwo).trans ih

/-- **Workers that finish one after another analyse the files in order.** -/
theorem interleave_nil (limits : Limits) (c : Cache) (s : Storage) (es : List Entry) :
    interleave limits [] c s es = analyzeEntries limits c s es := by
  have hrun := run_inOrder limits es [] c s
  rw [List.nil_append, List.length_nil, List.nil_append] at hrun
  rw [interleave, List.nil_append, Work.start, hrun]
  have hanalyses : ∀ (es : List Entry) (as : List Analysis), as.length = es.length →
      Work.analyses ⟨c, s, (es.zip as).map fun p => (p.1, .done p.2)⟩ = as := by
    intro es as hlength
    rw [Work.analyses, List.filterMap_map]
    have hsome : ((fun p : Entry × Worker => p.2.analysis?) ∘ fun p : Entry × Analysis => (p.1, .done p.2)) =
        some ∘ Prod.snd := rfl
    rw [hsome, List.filterMap_eq_map, List.map_snd_zip (Nat.le_of_eq hlength)]
  exact Prod.ext (hanalyses es _ (length_analyzeEntries limits es c s)) rfl

theorem analyzeBy_nil (settings : Settings) (c : Cache) (s : Storage) (epoch : Epoch) (data : ByteArray)
    (root : Option String) :
    analyzeBy settings [] c s epoch data root = analyze settings c s epoch data root := by
  rw [analyzeBy, analyze_eq]
  simp only [interleave_nil]
  rfl

/-! ## Jobs with the same limits -/

/-- Jobs with the limits for which a cache is right get the graphs that they would get alone. -/
theorem performAll_of_holds {limits : Limits} {fs : List Subject} (hapart : Apart fs) :
    ∀ (js : List (Job × List Turn)) {c : Cache} {s : Storage},
      (c.folder = none ∨ ∀ f ∈ fs, Fits (analysisOf limits f)) → Holds (analysisOf limits) fs c s →
      (∀ j ∈ js, j.1.settings.limits = limits ∧ ∀ f ∈ j.1.subjects, f ∈ fs) →
        performAll c s js = js.map fun j => j.1.alone
  | [], _, _, _, _, _ => rfl
  | (j, turns) :: js, c, s, hfits, h, hjs => by
    obtain ⟨hlimits, hmem⟩ := hjs (j, turns) List.mem_cons_self
    have hrest : ∀ k ∈ js, k.1.settings.limits = limits ∧ ∀ f ∈ k.1.subjects, f ∈ fs := fun k hk =>
      hjs k (List.mem_cons_of_mem _ hk)
    have halone := alone_eq hapart hmem
    simp only at hlimits
    subst hlimits
    rw [List.map_cons, performAll, analyzeBy, halone]
    cases hload : load j.settings j.data j.root with
    | error f =>
      simp only [Except.map]
      rw [performAll_of_holds hapart js hfits h hrest]
    | ok es =>
      have hsubjects : j.subjects = es.map subjectOf := by rw [Job.subjects, hload]
      have hentries : ∀ e ∈ es, subjectOf e ∈ fs := fun e he => hmem _ (hsubjects ▸ List.mem_map.2 ⟨e, he, rfl⟩)
      obtain ⟨hmap, hright⟩ := interleave_of_holds hapart hfits h hentries turns
      simp only [Except.map, hmap, zip_map_self]
      exact congrArg _ (performAll_of_holds hapart js hright.fits hright.holds hrest)

/-- **A cache does not show to those who all have the same limits.**  Let the digest not collide on the files at hand,
and let whatever the cache holds under their keys, in memory or in its folder, be their analyses under some limits.  A
folder takes numbers and lengths of eight bytes only, so let those of the analyses be no longer if there is one.  Then
whatever turns the workers of such files take, and whichever writes fail, each file gets the analysis of its own
language and content, in order, and the cache stays as it was assumed to be; and any jobs with these limits, one after
another, get what they would get with new caches of their own. -/
theorem cache_invisible {limits : Limits} {fs : List Subject} {c : Cache} {s : Storage} (hdigest : Uncollided fs)
    (hfits : c.folder = none ∨ ∀ f ∈ fs, Fits (analysisOf limits f)) (h : Holds (analysisOf limits) fs c s) :
    (∀ es turns, (∀ e ∈ es, subjectOf e ∈ fs) →
      (interleave limits turns c s es).1 = es.map (fun e => analyzeFile limits (Language.ofPath e.path) e.content) ∧
        Holds (analysisOf limits) fs (interleave limits turns c s es).2.1 (interleave limits turns c s es).2.2) ∧
    ∀ js : List (Job × List Turn), (∀ j ∈ js, j.1.settings.limits = limits ∧ ∀ f ∈ j.1.subjects, f ∈ fs) →
      performAll c s js = js.map fun j => j.1.alone := by
  have hapart := Apart.of_uncollided hdigest
  refine ⟨fun es turns hmem => ?_, fun js hjs => performAll_of_holds hapart js hfits h hjs⟩
  obtain ⟨hmap, hright⟩ := interleave_of_holds hapart hfits h hmem turns
  exact ⟨hmap, hright.holds⟩

/-- Two workers miss before either stores; one write is cut short and the other refused. -/
def sampleTurns : List Turn := [⟨1, .taken⟩, ⟨0, .taken⟩, ⟨0, .cut 9⟩, ⟨1, .refused⟩]

theorem cache_invisible_sample :
    let p := Pool.ofFolder "cache"
    (interleave Settings.default.limits sampleTurns (p.cache 0) p.storage
        [sampleEntry, ⟨"lib/a.js", sampleEntry.content⟩]).1 = [sampleAnalysis 3, sampleAnalysis 3] ∧
      performAll (p.cache 0) p.storage [(usualJob, sampleTurns), (usualJob, [])] = [usualJob.alone, usualJob.alone] := by
  have hown : analysisOf Settings.default.limits (subjectOf sampleEntry) = sampleAnalysis 3 := by decide +kernel
  have hcopy : subjectOf ⟨"lib/a.js", sampleEntry.content⟩ = subjectOf sampleEntry := by decide +kernel
  have hdigest : Uncollided [subjectOf sampleEntry] := fun f hf f' hf' _ => by
    rw [List.mem_singleton.1 hf, List.mem_singleton.1 hf']
  have hfits : ∀ f ∈ [subjectOf sampleEntry], Fits (analysisOf Settings.default.limits f) := fun f hf => by
    rw [List.mem_singleton.1 hf, hown]
    exact ⟨by decide, by decide, by decide, by decide, by decide⟩
  have hfresh : (Pool.ofFolder "cache").Fresh := Pool.fresh_ofFolder (by decide)
  have hkeeps : (Pool.ofFolder "cache").Keeps (analysisOf Settings.default.limits) [subjectOf sampleEntry] [] :=
    hfresh.keeps
  obtain ⟨hfiles, hjobs⟩ := cache_invisible hdigest (.inr hfits) (hkeeps 0 fun _ => rfl).holds
  have hsubjects : usualJob.subjects = [subjectOf sampleEntry] := by
    rw [Job.subjects, load_sample (List.mem_cons_of_mem _ List.mem_cons_self)]
    rfl
  refine ⟨?_, hjobs [(usualJob, sampleTurns), (usualJob, [])] fun j hj => ?_⟩
  · have hanalyses := (hfiles [sampleEntry, ⟨"lib/a.js", sampleEntry.content⟩] sampleTurns fun e he => by
      rcases List.mem_cons.1 he with rfl | he
      · exact List.mem_singleton.2 rfl
      · rw [List.mem_singleton.1 he, hcopy]
        exact List.mem_singleton.2 rfl).1
    rw [hanalyses]
    change [analysisOf _ (subjectOf sampleEntry), analysisOf _ (subjectOf ⟨"lib/a.js", sampleEntry.content⟩)] = _
    rw [hcopy, hown]
  · have hj : j.1 = usualJob := by
      rcases List.mem_cons.1 hj with rfl | hj
      · rfl
      · rw [List.mem_singleton.1 hj]
    rw [hj, hsubjects]
    exact ⟨rfl, fun f hf => hf⟩

end FileGraph.Repository
