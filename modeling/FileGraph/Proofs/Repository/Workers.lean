import FileGraph.Proofs.Cache.Writes
import FileGraph.Proofs.Repository.Entries
/-!
# Workers — files that are analysed side by side

Each file has a worker, which looks its file up and, where nothing is found, analyses it and stores the analysis.
Workers share one cache and take turns in any order, a lookup or a store at a time (`Work.turn`).

A cache that is right about all files at hand stays right whoever takes a turn, and what a worker ends with belongs to
its file (`Right.turn`).  All workers get done (`left_interleave`), so that the order of turns does not show in what
they end with (`interleave_of_holds`).
-/
namespace FileGraph.Repository

open Source Archive Cache

/-! ## Turns -/

/-- How far the worker of a file has come. -/
inductive Worker where
  | waiting
  /-- It has looked its file up and found nothing. -/
  | missed
  | done (a : Analysis)

def Worker.ofFound : Option Analysis → Worker
  | some a => .done a
  | none => .missed

def Worker.analysis? : Worker → Option Analysis
  | .done a => some a
  | _ => none

/-- The worker whose turn it is, and how its write ends if it stores something. -/
structure Turn where
  worker : Nat
  write  : Write

/-- Files, how far their workers have come, and the cache that they share. -/
structure Work where
  cache   : Cache
  storage : Storage
  workers : List (Entry × Worker)

namespace Work

def start (c : Cache) (s : Storage) (es : List Entry) : Work := ⟨c, s, es.map fun e => (e, .waiting)⟩

def lookUp (w : Work) (i : Nat) (e : Entry) : Work where
  cache := (w.cache.get w.storage (keyOf (subjectOf e))).2
  storage := w.storage
  workers := w.workers.set i (e, .ofFound (w.cache.get w.storage (keyOf (subjectOf e))).1)

def record (limits : Limits) (w : Work) (i : Nat) (e : Entry) (write : Write) : Work where
  cache := (w.cache.store w.storage (keyOf (subjectOf e)) (analysisOf limits (subjectOf e))).1
  storage := storageAfter w.cache w.storage (keyOf (subjectOf e)) (analysisOf limits (subjectOf e)) write
  workers := w.workers.set i (e, .done (analysisOf limits (subjectOf e)))

def turn (limits : Limits) (w : Work) (t : Turn) : Work :=
  match w.workers[t.worker]? with
  | some (e, .waiting) => w.lookUp t.worker e
  | some (e, .missed) => w.record limits t.worker e t.write
  | _ => w

def run (limits : Limits) (w : Work) (turns : List Turn) : Work := turns.foldl (turn limits) w

/-- The analyses of the workers that are done, in the order of the files. -/
def analyses (w : Work) : List Analysis := w.workers.filterMap fun p => p.2.analysis?

/-- The turns in which `count` workers from a position on finish one after another. -/
def inOrder : (first count : Nat) → List Turn
  | _, 0 => []
  | first, count + 1 => ⟨first, .taken⟩ :: ⟨first, .taken⟩ :: inOrder (first + 1) count

end Work

/-- The analyses of files whose workers take the given turns first, and the cache and the storage afterwards.  Who is
not done by then finishes in order. -/
def interleave (limits : Limits) (turns : List Turn) (c : Cache) (s : Storage) (es : List Entry) :
    List Analysis × Cache × Storage :=
  let w := (Work.start c s es).run limits (turns ++ Work.inOrder 0 es.length)
  (w.analyses, w.cache, w.storage)

/-! ## What a turn keeps -/

/-- The cache is right about files, to which those of the workers belong, and who is done has what belongs to its
file. -/
structure Right (belongs : Subject → Analysis) (fs : List Subject) (w : Work) : Prop where
  holds : Holds belongs fs w.cache w.storage
  mem   : ∀ p ∈ w.workers, subjectOf p.1 ∈ fs
  done  : ∀ e a, (e, Worker.done a) ∈ w.workers → a = belongs (subjectOf e)
  fits  : w.cache.folder = none ∨ ∀ f ∈ fs, Fits (belongs f)

variable {limits : Limits} {fs : List Subject} {w : Work}

/-- **The three kinds of turns.** -/
theorem turn_cases (limits : Limits) (w : Work) (t : Turn) :
    (∃ e, w.workers[t.worker]? = some (e, .waiting) ∧ w.turn limits t = w.lookUp t.worker e) ∨
    (∃ e, w.workers[t.worker]? = some (e, .missed) ∧ w.turn limits t = w.record limits t.worker e t.write) ∨
    ((∀ p, w.workers[t.worker]? = some p → ∃ a, p.2 = .done a) ∧ w.turn limits t = w) := by
  unfold Work.turn
  cases hp : w.workers[t.worker]? with
  | none => exact .inr (.inr ⟨fun p h => (by cases h), rfl⟩)
  | some p =>
    obtain ⟨e, state⟩ := p
    cases state with
    | waiting => exact .inl ⟨e, rfl, rfl⟩
    | missed => exact .inr (.inl ⟨e, rfl, rfl⟩)
    | done a => exact .inr (.inr ⟨fun p h => ⟨a, by cases h; rfl⟩, rfl⟩)

theorem right_start {belongs : Subject → Analysis} {c : Cache} {s : Storage} {es : List Entry}
    (h : Holds belongs fs c s) (hmem : ∀ e ∈ es, subjectOf e ∈ fs)
    (hfits : c.folder = none ∨ ∀ f ∈ fs, Fits (belongs f)) : Right belongs fs (.start c s es) where
  holds := h
  mem p hp := by
    obtain ⟨e, he, rfl⟩ := List.mem_map.1 hp
    exact hmem e he
  done e a hp := by
    obtain ⟨e', -, heq⟩ := List.mem_map.1 hp
    cases heq
  fits := hfits

theorem Right.set {belongs : Subject → Analysis} (h : Right belongs fs w) {i : Nat} {e : Entry} {state state' : Worker}
    (hi : w.workers[i]? = some (e, state)) (hstate : ∀ a, state' = .done a → a = belongs (subjectOf e)) {c : Cache}
    {s : Storage} (hholds : Holds belongs fs c s) (hfolder : c.folder = w.cache.folder) :
    Right belongs fs ⟨c, s, w.workers.set i (e, state')⟩ := by
  have hf : subjectOf e ∈ fs := h.mem (e, state) (List.mem_of_getElem? hi)
  refine ⟨hholds, fun p hp => ?_, fun e' a hp => ?_, hfolder ▸ h.fits⟩
  · rcases List.mem_or_eq_of_mem_set hp with hp | rfl
    · exact h.mem p hp
    · exact hf
  · rcases List.mem_or_eq_of_mem_set hp with hp | heq
    · exact h.done e' a hp
    · obtain ⟨rfl, hdone⟩ := Prod.mk.inj heq
      exact hstate a hdone.symm

/-- **Whoever takes a turn, all stays right.** -/
theorem Right.turn (h : Right (analysisOf limits) fs w) (hapart : Apart fs) (t : Turn) :
    Right (analysisOf limits) fs (w.turn limits t) := by
  rcases turn_cases limits w t with ⟨e, he, hturn⟩ | ⟨e, he, hturn⟩ | ⟨-, hturn⟩
  · have hf : subjectOf e ∈ fs := h.mem (e, .waiting) (List.mem_of_getElem? he)
    rw [hturn]
    -- whatever is found under the key of a file belongs to it, whoever stored it and for which file
    refine h.set he (fun a hstate => ?_) (h.holds.get hapart hf) (folder_get _ _ _)
    refine h.holds.get_eq hf ?_
    cases hget : (w.cache.get w.storage (keyOf (subjectOf e))).1 with
    | none => rw [hget] at hstate; cases hstate
    | some a' => rw [hget] at hstate; cases hstate; rfl
  · have hf : subjectOf e ∈ fs := h.mem (e, .missed) (List.mem_of_getElem? he)
    rw [hturn]
    refine h.set he (fun a hstate => ?_) ?_ (folder_store _ _ _ _)
    · cases hstate
      rfl
    · exact h.holds.stored hapart hf (h.fits.imp id fun hall => hall _ hf) t.write
  · rw [hturn]
    exact h

theorem Right.run (hapart : Apart fs) : ∀ {w : Work} (turns : List Turn), Right (analysisOf limits) fs w →
    Right (analysisOf limits) fs (w.run limits turns)
  | _, [], h => h
  | _, t :: turns, h => Right.run hapart turns (h.turn hapart t)

theorem entries_turn (limits : Limits) (w : Work) (t : Turn) :
    (w.turn limits t).workers.map (·.1) = w.workers.map (·.1) := by
  have hset : ∀ {e : Entry} {state state' : Worker}, w.workers[t.worker]? = some (e, state) →
      (w.workers.set t.worker (e, state')).map (·.1) = w.workers.map (·.1) := by
    intro e state state' he
    have hfst : (w.workers.map (·.1))[t.worker]? = some e := by rw [List.getElem?_map, he, Option.map_some]
    rw [List.map_set]
    obtain ⟨hlt, hget⟩ := List.getElem?_eq_some_iff.1 hfst
    rw [← hget, List.set_getElem_self]
  rcases turn_cases limits w t with ⟨e, he, hturn⟩ | ⟨e, he, hturn⟩ | ⟨-, hturn⟩
  · rw [hturn]
    exact hset he
  · rw [hturn]
    exact hset he
  · rw [hturn]

theorem entries_run (limits : Limits) : ∀ (w : Work) (turns : List Turn),
    (w.run limits turns).workers.map (·.1) = w.workers.map (·.1)
  | _, [] => rfl
  | w, t :: turns => (entries_run limits (w.turn limits t) turns).trans (entries_turn limits w t)

/-! ## Getting done -/

/-- The turns that a worker needs to be done. -/
def Worker.left : Worker → Nat
  | .waiting => 2
  | .missed => 1
  | .done _ => 0

def Work.left (w : Work) (i : Nat) : Nat := (w.workers[i]?.map (·.2.left)).getD 0

/-- A turn brings its worker forward and holds nobody up. -/
theorem left_turn (limits : Limits) (w : Work) (t : Turn) (i : Nat) :
    (w.turn limits t).left i ≤ w.left i - if t.worker = i then 1 else 0 := by
  -- both kinds of turns that do something put the worker into a later state and leave the others where they are
  have hset : ∀ {p p' : Entry × Worker}, w.workers[t.worker]? = some p → p'.2.left + 1 ≤ p.2.left →
      ((w.workers.set t.worker p')[i]?.map (·.2.left)).getD 0 ≤ w.left i - if t.worker = i then 1 else 0 := by
    intro p p' hp hless
    obtain ⟨hlt, -⟩ := List.getElem?_eq_some_iff.1 hp
    by_cases hi : t.worker = i
    · subst hi
      rw [if_pos rfl, List.getElem?_set_self hlt, Work.left, hp]
      simp only [Option.map_some, Option.getD_some]
      omega
    · rw [if_neg hi, List.getElem?_set_ne hi]
      exact Nat.le_refl _
  rcases turn_cases limits w t with ⟨e, he, hturn⟩ | ⟨e, he, hturn⟩ | ⟨hdone, hturn⟩
  · rw [hturn]
    refine hset he ?_
    cases (w.cache.get w.storage (keyOf (subjectOf e))).1 <;> exact Nat.le_of_ble_eq_true rfl
  · rw [hturn]
    exact hset he (Nat.le_refl _)
  · rw [hturn]
    by_cases hi : t.worker = i
    · subst hi
      have hzero : w.left t.worker = 0 := by
        unfold Work.left
        cases hp : w.workers[t.worker]? with
        | none => rfl
        | some p =>
          obtain ⟨a, ha⟩ := hdone p hp
          rw [Option.map_some, ha]
          rfl
      omega
    · rw [if_neg hi]
      exact Nat.le_refl _

theorem left_run (limits : Limits) (i : Nat) : ∀ (w : Work) (turns : List Turn),
    (w.run limits turns).left i ≤ w.left i - turns.countP (·.worker == i)
  | _, [] => Nat.le_refl _
  | w, t :: turns => by
    have hrest := left_run limits i (w.turn limits t) turns
    have hstep := left_turn limits w t i
    rw [List.countP_cons]
    change ((w.turn limits t).run limits turns).left i ≤ _
    by_cases hi : t.worker = i
    · simp only [hi, if_true, beq_self_eq_true] at hstep ⊢
      omega
    · simp only [hi, if_false, beq_iff_eq] at hstep ⊢
      omega

theorem two_le_countP_inOrder (i : Nat) : ∀ (first count : Nat), first ≤ i → i < first + count →
    2 ≤ (Work.inOrder first count).countP (·.worker == i)
  | first, 0, hle, hlt => absurd hlt (by omega)
  | first, count + 1, hle, hlt => by
    rw [Work.inOrder, List.countP_cons, List.countP_cons]
    by_cases hi : first = i
    · simp only [hi, beq_self_eq_true, if_true]
      omega
    · have ih := two_le_countP_inOrder i (first + 1) count (by omega) (by omega)
      omega

/-- **All workers get done**, whatever turns they take first. -/
theorem left_interleave (limits : Limits) (turns : List Turn) (c : Cache) (s : Storage) (es : List Entry) (i : Nat) :
    ((Work.start c s es).run limits (turns ++ Work.inOrder 0 es.length)).left i = 0 := by
  have hrun := left_run limits i (.start c s es) (turns ++ Work.inOrder 0 es.length)
  rw [List.countP_append] at hrun
  -- the turns at the end are enough for every worker, even if the given ones are all of others
  by_cases hi : i < es.length
  · have hlast := two_le_countP_inOrder i 0 es.length (Nat.zero_le i) (by omega)
    have hstart : (Work.start c s es).left i = 2 := by
      simp [Work.start, Work.left, List.getElem?_eq_getElem hi, Worker.left]
    omega
  · have hstart : (Work.start c s es).left i = 0 := by
      simp [Work.start, Work.left, List.getElem?_eq_none (Nat.le_of_not_lt hi)]
    omega

theorem filterMap_eq_map_of_some {α β : Type} {f : α → Option β} {g : α → β} : ∀ {xs : List α},
    (∀ x ∈ xs, f x = some (g x)) → xs.filterMap f = xs.map g
  | [], _ => rfl
  | x :: xs, h => by
    rw [List.filterMap_cons_some (h x List.mem_cons_self), List.map_cons,
      filterMap_eq_map_of_some fun y hy => h y (List.mem_cons_of_mem _ hy)]

theorem Right.analyses_eq {belongs : Subject → Analysis} (h : Right belongs fs w) (hleft : ∀ i, w.left i = 0) :
    w.analyses = (w.workers.map (·.1)).map fun e => belongs (subjectOf e) := by
  have hdone : ∀ p ∈ w.workers, p.2.analysis? = some (belongs (subjectOf p.1)) := by
    intro p hp
    obtain ⟨i, hi⟩ := List.getElem?_of_mem hp
    have hzero := hleft i
    rw [Work.left, hi] at hzero
    obtain ⟨e, state⟩ := p
    cases state with
    | waiting => cases hzero
    | missed => cases hzero
    | done a => exact congrArg some (h.done e a hp)
  unfold Work.analyses
  rw [filterMap_eq_map_of_some hdone, List.map_map]
  rfl

/-- **Whatever turns workers take, each file has what belongs to it and the cache stays right.** -/
theorem interleave_of_holds {c : Cache} {s : Storage} {es : List Entry} (hapart : Apart fs)
    (hfits : c.folder = none ∨ ∀ f ∈ fs, Fits (analysisOf limits f)) (h : Holds (analysisOf limits) fs c s)
    (hmem : ∀ e ∈ es, subjectOf e ∈ fs) (turns : List Turn) :
    (interleave limits turns c s es).1 = es.map (fun e => analysisOf limits (subjectOf e)) ∧
      Right (analysisOf limits) fs ((Work.start c s es).run limits (turns ++ Work.inOrder 0 es.length)) := by
  have hright := Right.run hapart (turns ++ Work.inOrder 0 es.length) (right_start h hmem hfits)
  have hentries := entries_run limits (.start c s es) (turns ++ Work.inOrder 0 es.length)
  have hstart : (Work.start c s es).workers.map (·.1) = es := by
    rw [Work.start, List.map_map]
    exact List.map_id' es
  have hanalyses := hright.analyses_eq (left_interleave limits turns c s es)
  rw [hentries, hstart] at hanalyses
  exact ⟨hanalyses, hright⟩

end FileGraph.Repository
