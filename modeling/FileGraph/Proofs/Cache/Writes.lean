import FileGraph.Proofs.Cache.Lookup
import FileGraph.Proofs.Cache.Truncation
/-!
# Writes — what a store leaves in the folder if its write fails

A write may be refused, or fail on the way and leave a file that is cut short (`Cache.Write`).  Neither puts an analysis
in the place of another: a cache that is right about files stays right (`Cache.Holds.stored`).
-/
namespace FileGraph

open Source

namespace Cache

/-- How the write of an analysis into the folder ends. -/
inductive Write where
  | taken
  | refused
  /-- It fails on the way, with so many bytes written. -/
  | cut (count : Nat)

/-- The storage after an analysis has been stored, with a write that ends in some way. -/
def storageAfter (c : Cache) (s : Storage) (key : String) (a : Analysis) : Write → Storage
  | .taken => (c.store s key a).2.1
  | .refused => s
  | .cut count => (c.folder.bind fun folder => s.write? folder (fileName key) ((encode a).take count)).getD s

/-- **Storing what belongs to a file keeps a cache right**, however the write ends. -/
theorem Holds.stored {belongs : Subject → Analysis} {fs : List Subject} {c : Cache} {s : Storage} {f : Subject}
    (h : Holds belongs fs c s) (hapart : Apart fs) (hf : f ∈ fs) (hfits : c.folder = none ∨ Fits (belongs f))
    (write : Write) :
    Holds belongs fs (c.store s (keyOf f) (belongs f)).1 (storageAfter c s (keyOf f) (belongs f) write) := by
  have hstore := h.store hapart hf (hfits.imp id decode_encode_self)
  have hsame : ∀ f' ∈ fs, ∀ a, kept? (c.store s (keyOf f) (belongs f)).1.folder s (keyOf f') = some a →
      a = belongs f' := by
    rw [folder_store]
    exact h.folder
  cases write with
  | taken => exact hstore
  | refused => exact ⟨hstore.memory, hsame⟩
  | cut count =>
    refine ⟨hstore.memory, ?_⟩
    rw [folder_store] at hsame ⊢
    simp only [storageAfter]
    cases hfolder : c.folder with
    | none => rw [hfolder] at hsame; exact hsame
    | some folder =>
      rw [hfolder] at hsame hfits
      simp only [Option.bind_some]
      cases hwrite : s.write? folder (fileName (keyOf f)) ((encode (belongs f)).take count) with
      | none => exact hsame
      | some s' =>
        have hfit : Fits (belongs f) := hfits.resolve_left fun hnone => by cases hnone
        intro f' hf' a ha
        rw [Option.getD_some, kept?_write? hwrite] at ha
        by_cases hkey : keyOf f' = keyOf f
        · -- a file that was cut short is no analysis, and one that was not is the right one
          rw [if_pos hkey] at ha
          by_cases hcount : count < (encode (belongs f)).length
          · rw [decode_take_eq_none hfit hcount] at ha
            cases ha
          · rw [List.take_of_length_le (Nat.le_of_not_lt hcount), decode_encode_self hfit] at ha
            cases ha
            rw [hapart f' hf' f hf hkey]
        · rw [if_neg hkey] at ha
          exact hsame f' hf' a ha

end Cache

end FileGraph
