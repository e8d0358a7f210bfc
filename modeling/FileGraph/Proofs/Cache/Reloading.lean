import FileGraph.Proofs.Cache.Lookup
import FileGraph.Proofs.Cache.Truncation
/-!
# Reloading — a file of the folder gives its analysis or none

Storing writes the bytes of the analysis into the folder (`read?_store`).  Whatever comes after these bytes later, the
file gives the analysis that was stored, and once it has been cut short it gives none: then a cache that misses in
memory finds nothing and stays as it is (`file_exact_or_none`).
-/
namespace FileGraph

open Source

namespace Cache

variable {a : Analysis} {folder key : String} {s : Storage}

/-- A strict start of a written analysis is not read. -/
theorem decode_of_prefix (h : Fits a) {bs : List UInt8} (hstart : bs <+: encode a) (hne : bs ≠ encode a) :
    decode bs = none := by
  have hlength : bs.length < (encode a).length :=
    Nat.lt_of_le_of_ne hstart.length_le fun heq => hne (hstart.eq_of_length heq)
  rw [List.prefix_iff_eq_take.1 hstart]
  exact decode_take_eq_none h hlength

/-- A store that the folder takes writes the bytes of the analysis. -/
theorem read?_store {c : Cache} (hfolder : c.folder = some folder) (htaken : (c.store s key a).2.2 = true) :
    (c.store s key a).2.1.read? folder (fileName key) = some (encode a) := by
  unfold store at htaken ⊢
  simp only [hfolder] at htaken ⊢
  cases hwrite : s.write? folder (fileName key) (encode a) with
  | none => rw [hwrite] at htaken; cases htaken
  | some s' => simp [read?_write? hwrite]

/-- What a look-up that misses in memory makes of the file in the folder. -/
theorem get_of_read? {c : Cache} (hfolder : c.folder = some folder) (hmiss : c.memory.get? key = none)
    {bs : List UInt8} (hfile : s.read? folder (fileName key) = some bs) :
    c.get s key =
      match decode bs with
      | some a => (some a, if c.memory.size < capacity then { c with memory := c.memory.insert key a } else c)
      | none => (none, c) := by
  have hkept : kept? c.folder s key = decode bs := by
    rw [hfolder, kept?, Option.bind_some, hfile, Option.bind_some]
  unfold get
  cases hdecode : decode bs <;> simp [hmiss, hkept, hdecode]

/-- **A file is read back exactly, or not at all.**  The bytes of an analysis give that analysis, whatever follows them,
and no strict start of them gives any.  These are the bytes that a store writes; and a cache that misses in memory finds
the analysis in a file that begins with them, while it finds nothing in a file that has been cut short, and does not
change then. -/
theorem file_exact_or_none (h : Fits a) :
    (∀ rest, decode (encode a ++ rest) = some a) ∧
      (∀ bs, bs <+: encode a → bs ≠ encode a → decode bs = none) ∧
      ∀ (folder key : String),
        (∀ (writer : Cache) (s : Storage), writer.folder = some folder → (writer.store s key a).2.2 = true →
          (writer.store s key a).2.1.read? folder (fileName key) = some (encode a)) ∧
        ∀ (reader : Cache) (s : Storage), reader.folder = some folder → reader.memory.get? key = none →
          (∀ rest, s.read? folder (fileName key) = some (encode a ++ rest) →
            reader.get s key = (some a,
              if reader.memory.size < capacity then { reader with memory := reader.memory.insert key a }
              else reader)) ∧
          ∀ bs, bs <+: encode a → bs ≠ encode a → s.read? folder (fileName key) = some bs →
            reader.get s key = (none, reader) := by
  refine ⟨decode_encode h, fun bs => decode_of_prefix h, fun folder key => ⟨?_, ?_⟩⟩
  · intro writer s hfolder htaken
    exact read?_store hfolder htaken
  · intro reader s hfolder hmiss
    constructor
    · intro rest hfile
      rw [get_of_read? hfolder hmiss hfile, decode_encode h]
    · intro bs hstart hne hfile
      rw [get_of_read? hfolder hmiss hfile, decode_of_prefix h hstart hne]

/-- Names beyond ASCII, a number that fills its word, and the same import twice. -/
def accentedAnalysis : Analysis :=
  ⟨.ofList [("é", ⟨2 ^ 64 - 1, 1⟩), ("b", ⟨7, 0⟩)], ["./é", "", "./é"]⟩

/-- The file of one store is read with a byte too many, and not with its last byte missing; a cut within the first
letter of a name is one of the others. -/
theorem file_exact_or_none_accented :
    let writer : Cache := ⟨.empty, some "cache"⟩
    let s : Storage := .ofFolder "cache" .empty
    let bytes := encode accentedAnalysis
    Fits accentedAnalysis ∧
      (writer.store s "k" accentedAnalysis).2.1.read? "cache" (fileName "k") = some bytes ∧
      decode (bytes ++ [0xff]) = some accentedAnalysis ∧ decode bytes.dropLast = none ∧
      (∀ s, s.read? "cache" (fileName "k") = some (bytes.take 42) → writer.get s "k" = (none, writer)) ∧
      bytes.length = 99 := by
  intro writer s bytes
  have hfits : Fits accentedAnalysis := by decide +kernel
  obtain ⟨hread, hcut, hcache⟩ := file_exact_or_none hfits
  have hlength : bytes.length = 99 := by decide +kernel
  have hstrict : ∀ k < 99, bytes.take k <+: bytes ∧ bytes.take k ≠ bytes := by
    intro k hk
    refine ⟨List.take_prefix k bytes, fun heq => ?_⟩
    have := congrArg List.length heq
    rw [List.length_take, hlength] at this
    omega
  refine ⟨hfits, ?_, hread [0xff], ?_, fun s' hfile => ?_, hlength⟩
  · exact (hcache "cache" "k").1 writer s rfl (by decide +kernel)
  · rw [List.dropLast_eq_take, hlength]
    exact hcut _ (hstrict 98 (by decide)).1 (hstrict 98 (by decide)).2
  · exact ((hcache "cache" "k").2 writer s' rfl rfl).2 _ (hstrict 42 (by decide)).1 (hstrict 42 (by decide)).2 hfile

end Cache

end FileGraph
