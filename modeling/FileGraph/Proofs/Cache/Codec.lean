import FileGraph.Cache.Codec
import FileGraph.Proofs.Bytes
/-!
# Codec — an analysis is read back as it was written

Each part of an analysis is read back from the start of its bytes, whatever follows, as long as its numbers and its
lengths are words of eight bytes (`Fits`); and entries in the order of their names make the map they come from.
-/
namespace FileGraph

theorem NameMap.insertSorted_of_lt {α : Type} (name : String) (value : α) : ∀ {es : List (String × α)},
    (∀ e ∈ es, e.1 < name) → NameMap.insertSorted name value es = es ++ [(name, value)]
  | [], _ => rfl
  | e :: es, h => by
    have hlt : e.1 < name := h e List.mem_cons_self
    have hno : ¬ name < e.1 := fun h' => String.lt_irrefl _ (String.lt_trans hlt h')
    have hne : name ≠ e.1 := fun h' => String.lt_irrefl _ (h' ▸ hlt)
    rw [NameMap.insertSorted, if_neg hno, if_neg hne,
      NameMap.insertSorted_of_lt name value fun x hx => h x (List.mem_cons_of_mem _ hx), List.cons_append]

theorem NameMap.entries_foldl_insert {α : Type} : ∀ (es : List (String × α)) (m : NameMap α),
    (m.entries ++ es).Pairwise (fun a b => a.1 < b.1) →
      (es.foldl (fun m e => m.insert e.1 e.2) m).entries = m.entries ++ es
  | [], m, _ => (List.append_nil _).symm
  | e :: es, m, h => by
    have hlt : ∀ x ∈ m.entries, x.1 < e.1 := fun x hx => (List.pairwise_append.1 h).2.2 x hx e List.mem_cons_self
    have hinsert : (m.insert e.1 e.2).entries = m.entries ++ [e] := NameMap.insertSorted_of_lt e.1 e.2 hlt
    rw [List.foldl_cons, NameMap.entries_foldl_insert es, hinsert, List.append_assoc, List.singleton_append]
    rw [hinsert, List.append_assoc, List.singleton_append]
    exact h

/-- **The entries of a map make that map.** -/
theorem NameMap.ofList_entries {α : Type} (m : NameMap α) : NameMap.ofList m.entries = m :=
  NameMap.ext (NameMap.entries_foldl_insert m.entries .empty m.sorted)

namespace Cache

open Bytes Source

/-- The numbers and the lengths of an analysis are words of eight bytes. -/
structure Fits (a : Analysis) : Prop where
  functions : a.functions.size < 2 ^ 64
  names     : ∀ f ∈ a.functions.entries, f.1.utf8ByteSize < 2 ^ 64
  spans     : ∀ f ∈ a.functions.entries, f.2.firstLine < 2 ^ 64 ∧ f.2.lineCount < 2 ^ 64
  imports   : a.imports.length < 2 ^ 64
  texts     : ∀ t ∈ a.imports, t.utf8ByteSize < 2 ^ 64

instance (a : Analysis) : Decidable (Fits a) :=
  decidable_of_iff (a.functions.size < 2 ^ 64 ∧ (∀ f ∈ a.functions.entries, f.1.utf8ByteSize < 2 ^ 64) ∧
      (∀ f ∈ a.functions.entries, f.2.firstLine < 2 ^ 64 ∧ f.2.lineCount < 2 ^ 64) ∧ a.imports.length < 2 ^ 64 ∧
      ∀ t ∈ a.imports, t.utf8ByteSize < 2 ^ 64)
    ⟨fun ⟨h₁, h₂, h₃, h₄, h₅⟩ => ⟨h₁, h₂, h₃, h₄, h₅⟩, fun ⟨h₁, h₂, h₃, h₄, h₅⟩ => ⟨h₁, h₂, h₃, h₄, h₅⟩⟩

theorem decodeWord_encodeWord {x : Nat} (h : x < 2 ^ 64) (rest : List UInt8) :
    decodeWord (encodeWord x ++ rest) = some (x, rest) := by
  rw [decodeWord, encodeWord, takeNumber?_littleEndian, Nat.mod_eq_of_lt (by simpa using h)]

theorem decode?_toUTF8 (s : String) : Text.decode? s.toUTF8.data.toList = some s := by
  have hbytes : (⟨s.toUTF8.data.toList.toArray⟩ : ByteArray) = s.toByteArray := rfl
  rw [Text.decode?, hbytes, String.fromUTF8?, dif_pos s.isValidUTF8]
  rfl

theorem decodeText_encodeText {s : String} (h : s.utf8ByteSize < 2 ^ 64) (rest : List UInt8) :
    decodeText (encodeText s ++ rest) = some (s, rest) := by
  have htake : take? s.utf8ByteSize (s.toUTF8.data.toList ++ rest) = some (s.toUTF8.data.toList, rest) :=
    take?_append s.toUTF8.data.toList rest
  rw [decodeText, encodeText, List.append_assoc, decodeWord_encodeWord h]
  simp only [Option.bind_eq_bind, Option.bind_some, htake, decode?_toUTF8]
  rfl

theorem decodeFunction_encodeFunction {f : String × Span} (hname : f.1.utf8ByteSize < 2 ^ 64)
    (hspan : f.2.firstLine < 2 ^ 64 ∧ f.2.lineCount < 2 ^ 64) (rest : List UInt8) :
    decodeFunction (encodeFunction f ++ rest) = some (f, rest) := by
  rw [decodeFunction, encodeFunction, List.append_assoc, List.append_assoc, decodeText_encodeText hname]
  simp only [Option.bind_eq_bind, Option.bind_some, decodeWord_encodeWord hspan.1, decodeWord_encodeWord hspan.2]
  rfl

theorem decodeMany_flatMap {α : Type} {item : List UInt8 → Option (α × List UInt8)} {write : α → List UInt8} :
    ∀ (xs : List α) (rest : List UInt8), (∀ x ∈ xs, ∀ rest, item (write x ++ rest) = some (x, rest)) →
      decodeMany item xs.length (xs.flatMap write ++ rest) = some (xs, rest)
  | [], _, _ => rfl
  | x :: xs, rest, h => by
    have ih := decodeMany_flatMap xs rest fun y hy => h y (List.mem_cons_of_mem _ hy)
    rw [List.length_cons, List.flatMap_cons, List.append_assoc, decodeMany, h x List.mem_cons_self]
    simp only [ih, Option.map_some]

/-- **An analysis is read back**, whatever follows its bytes. -/
theorem decode_encode {a : Analysis} (h : Fits a) (rest : List UInt8) : decode (encode a ++ rest) = some a := by
  have hfunctions : ∀ tail, decodeMany decodeFunction a.functions.size
      (a.functions.entries.flatMap encodeFunction ++ tail) = some (a.functions.entries, tail) := fun tail =>
    decodeMany_flatMap a.functions.entries tail fun f hf => decodeFunction_encodeFunction (h.names f hf) (h.spans f hf)
  have himports : decodeMany decodeText a.imports.length (a.imports.flatMap encodeText ++ rest) =
      some (a.imports, rest) :=
    decodeMany_flatMap a.imports rest fun t ht => decodeText_encodeText (h.texts t ht)
  rw [decode, encode, List.append_assoc, List.append_assoc, List.append_assoc, decodeWord_encodeWord h.functions]
  simp only [Option.bind_eq_bind, Option.bind_some, hfunctions, decodeWord_encodeWord h.imports, himports,
    NameMap.ofList_entries]
  rfl

theorem decode_encode_self {a : Analysis} (h : Fits a) : decode (encode a) = some a := by
  have hread := decode_encode h []
  rwa [List.append_nil] at hread

end Cache

end FileGraph
