import FileGraph.Proofs.Cache.Codec
/-!
# Truncation — an analysis that has been cut short is not read as another

The readers of an analysis take their bytes one part after another, and each of them fails on less than its part.  So
does the whole: no strict start of a written analysis is read (`decode_take_eq_none`).
-/
namespace FileGraph

namespace Bytes

theorem length_littleEndian : ∀ (n x : Nat), (littleEndian n x).length = n
  | 0, _ => rfl
  | n + 1, x => by rw [littleEndian, List.length_cons, length_littleEndian n]

theorem takeNumber?_eq_none : ∀ {n : Nat} {bs : List UInt8}, bs.length < n → takeNumber? n bs = none
  | 0, _, h => absurd h (Nat.not_lt_zero _)
  | _ + 1, [], _ => rfl
  | n + 1, b :: bs, h => by
    have hlt : bs.length < n := Nat.lt_of_succ_lt_succ h
    rw [takeNumber?, takeNumber?_eq_none hlt, Option.map_none]

theorem take?_eq_none : ∀ {n : Nat} {bs : List UInt8}, bs.length < n → take? n bs = none
  | 0, _, h => absurd h (Nat.not_lt_zero _)
  | _ + 1, [], _ => rfl
  | n + 1, b :: bs, h => by
    have hlt : bs.length < n := Nat.lt_of_succ_lt_succ h
    rw [take?, take?_eq_none hlt, Option.map_none]

end Bytes

namespace Cache

open Bytes Source

/-- A reader fails on every strict start of some bytes. -/
def Refuses {β : Type} (reader : List UInt8 → Option β) (bs : List UInt8) : Prop :=
  ∀ k < bs.length, reader (bs.take k) = none

section Readers

variable {α β : Type} {first : List UInt8 → Option (α × List UInt8)}

/-- **Bytes in two parts**: if the first reader takes the first part and both refuse less than theirs, then one after
the other refuses less than both. -/
theorem Refuses.bind {bs bs' : List UInt8} {x : α} (hfirst : Refuses first bs)
    (hread : ∀ rest, first (bs ++ rest) = some (x, rest)) (next : α × List UInt8 → Option β)
    (hnext : Refuses (fun rest => next (x, rest)) bs') :
    Refuses (fun bs => (first bs).bind next) (bs ++ bs') := by
  intro k hk
  rw [List.length_append] at hk
  by_cases hcut : k < bs.length
  · have htake : (bs ++ bs').take k = bs.take k := List.take_append_of_le_length (Nat.le_of_lt hcut)
    simp only [htake, hfirst k hcut, Option.bind_none]
  · have htake : (bs ++ bs').take k = bs ++ bs'.take (k - bs.length) := by
      rw [List.take_append, List.take_of_length_le (Nat.le_of_not_lt hcut)]
    simp only [htake, hread, Option.bind_some]
    exact hnext (k - bs.length) (by omega)

theorem Refuses.bind_right {bs : List UInt8} (h : Refuses first bs) (next : α × List UInt8 → Option β) :
    Refuses (fun bs => (first bs).bind next) bs := by
  intro k hk
  simp only [h k hk, Option.bind_none]

theorem refuses_many {write : α → List UInt8} : ∀ (xs : List α), (∀ x ∈ xs, Refuses first (write x)) →
    (∀ x ∈ xs, ∀ rest, first (write x ++ rest) = some (x, rest)) →
      Refuses (decodeMany first xs.length) (xs.flatMap write)
  | [], _, _ => fun k hk => absurd hk (Nat.not_lt_zero k)
  | x :: xs, hcut, hread => by
    have ih := refuses_many xs (fun y hy => hcut y (List.mem_cons_of_mem _ hy))
      fun y hy => hread y (List.mem_cons_of_mem _ hy)
    have hmore : Refuses (fun rest => (decodeMany first xs.length rest).map fun p => (x :: p.1, p.2))
        (xs.flatMap write) := by
      intro k hk
      simp only [ih k hk, Option.map_none]
    have hboth := Refuses.bind (hcut x List.mem_cons_self) (hread x List.mem_cons_self)
      (fun p => (decodeMany first xs.length p.2).map fun q => (p.1 :: q.1, q.2)) hmore
    intro k hk
    -- `decodeMany` looks at its first item by a match, and `hboth` by a bind
    have hnone := hboth k hk
    rw [List.length_cons, decodeMany]
    cases hitem : first ((List.flatMap write (x :: xs)).take k) with
    | none => rfl
    | some p =>
      rw [List.flatMap_cons] at hitem
      simp only [hitem, Option.bind_some] at hnone
      exact hnone

end Readers

theorem refuses_word (x : Nat) : Refuses decodeWord (encodeWord x) := by
  intro k hk
  rw [encodeWord, length_littleEndian] at hk
  refine takeNumber?_eq_none ?_
  rw [encodeWord, List.length_take, length_littleEndian]
  omega

theorem refuses_text {s : String} (h : s.utf8ByteSize < 2 ^ 64) : Refuses decodeText (encodeText s) := by
  have hbytes : Refuses (take? s.utf8ByteSize) s.toUTF8.data.toList := by
    intro k hk
    have hsize : s.toUTF8.data.toList.length = s.utf8ByteSize := rfl
    refine take?_eq_none ?_
    rw [List.length_take]
    omega
  exact Refuses.bind (refuses_word _) (decodeWord_encodeWord h) _ (hbytes.bind_right _)

theorem refuses_function {f : String × Span} (hname : f.1.utf8ByteSize < 2 ^ 64)
    (hspan : f.2.firstLine < 2 ^ 64 ∧ f.2.lineCount < 2 ^ 64) : Refuses decodeFunction (encodeFunction f) := by
  rw [encodeFunction, List.append_assoc]
  refine Refuses.bind (refuses_text hname) (decodeText_encodeText hname) _ ?_
  exact Refuses.bind (refuses_word _) (decodeWord_encodeWord hspan.1) _ ((refuses_word _).bind_right _)

/-- **No strict start of a written analysis is read.** -/
theorem decode_take_eq_none {a : Analysis} (h : Fits a) {k : Nat} (hk : k < (encode a).length) :
    decode ((encode a).take k) = none := by
  have hfunctions : Refuses (decodeMany decodeFunction a.functions.size)
      (a.functions.entries.flatMap encodeFunction) :=
    refuses_many _ (fun f hf => refuses_function (h.names f hf) (h.spans f hf))
      fun f hf => decodeFunction_encodeFunction (h.names f hf) (h.spans f hf)
  have hreadFunctions : ∀ rest, decodeMany decodeFunction a.functions.size
      (a.functions.entries.flatMap encodeFunction ++ rest) = some (a.functions.entries, rest) := fun rest =>
    decodeMany_flatMap _ rest fun f hf => decodeFunction_encodeFunction (h.names f hf) (h.spans f hf)
  have himports : Refuses (decodeMany decodeText a.imports.length) (a.imports.flatMap encodeText) :=
    refuses_many _ (fun t ht => refuses_text (h.texts t ht)) fun t ht => decodeText_encodeText (h.texts t ht)
  have hall : Refuses decode (encode a) := by
    rw [encode, List.append_assoc, List.append_assoc]
    refine Refuses.bind (refuses_word _) (decodeWord_encodeWord h.functions) _ ?_
    refine Refuses.bind hfunctions hreadFunctions _ ?_
    exact Refuses.bind (refuses_word _) (decodeWord_encodeWord h.imports) _ (himports.bind_right _)
  exact hall k hk

end Cache

end FileGraph
