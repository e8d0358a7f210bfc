import FileGraph.Cache.Basic
/-!
# FileName — keys are good names

A digest consists of 64 hexadecimal digits, so that the file of a key has a name that every folder accepts.
-/
namespace FileGraph

namespace Digest

/-- The hexadecimal digits. -/
def digits : List Char := "0123456789abcdef".toList

theorem mem_digits_of_mem_hexByte (b : UInt8) : ∀ c ∈ hexByte b, c ∈ digits := by
  have hdigit : ∀ n < 16, Nat.digitChar n ∈ digits := by decide
  have hb : b.toNat < 256 := b.toNat_lt
  intro c hc
  rw [hexByte, List.mem_cons, List.mem_singleton] at hc
  rcases hc with rfl | rfl
  · exact hdigit _ (by omega)
  · exact hdigit _ (by omega)

theorem length_bigEndian : ∀ (n x : Nat), (bigEndian n x).length = n
  | 0, _ => rfl
  | n + 1, x => by rw [bigEndian, List.length_cons, length_bigEndian n x]

theorem length_flatMap_of_forall {α β : Type} (f : α → List β) (k : Nat) : ∀ (xs : List α),
    (∀ x ∈ xs, (f x).length = k) → (xs.flatMap f).length = xs.length * k
  | [], _ => by simp
  | x :: xs, h => by
    rw [List.flatMap_cons, List.length_append, h x List.mem_cons_self,
      length_flatMap_of_forall f k xs fun y hy => h y (List.mem_cons_of_mem _ hy), List.length_cons, Nat.add_mul]
    omega

theorem mem_digits_of_mem_sha256 (message : List UInt8) : ∀ c ∈ (sha256 message).toList, c ∈ digits := by
  intro c hc
  rw [sha256, String.toList_ofList, List.mem_flatMap] at hc
  obtain ⟨b, -, hb⟩ := hc
  exact mem_digits_of_mem_hexByte b c hb

theorem length_sha256 (message : List UInt8) : (sha256 message).toList.length = 64 := by
  rw [sha256, String.toList_ofList, length_flatMap_of_forall hexByte 2 _ fun _ _ => rfl,
    length_flatMap_of_forall _ 4 _ fun w _ => length_bigEndian 4 w.toNat]
  rfl

end Digest

/-- A text of characters of one byte has as many bytes as characters. -/
theorem utf8ByteSize_of_forall {s : String} (h : ∀ c ∈ s.toList, c.utf8Size = 1) :
    s.utf8ByteSize = s.toList.length := by
  have hbytes : s.toByteArray = s.toList.utf8Encode := by
    rw [← String.toByteArray_ofList, String.ofList_toList]
  have hsize : ∀ cs : List Char, (∀ c ∈ cs, c.utf8Size = 1) →
      (cs.flatMap String.utf8EncodeChar).length = cs.length := by
    intro cs hcs
    rw [Digest.length_flatMap_of_forall _ 1 _ fun c hc => (String.length_utf8EncodeChar c).trans (hcs c hc),
      Nat.mul_one]
  rw [← String.size_toByteArray, hbytes, List.utf8Encode, List.size_toByteArray, hsize s.toList h]

theorem Cache.isFileName_fileName (language : Language) (content : String) :
    Storage.isFileName (fileName (key language content)) = true := by
  have hdigits : ∀ c ∈ (key language content).toList, c ∈ Digest.digits :=
    Digest.mem_digits_of_mem_sha256 (language.tag.toUTF8.data.toList ++ 0 :: content.toUTF8.data.toList)
  have hlength : (key language content).toList.length = 64 :=
    Digest.length_sha256 (language.tag.toUTF8.data.toList ++ 0 :: content.toUTF8.data.toList)
  have hgood : ∀ c ∈ Digest.digits, (c != '/' && c != '\x00') = true := List.all_eq_true.1 (by decide)
  have hone : ∀ c ∈ Digest.digits, (c.utf8Size == 1) = true := List.all_eq_true.1 (by decide)
  have hchars : (fileName (key language content)).toList =
      "analysis_".toList ++ (key language content).toList ++ ".bincode".toList := by
    rw [fileName, String.toList_append, String.toList_append]
  have hsize : (fileName (key language content)).utf8ByteSize = 81 := by
    have hkey := utf8ByteSize_of_forall fun c hc => beq_iff_eq.1 (hone c (hdigits c hc))
    rw [fileName, String.utf8ByteSize_append, String.utf8ByteSize_append, hkey, hlength]
    rfl
  have hhead : (fileName (key language content)).toList.head? = some 'a' := by
    rw [hchars]
    rfl
  have hne : ∀ s : String, s.toList.head? ≠ some 'a' → fileName (key language content) ≠ s := by
    rintro s hs rfl
    exact hs hhead
  have hall : (fileName (key language content)).toList.all (fun c => c != '/' && c != '\x00') = true := by
    rw [hchars, List.all_append, List.all_append, List.all_eq_true.2 fun c hc => hgood c (hdigits c hc)]
    rfl
  rw [Storage.isFileName, hall, hsize, bne_iff_ne.2 (hne "" (by decide)), bne_iff_ne.2 (hne "." (by decide)),
    bne_iff_ne.2 (hne ".." (by decide))]
  rfl

end FileGraph
