import FileGraph.Bytes
import Mathlib.Algebra.Ring.Nat
/-!
# Bytes — what is written is read back
-/
namespace FileGraph.Bytes

theorem takeNumber?_littleEndian : ∀ (n x : Nat) (rest : List UInt8),
    takeNumber? n (littleEndian n x ++ rest) = some (x % 256 ^ n, rest)
  | 0, x, rest => by rw [Nat.pow_zero, Nat.mod_one]; rfl
  | n + 1, x, rest => by
    have ih := takeNumber?_littleEndian n (x / 256) rest
    have hmod : x % 256 ^ (n + 1) = x % 256 + 256 * (x / 256 % 256 ^ n) := by
      rw [Nat.pow_succ, Nat.mul_comm, Nat.mod_mul]
    rw [littleEndian, List.cons_append, takeNumber?, ih, Option.map_some, UInt8.toNat_ofNat', hmod]

theorem take?_append : ∀ (bs rest : List UInt8), take? bs.length (bs ++ rest) = some (bs, rest)
  | [], _ => rfl
  | b :: bs, rest => by rw [List.length_cons, List.cons_append, take?, take?_append bs rest, Option.map_some]

end FileGraph.Bytes
