import Mathlib.Data.BitVec

/-! Fixed-width numbers as little-endian byte strings. -/
namespace LittleEndian

abbrev Byte := BitVec 8

/-- The `k` low bytes of `n`. -/
def bytes : ℕ → ℕ → List Byte
  | 0, _ => []
  | k + 1, n => BitVec.ofNat 8 n :: bytes k (n / 256)

def value : List Byte → ℕ
  | [] => 0
  | b :: bs => b.toNat + 256 * value bs

variable (k n : ℕ)

@[simp] theorem length_bytes : (bytes k n).length = k := by
  induction k generalizing n with
  | zero => rfl
  | succ k ih => rw [bytes, List.length_cons, ih]

theorem value_bytes : value (bytes k n) = n % 256 ^ k := by
  induction k generalizing n with
  | zero => simp [bytes, value, Nat.mod_one]
  | succ k ih =>
    calc value (bytes (k + 1) n)
        = n % 2 ^ 8 + 256 * (n / 256 % 256 ^ k) := by rw [bytes, value, ih, BitVec.toNat_ofNat]
      _ = n % (256 * 256 ^ k) := Nat.mod_mul.symm
      _ = n % 256 ^ (k + 1) := by rw [Nat.pow_succ']

/-- Reading back a number that fits. -/
theorem value_bytes_of_lt (h : n < 256 ^ k) : value (bytes k n) = n := by
  rw [value_bytes, Nat.mod_eq_of_lt h]

theorem ofNat_value_bytes {w : ℕ} (v : BitVec w) (hw : 2 ^ w = 256 ^ k) :
    BitVec.ofNat w (value (bytes k v.toNat)) = v := by
  rw [value_bytes_of_lt _ _ (hw ▸ v.isLt), BitVec.ofNat_toNat, BitVec.setWidth_eq]

end LittleEndian
