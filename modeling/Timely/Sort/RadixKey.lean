/-
  Timely/Sort/RadixKey.lean
  =========================
  **Radix keys and their bytes** (`sort/src/lib.rs`).
-/
import Mathlib.Data.Nat.Digits.Lemmas
import Mathlib.Tactic.Common

set_option linter.unusedSectionVars false

namespace Timely.Sort

/-- An unsigned integer fit for use as a radix key. -/
class Unsigned (U : Type) where
  bytes : ℕ
  as_u64 : U → ℕ
  bytes_pos : 0 < bytes
  as_u64_lt : ∀ u, as_u64 u < 256 ^ bytes

instance unsigned_u8 : Unsigned UInt8 := ⟨1, UInt8.toNat, by decide, UInt8.toNat_lt⟩

instance unsigned_u16 : Unsigned UInt16 := ⟨2, UInt16.toNat, by decide, UInt16.toNat_lt⟩

instance unsigned_u32 : Unsigned UInt32 := ⟨4, UInt32.toNat, by decide, UInt32.toNat_lt⟩

/-- Also for `usize`, where it has 64 bits. -/
instance unsigned_u64 : Unsigned UInt64 := ⟨8, UInt64.toNat, by decide, UInt64.toNat_lt⟩

/-- The number that elements are sorted by. -/
def radix {T U : Type} [Unsigned U] (key : T → U) (element : T) : ℕ :=
  Unsigned.as_u64 (key element)

/-- The byte of an element that a pass looks at. -/
def byte_at {T U : Type} [Unsigned U] (key : T → U) (byte : ℕ) (element : T) : Fin 256 :=
  ⟨(radix key element >>> (8 * byte)) % 256, Nat.mod_lt _ (by decide)⟩

/-- The least significant byte. -/
def low_byte {T U : Type} [Unsigned U] (key : T → U) (element : T) : Fin 256 :=
  ⟨radix key element % 256, Nat.mod_lt _ (by decide)⟩

/-- The byte of an element that the most significant byte sorters look at. -/
def masked_byte {T U : Type} [Unsigned U] (key : T → U) (depth : ℕ) (element : T) : Fin 256 :=
  ⟨(radix key element >>> (8 * depth)) &&& 0xFF, Nat.lt_of_le_of_lt Nat.and_le_right (by decide)⟩

section Bytes

variable {T U : Type} [Unsigned U] (key : T → U)

theorem radix_lt (element : T) : radix key element < 256 ^ Unsigned.bytes U :=
  Unsigned.as_u64_lt _

theorem byte_at_val (byte : ℕ) (element : T) :
    (byte_at key byte element : ℕ) = radix key element / 256 ^ byte % 256 := by
  simp only [byte_at, Nat.shiftRight_eq_div_pow, Nat.pow_mul]

theorem low_byte_eq : low_byte key = byte_at key 0 := by
  funext element
  simp [low_byte, byte_at]

theorem masked_byte_eq (depth : ℕ) : masked_byte key depth = byte_at key depth := by
  funext element
  exact Fin.ext (Nat.and_two_pow_sub_one_eq_mod _ 8)

/-- The lowest bytes are one byte and the bytes below. -/
theorem radix_mod_succ (byte : ℕ) (element : T) :
    radix key element % 256 ^ (byte + 1)
      = radix key element % 256 ^ byte + 256 ^ byte * byte_at key byte element := by
  rw [Nat.mod_pow_succ, byte_at_val]

/-- The bytes above are those above the next one, and the next one. -/
theorem radix_div_eq (byte : ℕ) (element : T) :
    radix key element / 256 ^ byte
      = 256 * (radix key element / 256 ^ (byte + 1)) + byte_at key byte element := by
  rw [byte_at_val, Nat.pow_succ, ← Nat.div_div_eq_div_mul]
  exact (Nat.div_add_mod _ 256).symm

end Bytes

end Timely.Sort
