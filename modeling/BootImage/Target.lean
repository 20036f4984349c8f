import Mathlib

/-! The target ABI of one build of the writer (`target.h`): host and target word
sizes, the two byte orders and the byte swaps `TARGET_V2` .. `TARGET_VW`, with the
runtime's rounding helper `ceiling`. Word sizes are 4 or 8 bytes, and this snapshot
builds only where the two are one size. -/
namespace BootImage

/-- `ceiling(n, d)` of the runtime: `n / d` rounded up. -/
def ceiling (n d : Nat) : Nat := (n + d - 1) / d

/-- Host (`BytesPerWord`) and target (`TargetBytesPerWord`) word sizes and byte
orders. The target's byte order differs from the host's exactly when `target.h`
defines `TARGET_OPPOSITE_ENDIAN`. The two word sizes agree: `makeHeapImage`'s
Visitor keeps the `uintptr_t*` heap and map it is handed in `target_uintptr_t*`
members and passes its map to `markBit(uintptr_t*, unsigned)`, which compiles only
when the two word types are one. -/
structure Abi where
  bytesPerWord : Nat
  targetBytesPerWord : Nat
  bigEndian : Bool
  targetBigEndian : Bool
  bytesPerWord_cases : bytesPerWord = 4 ∨ bytesPerWord = 8
  sameWord : targetBytesPerWord = bytesPerWord

namespace Abi

theorem targetBytesPerWord_cases (abi : Abi) :
    abi.targetBytesPerWord = 4 ∨ abi.targetBytesPerWord = 8 :=
  abi.sameWord ▸ abi.bytesPerWord_cases

/-- `BitsPerWord`. -/
def bitsPerWord (abi : Abi) : Nat := 8 * abi.bytesPerWord

/-- `TargetBitsPerWord`. -/
def targetBitsPerWord (abi : Abi) : Nat := 8 * abi.targetBytesPerWord

theorem targetBytesPerWord_pos (abi : Abi) : 0 < abi.targetBytesPerWord := by
  rcases abi.targetBytesPerWord_cases with h | h <;> omega

theorem bytesPerWord_pos (abi : Abi) : 0 < abi.bytesPerWord := by
  rcases abi.bytesPerWord_cases with h | h <;> omega

theorem bitsPerWord_pos (abi : Abi) : 0 < abi.bitsPerWord := Nat.mul_pos (by decide) abi.bytesPerWord_pos

theorem targetBitsPerWord_pos (abi : Abi) : 0 < abi.targetBitsPerWord :=
  Nat.mul_pos (by decide) abi.targetBytesPerWord_pos

end Abi

/-- An `unsigned` result: the low 32 bits. -/
def u32 (x : Nat) : Nat := x % 2 ^ 32

/-- `a - b` on `unsigned` values: below `b` it wraps around 2^32. -/
def subU (a b : Nat) : Nat := if b ≤ a then a - b else a + 2 ^ 32 - b

theorem subU_of_le {a b : Nat} (h : b ≤ a) : subU a b = a - b := if_pos h

theorem ceiling_mul_ge (n d : Nat) (hd : 0 < d) : n ≤ ceiling n d * d := by
  unfold ceiling
  have := Nat.div_add_mod (n + d - 1) d
  have := Nat.mod_lt (n + d - 1) hd
  rw [Nat.mul_comm]
  omega

theorem ceiling_mul (k d : Nat) (hd : 0 < d) : ceiling (k * d) d = k := by
  unfold ceiling
  rw [show k * d + d - 1 = (d - 1) + d * k by rw [Nat.mul_comm]; omega,
    Nat.add_mul_div_left _ _ hd, Nat.div_eq_of_lt (by omega), Nat.zero_add]

theorem lt_ceiling_of_lt_mul {i n d : Nat} (hd : 0 < d) (h : i < n) : i / d < ceiling n d := by
  have := ceiling_mul_ge n d hd
  exact (Nat.div_lt_iff_lt_mul hd).mpr (by omega)

/-! ### Byte orders -/

/-- The `width` low bytes of `value`, least significant first. -/
def littleEndian (value : Nat) : Nat → List UInt8
  | 0 => []
  | width + 1 => UInt8.ofNat value :: littleEndian (value / 256) width

/-- The value of bytes stored least significant first. -/
def fromLittleEndian : List UInt8 → Nat
  | [] => 0
  | b :: bs => b.toNat + 256 * fromLittleEndian bs

/-- The `width` bytes of `value` in memory, in one byte order. -/
def bytesOf (bigEndian : Bool) (width value : Nat) : List UInt8 :=
  if bigEndian then (littleEndian value width).reverse else littleEndian value width

/-- The value of bytes read from memory in one byte order. -/
def valueOf (bigEndian : Bool) (bytes : List UInt8) : Nat :=
  fromLittleEndian (if bigEndian then bytes.reverse else bytes)

@[simp] theorem length_littleEndian (value width : Nat) :
    (littleEndian value width).length = width := by
  induction width generalizing value with
  | zero => rfl
  | succ width ih => simp [littleEndian, ih]

@[simp] theorem length_bytesOf (bigEndian : Bool) (width value : Nat) :
    (bytesOf bigEndian width value).length = width := by
  cases bigEndian <;> simp [bytesOf]

theorem toNat_ofNat_byte (n : Nat) : (UInt8.ofNat n).toNat = n % 256 := rfl

theorem byte_toNat_lt (b : UInt8) : b.toNat < 256 := b.toBitVec.isLt

theorem byte_ext {a b : UInt8} (h : a.toNat = b.toNat) : a = b := UInt8.eq_of_val_eq (Fin.ext h)

theorem fromLittleEndian_littleEndian (value width : Nat) :
    fromLittleEndian (littleEndian value width) = value % 256 ^ width := by
  induction width generalizing value with
  | zero => simp [littleEndian, fromLittleEndian, Nat.mod_one]
  | succ width ih =>
      simp only [littleEndian, fromLittleEndian, ih, toNat_ofNat_byte, Nat.pow_succ,
        Nat.mod_mul, Nat.mul_comm]

theorem littleEndian_fromLittleEndian (bytes : List UInt8) :
    littleEndian (fromLittleEndian bytes) bytes.length = bytes := by
  induction bytes with
  | nil => rfl
  | cons b bs ih =>
      have hb := byte_toNat_lt b
      show UInt8.ofNat (b.toNat + 256 * fromLittleEndian bs) ::
          littleEndian ((b.toNat + 256 * fromLittleEndian bs) / 256) bs.length = b :: bs
      rw [show (b.toNat + 256 * fromLittleEndian bs) / 256 = fromLittleEndian bs by omega, ih]
      exact congrArg (· :: bs) (byte_ext (by rw [toNat_ofNat_byte]; omega))

theorem fromLittleEndian_lt (bytes : List UInt8) : fromLittleEndian bytes < 256 ^ bytes.length := by
  induction bytes with
  | nil => simp [fromLittleEndian]
  | cons b bs ih =>
      have := byte_toNat_lt b
      simp only [fromLittleEndian, List.length_cons, Nat.pow_succ]
      omega

theorem valueOf_bytesOf (bigEndian : Bool) (width value : Nat) :
    valueOf bigEndian (bytesOf bigEndian width value) = value % 256 ^ width := by
  cases bigEndian <;> simp [valueOf, bytesOf, fromLittleEndian_littleEndian]

theorem bytesOf_valueOf (bigEndian : Bool) (bytes : List UInt8) :
    bytesOf bigEndian bytes.length (valueOf bigEndian bytes) = bytes := by
  cases bigEndian
  · exact littleEndian_fromLittleEndian bytes
  · simpa [bytesOf, valueOf] using congrArg List.reverse (littleEndian_fromLittleEndian bytes.reverse)

theorem valueOf_lt (bigEndian : Bool) (bytes : List UInt8) :
    valueOf bigEndian bytes < 256 ^ bytes.length := by
  cases bigEndian
  · exact fromLittleEndian_lt bytes
  · simpa [valueOf] using fromLittleEndian_lt bytes.reverse

/-! ### The byte swaps of `target.h` -/

/-- Reverse the byte order of a `width`-byte value. -/
def swapBytes (width value : Nat) : Nat := fromLittleEndian (littleEndian value width).reverse

namespace Abi

/-- `TARGET_V2`, `TARGET_V4`, `TARGET_V8`: the host value whose in-memory bytes
are the target's bytes of `value`. -/
def targetV (abi : Abi) (width value : Nat) : Nat :=
  if abi.bigEndian = abi.targetBigEndian then value else swapBytes width value

/-- The conversion of a host `intptr_t` to a `target_intptr_t`: truncation to a
narrower target word, sign extension to a wider one. -/
def toTargetWord (abi : Abi) (value : Nat) : Nat :=
  if abi.targetBytesPerWord ≤ abi.bytesPerWord then value % 256 ^ abi.targetBytesPerWord
  else if value < 2 ^ (8 * abi.bytesPerWord - 1) then value
  else value + 256 ^ abi.targetBytesPerWord - 256 ^ abi.bytesPerWord

/-- `TARGET_VW`: `targetV` at the target word size, after the width conversion. -/
def targetVW (abi : Abi) (value : Nat) : Nat :=
  abi.targetV abi.targetBytesPerWord (abi.toTargetWord value)

/-- Copying a swapped value in host byte order writes the value's bytes in the
target byte order. This is why `copy` needs no other knowledge of the target. -/
theorem bytesOf_targetV (abi : Abi) (width value : Nat) :
    bytesOf abi.bigEndian width (abi.targetV width value) =
      bytesOf abi.targetBigEndian width value := by
  unfold targetV swapBytes
  have hlen : (littleEndian value width).reverse.length = width := by simp
  split
  · next h => rw [h]
  · next h =>
      have hround := littleEndian_fromLittleEndian (littleEndian value width).reverse
      rw [hlen] at hround
      cases hb : abi.bigEndian <;> cases ht : abi.targetBigEndian <;> simp_all [bytesOf]

/-- A 32-bit little-endian host building for the same target. -/
def native32 : Abi := ⟨4, 4, false, false, .inl rfl, rfl⟩

/-- A 32-bit little-endian host building for a 32-bit big-endian target. -/
def bigEndian32 : Abi := ⟨4, 4, false, true, .inl rfl, rfl⟩

end Abi

end BootImage
