import BootImage.Builder

/-! Where an object's data goes in the image. `typeMap` finds an object's TypeMap
(keyed by the object itself for a singleton, by its class otherwise), `targetOffset`
maps a build byte offset of the object to a target byte offset, and `targetSize`
gives the object's target size in words, trailing array and masks included. -/
namespace BootImage

/-- The VM state the writer reads (machine.h is not under src/). Objects are
host addresses and 0 is null; `body p` holds the host bytes of `p` from its start. -/
structure Runtime where
  objectClass : Nat → Nat
  body : Nat → Memory
  /-- `type(t, Machine::ClassType)`. -/
  classType : Nat
  /-- `type(t, Machine::SingletonType)`. -/
  singletonType : Nat
  /-- `instanceOf(t, type(t, Machine::SystemClassLoaderType), p)`. -/
  isSystemClassLoader : Nat → Bool
  /-- `ClassStaticTable`: the host byte offset of a class's static-table field. -/
  classStaticTable : Nat

/-- The writer's `typeMaps` hash map, newest entry first. -/
abbrev TypeMaps := List (Nat × TypeMap)

/-- Modelled from the spec: `singleton_mask_size(count, bits_per_word)`, the
runtime helper (machine.h is not under src/). A singleton's object mask has a bit
for each of its `count` body words and its two header words. -/
def singletonMaskSize (count bitsPerWord : Nat) : Nat :=
  if count = 0 then 0 else ceiling (count + 2) bitsPerWord

/-- Modelled from the spec: `pool_mask_size(count, bits_per_word)`, the runtime
helper (machine.h is not under src/): one bit for each of `count` pool entries. -/
def poolMaskSize (count bitsPerWord : Nat) : Nat := ceiling count bitsPerWord

namespace Runtime

variable (rt : Runtime)

/-- The key `typeMap` looks an object up by. -/
def typeMapKey (p : Nat) : Nat :=
  if rt.objectClass p = rt.singletonType then p else rt.objectClass p

/-- `typeMap`: `none` where `hashMapFind` finds nothing and the source goes on
with a pointer into a null array. -/
def typeMap (typeMaps : TypeMaps) (p : Nat) : Option TypeMap :=
  typeMaps.lookup (rt.typeMapKey p)

theorem typeMap_mem {typeMaps : TypeMaps} {p : Nat} {m : TypeMap}
    (h : rt.typeMap typeMaps p = some m) : (rt.typeMapKey p, m) ∈ typeMaps := by
  obtain ⟨l₁, l₂, rfl, -⟩ := List.lookup_eq_some_iff.mp h
  simp

/-- `cast<uintptr_t>(p, offset)`: a host word of `p`, in host byte order. -/
def hostWord (abi : Abi) (p offset : Nat) : Nat :=
  valueOf abi.bigEndian ((rt.body p).read offset abi.bytesPerWord)

/-- The tail array's length, which the last host word of the fixed part holds. -/
def arrayLength (abi : Abi) (m : TypeMap) (p : Nat) : Nat :=
  rt.hostWord abi p ((m.buildFixedSizeInWords - 1) * abi.bytesPerWord)

end Runtime

namespace TypeMap

variable (abi : Abi) (m : TypeMap)

/-- The `targetOffset` of a map: tail-array offsets by element index, fixed-part
offsets through the table. -/
def targetOffset (offset : Nat) : Nat :=
  if m.targetArrayElementSizeInBytes ≠ 0 ∧ m.buildFixedSizeInWords * abi.bytesPerWord ≤ offset then
    m.targetFixedSizeInWords * abi.targetBytesPerWord
      + (offset - m.buildFixedSizeInWords * abi.bytesPerWord) / m.buildArrayElementSizeInBytes
        * m.targetArrayElementSizeInBytes
  else m.targetFixedOffsets offset

/-- The `targetSize` of a map for a tail array of `length` elements, in target
words: the fixed part, then the array or the trailing masks. The body's word count
`targetFixedSizeInWords - 2` is `unsigned` and wraps below 2. -/
def targetSize (length : Nat) : Nat :=
  if m.targetArrayElementSizeInBytes ≠ 0 then
    m.targetFixedSizeInWords
      + ceiling (m.targetArrayElementSizeInBytes * length) abi.targetBytesPerWord
  else
    match m.kind with
    | .normalKind => m.targetFixedSizeInWords
    | .singletonKind => m.targetFixedSizeInWords
        + singletonMaskSize (subU m.targetFixedSizeInWords 2) abi.targetBitsPerWord
    | .poolKind =>
        m.targetFixedSizeInWords + poolMaskSize (subU m.targetFixedSizeInWords 2) abi.targetBitsPerWord
          + singletonMaskSize (subU m.targetFixedSizeInWords 2
              + poolMaskSize (subU m.targetFixedSizeInWords 2) abi.targetBitsPerWord)
            abi.targetBitsPerWord

theorem targetFixedSizeInWords_le_targetSize (length : Nat) :
    m.targetFixedSizeInWords ≤ m.targetSize abi length := by
  unfold targetSize
  split
  · omega
  · split <;> omega

end TypeMap

namespace Runtime

variable (rt : Runtime) (abi : Abi) (typeMaps : TypeMaps)

/-- `targetOffset(t, typeMaps, p, offset)`. -/
def targetOffset (p offset : Nat) : Option Nat :=
  (rt.typeMap typeMaps p).map fun m => m.targetOffset abi offset

/-- `targetSize(t, typeMaps, p)`. -/
def targetSize (p : Nat) : Option Nat :=
  (rt.typeMap typeMaps p).map fun m => m.targetSize abi (rt.arrayLength abi m p)

end Runtime

end BootImage
