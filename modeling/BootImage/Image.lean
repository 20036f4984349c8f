import BootImage.Patching

/-! The heap sections of the image. `makeHeapImage` records the heap size from the
visitor's final position, and `writeBootImage2` writes `pad(heapMapSize(heapSize))`
bytes of the heap map and then `pad(heapSize)` bytes of the heap buffer. The position
counts target words and the size is taken in host words, which this snapshot's one
word size makes the same. -/
namespace BootImage

variable (abi : Abi)

/-- `image->heapSize = visitor.position * BytesPerWord`. -/
def heapSize (position : Nat) : Nat := position * abi.bytesPerWord

/-- Modelled from the spec: the runtime's `pad` (common.h is not under src/), a
byte count rounded up to a host word. -/
def pad (n : Nat) : Nat := ceiling n abi.bytesPerWord * abi.bytesPerWord

/-- Modelled from the spec: the runtime's `heapMapSize` (heap.h is not under src/),
the bytes of a bitmap with one bit for each host word of a heap of `n` bytes. -/
def heapMapSize (n : Nat) : Nat := ceiling n (abi.bitsPerWord * abi.bytesPerWord) * abi.bytesPerWord

/-- The heap section: `pad(heapSize)` bytes of the buffer from its start. -/
def heapSection (heap : Memory) (position : Nat) : List UInt8 :=
  heap.read 0 (pad abi (heapSize abi position))

/-- The heap map section: `pad(heapMapSize(heapSize))` bytes of the map. -/
def heapMapSection (map : Nat → Bool) (position : Nat) : List UInt8 :=
  (mapBytes abi map).read 0 (pad abi (heapMapSize abi (heapSize abi position)))

variable {abi}

theorem pad_mul_bytesPerWord (n : Nat) : pad abi (n * abi.bytesPerWord) = n * abi.bytesPerWord := by
  rw [pad, ceiling_mul n _ abi.bytesPerWord_pos]

/-- The heap section is exactly the target words `[0, position)` of the buffer. -/
theorem heapSection_eq (heap : Memory) (position : Nat) :
    heapSection abi heap position = heap.read 0 (position * abi.targetBytesPerWord) := by
  rw [heapSection, heapSize, pad_mul_bytesPerWord, abi.sameWord]

theorem ceiling_mul_mul (n b d : Nat) (hb : 0 < b) (hd : 0 < d) :
    ceiling (n * d) (b * d) = ceiling n b := by
  unfold ceiling
  rw [Nat.mul_comm b d, ← Nat.div_div_eq_div_mul]
  congr 1
  have hsplit : (n + b - 1) * d + d = n * d + d * b := by
    rw [← Nat.succ_mul, Nat.succ_eq_add_one, Nat.sub_add_cancel (by omega), Nat.add_mul,
      Nat.mul_comm d b]
  apply Nat.div_eq_of_lt_le
  · omega
  · rw [Nat.succ_mul]; omega

/-- The heap map section is the map's first `ceiling(position, TargetBitsPerWord)`
target words. -/
theorem heapMapSection_eq (map : Nat → Bool) (position : Nat) :
    heapMapSection abi map position =
      (mapBytes abi map).read 0 (ceiling position abi.targetBitsPerWord * abi.targetBytesPerWord) := by
  rw [heapMapSection, heapMapSize, heapSize,
    ceiling_mul_mul _ _ _ abi.bitsPerWord_pos abi.bytesPerWord_pos,
    pad_mul_bytesPerWord, Abi.targetBitsPerWord, Abi.bitsPerWord, abi.sameWord]

/-- `x` (100), of class 300, declares `byte b` at host offset 4 holding 1 and `int i`
at 8 holding 7; classes are of class 500. -/
def gapRuntime : Runtime where
  objectClass p := if p = 100 then 300 else 500
  body p := if p = 100 then Memory.write (fun _ => 0) 0
    (bytesOf false 4 300 ++ [1, 0, 0, 0] ++ bytesOf false 4 7) else fun _ => 0
  classType := 500
  singletonType := 600
  isSystemClassLoader _ := false
  classStaticTable := 8

/-- The instance map `makeCodeImage` builds for class 300 places `b` at target
byte 4 and aligns `i` to byte 8, so no field covers target bytes 5 to 7. -/
def gapContext : Context :=
  ⟨Abi.native32, gapRuntime,
    [(300, ((layoutFields Abi.native32 [⟨.byteField, false, 4⟩, ⟨.intField, false, 8⟩]).bind
        fun r => memberMap Abi.native32 12 r.1).getD Visitor.classPointerMap),
      (500, Visitor.classPointerMap)], 3, 2 ^ 32 - 4, 30, 3⟩

/-- The walk of `x`: `x`, then its class pointer (word 0) to its class. -/
def gapWalk : List Event := [.root, .visitNew 100, .push 100 1 0, .visitNew 300, .pop]

/-- Two runs of the walk of `x` that differ only in the heap buffer they start
with write different heap sections: the gap bytes 5 to 7 of `x` are never written,
and the section serializes what the buffer held there. -/
theorem heap_section_keeps_buffer_bytes :
    ((Visitor.init Abi.native32 fun _ => 0).run gapContext gapWalk).map
        (fun r => heapSection Abi.native32 r.2.heap r.2.position) =
      some [4, 0, 0, 0, 1, 0, 0, 0, 7, 0, 0, 0, 0, 0, 0, 0] ∧
    ((Visitor.init Abi.native32 fun _ => 0xFF).run gapContext gapWalk).map
        (fun r => heapSection Abi.native32 r.2.heap r.2.position) =
      some [4, 0, 0, 0, 1, 0xFF, 0xFF, 0xFF, 7, 0, 0, 0, 0, 0, 0, 0] := by
  decide

end BootImage
