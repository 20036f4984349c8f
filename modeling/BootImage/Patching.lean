import BootImage.Allocation

/-! What `visit` writes. A patch goes to target word `currentNumber - 1 +
targetOffset(currentObject, currentOffset * BytesPerWord) / TargetBytesPerWord`,
holds the number with the slot's old mark bits shifted by `BootShift`, in host byte
order, and sets that word's bit in the heap map, which `markBit` lays out in host
words. The slot is the field's own word only when the current object's TypeMap maps
that build offset, and the bits and bytes are the target's only when the target has
the host's word size and byte order. -/
namespace BootImage

namespace Visitor

variable (c : Context) (s : Visitor)

/-- The target word `visit` patches for the reference being followed. -/
def slot : Option Nat :=
  (c.rt.targetOffset c.abi c.typeMaps s.currentObject (s.currentOffset * c.abi.bytesPerWord)).map
    fun target => s.currentNumber - 1 + target / c.abi.targetBytesPerWord

/-- The value `visit(number)` stores in word `offset`. -/
def patchValue (offset number : Nat) : Nat :=
  u32 (number ||| u32 (u32 (s.readWord c offset &&& c.notPointerMask) <<< c.bootShift))

variable {c s} {s' : Visitor} {n : Nat}

/-- The effect of one patch: the slot's word in host byte order, and the slot's
map bit when the value is nonzero; nothing else changes. -/
theorem visit_patch (hcur : s.currentObject ≠ 0) (h : s.visit c n = some s') :
    ∃ offset, s.slot c = some offset ∧
      s'.heap = s.heap.write (offset * c.abi.targetBytesPerWord)
        (bytesOf c.abi.bigEndian c.abi.targetBytesPerWord (s.patchValue c offset n)) ∧
      s'.map = (if s.patchValue c offset n ≠ 0 then fun i => i = offset || s.map i else s.map) ∧
      s'.position = s.position ∧ s'.currentObject = s.currentObject := by
  unfold visit at h
  rw [if_neg hcur] at h
  obtain ⟨target, htarget, rfl⟩ := Option.map_eq_some'.mp h
  exact ⟨_, by rw [slot, htarget, Option.map_some'], rfl, rfl, rfl, rfl⟩

variable {m : TypeMap} {f : Field}

/-- The inherited field `f` has no entry in `B`'s TypeMap, so its patch lands on
`b`'s word 0 like the class pointer's: `b`, `B` and `q` get numbers 1, 3 and 4,
word 0 ends holding `q`'s number under `B`'s number read back as mark bits, and
word 1, where `f` belongs, holds `g`. -/
theorem inherited_reference_overwrites_class_slot :
    ((init Abi.native32 fun _ => 0).push 100 1 0).slot inheritedContext = some 0 ∧
      ((init Abi.native32 fun _ => 0).push 100 1 1).slot inheritedContext = some 0 ∧
      ((init Abi.native32 fun _ => 0).run inheritedContext inheritedWalk).map
        (fun r => (r.1.map (·.number), r.2.readWord inheritedContext 0,
          r.2.readWord inheritedContext 1)) = some ([1, 3, 4], 4 ||| 3 <<< 30, 7) := by
  decide

end Visitor

/-! ### The heap map as the target reads it -/

/-- `width` entries of a bit set from `base`, as a number: bit `b` is entry `base + b`. -/
def bitsValue (map : Nat → Bool) (base : Nat) : Nat → Nat
  | 0 => 0
  | width + 1 => (if map base then 1 else 0) + 2 * bitsValue map (base + 1) width

theorem testBit_bitsValue (map : Nat → Bool) :
    ∀ {base width j : Nat}, j < width → (bitsValue map base width).testBit j = map (base + j)
  | _, 0, _, hj => absurd hj (Nat.not_lt_zero _)
  | base, width + 1, 0, _ => by
      cases h : map base <;> simp [bitsValue, h, Nat.mul_mod_right]
  | base, width + 1, j + 1, hj => by
      rw [Nat.testBit_succ, show (bitsValue map base (width + 1)) / 2 = bitsValue map (base + 1) width
        by simp only [bitsValue]; split <;> omega,
        testBit_bitsValue map (by omega : j < width), Nat.add_right_comm, Nat.add_assoc]

theorem bitsValue_lt (map : Nat → Bool) : ∀ {base width : Nat}, bitsValue map base width < 2 ^ width
  | _, 0 => Nat.one_pos
  | base, width + 1 => by
      have := @bitsValue_lt map (base + 1) width
      simp only [bitsValue, Nat.pow_succ]
      split <;> omega

/-- The heap map as `writeBootImage2` writes it out: `markBit` sets bit
`i % BitsPerWord` of host word `i / BitsPerWord`, and each host word is stored in
host byte order. -/
def mapBytes (abi : Abi) (map : Nat → Bool) : Memory := fun a =>
  (bytesOf abi.bigEndian abi.bytesPerWord
    (bitsValue map (a / abi.bytesPerWord * abi.bitsPerWord) abi.bitsPerWord)).getD
    (a % abi.bytesPerWord) 0

/-- Bit `i` of a bitmap as the target reads it: bit `i % TargetBitsPerWord` of
target word `i / TargetBitsPerWord`, in target byte order. -/
def targetBit (abi : Abi) (bytes : Memory) (i : Nat) : Bool :=
  (valueOf abi.targetBigEndian (bytes.read (i / abi.targetBitsPerWord * abi.targetBytesPerWord)
    abi.targetBytesPerWord)).testBit (i % abi.targetBitsPerWord)

theorem read_mapBytes (abi : Abi) (map : Nat → Bool) (w : Nat) :
    (mapBytes abi map).read (w * abi.bytesPerWord) abi.bytesPerWord =
      bytesOf abi.bigEndian abi.bytesPerWord (bitsValue map (w * abi.bitsPerWord) abi.bitsPerWord) := by
  have hpos := abi.bytesPerWord_pos
  apply List.ext_getElem (by simp)
  intro k hk _
  simp only [Memory.length_read] at hk
  simp only [Memory.read, List.getElem_map, List.getElem_range, mapBytes,
    show (w * abi.bytesPerWord + k) / abi.bytesPerWord = w by
      rw [Nat.mul_comm, Nat.mul_add_div hpos, Nat.div_eq_of_lt hk, Nat.add_zero],
    show (w * abi.bytesPerWord + k) % abi.bytesPerWord = k by
      rw [Nat.mul_comm, Nat.mul_add_mod, Nat.mod_eq_of_lt hk]]
  simp [hk]

/-- On a target with the host's byte order, the written heap map reads back bit
for bit as the bits `markBit` set. -/
theorem targetBit_mapBytes (abi : Abi) (map : Nat → Bool) (horder : abi.targetBigEndian = abi.bigEndian)
    (i : Nat) : targetBit abi (mapBytes abi map) i = map i := by
  have hbits : abi.targetBitsPerWord = abi.bitsPerWord := by
    simp [Abi.targetBitsPerWord, Abi.bitsPerWord, abi.sameWord]
  have hpos : 0 < abi.bitsPerWord := by have := abi.bytesPerWord_pos; simp [Abi.bitsPerWord]; omega
  have hlt : bitsValue map (i / abi.bitsPerWord * abi.bitsPerWord) abi.bitsPerWord
      < 256 ^ abi.bytesPerWord := by
    have := @bitsValue_lt map (i / abi.bitsPerWord * abi.bitsPerWord) abi.bitsPerWord
    rwa [Abi.bitsPerWord, Nat.pow_mul] at this
  rw [targetBit, hbits, abi.sameWord, horder, read_mapBytes, valueOf_bytesOf, Nat.mod_eq_of_lt hlt,
    testBit_bitsValue map (Nat.mod_lt _ hpos), Nat.div_add_mod']

/-- `b` of the inherited-field heap seen as an instance of `A`, which declares `f`
at host offset 4, on a little-endian host writing a big-endian image. -/
def crossEndianContext : Context :=
  ⟨Abi.bigEndian32, Visitor.inheritedRuntime,
    [(300, ((layoutFields Abi.bigEndian32 [⟨.objectField, false, 4⟩]).bind fun r =>
        memberMap Abi.bigEndian32 8 r.1).getD Visitor.classPointerMap),
      (400, Visitor.classPointerMap)], 3, 2 ^ 32 - 4, 30, 3⟩

/-- The walk of `b` through `f` to `q`. -/
def crossEndianWalk : List Event := [.root, .visitNew 100, .push 100 1 1, .visitNew 200, .pop]

/-- The patch of `f` marks map entry 1, which `markBit` stores as bit 1 of the
first host word; the big-endian target reads that byte as the top byte of its word,
so it sees entry 25 set and entry 1 clear. -/
theorem cross_endian_target_misreads_heap_map :
    ((Visitor.init Abi.bigEndian32 fun _ => 0).run crossEndianContext crossEndianWalk).map
      (fun r => (r.2.map 1, targetBit Abi.bigEndian32 (mapBytes Abi.bigEndian32 r.2.map) 1,
        targetBit Abi.bigEndian32 (mapBytes Abi.bigEndian32 r.2.map) 25)) = some (true, false, true) := by
  decide

end BootImage
