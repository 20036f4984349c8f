import BootImage.Copy

/-! The visitor of `makeHeapImage`, a state machine driven by the heap walker's
callbacks. `visitNew` allots a non-null object the next region of the heap buffer
and copies it there, as a fixed object with a fixie header and dirty mask when it
is a static table reached from its class or a system class loader; then, like
`visitOld`, it patches the reference being followed and marks it in the heap map. -/
namespace BootImage

/-- `HeapCapacity`: the bytes of the heap buffer. -/
def heapCapacity : Nat := 256 * 1024 * 1024

/-- What the visitor reads and never writes: the ABI, the runtime constants the
spec treats as opaque bit patterns (`FixedMark`, `PointerMask`, `BootShift`,
`FixieTenureThreshold`; their headers are not under src/), the VM and the TypeMaps. -/
structure Context where
  abi : Abi
  rt : Runtime
  typeMaps : TypeMaps
  fixedMark : Nat
  pointerMask : Nat
  bootShift : Nat
  fixieTenureThreshold : Nat

namespace Context

variable (c : Context)

/-- `TargetFixieSizeInBytes`: age, has-mask and size fields, then two pointers. -/
def targetFixieSizeInBytes : Nat := 8 + c.abi.targetBytesPerWord * 2

/-- `TargetFixieSizeInWords`. -/
def targetFixieSizeInWords : Nat := ceiling c.targetFixieSizeInBytes c.abi.targetBytesPerWord

/-- `~PointerMask`, a host word. -/
def notPointerMask : Nat := (2 ^ c.abi.bitsPerWord - 1) ^^^ c.pointerMask

/-- Every TypeMap the walk can find is well formed. -/
def WellFormedMaps : Prop := ∀ key m, (key, m) ∈ c.typeMaps → m.WellFormed c.abi

instance : Decidable c.WellFormedMaps :=
  decidable_of_iff (∀ e ∈ c.typeMaps, e.2.WellFormed c.abi)
    ⟨fun h _ _ hm => h _ hm, fun h e he => h e.1 e.2 he⟩

end Context

/-- The visitor's fields: the edge being followed (`currentObject` 0 when there
is none), the heap buffer, the heap map as its set bits, and the next free target
word of the buffer. -/
structure Visitor where
  currentObject : Nat
  currentNumber : Nat
  currentOffset : Nat
  heap : Memory
  map : Nat → Bool
  position : Nat
  capacity : Nat

/-- What `visitNew` decides for a non-null object: its target size, where its
region starts, how many target words it takes, its number, whether it is fixed,
and the stores that write it. -/
structure Allotment where
  object : Nat
  size : Nat
  start : Nat
  extent : Nat
  number : Nat
  fixed : Bool
  stores : List Store
  deriving Repr

namespace Visitor

variable (c : Context) (s : Visitor)

/-- The visitor `makeHeapImage` starts with, on a heap buffer and a zeroed map. -/
def init (abi : Abi) (heap : Memory) : Visitor :=
  ⟨0, 0, 0, heap, fun _ => false, 0, heapCapacity / abi.targetBytesPerWord⟩

/-- `heap[offset]`: a target word of the buffer, in host byte order. -/
def readWord (offset : Nat) : Nat :=
  valueOf c.abi.bigEndian (s.heap.read (offset * c.abi.targetBytesPerWord) c.abi.targetBytesPerWord)

/-- `visit(number)`: patch the slot of the reference being followed with `number`
and the slot's old mark bits, and mark the slot in the heap map if the result is
nonzero. With no current object (a root) there is nothing to patch. -/
def visit (number : Nat) : Option Visitor :=
  if s.currentObject = 0 then some s
  else
    (c.rt.targetOffset c.abi c.typeMaps s.currentObject (s.currentOffset * c.abi.bytesPerWord)).map
      fun target =>
        let offset := s.currentNumber - 1 + target / c.abi.targetBytesPerWord
        let mark := u32 (s.readWord c offset &&& c.notPointerMask)
        let value := u32 (number ||| u32 (mark <<< c.bootShift))
        { s with
          map := if value ≠ 0 then fun i => i = offset || s.map i else s.map
          heap := s.heap.write (offset * c.abi.targetBytesPerWord)
            (bytesOf c.abi.bigEndian c.abi.targetBytesPerWord value) }

/-- The test of `visitNew`: a static table reached through its class's
`ClassStaticTable` slot, or an instance of the system class loader type. -/
def isFixed (p : Nat) : Bool :=
  (s.currentObject ≠ 0 && c.rt.objectClass s.currentObject = c.rt.classType &&
      s.currentOffset * c.abi.bytesPerWord = c.rt.classStaticTable) ||
    c.rt.isSystemClassLoader p

/-- The fixie header of a fixed object at target word `position`: zeroed, then
the age, the has-mask flag and the size in target byte order. -/
def fixieHeader (position size : Nat) : List Store :=
  let header := position * c.abi.targetBytesPerWord
  [.put header (List.replicate c.targetFixieSizeInBytes 0),
    .put header [UInt8.ofNat (c.fixieTenureThreshold + 1)],
    .put (header + 1) [1],
    .put (header + 4) (bytesOf c.abi.bigEndian 4 (c.abi.targetV 4 size))]

/-- The allocating half of `visitNew` for a non-null object; `none` where an
`expect` fails or the source would abort. -/
def allot (p : Nat) : Option Allotment := do
  let size ← c.rt.targetSize c.abi c.typeMaps p
  if s.isFixed c p then
    let dst := s.position + c.targetFixieSizeInWords
    let maskSize := ceiling size c.abi.targetBytesPerWord
    let total := c.targetFixieSizeInWords + size + maskSize
    if s.position + total < s.capacity then
      let body ← copyObject c.abi c.rt c.typeMaps p (dst * c.abi.targetBytesPerWord)
      some ⟨p, size, s.position, total, dst + 1, true,
        fixieHeader c s.position size ++ body ++
          [.orInto (dst * c.abi.targetBytesPerWord) c.abi.targetBytesPerWord c.fixedMark,
            .put ((dst + size) * c.abi.targetBytesPerWord)
              (List.replicate (maskSize * c.abi.targetBytesPerWord) 0)]⟩
    else none
  else if s.position + size < s.capacity then
    let body ← copyObject c.abi c.rt c.typeMaps p (s.position * c.abi.targetBytesPerWord)
    some ⟨p, size, s.position, size, s.position + 1, false, body⟩
  else none

/-- The state after an allotment's stores, with `position` past its region. -/
def place (a : Allotment) : Visitor :=
  { s with heap := Store.applyAll c.abi.bigEndian a.stores s.heap, position := a.start + a.extent }

/-- `visitNew` for a non-null object: allot, write, then patch the edge. -/
def emit (p : Nat) : Option (Allotment × Visitor) := do
  let a ← s.allot c p
  let s' ← (s.place c a).visit c a.number
  pure (a, s')

/-- `visitNew(p)`: the number of `p`, 0 for null. -/
def visitNew (p : Nat) : Option (Nat × Visitor) :=
  if p = 0 then some (0, s) else (s.emit c p).map fun (a, s') => (a.number, s')

/-- `visitOld(p, number)`. -/
def visitOld (number : Nat) : Option Visitor := s.visit c number

/-- `push(object, number, offset)`: the edge the next visit follows. -/
def push (p number offset : Nat) : Visitor :=
  { s with currentObject := p, currentNumber := number, currentOffset := offset }

/-- `pop()` and `root()`: no edge. -/
def pop : Visitor := { s with currentObject := 0 }

end Visitor

/-- The heap walker's callbacks. -/
inductive Event where
  | root
  | visitNew (p : Nat)
  | visitOld (p number : Nat)
  | push (p number offset : Nat)
  | pop
  deriving Repr, DecidableEq

namespace Visitor

variable (c : Context)

/-- One callback, with the allotment it makes. -/
def step (s : Visitor) : Event → Option (List Allotment × Visitor)
  | .root => some ([], s.pop)
  | .visitNew p => if p = 0 then some ([], s) else (s.emit c p).map fun (a, s') => ([a], s')
  | .visitOld _ number => (s.visitOld c number).map ([], ·)
  | .push p number offset => some ([], s.push p number offset)
  | .pop => some ([], s.pop)

/-- The callbacks of a walk in order, with every allotment; `none` if one aborts. -/
def run : Visitor → List Event → Option (List Allotment × Visitor)
  | s, [] => some ([], s)
  | s, e :: es => do
      let (as, s') ← s.step c e
      let (bs, s'') ← s'.run es
      pure (as ++ bs, s'')

end Visitor

end BootImage
