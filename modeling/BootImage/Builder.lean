import BootImage.TypeMap

/-! The TypeMap builders. `makeCodeImage` builds a class's instance and static
layouts from its field table and a constant pool's layout from the tags its class
file lists; `writeBootImage2` builds each VM type's layout from its descriptor. Each
places fields one after another, aligning the running target offset to the field's
target size, and checks every build offset against the fixed part. -/
namespace BootImage

/-- The runtime's field codes (`VoidField` .. `ObjectField`). -/
inductive FieldCode where
  | voidField | byteField | charField | doubleField | floatField | intField
  | longField | shortField | booleanField | objectField
  deriving Repr, DecidableEq

/-- Modelled from the spec: the runtime's `fieldSize` (machine.h is not under
src/), the host width of a Java field of each code. An object field is one host
word; a `char` or `short` field is two bytes wide. -/
def fieldSize (abi : Abi) : FieldCode → Nat
  | .voidField => 0
  | .byteField | .booleanField => 1
  | .charField | .shortField => 2
  | .floatField | .intField => 4
  | .doubleField | .longField => 8
  | .objectField => abi.bytesPerWord

/-- A field of a class's field table as the runtime stores it: its code, whether
`fieldFlags & ACC_STATIC`, and `fieldOffset`. -/
structure FieldInfo where
  code : FieldCode
  isStatic : Bool
  offset : Nat
  deriving Repr, DecidableEq

/-- The `while (offset % size) ++ offset` loops: the first multiple of `size` at
or after `offset`. -/
def alignUp (offset size : Nat) : Nat := ceiling offset size * size

/-- The field-code switch of `makeCodeImage`: the tag of a field and the size its
target slot takes. `CharField` and `ShortField` get `Type_int8_t` like `ByteField`. -/
def fieldType (abi : Abi) (code : FieldCode) : Option (Ty × Nat) :=
  match code with
  | .objectField => some (.object, abi.targetBytesPerWord)
  | .byteField | .booleanField => some (.int8_t, fieldSize abi code)
  | .charField | .shortField => some (.int8_t, fieldSize abi code)
  | .floatField | .intField => some (.int32_t, fieldSize abi code)
  | .longField | .doubleField => some (.int64_t, fieldSize abi code)
  | .voidField => none

/-- The fields of one layout placed so far, with the running target offset. -/
structure Placement where
  fields : List Field
  next : Nat
  deriving Repr, DecidableEq

/-- Place one field: align the running target offset, record the field, advance. -/
def Placement.place (p : Placement) (type : Ty) (size offset : Nat) : Placement :=
  { fields := p.fields ++ [⟨type, offset, alignUp p.next size⟩]
    next := alignUp p.next size + size }

/-- The instance layout before the loop: the class pointer at 0. -/
def memberStart (abi : Abi) : Placement :=
  ⟨[⟨.object, 0, 0⟩], abi.targetBytesPerWord⟩

/-- The static-table layout before the loop: a singleton's class and length words. -/
def staticStart (abi : Abi) : Placement :=
  ⟨[⟨.object, 0, 0⟩, ⟨.intptr_t, abi.bytesPerWord, abi.targetBytesPerWord⟩],
    2 * abi.targetBytesPerWord⟩

/-- The field-table loop of `makeCodeImage`: every field goes to the static or
the instance layout; an unknown code aborts. -/
def layoutFields (abi : Abi) (table : List FieldInfo) : Option (Placement × Placement) :=
  table.foldlM (fun acc field => (fieldType abi field.code).map fun (type, size) =>
      if field.isStatic then (acc.1, acc.2.place type size field.offset)
      else (acc.1.place type size field.offset, acc.2))
    (memberStart abi, staticStart abi)

/-- The `expect` of each builder's table loop: the map is installed only if every
field's build offset lies in the fixed part; otherwise the writer aborts. -/
def checked (abi : Abi) (m : TypeMap) : Option TypeMap :=
  if m.fixedFields.all (·.offset < m.buildFixedSizeInWords * abi.bytesPerWord) then some m
  else none

/-- The instance TypeMap of a class of `classFixedSize` host bytes. -/
def memberMap (abi : Abi) (classFixedSize : Nat) (members : Placement) : Option TypeMap :=
  checked abi
    { buildFixedSizeInWords := ceiling classFixedSize abi.bytesPerWord
      targetFixedSizeInWords := ceiling members.next abi.targetBytesPerWord
      fixedFields := members.fields }

/-- The static-table TypeMap, for a static table of `singletonCount` body words. -/
def staticMap (abi : Abi) (singletonCount : Nat) (statics : Placement) : Option TypeMap :=
  checked abi
    { buildFixedSizeInWords := singletonCount + 2
      targetFixedSizeInWords := ceiling statics.next abi.targetBytesPerWord
      fixedFields := statics.fields
      kind := .singletonKind }

/-- The pool TypeMap of a class file with `count` pool slots whose scan gave
`types` (the two header tags first): slot `i` is one word on each side. The
`count + 2` slots are an `unsigned` sum. -/
def poolMap (abi : Abi) (types : List Ty) (count : Nat) : TypeMap :=
  { buildFixedSizeInWords := u32 (count + 2)
    targetFixedSizeInWords := u32 (count + 2)
    fixedFields := (List.range (u32 (count + 2))).map fun i =>
      ⟨types.getD i .none, i * abi.bytesPerWord, i * abi.targetBytesPerWord⟩
    kind := .poolKind }

/-! ### VM type descriptors -/

/-- The descriptor switch of `writeBootImage2`: the tag a source tag maps to, with
its build and target sizes. `Type_array` marks the start of the tail array. -/
def descriptorType (abi : Abi) : Ty → Option (Ty × Nat × Nat)
  | .object => some (.object, abi.bytesPerWord, abi.targetBytesPerWord)
  | .word | .intptr_t | .uintptr_t => some (.intptr_t, abi.bytesPerWord, abi.targetBytesPerWord)
  | .int8_t | .uint8_t => some (.int8_t, 1, 1)
  | .int16_t | .uint16_t => some (.int16_t, 2, 2)
  | .int32_t | .uint32_t | .float => some (.int32_t, 4, 4)
  | .int64_t | .uint64_t | .double => some (.int64_t, 8, 8)
  | .array => some (.none, 0, 0)
  | _ => none

/-- The locals of the descriptor loop: `types`, the offsets recorded before the
array marker, the running offsets, `sawArray` and the last sizes. -/
structure DescriptorState where
  types : List Ty
  buildOffsets : List Nat
  targetOffsets : List Nat
  buildOffset : Nat
  targetOffset : Nat
  sawArray : Bool
  buildSize : Nat
  targetSize : Nat
  deriving Repr, DecidableEq

/-- The state before the loop: the class pointer at 0 on both sides. -/
def DescriptorState.start (abi : Abi) : DescriptorState :=
  ⟨[.object], [0], [0], abi.bytesPerWord, abi.targetBytesPerWord, false,
    abi.bytesPerWord, abi.targetBytesPerWord⟩

/-- One iteration of the descriptor loop, for source tag `tag`. -/
def DescriptorState.step (abi : Abi) (st : DescriptorState) (tag : Ty) :
    Option DescriptorState :=
  (descriptorType abi tag).map fun (type, buildSize, targetSize) =>
    let sawArray := st.sawArray || tag == .array
    if sawArray then { st with types := st.types ++ [type], sawArray, buildSize, targetSize }
    else
      let b := alignUp st.buildOffset buildSize
      let t := alignUp st.targetOffset targetSize
      ⟨st.types ++ [type], st.buildOffsets ++ [b], st.targetOffsets ++ [t], b + buildSize,
        t + targetSize, false, buildSize, targetSize⟩

/-- The TypeMap of a VM type with descriptor `source` (the tags before
`Type_none`). With an array marker, the last two slots are the marker and the
element type, and the last sizes are the element's. -/
def descriptorMap (abi : Abi) (source : List Ty) : Option TypeMap := do
  let st ← source.foldlM (DescriptorState.step abi) (DescriptorState.start abi)
  let count := source.length + 1
  let fixedFieldCount := if st.sawArray then count - 2 else count
  checked abi
    { buildFixedSizeInWords := ceiling st.buildOffset abi.bytesPerWord
      targetFixedSizeInWords := ceiling st.targetOffset abi.targetBytesPerWord
      fixedFields := (List.range fixedFieldCount).map fun j =>
        ⟨st.types.getD j .none, st.buildOffsets.getD j 0, st.targetOffsets.getD j 0⟩
      buildArrayElementSizeInBytes := if st.sawArray then st.buildSize else 0
      targetArrayElementSizeInBytes := if st.sawArray then st.targetSize else 0
      arrayElementType := if st.sawArray then st.types.getD (count - 1) .none else .none }

end BootImage
