import BootImage.Builder

/-! The constant-pool scan of `makeCodeImage`. It reads a class file's magic, its
versions and `constant_pool_count`, sets `count` to that less one (`unsigned`),
and for a nonzero `count` writes a tag for each pool slot into `types`, an array
of `count + 2` entries after the header's `object` and `intptr_t`: one tag per
entry, two for a `Long` or `Double`. The pool TypeMap is then built from `types`.
The scan checks neither the array's bound when a wide entry takes two slots nor
the wrap of `count`. -/
namespace BootImage

/-- Modelled from the spec: the runtime's `Stream` over a class file's bytes
(stream.h is not under src/), as the bytes not yet read. Reads are big-endian,
and a read or skip past the end aborts. -/
abbrev Stream := List UInt8

namespace Stream

/-- A big-endian read of `n` bytes: `read1`, `read2`, `read4`. -/
def read (n : Nat) (s : Stream) : Option (Nat × Stream) :=
  if n ≤ s.length then some (valueOf true (s.take n), s.drop n) else none

/-- `skip(n)`. -/
def skip (n : Nat) (s : Stream) : Option Stream :=
  if n ≤ s.length then some (s.drop n) else none

theorem read_bytesOf (n value : Nat) (s : Stream) (h : value < 256 ^ n) :
    read n (bytesOf true n value ++ s) = some (value, s) := by
  have hlen : (bytesOf true n value).length = n := length_bytesOf _ _ _
  rw [read, if_pos (by simp [hlen]), List.take_left' hlen, List.drop_left' hlen, valueOf_bytesOf,
    Nat.mod_eq_of_lt h]

theorem skip_append (bytes : List UInt8) (s : Stream) : skip bytes.length (bytes ++ s) = some s := by
  rw [skip, if_pos (by simp), List.drop_left]

theorem skip_append_of_length {bytes : List UInt8} {n : Nat} (h : bytes.length = n) (s : Stream) :
    skip n (bytes ++ s) = some s :=
  h ▸ skip_append bytes s

end Stream

/-- Modelled from the spec: the `CONSTANT_*` tags of the class-file format
(constants.h is not under src/). -/
def constantUtf8 : Nat := 1
def constantInteger : Nat := 3
def constantFloat : Nat := 4
def constantLong : Nat := 5
def constantDouble : Nat := 6
def constantClass : Nat := 7
def constantString : Nat := 8
def constantFieldref : Nat := 9
def constantMethodref : Nat := 10
def constantInterfaceMethodref : Nat := 11
def constantNameAndType : Nat := 12

/-- One pass of the scan's switch: the tags written from slot `i` on, and the
stream after the entry, `none` where the source aborts. A tag is written before
its entry's bytes are skipped. -/
def scanEntry (s : Stream) : List Ty × Option Stream :=
  match Stream.read 1 s with
  | none => ([], none)
  | some (tag, s) =>
      if tag = constantClass ∨ tag = constantString then ([.object], Stream.skip 2 s)
      else if tag = constantInteger ∨ tag = constantFloat then ([.int32_t], Stream.skip 4 s)
      else if tag = constantNameAndType ∨ tag = constantFieldref ∨ tag = constantMethodref ∨
          tag = constantInterfaceMethodref then ([.object], Stream.skip 4 s)
      else if tag = constantLong then ([.int64_t, .int64_t_pad], Stream.skip 8 s)
      else if tag = constantDouble then ([.double, .double_pad], Stream.skip 8 s)
      else if tag = constantUtf8 then
        ([.object], (Stream.read 2 s).bind fun (length, s) => Stream.skip length s)
      else ([], none)

/-- The loop `for (i = 2; i < limit; ++i)`: `types` holds the tags written so
far, slot `i` being `types.length`. The result is every tag written and the
stream after the loop, `none` where an entry aborts or the fuel runs out. -/
def scanTypes (limit : Nat) : Nat → List Ty → Stream → List Ty × Option Stream
  | 0, types, _ => (types, none)
  | fuel + 1, types, s =>
      if types.length < limit then
        match scanEntry s with
        | (written, none) => (types ++ written, none)
        | (written, some s) => scanTypes limit fuel (types ++ written) s
      else (types, some s)

/-- What the scan of a class file leaves: `count`, the tags written into `types`
(none when `count` is 0), and the stream after the loop, `none` where it aborted. -/
structure PoolScan where
  count : Nat
  types : List Ty
  rest : Option Stream

/-- The pool of a nonzero `count`: `types[0]` and `types[1]`, then the loop up to
slot `count + 2`. -/
def scanPool (count : Nat) (s : Stream) : PoolScan :=
  let scan := scanTypes (u32 (count + 2)) (u32 (count + 2)) [.object, .intptr_t] s
  ⟨count, scan.1, scan.2⟩

/-- The scan of a class file up to the end of its pool; `none` where it aborts
before the loop (a short stream, or a magic other than `0xCAFEBABE`). -/
def poolScan (s : Stream) : Option PoolScan := do
  let (magic, s) ← Stream.read 4 s
  if magic = 0xCAFEBABE then
    let (_, s) ← Stream.read 2 s
    let (_, s) ← Stream.read 2 s
    let (poolCount, s) ← Stream.read 2 s
    let count := u32 (poolCount + 2 ^ 32 - 1)
    if count = 0 then some ⟨0, [], some s⟩ else some (scanPool count s)
  else none

/-- The pool TypeMap `makeCodeImage` inserts for a class file: `some none` when
`count` is 0 and no map is made, `none` where the scan aborts. -/
def classPoolMap (abi : Abi) (s : Stream) : Option (Option TypeMap) := do
  let scan ← poolScan s
  if scan.count = 0 then some none
  else scan.rest.map fun _ => some (poolMap abi scan.types scan.count)

/-- An entry of a constant pool with the bytes that follow its tag. A `Utf8`
entry's length fits its two-byte length field. -/
inductive Constant where
  | classInfo (nameIndex : UInt16)
  | string (stringIndex : UInt16)
  | integer (bytes : UInt32)
  | float (bytes : UInt32)
  | long (bytes : UInt64)
  | double (bytes : UInt64)
  | fieldref (classIndex nameAndTypeIndex : UInt16)
  | methodref (classIndex nameAndTypeIndex : UInt16)
  | interfaceMethodref (classIndex nameAndTypeIndex : UInt16)
  | nameAndType (nameIndex descriptorIndex : UInt16)
  | utf8 (bytes : List UInt8) (length_lt : bytes.length < 2 ^ 16)

namespace Constant

/-- The entry's tag byte. -/
def tag : Constant → Nat
  | classInfo _ => constantClass
  | string _ => constantString
  | integer _ => constantInteger
  | float _ => constantFloat
  | long _ => constantLong
  | double _ => constantDouble
  | fieldref _ _ => constantFieldref
  | methodref _ _ => constantMethodref
  | interfaceMethodref _ _ => constantInterfaceMethodref
  | nameAndType _ _ => constantNameAndType
  | utf8 _ _ => constantUtf8

/-- The bytes after the tag, big-endian. -/
def payload : Constant → List UInt8
  | classInfo i | string i => bytesOf true 2 i.toNat
  | integer b | float b => bytesOf true 4 b.toNat
  | long b | double b => bytesOf true 8 b.toNat
  | fieldref a b | methodref a b | interfaceMethodref a b | nameAndType a b =>
      bytesOf true 2 a.toNat ++ bytesOf true 2 b.toNat
  | utf8 bytes _ => bytesOf true 2 bytes.length ++ bytes

/-- The entry as the class file holds it. -/
def encode (c : Constant) : List UInt8 := bytesOf true 1 c.tag ++ c.payload

/-- The slot tags of the spec's table: `object` for a reference or name, `int32_t`
for an `Integer` or `Float`, and a wide tag with its pad for a `Long` or `Double`. -/
def slotTypes : Constant → List Ty
  | integer _ | float _ => [.int32_t]
  | long _ => [.int64_t, .int64_t_pad]
  | double _ => [.double, .double_pad]
  | _ => [.object]

theorem slotTypes_ne_nil (c : Constant) : c.slotTypes ≠ [] := by
  cases c <;> simp [slotTypes]

/-- The scan reads an entry back as its slot tags and stops at its end. -/
theorem scanEntry_encode (c : Constant) (s : Stream) :
    scanEntry (c.encode ++ s) = (c.slotTypes, some s) := by
  have htag : c.tag < 256 ^ 1 := by cases c <;> simp only [tag] <;> decide
  rw [encode, List.append_assoc, scanEntry, Stream.read_bytesOf _ _ _ htag]
  cases c <;> simp only [tag, payload, slotTypes, constantUtf8, constantClass, constantString,
    constantInteger, constantFloat, constantLong, constantDouble, constantFieldref,
    constantMethodref, constantInterfaceMethodref, constantNameAndType, Nat.reduceEqDiff,
    or_false, or_true, ↓reduceIte, Prod.mk.injEq, true_and]
  case utf8 bytes hlt =>
    rw [List.append_assoc, Stream.read_bytesOf _ _ _ (by simpa using hlt), Option.some_bind]
    exact Stream.skip_append bytes s
  all_goals exact Stream.skip_append_of_length (by simp) s

end Constant

/-- The loop reads encoded entries back as their slot tags, one iteration each,
and stops at `limit` after the last. -/
theorem scanTypes_encode {limit : Nat} :
    ∀ (pool : List Constant) (fuel : Nat) (types : List Ty) (s : Stream),
      types.length + (pool.flatMap Constant.slotTypes).length = limit → pool.length < fuel →
      scanTypes limit fuel types ((pool.map Constant.encode).flatten ++ s) =
        (types ++ pool.flatMap Constant.slotTypes, some s)
  | [], fuel + 1, types, s, hlimit, _ => by
      simp only [List.flatMap_nil, List.length_nil, Nat.add_zero] at hlimit
      simp [scanTypes, hlimit]
  | c :: pool, fuel + 1, types, s, hlimit, hfuel => by
      have hpos := List.length_pos.mpr c.slotTypes_ne_nil
      simp only [List.flatMap_cons, List.length_append] at hlimit
      rw [scanTypes, if_pos (by omega), List.map_cons, List.flatten_cons, List.append_assoc,
        Constant.scanEntry_encode]
      dsimp only
      rw [scanTypes_encode pool fuel _ s (by simp only [List.length_append]; omega)
        (by simp only [List.length_cons] at hfuel; omega), List.flatMap_cons, List.append_assoc]

theorem length_le_length_flatMap_slotTypes (pool : List Constant) :
    pool.length ≤ (pool.flatMap Constant.slotTypes).length := by
  induction pool with
  | nil => exact Nat.le_refl 0
  | cons c pool ih =>
      have := List.length_pos.mpr c.slotTypes_ne_nil
      simp only [List.length_cons, List.flatMap_cons, List.length_append]
      omega

/-- A class file whose constant pool is well formed: every entry is one the scan
knows, and `constant_pool_count` counts the pool's slots and fits its two bytes. -/
structure ClassFile where
  minorVersion : UInt16
  majorVersion : UInt16
  pool : List Constant
  rest : List UInt8
  poolCount_lt : (pool.flatMap Constant.slotTypes).length + 1 < 2 ^ 16

namespace ClassFile

/-- The pool's slots, `constant_pool_count - 1`. -/
def slots (cf : ClassFile) : Nat := (cf.pool.flatMap Constant.slotTypes).length

/-- The class file's bytes: magic, versions, pool count, pool, and the rest. -/
def encode (cf : ClassFile) : Stream :=
  bytesOf true 4 0xCAFEBABE ++ bytesOf true 2 cf.minorVersion.toNat ++
    bytesOf true 2 cf.majorVersion.toNat ++ bytesOf true 2 (cf.slots + 1) ++
    (cf.pool.map Constant.encode).flatten ++ cf.rest

/-- On a well-formed class file the scan finishes, with `count` the pool's slots
and, for a nonempty pool, exactly `count + 2` tags written: the header's
`object` and `intptr_t`, then each entry's slot tags in order. -/
theorem poolScan_encode (cf : ClassFile) :
    poolScan cf.encode = some ⟨cf.slots,
      if cf.slots = 0 then [] else [.object, .intptr_t] ++ cf.pool.flatMap Constant.slotTypes,
      some cf.rest⟩ := by
  have hmagic : 0xCAFEBABE < 256 ^ 4 := by norm_num
  have hminor : cf.minorVersion.toNat < 256 ^ 2 := cf.minorVersion.toNat_lt
  have hmajor : cf.majorVersion.toNat < 256 ^ 2 := cf.majorVersion.toNat_lt
  have hslots : cf.slots + 1 < 256 ^ 2 := cf.poolCount_lt
  rw [encode]
  simp only [List.append_assoc]
  unfold poolScan
  rw [Stream.read_bytesOf _ _ _ hmagic, Option.bind_eq_bind, Option.some_bind]
  dsimp only
  rw [if_pos rfl, Stream.read_bytesOf _ _ _ hminor, Option.some_bind]
  dsimp only
  rw [Stream.read_bytesOf _ _ _ hmajor, Option.some_bind]
  dsimp only
  rw [Stream.read_bytesOf _ _ _ hslots, Option.some_bind]
  dsimp only
  have hcount : u32 (cf.slots + 1 + 2 ^ 32 - 1) = cf.slots := by
    unfold u32
    omega
  rw [hcount]
  by_cases h0 : cf.slots = 0
  · have hpool : cf.pool = [] := by
      cases hp : cf.pool with
      | nil => rfl
      | cons c pool =>
          have := List.length_pos.mpr c.slotTypes_ne_nil
          simp only [slots, hp, List.flatMap_cons, List.length_append] at h0
          omega
    rw [if_pos h0, if_pos h0, h0, hpool]
    rfl
  · have hlimit : u32 (cf.slots + 2) = cf.slots + 2 := by
      unfold u32
      omega
    rw [if_neg h0, if_neg h0, scanPool, hlimit, scanTypes_encode cf.pool _ _ cf.rest (by simp [slots]; omega)
      (by have := length_le_length_flatMap_slotTypes cf.pool; simp only [slots] at h0 ⊢; omega)]

/-- The pool TypeMap of a well-formed class file with a nonempty pool has a
field for each of its `count + 2` slots, tagged as the scan reads them. -/
theorem classPoolMap_encode (abi : Abi) (cf : ClassFile) :
    classPoolMap abi cf.encode = if cf.slots = 0 then some none else
      some (some (poolMap abi ([.object, .intptr_t] ++ cf.pool.flatMap Constant.slotTypes) cf.slots)) := by
  rw [classPoolMap, Option.bind_eq_bind, poolScan_encode, Option.some_bind]
  dsimp only
  split <;> rfl

end ClassFile

/-! ### Class files the scan overruns -/

/-- The bytes of a complete class file of version 50 whose `constant_pool_count` is
`count` and whose pool is `pool`: a public class, `this_class` #2 and `super_class`
#4, with no interfaces, fields, methods or attributes. -/
def classFileBytes (count : Nat) (pool : List Constant) : Stream :=
  bytesOf true 4 0xCAFEBABE ++ bytesOf true 2 0 ++ bytesOf true 2 50 ++ bytesOf true 2 count ++
    (pool.map Constant.encode).flatten ++ bytesOf true 2 0x21 ++ bytesOf true 2 2 ++
      bytesOf true 2 4 ++ List.replicate 8 0

/-- The class `A` extending `java/lang/Object`, whose pool ends with a `Long`: the
entries take slots 1 to 6, but `constant_pool_count` is 6, not 7. -/
def longLastClassFile : Stream :=
  classFileBytes 6 [.utf8 [65] (by decide), .classInfo 1,
    .utf8 ("java/lang/Object".toList.map fun ch => ch.toNat.toUInt8) (by decide), .classInfo 3, .long 0]

/-- A class file whose `constant_pool_count` is 0. -/
def zeroCountClassFile : Stream := classFileBytes 0 []

/-- With a `Long` as the last of `count` = 5 entries, the scan writes slots 6 and 7
of `types[7]`; with `constant_pool_count` 0, `count` wraps to `2^32 - 1`, the
array has `count + 2` = 1 entry, and the header writes two. -/
theorem pool_scan_writes_past_types :
    (poolScan longLastClassFile).map (fun scan => (scan.count, scan.types, scan.rest.isSome)) =
        some (5, [.object, .intptr_t, .object, .object, .object, .object, .int64_t, .int64_t_pad], true) ∧
      (poolScan zeroCountClassFile).map (fun scan => (u32 (scan.count + 2), scan.types.length)) =
        some (1, 2) := by
  decide

end BootImage
