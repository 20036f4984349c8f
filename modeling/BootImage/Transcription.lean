import BootImage.Allocation

/-! What an emitted object's bytes say about the host object. The builders take a
class's layout from its own field table, so an inherited field has no entry in the
instance TypeMap and the target size counts the declared fields only; and the
field-code switch tags `char` and `short` fields `Type_int8_t`, so `copy` moves one
of their two bytes. -/
namespace BootImage

namespace Visitor

/-- `s` (100), of class 300, declares `short h` at host offset 4, holding 258. -/
def shortRuntime : Runtime where
  objectClass p := if p = 100 then 300 else 500
  body p := if p = 100 then Memory.write (fun _ => 0) 0 (bytesOf false 4 300 ++ bytesOf false 2 258)
    else fun _ => 0
  classType := 500
  singletonType := 600
  isSystemClassLoader _ := false
  classStaticTable := 8

/-- The instance map `makeCodeImage` builds for class 300 from its field table. -/
def shortContext : Context :=
  ⟨Abi.native32, shortRuntime,
    [(300, ((layoutFields Abi.native32 [⟨.shortField, false, 4⟩]).bind fun r =>
        memberMap Abi.native32 8 r.1).getD classPointerMap)], 3, 2 ^ 32 - 4, 30, 3⟩

/-- `h` keeps its target offset, but its tag is `Type_int8_t`, so `copy` writes its
low byte only: the two target bytes at `h`'s offset in object 1 read 2, not 258. -/
theorem short_field_loses_high_byte :
    shortContext.rt.targetOffset Abi.native32 shortContext.typeMaps 100 4 = some 4 ∧
      valueOf false ((shortContext.rt.body 100).read 4 2) = 258 ∧
      ((init Abi.native32 fun _ => 0).run shortContext [.root, .visitNew 100]).map
        (fun r => (r.1.map (·.number), valueOf false (r.2.heap.read 4 2))) = some ([1], 2) := by
  decide

/-- On a target with the host's ABI, `B`'s instance map still differs from `B`'s
host layout: the target size is 2 words where the host object has 3, the inherited
`f` at build offset 4 maps to target offset 0, and `g` moves from 8 to 4. -/
theorem inherited_layout_differs_from_host :
    inheritedContext.rt.targetSize Abi.native32 inheritedContext.typeMaps 100 = some 2 ∧
      (inheritedContext.rt.typeMap inheritedContext.typeMaps 100).map
        (·.buildFixedSizeInWords) = some 3 ∧
      inheritedContext.rt.targetOffset Abi.native32 inheritedContext.typeMaps 100 4 = some 0 ∧
      inheritedContext.rt.targetOffset Abi.native32 inheritedContext.typeMaps 100 8 = some 4 := by
  decide

variable (c : Context) {p dst : Nat} {m : TypeMap} {stores : List Store}
  (hm : c.rt.typeMap c.typeMaps p = some m) (h : copyObject c.abi c.rt c.typeMaps p dst = some stores)

/-- A static table (700) of one static field holding 9, laid out by a host of
`width`-byte words: class word, length word 2 (one body word and one mask word),
then the field. -/
def staticRuntime (width : Nat) : Runtime where
  objectClass _ := 600
  body _ := Memory.write (fun _ => 0) 0
    (bytesOf false width 600 ++ bytesOf false width 2 ++ bytesOf false width 9)
  classType := 500
  singletonType := 600
  isSystemClassLoader _ := false
  classStaticTable := 2 * width

/-- The static-table map of a class with `static int` at offset 8 on a 32-bit host. -/
def staticNativeMap : TypeMap :=
  ((layoutFields Abi.native32 [⟨.intField, true, 8⟩]).bind fun r =>
    staticMap Abi.native32 1 r.2).getD classPointerMap

end Visitor

end BootImage
