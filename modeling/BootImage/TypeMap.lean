import BootImage.Memory

/-! The writer's per-entity layout descriptors: the `Type` tags, `Field` and
`TypeMap`. A `TypeMap` lives in a byte array holding the header, the table
`targetFixedOffsets` indexed by build byte offset, and the `Field`s. The table is
written by each builder from the fields, so here it is computed from them. -/
namespace BootImage

/-- The `Type` tags (`Type_none` .. `Type_array`); `Type` is a Lean keyword. -/
inductive Ty where
  | none | object | int8_t | uint8_t | int16_t | uint16_t | int32_t | uint32_t
  | intptr_t | uintptr_t | int64_t | int64_t_pad | uint64_t | float | double
  | double_pad | word | array
  deriving Repr, DecidableEq

/-- One mapped field: its tag, host (build) byte offset and target byte offset. -/
structure Field where
  type : Ty
  offset : Nat
  targetOffset : Nat
  deriving Repr, DecidableEq

/-- `TypeMap::Kind`, which decides the trailing masks. -/
inductive TypeMap.Kind where
  | normalKind | singletonKind | poolKind
  deriving Repr, DecidableEq

/-- `TypeMap`, with `fixedFieldCount` the length of `fixedFields`. -/
structure TypeMap where
  buildFixedSizeInWords : Nat
  targetFixedSizeInWords : Nat
  fixedFields : List Field
  kind : TypeMap.Kind := .normalKind
  buildArrayElementSizeInBytes : Nat := 0
  targetArrayElementSizeInBytes : Nat := 0
  arrayElementType : Ty := .none
  deriving Repr, DecidableEq

namespace TypeMap

/-- `fixedFieldCount`. -/
def fixedFieldCount (m : TypeMap) : Nat := m.fixedFields.length

/-- `targetFixedOffsets()[offset]`. Every builder writes entry `f.offset` with
`f.targetOffset` for each field in order into a zeroed byte array, so an entry
holds the last such write, and 0 when no field has that build offset. -/
def targetFixedOffsets (m : TypeMap) (offset : Nat) : Nat :=
  m.fixedFields.foldl (fun acc f => if f.offset = offset then f.targetOffset else acc) 0

/-- `TypeMap::sizeInBytes`: the header, one host word of table per build byte of
the fixed part, and the fields; `header` and `field` are `sizeof(TypeMap)` and
`sizeof(Field)`. -/
def sizeInBytes (bytesPerWord header field buildFixedSizeInWords fixedFieldCount : Nat) : Nat :=
  header + buildFixedSizeInWords * bytesPerWord * bytesPerWord + field * fixedFieldCount

private theorem foldl_offset_of_not_mem (fields : List Field) (offset init : Nat)
    (h : ∀ f ∈ fields, f.offset ≠ offset) :
    fields.foldl (fun acc f => if f.offset = offset then f.targetOffset else acc) init = init := by
  induction fields generalizing init with
  | nil => rfl
  | cons f fields ih =>
      simp only [List.foldl_cons, if_neg (h f (List.mem_cons_self _ _))]
      exact ih init fun g hg => h g (List.mem_cons_of_mem _ hg)

private theorem foldl_offset_of_mem (fields : List Field) (init : Nat) {f : Field}
    (hf : f ∈ fields) (hunique : ∀ g ∈ fields, g.offset = f.offset → g = f) :
    fields.foldl (fun acc g => if g.offset = f.offset then g.targetOffset else acc) init =
      f.targetOffset := by
  induction fields generalizing init with
  | nil => cases hf
  | cons g fields ih =>
      simp only [List.foldl_cons]
      by_cases hmem : f ∈ fields
      · exact ih _ hmem fun g' hg' => hunique g' (List.mem_cons_of_mem _ hg')
      · have hg : g = f := by
          rcases List.mem_cons.mp hf with h | h
          · exact h.symm
          · exact absurd h hmem
        subst hg
        rw [if_pos rfl]
        exact foldl_offset_of_not_mem fields _ _ fun g' hg' he =>
          hmem (hunique g' (List.mem_cons_of_mem _ hg') he ▸ hg')

/-- Offset lookup consistency: when no other field shares its build offset, the
table entry of a field is its target offset. -/
theorem targetFixedOffsets_of_mem (m : TypeMap) {f : Field} (hf : f ∈ m.fixedFields)
    (hunique : ∀ g ∈ m.fixedFields, g.offset = f.offset → g = f) :
    m.targetFixedOffsets f.offset = f.targetOffset :=
  foldl_offset_of_mem _ _ hf hunique

end TypeMap

end BootImage
