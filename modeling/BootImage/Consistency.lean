import BootImage.CodeImage
import BootImage.ClassFile

/-! What every TypeMap the builders make satisfies. Its fields have distinct build
offsets inside the fixed part, so that `targetFixedOffsets` finds each field's
target offset; their target byte ranges are disjoint, aligned and inside the
target fixed part; a tail array has a nonzero build element size; and the builder's
stores into the map's byte array stay within `TypeMap::sizeInBytes`. The
alignment loops of the field-table and descriptor builders keep the placed fields
`Packed` below the running target offset; a pool's slots are one target word each,
a wide entry's pad taking the word its value runs into. -/
namespace BootImage

namespace Field

variable (abi : Abi)

/-- The end of a field's target byte range: `targetOffset` and the bytes `copy`
writes for its tag. -/
def targetEnd (f : Field) : Nat := f.targetOffset + (copyWidth abi f.type).getD 0

/-- Two fields' target byte ranges share no byte. -/
def Disjoint (f g : Field) : Prop :=
  min (f.targetEnd abi) (g.targetEnd abi) ≤ max f.targetOffset g.targetOffset

instance (f g : Field) : Decidable (f.Disjoint abi g) := inferInstanceAs (Decidable (_ ≤ _))

variable {abi}

theorem disjoint_of_end_le {f g : Field} (h : f.targetEnd abi ≤ g.targetOffset) :
    f.Disjoint abi g :=
  (min_le_left _ _).trans (h.trans (le_max_right _ _))

theorem disjoint_of_empty {f g : Field} (h : g.targetEnd abi = g.targetOffset) :
    f.Disjoint abi g :=
  (min_le_right _ _).trans (h.le.trans (le_max_right _ _))

end Field

namespace TypeMap

variable (abi : Abi)

/-- The stores a builder makes into the byte array of a map, as (offset, width):
the `TypeMap` header, then for each field its `targetFixedOffsets` entry (a host
word indexed by the build offset) and the `Field` itself. `header` and `field` are
`sizeof(TypeMap)` and `sizeof(Field)`. -/
def writes (header field : Nat) (m : TypeMap) : List (Nat × Nat) :=
  (0, header) :: m.fixedFields.enum.flatMap fun (j, f) =>
    [(header + f.offset * abi.bytesPerWord, abi.bytesPerWord),
      (header + m.buildFixedSizeInWords * abi.bytesPerWord * abi.bytesPerWord + j * field, field)]

/-- A TypeMap as the builders make it. -/
structure Consistent (m : TypeMap) : Prop where
  supported : ∀ f ∈ m.fixedFields, (copyWidth abi f.type).isSome
  offsets_nodup : (m.fixedFields.map (·.offset)).Nodup
  offset_lt : ∀ f ∈ m.fixedFields, f.offset < m.buildFixedSizeInWords * abi.bytesPerWord
  lookup : ∀ f ∈ m.fixedFields, m.targetFixedOffsets f.offset = f.targetOffset
  fits : ∀ f ∈ m.fixedFields, f.targetEnd abi ≤ m.targetFixedSizeInWords * abi.targetBytesPerWord
  disjoint : m.fixedFields.Pairwise (Field.Disjoint abi)
  aligned : ∀ f ∈ m.fixedFields, if m.kind = .poolKind then f.targetOffset % abi.targetBytesPerWord = 0
    else f.targetOffset % (copyWidth abi f.type).getD 0 = 0
  element_pos : 0 < m.targetArrayElementSizeInBytes → 0 < m.buildArrayElementSizeInBytes
  writes_within : ∀ header field, ∀ w ∈ m.writes abi header field,
    w.1 + w.2 ≤ sizeInBytes abi.bytesPerWord header field m.buildFixedSizeInWords m.fixedFieldCount

variable {abi}

/-- The builders' byte-array stores stay inside `sizeInBytes` once every build
offset is inside the fixed part. -/
theorem writes_within_of_offset_lt {m : TypeMap}
    (h : ∀ f ∈ m.fixedFields, f.offset < m.buildFixedSizeInWords * abi.bytesPerWord)
    (header field : Nat) :
    ∀ w ∈ m.writes abi header field,
      w.1 + w.2 ≤ sizeInBytes abi.bytesPerWord header field m.buildFixedSizeInWords m.fixedFieldCount := by
  intro w hw
  simp only [writes, List.mem_cons, List.mem_flatMap, Prod.exists] at hw
  rcases hw with rfl | ⟨j, f, hjf, hw⟩
  · simp only [sizeInBytes]
    omega
  · have hj := List.fst_lt_of_mem_enum hjf
    have hf := h f (List.snd_mem_of_mem_enum hjf)
    have htable : (f.offset + 1) * abi.bytesPerWord ≤
        m.buildFixedSizeInWords * abi.bytesPerWord * abi.bytesPerWord := Nat.mul_le_mul_right _ hf
    have hfield : (j + 1) * field ≤ field * m.fixedFieldCount := by
      rw [Nat.mul_comm]; exact Nat.mul_le_mul_left _ hj
    simp only [List.mem_cons, List.mem_singleton, List.not_mem_nil, or_false] at hw
    simp only [sizeInBytes, Nat.succ_mul] at htable hfield ⊢
    rcases hw with rfl | rfl <;> omega

end TypeMap

/-! ### The alignment loops -/

/-- Fields an alignment loop placed below the running target offset `next`: each
of a tag `copy` supports, aligned to its width, and each ending at or before the
start of the ones placed after it. -/
structure Packed (abi : Abi) (fields : List Field) (next : Nat) : Prop where
  supported : ∀ f ∈ fields, (copyWidth abi f.type).isSome
  fits : ∀ f ∈ fields, f.targetEnd abi ≤ next
  ordered : fields.Pairwise fun f g => f.targetEnd abi ≤ g.targetOffset
  aligned : ∀ f ∈ fields, f.targetOffset % (copyWidth abi f.type).getD 0 = 0

variable {abi : Abi}

theorem alignUp_ge (offset : Nat) {size : Nat} (h : 0 < size) : offset ≤ alignUp offset size :=
  ceiling_mul_ge offset size h

theorem alignUp_mod {offset size w : Nat} (h : w ∣ size) : alignUp offset size % w = 0 :=
  Nat.mod_eq_zero_of_dvd (Nat.dvd_trans h (Nat.dvd_mul_left size _))

/-- One pass of an alignment loop keeps the placed fields packed, for a tag whose
width divides the size the loop advances by. -/
theorem Packed.place {p : Placement} (hp : Packed abi p.fields p.next) {type : Ty} {size w : Nat}
    (offset : Nat) (hw : copyWidth abi type = some w) (hsize : 0 < size) (hdvd : w ∣ size) :
    Packed abi (p.place type size offset).fields (p.place type size offset).next := by
  have hge := alignUp_ge p.next hsize
  have hle : w ≤ size := Nat.le_of_dvd hsize hdvd
  have hend : (Field.mk type offset (alignUp p.next size)).targetEnd abi = alignUp p.next size + w := by
    simp [Field.targetEnd, hw]
  simp only [Placement.place]
  refine ⟨?_, ?_, ?_, ?_⟩
  · simp only [List.mem_append, List.mem_singleton]
    rintro f (hf | rfl)
    · exact hp.supported f hf
    · simp [hw]
  · simp only [List.mem_append, List.mem_singleton]
    rintro f (hf | rfl)
    · have := hp.fits f hf; omega
    · omega
  · refine List.pairwise_append.mpr ⟨hp.ordered, List.pairwise_singleton _ _, ?_⟩
    intro f hf g hg
    rw [List.mem_singleton.mp hg]
    have := hp.fits f hf
    exact Nat.le_trans this hge
  · simp only [List.mem_append, List.mem_singleton]
    rintro f (hf | rfl)
    · exact hp.aligned f hf
    · simpa [hw] using alignUp_mod hdvd

/-! ### Class field tables -/

/-- The field-code switch gives a tag `copy` supports, whose width divides the
size the target offset advances by (`char` and `short` take 2 bytes for a 1-byte
tag). -/
theorem fieldType_width {code : FieldCode} {type : Ty} {size : Nat}
    (h : fieldType abi code = some (type, size)) :
    ∃ w, copyWidth abi type = some w ∧ 0 < size ∧ w ∣ size := by
  cases code <;> simp only [fieldType, fieldSize, Option.some.injEq, Prod.mk.injEq,
    reduceCtorEq] at h <;> obtain ⟨rfl, rfl⟩ := h <;>
    first
      | exact ⟨_, rfl, abi.targetBytesPerWord_pos, Nat.dvd_refl _⟩
      | exact ⟨_, rfl, by decide, by decide⟩

theorem memberStart_packed : Packed abi (memberStart abi).fields (memberStart abi).next := by
  refine ⟨?_, ?_, List.pairwise_singleton _ _, ?_⟩ <;> intro f hf <;>
    obtain rfl := List.mem_singleton.mp hf
  · rfl
  · exact (Nat.zero_add _).le
  · exact Nat.zero_mod _

theorem staticStart_packed : Packed abi (staticStart abi).fields (staticStart abi).next := by
  refine ⟨fun f hf => ?_, fun f hf => ?_, List.pairwise_pair.mpr (Nat.zero_add _).le,
    fun f hf => ?_⟩ <;> rcases List.mem_pair.mp hf with rfl | rfl
  · rfl
  · rfl
  · exact show 0 + abi.targetBytesPerWord ≤ 2 * abi.targetBytesPerWord by omega
  · exact show abi.targetBytesPerWord + abi.targetBytesPerWord ≤ 2 * abi.targetBytesPerWord by
      omega
  · exact Nat.zero_mod _
  · exact Nat.mod_self _

/-- The build offsets the VM assigns a class's fields: the instance fields' are
distinct and none is the class pointer's, the statics' are distinct and none is a
header word of the static table. These are exactly the build offsets of the
instance map and of the static-table map. -/
def OffsetsAssigned (abi : Abi) (table : List FieldInfo) : Prop :=
  (0 :: (table.filter (!·.isStatic)).map (·.offset)).Nodup ∧
    (0 :: abi.bytesPerWord :: (table.filter (·.isStatic)).map (·.offset)).Nodup

/-- The field-table loop keeps both layouts packed, and appends each field's
build offset to its own layout. -/
theorem layoutFields_run :
    ∀ (table : List FieldInfo) (acc r : Placement × Placement),
      table.foldlM (fun acc field => (fieldType abi field.code).map fun (type, size) =>
          if field.isStatic then (acc.1, acc.2.place type size field.offset)
          else (acc.1.place type size field.offset, acc.2)) acc = some r →
      Packed abi acc.1.fields acc.1.next → Packed abi acc.2.fields acc.2.next →
      Packed abi r.1.fields r.1.next ∧ Packed abi r.2.fields r.2.next ∧
        r.1.fields.map (·.offset) =
          acc.1.fields.map (·.offset) ++ (table.filter (!·.isStatic)).map (·.offset) ∧
        r.2.fields.map (·.offset) =
          acc.2.fields.map (·.offset) ++ (table.filter (·.isStatic)).map (·.offset)
  | [], acc, r, h, h₁, h₂ => by
      cases h
      simp [h₁, h₂]
  | fi :: table, acc, r, h, h₁, h₂ => by
      simp only [List.foldlM_cons, Option.bind_eq_bind] at h
      obtain ⟨acc', hstep, h⟩ := Option.bind_eq_some.mp h
      obtain ⟨⟨type, size⟩, hft, rfl⟩ := Option.map_eq_some'.mp hstep
      obtain ⟨w, hw, hsize, hdvd⟩ := fieldType_width hft
      dsimp only at h
      cases hs : fi.isStatic
      · simp only [hs, Bool.false_eq_true, if_false] at h
        obtain ⟨hp₁, hp₂, ho₁, ho₂⟩ := layoutFields_run table _ r h (h₁.place fi.offset hw hsize hdvd) h₂
        refine ⟨hp₁, hp₂, ?_, ?_⟩
        · simp [ho₁, Placement.place, hs]
        · simpa [hs] using ho₂
      · simp only [hs, if_true] at h
        obtain ⟨hp₁, hp₂, ho₁, ho₂⟩ := layoutFields_run table _ r h h₁ (h₂.place fi.offset hw hsize hdvd)
        refine ⟨hp₁, hp₂, ?_, ?_⟩
        · simpa [hs] using ho₁
        · simp [ho₂, Placement.place, hs]

/-! ### From the loops to the maps -/

theorem checked_eq_some {m m' : TypeMap} (h : checked abi m = some m') :
    m' = m ∧ ∀ f ∈ m.fixedFields, f.offset < m.buildFixedSizeInWords * abi.bytesPerWord := by
  unfold checked at h
  split at h
  · next hall =>
    cases h
    exact ⟨rfl, fun f hf => by simpa using List.all_eq_true.mp hall f hf⟩
  · cases h

/-- A map whose fields an alignment loop packed below its target fixed part, with
distinct build offsets inside its build fixed part, is consistent. -/
theorem consistent_of_packed {m : TypeMap} {next : Nat} (hp : Packed abi m.fixedFields next)
    (hnext : next ≤ m.targetFixedSizeInWords * abi.targetBytesPerWord)
    (hnodup : (m.fixedFields.map (·.offset)).Nodup)
    (hlt : ∀ f ∈ m.fixedFields, f.offset < m.buildFixedSizeInWords * abi.bytesPerWord)
    (hkind : m.kind ≠ .poolKind)
    (harray : 0 < m.targetArrayElementSizeInBytes → 0 < m.buildArrayElementSizeInBytes) :
    m.Consistent abi where
  supported := hp.supported
  offsets_nodup := hnodup
  offset_lt := hlt
  lookup f hf := m.targetFixedOffsets_of_mem hf fun g hg he =>
    List.inj_on_of_nodup_map hnodup hg hf he
  fits f hf := Nat.le_trans (hp.fits f hf) hnext
  disjoint := hp.ordered.imp Field.disjoint_of_end_le
  aligned f hf := by rw [if_neg hkind]; exact hp.aligned f hf
  element_pos := harray
  writes_within := TypeMap.writes_within_of_offset_lt hlt

/-- The two maps `makeCodeImage` builds from a class's field table, when the VM
assigned its build offsets, are consistent. -/
theorem fieldMaps_consistent {e : ClassEntry} {table : List FieldInfo} {ms : TypeMaps}
    (hassigned : OffsetsAssigned abi table) (h : e.fieldMaps abi table = some ms) :
    ∀ km ∈ ms, km.2.Consistent abi := by
  simp only [ClassEntry.fieldMaps, Option.bind_eq_bind] at h
  obtain ⟨⟨members, statics⟩, hlayout, h⟩ := Option.bind_eq_some.mp h
  obtain ⟨instanceMap, hinstance, h⟩ := Option.bind_eq_some.mp h
  obtain ⟨hp₁, hp₂, ho₁, ho₂⟩ := layoutFields_run table _ _ hlayout memberStart_packed staticStart_packed
  have hinst : instanceMap.Consistent abi := by
    obtain ⟨rfl, hlt⟩ := checked_eq_some hinstance
    refine consistent_of_packed hp₁ (ceiling_mul_ge _ _ abi.targetBytesPerWord_pos) ?_ hlt
      nofun id
    rw [ho₁]
    exact hassigned.1
  have hstatic : ∀ m, staticMap abi e.singletonCount statics = some m → m.Consistent abi := by
    intro m hm
    obtain ⟨rfl, hlt⟩ := checked_eq_some hm
    refine consistent_of_packed hp₂ (ceiling_mul_ge _ _ abi.targetBytesPerWord_pos) ?_ hlt
      nofun id
    rw [ho₂]
    exact hassigned.2
  split at h
  · obtain ⟨staticMaps, hstaticMaps, h⟩ := Option.bind_eq_some.mp h
    obtain ⟨m, hm, rfl⟩ := Option.map_eq_some'.mp hstaticMaps
    cases h
    simp only [List.singleton_append, List.mem_cons, List.mem_singleton, List.not_mem_nil, or_false]
    rintro km (rfl | rfl)
    · exact hstatic m hm
    · exact hinst
  · cases h
    simp only [List.nil_append, List.mem_singleton]
    rintro km rfl
    exact hinst

/-! ### VM type descriptors -/

namespace DescriptorState

/-- The fields the descriptor loop recorded so far: slot `j` with its tag and
offsets. -/
def fields (st : DescriptorState) : List Field :=
  (List.range st.buildOffsets.length).map fun j =>
    ⟨st.types.getD j .none, st.buildOffsets.getD j 0, st.targetOffsets.getD j 0⟩

/-- The descriptor loop before the array marker: one tag and two offsets per
slot, the recorded fields packed below the running target offset, and their build
offsets increasing below the running build offset. -/
structure Invariant (abi : Abi) (st : DescriptorState) : Prop where
  not_array : st.sawArray = false
  types_length : st.types.length = st.buildOffsets.length
  target_length : st.targetOffsets.length = st.buildOffsets.length
  packed : Packed abi st.fields st.targetOffset
  build_sorted : (st.fields.map (·.offset)).Pairwise (· < ·)
  build_lt : ∀ f ∈ st.fields, f.offset < st.buildOffset

/-- Slots read below the recorded ones are the recorded fields, whatever follows
them in the three lists. -/
theorem fields_append (st : DescriptorState) (h₁ : st.types.length = st.buildOffsets.length)
    (h₂ : st.targetOffsets.length = st.buildOffsets.length) {types : List Ty}
    {buildOffsets targetOffsets : List Nat} (ht : ∃ more, types = st.types ++ more)
    (hb : ∃ more, buildOffsets = st.buildOffsets ++ more)
    (hto : ∃ more, targetOffsets = st.targetOffsets ++ more) :
    ((List.range st.buildOffsets.length).map fun j =>
      (⟨types.getD j .none, buildOffsets.getD j 0, targetOffsets.getD j 0⟩ : Field)) = st.fields := by
  obtain ⟨_, rfl⟩ := ht
  obtain ⟨_, rfl⟩ := hb
  obtain ⟨_, rfl⟩ := hto
  refine List.map_congr_left fun j hj => ?_
  have hj := List.mem_range.mp hj
  rw [List.getD_append _ _ _ _ (by omega), List.getD_append _ _ _ _ hj,
    List.getD_append _ _ _ _ (by omega)]

variable {abi : Abi} {st st' : DescriptorState} {tag : Ty}

/-- A recognized tag other than the array marker gives a tag `copy` supports,
as wide as its target size, and nonzero sizes. -/
theorem descriptorType_width {type : Ty} {b t : Nat} (h : descriptorType abi tag = some (type, b, t))
    (htag : tag ≠ .array) : copyWidth abi type = some t ∧ 0 < t ∧ 0 < b := by
  cases tag <;> cases h
  all_goals first
    | exact absurd rfl htag
    | exact ⟨rfl, abi.targetBytesPerWord_pos, abi.bytesPerWord_pos⟩
    | exact ⟨rfl, by decide, by decide⟩

/-- One pass of the loop before the array marker records the slot's aligned
offsets and advances both running offsets. -/
theorem step_eq (hnot : st.sawArray = false) (htag : tag ≠ .array)
    (h : step abi st tag = some st') :
    ∃ type b t, descriptorType abi tag = some (type, b, t) ∧
      st' = ⟨st.types ++ [type], st.buildOffsets ++ [alignUp st.buildOffset b],
        st.targetOffsets ++ [alignUp st.targetOffset t], alignUp st.buildOffset b + b,
        alignUp st.targetOffset t + t, false, b, t⟩ := by
  obtain ⟨⟨type, b, t⟩, hd, rfl⟩ := Option.map_eq_some'.mp h
  refine ⟨type, b, t, hd, ?_⟩
  have : (st.sawArray || tag == .array) = false := by simp [hnot, htag]
  simp only [this, Bool.false_eq_true, if_false]

/-- The loop before the array marker keeps its invariant and records one slot. -/
theorem Invariant.step (hinv : Invariant abi st) (htag : tag ≠ .array)
    (h : step abi st tag = some st') :
    Invariant abi st' ∧ st'.buildOffsets.length = st.buildOffsets.length + 1 := by
  obtain ⟨type, b, t, hd, rfl⟩ := step_eq hinv.not_array htag h
  obtain ⟨hw, ht, hb⟩ := descriptorType_width hd htag
  have hfields : fields ⟨st.types ++ [type], st.buildOffsets ++ [alignUp st.buildOffset b],
      st.targetOffsets ++ [alignUp st.targetOffset t], alignUp st.buildOffset b + b,
      alignUp st.targetOffset t + t, false, b, t⟩ =
      st.fields ++ [⟨type, alignUp st.buildOffset b, alignUp st.targetOffset t⟩] := by
    simp only [fields, List.length_append, List.length_singleton, List.range_succ, List.map_append,
      fields_append st hinv.types_length hinv.target_length ⟨_, rfl⟩ ⟨_, rfl⟩ ⟨_, rfl⟩,
      List.map_singleton]
    rw [List.getD_append_right _ _ _ _ (by rw [hinv.types_length]),
      List.getD_append_right _ _ _ _ (Nat.le_refl _),
      List.getD_append_right _ _ _ _ (by rw [hinv.target_length])]
    simp [hinv.types_length, hinv.target_length]
  have hge := alignUp_ge st.buildOffset hb
  refine ⟨⟨rfl, by simp [hinv.types_length], by simp [hinv.target_length], ?_, ?_, ?_⟩, by simp⟩
  · rw [hfields]
    exact @Packed.place abi ⟨st.fields, st.targetOffset⟩ hinv.packed _ _ _ _ hw ht (Nat.dvd_refl t)
  · rw [hfields, List.map_append, List.map_singleton]
    refine List.pairwise_append.mpr ⟨hinv.build_sorted, List.pairwise_singleton _ _, ?_⟩
    intro o ho o' ho'
    obtain ⟨f, hf, rfl⟩ := List.mem_map.mp ho
    rw [List.mem_singleton.mp ho']
    exact Nat.lt_of_lt_of_le (hinv.build_lt f hf) hge
  · rw [hfields]
    simp only [List.mem_append, List.mem_singleton]
    rintro f (hf | rfl)
    · have := hinv.build_lt f hf; omega
    · dsimp only; omega

theorem start_invariant : Invariant abi (start abi) := by
  have := abi.bytesPerWord_pos
  refine ⟨rfl, rfl, rfl, memberStart_packed, List.pairwise_singleton _ _, ?_⟩
  simp [fields, start, this]

/-- The loop over tags without the array marker keeps the invariant and records a
slot per tag. -/
theorem Invariant.foldlM :
    ∀ (source : List Ty) {st st' : DescriptorState}, .array ∉ source →
      source.foldlM (DescriptorState.step abi) st = some st' → Invariant abi st →
      Invariant abi st' ∧ st'.buildOffsets.length = st.buildOffsets.length + source.length
  | [], _, _, _, h, hinv => by cases h; exact ⟨hinv, rfl⟩
  | tag :: source, _, _, hmem, h, hinv => by
      simp only [List.foldlM_cons, Option.bind_eq_bind] at h
      obtain ⟨st₁, h₁, h⟩ := Option.bind_eq_some.mp h
      have htag : tag ≠ .array := fun he => hmem (he ▸ List.mem_cons_self _ _)
      obtain ⟨hinv₁, hlen₁⟩ := hinv.step htag h₁
      obtain ⟨hinv', hlen'⟩ :=
        Invariant.foldlM source (fun hm => hmem (List.mem_cons_of_mem _ hm)) h hinv₁
      exact ⟨hinv', by simp only [List.length_cons]; omega⟩

/-- Every pass of the loop only appends to the tags and the offsets. -/
theorem foldlM_extends :
    ∀ (source : List Ty) {st st' : DescriptorState}, source.foldlM (step abi) st = some st' →
      (∃ more, st'.types = st.types ++ more) ∧ (∃ more, st'.buildOffsets = st.buildOffsets ++ more) ∧
        ∃ more, st'.targetOffsets = st.targetOffsets ++ more
  | [], _, _, h => by cases h; exact ⟨⟨[], by simp⟩, ⟨[], by simp⟩, ⟨[], by simp⟩⟩
  | tag :: source, st, _, h => by
      simp only [List.foldlM_cons, Option.bind_eq_bind] at h
      obtain ⟨st₁, h₁, h⟩ := Option.bind_eq_some.mp h
      obtain ⟨⟨t, ht⟩, ⟨b, hb⟩, ⟨o, ho⟩⟩ := foldlM_extends source h
      obtain ⟨⟨type, bs, ts⟩, -, rfl⟩ := Option.map_eq_some'.mp h₁
      dsimp only at ht hb ho
      by_cases hsaw : (st.sawArray || tag == .array) = true
      · simp only [hsaw, if_true] at ht hb ho
        exact ⟨⟨_, by rw [ht, List.append_assoc]⟩, ⟨_, hb⟩, ⟨_, ho⟩⟩
      · simp only [hsaw, Bool.false_eq_true, if_false] at ht hb ho
        exact ⟨⟨_, by rw [ht, List.append_assoc]⟩, ⟨_, by rw [hb, List.append_assoc]⟩,
          ⟨_, by rw [ho, List.append_assoc]⟩⟩

/-- The loop from its start keeps the class pointer as the first recorded field. -/
theorem fields_head {source : List Ty} {st : DescriptorState}
    (h : source.foldlM (step abi) (start abi) = some st) :
    ∃ rest, st.fields = ⟨.object, 0, 0⟩ :: rest := by
  obtain ⟨⟨t, ht⟩, ⟨b, hb⟩, ⟨o, ho⟩⟩ := foldlM_extends source h
  have hlen : st.buildOffsets.length = b.length + 1 := by
    rw [hb]
    simp [start, Nat.add_comm]
  refine ⟨(List.range b.length).map fun j => ⟨st.types.getD (j + 1) .none,
    st.buildOffsets.getD (j + 1) 0, st.targetOffsets.getD (j + 1) 0⟩, ?_⟩
  rw [fields, hlen, List.range_succ_eq_map, List.map_cons, List.map_map]
  congr 1
  simp [ht, hb, ho, start]

end DescriptorState

/-- A descriptor whose array marker, if any, is its second-to-last tag is a list
of fields followed by the marker and the element tag. -/
theorem eq_append_of_array_mem {source : List Ty}
    (harray : ∀ i, source[i]? = some .array → i + 2 = source.length) (hmem : .array ∈ source) :
    ∃ pre elem, source = pre ++ [.array, elem] ∧ .array ∉ pre ∧ elem ≠ .array := by
  obtain ⟨pre, rest, rfl⟩ := List.append_of_mem hmem
  have hat := harray pre.length (by rw [List.getElem?_append_right (Nat.le_refl _), Nat.sub_self, List.getElem?_cons_zero])
  obtain ⟨elem, rfl⟩ : ∃ elem, rest = [elem] := by
    match rest, hat with
    | [elem], _ => exact ⟨elem, rfl⟩
    | [], h | _ :: _ :: _, h => simp at h
  refine ⟨pre, elem, rfl, fun hpre => ?_, fun helem => ?_⟩
  · obtain ⟨i, hi, hget⟩ := List.getElem_of_mem hpre
    have := harray i (by rw [List.getElem?_append_left hi, List.getElem?_eq_getElem hi, hget])
    simp only [List.length_append, List.length_cons, List.length_nil] at this
    omega
  · have := harray (pre.length + 1)
      (by rw [List.getElem?_append_right (by omega), Nat.add_sub_cancel_left, helem]; rfl)
    simp at this

/-- A map made from the fields the descriptor loop recorded, sized by its
running target offset, is consistent. -/
theorem consistent_of_descriptor {st : DescriptorState} (hinv : DescriptorState.Invariant abi st)
    {m : TypeMap} (hfields : m.fixedFields = st.fields)
    (htarget : m.targetFixedSizeInWords = ceiling st.targetOffset abi.targetBytesPerWord)
    (hlt : ∀ f ∈ m.fixedFields, f.offset < m.buildFixedSizeInWords * abi.bytesPerWord)
    (hkind : m.kind = .normalKind)
    (harray : 0 < m.targetArrayElementSizeInBytes → 0 < m.buildArrayElementSizeInBytes) :
    m.Consistent abi := by
  have hp : Packed abi m.fixedFields st.targetOffset := by rw [hfields]; exact hinv.packed
  refine consistent_of_packed hp
    (by rw [htarget]; exact ceiling_mul_ge _ _ abi.targetBytesPerWord_pos)
    (by rw [hfields]; exact hinv.build_sorted.nodup) hlt (by rw [hkind]; decide) harray

/-- The loop runs through every descriptor of recognized tags. -/
theorem foldlM_step_eq_some :
    ∀ (source : List Ty) (st : DescriptorState), (∀ tag ∈ source, (descriptorType abi tag).isSome) →
      ∃ st', source.foldlM (DescriptorState.step abi) st = some st'
  | [], st, _ => ⟨st, rfl⟩
  | tag :: source, st, h => by
      obtain ⟨d, hd⟩ := Option.isSome_iff_exists.mp (h tag (List.mem_cons_self _ _))
      obtain ⟨st', h'⟩ := foldlM_step_eq_some source (DescriptorState.step abi st tag |>.get
        (by simp [DescriptorState.step, hd])) fun t ht => h t (List.mem_cons_of_mem _ ht)
      exact ⟨st', by simp only [List.foldlM_cons, Option.bind_eq_bind, Option.bind_eq_some]; exact
        ⟨_, Option.some_get _ |>.symm, h'⟩⟩

/-- The map of a VM type whose descriptor lists recognized tags, with the array
marker only as the second-to-last, is the map of the fields the loop packed
before the marker, and a tail array's element has a nonzero build size and a tag
`copy` supports, no wider than its target size. -/
theorem descriptorMap_eq_some {source : List Ty}
    (hrecognized : ∀ tag ∈ source, (descriptorType abi tag).isSome)
    (harray : ∀ i, source[i]? = some .array → i + 2 = source.length) :
    ∃ st, DescriptorState.Invariant abi st ∧ ∃ b t elementType,
      descriptorMap abi source = some ⟨ceiling st.buildOffset abi.bytesPerWord,
        ceiling st.targetOffset abi.targetBytesPerWord, st.fields, .normalKind, b, t, elementType⟩ ∧
      (t ≠ 0 → 0 < b ∧ ∃ w ∈ copyWidth abi elementType, w ≤ t) ∧
      ∃ rest, st.fields = ⟨.object, 0, 0⟩ :: rest := by
  have hchecked : ∀ {st : DescriptorState}, DescriptorState.Invariant abi st → ∀ b t e,
      checked abi ⟨ceiling st.buildOffset abi.bytesPerWord, ceiling st.targetOffset
        abi.targetBytesPerWord, st.fields, .normalKind, b, t, e⟩ =
      some ⟨ceiling st.buildOffset abi.bytesPerWord, ceiling st.targetOffset
        abi.targetBytesPerWord, st.fields, .normalKind, b, t, e⟩ := fun hinv b t e =>
    if_pos (List.all_eq_true.mpr fun f hf => decide_eq_true (Nat.lt_of_lt_of_le (hinv.build_lt f hf)
      (ceiling_mul_ge _ _ abi.bytesPerWord_pos)))
  by_cases hmem : Ty.array ∈ source
  · obtain ⟨pre, elem, rfl, hpre, helem⟩ := eq_append_of_array_mem harray hmem
    obtain ⟨st₀, h₀⟩ := foldlM_step_eq_some pre (DescriptorState.start abi)
      fun t ht => hrecognized t (List.mem_append_left _ ht)
    obtain ⟨hinv, hlen⟩ := DescriptorState.Invariant.foldlM pre hpre h₀ DescriptorState.start_invariant
    obtain ⟨⟨type, b, t⟩, hd⟩ := Option.isSome_iff_exists.mp (hrecognized elem (by simp))
    obtain ⟨hw, -, hb⟩ := DescriptorState.descriptorType_width hd helem
    refine ⟨st₀, hinv, b, t, type, ?_, fun _ => ⟨hb, t, hw, Nat.le_refl t⟩,
      DescriptorState.fields_head h₀⟩
    have harr : descriptorType abi .array = some (.none, 0, 0) := rfl
    have htypes : st₀.types.length = pre.length + 1 := by
      rw [hinv.types_length, hlen]; simp [DescriptorState.start, Nat.add_comm]
    simp only [descriptorMap, Option.bind_eq_bind, List.foldlM_append, h₀, Option.some_bind,
      List.foldlM_cons, List.foldlM_nil, DescriptorState.step, harr, hd, Option.map_some',
      hinv.not_array, Bool.false_or, beq_self_eq_true, if_true, Bool.true_or, Option.pure_def]
    rw [List.getD_append_right _ _ _ _ (by
        simp only [htypes, List.length_append, List.length_cons, List.length_nil]; omega),
      show (pre ++ [Ty.array, elem]).length + 1 - 2 = st₀.buildOffsets.length by
        simp only [hlen, DescriptorState.start, List.length_append, List.length_cons,
          List.length_singleton, List.length_nil]; omega,
      DescriptorState.fields_append st₀ hinv.types_length hinv.target_length
        ⟨_, List.append_assoc _ _ _⟩ ⟨[], (List.append_nil _).symm⟩ ⟨[], (List.append_nil _).symm⟩]
    simpa [htypes] using hchecked hinv b t type
  · obtain ⟨st, hfold⟩ := foldlM_step_eq_some source (DescriptorState.start abi) hrecognized
    obtain ⟨hinv, hlen⟩ := DescriptorState.Invariant.foldlM source hmem hfold
      DescriptorState.start_invariant
    refine ⟨st, hinv, 0, 0, .none, ?_, fun h => absurd rfl h, DescriptorState.fields_head hfold⟩
    simp only [descriptorMap, Option.bind_eq_bind, hfold, Option.some_bind, hinv.not_array,
      Bool.false_eq_true, if_false]
    rw [show source.length + 1 = st.buildOffsets.length by
      simp only [hlen, DescriptorState.start, List.length_singleton]; omega,
      DescriptorState.fields_append st hinv.types_length hinv.target_length
      ⟨[], (List.append_nil _).symm⟩ ⟨[], (List.append_nil _).symm⟩ ⟨[], (List.append_nil _).symm⟩]
    exact hchecked hinv 0 0 .none

/-- The map of a VM type whose descriptor lists recognized tags, with the array
marker only as the second-to-last, is made and is consistent. -/
theorem descriptorMap_consistent {source : List Ty}
    (hrecognized : ∀ tag ∈ source, (descriptorType abi tag).isSome)
    (harray : ∀ i, source[i]? = some .array → i + 2 = source.length) :
    ∃ m, descriptorMap abi source = some m ∧ m.Consistent abi := by
  obtain ⟨st, hinv, b, t, e, h, hbt, -⟩ := descriptorMap_eq_some hrecognized harray
  refine ⟨_, h, consistent_of_descriptor hinv rfl rfl ?_ rfl fun ht => (hbt ht.ne').1⟩
  exact fun f hf => Nat.lt_of_lt_of_le (hinv.build_lt f hf) (ceiling_mul_ge _ _ abi.bytesPerWord_pos)

/-! ### Constant pools -/

/-- Each slot's tag fits a target word, except a wide value, which runs into the
next slot, a pad of width 0. -/
def SlotWidths (abi : Abi) (types : List Ty) : Prop :=
  ∀ i < types.length, ∃ w ∈ copyWidth abi (types.getD i .none), w ≤ abi.targetBytesPerWord ∨
    (w = 8 ∧ i + 1 < types.length ∧ copyWidth abi (types.getD (i + 1) .none) = some 0)

theorem SlotWidths.append {l₁ l₂ : List Ty} (h₁ : SlotWidths abi l₁) (h₂ : SlotWidths abi l₂) :
    SlotWidths abi (l₁ ++ l₂) := by
  intro i hi
  rw [List.length_append] at hi ⊢
  by_cases hlt : i < l₁.length
  · obtain ⟨w, hw, hcase⟩ := h₁ i hlt
    refine ⟨w, by rwa [List.getD_append _ _ _ _ hlt], ?_⟩
    rcases hcase with hle | ⟨h8, hnext, hpad⟩
    · exact .inl hle
    · exact .inr ⟨h8, by omega, by rwa [List.getD_append _ _ _ _ hnext]⟩
  · obtain ⟨w, hw, hcase⟩ := h₂ (i - l₁.length) (by omega)
    refine ⟨w, by rwa [List.getD_append_right _ _ _ _ (by omega)], ?_⟩
    rcases hcase with hle | ⟨h8, hnext, hpad⟩
    · exact .inl hle
    · refine .inr ⟨h8, by omega, ?_⟩
      rwa [List.getD_append_right _ _ _ _ (by omega), show i + 1 - l₁.length = i - l₁.length + 1 by omega]

theorem slotWidths_single {t : Ty} {w : Nat} (hw : copyWidth abi t = some w)
    (hle : w ≤ abi.targetBytesPerWord) : SlotWidths abi [t] := by
  intro i hi
  obtain rfl : i = 0 := by simp only [List.length_singleton] at hi; omega
  exact ⟨w, hw, .inl hle⟩

theorem slotWidths_wide {t pad : Ty} (hw : copyWidth abi t = some 8) (hpad : copyWidth abi pad = some 0) :
    SlotWidths abi [t, pad] := by
  intro i hi
  obtain rfl | rfl : i = 0 ∨ i = 1 := by simp only [List.length_cons, List.length_nil] at hi; omega
  · exact ⟨8, hw, .inr ⟨rfl, by simp, hpad⟩⟩
  · exact ⟨0, hpad, .inl (Nat.zero_le _)⟩

theorem slotWidths_slotTypes (c : Constant) : SlotWidths abi c.slotTypes := by
  have h4 : 4 ≤ abi.targetBytesPerWord := by rcases abi.targetBytesPerWord_cases with h | h <;> omega
  cases c <;> first
    | exact slotWidths_single rfl (Nat.le_refl _)
    | exact slotWidths_single rfl h4
    | exact slotWidths_wide rfl rfl

theorem slotWidths_classFile (cf : ClassFile) :
    SlotWidths abi ([.object, .intptr_t] ++ cf.pool.flatMap Constant.slotTypes) := by
  refine SlotWidths.append ?_ ?_
  · intro i hi
    obtain rfl | rfl : i = 0 ∨ i = 1 := by simp at hi; omega
    all_goals exact ⟨abi.targetBytesPerWord, rfl, .inl (Nat.le_refl _)⟩
  · induction cf.pool with
    | nil => intro i hi; simp at hi
    | cons c pool ih => exact (slotWidths_slotTypes c).append ih

/-- A pool map over tags with these slot widths, one tag for each of its
`count + 2` slots, is consistent. -/
theorem poolMap_consistent {types : List Ty} {count : Nat} (hlen : types.length = u32 (count + 2))
    (hw : SlotWidths abi types) : (poolMap abi types count).Consistent abi := by
  have hT : 4 ≤ abi.targetBytesPerWord := by rcases abi.targetBytesPerWord_cases with h | h <;> omega
  have hB := abi.bytesPerWord_pos
  have hnodup : (((List.range types.length).map fun i =>
      (⟨types.getD i .none, i * abi.bytesPerWord, i * abi.targetBytesPerWord⟩ : Field)).map
        (·.offset)).Nodup := by
    rw [List.map_map]
    exact (List.nodup_range _).map fun i j h => Nat.eq_of_mul_eq_mul_right hB h
  have hlt : ∀ f ∈ (poolMap abi types count).fixedFields,
      f.offset < (poolMap abi types count).buildFixedSizeInWords * abi.bytesPerWord := by
    simp only [poolMap, ← hlen, List.mem_map, List.mem_range]
    rintro f ⟨i, hi, rfl⟩
    exact Nat.mul_lt_mul_of_pos_right hi hB
  -- slot `i`'s range ends in its own word, or a wide value's in the pad's after it
  have hend : ∀ i < types.length, ∃ w ∈ copyWidth abi (types.getD i .none),
      (⟨types.getD i .none, i * abi.bytesPerWord, i * abi.targetBytesPerWord⟩ : Field).targetEnd abi =
        i * abi.targetBytesPerWord + w ∧
      (i * abi.targetBytesPerWord + w ≤ (i + 1) * abi.targetBytesPerWord ∨
        i * abi.targetBytesPerWord + w ≤ (i + 2) * abi.targetBytesPerWord ∧ i + 1 < types.length ∧
          copyWidth abi (types.getD (i + 1) .none) = some 0) := by
    intro i hi
    obtain ⟨w, hwi, hcase⟩ := hw i hi
    refine ⟨w, hwi, by simp only [Field.targetEnd, Option.mem_def.mp hwi, Option.getD_some], ?_⟩
    rw [Nat.succ_mul, Nat.add_mul]
    rcases hcase with hle | ⟨rfl, hnext, hpad⟩
    · exact .inl (by omega)
    · exact .inr ⟨by omega, hnext, hpad⟩
  simp only [poolMap, ← hlen] at hlt ⊢
  refine ⟨?_, hnodup, hlt, ?_, ?_, ?_, ?_, fun h => absurd h (Nat.lt_irrefl 0),
    TypeMap.writes_within_of_offset_lt hlt⟩
  · simp only [List.mem_map, List.mem_range]
    rintro f ⟨i, hi, rfl⟩
    obtain ⟨w, hw, -⟩ := hw i hi
    simp only [Option.mem_def.mp hw, Option.isSome_some]
  · intro f hf
    exact TypeMap.targetFixedOffsets_of_mem _ hf fun g hg he => List.inj_on_of_nodup_map hnodup hg hf he
  · simp only [List.mem_map, List.mem_range]
    rintro f ⟨i, hi, rfl⟩
    obtain ⟨w, -, hf, hle | ⟨hle, hnext, -⟩⟩ := hend i hi
    · exact hf ▸ hle.trans (Nat.mul_le_mul_right _ hi)
    · exact hf ▸ hle.trans (Nat.mul_le_mul_right _ hnext)
  · refine List.pairwise_map.mpr ((List.pairwise_lt_range _).imp_of_mem fun {i j} hi hj hij => ?_)
    obtain ⟨w, -, hf, hle | ⟨hle, -, hpad⟩⟩ := hend i (List.mem_range.mp hi)
    · exact Field.disjoint_of_end_le (hf ▸ hle.trans (Nat.mul_le_mul_right _ hij))
    · by_cases hj1 : j = i + 1
      · subst hj1
        exact Field.disjoint_of_empty (by simp only [Field.targetEnd, hpad, Option.getD_some,
          Nat.add_zero])
      · exact Field.disjoint_of_end_le
          (hf ▸ hle.trans (Nat.mul_le_mul_right _ (show i + 2 ≤ j by omega)))
  · simp only [List.mem_map, List.mem_range, if_true]
    rintro f ⟨i, -, rfl⟩
    exact Nat.mul_mod_left _ _

/-- The pool map of every well-formed class file is consistent. -/
theorem classPoolMap_consistent (cf : ClassFile) {m : TypeMap}
    (h : classPoolMap abi cf.encode = some (some m)) : m.Consistent abi := by
  rw [ClassFile.classPoolMap_encode] at h
  split at h
  · cases h
  · cases h
    refine poolMap_consistent ?_ (slotWidths_classFile cf)
    have := cf.poolCount_lt
    simp only [List.length_append, List.length_cons, List.length_nil, u32, ClassFile.slots] at this ⊢
    omega

/-- Every TypeMap the three builders make is consistent: the map of every VM type
whose descriptor lists recognized tags with the array marker, if any, second to
last (and such a map is always made); both maps of every class whose field table
has the build offsets the VM assigns; and the pool map of every class file. -/
theorem typeMaps_consistent (abi : Abi) :
    (∀ source : List Ty, (∀ tag ∈ source, (descriptorType abi tag).isSome) →
      (∀ i, source[i]? = some .array → i + 2 = source.length) →
      ∃ m, descriptorMap abi source = some m ∧ m.Consistent abi) ∧
    (∀ (e : ClassEntry) (table : List FieldInfo) (ms : TypeMaps), OffsetsAssigned abi table →
      e.fieldMaps abi table = some ms → ∀ km ∈ ms, km.2.Consistent abi) ∧
    (∀ (cf : ClassFile) (m : TypeMap), classPoolMap abi cf.encode = some (some m) →
      m.Consistent abi) :=
  ⟨fun _ => descriptorMap_consistent, fun _ _ _ => fieldMaps_consistent,
    fun cf _ => classPoolMap_consistent cf⟩

end BootImage
