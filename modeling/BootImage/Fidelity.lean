import BootImage.Consistency

/-! What an object's target bytes hold once all of `copy`'s stores are made. The
fields' target byte ranges are disjoint and inside the fixed part, the tail-array
elements follow one another after it, and the masks lie after it too, so every
field and element reads back as the bytes `copy(t, src, dst, type)` made for it.
The target then reads a scalar as its host value, a word as its host value
converted to the target width, and a reference slot as zero until the visitor
patches it. On a target with the host's word size and byte order this is the
compiled-out `DebugNativeTarget` check `nonObjectsEqual`, which therefore never
fails. -/
namespace BootImage

/-! ### Stores that read back -/

section Readback

variable {α : Type} {bigEndian : Bool}

/-- The stores of a `mapM` that makes one `memcpy` of `data x` at `addr x` per
item read back item by item, when no later item and no store made after them
writes a byte of an earlier item's range. -/
theorem read_mapM_put (addr width : α → Nat) (data : α → Option (List UInt8))
    {xs : List α} {stores : List Store} (post : List Store)
    (hwidth : ∀ x ∈ xs, ∀ bytes, data x = some bytes → bytes.length = width x)
    (hsep : xs.Pairwise fun x y =>
      ∀ i < width x, addr x + i < addr y ∨ addr y + width y ≤ addr x + i)
    (h : xs.mapM (fun x => (data x).map (.put (addr x))) = some stores)
    {x : α} (hx : x ∈ xs) {bytes : List UInt8} (hbytes : data x = some bytes)
    (hpost : ∀ st ∈ post, ∀ i < width x, addr x + i < st.addr ∨ st.addr + st.width ≤ addr x + i)
    (mem : Memory) :
    (Store.applyAll bigEndian (stores ++ post) mem).read (addr x) (width x) = bytes := by
  induction xs generalizing stores mem with
  | nil => exact absurd hx (List.not_mem_nil x)
  | cons y ys ih =>
      simp only [List.mapM_cons, Option.bind_eq_bind] at h
      obtain ⟨st, hst, h⟩ := Option.bind_eq_some.mp h
      obtain ⟨stores', hstores', h⟩ := Option.bind_eq_some.mp h
      cases h
      obtain ⟨hy, hys⟩ := List.pairwise_cons.mp hsep
      rw [List.cons_append, Store.applyAll_cons]
      by_cases hx' : x ∈ ys
      · exact ih (fun z hz => hwidth z (List.mem_cons_of_mem _ hz)) hys hstores' hx' _
      · obtain rfl : x = y := (List.mem_cons.mp hx).resolve_right hx'
        obtain ⟨b, hb, rfl⟩ := Option.map_eq_some'.mp hst
        obtain rfl : b = bytes := Option.some.inj (hb.symm.trans hbytes)
        refine (Store.read_applyAll_of_not_mem _ fun st hs i hi => ?_).trans
          (Memory.read_write_of_length (hwidth x hx _ hbytes))
        rcases List.mem_append.mp hs with hs | hs
        · obtain ⟨z, hz, hst⟩ := exists_of_mapM_eq_some hstores' st hs
          obtain ⟨bz, hbz, rfl⟩ := Option.map_eq_some'.mp hst
          rw [Store.addr_put, Store.width_put, hwidth z (List.mem_cons_of_mem _ hz) bz hbz]
          exact hy z hz i hi
        · exact hpost st hs i hi

end Readback

/-! ### What the target reads -/

variable (abi : Abi)

/-- What the target reads of a datum of tag `type` that `copy` moved from host
byte `o` of `src` to byte `d` of `heap`: the byte itself, a scalar's host value in
the target's byte order, a word's host value through the width conversion, a
zeroed reference slot, and nothing for a pad. No other tag is copied. -/
def Transcribed (src heap : Memory) (o d : Nat) : Ty → Prop
  | .int8_t => heap.read d 1 = src.read o 1
  | .int16_t => valueOf abi.targetBigEndian (heap.read d 2) = valueOf abi.bigEndian (src.read o 2)
  | .int32_t | .float =>
      valueOf abi.targetBigEndian (heap.read d 4) = valueOf abi.bigEndian (src.read o 4)
  | .int64_t | .double =>
      valueOf abi.targetBigEndian (heap.read d 8) = valueOf abi.bigEndian (src.read o 8)
  | .int64_t_pad | .double_pad => True
  | .intptr_t => valueOf abi.targetBigEndian (heap.read d abi.targetBytesPerWord) =
      abi.toTargetWord (valueOf abi.bigEndian (src.read o abi.bytesPerWord))
        % 256 ^ abi.targetBytesPerWord
  | .object => heap.read d abi.targetBytesPerWord = List.replicate abi.targetBytesPerWord 0
  | _ => False

/-- `nonObjectsEqual(src, dst, type)`: whether a field's bytes at `src` and at
`dst` agree, by `memcmp` over its tag's width (a word's host width); a reference
or a pad is not compared. `none` where the source aborts. -/
def nonObjectsEqual (src dst : Memory) (srcOffset dstOffset : Nat) : Ty → Option Bool
  | .int8_t => some (dst.read dstOffset 1 == src.read srcOffset 1)
  | .int16_t => some (dst.read dstOffset 2 == src.read srcOffset 2)
  | .int32_t | .float => some (dst.read dstOffset 4 == src.read srcOffset 4)
  | .int64_t | .double => some (dst.read dstOffset 8 == src.read srcOffset 8)
  | .int64_t_pad | .double_pad => some true
  | .intptr_t => some (dst.read dstOffset abi.bytesPerWord == src.read srcOffset abi.bytesPerWord)
  | .object => some true
  | _ => none

/-- `nonObjectsEqual(map, src, dst)`: the check over the fixed fields, then over
the elements of a tail array, whose count the last host word of `src`'s fixed part
holds. The first mismatch answers `false`. -/
def TypeMap.nonObjectsEqual (m : TypeMap) (src dst : Memory) (base : Nat) : Option Bool := do
  let fieldsEqual ← m.fixedFields.allM fun f =>
    BootImage.nonObjectsEqual abi src dst f.offset (base + f.targetOffset) f.type
  if fieldsEqual then
    if m.targetArrayElementSizeInBytes ≠ 0 then
      let fixedSize := m.buildFixedSizeInWords * abi.bytesPerWord
      (List.range (valueOf abi.bigEndian (src.read (fixedSize - abi.bytesPerWord)
          abi.bytesPerWord))).allM fun i =>
        BootImage.nonObjectsEqual abi src dst (fixedSize + i * m.buildArrayElementSizeInBytes)
          (base + m.targetFixedSizeInWords * abi.targetBytesPerWord
            + i * m.targetArrayElementSizeInBytes) m.arrayElementType
    else pure true
  else pure false

variable {abi}

@[simp] theorem length_transcribe (src : Memory) (offset width : Nat) :
    (transcribe abi src offset width).length = width := length_bytesOf _ _ _

/-- Bytes of one length that read as one value in one byte order are the same. -/
theorem eq_of_valueOf_eq {bigEndian : Bool} {b b' : List UInt8} (hlen : b.length = b'.length)
    (h : valueOf bigEndian b = valueOf bigEndian b') : b = b' := by
  rw [← bytesOf_valueOf bigEndian b, ← bytesOf_valueOf bigEndian b', h, hlen]

theorem transcribed_of_read {src heap : Memory} {o d : Nat} {type : Ty} {bytes : List UInt8}
    (hcopy : copyField abi src o type = some bytes) (hread : heap.read d bytes.length = bytes) :
    Transcribed abi src heap o d type := by
  have hscalar : ∀ w, heap.read d w = transcribe abi src o w →
      valueOf abi.targetBigEndian (heap.read d w) = valueOf abi.bigEndian (src.read o w) :=
    fun w h => by
      rw [h, transcribe_eq, valueOf_bytesOf, Nat.mod_eq_of_lt]
      simpa using valueOf_lt abi.bigEndian (src.read o w)
  cases type <;> simp only [copyField, Option.some.injEq, reduceCtorEq] at hcopy <;> subst hcopy <;>
    simp only [Transcribed, length_transcribe, Memory.length_read, length_bytesOf,
      List.length_replicate] at hread ⊢
  case int8_t => exact hread
  case int16_t => exact hscalar 2 hread
  case int32_t | float => exact hscalar 4 hread
  case int64_t | double => exact hscalar 8 hread
  case intptr_t =>
    rw [hread, Abi.targetVW, Abi.bytesOf_targetV, valueOf_bytesOf]
  case object => exact hread

section Native

variable (hword : abi.targetBytesPerWord = abi.bytesPerWord)
  (hendian : abi.targetBigEndian = abi.bigEndian)

include hword hendian in
/-- On a target with the host's word size and byte order, a transcribed datum has
the host's bytes, so `nonObjectsEqual` finds it equal. -/
theorem nonObjectsEqual_of_transcribed {src dst : Memory} {o d : Nat} {type : Ty}
    (h : Transcribed abi src dst o d type) : nonObjectsEqual abi src dst o d type = some true := by
  have hsame : ∀ w, valueOf abi.targetBigEndian (dst.read d w) = valueOf abi.bigEndian (src.read o w) →
      (dst.read d w == src.read o w) = true := fun w h => by
    rw [hendian] at h
    exact beq_iff_eq.mpr (eq_of_valueOf_eq (by simp) h)
  cases type <;> simp only [Transcribed] at h <;>
    simp only [nonObjectsEqual, Option.some.injEq]
  case int8_t => exact beq_iff_eq.mpr h
  case int16_t => exact hsame 2 h
  case int32_t | float => exact hsame 4 h
  case int64_t | double => exact hsame 8 h
  case intptr_t =>
    have hlt := valueOf_lt abi.bigEndian (src.read o abi.bytesPerWord)
    rw [Memory.length_read] at hlt
    rw [Abi.toTargetWord, if_pos hword.le, Nat.mod_mod, hword, Nat.mod_eq_of_lt hlt] at h
    exact hsame _ h

end Native

theorem allM_eq_some_true {α : Type} {q : α → Option Bool} :
    ∀ {l : List α}, (∀ x ∈ l, q x = some true) → l.allM q = some true
  | [], _ => rfl
  | x :: l, h => by
      rw [List.allM, h x (List.mem_cons_self _ _)]
      exact allM_eq_some_true fun y hy => h y (List.mem_cons_of_mem _ hy)

/-! ### The stores of one object -/

section Copy

variable {rt : Runtime} {typeMaps : TypeMaps} {p dst : Nat} {m : TypeMap} {stores : List Store}

/-- The stores of `copy`: the fixed fields, then the tail array's elements or the
trailing masks. -/
theorem copyObject_eq_some (hm : rt.typeMap typeMaps p = some m)
    (h : copyObject abi rt typeMaps p dst = some stores) :
    ∃ fields rest, m.fixedFields.mapM (fun f => (copyField abi (rt.body p) f.offset f.type).map
        (.put (dst + f.targetOffset))) = some fields ∧ stores = fields ++ rest ∧
      if m.targetArrayElementSizeInBytes ≠ 0 then
        (List.range (rt.arrayLength abi m p)).mapM (fun i =>
          (copyField abi (rt.body p) (m.buildFixedSizeInWords * abi.bytesPerWord
            + i * m.buildArrayElementSizeInBytes) m.arrayElementType).map
            (.put (dst + m.targetFixedSizeInWords * abi.targetBytesPerWord
              + i * m.targetArrayElementSizeInBytes))) = some rest
      else rest = maskStores abi m dst := by
  simp only [copyObject, hm, Option.bind_eq_bind, Option.some_bind] at h
  obtain ⟨fields, hfields, h⟩ := Option.bind_eq_some.mp h
  split at h
  · next harray =>
    obtain ⟨rest, hrest, h⟩ := Option.bind_eq_some.mp h
    cases h
    refine ⟨fields, rest, hfields, rfl, ?_⟩
    rw [if_pos harray, arrayLength_eq_hostWord]
    exact hrest
  · next harray =>
    cases h
    exact ⟨fields, _, hfields, rfl, by rw [if_neg harray]⟩

/-- Every fixed field reads back, after all of `copy`'s stores, as the bytes
`copy` made for it: the later fields miss its range, and the elements and masks
lie after the fixed part. -/
theorem copyObject_read_field (hm : rt.typeMap typeMaps p = some m) (hwf : m.WellFormed abi)
    (hdisjoint : m.fixedFields.Pairwise (Field.Disjoint abi))
    (h : copyObject abi rt typeMaps p dst = some stores) (mem : Memory) {f : Field}
    (hf : f ∈ m.fixedFields) :
    ∃ bytes, copyField abi (rt.body p) f.offset f.type = some bytes ∧
      (Store.applyAll abi.bigEndian stores mem).read (dst + f.targetOffset) bytes.length = bytes := by
  obtain ⟨fields, rest, hfields, rfl, hrest⟩ := copyObject_eq_some hm h
  obtain ⟨st, -, hst⟩ := mem_of_mapM_eq_some hfields f hf
  obtain ⟨bytes, hbytes, -⟩ := Option.map_eq_some'.mp hst
  have hwidth : ∀ g ∈ m.fixedFields, ∀ b, copyField abi (rt.body p) g.offset g.type = some b →
      b.length = (copyWidth abi g.type).getD 0 := fun g _ b hb => by
    rw [length_copyField abi hb, Option.getD_some]
  have hafter : ∀ st ∈ rest, dst + m.targetFixedSizeInWords * abi.targetBytesPerWord ≤ st.addr := by
    intro st hst
    split at hrest
    · next harray => exact (elementStores_within hwf harray hrest st hst).1
    · next harray => subst hrest; exact (maskStores_within 0 hwf (by omega) st hst).1
  obtain ⟨w, hw, hle⟩ := hwf.fields_fit f hf
  refine ⟨bytes, hbytes, ?_⟩
  rw [hwidth f hf bytes hbytes]
  refine read_mapM_put (fun g => dst + g.targetOffset) (fun g => (copyWidth abi g.type).getD 0) _
    rest hwidth (hdisjoint.imp fun {g g'} hgg' i hi => ?_) hfields hf hbytes
    (fun st hst i hi => ?_) mem
  · simp only [Field.Disjoint, Field.targetEnd] at hgg' hi ⊢
    omega
  · have := hafter st hst
    dsimp only at hi ⊢
    rw [Option.mem_def.mp hw, Option.getD_some] at hi
    omega

/-- Every element of a tail array below its length reads back, after all of
`copy`'s stores, as the bytes `copy` made for it: element `i` takes the `i`-th
stride after the fixed part, and its bytes fit the stride. -/
theorem copyObject_read_element (hm : rt.typeMap typeMaps p = some m) (hwf : m.WellFormed abi)
    (h : copyObject abi rt typeMaps p dst = some stores) (mem : Memory)
    (harray : m.targetArrayElementSizeInBytes ≠ 0) {i : Nat} (hi : i < rt.arrayLength abi m p) :
    ∃ bytes, copyField abi (rt.body p) (m.buildFixedSizeInWords * abi.bytesPerWord
        + i * m.buildArrayElementSizeInBytes) m.arrayElementType = some bytes ∧
      (Store.applyAll abi.bigEndian stores mem).read (dst + m.targetFixedSizeInWords
        * abi.targetBytesPerWord + i * m.targetArrayElementSizeInBytes) bytes.length = bytes := by
  obtain ⟨fields, rest, -, rfl, hrest⟩ := copyObject_eq_some hm h
  rw [if_pos harray] at hrest
  obtain ⟨st, -, hst⟩ := mem_of_mapM_eq_some hrest i (List.mem_range.mpr hi)
  obtain ⟨bytes, hbytes, -⟩ := Option.map_eq_some'.mp hst
  obtain ⟨-, w, hw, hle⟩ := hwf.element_fits harray
  have hwidth : ∀ j ∈ List.range (rt.arrayLength abi m p), ∀ b, copyField abi (rt.body p)
      (m.buildFixedSizeInWords * abi.bytesPerWord + j * m.buildArrayElementSizeInBytes)
        m.arrayElementType = some b → b.length = w := fun j _ b hb => by
    have := length_copyField abi hb
    rw [Option.mem_def.mp hw, Option.some.injEq] at this
    exact this.symm
  refine ⟨bytes, hbytes, ?_⟩
  rw [hwidth i (List.mem_range.mpr hi) bytes hbytes, Store.applyAll_append, ← List.append_nil rest]
  refine read_mapM_put (fun j => dst + m.targetFixedSizeInWords * abi.targetBytesPerWord
    + j * m.targetArrayElementSizeInBytes) (fun _ => w) _ [] hwidth
    ((List.pairwise_lt_range _).imp fun {j k} hjk l hl => .inl ?_) hrest (List.mem_range.mpr hi) hbytes
    (fun st hs => absurd hs (List.not_mem_nil st)) _
  -- element `j` ends within its stride, before element `k > j` starts
  have := Nat.mul_le_mul_right m.targetArrayElementSizeInBytes (Nat.succ_le_of_lt hjk)
  rw [Nat.succ_mul] at this
  dsimp only at hl ⊢
  omega

/-- Transcription preserves what an object holds. After the stores `copy` makes
for an object whose TypeMap is well formed with disjoint field ranges, whatever the
heap held before, every fixed field and every tail-array element below the length
is transcribed: the target reads a scalar as its host value in the target's byte
order, a word as the host word converted to the target width, and a reference
slot as zero. -/
theorem copy_transcribes_object (hm : rt.typeMap typeMaps p = some m) (hwf : m.WellFormed abi)
    (hdisjoint : m.fixedFields.Pairwise (Field.Disjoint abi))
    (h : copyObject abi rt typeMaps p dst = some stores) (mem : Memory) :
    (∀ f ∈ m.fixedFields, Transcribed abi (rt.body p) (Store.applyAll abi.bigEndian stores mem)
        f.offset (dst + f.targetOffset) f.type) ∧
      (m.targetArrayElementSizeInBytes ≠ 0 → ∀ i < rt.arrayLength abi m p,
        Transcribed abi (rt.body p) (Store.applyAll abi.bigEndian stores mem)
          (m.buildFixedSizeInWords * abi.bytesPerWord + i * m.buildArrayElementSizeInBytes)
          (dst + m.targetFixedSizeInWords * abi.targetBytesPerWord
            + i * m.targetArrayElementSizeInBytes) m.arrayElementType) := by
  refine ⟨fun f hf => ?_, fun harray i hi => ?_⟩
  · obtain ⟨bytes, hbytes, hread⟩ := copyObject_read_field hm hwf hdisjoint h mem hf
    exact transcribed_of_read hbytes hread
  · obtain ⟨bytes, hbytes, hread⟩ := copyObject_read_element hm hwf h mem harray hi
    exact transcribed_of_read hbytes hread

/-- On a target with the host's word size and byte order, the compiled-out
`DebugNativeTarget` check of `copy`, `nonObjectsEqual(map, src, dst)`, holds after
`copy`'s stores for every object whose TypeMap is well formed with disjoint field
ranges, whatever the heap held before: that check never aborts the writer. -/
theorem native_copy_passes_nonObjectsEqual (hword : abi.targetBytesPerWord = abi.bytesPerWord)
    (hendian : abi.targetBigEndian = abi.bigEndian) (hm : rt.typeMap typeMaps p = some m)
    (hwf : m.WellFormed abi) (hdisjoint : m.fixedFields.Pairwise (Field.Disjoint abi))
    (h : copyObject abi rt typeMaps p dst = some stores) (mem : Memory) :
    m.nonObjectsEqual abi (rt.body p) (Store.applyAll abi.bigEndian stores mem) dst = some true := by
  have hfields : m.fixedFields.allM (fun f => nonObjectsEqual abi (rt.body p)
      (Store.applyAll abi.bigEndian stores mem) f.offset (dst + f.targetOffset) f.type) = some true :=
    allM_eq_some_true fun f hf => by
      obtain ⟨bytes, hbytes, hread⟩ := copyObject_read_field hm hwf hdisjoint h mem hf
      exact nonObjectsEqual_of_transcribed hword hendian (transcribed_of_read hbytes hread)
  simp only [TypeMap.nonObjectsEqual, Option.bind_eq_bind, hfields, Option.some_bind, if_true]
  split
  · next harray =>
    refine allM_eq_some_true fun i hi => ?_
    have hi : i < rt.arrayLength abi m p := by
      rw [arrayLength_eq_hostWord]
      exact List.mem_range.mp hi
    obtain ⟨bytes, hbytes, hread⟩ := copyObject_read_element hm hwf h mem harray hi
    exact nonObjectsEqual_of_transcribed hword hendian (transcribed_of_read hbytes hread)
  · rfl

end Copy

/-! ### One object of one class -/

/-- Class 300 declares `int i` at host offset 4 and `Object r` at 8; its object 100
holds `i = 0x01020304`. -/
def sampleRuntime : Runtime where
  objectClass p := if p = 100 then 300 else 500
  body _ := Memory.write (fun _ => 0) 4 (bytesOf false 4 0x01020304)
  classType := 500
  singletonType := 600
  isSystemClassLoader _ := false
  classStaticTable := 8

/-- The instance map `makeCodeImage` builds for class 300. -/
def sampleMap (abi : Abi) : TypeMap :=
  ((layoutFields abi [⟨.intField, false, 4⟩, ⟨.objectField, false, 8⟩]).bind fun r =>
    memberMap abi 12 r.1).getD Visitor.classPointerMap

/-- Copied for a big-endian target over a heap of `0xFF` bytes, `i` reads back as
its host value and `r` as zero. -/
theorem sample_copy_transcribed :
    sampleRuntime.typeMap [(300, sampleMap Abi.bigEndian32)] 100 = some (sampleMap Abi.bigEndian32) ∧
      (sampleMap Abi.bigEndian32).WellFormed Abi.bigEndian32 ∧
      (sampleMap Abi.bigEndian32).fixedFields.Pairwise (Field.Disjoint Abi.bigEndian32) ∧
      ∃ stores, copyObject Abi.bigEndian32 sampleRuntime [(300, sampleMap Abi.bigEndian32)] 100 0 =
        some stores ∧
        (∀ f ∈ (sampleMap Abi.bigEndian32).fixedFields, Transcribed Abi.bigEndian32
          (sampleRuntime.body 100) (Store.applyAll false stores fun _ => 0xFF) f.offset
          (0 + f.targetOffset) f.type) ∧
        ((sampleMap Abi.bigEndian32).targetArrayElementSizeInBytes ≠ 0 →
          ∀ i < sampleRuntime.arrayLength Abi.bigEndian32 (sampleMap Abi.bigEndian32) 100,
            Transcribed Abi.bigEndian32 (sampleRuntime.body 100)
              (Store.applyAll false stores fun _ => 0xFF)
              ((sampleMap Abi.bigEndian32).buildFixedSizeInWords * 4
                + i * (sampleMap Abi.bigEndian32).buildArrayElementSizeInBytes)
              (0 + (sampleMap Abi.bigEndian32).targetFixedSizeInWords * 4
                + i * (sampleMap Abi.bigEndian32).targetArrayElementSizeInBytes)
              (sampleMap Abi.bigEndian32).arrayElementType) := by
  obtain ⟨stores, h⟩ : ∃ stores, copyObject Abi.bigEndian32 sampleRuntime
      [(300, sampleMap Abi.bigEndian32)] 100 0 = some stores := ⟨_, rfl⟩
  have hm : sampleRuntime.typeMap [(300, sampleMap Abi.bigEndian32)] 100 =
      some (sampleMap Abi.bigEndian32) := by decide
  have hwf : (sampleMap Abi.bigEndian32).WellFormed Abi.bigEndian32 := by decide
  have hdisjoint : (sampleMap Abi.bigEndian32).fixedFields.Pairwise
      (Field.Disjoint Abi.bigEndian32) := by decide
  exact ⟨hm, hwf, hdisjoint, stores, h, copy_transcribes_object hm hwf hdisjoint h _⟩

/-- Copied for the host's own ABI over a heap of `0xFF` bytes, the object passes
`nonObjectsEqual`. -/
theorem sample_native_copy_passes :
    Abi.native32.targetBytesPerWord = Abi.native32.bytesPerWord ∧
      Abi.native32.targetBigEndian = Abi.native32.bigEndian ∧
      sampleRuntime.typeMap [(300, sampleMap Abi.native32)] 100 = some (sampleMap Abi.native32) ∧
      (sampleMap Abi.native32).WellFormed Abi.native32 ∧
      (sampleMap Abi.native32).fixedFields.Pairwise (Field.Disjoint Abi.native32) ∧
      ∃ stores, copyObject Abi.native32 sampleRuntime [(300, sampleMap Abi.native32)] 100 0 =
        some stores ∧
        (sampleMap Abi.native32).nonObjectsEqual Abi.native32 (sampleRuntime.body 100)
          (Store.applyAll false stores fun _ => 0xFF) 0 = some true := by
  obtain ⟨stores, h⟩ : ∃ stores, copyObject Abi.native32 sampleRuntime
      [(300, sampleMap Abi.native32)] 100 0 = some stores := ⟨_, rfl⟩
  have hm : sampleRuntime.typeMap [(300, sampleMap Abi.native32)] 100 =
      some (sampleMap Abi.native32) := by decide
  have hwf : (sampleMap Abi.native32).WellFormed Abi.native32 := by decide
  have hdisjoint : (sampleMap Abi.native32).fixedFields.Pairwise
      (Field.Disjoint Abi.native32) := by decide
  exact ⟨rfl, rfl, hm, hwf, hdisjoint, stores, h,
    native_copy_passes_nonObjectsEqual rfl rfl hm hwf hdisjoint h _⟩

end BootImage
