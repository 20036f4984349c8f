import BootImage.Layout

/-! The transcoder. `copyField` is `copy(t, src, dst, type)`: the bytes one field
becomes, in the target byte order through the `TARGET_V*` swaps. `copyObject` is
`copy(t, typeMaps, p, dst)`: the stores that transcribe the fixed fields, then
either the tail array or the trailing masks of a singleton or pool. -/
namespace BootImage

variable (abi : Abi)

/-- A scalar of `width` bytes moved through `TARGET_V<width>`: read in host order,
swapped, written in host order. -/
def transcribe (src : Memory) (offset width : Nat) : List UInt8 :=
  bytesOf abi.bigEndian width (abi.targetV width (valueOf abi.bigEndian (src.read offset width)))

/-- `copy(t, src, dst, type)`: the bytes written at `dst` for a field of `src` at
`offset`, or `none` where the source aborts. Pad tags write nothing; an object
slot is zeroed, to be patched by the visitor. -/
def copyField (src : Memory) (offset : Nat) : Ty → Option (List UInt8)
  | .int8_t => some (src.read offset 1)
  | .int16_t => some (transcribe abi src offset 2)
  | .int32_t | .float => some (transcribe abi src offset 4)
  | .int64_t | .double => some (transcribe abi src offset 8)
  | .int64_t_pad | .double_pad => some []
  | .intptr_t => some (bytesOf abi.bigEndian abi.targetBytesPerWord
      (abi.targetVW (valueOf abi.bigEndian (src.read offset abi.bytesPerWord))))
  | .object => some (List.replicate abi.targetBytesPerWord 0)
  | _ => none

/-- The number of bytes `copyField` writes for a tag. -/
def copyWidth : Ty → Option Nat
  | .int8_t => some 1
  | .int16_t => some 2
  | .int32_t | .float => some 4
  | .int64_t | .double => some 8
  | .int64_t_pad | .double_pad => some 0
  | .intptr_t | .object => some abi.targetBytesPerWord
  | _ => none

theorem length_copyField {src : Memory} {offset : Nat} {type : Ty} {bytes : List UInt8}
    (h : copyField abi src offset type = some bytes) :
    copyWidth abi type = some bytes.length := by
  cases type <;> simp only [copyField, Option.some.injEq, reduceCtorEq] at h <;> subst h <;>
    simp [copyWidth, transcribe]

/-- A scalar transcribed by `copyField` holds its host value in target byte order. -/
theorem transcribe_eq (src : Memory) (offset width : Nat) :
    transcribe abi src offset width =
      bytesOf abi.targetBigEndian width (valueOf abi.bigEndian (src.read offset width)) :=
  abi.bytesOf_targetV _ _

/-- The stores of the trailing masks of a singleton or pool at `dst`: both masks
zeroed, then a bit set for each object slot (and, in a pool, each float slot). A
singleton indexes its object mask by target word, a pool by field index. The
body's word count `targetFixedSizeInWords - 2` is `unsigned`, as in `targetSize`. -/
def maskStores (m : TypeMap) (dst : Nat) : List Store :=
  match m.kind with
  | .normalKind => []
  | .singletonKind =>
      let mask := dst + m.targetFixedSizeInWords * abi.targetBytesPerWord
      .put mask (List.replicate (singletonMaskSize (subU m.targetFixedSizeInWords 2)
          abi.targetBitsPerWord * abi.targetBytesPerWord) 0) ::
        m.fixedFields.filterMap fun f =>
          if f.type = .object then
            let offset := f.targetOffset / abi.targetBytesPerWord
            some (.orInto (mask + 4 * (offset / 32)) 4 (1 <<< (offset % 32)))
          else none
  | .poolKind =>
      let poolMaskSize := poolMaskSize (subU m.targetFixedSizeInWords 2) abi.targetBitsPerWord
      let poolMask := dst + m.targetFixedSizeInWords * abi.targetBytesPerWord
      let objectMask := dst + (m.targetFixedSizeInWords + poolMaskSize) * abi.targetBytesPerWord
      [.put poolMask (List.replicate (poolMaskSize * abi.targetBytesPerWord) 0),
        .put objectMask (List.replicate (singletonMaskSize
          (subU m.targetFixedSizeInWords 2 + poolMaskSize) abi.targetBitsPerWord
            * abi.targetBytesPerWord) 0)] ++
        m.fixedFields.enum.filterMap fun (i, f) =>
          match f.type with
          | .object => some (.orInto (objectMask + 4 * (i / 32)) 4 (1 <<< (i % 32)))
          | .float | .double => some (.orInto (poolMask + abi.targetBytesPerWord
              * (i / abi.targetBitsPerWord)) abi.targetBytesPerWord (1 <<< (i % abi.targetBitsPerWord)))
          | _ => none

/-- `copy(t, typeMaps, p, dst)`: the stores transcribing object `p` to heap byte
`dst`, or `none` where the source aborts (no TypeMap, or an unsupported tag). -/
def copyObject (rt : Runtime) (typeMaps : TypeMaps) (p dst : Nat) : Option (List Store) := do
  let m ← rt.typeMap typeMaps p
  let src := rt.body p
  let fields ← m.fixedFields.mapM fun f =>
    (copyField abi src f.offset f.type).map (.put (dst + f.targetOffset))
  let rest ← if m.targetArrayElementSizeInBytes ≠ 0 then
      let fixedSize := m.buildFixedSizeInWords * abi.bytesPerWord
      (List.range (rt.hostWord abi p (fixedSize - abi.bytesPerWord))).mapM fun i =>
        (copyField abi src (fixedSize + i * m.buildArrayElementSizeInBytes) m.arrayElementType).map
          (.put (dst + m.targetFixedSizeInWords * abi.targetBytesPerWord
            + i * m.targetArrayElementSizeInBytes))
    else some (maskStores abi m dst)
  pure (fields ++ rest)

/-! ### Where `copy` writes -/

/-- What `copy` needs of a TypeMap to write only inside the object's target
extent: every field and array element has a tag `copy` supports and fits, and a
singleton or pool has a body word after its two header words. -/
structure TypeMap.WellFormed (m : TypeMap) : Prop where
  fixed_pos : 0 < m.targetFixedSizeInWords
  fields_fit : ∀ f ∈ m.fixedFields, ∃ w ∈ copyWidth abi f.type,
    f.targetOffset + w ≤ m.targetFixedSizeInWords * abi.targetBytesPerWord
  element_fits : m.targetArrayElementSizeInBytes ≠ 0 → 0 < m.buildArrayElementSizeInBytes ∧
    ∃ w ∈ copyWidth abi m.arrayElementType, w ≤ m.targetArrayElementSizeInBytes
  masked_body : m.targetArrayElementSizeInBytes = 0 → m.kind ≠ .normalKind →
    3 ≤ m.targetFixedSizeInWords ∧
      (m.kind = .poolKind → m.fixedFieldCount ≤ m.targetFixedSizeInWords)

instance (m : TypeMap) : Decidable (m.WellFormed abi) :=
  decidable_of_iff (_ ∧ _ ∧ _ ∧ _) ⟨fun ⟨h₁, h₂, h₃, h₄⟩ => ⟨h₁, h₂, h₃, h₄⟩,
    fun ⟨h₁, h₂, h₃, h₄⟩ => ⟨h₁, h₂, h₃, h₄⟩⟩

theorem exists_of_mapM_eq_some {α β : Type} {f : α → Option β} :
    ∀ {l : List α} {l' : List β}, l.mapM f = some l' → ∀ y ∈ l', ∃ x ∈ l, f x = some y
  | [], _, h, y, hy => by cases h; exact absurd hy (List.not_mem_nil y)
  | a :: l, l', h, y, hy => by
      simp only [List.mapM_cons, Option.bind_eq_bind, Option.pure_def] at h
      obtain ⟨b, hb, h⟩ := Option.bind_eq_some.mp h
      obtain ⟨bs, hbs, h⟩ := Option.bind_eq_some.mp h
      cases h
      rcases List.mem_cons.mp hy with rfl | hy
      · exact ⟨a, List.mem_cons_self _ _, hb⟩
      · obtain ⟨x, hx, hfx⟩ := exists_of_mapM_eq_some hbs y hy
        exact ⟨x, List.mem_cons_of_mem _ hx, hfx⟩

theorem mem_of_mapM_eq_some {α β : Type} {f : α → Option β} :
    ∀ {l : List α} {l' : List β}, l.mapM f = some l' → ∀ x ∈ l, ∃ y ∈ l', f x = some y
  | [], _, _, x, hx => absurd hx (List.not_mem_nil x)
  | a :: l, l', h, x, hx => by
      simp only [List.mapM_cons, Option.bind_eq_bind, Option.pure_def] at h
      obtain ⟨b, hb, h⟩ := Option.bind_eq_some.mp h
      obtain ⟨bs, hbs, h⟩ := Option.bind_eq_some.mp h
      cases h
      rcases List.mem_cons.mp hx with rfl | hx
      · exact ⟨b, List.mem_cons_self _ _, hb⟩
      · obtain ⟨y, hy, hfy⟩ := mem_of_mapM_eq_some hbs x hx
        exact ⟨y, List.mem_cons_of_mem _ hy, hfy⟩

variable {abi} {m : TypeMap} {dst : Nat}

/-- The 32-bit word of bit `o` of a mask of `ceiling n TargetBitsPerWord` target
words lies inside the mask when `o < n`. -/
theorem maskWord_le (abi : Abi) {o n : Nat} (h : o < n) :
    4 * (o / 32) + 4 ≤ ceiling n abi.targetBitsPerWord * abi.targetBytesPerWord := by
  rcases abi.targetBytesPerWord_cases with hw | hw <;>
    simp only [Abi.targetBitsPerWord, hw, ceiling] <;> omega

/-- The target word of bit `i` of such a mask lies inside it when `i < n`. -/
theorem maskTargetWord_le (abi : Abi) {i n : Nat} (h : i < n) :
    abi.targetBytesPerWord * (i / abi.targetBitsPerWord) + abi.targetBytesPerWord ≤
      ceiling n abi.targetBitsPerWord * abi.targetBytesPerWord := by
  calc abi.targetBytesPerWord * (i / abi.targetBitsPerWord) + abi.targetBytesPerWord
      = (i / abi.targetBitsPerWord + 1) * abi.targetBytesPerWord := by
        rw [Nat.succ_mul, Nat.mul_comm]
    _ ≤ ceiling n abi.targetBitsPerWord * abi.targetBytesPerWord :=
        Nat.mul_le_mul_right _ (lt_ceiling_of_lt_mul abi.targetBitsPerWord_pos h)

theorem singletonMaskSize_of_pos {count bitsPerWord : Nat} (h : 0 < count) :
    singletonMaskSize count bitsPerWord = ceiling (count + 2) bitsPerWord := by
  rw [singletonMaskSize, if_neg (by omega)]

/-- The trailing masks lie between the fixed part and the end of the object. -/
theorem maskStores_within (length : Nat) (hwf : m.WellFormed abi)
    (harray : m.targetArrayElementSizeInBytes = 0) :
    ∀ st ∈ maskStores abi m dst,
      st.Within (dst + m.targetFixedSizeInWords * abi.targetBytesPerWord)
        (dst + m.targetSize abi length * abi.targetBytesPerWord) := by
  intro st hst
  unfold maskStores at hst
  unfold TypeMap.targetSize
  rw [if_neg (by omega)]
  have hbody := hwf.masked_body harray
  cases hk : m.kind <;> simp only [hk] at hst ⊢
  · cases hst
  · obtain ⟨h3, -⟩ := hbody (by simp [hk])
    rw [subU_of_le (by omega), singletonMaskSize_of_pos (by omega), Nat.sub_add_cancel (by omega)]
      at hst ⊢
    simp only [List.mem_cons, List.mem_filterMap, Option.ite_none_right_eq_some,
      Option.some.injEq] at hst
    rcases hst with rfl | ⟨f, hf, hobj, rfl⟩
    · simp only [Store.Within, Store.addr_put, Store.width_put, List.length_replicate, Nat.add_mul]
      omega
    · obtain ⟨w, hw, hle⟩ := hwf.fields_fit f hf
      simp only [hobj, copyWidth, Option.mem_def, Option.some.injEq] at hw
      have := abi.targetBytesPerWord_pos
      have ho : f.targetOffset / abi.targetBytesPerWord < m.targetFixedSizeInWords :=
        (Nat.div_lt_iff_lt_mul abi.targetBytesPerWord_pos).mpr (by omega)
      have := maskWord_le abi ho
      simp only [Store.Within, Store.addr_orInto, Store.width_orInto, Nat.add_mul]
      omega
  · obtain ⟨h3, hcount⟩ := hbody (by simp [hk])
    replace hcount := hcount hk
    rw [subU_of_le (by omega), singletonMaskSize_of_pos (by omega),
      show m.targetFixedSizeInWords - 2 + poolMaskSize (m.targetFixedSizeInWords - 2)
          abi.targetBitsPerWord + 2 =
        m.targetFixedSizeInWords + poolMaskSize (m.targetFixedSizeInWords - 2)
          abi.targetBitsPerWord by omega] at hst ⊢
    simp only [List.mem_append, List.mem_cons, List.mem_singleton, List.not_mem_nil,
      or_false, List.mem_filterMap] at hst
    rcases hst with (rfl | rfl) | ⟨⟨i, f⟩, hif, hst⟩
    · simp only [Store.Within, Store.addr_put, Store.width_put, List.length_replicate, Nat.add_mul]
      omega
    · simp only [Store.Within, Store.addr_put, Store.width_put, List.length_replicate, Nat.add_mul]
      omega
    · have hi : i < m.targetFixedSizeInWords + poolMaskSize (m.targetFixedSizeInWords - 2)
          abi.targetBitsPerWord := by
        have := List.fst_lt_add_of_mem_enumFrom hif
        simp only [TypeMap.fixedFieldCount] at hcount
        omega
      have hobject := maskWord_le abi hi
      have hfloat := maskTargetWord_le abi hi
      split at hst <;> simp only [Option.some.injEq, reduceCtorEq] at hst <;> subst hst <;>
        simp only [Store.Within, Store.addr_orInto, Store.width_orInto, Nat.add_mul] <;> omega

theorem arrayLength_eq_hostWord (rt : Runtime) (m : TypeMap) (p : Nat) :
    rt.arrayLength abi m p =
      rt.hostWord abi p (m.buildFixedSizeInWords * abi.bytesPerWord - abi.bytesPerWord) := by
  rw [Runtime.arrayLength, Nat.sub_one_mul]

/-- The fixed fields land inside the fixed part. -/
theorem fieldStores_within {src : Memory} {fields : List Store} (hwf : m.WellFormed abi)
    (h : m.fixedFields.mapM (fun f =>
      (copyField abi src f.offset f.type).map (.put (dst + f.targetOffset))) = some fields) :
    ∀ st ∈ fields,
      st.Within dst (dst + m.targetFixedSizeInWords * abi.targetBytesPerWord) := by
  intro st hst
  obtain ⟨f, hf, hst⟩ := exists_of_mapM_eq_some h st hst
  obtain ⟨bytes, hbytes, rfl⟩ := Option.map_eq_some'.mp hst
  obtain ⟨w, hw, hle⟩ := hwf.fields_fit f hf
  have hlen := length_copyField abi hbytes
  rw [Option.mem_def.mp hw, Option.some.injEq] at hlen
  simp only [Store.Within, Store.addr_put, Store.width_put]
  omega

/-- The elements of a tail array of `length` elements land after the fixed part,
inside the object's target size. -/
theorem elementStores_within {src : Memory} {length : Nat} {elements : List Store}
    (hwf : m.WellFormed abi) (harray : m.targetArrayElementSizeInBytes ≠ 0)
    (h : (List.range length).mapM (fun i =>
      (copyField abi src (m.buildFixedSizeInWords * abi.bytesPerWord
        + i * m.buildArrayElementSizeInBytes) m.arrayElementType).map
        (.put (dst + m.targetFixedSizeInWords * abi.targetBytesPerWord
          + i * m.targetArrayElementSizeInBytes))) = some elements) :
    ∀ st ∈ elements, st.Within (dst + m.targetFixedSizeInWords * abi.targetBytesPerWord)
      (dst + m.targetSize abi length * abi.targetBytesPerWord) := by
  intro st hst
  obtain ⟨i, hi, hst⟩ := exists_of_mapM_eq_some h st hst
  obtain ⟨bytes, hbytes, rfl⟩ := Option.map_eq_some'.mp hst
  obtain ⟨-, w, hw, hle⟩ := hwf.element_fits harray
  have hlen := length_copyField abi hbytes
  rw [Option.mem_def.mp hw, Option.some.injEq] at hlen
  have helems : (i + 1) * m.targetArrayElementSizeInBytes ≤
      m.targetArrayElementSizeInBytes * length := by
    rw [Nat.mul_comm _ length]
    exact Nat.mul_le_mul_right _ (List.mem_range.mp hi)
  have hceil := ceiling_mul_ge (m.targetArrayElementSizeInBytes * length)
    abi.targetBytesPerWord abi.targetBytesPerWord_pos
  simp only [Store.Within, Store.addr_put, Store.width_put, TypeMap.targetSize, if_pos harray,
    Nat.add_mul, Nat.succ_mul] at helems ⊢
  omega

/-- `copy` writes only inside `[dst, dst + targetSize * TargetBytesPerWord)`: the
fields inside the fixed part, the array elements and the masks after it. -/
theorem copyObject_within {rt : Runtime} {typeMaps : TypeMaps} {p : Nat} {stores : List Store}
    (hm : rt.typeMap typeMaps p = some m) (hwf : m.WellFormed abi)
    (h : copyObject abi rt typeMaps p dst = some stores) :
    ∀ st ∈ stores, st.Within dst
      (dst + m.targetSize abi (rt.arrayLength abi m p) * abi.targetBytesPerWord) := by
  simp only [copyObject, hm, Option.bind_eq_bind, Option.some_bind] at h
  obtain ⟨fields, hfields, h⟩ := Option.bind_eq_some.mp h
  have hfixed := Nat.mul_le_mul_right abi.targetBytesPerWord
    (m.targetFixedSizeInWords_le_targetSize abi (rt.arrayLength abi m p))
  have hin := fieldStores_within hwf hfields
  intro st hst
  split at h
  · next harray =>
    obtain ⟨elements, helements, h⟩ := Option.bind_eq_some.mp h
    cases h
    rcases List.mem_append.mp hst with hst | hst
    · have := hin st hst
      simp only [Store.Within] at this ⊢
      omega
    · rw [← arrayLength_eq_hostWord] at helements
      have := elementStores_within hwf harray helements st hst
      simp only [Store.Within] at this ⊢
      omega
  · next harray =>
    cases h
    rcases List.mem_append.mp hst with hst | hst
    · have := hin st hst
      simp only [Store.Within] at this ⊢
      omega
    · have := maskStores_within (rt.arrayLength abi m p) hwf (by omega) st hst
      simp only [Store.Within] at this ⊢
      omega

end BootImage
