import BootImage.Copy
import BootImage.ClassFile

/-! The trailing masks `copy` writes after a singleton's or a pool's fixed part. A
mask is read a word at a time in host byte order: bit `j` is bit `j % (8 * width)`
of the `width`-byte word `j / (8 * width)`. `copy` zeroes each mask, then ORs in one
bit per marked slot, so a mask ends holding exactly its marks, whatever the buffer
held before. A singleton's object mask marks the target words of its reference
fields; a pool's object mask marks its reference slots and its pool mask the slots
tagged `Type_float` or `Type_double`. The constant-pool scan tags a `CONSTANT_Float`
`Type_int32_t`, so a pool's mask marks its `CONSTANT_Double` slots only; and a pool
bit is indexed by field index, the two header slots included, while the pool mask
has a bit for each of the other slots only. -/
namespace BootImage

/-! ### Reading a mask -/

/-- Bit `j` of a mask of `width`-byte words at `base`, each read in host byte
order: bit `j % (8 * width)` of word `j / (8 * width)`. -/
def maskBit (bigEndian : Bool) (width : Nat) (mem : Memory) (base j : Nat) : Bool :=
  (valueOf bigEndian (mem.read (base + width * (j / (8 * width))) width)).testBit (j % (8 * width))

/-- `reinterpret_cast<T*>(base)[j / bits] |= 1 << (j % bits)` for a `width`-byte `T`
of `bits = 8 * width` bits: the store that marks slot `j`. -/
def markStore (base width j : Nat) : Store :=
  .orInto (base + width * (j / (8 * width))) width (1 <<< (j % (8 * width)))

theorem fromLittleEndian_replicate_zero (n : Nat) : fromLittleEndian (List.replicate n 0) = 0 := by
  induction n with
  | zero => rfl
  | succ n ih => simp [List.replicate_succ, fromLittleEndian, ih]

theorem valueOf_replicate_zero (bigEndian : Bool) (n : Nat) :
    valueOf bigEndian (List.replicate n 0) = 0 := by
  cases bigEndian <;> simp [valueOf, fromLittleEndian_replicate_zero]

/-- A word below word `k` of a mask ends by the start of word `k`. -/
theorem word_end_le (width : Nat) {q k : Nat} (h : q < k) : width * q + width ≤ width * k := by
  have := Nat.mul_le_mul_left width h
  rwa [Nat.mul_succ] at this

section Marks

variable {bigEndian : Bool} {width : Nat} {mem : Memory} {base j : Nat}

/-- The bit reads only the bytes of its word. -/
theorem maskBit_congr {mem' : Memory}
    (h : ∀ i < width, mem (base + width * (j / (8 * width)) + i) =
      mem' (base + width * (j / (8 * width)) + i)) :
    maskBit bigEndian width mem base j = maskBit bigEndian width mem' base j := by
  simp only [maskBit, Memory.read_congr h]

/-- A store that misses the bit's word leaves the bit as it was. -/
theorem maskBit_apply_of_disjoint (st : Store)
    (h : st.addr + st.width ≤ base + width * (j / (8 * width)) ∨
      base + width * (j / (8 * width)) + width ≤ st.addr) :
    maskBit bigEndian width (st.apply bigEndian mem) base j = maskBit bigEndian width mem base j :=
  maskBit_congr fun _ _ => Store.apply_of_not_mem st (by omega)

/-- A zeroed block that holds the bit's word clears the bit. -/
theorem maskBit_put_zero {addr k : Nat} (h₁ : addr ≤ base + width * (j / (8 * width)))
    (h₂ : base + width * (j / (8 * width)) + width ≤ addr + k) :
    maskBit bigEndian width ((Store.put addr (List.replicate k 0)).apply bigEndian mem) base j =
      false := by
  simp only [maskBit, Store.apply, Memory.read_write_replicate h₁ h₂, valueOf_replicate_zero,
    Nat.zero_testBit]

/-- Marking slot `i` sets bit `i` and keeps every other bit. -/
theorem maskBit_mark (hw : 0 < width) (i : Nat) :
    maskBit bigEndian width ((markStore base width i).apply bigEndian mem) base j =
      (maskBit bigEndian width mem base j || decide (i = j)) := by
  by_cases hq : j / (8 * width) = i / (8 * width)
  · have hj := Nat.div_add_mod j (8 * width)
    have hi := Nat.div_add_mod i (8 * width)
    have hlt : j % (8 * width) < 8 * width := Nat.mod_lt _ (by omega)
    simp only [maskBit, markStore, Store.apply, hq]
    rw [Memory.read_write_of_length (length_bytesOf _ _ _)]
    simp only [valueOf_bytesOf, show (256 : Nat) ^ width = 2 ^ (8 * width) by rw [Nat.pow_mul],
      Nat.testBit_mod_two_pow, hlt, decide_True, Bool.true_and, Nat.testBit_or,
      Nat.one_shiftLeft, Nat.testBit_two_pow]
    congr 2
    apply propext
    constructor <;> intro h <;> rw [hq] at hj <;> omega
  · have hne : i ≠ j := fun h => hq (h ▸ rfl)
    rw [maskBit_apply_of_disjoint, decide_eq_false hne, Bool.or_false]
    simp only [markStore, Store.addr_orInto, Store.width_orInto]
    rcases Nat.lt_or_gt_of_ne hq with h | h
    · have := word_end_le width h; omega
    · have := word_end_le width h; omega

/-- Marks made one after another, among stores that miss the word of bit `j`: the
bit ends set iff it was set or one of the marks is for slot `j`. The stores are
`xs.filterMap g`, with `p x` telling whether `x` gives a mark and `idx x` its slot. -/
theorem maskBit_applyAll_filterMap {α : Type} (hw : 0 < width) (p : α → Bool) (idx : α → Nat)
    (g : α → Option Store) :
    ∀ (xs : List α),
      (∀ x ∈ xs, p x = true → g x = some (markStore base width (idx x))) →
      (∀ x ∈ xs, p x = false → ∀ st, g x = some st →
        st.addr + st.width ≤ base + width * (j / (8 * width)) ∨
          base + width * (j / (8 * width)) + width ≤ st.addr) → ∀ mem : Memory,
      maskBit bigEndian width (Store.applyAll bigEndian (xs.filterMap g) mem) base j =
        (maskBit bigEndian width mem base j || xs.any fun x => p x && decide (idx x = j))
  | [], _, _, _ => by simp
  | x :: xs, hmark, hmiss, mem => by
      have ih := maskBit_applyAll_filterMap hw p idx g xs
        (fun y hy => hmark y (List.mem_cons_of_mem _ hy))
        (fun y hy => hmiss y (List.mem_cons_of_mem _ hy))
      cases hp : p x
      · cases hg : g x with
        | none => simp [List.filterMap_cons, hg, hp, ih]
        | some st =>
            have hst := hmiss x (List.mem_cons_self _ _) hp st hg
            simp only [List.filterMap_cons, hg, List.any_cons, hp, Bool.false_and, Bool.false_or]
            exact (ih _).trans (by rw [maskBit_apply_of_disjoint st hst])
      · simp only [List.filterMap_cons, hmark x (List.mem_cons_self _ _) hp, List.any_cons, hp,
          Bool.true_and]
        exact (ih _).trans (by rw [maskBit_mark hw, Bool.or_assoc])

end Marks

theorem any_enum_eq {α : Type} (l : List α) (q : α → Bool) (j : Nat) :
    (l.enum.any fun x => q x.2 && decide (x.1 = j)) = decide (∃ a, l[j]? = some a ∧ q a = true) := by
  rw [List.any_eq]
  congr 1
  simp only [List.mem_enum_iff_getElem?, Bool.and_eq_true, decide_eq_true_eq, eq_iff_iff]
  constructor
  · rintro ⟨⟨i, a⟩, h, hq, rfl⟩
    exact ⟨a, h, hq⟩
  · rintro ⟨a, h, hq⟩
    exact ⟨(j, a), h, hq, rfl⟩

/-! ### The masks `copy` writes -/

section Copy

variable {abi : Abi} {m : TypeMap} {dst j : Nat}

/-- A singleton's object mask, after `copy`'s mask stores on any buffer: the bit of
each target word `j` of the fixed part is set iff a reference field starts in that
word. -/
theorem singleton_objectMask (hk : m.kind = .singletonKind) (hbody : 2 < m.targetFixedSizeInWords)
    (hj : j < m.targetFixedSizeInWords) (mem : Memory) :
    maskBit abi.bigEndian 4 (Store.applyAll abi.bigEndian (maskStores abi m dst) mem)
        (dst + m.targetFixedSizeInWords * abi.targetBytesPerWord) j =
      decide (∃ f ∈ m.fixedFields,
        f.type = .object ∧ f.targetOffset / abi.targetBytesPerWord = j) := by
  have hword := maskWord_le abi (show j < m.targetFixedSizeInWords - 2 + 2 by omega)
  simp only [maskStores, hk, subU_of_le hbody.le, Store.applyAll_cons]
  refine (maskBit_applyAll_filterMap (by decide) (fun f => decide (f.type = .object))
    (fun f => f.targetOffset / abi.targetBytesPerWord) _ _ ?_ ?_ _).trans ?_
  · intro f _ hf
    rw [if_pos (of_decide_eq_true hf)]
    rfl
  · intro f _ hf st h
    rw [if_neg (of_decide_eq_false hf)] at h
    cases h
  · rw [maskBit_put_zero (Nat.le_add_right _ _) (by
      rw [singletonMaskSize_of_pos (by omega)]
      omega), Bool.false_or, List.any_eq]
    simp only [Bool.and_eq_true, decide_eq_true_eq]

/-- A static table of one static reference, after its length word: the class
pointer, the length and the reference in words 0 to 2. -/
def staticReferenceMap : TypeMap :=
  ⟨3, 3, [⟨.object, 0, 0⟩, ⟨.intptr_t, 4, 4⟩, ⟨.object, 8, 8⟩], .singletonKind, 0, 0, .none⟩

/-- Its object mask marks word 2, the reference's, and not word 1, the length's. -/
theorem static_reference_object_mask :
    staticReferenceMap.kind = .singletonKind ∧ 2 < staticReferenceMap.targetFixedSizeInWords ∧
      1 < staticReferenceMap.targetFixedSizeInWords ∧ 2 < staticReferenceMap.targetFixedSizeInWords ∧
      maskBit false 4 (Store.applyAll false (maskStores Abi.native32 staticReferenceMap 0) fun _ => 0)
          (0 + 3 * 4) 1 = false ∧
      maskBit false 4 (Store.applyAll false (maskStores Abi.native32 staticReferenceMap 0) fun _ => 0)
          (0 + 3 * 4) 2 = true :=
  ⟨rfl, by decide, by decide, by decide,
    (@singleton_objectMask Abi.native32 _ 0 1 rfl (by decide) (by decide) _).trans (by decide),
    (@singleton_objectMask Abi.native32 _ 0 2 rfl (by decide) (by decide) _).trans (by decide)⟩

/-- A pool's pool mask, after `copy`'s mask stores on any buffer: bit `j` of the
mask is set iff field `j` is tagged `Type_float` or `Type_double`. -/
theorem pool_poolMask (hk : m.kind = .poolKind)
    (hj : j < poolMaskSize (m.targetFixedSizeInWords - 2) abi.targetBitsPerWord *
      abi.targetBitsPerWord) (mem : Memory) :
    maskBit abi.bigEndian abi.targetBytesPerWord
        (Store.applyAll abi.bigEndian (maskStores abi m dst) mem)
        (dst + m.targetFixedSizeInWords * abi.targetBytesPerWord) j =
      decide (∃ f, m.fixedFields[j]? = some f ∧ (f.type = .float ∨ f.type = .double)) := by
  have hT := abi.targetBytesPerWord_pos
  have hbits := abi.targetBitsPerWord_pos
  have hword : abi.targetBytesPerWord * (j / (8 * abi.targetBytesPerWord)) +
      abi.targetBytesPerWord ≤
        poolMaskSize (m.targetFixedSizeInWords - 2) abi.targetBitsPerWord * abi.targetBytesPerWord :=
    (word_end_le _ ((Nat.div_lt_iff_lt_mul hbits).mpr hj)).trans_eq (Nat.mul_comm _ _)
  -- a pool mask with a bit has a body, whose word count does not wrap
  have h2 : 2 ≤ m.targetFixedSizeInWords := by
    by_contra hlt
    have hempty : poolMaskSize 0 abi.targetBitsPerWord = 0 := Nat.div_eq_of_lt (by omega)
    rw [show m.targetFixedSizeInWords - 2 = 0 by omega, hempty] at hj
    omega
  simp only [maskStores, hk, subU_of_le h2, List.cons_append, List.nil_append, Store.applyAll_cons]
  refine (maskBit_applyAll_filterMap hT
    (fun x => decide (x.2.type = .float ∨ x.2.type = .double)) Prod.fst _ _ ?_ ?_ _).trans ?_
  · rintro ⟨i, f⟩ _ hf
    rcases of_decide_eq_true hf with hf | hf <;> dsimp only at hf <;> simp only [hf] <;> rfl
  · rintro ⟨i, f⟩ _ hf st h
    dsimp only at h
    split at h
    · cases h
      simp only [Store.addr_orInto, Nat.add_mul]
      omega
    · next hfloat => exact absurd (.inl hfloat) (of_decide_eq_false hf)
    · next hdouble => exact absurd (.inr hdouble) (of_decide_eq_false hf)
    · cases h
  · rw [maskBit_apply_of_disjoint _ (by simp only [Store.addr_put, Nat.add_mul]; omega),
      maskBit_put_zero (Nat.le_add_right _ _) (by omega), Bool.false_or,
      any_enum_eq m.fixedFields fun f => decide (f.type = .float ∨ f.type = .double)]
    simp only [decide_eq_true_eq]

/-- A pool's object mask, after `copy`'s mask stores on any buffer, when the pool
bit of every `Type_float` or `Type_double` field lies inside the pool mask: the bit
of each slot `j` of the fixed part is set iff field `j` is a reference. -/
theorem pool_objectMask (hk : m.kind = .poolKind) (hbody : 2 < m.targetFixedSizeInWords)
    (hj : j < m.targetFixedSizeInWords)
    (hin : ∀ i f, m.fixedFields[i]? = some f → (f.type = .float ∨ f.type = .double) →
      i < poolMaskSize (m.targetFixedSizeInWords - 2) abi.targetBitsPerWord *
        abi.targetBitsPerWord)
    (mem : Memory) :
    maskBit abi.bigEndian 4 (Store.applyAll abi.bigEndian (maskStores abi m dst) mem)
        (dst + (m.targetFixedSizeInWords +
          poolMaskSize (m.targetFixedSizeInWords - 2) abi.targetBitsPerWord) *
            abi.targetBytesPerWord) j =
      decide (∃ f, m.fixedFields[j]? = some f ∧ f.type = .object) := by
  have hT := abi.targetBytesPerWord_pos
  have hword := maskWord_le abi (show j < m.targetFixedSizeInWords - 2 +
    poolMaskSize (m.targetFixedSizeInWords - 2) abi.targetBitsPerWord + 2 by omega)
  simp only [maskStores, hk, subU_of_le hbody.le, List.cons_append, List.nil_append,
    Store.applyAll_cons]
  refine (maskBit_applyAll_filterMap (by decide) (fun x => decide (x.2.type = .object))
    Prod.fst _ _ ?_ ?_ _).trans ?_
  · rintro ⟨i, f⟩ _ hf
    simp only [show f.type = .object from of_decide_eq_true hf]
    rfl
  · rintro ⟨i, f⟩ hif hf st h
    have hi := hin i f (List.mem_enum_iff_getElem?.mp hif)
    have hbefore : i < poolMaskSize (m.targetFixedSizeInWords - 2) abi.targetBitsPerWord *
        abi.targetBitsPerWord → _ := fun hi =>
      (word_end_le abi.targetBytesPerWord ((Nat.div_lt_iff_lt_mul abi.targetBitsPerWord_pos).mpr hi)).trans_eq
        (Nat.mul_comm _ _)
    dsimp only at h
    split at h
    · next hobject => exact absurd hobject (of_decide_eq_false hf)
    · next hfloat =>
      cases h
      have := hbefore (hi (.inl hfloat))
      simp only [Store.addr_orInto, Store.width_orInto, Nat.add_mul]
      omega
    · next hdouble =>
      cases h
      have := hbefore (hi (.inr hdouble))
      simp only [Store.addr_orInto, Store.width_orInto, Nat.add_mul]
      omega
    · cases h
  · rw [maskBit_put_zero (Nat.le_add_right _ _) (by
      rw [singletonMaskSize_of_pos (by omega)]
      omega), Bool.false_or, any_enum_eq m.fixedFields fun f => decide (f.type = .object)]
    simp only [decide_eq_true_eq]

/-- Each `Type_float` or `Type_double` field `i` of a pool gets the store of its
pool bit, wherever bit `i` falls. -/
theorem markStore_mem_maskStores (hk : m.kind = .poolKind) {i : Nat} {f : Field}
    (hf : m.fixedFields[i]? = some f) (hfd : f.type = .float ∨ f.type = .double) :
    markStore (dst + m.targetFixedSizeInWords * abi.targetBytesPerWord) abi.targetBytesPerWord i ∈
      maskStores abi m dst := by
  simp only [maskStores, hk]
  refine List.mem_append_right _ (List.mem_filterMap.mpr
    ⟨(i, f), List.mem_enum_iff_getElem?.mpr hf, ?_⟩)
  rcases hfd with h | h <;> simp only [h] <;> rfl

end Copy

/-! ### The masks of a class file's pool -/

section ClassFile

variable {abi : Abi} {m : TypeMap} {dst j : Nat}

theorem float_not_mem_slotTags (cf : ClassFile) :
    Ty.float ∉ ([.object, .intptr_t] ++ cf.pool.flatMap Constant.slotTypes : List Ty) := by
  simp only [List.mem_append, List.mem_flatMap, not_or]
  refine ⟨by decide, fun ⟨c, _, hc⟩ => ?_⟩
  cases c <;> simp [Constant.slotTypes] at hc

/-- Field `j` of a class file's pool map has the scan's tag of slot `j`. -/
theorem poolMap_type (abi : Abi) (cf : ClassFile) (j : Nat) :
    ((poolMap abi ([.object, .intptr_t] ++ cf.pool.flatMap Constant.slotTypes)
      cf.slots).fixedFields[j]?).map Field.type =
        ([.object, .intptr_t] ++ cf.pool.flatMap Constant.slotTypes)[j]? := by
  have hlen : u32 (cf.slots + 2) =
      ([.object, .intptr_t] ++ cf.pool.flatMap Constant.slotTypes : List Ty).length := by
    have := cf.poolCount_lt
    simp only [u32, ClassFile.slots, List.length_append, List.length_cons, List.length_nil] at this ⊢
    omega
  simp only [poolMap, hlen, List.getElem?_map]
  by_cases hj : j < ([.object, .intptr_t] ++ cf.pool.flatMap Constant.slotTypes : List Ty).length
  · simp only [List.getElem?_range hj, Option.map_some', List.getD_eq_getElem?_getD,
      List.getElem?_eq_getElem hj, Option.getD_some]
  · have hj' := Nat.le_of_not_lt hj
    rw [List.getElem?_eq_none (by rwa [List.length_range]), List.getElem?_eq_none hj']
    rfl

/-- The pool map of a class file, for a nonempty pool. -/
theorem classPoolMap_eq_some (cf : ClassFile) (hm : classPoolMap abi cf.encode = some (some m)) :
    cf.slots ≠ 0 ∧
      m = poolMap abi ([.object, .intptr_t] ++ cf.pool.flatMap Constant.slotTypes) cf.slots := by
  rw [ClassFile.classPoolMap_encode] at hm
  split at hm
  · cases hm
  · exact ⟨‹_›, (Option.some.inj (Option.some.inj hm)).symm⟩

/-- For every class file, the pool mask `copy` writes for its pool, on any buffer,
marks exactly the slots that hold a `CONSTANT_Double`'s value: the scan tags a
`CONSTANT_Float` `Type_int32_t`, and its slot stays clear. -/
theorem classFile_poolMask (cf : ClassFile) (hm : classPoolMap abi cf.encode = some (some m))
    (hj : j < poolMaskSize (m.targetFixedSizeInWords - 2) abi.targetBitsPerWord *
      abi.targetBitsPerWord) (mem : Memory) :
    maskBit abi.bigEndian abi.targetBytesPerWord
        (Store.applyAll abi.bigEndian (maskStores abi m dst) mem)
        (dst + m.targetFixedSizeInWords * abi.targetBytesPerWord) j =
      decide (([.object, .intptr_t] ++ cf.pool.flatMap Constant.slotTypes)[j]? = some .double) := by
  obtain ⟨-, rfl⟩ := classPoolMap_eq_some cf hm
  rw [pool_poolMask rfl hj, decide_eq_decide, ← poolMap_type abi cf j]
  constructor
  · rintro ⟨f, hf, hfloat | hdouble⟩
    · have := poolMap_type abi cf j
      rw [hf, Option.map_some', hfloat] at this
      exact absurd (List.mem_iff_getElem?.mpr ⟨j, this.symm⟩) (float_not_mem_slotTags cf)
    · rw [hf, Option.map_some', hdouble]
  · intro h
    obtain ⟨f, hf, hft⟩ := Option.map_eq_some'.mp h
    exact ⟨f, hf, .inr hft⟩

/-- For every class file whose `CONSTANT_Double` values all have their pool bit
inside the pool mask, the object mask `copy` writes for its pool, on any buffer,
marks exactly the slots tagged `Type_object`: the header's class slot and each
class, string, member, name-and-type and `Utf8` entry. -/
theorem classFile_objectMask (cf : ClassFile) (hm : classPoolMap abi cf.encode = some (some m))
    (hj : j < m.targetFixedSizeInWords)
    (hwide : ∀ i, ([.object, .intptr_t] ++ cf.pool.flatMap Constant.slotTypes)[i]? = some .double →
      i < poolMaskSize (m.targetFixedSizeInWords - 2) abi.targetBitsPerWord *
        abi.targetBitsPerWord)
    (mem : Memory) :
    maskBit abi.bigEndian 4 (Store.applyAll abi.bigEndian (maskStores abi m dst) mem)
        (dst + (m.targetFixedSizeInWords +
          poolMaskSize (m.targetFixedSizeInWords - 2) abi.targetBitsPerWord) *
            abi.targetBytesPerWord) j =
      decide (([.object, .intptr_t] ++ cf.pool.flatMap Constant.slotTypes)[j]? = some .object) := by
  obtain ⟨hslots, rfl⟩ := classPoolMap_eq_some cf hm
  have hfixed : 2 < u32 (cf.slots + 2) := by
    have := cf.poolCount_lt
    simp only [u32, ClassFile.slots] at this hslots ⊢
    omega
  refine (pool_objectMask rfl hfixed hj (fun i f hf hfd => hwide i ?_) mem).trans ?_
  · have := poolMap_type abi cf i
    rw [hf, Option.map_some'] at this
    rcases hfd with hfloat | hdouble
    · rw [hfloat] at this
      exact absurd (List.mem_iff_getElem?.mpr ⟨i, this.symm⟩) (float_not_mem_slotTags cf)
    · rw [← this, hdouble]
  · rw [decide_eq_decide, ← poolMap_type abi cf j]
    constructor
    · rintro ⟨f, hf, hobj⟩
      rw [hf, Option.map_some', hobj]
    · intro h
      obtain ⟨f, hf, hft⟩ := Option.map_eq_some'.mp h
      exact ⟨f, hf, hft⟩

/-- A class file whose pool is a `Utf8` "A", the `Class` #1, an `Integer` 7 and a
`Double` 0, in slots 1 to 5. -/
def mixedPoolClassFile : ClassFile :=
  ⟨0, 50, [.utf8 [65] (by decide), .classInfo 1, .integer 7, .double 0], [], by decide⟩

/-- Its pool map: the two header slots, then the five of the pool. -/
def mixedPoolMap : TypeMap :=
  poolMap Abi.native32 ([.object, .intptr_t] ++ mixedPoolClassFile.pool.flatMap Constant.slotTypes)
    mixedPoolClassFile.slots

/-- The object mask of its pool marks the `Class` entry's slot 3 and not the
`Double`'s slot 5. -/
theorem mixed_pool_object_mask :
    classPoolMap Abi.native32 mixedPoolClassFile.encode = some (some mixedPoolMap) ∧
      3 < mixedPoolMap.targetFixedSizeInWords ∧ 5 < mixedPoolMap.targetFixedSizeInWords ∧
      (∀ i, ([.object, .intptr_t] ++ mixedPoolClassFile.pool.flatMap Constant.slotTypes)[i]? =
        some .double → i < 32) ∧
      maskBit false 4 (Store.applyAll false (maskStores Abi.native32 mixedPoolMap 0) fun _ => 0)
          (0 + (7 + 1) * 4) 3 = true ∧
      maskBit false 4 (Store.applyAll false (maskStores Abi.native32 mixedPoolMap 0) fun _ => 0)
          (0 + (7 + 1) * 4) 5 = false := by
  have hm : classPoolMap Abi.native32 mixedPoolClassFile.encode = some (some mixedPoolMap) := by
    decide
  have hwide : ∀ i, ([.object, .intptr_t] ++ mixedPoolClassFile.pool.flatMap Constant.slotTypes)[i]? =
      some .double → i < 32 := fun _ hi => (List.getElem?_eq_some_iff.mp hi).1.trans_le (by decide)
  exact ⟨hm, by decide, by decide, hwide,
    (classFile_objectMask mixedPoolClassFile hm (by decide) hwide _).trans (by decide),
    (classFile_objectMask mixedPoolClassFile hm (by decide) hwide _).trans (by decide)⟩

end ClassFile

/-! ### Pools whose masks miss their slots -/

/-- A class file whose pool is one `CONSTANT_Float`, 1.0f. -/
def floatClassFile : ClassFile := ⟨0, 0, [.float 0x3F800000], [], by decide⟩

/-- A class file of thirty `CONSTANT_Integer`s and then a `CONSTANT_Double`, whose
value takes slot 32 of the pool map's 34 slots. -/
def wideLastClassFile : ClassFile :=
  ⟨0, 0, List.replicate 30 (.integer 0) ++ [.double 0], [], by decide⟩

/-- On a 32-bit target, on any buffer: the pool mask of `floatClassFile` leaves the
float's slot 2 clear, since the scan tags it `Type_int32_t`; and the pool mask of
`wideLastClassFile` is one word, while the pool bit of the double's slot 32 is
OR-ed into the word after it, the first word of the object mask. -/
theorem pool_mask_skips_float_and_overruns (dst : Nat) (mem : Memory) :
    (classPoolMap Abi.native32 floatClassFile.encode).map (Option.map fun m =>
      (m.fixedFields.map (·.type),
        maskBit false 4 (Store.applyAll false (maskStores Abi.native32 m dst) mem)
          (dst + m.targetFixedSizeInWords * 4) 2)) =
      some (some ([.object, .intptr_t, .int32_t], false)) ∧
    (classPoolMap Abi.native32 wideLastClassFile.encode).map (Option.map fun m =>
      (poolMaskSize (m.targetFixedSizeInWords - 2) 32,
        (maskStores Abi.native32 m dst).contains
          (.orInto (dst + m.targetFixedSizeInWords * 4 + 4) 4 1))) =
      some (some (1, true)) := by
  have hfloat := ClassFile.classPoolMap_encode Abi.native32 floatClassFile
  have hwide := ClassFile.classPoolMap_encode Abi.native32 wideLastClassFile
  rw [if_neg (by decide)] at hfloat hwide
  rw [hfloat, hwide]
  simp only [Option.map_some', Option.some.injEq, Prod.mk.injEq]
  refine ⟨⟨by decide, (classFile_poolMask floatClassFile hfloat (by decide) mem).trans (by decide)⟩,
    by decide, List.elem_iff.mpr ?_⟩
  have hslot : (poolMap Abi.native32 ([.object, .intptr_t] ++
      wideLastClassFile.pool.flatMap Constant.slotTypes) wideLastClassFile.slots).fixedFields[32]? =
        some ⟨.double, 128, 128⟩ := by decide
  exact markStore_mem_maskStores rfl hslot (.inr rfl)

end BootImage
