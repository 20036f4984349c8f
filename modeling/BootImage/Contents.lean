import BootImage.Fidelity
import BootImage.Numbering
import BootImage.Patching

/-! What the heap image keeps of each object. `visitNew` writes an object's body
with `copy`, and nothing written later lands on its scalar data: later objects take
later regions, and `visit` patches one word, the slot of the reference being
followed, which lies in the referring object's body apart from its scalar fields.
So once the walk is over every emitted object still holds, as the target reads it,
every scalar field and every element of a scalar tail array that its TypeMap
describes. This needs the walker to follow only reference slots the TypeMaps know,
and word 0, which a fixed object's `FixedMark` is or-ed into, to be the class
pointer. -/
namespace BootImage

variable {c : Context}

/-- Where the target finds an allotment's body: the word before its number. -/
def Allotment.bodyStart (c : Context) (a : Allotment) : Nat := (a.number - 1) * c.abi.targetBytesPerWord

/-- `[d, d + w)` holds a scalar datum of the allotment's object: a non-reference
fixed field, or an element of a tail array of scalars below the array's length. -/
def ScalarAt (c : Context) (a : Allotment) (d w : Nat) : Prop :=
  ∃ m, c.rt.typeMap c.typeMaps a.object = some m ∧
    ((∃ f ∈ m.fixedFields, f.type ≠ .object ∧ copyWidth c.abi f.type = some w ∧
        d = a.bodyStart c + f.targetOffset) ∨
      (m.targetArrayElementSizeInBytes ≠ 0 ∧ m.arrayElementType ≠ .object ∧
        copyWidth c.abi m.arrayElementType = some w ∧
        ∃ i < c.rt.arrayLength c.abi m a.object,
          d = a.bodyStart c + m.targetFixedSizeInWords * c.abi.targetBytesPerWord
            + i * m.targetArrayElementSizeInBytes))

/-- The heap holds the allotment's object's scalar data as `copy` transcribed it:
every non-reference fixed field, and every element of a tail array of scalars. -/
def ScalarsKept (c : Context) (heap : Memory) (a : Allotment) : Prop :=
  ∀ m, c.rt.typeMap c.typeMaps a.object = some m →
    (∀ f ∈ m.fixedFields, f.type ≠ .object →
      Transcribed c.abi (c.rt.body a.object) heap f.offset (a.bodyStart c + f.targetOffset) f.type) ∧
    (m.targetArrayElementSizeInBytes ≠ 0 → m.arrayElementType ≠ .object →
      ∀ i < c.rt.arrayLength c.abi m a.object,
        Transcribed c.abi (c.rt.body a.object) heap
          (m.buildFixedSizeInWords * c.abi.bytesPerWord + i * m.buildArrayElementSizeInBytes)
          (a.bodyStart c + m.targetFixedSizeInWords * c.abi.targetBytesPerWord
            + i * m.targetArrayElementSizeInBytes) m.arrayElementType)

/-- The walker follows only reference slots the TypeMap of the object knows: a
reference field at a word-aligned target offset, or an element of a reference array
below its length. -/
def Context.RefSlot (c : Context) (p o : Nat) : Prop :=
  ∃ m, c.rt.typeMap c.typeMaps p = some m ∧
    ((∃ g ∈ m.fixedFields, g.type = .object ∧ g.targetOffset % c.abi.targetBytesPerWord = 0 ∧
        m.targetOffset c.abi (o * c.abi.bytesPerWord) = g.targetOffset) ∨
      (m.arrayElementType = .object ∧ m.targetArrayElementSizeInBytes = c.abi.targetBytesPerWord ∧
        ∃ i < c.rt.arrayLength c.abi m p, m.targetOffset c.abi (o * c.abi.bytesPerWord) =
          m.targetFixedSizeInWords * c.abi.targetBytesPerWord + i * c.abi.targetBytesPerWord))

instance (c : Context) (p o : Nat) : Decidable (c.RefSlot p o) :=
  inferInstanceAs (Decidable (∃ m ∈ c.rt.typeMap c.typeMaps p, _))

/-! ### Frames -/

/-- What the target reads of a datum depends on the datum's own bytes only. -/
theorem Transcribed.congr {abi : Abi} {src heap heap' : Memory} {o d w : Nat} {type : Ty}
    (ht : Transcribed abi src heap o d type) (hw : copyWidth abi type = some w)
    (h : heap'.read d w = heap.read d w) : Transcribed abi src heap' o d type := by
  cases type <;> simp only [copyWidth, Option.some.injEq, reduceCtorEq] at hw <;> subst hw <;>
    simp only [Transcribed] at ht ⊢ <;> rw [h] <;> exact ht

/-- A heap that agrees on every scalar datum of an allotment keeps its scalars. -/
theorem ScalarsKept.frame (hwf : c.WellFormedMaps) {heap heap' : Memory} {a : Allotment}
    (hk : ScalarsKept c heap a) (h : ∀ d w, ScalarAt c a d w → heap'.read d w = heap.read d w) :
    ScalarsKept c heap' a := by
  intro m hm
  obtain ⟨hfields, helements⟩ := hk m hm
  have hwfm := hwf _ _ (c.rt.typeMap_mem hm)
  refine ⟨fun f hf ht => ?_, fun harray hobj i hi => ?_⟩
  · obtain ⟨w, hw, -⟩ := hwfm.fields_fit f hf
    exact (hfields f hf ht).congr hw (h _ _ ⟨m, hm, .inl ⟨f, hf, ht, hw, rfl⟩⟩)
  · obtain ⟨-, w, hw, -⟩ := hwfm.element_fits harray
    exact (helements harray hobj i hi).congr hw (h _ _ ⟨m, hm, .inr ⟨harray, hobj, hw, i, hi, rfl⟩⟩)

/-- Stores that miss every scalar datum of an allotment keep its scalars. -/
theorem ScalarsKept.applyAll (hwf : c.WellFormedMaps) {heap : Memory} {a : Allotment}
    {stores : List Store} (hk : ScalarsKept c heap a)
    (h : ∀ st ∈ stores, ∀ d w, ScalarAt c a d w → ∀ i < w, d + i < st.addr ∨ st.addr + st.width ≤ d + i) :
    ScalarsKept c (Store.applyAll c.abi.bigEndian stores heap) a :=
  hk.frame hwf fun d w hd => Store.read_applyAll_of_not_mem stores fun st hst => h st hst d w hd

/-- A write that misses every scalar datum of an allotment keeps its scalars. -/
theorem ScalarsKept.write (hwf : c.WellFormedMaps) {heap : Memory} {a : Allotment} {addr : Nat}
    {data : List UInt8} (hk : ScalarsKept c heap a)
    (h : ∀ d w, ScalarAt c a d w → ∀ i < w, d + i < addr ∨ addr + data.length ≤ d + i) :
    ScalarsKept c (heap.write addr data) a :=
  hk.frame hwf fun d w hd => Memory.read_congr fun i hi => Memory.write_apply_of_not_mem (h d w hd i hi)

/-! ### Where the data lies -/

section Bounds

variable {abi : Abi} {m : TypeMap}

theorem TypeMap.WellFormed.field_end_le (hwf : m.WellFormed abi) {f : Field} (hf : f ∈ m.fixedFields)
    {w : Nat} (hw : copyWidth abi f.type = some w) :
    f.targetOffset + w ≤ m.targetFixedSizeInWords * abi.targetBytesPerWord := by
  obtain ⟨w', hw', hle⟩ := hwf.fields_fit f hf
  rw [Option.mem_def, hw, Option.some.injEq] at hw'
  rwa [hw']

theorem TypeMap.WellFormed.element_end_le (hwf : m.WellFormed abi)
    (harray : m.targetArrayElementSizeInBytes ≠ 0) {w : Nat}
    (hw : copyWidth abi m.arrayElementType = some w) {i length : Nat} (hi : i < length) :
    m.targetFixedSizeInWords * abi.targetBytesPerWord + i * m.targetArrayElementSizeInBytes + w ≤
      m.targetSize abi length * abi.targetBytesPerWord := by
  obtain ⟨-, w', hw', hle⟩ := hwf.element_fits harray
  rw [Option.mem_def, hw, Option.some.injEq] at hw'
  have hceil := ceiling_mul_ge (m.targetArrayElementSizeInBytes * length) _ abi.targetBytesPerWord_pos
  have hstep := Nat.mul_le_mul_right m.targetArrayElementSizeInBytes (Nat.succ_le_of_lt hi)
  rw [TypeMap.targetSize, if_pos harray, Nat.add_mul, Nat.succ_mul] at *
  rw [Nat.mul_comm length] at hstep
  omega

end Bounds

/-- An allotment's body, in target words: it starts at the word before the number,
inside the region, after the fixie header of a fixed object, and its target size
fits before the region ends. -/
theorem Allotment.Valid.body_words {cap : Nat} {a : Allotment} (hv : a.Valid c cap) :
    a.start ≤ a.number - 1 ∧ a.number - 1 + a.size ≤ a.start + a.extent := by
  have hnum := hv.number_eq
  have hext := hv.extent_eq
  rcases Bool.eq_false_or_eq_true a.fixed with hfx | hfx <;>
    simp only [hfx, ↓reduceIte, Bool.false_eq_true] at hnum hext <;> omega

/-- An allotment's body lies in its region, after the fixie header of a fixed
object. -/
theorem Allotment.Valid.body_within {cap : Nat} {a : Allotment} (hv : a.Valid c cap) :
    a.start * c.abi.targetBytesPerWord ≤ a.bodyStart c ∧
      a.bodyStart c + a.size * c.abi.targetBytesPerWord ≤ (a.start + a.extent) * c.abi.targetBytesPerWord := by
  obtain ⟨hlo, hhi⟩ := hv.body_words
  rw [Allotment.bodyStart, ← Nat.add_mul]
  exact ⟨Nat.mul_le_mul_right _ hlo, Nat.mul_le_mul_right _ hhi⟩

/-- A scalar datum of a valid allotment lies in its body. -/
theorem ScalarAt.within (hwf : c.WellFormedMaps) {cap : Nat} {a : Allotment} (hv : a.Valid c cap)
    {d w : Nat} (h : ScalarAt c a d w) :
    a.bodyStart c ≤ d ∧ d + w ≤ a.bodyStart c + a.size * c.abi.targetBytesPerWord := by
  obtain ⟨m, hm, hd⟩ := h
  have hwfm := hwf _ _ (c.rt.typeMap_mem hm)
  have hsize := hv.size_eq
  rw [Runtime.targetSize, hm, Option.map_some', Option.some.injEq] at hsize
  rcases hd with ⟨f, hf, -, hw, rfl⟩ | ⟨harray, -, hw, i, hi, rfl⟩
  · have := hwfm.field_end_le hf hw
    have := m.targetFixedSizeInWords_le_targetSize c.abi (c.rt.arrayLength c.abi m a.object)
    have := Nat.mul_le_mul_right c.abi.targetBytesPerWord this
    rw [← hsize]
    omega
  · have := hwfm.element_end_le harray hw hi
    rw [← hsize]
    omega

/-- Distinct allotments of a consecutive log have regions apart. -/
theorem Consecutive.apart {pos : Nat} {log : List Allotment} (hcons : Consecutive pos log)
    {a b : Allotment} (ha : a ∈ log) (hb : b ∈ log) (hab : a ≠ b) (k : Nat) :
    (a.start + a.extent) * k ≤ b.start * k ∨ (b.start + b.extent) * k ≤ a.start * k := by
  have hsym : Symmetric fun a b : Allotment =>
      a.start + a.extent ≤ b.start ∨ b.start + b.extent ≤ a.start := fun _ _ h => h.symm
  rcases (hcons.pairwise.imp Or.inl).forall hsym ha hb hab with h | h
  · exact .inl (Nat.mul_le_mul_right k h)
  · exact .inr (Nat.mul_le_mul_right k h)

/-- The scalars of a valid allotment depend only on the bytes of its region. -/
theorem ScalarsKept.region (hwf : c.WellFormedMaps) {cap : Nat} {a : Allotment} (hv : a.Valid c cap)
    {heap heap' : Memory} (hk : ScalarsKept c heap a)
    (h : ∀ y, a.start * c.abi.targetBytesPerWord ≤ y → y < (a.start + a.extent) * c.abi.targetBytesPerWord →
      heap' y = heap y) :
    ScalarsKept c heap' a :=
  hk.frame hwf fun d w hd => Memory.read_congr fun i hi => by
    have := hd.within hwf hv
    have := hv.body_within
    exact h _ (by omega) (by omega)

/-! ### Where a reference slot lies -/

/-- The target word `visit` patches for the reference at host word `o` of an
allotted object: `Visitor.slot` once the walker has pushed that reference. -/
def Allotment.slot (c : Context) (b : Allotment) (o : Nat) : Option Nat :=
  (c.rt.targetOffset c.abi c.typeMaps b.object (o * c.abi.bytesPerWord)).map
    fun target => b.number - 1 + target / c.abi.targetBytesPerWord

theorem Visitor.slot_push {b : Allotment} {p n : Nat} (hobj : b.object = p) (hnum : b.number = n)
    (s : Visitor) (o : Nat) : (s.push p n o).slot c = b.slot c o := by
  subst hobj hnum
  rfl

/-- A reference slot the TypeMap knows is a word-aligned target offset whose word
lies inside the object. -/
theorem Context.RefSlot.target (hwf : c.WellFormedMaps) {p o : Nat} (hs : c.RefSlot p o) :
    ∃ m, c.rt.typeMap c.typeMaps p = some m ∧
      m.targetOffset c.abi (o * c.abi.bytesPerWord) % c.abi.targetBytesPerWord = 0 ∧
      m.targetOffset c.abi (o * c.abi.bytesPerWord) + c.abi.targetBytesPerWord ≤
        m.targetSize c.abi (c.rt.arrayLength c.abi m p) * c.abi.targetBytesPerWord := by
  obtain ⟨m, hm, hcase⟩ := hs
  have hwfm := hwf _ _ (c.rt.typeMap_mem hm)
  refine ⟨m, hm, ?_⟩
  rcases hcase with ⟨g, hg, hgobj, halign, ht⟩ | ⟨helem, hES, i, hi, ht⟩
  · -- a reference field, inside the fixed part
    have hgend := hwfm.field_end_le hg (show copyWidth c.abi g.type = some _ by rw [hgobj]; rfl)
    have hfixed := Nat.mul_le_mul_right c.abi.targetBytesPerWord
      (m.targetFixedSizeInWords_le_targetSize c.abi (c.rt.arrayLength c.abi m p))
    rw [ht]
    exact ⟨halign, by omega⟩
  · -- an element of a reference array, below its length
    have hlen : m.targetSize c.abi (c.rt.arrayLength c.abi m p) =
        m.targetFixedSizeInWords + c.rt.arrayLength c.abi m p := by
      rw [TypeMap.targetSize, if_pos (by rw [hES]; exact c.abi.targetBytesPerWord_pos.ne'), hES,
        Nat.mul_comm, ceiling_mul _ _ c.abi.targetBytesPerWord_pos]
    rw [ht, ← Nat.add_mul, hlen, ← Nat.succ_mul]
    exact ⟨Nat.mul_mod_left _ _, Nat.mul_le_mul_right _ (by omega)⟩

/-- The slot of a reference the TypeMap knows is a word of its object's body, hence
of its region, at the reference's word-aligned target offset from the body. -/
theorem Allotment.Valid.slot_within (hwf : c.WellFormedMaps) {cap : Nat} {b : Allotment}
    (hv : b.Valid c cap) {o : Nat} (hs : c.RefSlot b.object o) :
    ∃ t, c.rt.targetOffset c.abi c.typeMaps b.object (o * c.abi.bytesPerWord) = some t ∧
      t % c.abi.targetBytesPerWord = 0 ∧
      b.slot c o = some (b.number - 1 + t / c.abi.targetBytesPerWord) ∧
      b.start ≤ b.number - 1 + t / c.abi.targetBytesPerWord ∧
      b.number - 1 + t / c.abi.targetBytesPerWord < b.start + b.extent ∧
      t / c.abi.targetBytesPerWord < b.size := by
  obtain ⟨m, hm, halign, hend⟩ := hs.target hwf
  have htarget : c.rt.targetOffset c.abi c.typeMaps b.object (o * c.abi.bytesPerWord) =
      some (m.targetOffset c.abi (o * c.abi.bytesPerWord)) := by
    rw [Runtime.targetOffset, hm, Option.map_some']
  have hsize := hv.size_eq
  rw [Runtime.targetSize, hm, Option.map_some', Option.some.injEq] at hsize
  rw [hsize] at hend
  have hword : m.targetOffset c.abi (o * c.abi.bytesPerWord) / c.abi.targetBytesPerWord < b.size := by
    have := c.abi.targetBytesPerWord_pos
    exact Nat.div_lt_of_lt_mul (by rw [Nat.mul_comm c.abi.targetBytesPerWord]; omega)
  obtain ⟨hlo, hhi⟩ := hv.body_words
  exact ⟨_, htarget, halign, by rw [Allotment.slot, htarget, Option.map_some'],
    hlo.trans (Nat.le_add_right _ _), by omega, hword⟩

/-- Allotments of a consecutive log that share a word are one allotment. -/
theorem Consecutive.eq_of_word {pos : Nat} {log : List Allotment} (hcons : Consecutive pos log)
    {a b : Allotment} (ha : a ∈ log) (hb : b ∈ log) (x : Nat)
    (hxa : a.start ≤ x ∧ x < a.start + a.extent) (hxb : b.start ≤ x ∧ x < b.start + b.extent) :
    a = b := by
  by_contra hab
  have := hcons.apart ha hb hab 1
  simp only [Nat.mul_one] at this
  omega

/-- Once the walker has pushed a reference of an allotted object, the word `visit`
patches is that reference's slot. -/
theorem Visitor.slot_eq {b : Allotment} {s : Visitor} (hobj : b.object = s.currentObject)
    (hnum : b.number = s.currentNumber) : s.slot c = b.slot c s.currentOffset := by
  rw [← Visitor.slot_push hobj hnum s s.currentOffset]
  rfl

section Patch

variable (hwf : c.WellFormedMaps)
  (hdisjoint : ∀ key m, (key, m) ∈ c.typeMaps → m.fixedFields.Pairwise (Field.Disjoint c.abi))

include hwf hdisjoint in
/-- The slot of a reference the TypeMap knows lies apart from every scalar datum of
its object. -/
theorem Context.RefSlot.patch_word {b : Allotment} {o : Nat} (hs : c.RefSlot b.object o) :
    ∃ x, b.slot c o = some x ∧ ∀ d w, ScalarAt c b d w → ∀ i < w,
      d + i < x * c.abi.targetBytesPerWord ∨ x * c.abi.targetBytesPerWord + c.abi.targetBytesPerWord ≤ d + i := by
  obtain ⟨m, hm, hcase⟩ := hs
  have hwfm := hwf _ _ (c.rt.typeMap_mem hm)
  have hslot : ∀ t, m.targetOffset c.abi (o * c.abi.bytesPerWord) = t →
      b.slot c o = some (b.number - 1 + t / c.abi.targetBytesPerWord) := fun t ht => by
    rw [Allotment.slot, Runtime.targetOffset, hm, Option.map_some', Option.map_some', ht]
  rcases hcase with ⟨g, hg, hgobj, halign, ht⟩ | ⟨helem, -, i, -, ht⟩
  · -- a reference field: its own word, which no other field of the map shares
    have hx : (b.number - 1 + g.targetOffset / c.abi.targetBytesPerWord) * c.abi.targetBytesPerWord =
        b.bodyStart c + g.targetOffset := by
      rw [Nat.add_mul, Nat.div_mul_cancel (Nat.dvd_of_mod_eq_zero halign), Allotment.bodyStart]
    have hgw : copyWidth c.abi g.type = some c.abi.targetBytesPerWord := by rw [hgobj]; rfl
    have hgend := hwfm.field_end_le hg hgw
    refine ⟨_, hslot _ ht, fun d w hd j hj => ?_⟩
    obtain ⟨m', hm', hd⟩ := hd
    obtain rfl : m' = m := Option.some.inj (hm'.symm.trans hm)
    rw [hx]
    rcases hd with ⟨f, hf, hfobj, hw, rfl⟩ | ⟨-, -, -, k, -, rfl⟩
    · have hfg : f ≠ g := fun h => hfobj (h ▸ hgobj)
      have hsym : Symmetric (Field.Disjoint c.abi) := fun f g h => by
        simp only [Field.Disjoint, min_comm, max_comm] at h ⊢
        exact h
      have := (hdisjoint _ _ (c.rt.typeMap_mem hm)).forall hsym hf hg hfg
      simp only [Field.Disjoint, Field.targetEnd, hw, hgw, Option.getD_some, min_le_iff,
        le_max_iff] at this
      omega
    · -- the tail array starts after the fixed part
      omega
  · -- an element of a reference array: the word of its index after the fixed part
    have hx : (b.number - 1 + (m.targetFixedSizeInWords * c.abi.targetBytesPerWord +
        i * c.abi.targetBytesPerWord) / c.abi.targetBytesPerWord) * c.abi.targetBytesPerWord =
        b.bodyStart c + m.targetFixedSizeInWords * c.abi.targetBytesPerWord + i * c.abi.targetBytesPerWord := by
      rw [← Nat.add_mul, Nat.mul_div_cancel _ c.abi.targetBytesPerWord_pos, Allotment.bodyStart,
        Nat.add_mul, Nat.add_mul, Nat.add_assoc]
    refine ⟨_, hslot _ ht, fun d w hd j hj => ?_⟩
    obtain ⟨m', hm', hd⟩ := hd
    obtain rfl : m' = m := Option.some.inj (hm'.symm.trans hm)
    rw [hx]
    rcases hd with ⟨f, hf, -, hw, rfl⟩ | ⟨-, hobj', -⟩
    · have := hwfm.field_end_le hf hw
      omega
    · exact absurd helem hobj'

include hwf hdisjoint in
/-- Writing a word at the slot of a reference of an object keeps the object's scalars. -/
theorem ScalarsKept.patch {b : Allotment} {o x : Nat} (hs : c.RefSlot b.object o)
    (hx : b.slot c o = some x) {heap : Memory} (hk : ScalarsKept c heap b) (data : List UInt8)
    (hlen : data.length = c.abi.targetBytesPerWord) :
    ScalarsKept c (heap.write (x * c.abi.targetBytesPerWord) data) b := by
  obtain ⟨x', hx', hsep⟩ := hs.patch_word hwf hdisjoint
  obtain rfl : x' = x := Option.some.inj (hx'.symm.trans hx)
  exact hk.write hwf fun d w hd i hi => hlen ▸ hsep d w hd i hi

include hwf hdisjoint in
/-- An allotment's own stores leave its object's scalar data transcribed in its
body, whatever the heap held: the fixie header lies before the body, `FixedMark` is
or-ed into word 0, the class pointer's, and the dirty mask lies after the body. -/
theorem allot_scalars
    (hheader : ∀ key m, (key, m) ∈ c.typeMaps → ∀ f ∈ m.fixedFields, f.type ≠ .object →
      c.abi.targetBytesPerWord ≤ f.targetOffset)
    {s : Visitor} {p : Nat} {a : Allotment} (h : s.allot c p = some a) (heap : Memory) :
    ScalarsKept c (Store.applyAll c.abi.bigEndian a.stores heap) a := by
  have hv := Visitor.allot_valid hwf h
  obtain ⟨m, body, hm, -, hobj, -, -, -, hcase⟩ := Visitor.allot_eq_some h
  subst hobj
  have hwfm := hwf _ _ (c.rt.typeMap_mem hm)
  -- the body's stores, at the body, between stores that miss every scalar datum
  obtain ⟨pre, post, hstores, hbody, hpost⟩ : ∃ pre post, a.stores = pre ++ body ++ post ∧
      copyObject c.abi c.rt c.typeMaps a.object (a.bodyStart c) = some body ∧
      ∀ st ∈ post, ∀ d w, ScalarAt c a d w → ∀ i < w,
        d + i < st.addr ∨ st.addr + st.width ≤ d + i := by
    split at hcase
    · obtain ⟨hcopy, -, hnum, hst⟩ := hcase
      refine ⟨_, _, hst, by rw [Allotment.bodyStart, hnum, Nat.add_sub_cancel]; exact hcopy, ?_⟩
      intro st hst d w hd i hi
      have := hd.within hwf hv
      obtain ⟨m', hm', hd⟩ := hd
      obtain rfl : m' = m := Option.some.inj (hm'.symm.trans hm)
      have hword : c.abi.targetBytesPerWord ≤ d - a.bodyStart c := by
        rcases hd with ⟨f, hf, hfobj, -, rfl⟩ | ⟨-, -, -, k, -, rfl⟩
        · have := hheader _ _ (c.rt.typeMap_mem hm) f hf hfobj
          omega
        · have := Nat.mul_le_mul_right c.abi.targetBytesPerWord hwfm.fixed_pos
          omega
      simp only [Allotment.bodyStart, hnum, Nat.add_sub_cancel] at this hword
      simp only [List.mem_cons, List.mem_singleton, List.not_mem_nil, or_false] at hst
      rcases hst with rfl | rfl <;> simp only [Store.addr_orInto, Store.width_orInto,
        Store.addr_put, Store.width_put, List.length_replicate, Nat.add_mul] at this hword ⊢ <;> omega
    · obtain ⟨hcopy, -, hnum, hst⟩ := hcase
      exact ⟨[], [], by rw [hst, List.nil_append, List.append_nil],
        by rw [Allotment.bodyStart, hnum, Nat.add_sub_cancel]; exact hcopy, nofun⟩
  rw [hstores, Store.applyAll_append, Store.applyAll_append]
  refine ScalarsKept.applyAll hwf (fun m' hm' => ?_) hpost
  obtain rfl : m' = m := Option.some.inj (hm'.symm.trans hm)
  refine ⟨fun f hf _ => ?_, fun harray _ i hi => ?_⟩
  · obtain ⟨bytes, hbytes, hread⟩ :=
      copyObject_read_field hm hwfm (hdisjoint _ _ (c.rt.typeMap_mem hm)) hbody _ hf
    exact transcribed_of_read hbytes hread
  · obtain ⟨bytes, hbytes, hread⟩ := copyObject_read_element hm hwfm hbody _ harray hi
    exact transcribed_of_read hbytes hread

end Patch

namespace Walk

variable {edges : Nat → List (Nat × Nat)} {heap : Memory}

/-- The allotments of a run from the walker `makeHeapImage` starts are consecutive
from word 0 and valid. -/
theorem RunOf.allotments (hwf : c.WellFormedMaps) {w : Walk} (h : RunOf c (init c.abi heap) w) :
    Consecutive 0 w.log ∧ ∀ a ∈ w.log, a.Valid c (init c.abi heap).visitor.capacity := by
  obtain ⟨events, log, hrun, hlog⟩ := h
  obtain rfl : w.log = log := hlog
  obtain ⟨hcons, -, -, -, -, hvalid⟩ :=
    Visitor.run_allotments hwf hrun (Visitor.init_position_lt_capacity c.abi heap)
  exact ⟨hcons, hvalid⟩

/-! ### Facts of each object the walk keeps

A fact `P heap a` about the bytes of an allotted object survives the rest of the
walk when it depends only on the object's region, the object's own stores establish
it, and a patch of one of its reference slots keeps it: `copy` of a later object
writes only that object's region, and `visit` writes one reference slot. -/

section Frame

variable (P : Memory → Allotment → Prop) (hwf : c.WellFormedMaps)
  (hslots : ∀ p o q, (o, q) ∈ edges p → c.RefSlot p o)
  (hregion : ∀ {cap : Nat} {a : Allotment} {m m' : Memory}, a.Valid c cap → P m a →
    (∀ y, a.start * c.abi.targetBytesPerWord ≤ y → y < (a.start + a.extent) * c.abi.targetBytesPerWord →
      m' y = m y) → P m' a)
  (hallot : ∀ {s : Visitor} {p : Nat} {a : Allotment}, s.allot c p = some a →
    ∀ m, P (Store.applyAll c.abi.bigEndian a.stores m) a)
  (hpatch : ∀ {cap o x : Nat} {b : Allotment} {m : Memory}, b.Valid c cap → c.RefSlot b.object o →
    b.slot c o = some x → P m b → ∀ data : List UInt8, data.length = c.abi.targetBytesPerWord →
      P (m.write (x * c.abi.targetBytesPerWord) data) b)

include hwf hslots hregion hpatch in
/-- A patch keeps `P` of every allotment of a consecutive, valid log when the
reference being followed, if any, is a slot of an allotted object. -/
theorem visit_keeps {log : List Allotment} {cap : Nat} (hcons : Consecutive 0 log)
    (hvalid : ∀ a ∈ log, a.Valid c cap) {s s' : Visitor} {n q : Nat}
    (hcur : s.currentObject = 0 ∨ ∃ b ∈ log, b.object = s.currentObject ∧
      b.number = s.currentNumber ∧ (s.currentOffset, q) ∈ edges b.object)
    (hk : ∀ a ∈ log, P s.heap a) (h : s.visit c n = some s') : ∀ a ∈ log, P s'.heap a := by
  by_cases h0 : s.currentObject = 0
  · rw [Visitor.visit, if_pos h0, Option.some.injEq] at h
    exact h ▸ hk
  obtain ⟨b, hb, hobj, hnum, he⟩ := hcur.resolve_left h0
  have hs := hslots _ _ _ he
  obtain ⟨x, hx, hheap, -⟩ := Visitor.visit_patch h0 h
  rw [Visitor.slot_eq hobj hnum] at hx
  intro a ha
  rw [hheap]
  by_cases hab : a = b
  · subst hab
    exact hpatch (hvalid a ha) hs hx (hk a ha) _ (length_bytesOf _ _ _)
  · -- the patched word lies in `b`'s region, apart from `a`'s
    obtain ⟨t, -, -, hxs, hlo, hhi, -⟩ := (hvalid b hb).slot_within hwf hs
    obtain rfl := Option.some.inj (hxs.symm.trans hx)
    refine hregion (hvalid a ha) (hk a ha) fun y hy₁ hy₂ => Memory.write_apply_of_not_mem ?_
    rw [length_bytesOf]
    rcases hcons.apart ha hb hab 1 with hab' | hab' <;> simp only [Nat.mul_one] at hab'
    · have := Nat.mul_le_mul_right c.abi.targetBytesPerWord (show a.start + a.extent ≤ _ from hab'.trans hlo)
      omega
    · have := Nat.mul_le_mul_right c.abi.targetBytesPerWord
        (show b.number - 1 + t / c.abi.targetBytesPerWord + 1 ≤ a.start by omega)
      rw [Nat.succ_mul] at this
      omega

/-- What the walk keeps: it is a run from the walker `makeHeapImage` starts, and
every allotted object has `P`. -/
structure Keeps (c : Context) (heap : Memory) (w : Walk) : Prop where
  run : RunOf c (init c.abi heap) w
  each : ∀ a ∈ w.log, P w.visitor.heap a

include hwf hslots hregion hpatch in
theorem Keeps.visitOld {w : Walk} {v : Visitor} {p : Nat} (hk : Keeps P c heap w)
    (hf : Following edges w p) (hv : w.visitor.visitOld c (w.numbers p) = some v) :
    Keeps P c heap { w with visitor := v } :=
  have ⟨hcons, hvalid⟩ := hk.run.allotments hwf
  ⟨hk.run.trans (RunOf.visitOld p hv), visit_keeps P hwf hslots hregion hpatch hcons hvalid hf hk.each hv⟩

include hwf hslots hregion hallot hpatch in
theorem Keeps.emit {w : Walk} {p : Nat} {a : Allotment} {v : Visitor} (hk : Keeps P c heap w)
    (hf : Following edges w p) (hp : p ≠ 0) (he : w.visitor.emit c p = some (a, v)) :
    Keeps P c heap ⟨v, fun q => if q = p then a.number else w.numbers q, w.log ++ [a]⟩ := by
  have hrun := hk.run.trans (RunOf.emit hp he)
  obtain ⟨hcons, hvalid⟩ := hrun.allotments hwf
  simp only [Visitor.emit, Option.bind_eq_bind] at he
  obtain ⟨a', ha, he⟩ := Option.bind_eq_some.mp he
  obtain ⟨v', hv, he⟩ := Option.bind_eq_some.mp he
  cases he
  have hva := hvalid a (List.mem_append_right _ (List.mem_singleton_self a))
  -- the allotment's stores, in its own region, keep the earlier objects' facts and make its own
  have hplaced : ∀ b ∈ w.log ++ [a], P (w.visitor.place c a).heap b := by
    intro b hb
    rcases List.mem_append.mp hb with hb | hb
    · refine hregion (hvalid b (List.mem_append_left _ hb)) (hk.each b hb) fun y _ hy =>
        Store.applyAll_of_within _ hva.within (.inl ?_)
      have := Nat.mul_le_mul_right c.abi.targetBytesPerWord
        ((List.pairwise_append.mp hcons.pairwise).2.2 b hb a (List.mem_singleton_self a))
      omega
    · obtain rfl := List.mem_singleton.mp hb
      exact hallot ha _
  have hf' : Following edges ⟨w.visitor.place c a, w.numbers, w.log ++ [a]⟩ p :=
    hf.imp_right fun ⟨b, hb, h⟩ => ⟨b, List.mem_append_left _ hb, h⟩
  exact ⟨hrun, visit_keeps P hwf hslots hregion hpatch hcons hvalid hf' hplaced hv⟩

include hwf hslots hregion hallot hpatch in
/-- Every object the walk from the walker `makeHeapImage` starts emits keeps `P`. -/
theorem walk_keeps {fuel : Nat} {r : Roots} {w : Walk}
    (h : visitRoots c edges fuel (init c.abi heap) r = some w) : ∀ a ∈ w.log, P w.visitor.heap a :=
  (visitRoots_invariant (Keeps P c heap) (fun hk _ _ => ⟨hk.run.trans (RunOf.push _ _ _), hk.each⟩)
    (fun hk => ⟨hk.run.trans (RunOf.pop _), hk.each⟩) (fun hk => ⟨hk.run.trans (RunOf.root _), hk.each⟩)
    (fun _ hk hf _ _ hv => hk.visitOld P hwf hslots hregion hpatch hf hv)
    (fun hk hf hp _ he => hk.emit P hwf hslots hregion hallot hpatch hf hp he) h
    ⟨RunOf.refl _, nofun⟩).each

end Frame

/-- The heap image keeps every object's scalar data. Take well-formed TypeMaps
whose fields' target ranges are disjoint and whose scalar fields lie past word 0,
the class pointer's, and a walker that follows only reference slots the TypeMaps
know. After `visitRoots`, every object the walk emitted holds in its body, as the
target reads it, each scalar field of its TypeMap and each element of its scalar
tail array: no later `copy` and no patch of a reference slot overwrote any of it. -/
theorem walk_keeps_scalars (hwf : c.WellFormedMaps)
    (hdisjoint : ∀ key m, (key, m) ∈ c.typeMaps → m.fixedFields.Pairwise (Field.Disjoint c.abi))
    (hheader : ∀ key m, (key, m) ∈ c.typeMaps → ∀ f ∈ m.fixedFields, f.type ≠ .object →
      c.abi.targetBytesPerWord ≤ f.targetOffset)
    (hslots : ∀ p o q, (o, q) ∈ edges p → c.RefSlot p o) {fuel : Nat} {r : Roots} {w : Walk}
    (h : visitRoots c edges fuel (init c.abi heap) r = some w) :
    ∀ a ∈ w.log, ScalarsKept c w.visitor.heap a :=
  walk_keeps (ScalarsKept c) hwf hslots (fun hv hk hm => hk.region hwf hv hm)
    (fun ha m => allot_scalars hwf hdisjoint hheader ha m)
    (fun _ hs hx hk data hlen => hk.patch hwf hdisjoint hs hx data hlen) h

end Walk

/-! ### Two objects with an `int` each -/

/-- Objects 100 and 200 of class 300 refer to each other from word 1 and hold an
`int` in word 2; the classes are of the class type 500. -/
def pairRuntime : Runtime where
  objectClass p := if p = 100 ∨ p = 200 then 300 else 500
  body p := Memory.write (fun _ => 0) 8 (bytesOf false 4 (if p = 100 then 0x11223344 else 0x55667788))
  classType := 500
  singletonType := 600
  isSystemClassLoader _ := false
  classStaticTable := 8

/-- Class 300's map: the class pointer, the reference, and the `int`. -/
def pairMap : TypeMap :=
  ⟨3, 3, [⟨.object, 0, 0⟩, ⟨.object, 4, 4⟩, ⟨.int32_t, 8, 8⟩], .normalKind, 0, 0, .none⟩

/-- A little-endian host writing for a big-endian target. -/
def pairContext : Context :=
  ⟨Abi.bigEndian32, pairRuntime, [(300, pairMap), (500, classMap)], 3, 2 ^ 32 - 4, 30, 3⟩

def pairEdges (p : Nat) : List (Nat × Nat) :=
  if p = 100 then [(0, 300), (1, 200)] else if p = 200 then [(0, 300), (1, 100)]
  else if p = 300 ∨ p = 500 then [(0, 500)] else []

/-- Only the two objects and the two classes have references. -/
theorem pairEdges_mem {p : Nat} {e : Nat × Nat} (he : e ∈ pairEdges p) : p ∈ [100, 200, 300, 500] := by
  simp only [pairEdges] at he
  split_ifs at he <;> simp_all

theorem pairContext_wellFormed : pairContext.WellFormedMaps := by decide

theorem pairContext_disjoint : ∀ key m, (key, m) ∈ pairContext.typeMaps →
    m.fixedFields.Pairwise (Field.Disjoint pairContext.abi) := fun key m h =>
  (by decide : ∀ e ∈ pairContext.typeMaps, e.2.fixedFields.Pairwise (Field.Disjoint pairContext.abi))
    (key, m) h

theorem pairContext_header : ∀ key m, (key, m) ∈ pairContext.typeMaps → ∀ f ∈ m.fixedFields,
    f.type ≠ .object → pairContext.abi.targetBytesPerWord ≤ f.targetOffset := fun key m h =>
  (by decide : ∀ e ∈ pairContext.typeMaps, ∀ f ∈ e.2.fixedFields, f.type ≠ .object →
    pairContext.abi.targetBytesPerWord ≤ f.targetOffset) (key, m) h

/-- Every reference of the two objects and the two classes is a slot their TypeMaps know. -/
theorem pairEdges_slots : ∀ p o q, (o, q) ∈ pairEdges p → pairContext.RefSlot p o := fun p o q he =>
  (by decide : ∀ p ∈ [100, 200, 300, 500], ∀ e ∈ pairEdges p, pairContext.RefSlot p e.1)
    p (pairEdges_mem he) (o, q) he

/-- Walked for the big-endian target, both objects keep their `int`s through the
patches of the references to each other. -/
theorem pair_walk_keeps_scalars :
    pairContext.WellFormedMaps ∧
      (∀ key m, (key, m) ∈ pairContext.typeMaps →
        m.fixedFields.Pairwise (Field.Disjoint pairContext.abi)) ∧
      (∀ key m, (key, m) ∈ pairContext.typeMaps → ∀ f ∈ m.fixedFields, f.type ≠ .object →
        pairContext.abi.targetBytesPerWord ≤ f.targetOffset) ∧
      (∀ p o q, (o, q) ∈ pairEdges p → pairContext.RefSlot p o) ∧
      ∃ w, Walk.visitRoots pairContext pairEdges 6 (Walk.init pairContext.abi fun _ => 0)
          ⟨[], 0, 0, 0, [], [100]⟩ = some w ∧ ∀ a ∈ w.log, ScalarsKept pairContext w.visitor.heap a := by
  obtain ⟨w, h⟩ := Option.isSome_iff_exists.mp (by decide :
    (Walk.visitRoots pairContext pairEdges 6 (Walk.init pairContext.abi fun _ => 0)
      ⟨[], 0, 0, 0, [], [100]⟩).isSome)
  exact ⟨pairContext_wellFormed, pairContext_disjoint, pairContext_header, pairEdges_slots, w, h,
    Walk.walk_keeps_scalars pairContext_wellFormed pairContext_disjoint pairContext_header pairEdges_slots h⟩

end BootImage
