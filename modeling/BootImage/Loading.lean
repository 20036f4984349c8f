import BootImage.References
import BootImage.Fixie
import BootImage.Image
import BootImage.Masks
import BootImage.Resolve

/-! What a loader of the image finds of the heap walk. `writeBootImage2` writes, after
`makeHeapImage`, `pad(heapMapSize(heapSize))` bytes of the visitor's heap map and
`pad(heapSize)` bytes of its heap buffer, with `heapSize` the visitor's final
position in host words. Read back as memory, with the target's byte order, these
two sections hold what the walk left in the buffer and the map: every emitted
object's scalar data, every fixed object's fixie header and dirty mask, every
non-null reference slot patched with its target's number and marked, and no other
mark.

The sections themselves are as the walk left them: the recorded heap size is the
emitted target words' bytes, the heap section is the buffer's words up to the final
position, and the heap map section holds every mark the walk set, since a mark is
a reference slot inside an emitted object. What the target reads of them the
statement takes with the host's byte order; where the byte orders differ, the
target reads the heap map's words with their bytes reversed.

The code refers to the heap through the same numbers: `updateConstants` patches
each immediate of a heap constant with the number the walker's map gives the
constant's object, which is the object's allotment number. -/

namespace BootImage

/-- The bytes a loader finds, as memory: byte `i` of `bytes`, and zero past their end. -/
def Memory.ofBytes (bytes : List UInt8) : Memory := fun i => bytes.getD i 0

namespace Memory

variable {m : Memory} {n i : Nat}

theorem ofBytes_read (h : i < n) : ofBytes (m.read 0 n) i = m i := by
  simp [ofBytes, read, List.getD_eq_getElem?_getD, h]

theorem ofBytes_read_of_le (h : n ≤ i) : ofBytes (m.read 0 n) i = 0 :=
  List.getD_eq_default _ _ (by simpa using h)

end Memory

variable {abi : Abi}

/-- The heap section read back holds the buffer's bytes below the final position. -/
theorem ofBytes_heapSection (heap : Memory) {position y : Nat}
    (hy : y < position * abi.targetBytesPerWord) :
    Memory.ofBytes (heapSection abi heap position) y = heap y := by
  rw [heapSection_eq, Memory.ofBytes_read hy]

/-- With one byte order on both sides, the target reads bit `x` of the heap map
section as the map's bit `x` when the section holds its word, and as 0 when it
does not. -/
theorem targetBit_heapMapSection (horder : abi.targetBigEndian = abi.bigEndian) (map : Nat → Bool)
    (position x : Nat) :
    targetBit abi (Memory.ofBytes (heapMapSection abi map position)) x =
      (map x && decide (x / abi.targetBitsPerWord < ceiling position abi.targetBitsPerWord)) := by
  rw [heapMapSection_eq]
  by_cases hk : x / abi.targetBitsPerWord < ceiling position abi.targetBitsPerWord
  · -- the word of the bit is in the section
    have hend := Nat.mul_le_mul_right abi.targetBytesPerWord (Nat.succ_le_of_lt hk)
    rw [Nat.succ_mul] at hend
    have hread : (Memory.ofBytes ((mapBytes abi map).read 0
        (ceiling position abi.targetBitsPerWord * abi.targetBytesPerWord))).read
          (x / abi.targetBitsPerWord * abi.targetBytesPerWord) abi.targetBytesPerWord =
        (mapBytes abi map).read (x / abi.targetBitsPerWord * abi.targetBytesPerWord)
          abi.targetBytesPerWord :=
      Memory.read_congr fun i hi => Memory.ofBytes_read (by omega)
    rw [decide_eq_true hk, Bool.and_true, ← targetBit_mapBytes abi map horder x, targetBit,
      targetBit, hread]
  · -- past the section every byte reads 0
    have hread : (Memory.ofBytes ((mapBytes abi map).read 0
        (ceiling position abi.targetBitsPerWord * abi.targetBytesPerWord))).read
          (x / abi.targetBitsPerWord * abi.targetBytesPerWord) abi.targetBytesPerWord =
        List.replicate abi.targetBytesPerWord 0 := by
      refine List.ext_getElem (by simp) fun i hi _ => ?_
      have := Nat.mul_le_mul_right abi.targetBytesPerWord (Nat.le_of_not_lt hk)
      simp only [Memory.read, List.getElem_map, List.getElem_range, List.getElem_replicate]
      exact Memory.ofBytes_read_of_le (by omega)
    rw [decide_eq_false hk, Bool.and_false, targetBit, hread, valueOf_replicate_zero, Nat.zero_testBit]

/-- A consecutive log's regions end by the end of the last. -/
theorem Consecutive.end_le : ∀ {pos : Nat} {log : List Allotment}, Consecutive pos log →
    ∀ a ∈ log, a.start + a.extent ≤ pos + (log.map (·.extent)).sum
  | _, [], _, _, ha => absurd ha (List.not_mem_nil _)
  | _, b :: log, ⟨hb, hrest⟩, a, ha => by
      rcases List.mem_cons.mp ha with rfl | ha
      · simp only [List.map_cons, List.sum_cons]
        omega
      · have := Consecutive.end_le hrest a ha
        simp only [List.map_cons, List.sum_cons]
        omega

namespace Walk

variable {c : Context} {edges : Nat → List (Nat × Nat)} {heap : Memory}

/-- The heap section of the image `writeBootImage2` writes after the walk `w`, as a
loader's memory. -/
def heapImage (c : Context) (w : Walk) : Memory :=
  Memory.ofBytes (heapSection c.abi w.visitor.heap w.visitor.position)

/-- The heap map section of the image, as a loader's memory. -/
def heapMapImage (c : Context) (w : Walk) : Memory :=
  Memory.ofBytes (heapMapSection c.abi w.visitor.map w.visitor.position)

/-- Every region a run from the walker `makeHeapImage` starts allots ends by the
visitor's final position. -/
theorem RunOf.end_le_position (hwf : c.WellFormedMaps) {w : Walk} (h : RunOf c (init c.abi heap) w) :
    ∀ a ∈ w.log, a.start + a.extent ≤ w.visitor.position := by
  obtain ⟨events, log, hrun, hlog⟩ := h
  obtain rfl : w.log = log := hlog
  obtain ⟨hcons, hpos, -⟩ :=
    Visitor.run_allotments hwf hrun (Visitor.init_position_lt_capacity c.abi heap)
  intro a ha
  have := hcons.end_le a ha
  rw [hpos]
  exact this

/-- What a loader reads of a valid allotment's region is the buffer's. -/
theorem heapImage_region (hwf : c.WellFormedMaps) {w : Walk} (hrun : RunOf c (init c.abi heap) w)
    {a : Allotment} (ha : a ∈ w.log) :
    ∀ y, a.start * c.abi.targetBytesPerWord ≤ y → y < (a.start + a.extent) * c.abi.targetBytesPerWord →
      w.heapImage c y = w.visitor.heap y := fun _ _ hy =>
  ofBytes_heapSection _ (lt_of_lt_of_le hy
    (Nat.mul_le_mul_right _ (hrun.end_le_position hwf a ha)))

section Marks

variable (hwf : c.WellFormedMaps) (hslots : ∀ p o q, (o, q) ∈ edges p → c.RefSlot p o)

include hwf hslots in
/-- A visit that follows a reference of an allotted object marks a slot of that
object's region, so with every region ending by the position the marks stay below
it. -/
theorem visit_marks_below {log : List Allotment} {cap : Nat} (hvalid : ∀ b ∈ log, b.Valid c cap)
    {s s' : Visitor} {p n : Nat} (hend : ∀ b ∈ log, b.start + b.extent ≤ s.position)
    (hcur : s.currentObject = 0 ∨ ∃ b ∈ log, b.object = s.currentObject ∧
      b.number = s.currentNumber ∧ (s.currentOffset, p) ∈ edges b.object)
    (hbelow : ∀ x, s.map x = true → x < s.position) (h : s.visit c n = some s') :
    ∀ x, s'.map x = true → x < s'.position := by
  by_cases h0 : s.currentObject = 0
  · rw [Visitor.visit, if_pos h0, Option.some.injEq] at h
    exact h ▸ hbelow
  obtain ⟨b, hb, hobj, hnum, he⟩ := hcur.resolve_left h0
  obtain ⟨x', hx', -, hmap, hpos, -⟩ := Visitor.visit_patch h0 h
  obtain ⟨t, -, -, hs, -, hhi, -⟩ := (hvalid b hb).slot_within hwf (hslots _ _ _ he)
  rw [Visitor.slot_eq hobj hnum, hs, Option.some.injEq] at hx'
  have hlt : x' < s.position := by have := hend b hb; omega
  intro x hx
  rw [hmap] at hx
  rw [hpos]
  split at hx
  · rcases Bool.or_eq_true _ _ |>.mp hx with hxx | hxx
    · exact of_decide_eq_true hxx ▸ hlt
    · exact hbelow x hxx
  · exact hbelow x hx

/-- What the walk keeps of the heap map: it is a run from the walker
`makeHeapImage` starts, and every mark lies below the visitor's position. -/
def MarksBelow (c : Context) (heap : Memory) (w : Walk) : Prop :=
  RunOf c (init c.abi heap) w ∧ ∀ x, w.visitor.map x = true → x < w.visitor.position

include hwf hslots in
theorem MarksBelow.visitOld {w : Walk} {v : Visitor} {p : Nat} (hw : MarksBelow c heap w)
    (hf : Following edges w p) (hv : w.visitor.visitOld c (w.numbers p) = some v) :
    MarksBelow c heap { w with visitor := v } :=
  ⟨hw.1.trans (RunOf.visitOld p hv), visit_marks_below hwf hslots (hw.1.allotments hwf).2
    (hw.1.end_le_position hwf) hf hw.2 hv⟩

include hwf hslots in
theorem MarksBelow.emit {w : Walk} {p : Nat} {a : Allotment} {v : Visitor}
    (hw : MarksBelow c heap w) (hf : Following edges w p) (hp : p ≠ 0)
    (he : w.visitor.emit c p = some (a, v)) :
    MarksBelow c heap ⟨v, fun q => if q = p then a.number else w.numbers q, w.log ++ [a]⟩ := by
  have hrun := hw.1.trans (RunOf.emit hp he)
  have hvalid := (hrun.allotments hwf).2
  have hend := hw.1.end_le_position hwf
  obtain ⟨-, -, -, -, -, hstart, -⟩ := Visitor.allot_eq_some (emit_allot he)
  simp only [Visitor.emit, Option.bind_eq_bind] at he
  obtain ⟨a', ha, he⟩ := Option.bind_eq_some.mp he
  obtain ⟨v', hv, he⟩ := Option.bind_eq_some.mp he
  cases he
  refine ⟨hrun, visit_marks_below hwf hslots hvalid (s := w.visitor.place c a) (fun b hb => ?_)
    (hf.imp_right fun ⟨b, hb, h⟩ => ⟨b, List.mem_append_left _ hb, h⟩)
    (fun x hx => by have := hw.2 x hx; simp only [Visitor.place]; omega) hv⟩
  simp only [Visitor.place]
  rcases List.mem_append.mp hb with hb | hb
  · have := hend b hb
    omega
  · rw [List.mem_singleton.mp hb]

end Marks

/-- The heap sections of the image hold the walk. Take a target of the host's word
size and byte order, well-formed TypeMaps whose fields' target ranges are disjoint
and whose scalar fields lie past the class pointer, a walker that follows only
reference slots the TypeMaps know, where two references of one object share a
target offset only if they lead to the same object, and a `BootShift` of at most 32
bits above every heap number. After `visitRoots`, a loader that reads the heap and
heap map sections `writeBootImage2` writes finds in every emitted object its scalar
data, in every fixed object its fixie header and dirty mask, in the slot of every
non-null reference the number of the object it leads to, marked in the heap map,
and no other mark. -/
theorem heap_sections_hold_walk (hwf : c.WellFormedMaps)
    (hdisjoint : ∀ key m, (key, m) ∈ c.typeMaps → m.fixedFields.Pairwise (Field.Disjoint c.abi))
    (hheader : ∀ key m, (key, m) ∈ c.typeMaps → ∀ f ∈ m.fixedFields, f.type ≠ .object →
      c.abi.targetBytesPerWord ≤ f.targetOffset)
    (hslots : ∀ p o q, (o, q) ∈ edges p → c.RefSlot p o)
    (hapart : ∀ p o q o' q', (o, q) ∈ edges p → (o', q') ∈ edges p →
      c.rt.targetOffset c.abi c.typeMaps p (o * c.abi.bytesPerWord) =
        c.rt.targetOffset c.abi c.typeMaps p (o' * c.abi.bytesPerWord) → q = q')
    (hbs : c.bootShift ≤ 32) (hcap : heapCapacity / c.abi.targetBytesPerWord ≤ 2 ^ c.bootShift)
    (hword : c.abi.targetBytesPerWord = c.abi.bytesPerWord) (horder : c.abi.targetBigEndian = c.abi.bigEndian)
    {fuel : Nat} {r : Roots} {w : Walk} (h : visitRoots c edges fuel (init c.abi heap) r = some w) :
    (∀ a ∈ w.log, ScalarsKept c (w.heapImage c) a) ∧
    (∀ a ∈ w.log, a.fixed = true → FixieKept c (w.heapImage c) a) ∧
    (∀ a ∈ w.log, ∀ o q, (o, q) ∈ edges a.object → q ≠ 0 →
      ∃ x, a.slot c o = some x ∧ targetBit c.abi (w.heapMapImage c) x = true ∧
        valueOf c.abi.targetBigEndian ((w.heapImage c).read (x * c.abi.targetBytesPerWord)
          c.abi.targetBytesPerWord) % 2 ^ c.bootShift = w.numbers q) ∧
    ∀ x, targetBit c.abi (w.heapMapImage c) x = true →
      ∃ a ∈ w.log, ∃ o q, (o, q) ∈ edges a.object ∧ q ≠ 0 ∧ a.slot c o = some x := by
  obtain ⟨hw, hmarked⟩ := walkRoots_marks hwf hslots hapart hbs hcap h (patched_init c edges heap) nofun
  have hrun := hw.run
  obtain ⟨-, hvalid⟩ := hrun.allotments hwf
  have hregion := fun {a} (ha : a ∈ w.log) => heapImage_region hwf hrun ha
  -- the buffer's objects, as the walk leaves them
  have hscalars := walk_keeps (ScalarsKept c) hwf hslots (fun hv hk hm => hk.region hwf hv hm)
    (fun ha m => allot_scalars hwf hdisjoint hheader ha m)
    (fun _ hs hx hk data hlen => hk.patch hwf hdisjoint hs hx data hlen) h
  have hfixies := walk_keeps (fun m a => a.fixed = true → FixieKept c m a) hwf hslots
    (fun hv hk hm hfixed => (hk hfixed).region hv hfixed hm)
    (fun ha m hfixed => allot_fixie hwf ha hfixed m)
    (fun hv hs hx hk data hlen hfixed => (hk hfixed).patch hwf hv hfixed hs hx data hlen) h
  refine ⟨fun a ha => (hscalars a ha).region hwf (hvalid a ha) fun y hy₁ hy₂ => hregion ha y hy₁ hy₂,
    fun a ha hfixed => (hfixies a ha hfixed).region (hvalid a ha) hfixed fun y hy₁ hy₂ =>
      hregion ha y hy₁ hy₂, fun a ha o q he hq => ?_, fun x hx => ?_⟩
  · -- a reference's slot lies in its object's region, below the final position
    obtain ⟨x, hx, hmark⟩ := hmarked a ha o q he hq
    obtain ⟨t, -, -, hxs, hlo, hhi, -⟩ := (hvalid a ha).slot_within hwf (hslots _ _ _ he)
    obtain rfl := Option.some.inj (hxs.symm.trans hx)
    have hend := hrun.end_le_position hwf a ha
    have hslot := Nat.mul_le_mul_right c.abi.targetBytesPerWord (Nat.succ_le_of_lt hhi)
    have hlo' := Nat.mul_le_mul_right c.abi.targetBytesPerWord hlo
    rw [Nat.succ_mul] at hslot
    refine ⟨_, hx, ?_, ?_⟩
    · rw [heapMapImage, targetBit_heapMapSection horder, hmark, Bool.true_and, decide_eq_true_eq]
      exact lt_ceiling_of_lt_mul (by simp only [Abi.targetBitsPerWord]; have := c.abi.targetBytesPerWord_pos; omega)
        (by omega)
    · rw [horder, Memory.read_congr fun i hi => hregion ha _ (by omega) (by omega)]
      exact ((hw.backpatched _ hmark).2 a ha o q he hx).1
  · -- a mark in the section is a mark of the map
    rw [heapMapImage, targetBit_heapMapSection horder, Bool.and_eq_true] at hx
    exact (hw.backpatched x hx.1).1

end Walk

/-! ### Heap constants in the code -/

namespace Walk

variable {c : Context} {edges : Nat → List (Nat × Nat)} {heap : Memory}

/-- The code's heap constants name the walk's objects. After `visitRoots` and both
passes over the code, with the target words of the patched immediates apart, the
object of every heap constant was emitted by the walk, and each immediate chained
off the constant holds, in host byte order, that object's allotment number, one
past the target word its body starts at in the heap, with `BootHeapOffset` and the
listener's flat bit, and is marked in the code map. -/
theorem code_constants_name_objects (rv : Resolver) {fuel : Nat} {r : Roots} {w : Walk}
    (h : visitRoots c edges fuel (init c.abi heap) r = some w) {code : Memory}
    {addresses : List CodeAddress} {constants : List HeapConstant} {s : CodeState}
    (hres : rv.resolveCode w.numbers code addresses constants = some s)
    (hapart : ((rv.patches w.numbers addresses constants).map Prod.fst).Pairwise rv.Apart) :
    ∀ k ∈ constants, ∃ a ∈ w.log, a.object = k.object ∧ ∀ l ∈ k.listeners,
      s.bytes.read l.location rv.abi.targetBytesPerWord =
          bytesOf rv.abi.bigEndian rv.abi.targetBytesPerWord
            (a.number ||| rv.bootHeapOffset ||| rv.flatBits l.flat) ∧
        s.codeMap (l.location - rv.code) = true := by
  have hnum := visitRoots_numbered h (numbered_init c.abi heap)
  have hp := Resolver.resolveCode_patched hres hapart
  intro k hk
  -- the pass got through, so the constant's object has a number, hence an allotment
  have hpos := ((Resolver.resolveCode_isSome_iff.mp (Option.isSome_iff_exists.mpr ⟨s, hres⟩)).2 k hk).1
  obtain ⟨a, ha, hobj⟩ := hnum.allotted _ hpos.ne'
  refine ⟨a, ha, hobj, fun l hl => ?_⟩
  have hmem : (l.location, w.numbers k.object ||| rv.bootHeapOffset ||| rv.flatBits l.flat) ∈
      rv.patches w.numbers addresses constants :=
    List.mem_append_right _ (List.mem_flatMap.mpr ⟨k, hk, List.mem_map_of_mem _ hl⟩)
  rw [← hobj, hnum.number_eq a ha] at hmem
  exact ⟨hp.holds _ hmem, (hp.marked _).mpr ⟨_, hmem, rfl⟩⟩

end Walk

/-- The walk of a class `C` and its static table `T` on a 32-bit host for its own
target: the loader finds the table's fixie header and mask and `C`'s patched,
marked static-table slot. -/
theorem static_heap_sections_hold_walk :
    staticWalkContext.WellFormedMaps ∧
      (∀ key m, (key, m) ∈ staticWalkContext.typeMaps →
        m.fixedFields.Pairwise (Field.Disjoint staticWalkContext.abi)) ∧
      (∀ key m, (key, m) ∈ staticWalkContext.typeMaps → ∀ f ∈ m.fixedFields, f.type ≠ .object →
        staticWalkContext.abi.targetBytesPerWord ≤ f.targetOffset) ∧
      (∀ p o q, (o, q) ∈ staticWalkEdges p → staticWalkContext.RefSlot p o) ∧
      (∀ p o q o' q', (o, q) ∈ staticWalkEdges p → (o', q') ∈ staticWalkEdges p →
        staticWalkContext.rt.targetOffset staticWalkContext.abi staticWalkContext.typeMaps p
            (o * staticWalkContext.abi.bytesPerWord) =
          staticWalkContext.rt.targetOffset staticWalkContext.abi staticWalkContext.typeMaps p
            (o' * staticWalkContext.abi.bytesPerWord) → q = q') ∧
      staticWalkContext.bootShift ≤ 32 ∧
      heapCapacity / staticWalkContext.abi.targetBytesPerWord ≤ 2 ^ staticWalkContext.bootShift ∧
      staticWalkContext.abi.targetBytesPerWord = staticWalkContext.abi.bytesPerWord ∧
      staticWalkContext.abi.targetBigEndian = staticWalkContext.abi.bigEndian ∧
      ∃ w, Walk.visitRoots staticWalkContext staticWalkEdges 4 (Walk.init Abi.native32 fun _ => 0)
          ⟨[300], 0, 0, 0, [], [700]⟩ = some w ∧
        (∀ a ∈ w.log, ScalarsKept staticWalkContext (w.heapImage staticWalkContext) a) ∧
        (∀ a ∈ w.log, a.fixed = true → FixieKept staticWalkContext (w.heapImage staticWalkContext) a) ∧
        (∀ a ∈ w.log, ∀ o q, (o, q) ∈ staticWalkEdges a.object → q ≠ 0 →
          ∃ x, a.slot staticWalkContext o = some x ∧
            targetBit staticWalkContext.abi (w.heapMapImage staticWalkContext) x = true ∧
            valueOf staticWalkContext.abi.targetBigEndian ((w.heapImage staticWalkContext).read
              (x * staticWalkContext.abi.targetBytesPerWord) staticWalkContext.abi.targetBytesPerWord) %
                2 ^ staticWalkContext.bootShift = w.numbers q) ∧
        ∀ x, targetBit staticWalkContext.abi (w.heapMapImage staticWalkContext) x = true →
          ∃ a ∈ w.log, ∃ o q, (o, q) ∈ staticWalkEdges a.object ∧ q ≠ 0 ∧ a.slot staticWalkContext o = some x := by
  have hdisjoint : ∀ key m, (key, m) ∈ staticWalkContext.typeMaps →
      m.fixedFields.Pairwise (Field.Disjoint staticWalkContext.abi) := fun key m h =>
    (by decide : ∀ e ∈ staticWalkContext.typeMaps,
      e.2.fixedFields.Pairwise (Field.Disjoint staticWalkContext.abi)) (key, m) h
  have hheader : ∀ key m, (key, m) ∈ staticWalkContext.typeMaps → ∀ f ∈ m.fixedFields,
      f.type ≠ .object → staticWalkContext.abi.targetBytesPerWord ≤ f.targetOffset := fun key m h =>
    (by decide : ∀ e ∈ staticWalkContext.typeMaps, ∀ f ∈ e.2.fixedFields, f.type ≠ .object →
      staticWalkContext.abi.targetBytesPerWord ≤ f.targetOffset) (key, m) h
  have hapart : ∀ p o q o' q', (o, q) ∈ staticWalkEdges p → (o', q') ∈ staticWalkEdges p →
      staticWalkContext.rt.targetOffset staticWalkContext.abi staticWalkContext.typeMaps p
          (o * staticWalkContext.abi.bytesPerWord) =
        staticWalkContext.rt.targetOffset staticWalkContext.abi staticWalkContext.typeMaps p
          (o' * staticWalkContext.abi.bytesPerWord) → q = q' := by
    intro p o q o' q' he he' _
    simp only [staticWalkEdges] at he he'
    split_ifs at he he' <;> simp_all
  obtain ⟨w, h⟩ := Option.isSome_iff_exists.mp (by decide :
    (Walk.visitRoots staticWalkContext staticWalkEdges 4 (Walk.init Abi.native32 fun _ => 0)
      ⟨[300], 0, 0, 0, [], [700]⟩).isSome)
  exact ⟨staticWalkContext_wellFormed, hdisjoint, hheader, staticWalkEdges_slots, hapart, by decide,
    by decide, rfl, rfl, w, h, Walk.heap_sections_hold_walk staticWalkContext_wellFormed hdisjoint
      hheader staticWalkEdges_slots hapart (by decide) (by decide) rfl rfl h⟩

/-- A 32-bit native resolver with the code at 0x1000, `BootFlatConstant` bit 30 and
`BootHeapOffset` bit 31, as for a `BootShift` of 30. -/
def staticResolver : Resolver := ⟨Abi.native32, 0x1000, 2 ^ 30, 2 ^ 31⟩

/-- A flat immediate at 0x1010 of the code that refers to the static table `T`. -/
def staticConstants : List HeapConstant := [⟨700, [⟨0x1010, true⟩]⟩]

/-- In the walk of the class `C` and its static table `T`, the code's constant for
`T` names the table's allotment. -/
theorem static_code_constant_names_table :
    ∃ w s, Walk.visitRoots staticWalkContext staticWalkEdges 4 (Walk.init Abi.native32 fun _ => 0)
        ⟨[300], 0, 0, 0, [], [700]⟩ = some w ∧
      staticResolver.resolveCode w.numbers (fun _ => 0) [] staticConstants = some s ∧
      ((staticResolver.patches w.numbers [] staticConstants).map Prod.fst).Pairwise staticResolver.Apart ∧
      ∀ k ∈ staticConstants, ∃ a ∈ w.log, a.object = k.object ∧ ∀ l ∈ k.listeners,
        s.bytes.read l.location staticResolver.abi.targetBytesPerWord =
            bytesOf staticResolver.abi.bigEndian staticResolver.abi.targetBytesPerWord
              (a.number ||| staticResolver.bootHeapOffset ||| staticResolver.flatBits l.flat) ∧
          s.codeMap (l.location - staticResolver.code) = true := by
  obtain ⟨w, h⟩ := Option.isSome_iff_exists.mp (by decide :
    (Walk.visitRoots staticWalkContext staticWalkEdges 4 (Walk.init Abi.native32 fun _ => 0)
      ⟨[300], 0, 0, 0, [], [700]⟩).isSome)
  have hres : ((Walk.visitRoots staticWalkContext staticWalkEdges 4 (Walk.init Abi.native32 fun _ => 0)
      ⟨[300], 0, 0, 0, [], [700]⟩).bind fun w =>
        staticResolver.resolveCode w.numbers (fun _ => 0) [] staticConstants).isSome := by
    decide
  rw [h, Option.some_bind] at hres
  obtain ⟨s, hs⟩ := Option.isSome_iff_exists.mp hres
  have hapart : ((staticResolver.patches w.numbers [] staticConstants).map Prod.fst).Pairwise
      staticResolver.Apart := by
    simp only [Resolver.patches, staticConstants, List.map_nil, List.nil_append, List.flatMap_cons,
      List.flatMap_nil, List.map_cons, List.append_nil]
    exact List.pairwise_singleton _ _
  exact ⟨w, s, h, hs, hapart, Walk.code_constants_name_objects staticResolver h hs hapart⟩

end BootImage
