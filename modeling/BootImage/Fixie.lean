import BootImage.Contents

/-! The fixie header and dirty mask of a fixed object. `visitNew` allots a static
table, or a system class loader, as a fixed object: before the body it zeroes a
header of `TargetFixieSizeInBytes` bytes and writes into it the age
`FixieTenureThreshold + 1`, the has-mask flag and the size in the target byte order,
and after the body it zeroes a dirty mask of `ceiling(size, TargetBytesPerWord)`
words. The booted runtime's collector reads both to find the image's fixed objects
and their dirty words.

Nothing the walk does afterwards touches either. `copy` of a later object writes
that object's own region, and `visit` writes one reference slot, which lies in its
object's body, between the header and the mask. So the statement here is the
instance of the frame principle of `BootImage.Contents` for the header and mask. -/

namespace BootImage

variable {c : Context}

/-- The fixie header `visitNew` writes for an object of `size` target words, byte
by byte from the header's start: the age, the has-mask flag, two zero bytes, the
size as the target reads it, and two zeroed target words. -/
def Context.fixieBytes (c : Context) (size : Nat) : List UInt8 :=
  [UInt8.ofNat (c.fixieTenureThreshold + 1), 1, 0, 0] ++ bytesOf c.abi.targetBigEndian 4 size ++
    List.replicate (c.abi.targetBytesPerWord * 2) 0

/-- A fixed object's header, at the start of its region, and its dirty mask, after
its body, as `visitNew` wrote them. -/
def FixieKept (c : Context) (heap : Memory) (a : Allotment) : Prop :=
  heap.read (a.start * c.abi.targetBytesPerWord) c.targetFixieSizeInBytes = c.fixieBytes a.size ∧
    heap.read ((a.start + c.targetFixieSizeInWords + a.size) * c.abi.targetBytesPerWord)
        (ceiling a.size c.abi.targetBytesPerWord * c.abi.targetBytesPerWord) =
      List.replicate (ceiling a.size c.abi.targetBytesPerWord * c.abi.targetBytesPerWord) 0

instance (c : Context) (heap : Memory) (a : Allotment) : Decidable (FixieKept c heap a) :=
  inferInstanceAs (Decidable (_ ∧ _))

/-- The header stores leave the fixie bytes at the header, whatever the heap held:
the age, flag and size overwrite parts of the zeroed header and miss one another. -/
theorem read_fixieHeader (position size : Nat) (m : Memory) :
    (Store.applyAll c.abi.bigEndian (Visitor.fixieHeader c position size) m).read
      (position * c.abi.targetBytesPerWord) c.targetFixieSizeInBytes = c.fixieBytes size := by
  simp only [Visitor.fixieHeader, Store.applyAll_cons, Store.applyAll_nil, Store.apply]
  generalize position * c.abi.targetBytesPerWord = h
  have hlen : c.targetFixieSizeInBytes = 1 + 1 + 2 + 4 + c.abi.targetBytesPerWord * 2 := by
    simp only [Context.targetFixieSizeInBytes]
  rw [hlen, Memory.read_add, Memory.read_add, Memory.read_add, Memory.read_add]
  simp only [Nat.reduceAdd]
  -- each part is the last store that writes it, or the zeros under them all
  rw [Memory.read_write_of_disjoint (by simp), Memory.read_write_of_disjoint (by simp),
    Memory.read_write_of_length (List.length_singleton _),
    Memory.read_write_of_disjoint (by simp), Memory.read_write_of_length (List.length_singleton _),
    Memory.read_write_of_disjoint (by simp), Memory.read_write_of_disjoint (by simp),
    Memory.read_write_of_disjoint (by simp), Memory.read_write_replicate (by omega) (by omega),
    Memory.read_write_of_length (length_bytesOf _ _ _),
    Memory.read_write_of_disjoint (by simp), Memory.read_write_of_disjoint (by simp),
    Memory.read_write_of_disjoint (by simp), Memory.read_write_replicate (by omega) (by omega),
    Abi.bytesOf_targetV, Context.fixieBytes]
  rfl

section Allot

variable (hwf : c.WellFormedMaps)

include hwf in
/-- A fixed allotment's own stores leave its fixie header and dirty mask, whatever
the heap held: the copy and `FixedMark` lie between them, and the mask is the last
store. -/
theorem allot_fixie {s : Visitor} {p : Nat} {a : Allotment} (h : s.allot c p = some a)
    (hfixed : a.fixed = true) (m : Memory) :
    FixieKept c (Store.applyAll c.abi.bigEndian a.stores m) a := by
  obtain ⟨mp, body, hm, hsize, -, hstart, -, -, hcase⟩ := Visitor.allot_eq_some h
  rw [if_pos hfixed] at hcase
  obtain ⟨hcopy, -, -, hstores⟩ := hcase
  have hin := copyObject_within hm (hwf _ _ (c.rt.typeMap_mem hm)) hcopy
  rw [← hsize] at hin
  have hheader : c.targetFixieSizeInBytes ≤ c.targetFixieSizeInWords * c.abi.targetBytesPerWord :=
    ceiling_mul_ge _ _ c.abi.targetBytesPerWord_pos
  rw [FixieKept, hstores, hstart, Store.applyAll_append, Store.applyAll_append]
  constructor
  · -- the header: the body, `FixedMark` and the mask lie past it
    rw [Store.read_applyAll_of_not_mem, Store.read_applyAll_of_not_mem, read_fixieHeader]
    · intro st hst i hi
      have := hin st hst
      simp only [Store.Within, Nat.add_mul] at this
      omega
    · intro st hst i hi
      simp only [List.mem_cons, List.mem_singleton, List.not_mem_nil, or_false] at hst
      rcases hst with rfl | rfl <;>
        simp only [Store.addr_orInto, Store.addr_put, Nat.add_mul] <;> omega
  · -- the mask: the last store
    simp only [Store.applyAll_cons, Store.applyAll_nil, Store.apply]
    exact Memory.read_write_of_length (List.length_replicate _ _)

end Allot

/-- The header and mask of a valid fixed allotment lie in its region, so they depend
on its bytes only. -/
theorem FixieKept.region {cap : Nat} {a : Allotment} (hv : a.Valid c cap) (hfixed : a.fixed = true)
    {heap heap' : Memory} (hk : FixieKept c heap a)
    (h : ∀ y, a.start * c.abi.targetBytesPerWord ≤ y → y < (a.start + a.extent) * c.abi.targetBytesPerWord →
      heap' y = heap y) :
    FixieKept c heap' a := by
  have hext := hv.extent_eq
  rw [if_pos hfixed] at hext
  have hheader : c.targetFixieSizeInBytes ≤ c.targetFixieSizeInWords * c.abi.targetBytesPerWord :=
    ceiling_mul_ge _ _ c.abi.targetBytesPerWord_pos
  rw [hext, Nat.add_mul, Nat.add_mul, Nat.add_mul] at h
  obtain ⟨hhead, hmask⟩ := hk
  refine ⟨(Memory.read_congr fun i hi => h _ ?_ ?_).trans hhead,
    (Memory.read_congr fun i hi => h _ ?_ ?_).trans hmask⟩ <;> simp only [Nat.add_mul] at * <;> omega

/-- A patch of a reference slot of a fixed object keeps its header and mask: the slot
is a word of the body, which lies between them. -/
theorem FixieKept.patch (hwf : c.WellFormedMaps) {cap : Nat} {b : Allotment} (hv : b.Valid c cap)
    (hfixed : b.fixed = true) {o x : Nat} (hs : c.RefSlot b.object o) (hx : b.slot c o = some x)
    {heap : Memory} (hk : FixieKept c heap b) (data : List UInt8)
    (hlen : data.length = c.abi.targetBytesPerWord) :
    FixieKept c (heap.write (x * c.abi.targetBytesPerWord) data) b := by
  obtain ⟨t, -, -, hxs, -, -, hword⟩ := hv.slot_within hwf hs
  obtain rfl := Option.some.inj (hxs.symm.trans hx)
  generalize t / c.abi.targetBytesPerWord = k at hword ⊢
  have hnum := hv.number_eq
  rw [if_pos hfixed] at hnum
  have hheader : c.targetFixieSizeInBytes ≤ c.targetFixieSizeInWords * c.abi.targetBytesPerWord :=
    ceiling_mul_ge _ _ c.abi.targetBytesPerWord_pos
  -- the slot's word lies after the header and before the mask
  have hlo := Nat.mul_le_mul_right c.abi.targetBytesPerWord
    (show b.start + c.targetFixieSizeInWords ≤ b.number - 1 + k by omega)
  have hhi := Nat.mul_le_mul_right c.abi.targetBytesPerWord
    (show b.number - 1 + k + 1 ≤ b.start + c.targetFixieSizeInWords + b.size by omega)
  rw [Nat.add_mul b.start] at hlo
  rw [Nat.succ_mul] at hhi
  obtain ⟨hhead, hmask⟩ := hk
  exact ⟨(Memory.read_write_of_disjoint (by omega)).trans hhead,
    (Memory.read_write_of_disjoint (by omega)).trans hmask⟩

namespace Walk

variable {edges : Nat → List (Nat × Nat)} {heap : Memory}

/-- The heap image keeps every fixed object's fixie header and dirty mask. Take
well-formed TypeMaps and a walker that follows only reference slots the TypeMaps
know. After `visitRoots`, every fixed object the walk emitted has at the start of
its region the header `visitNew` wrote, with its age, has-mask flag and size, and
after its body a zeroed dirty mask of `ceiling(size, TargetBytesPerWord)` words. -/
theorem walk_keeps_fixies (hwf : c.WellFormedMaps)
    (hslots : ∀ p o q, (o, q) ∈ edges p → c.RefSlot p o) {fuel : Nat} {r : Roots} {w : Walk}
    (h : visitRoots c edges fuel (init c.abi heap) r = some w) :
    ∀ a ∈ w.log, a.fixed = true → FixieKept c w.visitor.heap a :=
  walk_keeps (fun m a => a.fixed = true → FixieKept c m a) hwf hslots
    (fun hv hk hm hfixed => (hk hfixed).region hv hfixed hm)
    (fun ha m hfixed => allot_fixie hwf ha hfixed m)
    (fun hv hs hx hk data hlen hfixed => (hk hfixed).patch hwf hv hfixed hs hx data hlen) h

end Walk

theorem staticWalkContext_wellFormed : staticWalkContext.WellFormedMaps := by decide

/-- The class's static-table slot is a slot its TypeMap knows. -/
theorem staticWalkEdges_slots : ∀ p o q, (o, q) ∈ staticWalkEdges p → staticWalkContext.RefSlot p o := by
  intro p o q he
  obtain ⟨rfl, rfl, -⟩ := mem_staticWalkEdges.mp he
  decide

/-- In the walk of a class `C` whose static-table slot holds its table `T`, the table
is fixed and keeps its header and mask. -/
theorem static_walk_keeps_fixie :
    staticWalkContext.WellFormedMaps ∧
      (∀ p o q, (o, q) ∈ staticWalkEdges p → staticWalkContext.RefSlot p o) ∧
      ∃ w, Walk.visitRoots staticWalkContext staticWalkEdges 4 (Walk.init Abi.native32 fun _ => 0)
          ⟨[300], 0, 0, 0, [], [700]⟩ = some w ∧ (w.log.any fun a => a.fixed) = true ∧
        ∀ a ∈ w.log, a.fixed = true → FixieKept staticWalkContext w.visitor.heap a := by
  have hfixed : (Walk.visitRoots staticWalkContext staticWalkEdges 4 (Walk.init Abi.native32 fun _ => 0)
      ⟨[300], 0, 0, 0, [], [700]⟩).map (fun w => w.log.any fun a => a.fixed) = some true := by
    decide
  obtain ⟨w, h⟩ := Option.isSome_iff_exists.mp (by decide :
    (Walk.visitRoots staticWalkContext staticWalkEdges 4 (Walk.init Abi.native32 fun _ => 0)
      ⟨[300], 0, 0, 0, [], [700]⟩).isSome)
  rw [h, Option.map_some', Option.some.injEq] at hfixed
  exact ⟨staticWalkContext_wellFormed, staticWalkEdges_slots, w, h, hfixed,
    Walk.walk_keeps_fixies staticWalkContext_wellFormed staticWalkEdges_slots h⟩

end BootImage
