import BootImage.Contents

/-! What `visit` leaves in the heap and the heap map. Following a reference, the
walker pushes the referring object, its number and the reference's host word offset,
and the visit of the object the reference leads to patches the slot `number - 1 +
targetOffset / TargetBytesPerWord` with that object's number, under the slot's old
mark bits shifted by `BootShift`, and marks the slot in the heap map. When every
reference the walker reports is a slot its object's TypeMap knows, and two
references of one object share a target offset only if they lead to the same
object, no patch is overwritten: a later patch lands on another slot, and a later
object's stores on a later region. So after the walk the heap map marks exactly the
slots of the non-null references of the emitted objects, and each of them holds, in
its low `BootShift` bits, the number of the object the reference leads to. -/
namespace BootImage

variable {c : Context}

/-! ### What one patch writes -/

namespace Visitor

variable {s s' : Visitor}

/-- A word reads as before when its bytes are as before. -/
theorem readWord_congr {x : Nat}
    (h : ∀ i < c.abi.targetBytesPerWord, s'.heap (x * c.abi.targetBytesPerWord + i) =
      s.heap (x * c.abi.targetBytesPerWord + i)) :
    s'.readWord c x = s.readWord c x := by
  rw [readWord, readWord, Memory.read_congr h]

theorem readWord_write_self {x v : Nat}
    (h : s'.heap = s.heap.write (x * c.abi.targetBytesPerWord)
      (bytesOf c.abi.bigEndian c.abi.targetBytesPerWord v)) :
    s'.readWord c x = v % 256 ^ c.abi.targetBytesPerWord := by
  rw [readWord, h, Memory.read_write_of_length (length_bytesOf _ _ _), valueOf_bytesOf]

theorem readWord_write_of_ne {x y v : Nat} (hxy : x ≠ y)
    (h : s'.heap = s.heap.write (x * c.abi.targetBytesPerWord)
      (bytesOf c.abi.bigEndian c.abi.targetBytesPerWord v)) :
    s'.readWord c y = s.readWord c y := by
  refine readWord_congr fun i hi => ?_
  rw [h]
  apply Memory.write_apply_of_not_mem
  rw [length_bytesOf]
  rcases Nat.lt_or_gt_of_ne hxy with hlt | hlt <;>
    have := Nat.mul_le_mul_right c.abi.targetBytesPerWord (Nat.succ_le_of_lt hlt) <;>
    rw [Nat.succ_mul] at this <;> omega

theorem patchValue_lt (s : Visitor) (x n : Nat) : s.patchValue c x n < 2 ^ 32 :=
  Nat.mod_lt _ (Nat.two_pow_pos 32)

/-- The low `BootShift` bits of a patched word are the number, when it fits: the
old mark bits go above them. -/
theorem patchValue_mod (s : Visitor) (x : Nat) (hbs : c.bootShift ≤ 32) {n : Nat}
    (hn : n < 2 ^ c.bootShift) : s.patchValue c x n % 2 ^ c.bootShift = n := by
  rw [patchValue, u32, Nat.mod_mod_of_dvd _ (Nat.pow_dvd_pow 2 hbs)]
  apply Nat.eq_of_testBit_eq
  intro i
  rw [Nat.testBit_mod_two_pow, Nat.testBit_or, u32, Nat.testBit_mod_two_pow, Nat.testBit_shiftLeft]
  by_cases hi : i < c.bootShift
  · simp [hi, show ¬ c.bootShift ≤ i by omega]
  · simp only [hi, decide_False, Bool.false_and]
    exact (Nat.testBit_lt_two_pow
      (lt_of_lt_of_le hn (Nat.pow_le_pow_right two_pos (not_lt.mp hi)))).symm

/-- A visit only adds marks. -/
theorem visit_map_mono {n x : Nat} (h : s.visit c n = some s') (hx : s.map x = true) :
    s'.map x = true := by
  by_cases h0 : s.currentObject = 0
  · rw [visit, if_pos h0, Option.some.injEq] at h
    exact h ▸ hx
  obtain ⟨y, -, -, hmap, -, -⟩ := visit_patch h0 h
  rw [hmap]
  split <;> simp [hx]

/-- A visit that follows a reference writes its slot with a word whose low
`BootShift` bits are the number, marks the slot when the number is not null, and
leaves every other word and mark as it was. -/
theorem visit_slot (hbs : c.bootShift ≤ 32) {n : Nat} (hn : n < 2 ^ c.bootShift)
    (h : s.visit c n = some s') (hcur : s.currentObject ≠ 0) :
    ∃ x, s.slot c = some x ∧ s'.readWord c x % 2 ^ c.bootShift = n ∧ (0 < n → s'.map x = true) ∧
      ∀ y, y ≠ x → s'.readWord c y = s.readWord c y ∧ s'.map y = s.map y := by
  obtain ⟨x, hx, hheap, hmap, -, -⟩ := visit_patch hcur h
  have hval := patchValue_mod s x hbs hn
  have h32 : 2 ^ 32 ≤ 256 ^ c.abi.targetBytesPerWord := by
    rcases c.abi.targetBytesPerWord_cases with hw | hw <;> rw [hw] <;> norm_num
  refine ⟨x, hx, ?_, fun hpos => ?_, fun y hy => ⟨readWord_write_of_ne (Ne.symm hy) hheap, ?_⟩⟩
  · rw [readWord_write_self hheap, Nat.mod_eq_of_lt (lt_of_lt_of_le (patchValue_lt s x n) h32), hval]
  · have hne : s.patchValue c x n ≠ 0 := fun h0 => by rw [h0, Nat.zero_mod] at hval; omega
    rw [hmap, if_pos hne]
    simp
  · rw [hmap]
    split <;> simp [hy]

end Visitor

/-! ### The heap map agrees with the references -/

variable (c) (edges : Nat → List (Nat × Nat)) in
/-- Every heap-map mark is the slot of a non-null reference of an allotted object,
and every reference whose slot is marked finds there, in the low `BootShift` bits,
the number of the object it leads to. -/
def Backpatched (log : List Allotment) (numbers : Nat → Nat) (s : Visitor) : Prop :=
  ∀ x, s.map x = true →
    (∃ b ∈ log, ∃ o q, (o, q) ∈ edges b.object ∧ q ≠ 0 ∧ b.slot c o = some x) ∧
      ∀ b ∈ log, ∀ o q, (o, q) ∈ edges b.object → b.slot c o = some x →
        s.readWord c x % 2 ^ c.bootShift = numbers q ∧ numbers q ≠ 0

section Patch

variable {edges : Nat → List (Nat × Nat)} (hwf : c.WellFormedMaps)
  (hslots : ∀ p o q, (o, q) ∈ edges p → c.RefSlot p o)
  (hapart : ∀ p o q o' q', (o, q) ∈ edges p → (o', q') ∈ edges p →
    c.rt.targetOffset c.abi c.typeMaps p (o * c.abi.bytesPerWord) =
      c.rt.targetOffset c.abi c.typeMaps p (o' * c.abi.bytesPerWord) → q = q')
  (hbs : c.bootShift ≤ 32)

include hwf hslots hapart in
/-- References of allotted objects that share a slot lead to the same object: the
slot lies in one object's region, at one target offset. -/
theorem slot_target_eq {log : List Allotment} {cap : Nat} (hcons : Consecutive 0 log)
    (hvalid : ∀ b ∈ log, b.Valid c cap) {b b' : Allotment} (hb : b ∈ log) (hb' : b' ∈ log)
    {o q o' q' x : Nat} (he : (o, q) ∈ edges b.object) (he' : (o', q') ∈ edges b'.object)
    (hx : b.slot c o = some x) (hx' : b'.slot c o' = some x) : q = q' := by
  obtain ⟨t, ht, halign, hs, hlo, hhi, -⟩ := (hvalid b hb).slot_within hwf (hslots _ _ _ he)
  obtain ⟨t', ht', halign', hs', hlo', hhi', -⟩ := (hvalid b' hb').slot_within hwf (hslots _ _ _ he')
  rw [hs, Option.some.injEq] at hx
  rw [hs', Option.some.injEq] at hx'
  obtain rfl := hcons.eq_of_word hb hb' x ⟨by omega, by omega⟩ ⟨by omega, by omega⟩
  have hdiv : t / c.abi.targetBytesPerWord = t' / c.abi.targetBytesPerWord := by omega
  have htt : t = t' := by
    rw [← Nat.div_mul_cancel (Nat.dvd_of_mod_eq_zero halign),
      ← Nat.div_mul_cancel (Nat.dvd_of_mod_eq_zero halign'), hdiv]
  exact hapart _ _ _ _ _ he he' (by rw [ht, ht', htt])

include hwf hslots hapart hbs in
/-- A visit that follows a reference to `p` with `p`'s number keeps the agreement. -/
theorem Backpatched.visit {log : List Allotment} {cap : Nat} (hcons : Consecutive 0 log)
    (hvalid : ∀ b ∈ log, b.Valid c cap) {numbers : Nat → Nat} {s s' : Visitor} {p : Nat}
    (hbp : Backpatched c edges log numbers s)
    (hcur : s.currentObject = 0 ∨ ∃ b ∈ log, b.object = s.currentObject ∧
      b.number = s.currentNumber ∧ (s.currentOffset, p) ∈ edges b.object)
    (hp : p ≠ 0) (hnum : numbers p ≠ 0) (hlt : numbers p < 2 ^ c.bootShift)
    (h : s.visit c (numbers p) = some s') : Backpatched c edges log numbers s' := by
  by_cases h0 : s.currentObject = 0
  · rw [Visitor.visit, if_pos h0, Option.some.injEq] at h
    exact h ▸ hbp
  obtain ⟨b', hb', hobj, hnum', he'⟩ := hcur.resolve_left h0
  obtain ⟨x', hx', hword, -, hother⟩ := Visitor.visit_slot hbs hlt h h0
  have hslot' : b'.slot c s.currentOffset = some x' := (Visitor.slot_eq hobj hnum').symm.trans hx'
  intro x hx
  by_cases hxx : x = x'
  · -- the patched slot: every reference with this slot leads to `p`
    subst hxx
    refine ⟨⟨b', hb', _, p, he', hp, hslot'⟩, fun b hb o q he hs => ?_⟩
    rw [slot_target_eq hwf hslots hapart hcons hvalid hb hb' he he' hs hslot']
    exact ⟨hword, hnum⟩
  · obtain ⟨hread, hmap⟩ := hother x hxx
    rw [hmap] at hx
    obtain ⟨hmarks, hpatched⟩ := hbp x hx
    exact ⟨hmarks, fun b hb o q he hs => hread ▸ hpatched b hb o q he hs⟩

include hwf hslots in
/-- An allotment after every region of the log, for an object with no number yet,
keeps the agreement: the marked slots lie in earlier regions, which its stores
miss. -/
theorem Backpatched.place {log : List Allotment} {cap : Nat} {a : Allotment}
    (hcons : Consecutive 0 (log ++ [a])) (hvalid : ∀ b ∈ log ++ [a], b.Valid c cap)
    {numbers : Nat → Nat} {s : Visitor} {p : Nat} (hbp : Backpatched c edges log numbers s)
    (hnum : numbers p = 0) :
    Backpatched c edges (log ++ [a]) (fun q => if q = p then a.number else numbers q) (s.place c a) := by
  have hva := hvalid a (List.mem_append_right _ (List.mem_singleton_self a))
  intro x hx
  obtain ⟨⟨b', hb', o', q', he', hq', hs'⟩, hpatched⟩ := hbp x hx
  have hbefore := (List.pairwise_append.mp hcons.pairwise).2.2 b' hb' a (List.mem_singleton_self a)
  obtain ⟨t', -, -, hs'', -, hhi', -⟩ :=
    (hvalid b' (List.mem_append_left _ hb')).slot_within hwf (hslots _ _ _ he')
  rw [hs', Option.some.injEq] at hs''
  have hxa : x + 1 ≤ a.start := by omega
  refine ⟨⟨b', List.mem_append_left _ hb', o', q', he', hq', hs'⟩, fun b hb o q he hs => ?_⟩
  rcases List.mem_append.mp hb with hb | hb
  · obtain ⟨hread, hq⟩ := hpatched b hb o q he hs
    have hqp : q ≠ p := fun h => hq (h ▸ hnum)
    have hsame : (s.place c a).readWord c x = s.readWord c x := by
      refine Visitor.readWord_congr fun i hi => Store.applyAll_of_within _ hva.within (.inl ?_)
      have := Nat.mul_le_mul_right c.abi.targetBytesPerWord hxa
      rw [Nat.succ_mul] at this
      omega
    dsimp only
    rw [if_neg hqp, hsame]
    exact ⟨hread, hq⟩
  · -- the new object's slots lie in its own region, after every marked slot
    rw [List.mem_singleton.mp hb] at he hs
    obtain ⟨t, -, -, hsa, hlo, -, -⟩ := hva.slot_within hwf (hslots _ _ _ he)
    rw [hs, Option.some.injEq] at hsa
    omega

end Patch

namespace Walk

variable {edges : Nat → List (Nat × Nat)} {heap : Memory}

/-- What the walk keeps of the references: it is a run from the walker
`makeHeapImage` starts, the walker's map agrees with the log, and the heap map and
heap agree with the references. -/
structure Patched (c : Context) (edges : Nat → List (Nat × Nat)) (heap : Memory) (w : Walk) : Prop where
  run : RunOf c (init c.abi heap) w
  numbered : Numbered w
  backpatched : Backpatched c edges w.log w.numbers w.visitor

theorem patched_init (c : Context) (edges : Nat → List (Nat × Nat)) (heap : Memory) :
    Patched c edges heap (init c.abi heap) :=
  ⟨RunOf.refl _, numbered_init c.abi heap, fun _ h => (Bool.false_ne_true h).elim⟩

theorem Patched.push {w : Walk} (hw : Patched c edges heap w) (p n o : Nat) :
    Patched c edges heap { w with visitor := w.visitor.push p n o } :=
  ⟨hw.run.trans (RunOf.push p n o), hw.numbered.visitor _, hw.backpatched⟩

theorem Patched.pop {w : Walk} (hw : Patched c edges heap w) :
    Patched c edges heap { w with visitor := w.visitor.pop } :=
  ⟨hw.run.trans (RunOf.pop w), hw.numbered.visitor _, hw.backpatched⟩

theorem Patched.root {w : Walk} (hw : Patched c edges heap w) :
    Patched c edges heap { w with visitor := w.visitor.pop } :=
  ⟨hw.run.trans (RunOf.root w), hw.numbered.visitor _, hw.backpatched⟩

/-- Every number the walker has given is an allotment's, below the capacity. -/
theorem Patched.number_lt (hwf : c.WellFormedMaps) {w : Walk} (hw : Patched c edges heap w) {q : Nat}
    (hq : w.numbers q ≠ 0) : w.numbers q < heapCapacity / c.abi.targetBytesPerWord := by
  obtain ⟨-, hvalid⟩ := hw.run.allotments hwf
  obtain ⟨a, ha, rfl⟩ := hw.numbered.allotted q hq
  have hcap : a.start + a.extent < heapCapacity / c.abi.targetBytesPerWord := (hvalid a ha).lt_capacity
  have := (hvalid a ha).number_mem
  rw [hw.numbered.number_eq a ha]
  omega

section Steps

variable (hwf : c.WellFormedMaps)
  (hslots : ∀ p o q, (o, q) ∈ edges p → c.RefSlot p o)
  (hapart : ∀ p o q o' q', (o, q) ∈ edges p → (o', q') ∈ edges p →
    c.rt.targetOffset c.abi c.typeMaps p (o * c.abi.bytesPerWord) =
      c.rt.targetOffset c.abi c.typeMaps p (o' * c.abi.bytesPerWord) → q = q')
  (hbs : c.bootShift ≤ 32) (hcap : heapCapacity / c.abi.targetBytesPerWord ≤ 2 ^ c.bootShift)

include hwf hslots hapart hbs hcap in
theorem Patched.visitOld {w : Walk} {v : Visitor} {p : Nat} (hw : Patched c edges heap w)
    (hf : Following edges w p) (hp : p ≠ 0) (hnum : w.numbers p ≠ 0)
    (hv : w.visitor.visitOld c (w.numbers p) = some v) : Patched c edges heap { w with visitor := v } :=
  have ⟨hcons, hvalid⟩ := hw.run.allotments hwf
  ⟨hw.run.trans (RunOf.visitOld p hv), hw.numbered.visitor v,
    hw.backpatched.visit hwf hslots hapart hbs hcons hvalid hf hp hnum
      (lt_of_lt_of_le (hw.number_lt hwf hnum) hcap) hv⟩

include hwf hslots hapart hbs hcap in
theorem Patched.emit {w : Walk} {p : Nat} {a : Allotment} {v : Visitor} (hw : Patched c edges heap w)
    (hf : Following edges w p) (hp : p ≠ 0) (hnum : w.numbers p = 0)
    (he : w.visitor.emit c p = some (a, v)) :
    Patched c edges heap ⟨v, fun q => if q = p then a.number else w.numbers q, w.log ++ [a]⟩ := by
  have hrun := hw.run.trans (RunOf.emit hp he)
  obtain ⟨hcons, hvalid⟩ := hrun.allotments hwf
  have hnumbered := hw.numbered.emit hnum he
  have hpos := emit_number_pos he
  have hva := hvalid a (List.mem_append_right _ (List.mem_singleton_self a))
  have hlt : a.number < 2 ^ c.bootShift := by
    have := hva.number_mem
    have : a.start + a.extent < heapCapacity / c.abi.targetBytesPerWord := hva.lt_capacity
    omega
  simp only [Visitor.emit, Option.bind_eq_bind] at he
  obtain ⟨a', ha, he⟩ := Option.bind_eq_some.mp he
  obtain ⟨v', hv, he⟩ := Option.bind_eq_some.mp he
  cases he
  have hf' : Following edges ⟨w.visitor.place c a, w.numbers, w.log ++ [a]⟩ p :=
    hf.imp_right fun ⟨b, hb, h⟩ => ⟨b, List.mem_append_left _ hb, h⟩
  exact ⟨hrun, hnumbered, (hw.backpatched.place hwf hslots hcons hvalid hnum).visit hwf hslots hapart
    hbs hcons hvalid hf' hp (by simpa using hpos.ne') (by simpa using hlt) (by simpa using hv)⟩

include hwf hslots hapart hbs hcap in
/-- A walk of one object keeps the agreement. -/
theorem walkObject_patched {fuel : Nat} {w w' : Walk} {p : Nat}
    (h : walkObject c edges fuel w p = some w') (hw : Patched c edges heap w) (hf : Following edges w p) :
    Patched c edges heap w' :=
  (walkObject_invariant (Patched c edges heap) (fun hw _ _ => hw.push _ _ _) (fun hw => hw.pop)
    (fun _ hw hf hp hnum hv => hw.visitOld hwf hslots hapart hbs hcap hf hp hnum hv)
    (fun hw hf hp hnum he => hw.emit hwf hslots hapart hbs hcap hf hp hnum he) h hw hf).1

variable (c edges) in
/-- Every non-null reference of an allotted object has its slot marked. -/
def EdgesMarked (s : Visitor) (b : Allotment) : Prop :=
  ∀ o q, (o, q) ∈ edges b.object → q ≠ 0 → ∃ x, b.slot c o = some x ∧ s.map x = true

theorem EdgesMarked.mono {s s' : Visitor} {b : Allotment} (hb : EdgesMarked c edges s b)
    (h : ∀ x, s.map x = true → s'.map x = true) : EdgesMarked c edges s' b :=
  fun o q he hq => (hb o q he hq).imp fun x ⟨hs, hx⟩ => ⟨hs, h x hx⟩

include hwf hslots hapart hbs hcap in
/-- The reference loop of an allotment `a`: each non-null reference it walks ends
with its slot marked, and so does every reference of an object allotted below it. -/
theorem walkEdges_marks {fuel p n : Nat} {a : Allotment} (hp : p ≠ 0) (hobj : a.object = p)
    (hnum : a.number = n)
    (ih : ∀ {w w' : Walk} {q : Nat}, walkObject c edges fuel w q = some w' →
      Patched c edges heap w → Following edges w q →
      (∀ x, w.visitor.map x = true → w'.visitor.map x = true) ∧
      (q ≠ 0 → w.visitor.currentObject ≠ 0 → ∃ x, w.visitor.slot c = some x ∧ w'.visitor.map x = true) ∧
      ∀ b ∈ w'.log, b ∉ w.log → EdgesMarked c edges w'.visitor b) :
    ∀ {l : List (Nat × Nat)} {w w' : Walk},
      l.foldlM (fun w e => do
          let w ← walkObject c edges fuel { w with visitor := w.visitor.push p n e.1 } e.2
          pure { w with visitor := w.visitor.pop }) w = some w' →
      (∀ e ∈ l, e ∈ edges p) → a ∈ w.log → Patched c edges heap w →
      (∀ x, w.visitor.map x = true → w'.visitor.map x = true) ∧
      (∀ e ∈ l, e.2 ≠ 0 → ∃ x, a.slot c e.1 = some x ∧ w'.visitor.map x = true) ∧
      ∀ b ∈ w'.log, b ∉ w.log → EdgesMarked c edges w'.visitor b
  | [], w, w', h, _, _, _ => by cases h; exact ⟨fun _ h => h, nofun, fun _ hb hn => absurd hb hn⟩
  | e :: l, w, w', h, hl, ha, hw => by
      simp only [List.foldlM_cons, Option.bind_eq_bind] at h
      obtain ⟨w₁, h₁, h⟩ := Option.bind_eq_some.mp h
      obtain ⟨w₂, h₂, h₁⟩ := Option.bind_eq_some.mp h₁
      cases h₁
      have hf := following_push ⟨a, ha, hobj, hnum⟩ (hl e (List.mem_cons_self _ _))
      obtain ⟨hgrow₂, hslot₂, hnew₂⟩ := ih h₂ (hw.push p n e.1) hf
      have hw₂ := walkObject_patched hwf hslots hapart hbs hcap h₂ (hw.push p n e.1) hf
      obtain ⟨_, _, -, hlog₂⟩ := walkObject_run h₂ hf
      obtain ⟨hgrow', hslots', hnew'⟩ := walkEdges_marks hp hobj hnum ih h
        (fun e' he' => hl e' (List.mem_cons_of_mem _ he')) (hlog₂ ▸ List.mem_append_left _ ha) hw₂.pop
      refine ⟨fun x hx => hgrow' x (hgrow₂ x hx), fun e' he' hq => ?_, fun b hb hbw => ?_⟩
      · rcases List.mem_cons.mp he' with rfl | he'
        · obtain ⟨x, hx, hmark⟩ := hslot₂ hq hp
          exact ⟨x, (Visitor.slot_push hobj hnum w.visitor e'.1).symm.trans hx, hgrow' x hmark⟩
        · exact hslots' e' he' hq
      · by_cases hb₂ : b ∈ w₂.log
        · exact (hnew₂ b hb₂ hbw).mono hgrow'
        · exact hnew' b hb hb₂

include hwf hslots hapart hbs hcap in
/-- One object's walk: the reference being followed, if any, ends with its slot
marked when the object is not null; every mark stays; and every object allotted in
the walk ends with the slots of its non-null references marked. -/
theorem walkObject_marks : ∀ {fuel : Nat} {w w' : Walk} {p : Nat},
    walkObject c edges fuel w p = some w' → Patched c edges heap w → Following edges w p →
      (∀ x, w.visitor.map x = true → w'.visitor.map x = true) ∧
      (p ≠ 0 → w.visitor.currentObject ≠ 0 → ∃ x, w.visitor.slot c = some x ∧ w'.visitor.map x = true) ∧
      ∀ b ∈ w'.log, b ∉ w.log → EdgesMarked c edges w'.visitor b
  | 0, _, _, _, h, _, _ => by cases h
  | fuel + 1, w, w', p, h, hw, hf => by
      unfold walkObject at h
      split at h
      · next hp => cases h; exact ⟨fun _ h => h, fun h => absurd hp h, fun _ hb hn => absurd hb hn⟩
      split at h
      · next hp hnum =>
        obtain ⟨v, hv, rfl⟩ := Option.map_eq_some'.mp h
        refine ⟨fun _ => Visitor.visit_map_mono hv, fun _ h0 => ?_, fun _ hb hn => absurd hb hn⟩
        obtain ⟨x, hx, -, hmark, -⟩ :=
          Visitor.visit_slot hbs (lt_of_lt_of_le (hw.number_lt hwf hnum) hcap) hv h0
        exact ⟨x, hx, hmark (Nat.pos_of_ne_zero hnum)⟩
      · next hp hnum =>
        simp only [Option.bind_eq_bind] at h
        obtain ⟨⟨a, v⟩, he, h⟩ := Option.bind_eq_some.mp h
        have hw₀ := hw.emit hwf hslots hapart hbs hcap hf hp (not_not.mp hnum) he
        have hlt : a.number < 2 ^ c.bootShift := by
          have := lt_of_lt_of_le (hw₀.number_lt hwf (q := p) (by simpa using (emit_number_pos he).ne')) hcap
          simpa using this
        obtain ⟨-, -, -, -, hobj, -⟩ := Visitor.allot_eq_some (emit_allot he)
        -- `emit` patches the reference being followed, and marks only grow
        have hemit : (∀ x, w.visitor.map x = true → v.map x = true) ∧
            (w.visitor.currentObject ≠ 0 → ∃ x, w.visitor.slot c = some x ∧ v.map x = true) := by
          have hpos := emit_number_pos he
          simp only [Visitor.emit, Option.bind_eq_bind] at he
          obtain ⟨a', -, he⟩ := Option.bind_eq_some.mp he
          obtain ⟨v', hv, he⟩ := Option.bind_eq_some.mp he
          cases he
          refine ⟨fun x hx => Visitor.visit_map_mono hv hx, fun h0 => ?_⟩
          obtain ⟨x, hx, -, hmark, -⟩ := Visitor.visit_slot hbs hlt hv h0
          exact ⟨x, hx, hmark hpos⟩
        obtain ⟨hgrow, hslots', hnew⟩ := walkEdges_marks hwf hslots hapart hbs hcap hp hobj rfl
          (fun h hw hf => walkObject_marks h hw hf) h (fun _ he => he)
          (List.mem_append_right _ (List.mem_singleton_self a)) hw₀
        refine ⟨fun x hx => hgrow x (hemit.1 x hx),
          fun _ h0 => (hemit.2 h0).imp fun x ⟨hx, hm⟩ => ⟨hx, hgrow x hm⟩, fun b hb hbw => ?_⟩
        by_cases hba : b = a
        · subst hba
          exact fun o q he hq => hslots' (o, q) (hobj ▸ he) hq
        · exact hnew b hb fun h => (List.mem_append.mp h).elim hbw fun h => hba (List.mem_singleton.mp h)

include hwf hslots hapart hbs hcap in
theorem walkRoots_marks {fuel : Nat} :
    ∀ {rs : List Nat} {w w' : Walk}, rs.foldlM (visitRoot c edges fuel) w = some w' →
      Patched c edges heap w → (∀ b ∈ w.log, EdgesMarked c edges w.visitor b) →
      Patched c edges heap w' ∧ ∀ b ∈ w'.log, EdgesMarked c edges w'.visitor b
  | [], w, w', h, hw, hm => by cases h; exact ⟨hw, hm⟩
  | r :: rs, w, w', h, hw, hm => by
      simp only [List.foldlM_cons, Option.bind_eq_bind] at h
      obtain ⟨w₁, h₁, h⟩ := Option.bind_eq_some.mp h
      obtain ⟨hgrow, -, hnew⟩ := walkObject_marks hwf hslots hapart hbs hcap h₁ hw.root (.inl rfl)
      refine walkRoots_marks h (walkObject_patched hwf hslots hapart hbs hcap h₁ hw.root (.inl rfl))
        fun b hb => ?_
      by_cases hbw : b ∈ w.log
      · exact (hm b hbw).mono hgrow
      · exact hnew b hb hbw

end Steps

/-- Back-patching is exact when each reference has a slot of its own. Take
well-formed TypeMaps, a walker that reports only reference slots the TypeMaps know,
where two references of one object have the same target offset only if they lead
to the same object, a `BootShift` of at most 32 bits above every heap number. After
`visitRoots`, the heap map marks exactly the slots of the non-null references of the
emitted objects, and each such slot holds, in its low `BootShift` bits, the number
of the object the reference leads to: no later patch and no later copy overwrote
it. -/
theorem walk_patches_references (hwf : c.WellFormedMaps)
    (hslots : ∀ p o q, (o, q) ∈ edges p → c.RefSlot p o)
    (hapart : ∀ p o q o' q', (o, q) ∈ edges p → (o', q') ∈ edges p →
      c.rt.targetOffset c.abi c.typeMaps p (o * c.abi.bytesPerWord) =
        c.rt.targetOffset c.abi c.typeMaps p (o' * c.abi.bytesPerWord) → q = q')
    (hbs : c.bootShift ≤ 32) (hcap : heapCapacity / c.abi.targetBytesPerWord ≤ 2 ^ c.bootShift)
    {fuel : Nat} {r : Roots} {w : Walk} (h : visitRoots c edges fuel (init c.abi heap) r = some w) :
    (∀ a ∈ w.log, ∀ o q, (o, q) ∈ edges a.object → q ≠ 0 →
      ∃ x, a.slot c o = some x ∧ w.visitor.map x = true ∧
        w.visitor.readWord c x % 2 ^ c.bootShift = w.numbers q) ∧
    ∀ x, w.visitor.map x = true →
      ∃ a ∈ w.log, ∃ o q, (o, q) ∈ edges a.object ∧ q ≠ 0 ∧ a.slot c o = some x := by
  obtain ⟨hw, hmarked⟩ := walkRoots_marks hwf hslots hapart hbs hcap h (patched_init c edges heap) nofun
  refine ⟨fun a ha o q he hq => ?_, fun x hx => (hw.backpatched x hx).1⟩
  obtain ⟨x, hx, hmark⟩ := hmarked a ha o q he hq
  exact ⟨x, hx, hmark, ((hw.backpatched x hmark).2 a ha o q he hx).1⟩

end Walk

/-- Walked for the big-endian target, the two objects' references to each other and
to their class, and the class's reference to the class type, are all marked and
patched. -/
theorem pair_walk_patches_references :
    pairContext.WellFormedMaps ∧ (∀ p o q, (o, q) ∈ pairEdges p → pairContext.RefSlot p o) ∧
      (∀ p o q o' q', (o, q) ∈ pairEdges p → (o', q') ∈ pairEdges p →
        pairContext.rt.targetOffset pairContext.abi pairContext.typeMaps p (o * pairContext.abi.bytesPerWord) =
          pairContext.rt.targetOffset pairContext.abi pairContext.typeMaps p
            (o' * pairContext.abi.bytesPerWord) → q = q') ∧
      pairContext.bootShift ≤ 32 ∧
      heapCapacity / pairContext.abi.targetBytesPerWord ≤ 2 ^ pairContext.bootShift ∧
      ∃ w, Walk.visitRoots pairContext pairEdges 6 (Walk.init pairContext.abi fun _ => 0)
          ⟨[], 0, 0, 0, [], [100]⟩ = some w ∧
        (∀ a ∈ w.log, ∀ o q, (o, q) ∈ pairEdges a.object → q ≠ 0 →
          ∃ x, a.slot pairContext o = some x ∧ w.visitor.map x = true ∧
            w.visitor.readWord pairContext x % 2 ^ pairContext.bootShift = w.numbers q) ∧
        ∀ x, w.visitor.map x = true →
          ∃ a ∈ w.log, ∃ o q, (o, q) ∈ pairEdges a.object ∧ q ≠ 0 ∧ a.slot pairContext o = some x := by
  have hapart : ∀ p o q o' q', (o, q) ∈ pairEdges p → (o', q') ∈ pairEdges p →
      pairContext.rt.targetOffset pairContext.abi pairContext.typeMaps p (o * pairContext.abi.bytesPerWord) =
        pairContext.rt.targetOffset pairContext.abi pairContext.typeMaps p
          (o' * pairContext.abi.bytesPerWord) → q = q' := fun p o q o' q' he he' =>
    (by decide : ∀ p ∈ [100, 200, 300, 500], ∀ e ∈ pairEdges p, ∀ e' ∈ pairEdges p,
      pairContext.rt.targetOffset pairContext.abi pairContext.typeMaps p (e.1 * pairContext.abi.bytesPerWord) =
        pairContext.rt.targetOffset pairContext.abi pairContext.typeMaps p
          (e'.1 * pairContext.abi.bytesPerWord) → e.2 = e'.2) p (pairEdges_mem he) (o, q) he (o', q') he'
  have hbs : pairContext.bootShift ≤ 32 := by decide
  have hcap : heapCapacity / pairContext.abi.targetBytesPerWord ≤ 2 ^ pairContext.bootShift := by decide
  obtain ⟨w, h⟩ := Option.isSome_iff_exists.mp (by decide :
    (Walk.visitRoots pairContext pairEdges 6 (Walk.init pairContext.abi fun _ => 0)
      ⟨[], 0, 0, 0, [], [100]⟩).isSome)
  exact ⟨pairContext_wellFormed, pairEdges_slots, hapart, hbs, hcap, w, h,
    Walk.walk_patches_references pairContext_wellFormed pairEdges_slots hapart hbs hcap h⟩

end BootImage
