import BootImage.Visitor

/-! The heap buffer is allotted in consecutive regions. `allot` gives each emitted
object the region starting at `position`, of its target size (plus the fixie header
and dirty mask for a fixed object), and every store it makes lies in that region;
the other callbacks move neither `position` nor `capacity`. Over any sequence of
callbacks the regions are therefore consecutive from 0, below `capacity`, and the
numbers handed out increase. -/
namespace BootImage

namespace Visitor

variable {c : Context} {s s' : Visitor} {p n : Nat} {a : Allotment}

theorem visit_frame (h : s.visit c n = some s') :
    s'.position = s.position ∧ s'.capacity = s.capacity := by
  unfold visit at h
  split at h
  · cases h; exact ⟨rfl, rfl⟩
  · obtain ⟨_, _, rfl⟩ := Option.map_eq_some'.mp h
    exact ⟨rfl, rfl⟩

/-- The two outcomes of `allot`, guards included. -/
theorem allot_eq_some (h : s.allot c p = some a) :
    ∃ m body, c.rt.typeMap c.typeMaps p = some m ∧
      a.size = m.targetSize c.abi (c.rt.arrayLength c.abi m p) ∧ a.object = p ∧
      a.start = s.position ∧ a.fixed = s.isFixed c p ∧ a.start + a.extent < s.capacity ∧
      if a.fixed then
        copyObject c.abi c.rt c.typeMaps p
            ((s.position + c.targetFixieSizeInWords) * c.abi.targetBytesPerWord) = some body ∧
          a.extent = c.targetFixieSizeInWords + a.size + ceiling a.size c.abi.targetBytesPerWord ∧
          a.number = s.position + c.targetFixieSizeInWords + 1 ∧
          a.stores = fixieHeader c s.position a.size ++ body ++
            [.orInto ((s.position + c.targetFixieSizeInWords) * c.abi.targetBytesPerWord)
                c.abi.targetBytesPerWord c.fixedMark,
              .put ((s.position + c.targetFixieSizeInWords + a.size) * c.abi.targetBytesPerWord)
                (List.replicate (ceiling a.size c.abi.targetBytesPerWord
                  * c.abi.targetBytesPerWord) 0)]
      else
        copyObject c.abi c.rt c.typeMaps p (s.position * c.abi.targetBytesPerWord) = some body ∧
          a.extent = a.size ∧ a.number = s.position + 1 ∧ a.stores = body := by
  simp only [allot, Runtime.targetSize, Option.bind_eq_bind] at h
  obtain ⟨size, hsize, h⟩ := Option.bind_eq_some.mp h
  obtain ⟨m, hm, rfl⟩ := Option.map_eq_some'.mp hsize
  refine ⟨m, ?_⟩
  split at h
  · next hfixed =>
    split at h
    · next hcap =>
      obtain ⟨body, hbody, h⟩ := Option.bind_eq_some.mp h
      cases h
      exact ⟨body, hm, rfl, rfl, rfl, hfixed.symm, hcap, hbody, rfl, rfl, rfl⟩
    · cases h
  · next hfixed =>
    split at h
    · next hcap =>
      obtain ⟨body, hbody, h⟩ := Option.bind_eq_some.mp h
      cases h
      exact ⟨body, hm, rfl, rfl, rfl, (Bool.not_eq_true _).mp hfixed |>.symm, hcap,
        hbody, rfl, rfl, rfl⟩
    · cases h

theorem size_pos (hwf : c.WellFormedMaps) (h : s.allot c p = some a) : 0 < a.size := by
  obtain ⟨m, -, hm, hsize, -⟩ := allot_eq_some h
  have := (hwf _ _ (c.rt.typeMap_mem hm)).fixed_pos
  have := m.targetFixedSizeInWords_le_targetSize c.abi (c.rt.arrayLength c.abi m p)
  omega

/-- Every store of an allotment lies in its region: the fixie header in the
header words, the copy in the body, the `FixedMark` in body word 0 and the dirty
mask after the body. -/
theorem allot_within (hwf : c.WellFormedMaps) (h : s.allot c p = some a) :
    ∀ st ∈ a.stores, st.Within (a.start * c.abi.targetBytesPerWord)
      ((a.start + a.extent) * c.abi.targetBytesPerWord) := by
  have hpos := size_pos hwf h
  obtain ⟨m, body, hm, hsize, -, hstart, -, -, hcase⟩ := allot_eq_some h
  have hwfm := hwf _ _ (c.rt.typeMap_mem hm)
  intro st hst
  rw [hstart]
  split at hcase
  · obtain ⟨hcopy, hext, -, hstores⟩ := hcase
    have hin := copyObject_within hm hwfm hcopy
    rw [← hsize] at hin
    have hheader : c.targetFixieSizeInBytes ≤ c.targetFixieSizeInWords * c.abi.targetBytesPerWord :=
      ceiling_mul_ge _ _ c.abi.targetBytesPerWord_pos
    have hword : c.abi.targetBytesPerWord ≤ a.size * c.abi.targetBytesPerWord :=
      Nat.le_mul_of_pos_left _ hpos
    rw [hstores] at hst
    rw [hext]
    simp only [fixieHeader, List.mem_append, List.mem_cons, List.mem_singleton,
      List.not_mem_nil, or_false] at hst
    simp only [Context.targetFixieSizeInBytes] at hheader
    rcases hst with ((((rfl | rfl | rfl | rfl) | hbody) | rfl | rfl))
    all_goals first
      | (have hb := hin st hbody
         simp only [Store.Within, Nat.add_mul] at hb ⊢
         omega)
      | (simp only [Store.Within, Store.addr_put, Store.width_put, Store.addr_orInto,
           Store.width_orInto, List.length_replicate, List.length_singleton, length_bytesOf,
           Context.targetFixieSizeInBytes, Nat.add_mul]
         omega)
  · obtain ⟨hcopy, hext, -, rfl⟩ := hcase
    have := copyObject_within hm hwfm hcopy st hst
    rw [← hsize] at this
    simp only [Store.Within, hext, Nat.add_mul] at this ⊢
    omega

end Visitor

/-- What every allotment satisfies, whatever state it was made in. -/
structure Allotment.Valid (c : Context) (capacity : Nat) (a : Allotment) : Prop where
  size_eq : c.rt.targetSize c.abi c.typeMaps a.object = some a.size
  size_pos : 0 < a.size
  extent_eq : a.extent = if a.fixed then
    c.targetFixieSizeInWords + a.size + ceiling a.size c.abi.targetBytesPerWord else a.size
  number_eq : a.number = a.start + (if a.fixed then c.targetFixieSizeInWords else 0) + 1
  lt_capacity : a.start + a.extent < capacity
  within : ∀ st ∈ a.stores, st.Within (a.start * c.abi.targetBytesPerWord)
    ((a.start + a.extent) * c.abi.targetBytesPerWord)

/-- `Consecutive pos as`: the allotments occupy consecutive regions from word `pos`. -/
def Consecutive : Nat → List Allotment → Prop
  | _, [] => True
  | pos, a :: as => a.start = pos ∧ Consecutive (pos + a.extent) as

theorem Consecutive.le_start : ∀ {pos : Nat} {log : List Allotment},
    Consecutive pos log → ∀ a ∈ log, pos ≤ a.start
  | _, [], _, _, ha => by cases ha
  | _, b :: log, ⟨hb, hrest⟩, a, ha => by
      rcases List.mem_cons.mp ha with rfl | ha
      · omega
      · have := Consecutive.le_start hrest a ha
        omega

/-- Consecutive regions are pairwise disjoint, each ending before the next starts. -/
theorem Consecutive.pairwise : ∀ {pos : Nat} {log : List Allotment},
    Consecutive pos log → log.Pairwise fun a b => a.start + a.extent ≤ b.start
  | _, [], _ => List.Pairwise.nil
  | _, a :: log, ⟨ha, hrest⟩ => List.Pairwise.cons
      (fun b hb => by have := hrest.le_start b hb; omega) hrest.pairwise

/-- Numbers taken inside disjoint ordered regions increase. -/
theorem numbers_increase {log : List Allotment}
    (hdisjoint : log.Pairwise fun a b => a.start + a.extent ≤ b.start)
    (hin : ∀ a ∈ log, a.start < a.number ∧ a.number ≤ a.start + a.extent) :
    (log.map (·.number)).Pairwise (· < ·) := by
  rw [List.pairwise_map]
  exact hdisjoint.imp_of_mem fun ha hb hab => by
    have := hin _ ha
    have := hin _ hb
    omega

/-- The object of a `visitNew` callback that allots, that is, a non-null one. -/
def Event.newObject : Event → Option Nat
  | .visitNew p => if p = 0 then none else some p
  | _ => none

namespace Visitor

variable {c : Context} {s s' : Visitor} {p : Nat} {a : Allotment}

theorem allot_valid (hwf : c.WellFormedMaps) (h : s.allot c p = some a) :
    a.Valid c s.capacity := by
  obtain ⟨m, body, hm, hsize, hobj, hstart, hfixed, hcap, hcase⟩ := allot_eq_some h
  refine ⟨by rw [hobj, Runtime.targetSize, hm, Option.map_some', hsize], size_pos hwf h, ?_, ?_,
    hcap, allot_within hwf h⟩
  · split at hcase
    · rw [if_pos ‹_›]; exact hcase.2.1
    · rw [if_neg ‹_›]; exact hcase.2.1
  · split at hcase
    · rw [if_pos ‹_›, hstart]; exact hcase.2.2.1
    · rw [if_neg ‹_›, hstart]; exact hcase.2.2.1

/-- What one callback does to the allotment: nothing, or one allotment made at
`position` that moves `position` past it. -/
theorem step_eq_some {e : Event} {as : List Allotment} (h : s.step c e = some (as, s')) :
    s'.capacity = s.capacity ∧
      (as = [] ∧ s'.position = s.position ∧ e.newObject = none ∨
        ∃ a, as = [a] ∧ e.newObject = some a.object ∧ s.allot c a.object = some a ∧
          s'.position = a.start + a.extent) := by
  cases e with
  | visitNew p =>
      simp only [step] at h
      split at h
      · next hp =>
        cases h
        exact ⟨rfl, .inl ⟨rfl, rfl, by simp [Event.newObject, hp]⟩⟩
      · next hp =>
        obtain ⟨⟨a, s''⟩, he, h⟩ := Option.map_eq_some'.mp h
        cases h
        simp only [emit, Option.bind_eq_bind] at he
        obtain ⟨a', ha, he⟩ := Option.bind_eq_some.mp he
        obtain ⟨s₁, hs₁, he⟩ := Option.bind_eq_some.mp he
        cases he
        obtain ⟨hpos, hcap⟩ := visit_frame hs₁
        obtain ⟨-, -, -, -, hobj, -⟩ := allot_eq_some ha
        exact ⟨hcap, .inr ⟨a, rfl, by simp [Event.newObject, hp, hobj], hobj ▸ ha, hpos⟩⟩
  | visitOld p n =>
      obtain ⟨s₁, hs₁, h⟩ := Option.map_eq_some'.mp h
      cases h
      obtain ⟨hpos, hcap⟩ := visit_frame hs₁
      exact ⟨hcap, .inl ⟨rfl, hpos, rfl⟩⟩
  | root | pop | push => cases h; exact ⟨rfl, .inl ⟨rfl, rfl, rfl⟩⟩

theorem run_cons_eq_some {e : Event} {es : List Event} {log : List Allotment}
    (h : s.run c (e :: es) = some (log, s')) :
    ∃ as s₁ bs, s.step c e = some (as, s₁) ∧ s₁.run c es = some (bs, s') ∧ log = as ++ bs := by
  simp only [run, Option.bind_eq_bind] at h
  obtain ⟨⟨as, s₁⟩, hstep, h⟩ := Option.bind_eq_some.mp h
  obtain ⟨⟨bs, s₂⟩, hrun, h⟩ := Option.bind_eq_some.mp h
  cases h
  exact ⟨as, s₁, bs, hstep, hrun, rfl⟩

/-- Over any callbacks, the allotments are consecutive from the starting
`position`, which ends past them and below `capacity`, and each is valid. -/
theorem run_allotments (hwf : c.WellFormedMaps) {events : List Event} {log : List Allotment}
    (h : s.run c events = some (log, s')) (hcap : s.position < s.capacity) :
    Consecutive s.position log ∧ s'.position = s.position + (log.map (·.extent)).sum ∧
      s'.position < s'.capacity ∧ s'.capacity = s.capacity ∧
      log.map (·.object) = events.filterMap Event.newObject ∧
      ∀ a ∈ log, a.Valid c s.capacity := by
  induction events generalizing s log with
  | nil =>
      cases h
      exact ⟨trivial, rfl, hcap, rfl, rfl, by simp⟩
  | cons e es ih =>
      obtain ⟨as, s₁, bs, hstep, hrun, rfl⟩ := run_cons_eq_some h
      obtain ⟨hcap₁, hcase⟩ := step_eq_some hstep
      rcases hcase with ⟨rfl, hpos, hnew⟩ | ⟨a, rfl, hnew, ha, hpos⟩
      · obtain ⟨hcons, hend, hlt, hcap₂, hobj, hvalid⟩ := ih hrun (by omega)
        refine ⟨hpos ▸ hcons, by simp [hend, hpos], hlt, hcap₂.trans hcap₁, ?_, ?_⟩
        · simp [hobj, List.filterMap_cons, hnew]
        · simpa [hcap₁] using hvalid
      · have hv := allot_valid hwf ha
        obtain ⟨hcons, hend, hlt, hcap₂, hobj, hvalid⟩ := ih hrun (by have := hv.lt_capacity; omega)
        obtain ⟨-, -, -, -, -, hstart, -⟩ := allot_eq_some ha
        refine ⟨⟨hstart, by rwa [hpos, hstart] at hcons⟩, ?_, hlt, hcap₂.trans hcap₁, ?_, ?_⟩
        · simp only [hend, hpos, hstart, List.singleton_append, List.map_cons, List.sum_cons]
          omega
        · simp [hobj, List.filterMap_cons, hnew]
        · intro b hb
          rcases List.mem_cons.mp hb with rfl | hb
          · exact hv
          · simpa [hcap₁] using hvalid b hb

theorem init_position_lt_capacity (abi : Abi) (heap : Memory) :
    (init abi heap).position < (init abi heap).capacity := by
  rcases abi.targetBytesPerWord_cases with hw | hw <;> simp [init, heapCapacity, hw]

/-- Heap allocation is disjoint and in bounds. Over any callbacks from the
visitor `makeHeapImage` starts with, the emitted objects (those of the non-null
`visitNew` calls, in order) occupy consecutive disjoint regions from word 0, each
of the object's target size, with header and dirty mask when fixed, and the final
`position` is below `capacity`. Every store made for an object lies in its
region; the numbers are distinct, in `[1, capacity)`, and address the first body
word. -/
theorem heap_allotment (c : Context) (hwf : c.WellFormedMaps) (heap : Memory)
    (events : List Event) (log : List Allotment) (s : Visitor)
    (h : (init c.abi heap).run c events = some (log, s)) :
    log.map (·.object) = events.filterMap Event.newObject ∧ Consecutive 0 log ∧
      (log.Pairwise fun a b => a.start + a.extent ≤ b.start) ∧
      s.position = (log.map (·.extent)).sum ∧ s.position < s.capacity ∧
      (log.map (·.number)).Nodup ∧
      ∀ a ∈ log, c.rt.targetSize c.abi c.typeMaps a.object = some a.size ∧
        a.extent = (if a.fixed then
          c.targetFixieSizeInWords + a.size + ceiling a.size c.abi.targetBytesPerWord
          else a.size) ∧
        a.number - 1 = a.start + (if a.fixed then c.targetFixieSizeInWords else 0) ∧
        1 ≤ a.number ∧ a.number < s.capacity ∧
        ∀ st ∈ a.stores, st.Within (a.start * c.abi.targetBytesPerWord)
          ((a.start + a.extent) * c.abi.targetBytesPerWord) := by
  obtain ⟨hcons, hend, hlt, hcap, hobj, hvalid⟩ :=
    run_allotments hwf h (init_position_lt_capacity c.abi heap)
  have hin : ∀ a ∈ log, a.start < a.number ∧ a.number ≤ a.start + a.extent := fun a ha => by
    have hv := hvalid a ha
    have := hv.size_pos
    rw [hv.number_eq, hv.extent_eq]
    split <;> omega
  refine ⟨hobj, hcons, hcons.pairwise, by simpa [init] using hend, hlt,
    (numbers_increase hcons.pairwise hin).nodup, fun a ha => ?_⟩
  have hv := hvalid a ha
  have := hin a ha
  refine ⟨hv.size_eq, hv.extent_eq, by rw [hv.number_eq]; omega, by omega, ?_, hv.within⟩
  have := hv.lt_capacity
  rw [hcap]
  omega

/-- A TypeMap of one object slot, the class pointer. -/
def classPointerMap : TypeMap := ⟨1, 1, [⟨.object, 0, 0⟩], .normalKind, 0, 0, .none⟩

/-- `A` declares `Object f` at host offset 4 and `B extends A` declares `int g`
at 8, so `B`'s field table holds `g` alone. `b` (100), of class `B` (300), refers
to `q` (200, of class 400) through `f`, and `g` holds 7. Classes are of class 500. -/
def inheritedRuntime : Runtime where
  objectClass p := if p = 100 then 300 else if p = 200 then 400 else 500
  body p := if p = 100 then Memory.write (fun _ => 0) 0
    (bytesOf false 4 300 ++ bytesOf false 4 200 ++ bytesOf false 4 7) else fun _ => 0
  classType := 500
  singletonType := 600
  isSystemClassLoader _ := false
  classStaticTable := 8

/-- The maps `makeCodeImage` builds for `B` from its field table, with one-slot
maps for `q`'s class and for classes. -/
def inheritedContext : Context :=
  ⟨Abi.native32, inheritedRuntime,
    [(300, ((layoutFields Abi.native32 [⟨.intField, false, 8⟩]).bind fun r =>
        memberMap Abi.native32 12 r.1).getD classPointerMap),
      (400, classPointerMap), (500, classPointerMap)], 3, 2 ^ 32 - 4, 30, 3⟩

/-- The walk of `b`: its class pointer (word 0) to `B`, then `f` (word 1) to `q`. -/
def inheritedWalk : List Event :=
  [.root, .visitNew 100, .push 100 1 0, .visitNew 300, .pop, .push 100 1 1, .visitNew 200, .pop]

/-- The walk of `b` is allotted consecutive regions in bounds, though its maps
drop `f`. -/
theorem inherited_walk_allotment :
    inheritedContext.WellFormedMaps ∧
      ∃ log s, (init Abi.native32 fun _ => 0).run inheritedContext inheritedWalk = some (log, s) ∧
        Consecutive 0 log ∧ s.position < s.capacity := by
  have hwf : inheritedContext.WellFormedMaps := by decide
  obtain ⟨⟨log, s⟩, h⟩ := Option.isSome_iff_exists.mp
    (by decide : ((init Abi.native32 fun _ => 0).run inheritedContext inheritedWalk).isSome)
  obtain ⟨-, hcons, -, -, hlt, -⟩ := heap_allotment inheritedContext hwf _ _ log s h
  exact ⟨hwf, log, s, h, hcons, hlt⟩

end Visitor

end BootImage
