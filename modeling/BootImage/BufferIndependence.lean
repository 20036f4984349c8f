import BootImage.Walker
import BootImage.Patching

/-! What the walk reads of the heap buffer. `writeBootImage2` allocates the buffer
and never clears it; the only read of it is `visit`'s `heap[offset] & ~PointerMask`,
the mark bits of the slot it patches, and those go only into the patched word: the
patch is marked in the heap map whatever they are, since the number it stores is
nonzero and fits in 32 bits. So whether the walk aborts, the numbers, the
allotments, the heap map and the position do not depend on the buffer's leftover
bytes; only the heap's own bytes may. -/
namespace BootImage

namespace Visitor

/-- The visitor with the heap buffer's bytes forgotten. -/
def eraseHeap (s : Visitor) : Visitor := { s with heap := fun _ => 0 }

variable {c : Context} {s₁ s₂ : Visitor}

/-- `allot` reads the position, the capacity and the edge, never the heap. -/
theorem allot_congr (h : s₁.eraseHeap = s₂.eraseHeap) (p : Nat) : s₁.allot c p = s₂.allot c p := by
  have hread : ∀ s : Visitor, s.allot c p = s.eraseHeap.allot c p := fun _ => rfl
  rw [hread s₁, hread s₂, h]

theorem place_congr (h : s₁.eraseHeap = s₂.eraseHeap) (a : Allotment) :
    (s₁.place c a).eraseHeap = (s₂.place c a).eraseHeap := by
  have hread : ∀ s : Visitor, (s.place c a).eraseHeap = (s.eraseHeap.place c a).eraseHeap :=
    fun _ => rfl
  rw [hread s₁, hread s₂, h]

/-- A number in `[1, 2 ^ 32)` keeps the low 32 bits of the patched value nonzero,
whatever mark bits the slot held. -/
theorem u32_or_ne_zero {n : Nat} (hn : 0 < n) (hlt : n < 2 ^ 32) (y : Nat) : u32 (n ||| y) ≠ 0 := by
  intro h0
  have : n = 0 := Nat.eq_of_testBit_eq fun i => by
    rw [Nat.zero_testBit]
    by_cases hi : i < 32
    · have := congrArg (Nat.testBit · i) h0
      simp only [u32, Nat.testBit_mod_two_pow, hi, decide_True, Bool.true_and, Nat.testBit_or,
        Nat.zero_testBit, Bool.or_eq_false_iff] at this
      exact this.1
    · exact Nat.testBit_lt_two_pow (lt_of_lt_of_le hlt (Nat.pow_le_pow_right two_pos (not_lt.mp hi)))
  omega

/-- Forgetting the heap, a visit with a number in `[1, 2 ^ 32)` only marks the slot
of the reference being followed. -/
theorem visit_eraseHeap (s : Visitor) {n : Nat} (hn : 0 < n) (hlt : n < 2 ^ 32) :
    (s.visit c n).map eraseHeap =
      if s.eraseHeap.currentObject = 0 then some s.eraseHeap
      else (s.eraseHeap.slot c).map fun x =>
        { s.eraseHeap with map := fun i => i = x || s.eraseHeap.map i } := by
  show _ = if s.currentObject = 0 then some s.eraseHeap
    else (s.slot c).map fun x => { s.eraseHeap with map := fun i => i = x || s.map i }
  unfold visit
  by_cases h0 : s.currentObject = 0
  · rw [if_pos h0, if_pos h0]
    rfl
  · rw [if_neg h0, if_neg h0, slot, Option.map_map, Option.map_map]
    congr 1
    funext t
    simp only [Function.comp_apply, eraseHeap, ne_eq, u32_or_ne_zero hn hlt, not_false_eq_true, if_true]

theorem visit_congr (h : s₁.eraseHeap = s₂.eraseHeap) {n : Nat} (hn : 0 < n) (hlt : n < 2 ^ 32) :
    (s₁.visit c n).map eraseHeap = (s₂.visit c n).map eraseHeap := by
  rw [visit_eraseHeap s₁ hn hlt, visit_eraseHeap s₂ hn hlt, h]

/-- The number an allotment gets is positive and at most the capacity. -/
theorem allot_number_le {s : Visitor} {p : Nat} {a : Allotment} (h : s.allot c p = some a) :
    0 < a.number ∧ a.number ≤ s.capacity := by
  obtain ⟨m, body, -, -, -, hstart, -, hcap, hcase⟩ := allot_eq_some h
  split at hcase <;> omega

theorem emit_capacity {s v : Visitor} {p : Nat} {a : Allotment} (h : s.emit c p = some (a, v)) :
    v.capacity = s.capacity := by
  simp only [emit, Option.bind_eq_bind] at h
  obtain ⟨a', -, h⟩ := Option.bind_eq_some.mp h
  obtain ⟨v', hv, h⟩ := Option.bind_eq_some.mp h
  cases h
  exact (visit_frame hv).2

theorem emit_congr (h : s₁.eraseHeap = s₂.eraseHeap) (hcap : s₁.capacity < 2 ^ 32) (p : Nat) :
    (s₁.emit c p).map (Prod.map id eraseHeap) = (s₂.emit c p).map (Prod.map id eraseHeap) := by
  simp only [emit, Option.bind_eq_bind, allot_congr h p, Option.map_bind]
  cases ha : s₂.allot c p with
  | none => rfl
  | some a =>
      obtain ⟨hpos, hle⟩ := allot_number_le ((allot_congr h p).trans ha)
      have hvisit := visit_congr (c := c) (place_congr (c := c) h a) hpos (by omega)
      have hpair : ∀ o : Option Visitor,
          (o.bind fun v => (pure (a, v) : Option _).map (Prod.map id eraseHeap)) =
            (o.map eraseHeap).map fun v => (a, v) := fun o => by cases o <;> rfl
      simp only [Option.some_bind, Function.comp_def, Option.map_bind, hpair, hvisit]

end Visitor

namespace Walk

/-- The walker with the heap buffer's bytes forgotten. -/
def eraseHeap (w : Walk) : Walk := { w with visitor := w.visitor.eraseHeap }

/-- Every number the walker has given is at most the capacity, which fits in 32 bits. -/
def Bounded (w : Walk) : Prop := (∀ q, w.numbers q ≤ w.visitor.capacity) ∧ w.visitor.capacity < 2 ^ 32

theorem bounded_init (abi : Abi) (heap : Memory) : (init abi heap).Bounded := by
  refine ⟨fun _ => Nat.zero_le _, ?_⟩
  rcases abi.targetBytesPerWord_cases with h | h <;> simp [init, Visitor.init, heapCapacity, h]

/-- Two outcomes of a walk that agree but for the heap buffer's bytes, the first
bounded. -/
def SameOffHeap (o₁ o₂ : Option Walk) : Prop :=
  o₁.map eraseHeap = o₂.map eraseHeap ∧ ∀ w ∈ o₁, w.Bounded

theorem sameOffHeap_some {w₁ w₂ : Walk} (h : w₁.eraseHeap = w₂.eraseHeap) (hb : w₁.Bounded) :
    SameOffHeap (some w₁) (some w₂) :=
  ⟨congrArg some h, fun _ hw => Option.some.inj hw ▸ hb⟩

theorem SameOffHeap.bind {o₁ o₂ : Option Walk} (h : SameOffHeap o₁ o₂) {f g : Walk → Option Walk}
    (hfg : ∀ {w₁ w₂ : Walk}, w₁.eraseHeap = w₂.eraseHeap → w₁.Bounded →
      SameOffHeap (f w₁) (g w₂)) :
    SameOffHeap (o₁.bind f) (o₂.bind g) := by
  obtain ⟨hmap, hb⟩ := h
  cases o₁ <;> cases o₂ <;> simp only [Option.map_none', Option.map_some', reduceCtorEq,
    Option.some.injEq] at hmap
  · exact ⟨rfl, nofun⟩
  · exact hfg hmap (hb _ rfl)

variable {c : Context} {edges : Nat → List (Nat × Nat)}

theorem eraseHeap_push {w₁ w₂ : Walk} (h : w₁.eraseHeap = w₂.eraseHeap) (p n o : Nat) :
    eraseHeap { w₁ with visitor := w₁.visitor.push p n o } =
      eraseHeap { w₂ with visitor := w₂.visitor.push p n o } := by
  have hread : ∀ w : Walk, eraseHeap { w with visitor := w.visitor.push p n o } =
      { w.eraseHeap with visitor := w.eraseHeap.visitor.push p n o } := fun _ => rfl
  rw [hread w₁, hread w₂, h]

theorem eraseHeap_pop {w₁ w₂ : Walk} (h : w₁.eraseHeap = w₂.eraseHeap) :
    eraseHeap { w₁ with visitor := w₁.visitor.pop } =
      eraseHeap { w₂ with visitor := w₂.visitor.pop } := by
  have hread : ∀ w : Walk, eraseHeap { w with visitor := w.visitor.pop } =
      { w.eraseHeap with visitor := w.eraseHeap.visitor.pop } := fun _ => rfl
  rw [hread w₁, hread w₂, h]

theorem walkEdges_congr {fuel p n : Nat}
    (ih : ∀ {w₁ w₂ : Walk} {q : Nat}, w₁.eraseHeap = w₂.eraseHeap → w₁.Bounded →
      SameOffHeap (walkObject c edges fuel w₁ q) (walkObject c edges fuel w₂ q)) :
    ∀ (l : List (Nat × Nat)) {w₁ w₂ : Walk}, w₁.eraseHeap = w₂.eraseHeap → w₁.Bounded →
      SameOffHeap
        (l.foldlM (fun w e => do
          let w ← walkObject c edges fuel { w with visitor := w.visitor.push p n e.1 } e.2
          pure { w with visitor := w.visitor.pop }) w₁)
        (l.foldlM (fun w e => do
          let w ← walkObject c edges fuel { w with visitor := w.visitor.push p n e.1 } e.2
          pure { w with visitor := w.visitor.pop }) w₂)
  | [], _, _, h, hb => sameOffHeap_some h hb
  | e :: l, w₁, w₂, h, hb => by
      simp only [List.foldlM_cons, Option.bind_eq_bind, Option.bind_assoc]
      exact (ih (eraseHeap_push h p n e.1) ⟨hb.1, hb.2⟩).bind fun h' hb' =>
        walkEdges_congr ih l (eraseHeap_pop h') ⟨hb'.1, hb'.2⟩

/-- One object's walk from walkers that agree but for the heap's bytes: both abort
or both finish, again agreeing but for the heap's bytes. -/
theorem walkObject_congr : ∀ {fuel : Nat} {w₁ w₂ : Walk} {p : Nat}, w₁.eraseHeap = w₂.eraseHeap →
    w₁.Bounded → SameOffHeap (walkObject c edges fuel w₁ p) (walkObject c edges fuel w₂ p)
  | 0, _, _, _, _, _ => ⟨rfl, nofun⟩
  | fuel + 1, w₁, w₂, p, h, hb => by
      have hnum : w₂.numbers = w₁.numbers := (congrArg Walk.numbers h).symm
      have hlog : w₂.log = w₁.log := (congrArg Walk.log h).symm
      have hvis : w₁.visitor.eraseHeap = w₂.visitor.eraseHeap := congrArg Walk.visitor h
      unfold walkObject
      rw [hnum]
      split
      · exact sameOffHeap_some h hb
      split
      · next hp hn =>
        -- an old object: the visit marks the same slot in both
        have hv := Visitor.visit_congr hvis (c := c) (Nat.pos_of_ne_zero hn)
          (lt_of_le_of_lt (hb.1 p) hb.2)
        have hwalk : ∀ (o : Option Visitor) (w : Walk),
            (o.map fun v => ({ w with visitor := v } : Walk)).map eraseHeap =
              (o.map Visitor.eraseHeap).map fun v => { w with visitor := v } := fun o w => by
          cases o <;> rfl
        refine ⟨by rw [hlog, hwalk, hwalk, Visitor.visitOld, Visitor.visitOld, hv], fun w hw => ?_⟩
        obtain ⟨v, hv', rfl⟩ := Option.map_eq_some'.mp hw
        have := (Visitor.visit_frame hv').2
        exact ⟨fun q => this ▸ hb.1 q, this ▸ hb.2⟩
      · next hp hn =>
        -- a new object: the same allotment, then the same reference loop
        have he := Visitor.emit_congr hvis (c := c) hb.2 p
        simp only [Option.bind_eq_bind]
        cases h₁ : w₁.visitor.emit c p with
        | none =>
            rw [h₁, Option.map_none', eq_comm, Option.map_eq_none'] at he
            rw [he]
            exact ⟨rfl, nofun⟩
        | some av =>
            obtain ⟨a, v₁⟩ := av
            rw [h₁, Option.map_some', eq_comm, Option.map_eq_some'] at he
            obtain ⟨⟨a', v₂⟩, h₂, hav⟩ := he
            simp only [Prod.map, id, Prod.mk.injEq] at hav
            obtain ⟨rfl, hv⟩ := hav
            rw [h₂]
            simp only [Option.some_bind]
            have hcap := Visitor.emit_capacity h₁
            have hle := (Visitor.allot_number_le (emit_allot h₁)).2
            refine walkEdges_congr (fun h hb => walkObject_congr h hb) _
              (show (⟨v₁.eraseHeap, _, _⟩ : Walk) = ⟨v₂.eraseHeap, _, _⟩ by rw [hv, hlog])
              ⟨fun q => ?_, hcap ▸ hb.2⟩
            have := hb.1 q
            dsimp only
            split <;> omega

/-- The heap walk does not depend on the heap buffer's leftover bytes. Two walks of
`visitRoots` from the walker `makeHeapImage` starts, on heap buffers with any
contents, both abort or both finish, and then with the same numbers, the same
allotments, the same heap map, position and capacity and the same edge: they differ
at most in the heap's bytes. -/
theorem walk_ignores_buffer_contents (c : Context) (edges : Nat → List (Nat × Nat)) (fuel : Nat)
    (r : Roots) (heap₁ heap₂ : Memory) :
    (visitRoots c edges fuel (init c.abi heap₁) r).map eraseHeap =
      (visitRoots c edges fuel (init c.abi heap₂) r).map eraseHeap := by
  have hroots : ∀ (rs : List Nat) {w₁ w₂ : Walk}, w₁.eraseHeap = w₂.eraseHeap → w₁.Bounded →
      SameOffHeap (rs.foldlM (visitRoot c edges fuel) w₁) (rs.foldlM (visitRoot c edges fuel) w₂) := by
    intro rs
    induction rs with
    | nil => exact fun h hb => sameOffHeap_some h hb
    | cons q rs ih =>
        intro w₁ w₂ h hb
        simp only [List.foldlM_cons, Option.bind_eq_bind]
        exact (walkObject_congr (eraseHeap_pop h) ⟨hb.1, hb.2⟩).bind fun h' hb' => ih h' hb'
  exact (hroots r.toList (show (init c.abi heap₁).eraseHeap = (init c.abi heap₂).eraseHeap from rfl)
    (bounded_init c.abi heap₁)).1

end Walk

end BootImage
