import BootImage.Walker

/-! The heap walk as a run of the visitor. A walk of `visitRoots` drives the
visitor through one sequence of its callbacks: `root` before each root, `visitNew`
for an object reached first, `visitOld` with its number after that, and `push`
before and `pop` after each reference followed. So whatever holds of every run of
the visitor holds of the walk: the objects it emits take consecutive regions of
the heap from word 0. The walker's map agrees with the allotments: an object is
numbered through exactly one of them, with that allotment's number, so distinct
objects have distinct numbers and `visitOld` is only ever given the number an
earlier `visitNew` returned. -/
namespace BootImage

namespace Visitor

variable {c : Context}

theorem run_append {s s₁ s₂ : Visitor} {es₁ es₂ : List Event} {l₁ l₂ : List Allotment}
    (h₁ : s.run c es₁ = some (l₁, s₁)) (h₂ : s₁.run c es₂ = some (l₂, s₂)) :
    s.run c (es₁ ++ es₂) = some (l₁ ++ l₂, s₂) := by
  induction es₁ generalizing s l₁ with
  | nil => cases h₁; exact h₂
  | cons e es ih =>
      obtain ⟨as, s', bs, hstep, hrun, rfl⟩ := run_cons_eq_some h₁
      rw [List.cons_append, run]
      simp only [Option.bind_eq_bind, hstep, Option.some_bind, ih hrun, List.append_assoc]
      rfl

end Visitor

/-- A valid allotment's number addresses a word of its own region. -/
theorem Allotment.Valid.number_mem {c : Context} {cap : Nat} {a : Allotment}
    (hv : a.Valid c cap) : a.start < a.number ∧ a.number ≤ a.start + a.extent := by
  have := hv.size_pos
  rw [hv.number_eq, hv.extent_eq]
  split <;> omega

namespace Walk

variable (c : Context)

/-- `w'` follows `w` by a run of the visitor's callbacks, whose allotments extend
the log. -/
def RunOf (w w' : Walk) : Prop :=
  ∃ events log, w.visitor.run c events = some (log, w'.visitor) ∧ w'.log = w.log ++ log

variable {c} {edges : Nat → List (Nat × Nat)}

theorem RunOf.refl (w : Walk) : RunOf c w w := ⟨[], [], rfl, (List.append_nil _).symm⟩

theorem RunOf.trans {w₁ w₂ w₃ : Walk} (h₁ : RunOf c w₁ w₂) (h₂ : RunOf c w₂ w₃) :
    RunOf c w₁ w₃ := by
  obtain ⟨es₁, l₁, hrun₁, hlog₁⟩ := h₁
  obtain ⟨es₂, l₂, hrun₂, hlog₂⟩ := h₂
  exact ⟨es₁ ++ es₂, l₁ ++ l₂, Visitor.run_append hrun₁ hrun₂, by rw [hlog₂, hlog₁, List.append_assoc]⟩

/-- One callback that changes only the visitor and the log. -/
theorem RunOf.step {w w' : Walk} (e : Event) {as : List Allotment}
    (h : w.visitor.step c e = some (as, w'.visitor)) (hlog : w'.log = w.log ++ as) :
    RunOf c w w' :=
  ⟨[e], as, by simp only [Visitor.run, Option.bind_eq_bind, h, Option.some_bind,
    List.append_nil]; rfl, hlog⟩

theorem RunOf.push {w : Walk} (p n o : Nat) :
    RunOf c w { w with visitor := w.visitor.push p n o } :=
  RunOf.step (.push p n o) rfl (List.append_nil _).symm

theorem RunOf.pop (w : Walk) : RunOf c w { w with visitor := w.visitor.pop } :=
  RunOf.step .pop rfl (List.append_nil _).symm

theorem RunOf.root (w : Walk) : RunOf c w { w with visitor := w.visitor.pop } :=
  RunOf.step .root rfl (List.append_nil _).symm

theorem RunOf.visitOld {w : Walk} (p : Nat) {n : Nat} {v : Visitor}
    (hv : w.visitor.visitOld c n = some v) : RunOf c w { w with visitor := v } :=
  RunOf.step (.visitOld p n) (by simp only [Visitor.step, hv, Option.map_some']) (List.append_nil _).symm

/-- Emitting a new object is its `visitNew`, which logs the allotment. -/
theorem RunOf.emit {w : Walk} {p : Nat} {a : Allotment} {v : Visitor} (hp : p ≠ 0)
    (he : w.visitor.emit c p = some (a, v)) :
    RunOf c w ⟨v, fun q => if q = p then a.number else w.numbers q, w.log ++ [a]⟩ :=
  RunOf.step (.visitNew p) (by simp only [Visitor.step, if_neg hp, he, Option.map_some']) rfl

/-! ### Invariants of the walk

What each callback keeps, the walk keeps. A push follows a reference of an object
the log has allotted, under that allotment's number; the object then visited is
the one that reference leads to. -/

variable (edges) in
/-- The reference the visitor follows leads to `p`: there is none (a root), or it
is a reference of an allotted object, under that allotment's number. -/
def Following (w : Walk) (p : Nat) : Prop :=
  w.visitor.currentObject = 0 ∨ ∃ a ∈ w.log, a.object = w.visitor.currentObject ∧
    a.number = w.visitor.currentNumber ∧ (w.visitor.currentOffset, p) ∈ edges a.object

section Invariant

variable (I : Walk → Prop)
  (hpush : ∀ {w : Walk} {p n o q : Nat}, I w → (∃ a ∈ w.log, a.object = p ∧ a.number = n) →
    (o, q) ∈ edges p → I { w with visitor := w.visitor.push p n o })
  (hpop : ∀ {w : Walk}, I w → I { w with visitor := w.visitor.pop })
  (hroot : ∀ {w : Walk}, I w → I { w with visitor := w.visitor.pop })
  (hold : ∀ {w : Walk} {v : Visitor} (p : Nat), I w → Following edges w p → p ≠ 0 → w.numbers p ≠ 0 →
    w.visitor.visitOld c (w.numbers p) = some v → I { w with visitor := v })
  (hnew : ∀ {w : Walk} {p : Nat} {a : Allotment} {v : Visitor}, I w → Following edges w p → p ≠ 0 →
    w.numbers p = 0 → w.visitor.emit c p = some (a, v) →
    I ⟨v, fun q => if q = p then a.number else w.numbers q, w.log ++ [a]⟩)

/-- Pushing a reference of an allotted object follows it. -/
theorem following_push {w : Walk} {p n o q : Nat} (hn : ∃ a ∈ w.log, a.object = p ∧ a.number = n)
    (he : (o, q) ∈ edges p) : Following edges { w with visitor := w.visitor.push p n o } q :=
  let ⟨a, ha, hobj, hnum⟩ := hn
  .inr ⟨a, ha, hobj, hnum, hobj ▸ he⟩

include hpush hpop in
theorem walkEdges_invariant {fuel p n : Nat}
    (ih : ∀ {w w' : Walk} {q : Nat}, walkObject c edges fuel w q = some w' → I w →
      Following edges w q → I w' ∧ w.log <+: w'.log) :
    ∀ {l : List (Nat × Nat)} {w w' : Walk}, (∀ e ∈ l, e ∈ edges p) →
      (∃ a ∈ w.log, a.object = p ∧ a.number = n) →
      l.foldlM (fun w e => do
          let w ← walkObject c edges fuel { w with visitor := w.visitor.push p n e.1 } e.2
          pure { w with visitor := w.visitor.pop }) w = some w' → I w → I w' ∧ w.log <+: w'.log
  | [], w, w', _, _, h, hw => by cases h; exact ⟨hw, List.prefix_refl _⟩
  | e :: l, w, w', hl, hn, h, hw => by
      simp only [List.foldlM_cons, Option.bind_eq_bind] at h
      obtain ⟨w₁, h₁, h⟩ := Option.bind_eq_some.mp h
      obtain ⟨w₂, h₂, h₁⟩ := Option.bind_eq_some.mp h₁
      cases h₁
      have he := hl e (List.mem_cons_self _ _)
      obtain ⟨hw₂, hpre₂⟩ := ih h₂ (hpush hw hn he) (following_push hn he)
      obtain ⟨hw', hpre'⟩ := walkEdges_invariant ih (fun e' he' => hl e' (List.mem_cons_of_mem _ he'))
        (hn.imp fun _ ⟨ha, h⟩ => ⟨hpre₂.subset ha, h⟩) h (hpop hw₂)
      exact ⟨hw', hpre₂.trans hpre'⟩

include hpush hpop hold hnew in
/-- What each callback of the walk keeps, a walk of one object keeps; and the log
only grows. -/
theorem walkObject_invariant : ∀ {fuel : Nat} {w w' : Walk} {p : Nat},
    walkObject c edges fuel w p = some w' → I w → Following edges w p → I w' ∧ w.log <+: w'.log
  | 0, _, _, _, h, _, _ => by cases h
  | fuel + 1, w, w', p, h, hw, hf => by
      unfold walkObject at h
      split at h
      · cases h; exact ⟨hw, List.prefix_refl _⟩
      split at h
      · next hp hnum =>
        obtain ⟨v, hv, rfl⟩ := Option.map_eq_some'.mp h
        exact ⟨hold p hw hf hp hnum hv, List.prefix_refl _⟩
      · next hp hnum =>
        simp only [Option.bind_eq_bind] at h
        obtain ⟨⟨a, v⟩, he, h⟩ := Option.bind_eq_some.mp h
        obtain ⟨-, -, -, -, hobj, -⟩ := Visitor.allot_eq_some (emit_allot he)
        obtain ⟨hw', hpre⟩ := walkEdges_invariant I hpush hpop
          (fun h hw hf => walkObject_invariant h hw hf) (fun _ he => he)
          ⟨a, List.mem_append_right _ (List.mem_singleton_self a), hobj, rfl⟩ h
          (hnew hw hf hp (not_not.mp hnum) he)
        exact ⟨hw', (List.prefix_append _ _).trans hpre⟩

include hpush hpop hroot hold hnew in
theorem visitRoots_invariant {fuel : Nat} :
    ∀ {rs : List Nat} {w w' : Walk}, rs.foldlM (visitRoot c edges fuel) w = some w' → I w → I w'
  | [], w, w', h, hw => by cases h; exact hw
  | r :: rs, w, w', h, hw => by
      simp only [List.foldlM_cons, Option.bind_eq_bind] at h
      obtain ⟨w₁, h₁, h⟩ := Option.bind_eq_some.mp h
      exact visitRoots_invariant h (walkObject_invariant I hpush hpop hold hnew h₁ (hroot hw) (.inl rfl)).1

end Invariant

/-- Every walk of one object is a run of the visitor's callbacks. -/
theorem walkObject_run {fuel : Nat} {w w' : Walk} {p : Nat}
    (h : walkObject c edges fuel w p = some w') (hf : Following edges w p) : RunOf c w w' :=
  (walkObject_invariant (RunOf c w) (fun hw _ _ => hw.trans (RunOf.push _ _ _))
    (fun hw => hw.trans (RunOf.pop _)) (fun p hw _ _ _ hv => hw.trans (RunOf.visitOld p hv))
    (fun hw _ hp _ he => hw.trans (RunOf.emit hp he)) h (RunOf.refl w) hf).1

theorem visitRoots_run {fuel : Nat} {rs : List Nat} {w w' : Walk}
    (h : rs.foldlM (visitRoot c edges fuel) w = some w') : RunOf c w w' :=
  visitRoots_invariant (RunOf c w) (fun hw _ _ => hw.trans (RunOf.push _ _ _))
    (fun hw => hw.trans (RunOf.pop _)) (fun hw => hw.trans (RunOf.root _))
    (fun p hw _ _ _ hv => hw.trans (RunOf.visitOld p hv))
    (fun hw _ hp _ he => hw.trans (RunOf.emit hp he)) h (RunOf.refl w)

/-! ### The walker's numbers -/

/-- The walker's map agrees with its log: each allotment's object has the
allotment's number, which is positive; no object is allotted twice; and every
numbered object was allotted. -/
structure Numbered (w : Walk) : Prop where
  number_eq : ∀ a ∈ w.log, w.numbers a.object = a.number
  number_pos : ∀ a ∈ w.log, 0 < a.number
  nodup : (w.log.map (·.object)).Nodup
  allotted : ∀ q, w.numbers q ≠ 0 → ∃ a ∈ w.log, a.object = q

theorem numbered_init (abi : Abi) (heap : Memory) : Numbered (init abi heap) :=
  ⟨nofun, nofun, List.nodup_nil, fun _ h => absurd rfl h⟩

/-- The agreement does not look at the visitor. -/
theorem Numbered.visitor {w : Walk} (hw : Numbered w) (v : Visitor) :
    Numbered { w with visitor := v } :=
  ⟨hw.number_eq, hw.number_pos, hw.nodup, hw.allotted⟩

/-- Emitting an unnumbered object and giving it the allotment's number keeps the
map and the log in agreement. -/
theorem Numbered.emit {w : Walk} {p : Nat} {a : Allotment} {v : Visitor} (hw : Numbered w)
    (hnum : w.numbers p = 0) (he : w.visitor.emit c p = some (a, v)) :
    Numbered ⟨v, fun q => if q = p then a.number else w.numbers q, w.log ++ [a]⟩ := by
  obtain ⟨-, -, -, -, hobj, -⟩ := Visitor.allot_eq_some (emit_allot he)
  have hpos := emit_number_pos he
  have hnot : ∀ b ∈ w.log, b.object ≠ p := fun b hb hbp => by
    have := hw.number_eq b hb
    have := hw.number_pos b hb
    rw [hbp] at *
    omega
  refine ⟨fun b hb => ?_, fun b hb => ?_, ?_, fun q hq => ?_⟩
  · rcases List.mem_append.mp hb with hb | hb
    · simp only [if_neg (hnot b hb)]
      exact hw.number_eq b hb
    · obtain rfl := List.mem_singleton.mp hb
      simp only [hobj, if_true]
  · rcases List.mem_append.mp hb with hb | hb
    · exact hw.number_pos b hb
    · obtain rfl := List.mem_singleton.mp hb
      exact hpos
  · rw [List.map_append, List.map_singleton, hobj]
    exact hw.nodup.append (List.nodup_singleton p) (List.disjoint_singleton.mpr fun hp => by
      obtain ⟨b, hb, hbp⟩ := List.mem_map.mp hp
      exact hnot b hb hbp)
  · by_cases hqp : q = p
    · exact ⟨a, List.mem_append_right _ (List.mem_singleton_self a), hobj.trans hqp.symm⟩
    · simp only [if_neg hqp] at hq
      obtain ⟨b, hb, hbq⟩ := hw.allotted q hq
      exact ⟨b, List.mem_append_left _ hb, hbq⟩

/-- A walk of the roots keeps the map and the log in agreement. -/
theorem visitRoots_numbered {fuel : Nat} {rs : List Nat} {w w' : Walk}
    (h : rs.foldlM (visitRoot c edges fuel) w = some w') (hw : Numbered w) : Numbered w' :=
  visitRoots_invariant Numbered (fun hw _ _ => hw.visitor _) (fun hw => hw.visitor _)
    (fun hw => hw.visitor _) (fun _ hw _ _ _ _ => hw.visitor _) (fun hw _ _ hnum he => hw.emit hnum he)
    h hw

/-- Each reached object is emitted once, and numbers identify objects. After
`visitRoots` from the walker `makeHeapImage` starts, over well-formed TypeMaps,
the walk was one run of the visitor's callbacks, whose allotments are the walk's
log; they occupy consecutive regions of the heap from word 0, below the capacity.
An object has a number exactly when it has an allotment, and then that
allotment's number; no object has two; and distinct numbered objects have
distinct numbers. -/
theorem walk_numbers_each_object_once (hwf : c.WellFormedMaps) {fuel : Nat} {heap : Memory}
    {r : Roots} {w : Walk} (h : visitRoots c edges fuel (init c.abi heap) r = some w) :
    (∃ events, (Visitor.init c.abi heap).run c events = some (w.log, w.visitor)) ∧
      Consecutive 0 w.log ∧ w.visitor.position < w.visitor.capacity ∧
      (∀ q, w.numbers q ≠ 0 ↔ ∃ a ∈ w.log, a.object = q) ∧
      (∀ a ∈ w.log, w.numbers a.object = a.number) ∧ (w.log.map (·.object)).Nodup ∧
      ∀ q q', w.numbers q ≠ 0 → w.numbers q = w.numbers q' → q = q' := by
  obtain ⟨events, log, hrun, hlog⟩ := visitRoots_run h
  obtain rfl : w.log = log := hlog
  have hnum := visitRoots_numbered h (numbered_init c.abi heap)
  obtain ⟨hcons, -, hlt, -, -, hvalid⟩ :=
    Visitor.run_allotments hwf hrun (Visitor.init_position_lt_capacity c.abi heap)
  have hnodup := (numbers_increase hcons.pairwise fun a ha => (hvalid a ha).number_mem).nodup
  refine ⟨⟨events, hrun⟩, hcons, hlt, fun q => ⟨hnum.allotted q, ?_⟩, hnum.number_eq, hnum.nodup,
    fun q q' hq hqq' => ?_⟩
  · rintro ⟨a, ha, rfl⟩
    rw [hnum.number_eq a ha]
    exact (hnum.number_pos a ha).ne'
  · obtain ⟨a, ha, rfl⟩ := hnum.allotted q hq
    obtain ⟨a', ha', rfl⟩ := hnum.allotted q' (hqq' ▸ hq)
    rw [hnum.number_eq a ha, hnum.number_eq a' ha'] at hqq'
    rw [List.inj_on_of_nodup_map hnodup ha ha' hqq']

end Walk

/-! ### A cycle -/

/-- Two objects, 100 and 200, of a class 300, each referring to the other from
word 1; the classes are of the class type 500. -/
def cycleRuntime : Runtime where
  objectClass p := if p = 100 ∨ p = 200 then 300 else 500
  body _ := fun _ => 0
  classType := 500
  singletonType := 600
  isSystemClassLoader _ := false
  classStaticTable := 8

def cycleContext : Context :=
  ⟨Abi.native32, cycleRuntime,
    [(300, ⟨2, 2, [⟨.object, 0, 0⟩, ⟨.object, 4, 4⟩], .normalKind, 0, 0, .none⟩), (500, classMap)],
    3, 2 ^ 32 - 4, 30, 3⟩

/-- The references: each object's class, and the cycle. -/
def cycleEdges (p : Nat) : List (Nat × Nat) :=
  if p = 100 then [(0, 300), (1, 200)] else if p = 200 then [(0, 300), (1, 100)] else [(0, 500)]

theorem cycle_numbers_identify_objects :
    cycleContext.WellFormedMaps ∧ ∃ w, Walk.visitRoots cycleContext cycleEdges 6
        (Walk.init Abi.native32 fun _ => 0) ⟨[], 0, 0, 0, [], [100]⟩ = some w ∧
      (w.log.map (·.object)).Nodup ∧
      ∀ q q', w.numbers q ≠ 0 → w.numbers q = w.numbers q' → q = q' := by
  have hwf : cycleContext.WellFormedMaps := by decide
  obtain ⟨w, h⟩ := Option.isSome_iff_exists.mp (by decide :
    (Walk.visitRoots cycleContext cycleEdges 6 (Walk.init Abi.native32 fun _ => 0)
      ⟨[], 0, 0, 0, [], [100]⟩).isSome)
  obtain ⟨-, -, -, -, -, hnodup, hinj⟩ := Walk.walk_numbers_each_object_once hwf h
  exact ⟨hwf, w, h, hnodup, hinj⟩

end BootImage
