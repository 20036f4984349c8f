import BootImage.Numbering

/-! The heap walk completes. `visitNew` aborts where an object has no TypeMap,
where `copy` meets a tag it does not support, or where the object would not fit
below `capacity`; `visit` aborts where the object whose slot it patches has no
TypeMap. None of this happens on a walk over a set of objects `U` that holds the
roots and the references of its members, whose TypeMaps are all there and well
formed, and whose largest extents, each object taken as fixed, fit in the heap
together: the walk allots distinct objects of `U` only, so the words in use never
pass that sum. The walker's fuel bounds the depth of the walk, and each level down
allots one more object of `U`, so fuel above the size of `U` is enough. -/
namespace BootImage

/-- The most target words `visitNew` can take for `p`: the fixie header, body and
mask of a fixed object; 0 where `p` has no TypeMap. -/
def Context.maxExtent (c : Context) (p : Nat) : Nat :=
  match c.rt.targetSize c.abi c.typeMaps p with
  | some size => c.targetFixieSizeInWords + size + ceiling size c.abi.targetBytesPerWord
  | none => 0

theorem mapM_isSome {α β : Type} {f : α → Option β} :
    ∀ {l : List α}, (∀ x ∈ l, (f x).isSome) → (l.mapM f).isSome
  | [], _ => rfl
  | a :: l, h => by
      obtain ⟨b, hb⟩ := Option.isSome_iff_exists.mp (h a (List.mem_cons_self _ _))
      obtain ⟨bs, hbs⟩ := Option.isSome_iff_exists.mp
        (mapM_isSome fun x hx => h x (List.mem_cons_of_mem _ hx))
      simp only [List.mapM_cons, hb, hbs, Option.bind_eq_bind, Option.some_bind]
      rfl

theorem isSome_bind_of {α β : Type} {x : Option α} {f : α → Option β} (hx : x.isSome)
    (hf : ∀ a, (f a).isSome) : (x.bind f).isSome := by
  obtain ⟨a, rfl⟩ := Option.isSome_iff_exists.mp hx
  exact hf a

theorem sum_map_le_of_subperm {f : Nat → Nat} {l₁ l₂ : List Nat} (h : l₁.Subperm l₂) :
    (l₁.map f).sum ≤ (l₂.map f).sum := by
  obtain ⟨l, hperm, hsub⟩ := h
  rw [← (hperm.map f).sum_eq]
  exact (hsub.map f).sum_le_sum fun _ _ => Nat.zero_le _

section Copy

variable {abi : Abi}

theorem copyField_isSome {src : Memory} {offset : Nat} {type : Ty} {w : Nat}
    (h : copyWidth abi type = some w) : (copyField abi src offset type).isSome := by
  cases type <;> simp_all [copyWidth, copyField]

/-- `copy` of an object whose TypeMap is well formed never aborts. -/
theorem copyObject_isSome {rt : Runtime} {typeMaps : TypeMaps} {p : Nat} {m : TypeMap}
    (hm : rt.typeMap typeMaps p = some m) (hwf : m.WellFormed abi) (dst : Nat) :
    (copyObject abi rt typeMaps p dst).isSome := by
  simp only [copyObject, hm, Option.bind_eq_bind, Option.some_bind]
  refine isSome_bind_of (mapM_isSome fun f hf => ?_) fun fields => ?_
  · obtain ⟨w, hw, -⟩ := hwf.fields_fit f hf
    rw [Option.isSome_map']
    exact copyField_isSome hw
  · split
    · next harray =>
      obtain ⟨-, w, hw, -⟩ := hwf.element_fits harray
      refine isSome_bind_of (mapM_isSome fun i _ => ?_) fun _ => rfl
      rw [Option.isSome_map']
      exact copyField_isSome hw
    · rfl

end Copy

namespace Visitor

variable {c : Context} {s s' : Visitor} {p n : Nat}

/-- `visit` never aborts when there is no edge, or when the edge's object has a
TypeMap. -/
theorem visit_isSome (h : s.currentObject = 0 ∨ (c.rt.typeMap c.typeMaps s.currentObject).isSome) :
    (s.visit c n).isSome := by
  unfold visit
  split
  · rfl
  · next h0 =>
    rw [Option.isSome_map', Runtime.targetOffset, Option.isSome_map']
    exact h.resolve_left h0

theorem visit_currentObject (h : s.visit c n = some s') : s'.currentObject = s.currentObject := by
  unfold visit at h
  split at h
  · cases h; rfl
  · obtain ⟨_, -, rfl⟩ := Option.map_eq_some'.mp h
    rfl

/-- The allocation of `visitNew` never aborts for an object with a well-formed
TypeMap whose largest extent fits below the capacity. -/
theorem allot_isSome (hwf : c.WellFormedMaps) {m : TypeMap} (hm : c.rt.typeMap c.typeMaps p = some m)
    (hfit : s.position + c.maxExtent p < s.capacity) : (s.allot c p).isSome := by
  have hsize : c.rt.targetSize c.abi c.typeMaps p =
      some (m.targetSize c.abi (c.rt.arrayLength c.abi m p)) := by
    rw [Runtime.targetSize, hm, Option.map_some']
  have hcopy := copyObject_isSome hm (hwf _ _ (c.rt.typeMap_mem hm))
  simp only [Context.maxExtent, hsize] at hfit
  simp only [allot, hsize, Option.bind_eq_bind, Option.some_bind]
  split
  · exact isSome_bind_of (hcopy _) fun _ => rfl
  · rw [if_pos (by omega)]
    exact isSome_bind_of (hcopy _) fun _ => rfl

theorem place_currentObject (a : Allotment) : (s.place c a).currentObject = s.currentObject := rfl

theorem emit_isSome (hwf : c.WellFormedMaps) {m : TypeMap} (hm : c.rt.typeMap c.typeMaps p = some m)
    (hfit : s.position + c.maxExtent p < s.capacity)
    (hcur : s.currentObject = 0 ∨ (c.rt.typeMap c.typeMaps s.currentObject).isSome) :
    (s.emit c p).isSome := by
  obtain ⟨a, ha⟩ := Option.isSome_iff_exists.mp (allot_isSome hwf hm hfit)
  have hv : ((s.place c a).visit c a.number).isSome :=
    visit_isSome (by rw [place_currentObject]; exact hcur)
  obtain ⟨v, hv⟩ := Option.isSome_iff_exists.mp hv
  simp only [emit, ha, hv, Option.bind_eq_bind, Option.some_bind]
  rfl

theorem emit_currentObject {a : Allotment} (h : s.emit c p = some (a, s')) :
    s'.currentObject = s.currentObject := by
  simp only [emit, Option.bind_eq_bind] at h
  obtain ⟨a', -, h⟩ := Option.bind_eq_some.mp h
  obtain ⟨v, hv, h⟩ := Option.bind_eq_some.mp h
  cases h
  exact (visit_currentObject hv).trans (place_currentObject _)

end Visitor

/-- An allotment takes at most its object's largest extent. -/
theorem Allotment.Valid.extent_le {c : Context} {cap : Nat} {a : Allotment} (hv : a.Valid c cap) :
    a.extent ≤ c.maxExtent a.object := by
  simp only [Context.maxExtent, hv.size_eq, hv.extent_eq]
  split <;> omega

namespace Walk

variable {c : Context} {edges : Nat → List (Nat × Nat)} {U : List Nat} {heap : Memory}

/-- What a walk over the objects `U` keeps: it is a run of the visitor from the
walker `makeHeapImage` starts, its numbers agree with its log, it has allotted
objects of `U` only, and the edge it follows, if any, leaves an object of `U`. -/
structure Fits (c : Context) (U : List Nat) (heap : Memory) (w : Walk) : Prop where
  run : RunOf c (init c.abi heap) w
  numbered : Numbered w
  objects : ∀ a ∈ w.log, a.object ∈ U
  current : w.visitor.currentObject = 0 ∨ w.visitor.currentObject ∈ U

theorem fits_init (c : Context) (U : List Nat) (heap : Memory) : Fits c U heap (init c.abi heap) :=
  ⟨RunOf.refl _, numbered_init c.abi heap, nofun, .inl rfl⟩

theorem Fits.push {w : Walk} {p : Nat} (hf : Fits c U heap w) (hp : p ∈ U) (n o : Nat) :
    Fits c U heap { w with visitor := w.visitor.push p n o } :=
  ⟨hf.run.trans (RunOf.push p n o), hf.numbered.visitor _, hf.objects, .inr hp⟩

theorem Fits.pop {w : Walk} (hf : Fits c U heap w) : Fits c U heap { w with visitor := w.visitor.pop } :=
  ⟨hf.run.trans (RunOf.pop w), hf.numbered.visitor _, hf.objects, .inl rfl⟩

theorem Fits.root {w : Walk} (hf : Fits c U heap w) : Fits c U heap { w with visitor := w.visitor.pop } :=
  ⟨hf.run.trans (RunOf.root w), hf.numbered.visitor _, hf.objects, .inl rfl⟩

theorem Fits.visitOld {w : Walk} {v : Visitor} (hf : Fits c U heap w) (p : Nat) {n : Nat}
    (hv : w.visitor.visitOld c n = some v) : Fits c U heap { w with visitor := v } :=
  ⟨hf.run.trans (RunOf.visitOld p hv), hf.numbered.visitor v, hf.objects,
    (Visitor.visit_currentObject hv).symm ▸ hf.current⟩

theorem Fits.emit {w : Walk} {p : Nat} {a : Allotment} {v : Visitor} (hf : Fits c U heap w)
    (hp : p ≠ 0) (hpU : p ∈ U) (hnum : w.numbers p = 0) (he : w.visitor.emit c p = some (a, v)) :
    Fits c U heap ⟨v, fun q => if q = p then a.number else w.numbers q, w.log ++ [a]⟩ := by
  obtain ⟨-, -, -, -, hobj, -⟩ := Visitor.allot_eq_some (emit_allot he)
  refine ⟨hf.run.trans (RunOf.emit hp he), hf.numbered.emit hnum he, fun b hb => ?_,
    (Visitor.emit_currentObject he).symm ▸ hf.current⟩
  rcases List.mem_append.mp hb with hb | hb
  · exact hf.objects b hb
  · rw [List.mem_singleton.mp hb, hobj]
    exact hpU

section Room

variable (hwf : c.WellFormedMaps)
  (hfit : (U.map c.maxExtent).sum < heapCapacity / c.abi.targetBytesPerWord)

include hwf hfit in
/-- Room for one more object of `U`: the log's objects and a new one are distinct
objects of `U`, so the words in use and the new object's largest extent stay
below the capacity, and the log is shorter than `U`. -/
theorem Fits.room {w : Walk} {p : Nat} (hf : Fits c U heap w) (hp : p ∈ U) (hnum : w.numbers p = 0) :
    w.visitor.position + c.maxExtent p < w.visitor.capacity ∧ w.log.length < U.length := by
  obtain ⟨events, log, hrun, hlog⟩ := hf.run
  obtain rfl : w.log = log := hlog
  obtain ⟨-, hpos, -, hcap, -, hvalid⟩ :=
    Visitor.run_allotments hwf hrun (Visitor.init_position_lt_capacity c.abi heap)
  have hnot : p ∉ w.log.map (·.object) := fun hmem => by
    obtain ⟨a, ha, rfl⟩ := List.mem_map.mp hmem
    have := hf.numbered.number_eq a ha
    have := hf.numbered.number_pos a ha
    omega
  have hsub : (p :: w.log.map (·.object)).Subperm U :=
    (List.nodup_cons.mpr ⟨hnot, hf.numbered.nodup⟩).subperm fun q hq => by
      rcases List.mem_cons.mp hq with rfl | hq
      · exact hp
      · obtain ⟨a, ha, rfl⟩ := List.mem_map.mp hq
        exact hf.objects a ha
  have hsum : ((p :: w.log.map (·.object)).map c.maxExtent).sum ≤ (U.map c.maxExtent).sum :=
    sum_map_le_of_subperm hsub
  have hext : (w.log.map (·.extent)).sum ≤ ((w.log.map (·.object)).map c.maxExtent).sum := by
    rw [List.map_map]
    exact List.sum_le_sum fun a ha => (hvalid a ha).extent_le
  have hlen := hsub.length_le
  simp only [List.map_cons, List.sum_cons, List.length_cons, List.length_map] at hsum hlen
  rw [hpos, hcap]
  exact ⟨by simp only [init, Visitor.init]; omega, by omega⟩

end Room

/-- The log only grows along a run. -/
theorem RunOf.log_length_le {w w' : Walk} (h : RunOf c w w') : w.log.length ≤ w'.log.length := by
  obtain ⟨_, log, -, hlog⟩ := h
  rw [hlog, List.length_append]
  omega

section Progress

variable (hwf : c.WellFormedMaps)
  (hmaps : ∀ q ∈ U, (c.rt.typeMap c.typeMaps q).isSome)
  (hedges : ∀ p ∈ U, ∀ e ∈ edges p, e.2 ≠ 0 → e.2 ∈ U)
  (hfit : (U.map c.maxExtent).sum < heapCapacity / c.abi.targetBytesPerWord)

include hmaps in
theorem Fits.current_mapped {w : Walk} (hf : Fits c U heap w) :
    w.visitor.currentObject = 0 ∨ (c.rt.typeMap c.typeMaps w.visitor.currentObject).isSome :=
  hf.current.imp_right (hmaps _)

include hedges in
/-- The reference loop of an object of `U` completes when each walk below it does. -/
theorem walkEdges_progress {fuel p n : Nat} (hp : p ∈ U)
    (ih : ∀ {w : Walk} {q : Nat}, Fits c U heap w → (q ≠ 0 → q ∈ U) →
      U.length - w.log.length < fuel → ∃ w', walkObject c edges fuel w q = some w' ∧ Fits c U heap w') :
    ∀ {l : List (Nat × Nat)} {w : Walk}, (∀ e ∈ l, e ∈ edges p) →
      (∃ a ∈ w.log, a.object = p ∧ a.number = n) → Fits c U heap w →
      U.length - w.log.length < fuel →
      ∃ w', l.foldlM (fun w e => do
          let w ← walkObject c edges fuel { w with visitor := w.visitor.push p n e.1 } e.2
          pure { w with visitor := w.visitor.pop }) w = some w' ∧ Fits c U heap w'
  | [], w, _, _, hf, _ => ⟨w, rfl, hf⟩
  | e :: l, w, hl, hn, hf, hfuel => by
      have he := hl e (List.mem_cons_self _ _)
      obtain ⟨w₁, h₁, hf₁⟩ := ih (hf.push hp n e.1) (hedges p hp e he) hfuel
      have hrun := walkObject_run h₁ (following_push hn he)
      have hgrow := hrun.log_length_le
      obtain ⟨_, _, -, hlog⟩ := hrun
      obtain ⟨w', h', hf'⟩ := walkEdges_progress hp ih
        (fun e' he' => hl e' (List.mem_cons_of_mem _ he'))
        (hn.imp fun _ ⟨ha, h⟩ => ⟨hlog ▸ List.mem_append_left _ ha, h⟩) hf₁.pop
        (by dsimp only at hgrow ⊢; omega)
      refine ⟨w', ?_, hf'⟩
      simp only [List.foldlM_cons, Option.bind_eq_bind, h₁, Option.some_bind]
      exact h'

include hwf hmaps hedges hfit in
/-- The walk of an object completes, given fuel above the number of objects of `U`
not yet allotted: a null or numbered object is done at once, and a new one is
allotted before its references are walked one level down. -/
theorem walkObject_progress : ∀ {fuel : Nat} {w : Walk} {p : Nat}, Fits c U heap w →
    (p ≠ 0 → p ∈ U) → U.length - w.log.length < fuel →
    ∃ w', walkObject c edges fuel w p = some w' ∧ Fits c U heap w'
  | 0, _, _, _, _, hfuel => absurd hfuel (Nat.not_lt_zero _)
  | fuel + 1, w, p, hf, hp, hfuel => by
      by_cases hp0 : p = 0
      · exact ⟨w, by rw [walkObject, if_pos hp0], hf⟩
      by_cases hnum : w.numbers p ≠ 0
      · have hv : (w.visitor.visitOld c (w.numbers p)).isSome :=
          Visitor.visit_isSome (hf.current_mapped hmaps)
        obtain ⟨v, hv⟩ := Option.isSome_iff_exists.mp hv
        exact ⟨_, by rw [walkObject, if_neg hp0, if_pos hnum, hv, Option.map_some'],
          hf.visitOld p hv⟩
      · have hnum' : w.numbers p = 0 := not_not.mp hnum
        have hpU := hp hp0
        obtain ⟨m, hm⟩ := Option.isSome_iff_exists.mp (hmaps p hpU)
        obtain ⟨hroom, hlen⟩ := hf.room hwf hfit hpU hnum'
        obtain ⟨⟨a, v⟩, he⟩ := Option.isSome_iff_exists.mp
          (Visitor.emit_isSome hwf hm hroom (hf.current_mapped hmaps))
        have hlt : U.length - (w.log ++ [a]).length < fuel := by
          simp only [List.length_append, List.length_singleton]
          omega
        rw [walkObject, if_neg hp0, if_neg hnum]
        simp only [Option.bind_eq_bind, he, Option.some_bind]
        obtain ⟨-, -, -, -, hobj, -⟩ := Visitor.allot_eq_some (emit_allot he)
        exact walkEdges_progress hedges hpU (fun hf hq hfuel => walkObject_progress hf hq hfuel)
          (fun _ he => he) ⟨a, List.mem_append_right _ (List.mem_singleton_self a), hobj, rfl⟩
          (hf.emit hp0 hpU hnum' he) hlt

include hwf hmaps hedges hfit in
theorem visitRoots_progress {fuel : Nat} (hfuel : U.length < fuel) :
    ∀ {rs : List Nat} {w : Walk}, (∀ q ∈ rs, q ≠ 0 → q ∈ U) → Fits c U heap w →
      ∃ w', rs.foldlM (visitRoot c edges fuel) w = some w' ∧ Fits c U heap w'
  | [], w, _, hf => ⟨w, rfl, hf⟩
  | q :: rs, w, hrs, hf => by
      obtain ⟨w₁, h₁, hf₁⟩ := walkObject_progress hwf hmaps hedges hfit hf.root
        (hrs q (List.mem_cons_self _ _)) (show U.length - w.log.length < fuel by omega)
      have h₁ : visitRoot c edges fuel w q = some w₁ := h₁
      obtain ⟨w', h', hf'⟩ :=
        visitRoots_progress hfuel (fun q' hq' => hrs q' (List.mem_cons_of_mem _ hq')) hf₁
      refine ⟨w', ?_, hf'⟩
      simp only [List.foldlM_cons, Option.bind_eq_bind, h₁, Option.some_bind]
      exact h'

end Progress

/-- The heap walk completes. Take a set of objects `U` that holds every non-null
root and every non-null reference of its members, whose objects all have TypeMaps,
over well-formed TypeMaps, and whose largest extents, each object taken as fixed,
fit together below the capacity `makeHeapImage` gives the visitor. Then the walk
of `visitRoots`, with fuel above the size of `U`, never aborts: no TypeMap is
missing, no tag is unsupported, no `expect` on the capacity fails, and the fuel
does not run out. -/
theorem walk_completes (hwf : c.WellFormedMaps) (hmaps : ∀ q ∈ U, (c.rt.typeMap c.typeMaps q).isSome)
    (hedges : ∀ p ∈ U, ∀ e ∈ edges p, e.2 ≠ 0 → e.2 ∈ U)
    (hfit : (U.map c.maxExtent).sum < heapCapacity / c.abi.targetBytesPerWord) {r : Roots}
    (hroots : ∀ q ∈ r.toList, q ≠ 0 → q ∈ U) {fuel : Nat} (hfuel : U.length < fuel) (heap : Memory) :
    ∃ w, visitRoots c edges fuel (init c.abi heap) r = some w :=
  let ⟨w, h, _⟩ := visitRoots_progress hwf hmaps hedges hfit hfuel hroots (fits_init c U heap)
  ⟨w, h⟩

end Walk

/-- The cycle of two objects and their classes: four objects, each with its
TypeMap, whose largest extents fit easily, so the walk with fuel 5 completes. -/
theorem cycle_walk_completes :
    cycleContext.WellFormedMaps ∧
      (∀ q ∈ [100, 200, 300, 500], (cycleContext.rt.typeMap cycleContext.typeMaps q).isSome) ∧
      (∀ p ∈ [100, 200, 300, 500], ∀ e ∈ cycleEdges p, e.2 ≠ 0 → e.2 ∈ [100, 200, 300, 500]) ∧
      ([100, 200, 300, 500].map cycleContext.maxExtent).sum <
        heapCapacity / cycleContext.abi.targetBytesPerWord ∧
      (∀ q ∈ (⟨[], 0, 0, 0, [], [100]⟩ : Roots).toList, q ≠ 0 → q ∈ [100, 200, 300, 500]) ∧
      ∃ w, Walk.visitRoots cycleContext cycleEdges 5 (Walk.init cycleContext.abi fun _ => 0)
        ⟨[], 0, 0, 0, [], [100]⟩ = some w := by
  have hwf : cycleContext.WellFormedMaps := by decide
  have hmaps : ∀ q ∈ [100, 200, 300, 500],
      (cycleContext.rt.typeMap cycleContext.typeMaps q).isSome := by decide
  have hedges : ∀ p ∈ [100, 200, 300, 500], ∀ e ∈ cycleEdges p, e.2 ≠ 0 →
      e.2 ∈ [100, 200, 300, 500] := by decide
  have hfit : ([100, 200, 300, 500].map cycleContext.maxExtent).sum <
      heapCapacity / cycleContext.abi.targetBytesPerWord := by decide
  have hroots : ∀ q ∈ (⟨[], 0, 0, 0, [], [100]⟩ : Roots).toList, q ≠ 0 →
      q ∈ [100, 200, 300, 500] := by decide
  exact ⟨hwf, hmaps, hedges, hfit, hroots,
    Walk.walk_completes hwf hmaps hedges hfit hroots (by decide) _⟩

end BootImage
