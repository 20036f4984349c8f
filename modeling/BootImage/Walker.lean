import BootImage.Transcription

/-! The heap walk of `makeHeapImage`. `visitRoots` hands the walker the classes of
the boot loader's class map, the two loaders, the type array, the processor's roots
and the compiler constants, in that order. The walker numbers an object through
`visitNew` the first time it reaches it and reports every later edge to it through
`visitOld`. After the walk, the objects with a number are exactly those the roots
reach; an interned string that nothing but the string map refers to has none. -/
namespace BootImage

/-- The walker's state: the visitor, each object's number (0 while it has none),
and the allotments made so far. -/
structure Walk where
  visitor : Visitor
  numbers : Nat → Nat
  log : List Allotment

namespace Walk

variable (c : Context) (edges : Nat → List (Nat × Nat))

/-- Modelled from the spec: the heap walker (heapwalk.cpp is not under src/). A
numbered object is reported through `visitOld`. A new one is numbered through
`visitNew`; then for each reference `(offset, q)` of the object, in order, the
walker calls `push(p, number, offset)`, walks `q` and calls `pop()`. `fuel` bounds
the depth of the walk. -/
def walkObject : Nat → Walk → Nat → Option Walk
  | 0, _, _ => none
  | fuel + 1, w, p =>
    if p = 0 then some w
    else if w.numbers p ≠ 0 then
      (w.visitor.visitOld c (w.numbers p)).map fun v => { w with visitor := v }
    else do
      let (a, v) ← w.visitor.emit c p
      (edges p).foldlM (fun w e => do
          let w ← walkObject fuel { w with visitor := w.visitor.push p a.number e.1 } e.2
          pure { w with visitor := w.visitor.pop })
        ⟨v, fun q => if q = p then a.number else w.numbers q, w.log ++ [a]⟩

/-- `visitRoot`: `root()` clears the edge, then the walk. -/
def visitRoot (fuel : Nat) (w : Walk) (p : Nat) : Option Walk :=
  walkObject c edges fuel { w with visitor := w.visitor.pop } p

end Walk

/-- The roots of `visitRoots`. `bootClasses` are the keys of the boot loader's class
map; `makeCodeImage` resolves every class through the boot loader, so every class
the image holds is one of them, a fact of the VM that a result needing it takes as a
premise. -/
structure Roots where
  bootClasses : List Nat
  bootLoader : Nat
  appLoader : Nat
  types : Nat
  processorRoots : List Nat
  constants : List Nat

/-- The roots `visitRoots` walks before the compiler constants. -/
def Roots.beforeConstants (r : Roots) : List Nat :=
  r.bootClasses ++ [r.bootLoader, r.appLoader, r.types] ++ r.processorRoots

/-- The roots in `visitRoots`' order. -/
def Roots.toList (r : Roots) : List Nat := r.beforeConstants ++ r.constants

namespace Walk

variable (c : Context) (edges : Nat → List (Nat × Nat))

/-- `visitRoots`. -/
def visitRoots (fuel : Nat) (w : Walk) (roots : Roots) : Option Walk :=
  roots.toList.foldlM (visitRoot c edges fuel) w

/-- The walker `makeHeapImage` starts. -/
def init (abi : Abi) (heap : Memory) : Walk := ⟨Visitor.init abi heap, fun _ => 0, []⟩

/-- A table `writeBootImage2` fills from the walker's map, as `find` answers: 0 for
an object the walk did not number. -/
def table (w : Walk) (objects : List Nat) : List Nat := objects.map w.numbers

/-! ### What the walk numbers -/

/-- Every numbered object off the stack `stack` of objects whose references are
still being walked has all its non-null references numbered. -/
def Closed (numbers : Nat → Nat) (stack : List Nat) : Prop :=
  ∀ p, numbers p ≠ 0 → p ∉ stack → ∀ e ∈ edges p, e.2 = 0 ∨ numbers e.2 ≠ 0

/-- The non-null objects a walk from `roots` can reach. -/
inductive Reachable (roots : List Nat) : Nat → Prop
  | root {p : Nat} : p ∈ roots → p ≠ 0 → Reachable roots p
  | edge {p o q : Nat} : Reachable roots p → (o, q) ∈ edges p → q ≠ 0 → Reachable roots q

/-- Every numbered object is reachable from `roots`. -/
def Sound (roots : List Nat) (numbers : Nat → Nat) : Prop :=
  ∀ q, numbers q ≠ 0 → Reachable edges roots q

/-- `Grows n n'`: every number of `n` stays in `n'`. -/
def Grows (numbers numbers' : Nat → Nat) : Prop := ∀ q, numbers q ≠ 0 → numbers' q ≠ 0

theorem Grows.refl (numbers : Nat → Nat) : Grows numbers numbers := fun _ h => h

theorem Grows.trans {n₁ n₂ n₃ : Nat → Nat} (h₁ : Grows n₁ n₂) (h₂ : Grows n₂ n₃) : Grows n₁ n₃ :=
  fun q h => h₂ q (h₁ q h)

variable {c edges}

theorem emit_number_pos {s : Visitor} {p : Nat} {a : Allotment} {v : Visitor}
    (h : s.emit c p = some (a, v)) : 0 < a.number := by
  simp only [Visitor.emit, Option.bind_eq_bind] at h
  obtain ⟨a', ha, h⟩ := Option.bind_eq_some.mp h
  obtain ⟨v', -, h⟩ := Option.bind_eq_some.mp h
  cases h
  obtain ⟨m, body, -, -, -, -, -, -, hcase⟩ := Visitor.allot_eq_some ha
  split at hcase <;> omega

variable {roots : List Nat}

/-- The reference loop of an object `p` numbered `n`: under the closure of the stack
with `p` on it, every reference it walks ends numbered. -/
theorem walkEdges_closed {fuel p n : Nat} {stack : List Nat} (hp : Reachable edges roots p)
    (ih : ∀ {w w' : Walk} {q : Nat}, walkObject c edges fuel w q = some w' →
      (q ≠ 0 → Reachable edges roots q) → Sound edges roots w.numbers →
      Closed edges w.numbers (p :: stack) →
      Sound edges roots w'.numbers ∧ Closed edges w'.numbers (p :: stack) ∧
        (q ≠ 0 → w'.numbers q ≠ 0) ∧ Grows w.numbers w'.numbers) :
    ∀ {l : List (Nat × Nat)} {w w' : Walk},
      l.foldlM (fun w e => do
          let w ← walkObject c edges fuel { w with visitor := w.visitor.push p n e.1 } e.2
          pure { w with visitor := w.visitor.pop }) w = some w' →
      (∀ e ∈ l, e ∈ edges p) → Sound edges roots w.numbers → Closed edges w.numbers (p :: stack) →
      Sound edges roots w'.numbers ∧ Closed edges w'.numbers (p :: stack) ∧
        (∀ e ∈ l, e.2 = 0 ∨ w'.numbers e.2 ≠ 0) ∧ Grows w.numbers w'.numbers
  | [], w, w', h, _, hsound, hclosed => by cases h; exact ⟨hsound, hclosed, by simp, Grows.refl _⟩
  | e :: l, w, w', h, hl, hsound, hclosed => by
      simp only [List.foldlM_cons, Option.bind_eq_bind] at h
      obtain ⟨w₁, h₁, h⟩ := Option.bind_eq_some.mp h
      obtain ⟨w₂, h₂, h₁⟩ := Option.bind_eq_some.mp h₁
      cases h₁
      have he := hl e (List.mem_cons_self _ _)
      obtain ⟨hsound₂, hclosed₂, hq, hgrow₂⟩ := ih h₂ (Reachable.edge hp he) hsound hclosed
      obtain ⟨hsound', hclosed', hrest, hgrow'⟩ :=
        walkEdges_closed hp ih h (fun e' he' => hl e' (List.mem_cons_of_mem _ he')) hsound₂ hclosed₂
      refine ⟨hsound', hclosed', ?_, hgrow₂.trans hgrow'⟩
      intro e' he'
      rcases List.mem_cons.mp he' with rfl | he'
      · by_cases hz : e'.2 = 0
        · exact .inl hz
        · exact .inr (hgrow' _ (hq hz))
      · exact hrest e' he'

/-- One object's walk, for an object the roots reach: it and, when new, its
references end numbered; the walk keeps every number, numbers only reachable
objects, and keeps the closure of everything off the stack. -/
theorem walkObject_closed :
    ∀ {fuel : Nat} {w w' : Walk} {p : Nat} {stack : List Nat},
      walkObject c edges fuel w p = some w' → (p ≠ 0 → Reachable edges roots p) →
      Sound edges roots w.numbers → Closed edges w.numbers stack →
      Sound edges roots w'.numbers ∧ Closed edges w'.numbers stack ∧
        (p ≠ 0 → w'.numbers p ≠ 0) ∧ Grows w.numbers w'.numbers
  | 0, _, _, _, _, h, _, _, _ => by cases h
  | fuel + 1, w, w', p, stack, h, hreach, hsound, hclosed => by
      unfold walkObject at h
      split at h
      · next hp => cases h; exact ⟨hsound, hclosed, absurd hp, Grows.refl _⟩
      split at h
      · next hnum =>
        obtain ⟨v, -, rfl⟩ := Option.map_eq_some'.mp h
        exact ⟨hsound, hclosed, fun _ => hnum, Grows.refl _⟩
      · next hp hnum =>
        simp only [Option.bind_eq_bind] at h
        obtain ⟨⟨a, v⟩, he, h⟩ := Option.bind_eq_some.mp h
        have hpos := emit_number_pos he
        have hgrow₀ : Grows w.numbers fun q => if q = p then a.number else w.numbers q := by
          intro q hq
          dsimp only
          split <;> omega
        have hsound₀ : Sound edges roots fun q => if q = p then a.number else w.numbers q := by
          intro q hq
          by_cases hqp : q = p
          · exact hqp ▸ hreach hp
          · simp only [hqp, if_false] at hq
            exact hsound q hq
        have hclosed₀ : Closed edges (fun q => if q = p then a.number else w.numbers q) (p :: stack) := by
          intro q hq hqs e he
          have hqp : q ≠ p := fun h => hqs (h ▸ List.mem_cons_self _ _)
          simp only [hqp, if_false] at hq
          rcases hclosed q hq (fun h => hqs (List.mem_cons_of_mem _ h)) e he with h | h
          · exact .inl h
          · exact .inr (hgrow₀ _ h)
        obtain ⟨hsound', hclosed', hedges, hgrow'⟩ :=
          walkEdges_closed (hreach hp) (fun h hq hs hc => walkObject_closed h hq hs hc) h
            (fun _ he => he) hsound₀ hclosed₀
        refine ⟨hsound', fun q hq hqs => ?_, fun _ => hgrow' p (by simp only [if_true]; omega),
          hgrow₀.trans hgrow'⟩
        by_cases hqp : q = p
        · exact hqp ▸ hedges
        · exact hclosed' q hq fun h => (List.mem_cons.mp h).elim hqp hqs

/-- The roots walked in turn: each root ends numbered. -/
theorem walkRoots_closed {fuel : Nat} :
    ∀ {rs : List Nat} {w w' : Walk}, rs.foldlM (visitRoot c edges fuel) w = some w' →
      (∀ r ∈ rs, r ∈ roots) → Sound edges roots w.numbers → Closed edges w.numbers [] →
      Sound edges roots w'.numbers ∧ Closed edges w'.numbers [] ∧
        (∀ r ∈ rs, r ≠ 0 → w'.numbers r ≠ 0) ∧ Grows w.numbers w'.numbers
  | [], w, w', h, _, hsound, hclosed => by cases h; exact ⟨hsound, hclosed, by simp, Grows.refl _⟩
  | r :: rs, w, w', h, hrs, hsound, hclosed => by
      simp only [List.foldlM_cons, Option.bind_eq_bind] at h
      obtain ⟨w₁, h₁, h⟩ := Option.bind_eq_some.mp h
      obtain ⟨hsound₁, hclosed₁, hr, hgrow₁⟩ :=
        walkObject_closed h₁ (Reachable.root (hrs r (List.mem_cons_self _ _))) hsound hclosed
      obtain ⟨hsound', hclosed', hrest, hgrow'⟩ :=
        walkRoots_closed h (fun r' hr' => hrs r' (List.mem_cons_of_mem _ hr')) hsound₁ hclosed₁
      refine ⟨hsound', hclosed', fun r' hr' hz => ?_, hgrow₁.trans hgrow'⟩
      rcases List.mem_cons.mp hr' with rfl | hr'
      · exact hgrow' _ (hr hz)
      · exact hrest r' hr' hz

theorem numbered_of_reachable {numbers : Nat → Nat} (hclosed : Closed edges numbers [])
    (hroots : ∀ r ∈ roots, r ≠ 0 → numbers r ≠ 0) {q : Nat} (hq : Reachable edges roots q) :
    numbers q ≠ 0 := by
  induction hq with
  | root hr hz => exact hroots _ hr hz
  | edge _ he hz ih =>
      rcases hclosed _ ih (List.not_mem_nil _) _ he with h | h
      · exact absurd h hz
      · exact h

/-- After `visitRoots`, an object has a number exactly when the roots reach it. -/
theorem numbered_iff_reachable {fuel : Nat} {heap : Memory} {r : Roots} {w : Walk}
    (h : visitRoots c edges fuel (init c.abi heap) r = some w) (q : Nat) :
    w.numbers q ≠ 0 ↔ Reachable edges r.toList q := by
  obtain ⟨hsound, hclosed, hroots, -⟩ := walkRoots_closed h (fun _ h => h)
    (fun _ h => absurd rfl h) (fun _ h => absurd rfl h)
  exact ⟨hsound q, numbered_of_reachable hclosed hroots⟩

/-! ### What the walk logs -/

theorem emit_allot {s : Visitor} {p : Nat} {a : Allotment} {v : Visitor}
    (h : s.emit c p = some (a, v)) : s.allot c p = some a := by
  simp only [Visitor.emit, Option.bind_eq_bind] at h
  obtain ⟨a', ha, h⟩ := Option.bind_eq_some.mp h
  obtain ⟨v', -, h⟩ := Option.bind_eq_some.mp h
  cases h
  exact ha

section Log

variable (P : Allotment → Prop) (Ctx : Walk → Nat → Prop)
  (hemit : ∀ {w : Walk} {p : Nat} {a : Allotment}, w.numbers p = 0 → Ctx w p →
    w.visitor.allot c p = some a → P a)
  (hchild : ∀ {w : Walk} {p n o q : Nat}, (o, q) ∈ edges p →
    Ctx { w with visitor := w.visitor.push p n o } q)

end Log

end Walk

/-! ### Walks of small heaps -/

/-- A boot class 300 and a string 200 that nothing refers to. -/
def stringRoots : Roots := ⟨[300], 0, 0, 0, [], []⟩

/-- The string map's entry for the string is 0 in the string table, while the boot
class has number 1. -/
theorem unreferenced_string_has_no_number :
    (Walk.visitRoots Visitor.inheritedContext (fun _ => []) 4
        (Walk.init Abi.native32 fun _ => 0) stringRoots).map
      (fun w => (w.table [300], w.table [200])) = some ([1], [0]) := by
  decide

/-- A class `C` (300, of the class type 500) whose `ClassStaticTable` slot, word 2,
holds its static table `T` (700). -/
def staticWalkRuntime : Runtime where
  objectClass p := if p = 700 then 600 else 500
  body p := if p = 700 then (Visitor.staticRuntime 4).body p else fun _ => 0
  classType := 500
  singletonType := 600
  isSystemClassLoader _ := false
  classStaticTable := 8

/-- The map of class objects: the class pointer and the static-table slot. -/
def classMap : TypeMap := ⟨3, 3, [⟨.object, 0, 0⟩, ⟨.object, 8, 8⟩], .normalKind, 0, 0, .none⟩

def staticWalkContext : Context :=
  ⟨Abi.native32, staticWalkRuntime, [(700, Visitor.staticNativeMap), (500, classMap)],
    3, 2 ^ 32 - 4, 30, 3⟩

/-- The references: `C`'s static-table slot. -/
def staticWalkEdges (p : Nat) : List (Nat × Nat) := if p = 300 then [(2, 700)] else []

theorem mem_staticWalkEdges {p o q : Nat} :
    (o, q) ∈ staticWalkEdges p ↔ p = 300 ∧ o = 2 ∧ q = 700 := by
  unfold staticWalkEdges
  split_ifs with hp <;> simp [hp]

/-- The walk from the boot class `C` numbers `T`, which it reaches through `C`'s
static-table slot, and leaves a string 200 that nothing refers to without a
number. -/
theorem static_walk_numbers :
    ∃ w, Walk.visitRoots staticWalkContext staticWalkEdges 4 (Walk.init Abi.native32 fun _ => 0)
        stringRoots = some w ∧
      (w.numbers 700 ≠ 0 ↔ Walk.Reachable staticWalkEdges stringRoots.toList 700) ∧
      (w.numbers 200 ≠ 0 ↔ Walk.Reachable staticWalkEdges stringRoots.toList 200) := by
  obtain ⟨w, h⟩ := Option.isSome_iff_exists.mp (by decide :
    (Walk.visitRoots staticWalkContext staticWalkEdges 4 (Walk.init Abi.native32 fun _ => 0)
      stringRoots).isSome)
  exact ⟨w, h, Walk.numbered_iff_reachable h 700, Walk.numbered_iff_reachable h 200⟩

end BootImage
