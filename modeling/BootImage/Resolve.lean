import BootImage.Memory

/-! The two passes that patch the immediates of the compiled code: the address
pass at the end of `makeCodeImage`, which stores each deferred intra-code address
as an offset from the code's start, and `updateConstants` after the heap walk,
which stores each heap constant's object number with `BootHeapOffset`. Each patch
ORs in `BootFlatConstant` for a flat immediate, copies the `target_uintptr_t` into
the code with `memcpy`, in host byte order, and marks the immediate's byte offset
in the code map, which `writeBootImage2` zeroed. What a listener reports (the
immediate's location and whether it is flat) is data here; the compiler that
makes the listeners, and the call pass that resolves them without marking the
code map, are not modelled. -/
namespace BootImage

/-- A deferred intra-code address: the basis's value and what its listener reports. -/
structure CodeAddress where
  value : Nat
  location : Nat
  flat : Bool
  deriving Repr, DecidableEq

/-- What one listener of a heap constant reports. -/
structure Listener where
  location : Nat
  flat : Bool
  deriving Repr, DecidableEq

/-- A deferred heap constant: its object and the listeners chained off it. -/
structure HeapConstant where
  object : Nat
  listeners : List Listener
  deriving Repr, DecidableEq

/-- What both passes read: the ABI, the code buffer's address, and the runtime's
`BootFlatConstant` and `BootHeapOffset` bits (their header is not under src/). -/
structure Resolver where
  abi : Abi
  code : Nat
  bootFlatConstant : Nat
  bootHeapOffset : Nat

/-- The code buffer's bytes by address, and the code map as its set bits. -/
structure CodeState where
  bytes : Memory
  codeMap : Nat → Bool

namespace Resolver

variable (r : Resolver)

/-- The tail both passes share: `offset |= BootFlatConstant` for a flat immediate,
`memcpy(location, &offset, TargetBytesPerWord)`, `expect(location >= code)` and
`markBit(codeMap, location - code)`. The `target_uintptr_t` keeps the low bytes of
`offset`, which are the bytes `bytesOf` takes. -/
def patch (s : CodeState) (location : Nat) (flat : Bool) (offset : Nat) : Option CodeState :=
  let offset := if flat then offset ||| r.bootFlatConstant else offset
  let bytes := s.bytes.write location (bytesOf r.abi.bigEndian r.abi.targetBytesPerWord offset)
  if r.code ≤ location then some ⟨bytes, fun i => i = location - r.code || s.codeMap i⟩
  else none

/-- One deferred address of `makeCodeImage`'s last loop: `expect(value >= code)`,
then the offset `value - code`. -/
def resolveAddress (s : CodeState) (a : CodeAddress) : Option CodeState :=
  if r.code ≤ a.value then r.patch s a.location a.flat (a.value - r.code) else none

/-- `updateConstants` for one constant, with `number` the heap map's `find`:
`expect(target > 0)`, then each listener gets `target | BootHeapOffset`. -/
def updateConstant (number : Nat → Nat) (s : CodeState) (c : HeapConstant) : Option CodeState :=
  if 0 < number c.object then
    c.listeners.foldlM (fun s l => r.patch s l.location l.flat (number c.object ||| r.bootHeapOffset)) s
  else none

/-- The code as `writeBootImage2` leaves it: the code map zeroed, every deferred
address resolved in `makeCodeImage`, and, once the heap walk has numbered the
objects, every heap constant's listeners. -/
def resolveCode (number : Nat → Nat) (code : Memory) (addresses : List CodeAddress)
    (constants : List HeapConstant) : Option CodeState := do
  let s ← addresses.foldlM r.resolveAddress ⟨code, fun _ => false⟩
  constants.foldlM (r.updateConstant number) s

/-! ### What the passes should leave -/

/-- `flat ? BootFlatConstant : 0`. -/
def flatBits (flat : Bool) : Nat := if flat then r.bootFlatConstant else 0

/-- Every immediate the passes patch, with the word it should hold: `(v - code) |
flat` for an address, `n | BootHeapOffset | flat` for a listener of a constant
whose object has number `n`. -/
def patches (number : Nat → Nat) (addresses : List CodeAddress)
    (constants : List HeapConstant) : List (Nat × Nat) :=
  addresses.map (fun a => (a.location, (a.value - r.code) ||| r.flatBits a.flat)) ++
    constants.flatMap fun c => c.listeners.map fun l =>
      (l.location, number c.object ||| r.bootHeapOffset ||| r.flatBits l.flat)

/-- The target words at two locations share no byte. -/
def Apart (location location' : Nat) : Prop :=
  location + r.abi.targetBytesPerWord ≤ location' ∨ location' + r.abi.targetBytesPerWord ≤ location

/-- What a run of patches leaves on the zeroed code map: each patched immediate
holds its word's bytes, in host byte order, and the code map has exactly the
patched byte offsets set. -/
structure Patched (s : CodeState) (ps : List (Nat × Nat)) : Prop where
  above : ∀ p ∈ ps, r.code ≤ p.1
  holds : ∀ p ∈ ps, s.bytes.read p.1 r.abi.targetBytesPerWord =
    bytesOf r.abi.bigEndian r.abi.targetBytesPerWord p.2
  marked : ∀ i, s.codeMap i = true ↔ ∃ p ∈ ps, i = p.1 - r.code

variable {r}

theorem patched_start (code : Memory) : r.Patched ⟨code, fun _ => false⟩ [] :=
  ⟨by simp, by simp, by simp⟩

theorem flat_or (offset : Nat) (flat : Bool) :
    (if flat then offset ||| r.bootFlatConstant else offset) = offset ||| r.flatBits flat := by
  cases flat <;> simp [flatBits]

/-- One patch writes its word at its location and marks it, above the code's start. -/
theorem patch_eq_some {s s' : CodeState} {location offset : Nat} {flat : Bool}
    (h : r.patch s location flat offset = some s') :
    r.code ≤ location ∧ s' = ⟨s.bytes.write location (bytesOf r.abi.bigEndian
      r.abi.targetBytesPerWord (offset ||| r.flatBits flat)),
        fun i => i = location - r.code || s.codeMap i⟩ := by
  unfold patch at h
  rw [flat_or] at h
  split at h
  · exact ⟨‹_›, (Option.some.inj h).symm⟩
  · cases h

/-- A patch apart from every earlier one keeps them and adds its own. -/
theorem Patched.patch {s s' : CodeState} {ps : List (Nat × Nat)} {location offset : Nat}
    {flat : Bool} (hs : r.Patched s ps)
    (hapart : ∀ p ∈ ps, r.Apart p.1 location) (h : r.patch s location flat offset = some s') :
    r.Patched s' (ps ++ [(location, offset ||| r.flatBits flat)]) := by
  obtain ⟨hcode, rfl⟩ := patch_eq_some h
  refine ⟨?_, ?_, fun i => ?_⟩
  · simp only [List.mem_append, List.mem_singleton]
    rintro p (hp | rfl)
    · exact hs.above p hp
    · exact hcode
  · simp only [List.mem_append, List.mem_singleton]
    rintro p (hp | rfl)
    · rw [← hs.holds p hp]
      refine Memory.read_congr fun k hk => Memory.write_apply_of_not_mem ?_
      have := hapart p hp
      simp only [Apart, length_bytesOf] at this ⊢
      omega
    · exact Memory.read_write_of_length (length_bytesOf _ _ _)
  · simp only [Bool.or_eq_true, decide_eq_true_eq, hs.marked i, List.mem_append,
      List.mem_singleton]
    constructor
    · rintro (rfl | ⟨p, hp, rfl⟩)
      · exact ⟨_, .inr rfl, rfl⟩
      · exact ⟨p, .inl hp, rfl⟩
    · rintro ⟨p, hp | rfl, rfl⟩
      · exact .inr ⟨p, hp, rfl⟩
      · exact .inl rfl

/-- A pass whose every step adds its entries' patches, apart from all patches
before and after, adds them all. -/
theorem Patched.foldlM {α : Type} (f : CodeState → α → Option CodeState)
    (entries : α → List (Nat × Nat))
    (hstep : ∀ s ps x s', r.Patched s ps → ((ps ++ entries x).map Prod.fst).Pairwise r.Apart →
      f s x = some s' → r.Patched s' (ps ++ entries x)) :
    ∀ (xs : List α) (s s' : CodeState) (ps : List (Nat × Nat)), r.Patched s ps →
      ((ps ++ xs.flatMap entries).map Prod.fst).Pairwise r.Apart →
      xs.foldlM f s = some s' → r.Patched s' (ps ++ xs.flatMap entries)
  | [], s, s', ps, hs, _, h => by
      cases h
      simpa using hs
  | x :: xs, s, s', ps, hs, hapart, h => by
      simp only [List.foldlM_cons, Option.bind_eq_bind] at h
      obtain ⟨s₁, h₁, h⟩ := Option.bind_eq_some.mp h
      rw [List.flatMap_cons, ← List.append_assoc] at hapart ⊢
      refine Patched.foldlM f entries hstep xs s₁ s' _ (hstep s ps x s₁ hs ?_ h₁) hapart h
      rw [List.map_append] at hapart
      exact (List.pairwise_append.mp hapart).1

/-- A step that is one patch, apart from every patch before it. -/
theorem Patched.single {s s' : CodeState} {ps : List (Nat × Nat)} {location offset : Nat}
    {flat : Bool} (hs : r.Patched s ps)
    (hapart : ((ps ++ [(location, offset ||| r.flatBits flat)]).map Prod.fst).Pairwise r.Apart)
    (h : r.patch s location flat offset = some s') :
    r.Patched s' (ps ++ [(location, offset ||| r.flatBits flat)]) := by
  refine hs.patch (fun p hp => ?_) h
  rw [List.map_append, List.pairwise_append] at hapart
  exact hapart.2.2 _ (List.mem_map_of_mem _ hp) _ (List.mem_singleton_self _)

/-- The address pass adds one patch for each address. -/
theorem Patched.resolveAddresses {addresses : List CodeAddress} {s s' : CodeState}
    {ps : List (Nat × Nat)} (hs : r.Patched s ps)
    (hapart : ((ps ++ addresses.map fun a => (a.location, (a.value - r.code) ||| r.flatBits a.flat)).map
      Prod.fst).Pairwise r.Apart)
    (h : addresses.foldlM r.resolveAddress s = some s') :
    r.Patched s' (ps ++ addresses.map fun a => (a.location, (a.value - r.code) ||| r.flatBits a.flat)) := by
  rw [List.map_eq_flatMap (fun a : CodeAddress => (a.location, (a.value - r.code) ||| r.flatBits a.flat))]
    at hapart ⊢
  refine Patched.foldlM _ _ (fun s ps a s' hs hapart h => ?_) addresses s s' ps hs hapart h
  unfold resolveAddress at h
  split at h
  · exact hs.single hapart h
  · cases h

/-- `updateConstants` adds one patch for each listener of each constant. -/
theorem Patched.updateConstants {number : Nat → Nat} {constants : List HeapConstant}
    {s s' : CodeState} {ps : List (Nat × Nat)} (hs : r.Patched s ps)
    (hapart : ((ps ++ constants.flatMap fun c => c.listeners.map fun l =>
      (l.location, number c.object ||| r.bootHeapOffset ||| r.flatBits l.flat)).map Prod.fst).Pairwise
        r.Apart)
    (h : constants.foldlM (r.updateConstant number) s = some s') :
    r.Patched s' (ps ++ constants.flatMap fun c => c.listeners.map fun l =>
      (l.location, number c.object ||| r.bootHeapOffset ||| r.flatBits l.flat)) := by
  refine Patched.foldlM _ _ (fun s ps c s' hs hapart h => ?_) constants s s' ps hs hapart h
  unfold updateConstant at h
  split at h
  · rw [List.map_eq_flatMap (fun l : Listener =>
      (l.location, number c.object ||| r.bootHeapOffset ||| r.flatBits l.flat))] at hapart ⊢
    exact Patched.foldlM _ _ (fun s ps l s' hs hapart h => hs.single hapart h)
      c.listeners s s' ps hs hapart h
  · cases h

/-- After `writeBootImage2`, when the target words of all patched immediates are
apart: each holds its word in host byte order, and the code map has exactly the
immediates' byte offsets from the code's start set. -/
theorem resolveCode_patched {number : Nat → Nat} {code : Memory}
    {addresses : List CodeAddress} {constants : List HeapConstant} {s : CodeState}
    (h : r.resolveCode number code addresses constants = some s)
    (hapart : ((r.patches number addresses constants).map Prod.fst).Pairwise r.Apart) :
    r.Patched s (r.patches number addresses constants) := by
  simp only [resolveCode, Option.bind_eq_bind] at h
  obtain ⟨s₁, h₁, h⟩ := Option.bind_eq_some.mp h
  have hfirst := (patched_start code).resolveAddresses (by
    rw [List.nil_append]
    rw [patches, List.map_append, List.pairwise_append] at hapart
    exact hapart.1) h₁
  rw [List.nil_append] at hfirst
  exact hfirst.updateConstants hapart h

/-! ### When the passes finish -/

/-- A pass finishes iff each of its steps would, when whether a step finishes does
not depend on the state it starts from. -/
theorem foldlM_isSome_iff {α : Type} {f : CodeState → α → Option CodeState} {P : α → Prop}
    (hf : ∀ s x, (f s x).isSome ↔ P x) :
    ∀ (xs : List α) (s : CodeState), (xs.foldlM f s).isSome ↔ ∀ x ∈ xs, P x
  | [], _ => by simp
  | x :: xs, s => by
      simp only [List.foldlM_cons, Option.bind_eq_bind, List.mem_cons, forall_eq_or_imp]
      have hx := hf s x
      cases h : f s x with
      | none => simp only [h, Option.isSome_none, Bool.false_eq_true, false_iff] at hx ⊢; tauto
      | some s₁ =>
          simp only [h, Option.isSome_some, true_iff] at hx
          simp only [Option.some_bind, foldlM_isSome_iff hf xs s₁, hx, true_and]

theorem patch_isSome {s : CodeState} {location offset : Nat} {flat : Bool} :
    (r.patch s location flat offset).isSome ↔ r.code ≤ location := by
  unfold patch
  split <;> simp_all

/-- `writeBootImage2` gets through both passes iff every `expect` holds: each
address's value and location are at or above the code's start, and each constant's
object has a nonzero number and its listeners' locations are at or above it. -/
theorem resolveCode_isSome_iff {number : Nat → Nat} {code : Memory}
    {addresses : List CodeAddress} {constants : List HeapConstant} :
    (r.resolveCode number code addresses constants).isSome ↔
      (∀ a ∈ addresses, r.code ≤ a.value ∧ r.code ≤ a.location) ∧
      ∀ c ∈ constants, 0 < number c.object ∧ ∀ l ∈ c.listeners, r.code ≤ l.location := by
  have haddress : ∀ s a, (r.resolveAddress s a).isSome ↔ r.code ≤ a.value ∧ r.code ≤ a.location :=
    fun s a => by
      unfold resolveAddress
      split <;> simp_all [patch_isSome]
  have hconstant : ∀ s c, (r.updateConstant number s c).isSome ↔
      0 < number c.object ∧ ∀ l ∈ c.listeners, r.code ≤ l.location := fun s c => by
    unfold updateConstant
    split
    · have hlistener : ∀ s (l : Listener),
          (r.patch s l.location l.flat (number c.object ||| r.bootHeapOffset)).isSome ↔
            r.code ≤ l.location := fun _ _ => patch_isSome
      simp only [‹0 < number c.object›, true_and]
      exact foldlM_isSome_iff hlistener c.listeners s
    · exact iff_of_false nofun fun h => ‹¬0 < number c.object› h.1
  simp only [resolveCode, Option.bind_eq_bind]
  cases h : addresses.foldlM r.resolveAddress ⟨code, fun _ => false⟩ with
  | none =>
      have := (foldlM_isSome_iff haddress addresses ⟨code, fun _ => false⟩).not
      simp only [h, Option.isSome_none, Bool.false_eq_true, not_false_eq_true, true_iff] at this
      simp only [Option.none_bind, Option.isSome_none, Bool.false_eq_true, false_iff, not_and]
      exact fun h' => absurd h' this
  | some s₁ =>
      have := foldlM_isSome_iff haddress addresses ⟨code, fun _ => false⟩
      simp only [h, Option.isSome_some, true_iff] at this
      rw [Option.some_bind, foldlM_isSome_iff hconstant constants s₁]
      exact ⟨fun h => ⟨this, h⟩, And.right⟩

/-- A patched word as the target reads it, in its own byte order. Where the
host's differs, the bytes `memcpy` wrote in host order read as the word with its
bytes reversed. -/
theorem valueOf_bytesOf_of_ne {bigEndian targetBigEndian : Bool} (h : bigEndian ≠ targetBigEndian)
    (width value : Nat) :
    valueOf targetBigEndian (bytesOf bigEndian width value) = swapBytes width value := by
  cases bigEndian <;> cases targetBigEndian <;> simp_all [valueOf, bytesOf, swapBytes]

end Resolver

/-- A 32-bit little-endian host building for a 32-bit big-endian target, with the
code at 0x1000 and any `BootFlatConstant` and `BootHeapOffset`: the address 0x1008,
deferred at 0x1000 and not flat, is patched with the offset 8 in host byte order, so
the target reads 0x08000000 there; the code map's bit 0 is set. -/
theorem address_patch_reads_swapped (code : Memory) (flatConstant heapOffset : Nat)
    (number : Nat → Nat) :
    ((⟨Abi.bigEndian32, 0x1000, flatConstant, heapOffset⟩ : Resolver).resolveCode number code
      [⟨0x1008, 0x1000, false⟩] []).map (fun s => (valueOf true (s.bytes.read 0x1000 4),
        s.codeMap 0)) = some (0x08000000, true) := by
  have hsome : ((⟨Abi.bigEndian32, 0x1000, flatConstant, heapOffset⟩ : Resolver).resolveCode
      number code [⟨0x1008, 0x1000, false⟩] []).isSome :=
    Resolver.resolveCode_isSome_iff.mpr ⟨by simp, fun _ h => absurd h (List.not_mem_nil _)⟩
  obtain ⟨s, hs⟩ := Option.isSome_iff_exists.mp hsome
  have hp := Resolver.resolveCode_patched hs (List.pairwise_singleton _ _)
  have hbytes := hp.holds _ (List.mem_cons_self _ _)
  simp only [Resolver.flatBits, Bool.false_eq_true, ↓reduceIte, Nat.or_zero, Abi.bigEndian32]
    at hbytes
  have hmark : s.codeMap 0 = true :=
    (hp.marked 0).mpr ⟨_, List.mem_cons_self _ _, (Nat.sub_self _).symm⟩
  rw [hs, Option.map_some', hbytes, hmark, Resolver.valueOf_bytesOf_of_ne (by decide)]
  decide

end BootImage
