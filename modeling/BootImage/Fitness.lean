import BootImage.Fixie
import BootImage.Consistency

/-! The TypeMaps `writeBootImage2` builds are ones the heap walk can use. The walk's
results over the heap (`Walk.walk_keeps` and its instances) ask three things of
every map: `copy` writes only inside the object it transcribes, the fields' target
ranges are disjoint, and every scalar field lies past word 0, the class pointer's,
into which `FixedMark` is or-ed. Each builder gives them: the class pointer is the
first field it places, and the alignment loops place every other field after it.
What the builders do not check is taken as a premise of the class entry: the VM
assigned its fields' build offsets, a class with a static table has a static
field, and its pool tags are those the scan of a well-formed class file writes.

From these the walk's results hold for the maps the writer itself makes, and the
walker's own premise (it reports only reference slots) is the one left. -/

namespace BootImage

variable {abi : Abi}

/-- What the heap walk needs of a TypeMap: `copy` stays inside the object, the
fields' target ranges are disjoint, and every scalar field lies past word 0. -/
structure TypeMap.Walkable (abi : Abi) (m : TypeMap) : Prop where
  wellFormed : m.WellFormed abi
  disjoint : m.fixedFields.Pairwise (Field.Disjoint abi)
  header : ∀ f ∈ m.fixedFields, f.type ≠ .object → abi.targetBytesPerWord ≤ f.targetOffset

/-- The premises the builders do not check, for one class entry. -/
structure ClassEntry.Fits (abi : Abi) (e : ClassEntry) : Prop where
  assigned : ∀ table, e.fieldTable = some table → OffsetsAssigned abi table
  statics : ∀ table, e.fieldTable = some table → e.staticTable ≠ 0 → ∃ f ∈ table, f.isStatic = true
  pool : e.poolCount ≠ 0 → ∃ cf : ClassFile, poolScan cf.encode = some ⟨e.poolCount, e.poolTypes, some cf.rest⟩

/-- The premises of a VM type's descriptor: recognized tags, and the array marker
only second to last. -/
def DescriptorFits (abi : Abi) (source : List Ty) : Prop :=
  (∀ tag ∈ source, (descriptorType abi tag).isSome) ∧ ∀ i, source[i]? = some .array → i + 2 = source.length

namespace TypeMap

/-- A consistent map's fields fit its fixed part, each with a width `copy` supports. -/
theorem Consistent.fields_fit {m : TypeMap} (hc : m.Consistent abi) :
    ∀ f ∈ m.fixedFields, ∃ w ∈ copyWidth abi f.type,
      f.targetOffset + w ≤ m.targetFixedSizeInWords * abi.targetBytesPerWord := fun f hf => by
  obtain ⟨w, hw⟩ := Option.isSome_iff_exists.mp (hc.supported f hf)
  refine ⟨w, hw, ?_⟩
  simpa only [Field.targetEnd, hw, Option.getD_some] using hc.fits f hf

end TypeMap

/-- Fields an alignment loop packed after the class pointer lie past word 0. -/
theorem Packed.header {rest : List Field} {next : Nat}
    (hp : Packed abi (⟨.object, 0, 0⟩ :: rest) next) :
    ∀ f ∈ (⟨.object, 0, 0⟩ :: rest : List Field), f.type ≠ .object →
      abi.targetBytesPerWord ≤ f.targetOffset := by
  intro f hf hobj
  rcases List.mem_cons.mp hf with rfl | hf
  · exact absurd rfl hobj
  · simpa [Field.targetEnd, copyWidth] using List.rel_of_pairwise_cons hp.ordered hf

/-- The class pointer's word ends at or before the end of a packed layout. -/
theorem Packed.word_le {rest : List Field} {next : Nat} (hp : Packed abi (⟨.object, 0, 0⟩ :: rest) next) :
    abi.targetBytesPerWord ≤ next := by
  simpa [Field.targetEnd, copyWidth] using hp.fits _ (List.mem_cons_self _ _)

theorem zero_lt_ceiling {n d : Nat} (hd : 0 < d) (h : 0 < n) : 0 < ceiling n d := by
  simpa using lt_ceiling_of_lt_mul hd h

/-! ### Class field tables -/

/-- What every pass of the field-table loop keeps, of each layout it places into. -/
theorem layoutFields_keeps (I₁ I₂ : Placement → Prop)
    (h₁ : ∀ p type size offset, 0 < size → I₁ p → I₁ (p.place type size offset))
    (h₂ : ∀ p type size offset, 0 < size → I₂ p → I₂ (p.place type size offset)) :
    ∀ (table : List FieldInfo) (acc r : Placement × Placement),
      table.foldlM (fun acc field => (fieldType abi field.code).map fun (type, size) =>
          if field.isStatic then (acc.1, acc.2.place type size field.offset)
          else (acc.1.place type size field.offset, acc.2)) acc = some r →
      I₁ acc.1 → I₂ acc.2 → I₁ r.1 ∧ I₂ r.2
  | [], acc, r, h, hi₁, hi₂ => by cases h; exact ⟨hi₁, hi₂⟩
  | fi :: table, acc, r, h, hi₁, hi₂ => by
      simp only [List.foldlM_cons, Option.bind_eq_bind] at h
      obtain ⟨acc', hstep, h⟩ := Option.bind_eq_some.mp h
      obtain ⟨⟨type, size⟩, hft, rfl⟩ := Option.map_eq_some'.mp hstep
      obtain ⟨-, -, hsize, -⟩ := fieldType_width hft
      dsimp only at h
      cases hs : fi.isStatic
      · simp only [hs, Bool.false_eq_true, if_false] at h
        exact layoutFields_keeps I₁ I₂ h₁ h₂ table _ r h (h₁ _ _ _ _ hsize hi₁) hi₂
      · simp only [hs, if_true] at h
        exact layoutFields_keeps I₁ I₂ h₁ h₂ table _ r h hi₁ (h₂ _ _ _ _ hsize hi₂)

/-- A placement that starts with the class pointer keeps it first. -/
def Placement.Headed (p : Placement) : Prop := ∃ rest, p.fields = ⟨.object, 0, 0⟩ :: rest

/-- A static-table placement keeps its two header fields first, reaches past them,
and goes beyond them once a static is placed. -/
def Placement.StaticHeaded (abi : Abi) (p : Placement) : Prop :=
  ∃ rest, p.fields = ⟨.object, 0, 0⟩ :: ⟨.intptr_t, abi.bytesPerWord, abi.targetBytesPerWord⟩ :: rest ∧
    2 * abi.targetBytesPerWord ≤ p.next ∧ (rest ≠ [] → 2 * abi.targetBytesPerWord < p.next)

theorem Placement.Headed.place {p : Placement} (h : p.Headed) (type : Ty) (size offset : Nat) :
    (p.place type size offset).Headed :=
  let ⟨rest, hp⟩ := h
  ⟨rest ++ [⟨type, offset, alignUp p.next size⟩], by simp [Placement.place, hp]⟩

theorem Placement.StaticHeaded.place {p : Placement} (h : p.StaticHeaded abi) (type : Ty) {size : Nat}
    (hsize : 0 < size) (offset : Nat) : (p.place type size offset).StaticHeaded abi := by
  obtain ⟨rest, hp, hnext, -⟩ := h
  have := alignUp_ge p.next hsize
  refine ⟨rest ++ [⟨type, offset, alignUp p.next size⟩], by simp [Placement.place, hp], ?_, fun _ => ?_⟩ <;>
    simp only [Placement.place] <;> omega

/-- The maps of a class's field table, for an entry that fits, are walkable: the
instance map and, when the class has a static table, the static-table map. -/
theorem fieldMaps_walkable {e : ClassEntry} {table : List FieldInfo} {ms : TypeMaps}
    (hassigned : OffsetsAssigned abi table)
    (hstatics : e.staticTable ≠ 0 → ∃ f ∈ table, f.isStatic = true)
    (h : e.fieldMaps abi table = some ms) : ∀ km ∈ ms, km.2.Walkable abi := by
  have hcons := fieldMaps_consistent hassigned h
  simp only [ClassEntry.fieldMaps, Option.bind_eq_bind] at h
  obtain ⟨⟨members, statics⟩, hlayout, h⟩ := Option.bind_eq_some.mp h
  obtain ⟨instanceMap, hinstance, h⟩ := Option.bind_eq_some.mp h
  obtain ⟨hp₁, hp₂, -, ho₂⟩ := layoutFields_run table _ _ hlayout memberStart_packed staticStart_packed
  obtain ⟨⟨rest₁, hf₁⟩, ⟨rest₂, hf₂, hnext₂, hgrow₂⟩⟩ : members.Headed ∧ statics.StaticHeaded abi :=
    layoutFields_keeps Placement.Headed (Placement.StaticHeaded abi)
      (fun _ _ _ _ _ h => h.place _ _ _) (fun _ _ _ _ hs h => h.place _ hs _) table _ _ hlayout
      ⟨[], rfl⟩ ⟨[], rfl, Nat.le_refl _, fun h => absurd rfl h⟩
  have hword := abi.targetBytesPerWord_pos
  -- the instance map: the class pointer, then the instance fields
  have hinst : instanceMap.Consistent abi → instanceMap.Walkable abi := fun hc => by
    obtain ⟨rfl, -⟩ := checked_eq_some hinstance
    rw [hf₁] at hp₁
    exact ⟨⟨zero_lt_ceiling hword (lt_of_lt_of_le hword hp₁.word_le), hc.fields_fit,
      fun h => absurd rfl h, fun _ h => absurd rfl h⟩, hc.disjoint, by rw [hf₁]; exact hp₁.header⟩
  -- the static-table map: the two header words, then at least one static
  have hstatic : ∀ m, staticMap abi e.singletonCount statics = some m → e.staticTable ≠ 0 →
      m.Consistent abi → m.Walkable abi := fun m hm hst hc => by
    obtain ⟨rfl, -⟩ := checked_eq_some hm
    obtain ⟨f, hf, hfs⟩ := hstatics hst
    have hrest : rest₂ ≠ [] := by
      have hlen := congrArg List.length ho₂
      simp only [List.length_map, hf₂, staticStart, List.length_cons, List.length_append,
        List.length_nil] at hlen
      have : 0 < (table.filter (·.isStatic)).length :=
        List.length_pos_of_mem (List.mem_filter.mpr ⟨hf, hfs⟩)
      exact List.ne_nil_of_length_pos (by omega)
    rw [hf₂] at hp₂
    refine ⟨⟨zero_lt_ceiling hword (by omega), hc.fields_fit, fun h => absurd rfl h, fun _ _ => ?_⟩,
      hc.disjoint, by rw [hf₂]; exact hp₂.header⟩
    refine ⟨?_, fun h => by cases h⟩
    have := lt_ceiling_of_lt_mul hword (hgrow₂ hrest)
    rwa [Nat.mul_div_cancel _ hword] at this
  intro km hkm
  have hc := hcons km hkm
  split at h
  · next hst =>
    obtain ⟨staticMaps, hstaticMaps, h⟩ := Option.bind_eq_some.mp h
    obtain ⟨m, hm, rfl⟩ := Option.map_eq_some'.mp hstaticMaps
    cases h
    simp only [List.singleton_append, List.mem_cons, List.mem_singleton, List.not_mem_nil,
      or_false] at hkm
    rcases hkm with rfl | rfl
    · exact hstatic _ hm hst hc
    · exact hinst hc
  · cases h
    obtain rfl := List.mem_singleton.mp hkm
    exact hinst hc

/-! ### Constant pools -/

/-- The pool map of a class file's pool is walkable: its first slot is the class
pointer, every slot after it lies past word 0, and a nonempty pool has a body past
the two header slots. -/
theorem poolMap_walkable (cf : ClassFile) (hslots : cf.slots ≠ 0) :
    (poolMap abi ([.object, .intptr_t] ++ cf.pool.flatMap Constant.slotTypes) cf.slots).Walkable abi := by
  have hlt := cf.poolCount_lt
  have hu : u32 (cf.slots + 2) = cf.slots + 2 := by
    simp only [u32, ClassFile.slots] at hlt ⊢
    omega
  have hlen : ([.object, .intptr_t] ++ cf.pool.flatMap Constant.slotTypes : List Ty).length =
      u32 (cf.slots + 2) := by
    rw [hu]
    simp [ClassFile.slots]
  have hc := @poolMap_consistent abi _ _ hlen (slotWidths_classFile cf)
  refine ⟨⟨?_, hc.fields_fit, fun h => absurd rfl h, fun _ _ => ⟨?_, fun _ => ?_⟩⟩, hc.disjoint, ?_⟩
  · simp only [poolMap, hu]
    omega
  · simp only [poolMap, hu]
    omega
  · simp [poolMap, TypeMap.fixedFieldCount]
  · simp only [poolMap, List.mem_map, List.mem_range]
    rintro f ⟨i, -, rfl⟩ hobj
    rcases Nat.eq_zero_or_pos i with rfl | hi
    · exact absurd rfl hobj
    · exact Nat.le_mul_of_pos_left _ hi

/-- The pool map of an entry that fits is walkable. -/
theorem ClassEntry.Fits.poolMaps_walkable {e : ClassEntry} (hfits : e.Fits abi) :
    ∀ km ∈ e.poolMaps abi, km.2.Walkable abi := by
  unfold ClassEntry.poolMaps
  split
  · next hcount =>
    obtain ⟨cf, hscan⟩ := hfits.pool hcount
    rw [ClassFile.poolScan_encode, Option.some.injEq, PoolScan.mk.injEq] at hscan
    obtain ⟨hslots, htypes, -⟩ := hscan
    rw [← hslots] at hcount ⊢
    rw [if_neg hcount] at htypes
    rintro km hkm
    obtain rfl := List.mem_singleton.mp hkm
    rw [← htypes]
    exact poolMap_walkable cf hcount
  · exact fun _ h => absurd h (List.not_mem_nil _)

/-! ### VM type descriptors -/

/-- The map of a VM type whose descriptor fits is made and is walkable: the loop's
first slot is the class pointer, and the element of a tail array is one `copy`
supports. -/
theorem descriptorMap_walkable {source : List Ty} (hfits : DescriptorFits abi source) :
    ∃ m, descriptorMap abi source = some m ∧ m.Walkable abi := by
  obtain ⟨st, hinv, b, t, e, h, helem, rest, hhead⟩ := descriptorMap_eq_some hfits.1 hfits.2
  obtain ⟨m, hm, hc⟩ := descriptorMap_consistent hfits.1 hfits.2
  obtain rfl := Option.some.inj (hm.symm.trans h)
  have hp := hinv.packed
  rw [hhead] at hp
  exact ⟨_, h, ⟨⟨zero_lt_ceiling abi.targetBytesPerWord_pos
      (lt_of_lt_of_le abi.targetBytesPerWord_pos hp.word_le), hc.fields_fit, helem,
      fun _ h => absurd rfl h⟩, hc.disjoint, fun f hf => hp.header f (by rw [← hhead]; exact hf)⟩⟩

/-! ### The writer's maps -/

/-- Every map of a selected entry that fits is walkable. -/
theorem ClassEntry.Fits.maps_walkable {e : ClassEntry} (hfits : e.Fits abi) {ms : TypeMaps}
    (h : e.maps abi = some ms) : ∀ km ∈ ms, km.2.Walkable abi := by
  unfold ClassEntry.maps at h
  split at h
  · cases h
    exact hfits.poolMaps_walkable
  · next table htable =>
    obtain ⟨fms, hfms, rfl⟩ := Option.map_eq_some'.mp h
    intro km hkm
    rcases List.mem_append.mp hkm with hkm | hkm
    · exact fieldMaps_walkable (hfits.assigned table htable) (hfits.statics table htable) hfms km hkm
    · exact hfits.poolMaps_walkable km hkm

variable {selected : String → Bool}

/-- Every map the class loop inserts was there before it or is a map of a selected
entry. -/
theorem mem_codeImageMaps : ∀ {entries : List ClassEntry} {acc typeMaps : TypeMaps},
    entries.foldlM (fun acc e => if selected e.name then (e.maps abi).map (· ++ acc) else some acc)
      acc = some typeMaps →
    ∀ km ∈ typeMaps, km ∈ acc ∨ ∃ e ∈ entries, selected e.name = true ∧ ∃ ms, e.maps abi = some ms ∧ km ∈ ms
  | [], _, _, h => by cases h; exact fun _ hkm => .inl hkm
  | e :: entries, acc, typeMaps, h => by
      simp only [List.foldlM_cons, Option.bind_eq_bind] at h
      obtain ⟨acc', hacc', h⟩ := Option.bind_eq_some.mp h
      intro km hkm
      rcases mem_codeImageMaps h km hkm with hkm | ⟨e', he', hsel, ms, hms, hkm⟩
      · split at hacc'
        · next hsel =>
          obtain ⟨ms, hms, rfl⟩ := Option.map_eq_some'.mp hacc'
          rcases List.mem_append.mp hkm with hkm | hkm
          · exact .inr ⟨e, List.mem_cons_self _ _, hsel, ms, hms, hkm⟩
          · exact .inl hkm
        · cases hacc'
          exact .inl hkm
      · exact .inr ⟨e', List.mem_cons_of_mem _ he', hsel, ms, hms, hkm⟩

/-- Every map the VM-type loop leaves was there before it or is a descriptor map. -/
theorem mem_vmTypeMaps : ∀ {types : List (Nat × List Ty)} {acc typeMaps : TypeMaps},
    vmTypeMaps abi types acc = some typeMaps →
    ∀ km ∈ typeMaps, km ∈ acc ∨ ∃ t ∈ types, descriptorMap abi t.2 = some km.2
  | [], _, _, h => by cases h; exact fun _ hkm => .inl hkm
  | t :: types, acc, typeMaps, h => by
      simp only [vmTypeMaps, List.foldlM_cons, Option.bind_eq_bind] at h
      obtain ⟨acc', hacc', h⟩ := Option.bind_eq_some.mp h
      obtain ⟨m, hm, rfl⟩ := Option.map_eq_some'.mp hacc'
      intro km hkm
      rcases mem_vmTypeMaps h km hkm with hkm | ⟨t', ht', hd⟩
      · rcases List.mem_cons.mp hkm with rfl | hkm
        · exact .inr ⟨t, List.mem_cons_self _ _, hm⟩
        · exact .inl (List.mem_of_mem_filter hkm)
      · exact .inr ⟨t', List.mem_cons_of_mem _ ht', hd⟩

/-- The TypeMaps `writeBootImage2` builds are walkable. When every selected class
entry fits (the VM assigned its fields' build offsets, a class with a static table
has a static field, and its pool tags are those the scan of a well-formed class
file writes) and every VM type's descriptor has recognized tags with the array
marker, if any, second to last, every map the writer hands the heap walk keeps
`copy` inside its object, has disjoint field ranges, and has every scalar field
past word 0. -/
theorem writerTypeMaps_walkable {entries : List ClassEntry} {types : List (Nat × List Ty)}
    {typeMaps : TypeMaps} (hentries : ∀ e ∈ entries, selected e.name = true → e.Fits abi)
    (htypes : ∀ t ∈ types, DescriptorFits abi t.2)
    (h : writerTypeMaps abi selected entries types = some typeMaps) :
    ∀ key m, (key, m) ∈ typeMaps → m.Walkable abi := by
  obtain ⟨maps, hmaps, h⟩ := Option.bind_eq_some.mp h
  intro key m hkm
  rcases mem_vmTypeMaps h _ hkm with hkm | ⟨t, ht, hd⟩
  · rcases mem_codeImageMaps hmaps _ hkm with hkm | ⟨e, he, hsel, ms, hms, hkm⟩
    · exact absurd hkm (List.not_mem_nil _)
    · exact (hentries e he hsel).maps_walkable hms _ hkm
  · obtain ⟨m', hm', hw⟩ := descriptorMap_walkable (htypes t ht)
    exact (Option.some.inj (hm'.symm.trans hd) : m' = m) ▸ hw

/-- A class `A` (300) with one `int` instance field, and the VM type 500 of a class
pointer and an `int`. -/
def fieldEntry : ClassEntry := ⟨"A", 300, some [⟨.intField, false, 4⟩], 8, 0, 0, 0, [], 0⟩

theorem fieldEntry_fits : ∀ e ∈ [fieldEntry], (fun _ => true) e.name = true → e.Fits Abi.native32 := by
  intro e he _
  obtain rfl := List.mem_singleton.mp he
  refine ⟨fun table htable => ?_, fun _ _ h => absurd rfl h, fun h => absurd rfl h⟩
  obtain rfl := Option.some.inj htable.symm
  exact ⟨by decide, by decide⟩

theorem int32Type_fits : ∀ t ∈ [(500, [Ty.int32_t])], DescriptorFits Abi.native32 t.2 := by
  intro t ht
  obtain rfl := List.mem_singleton.mp ht
  refine ⟨by decide, fun i hi => ?_⟩
  match i, hi with
  | 0, h => cases h

theorem field_entry_maps_walkable :
    (∀ e ∈ [fieldEntry], (fun _ => true) e.name = true → e.Fits Abi.native32) ∧
      (∀ t ∈ [(500, [Ty.int32_t])], DescriptorFits Abi.native32 t.2) ∧
      ∃ typeMaps, writerTypeMaps Abi.native32 (fun _ => true) [fieldEntry] [(500, [.int32_t])] =
          some typeMaps ∧ ∀ key m, (key, m) ∈ typeMaps → m.Walkable Abi.native32 := by
  obtain ⟨typeMaps, h⟩ := Option.isSome_iff_exists.mp (by decide :
    (writerTypeMaps Abi.native32 (fun _ => true) [fieldEntry] [(500, [.int32_t])]).isSome)
  exact ⟨fieldEntry_fits, int32Type_fits, typeMaps, h, writerTypeMaps_walkable fieldEntry_fits int32Type_fits h⟩

/-! ### The walk over the writer's maps -/

namespace Walk

variable {c : Context} {edges : Nat → List (Nat × Nat)} {heap : Memory}

/-- The walk over the maps `writeBootImage2` builds keeps every object's contents.
When the writer's TypeMaps come from selected class entries that fit and VM types
whose descriptors fit, and the walker follows only reference slots the maps know,
every object `visitRoots` emits keeps, as the target reads it, each of its scalar
fields and scalar elements, and every fixed object keeps its fixie header and
dirty mask. -/
theorem built_maps_walk_keeps_objects {selected : String → Bool} {entries : List ClassEntry}
    {types : List (Nat × List Ty)} (hentries : ∀ e ∈ entries, selected e.name = true → e.Fits c.abi)
    (htypes : ∀ t ∈ types, DescriptorFits c.abi t.2)
    (hbuilt : writerTypeMaps c.abi selected entries types = some c.typeMaps)
    (hslots : ∀ p o q, (o, q) ∈ edges p → c.RefSlot p o) {fuel : Nat} {r : Roots} {w : Walk}
    (h : visitRoots c edges fuel (init c.abi heap) r = some w) :
    (∀ a ∈ w.log, ScalarsKept c w.visitor.heap a) ∧
      ∀ a ∈ w.log, a.fixed = true → FixieKept c w.visitor.heap a := by
  have hmaps := writerTypeMaps_walkable hentries htypes hbuilt
  have hwf : c.WellFormedMaps := fun key m hm => (hmaps key m hm).wellFormed
  have hdisjoint := fun key m hm => (hmaps key m hm).disjoint
  have hheader := fun key m hm => (hmaps key m hm).header
  exact ⟨walk_keeps (ScalarsKept c) hwf hslots (fun hv hk hm => hk.region hwf hv hm)
      (fun ha m => allot_scalars hwf hdisjoint hheader ha m)
      (fun _ hs hx hk data hlen => hk.patch hwf hdisjoint hs hx data hlen) h,
    walk_keeps (fun m a => a.fixed = true → FixieKept c m a) hwf hslots
      (fun hv hk hm hfixed => (hk hfixed).region hv hfixed hm)
      (fun ha m hfixed => allot_fixie hwf ha hfixed m)
      (fun hv hs hx hk data hlen hfixed => (hk hfixed).patch hwf hv hfixed hs hx data hlen) h⟩

end Walk

/-- An instance 100 of `A`, whose class 300 and the class type 500 are of the VM
type 500; each refers to its class from word 0. -/
def builtRuntime : Runtime where
  objectClass p := if p = 100 then 300 else 500
  body p := Memory.write (fun _ => 0) 4 (bytesOf false 4 (if p = 100 then 0x01020304 else 7))
  classType := 500
  singletonType := 600
  isSystemClassLoader _ := false
  classStaticTable := 64

/-- The writer's maps for `A` and the VM type 500, on a 32-bit native target. -/
def builtContext : Context :=
  ⟨Abi.native32, builtRuntime,
    (writerTypeMaps Abi.native32 (fun _ => true) [fieldEntry] [(500, [.int32_t])]).getD [],
    3, 2 ^ 32 - 4, 30, 3⟩

def builtEdges (p : Nat) : List (Nat × Nat) :=
  if p = 100 then [(0, 300)] else if p = 300 ∨ p = 500 then [(0, 500)] else []

theorem built_walk_keeps_objects :
    (∀ e ∈ [fieldEntry], (fun _ => true) e.name = true → e.Fits builtContext.abi) ∧
      (∀ t ∈ [(500, [Ty.int32_t])], DescriptorFits builtContext.abi t.2) ∧
      writerTypeMaps builtContext.abi (fun _ => true) [fieldEntry] [(500, [.int32_t])] =
        some builtContext.typeMaps ∧
      (∀ p o q, (o, q) ∈ builtEdges p → builtContext.RefSlot p o) ∧
      ∃ w, Walk.visitRoots builtContext builtEdges 4 (Walk.init builtContext.abi fun _ => 0)
          ⟨[], 0, 0, 0, [], [100]⟩ = some w ∧
        (∀ a ∈ w.log, ScalarsKept builtContext w.visitor.heap a) ∧
        ∀ a ∈ w.log, a.fixed = true → FixieKept builtContext w.visitor.heap a := by
  have hbuilt : writerTypeMaps builtContext.abi (fun _ => true) [fieldEntry] [(500, [.int32_t])] =
      some builtContext.typeMaps := rfl
  have hslots : ∀ p o q, (o, q) ∈ builtEdges p → builtContext.RefSlot p o := by
    intro p o q he
    simp only [builtEdges] at he
    split_ifs at he with h₁ h₂ <;>
      simp only [List.mem_singleton, Prod.mk.injEq, List.not_mem_nil] at he <;> rw [he.1]
    · subst h₁
      decide
    · rcases h₂ with rfl | rfl <;> decide
  obtain ⟨w, h⟩ := Option.isSome_iff_exists.mp (by decide :
    (Walk.visitRoots builtContext builtEdges 4 (Walk.init builtContext.abi fun _ => 0)
      ⟨[], 0, 0, 0, [], [100]⟩).isSome)
  exact ⟨fieldEntry_fits, int32Type_fits, hbuilt, hslots, w, h,
    Walk.built_maps_walk_keeps_objects fieldEntry_fits int32Type_fits hbuilt hslots h⟩

end BootImage
