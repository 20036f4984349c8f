import BootImage.Allocation

/-! The TypeMaps the walk looks objects up in. `makeCodeImage` inserts, for each
classpath entry the class filter selects, the pool map of its class when the pool
has entries, and when the class has a field table its instance map and the map of
its static table; `writeBootImage2` then inserts or replaces the map of each VM
type. An object whose key is none of these has no TypeMap, and `visitNew` on it
reads through a missing entry. The class loop takes the `.class` entries the class
filter selects; its `strncmp` compares the entry's stem alone, so a filter takes
every entry whose stem is a prefix of it. -/
namespace BootImage

/-- What `makeCodeImage` reads of a classpath entry: its name, the class it
resolves to with its field table (none when the class has no fields), fixed size,
static table (0 when none) and that table's singleton count, and the class's pool
object with the tags the class-file scan gave for its `count` slots. -/
structure ClassEntry where
  name : String
  cls : Nat
  fieldTable : Option (List FieldInfo)
  classFixedSize : Nat
  staticTable : Nat
  singletonCount : Nat
  pool : Nat
  poolTypes : List Ty
  poolCount : Nat

namespace ClassEntry

variable (abi : Abi) (e : ClassEntry)

/-- The pool map, inserted when the class file's pool has entries. -/
def poolMaps : TypeMaps :=
  if e.poolCount ≠ 0 then [(e.pool, poolMap abi e.poolTypes e.poolCount)] else []

/-- The static-table and instance maps built from a field table, newest first. -/
def fieldMaps (table : List FieldInfo) : Option TypeMaps := do
  let (members, statics) ← layoutFields abi table
  let instanceMap ← memberMap abi e.classFixedSize members
  let staticMaps ← if e.staticTable ≠ 0 then
      (staticMap abi e.singletonCount statics).map fun m => [(e.staticTable, m)]
    else some []
  pure (staticMaps ++ [(e.cls, instanceMap)])

/-- The maps inserted for one selected entry, newest first. -/
def maps : Option TypeMaps :=
  match e.fieldTable with
  | none => some (e.poolMaps abi)
  | some table => (e.fieldMaps abi table).map (· ++ e.poolMaps abi)

/-- The keys an entry contributes. -/
def keys : List Nat :=
  (if e.fieldTable.isSome ∧ e.staticTable ≠ 0 then [e.staticTable] else []) ++
    (if e.fieldTable.isSome then [e.cls] else []) ++ (if e.poolCount ≠ 0 then [e.pool] else [])

variable {abi e}

theorem keys_poolMaps : (e.poolMaps abi).map Prod.fst = if e.poolCount ≠ 0 then [e.pool] else [] := by
  unfold poolMaps
  split <;> rfl

theorem keys_fieldMaps {table : List FieldInfo} {ms : TypeMaps} (h : e.fieldMaps abi table = some ms) :
    ms.map Prod.fst = (if e.staticTable ≠ 0 then [e.staticTable] else []) ++ [e.cls] := by
  simp only [fieldMaps, Option.bind_eq_bind] at h
  obtain ⟨⟨members, statics⟩, -, h⟩ := Option.bind_eq_some.mp h
  obtain ⟨instanceMap, -, h⟩ := Option.bind_eq_some.mp h
  split at h
  · next hne =>
    obtain ⟨staticMaps, hstatic, h⟩ := Option.bind_eq_some.mp h
    obtain ⟨m, -, rfl⟩ := Option.map_eq_some'.mp hstatic
    cases h
    simp [hne]
  · next hzero =>
    cases h
    simp [hzero]

theorem keys_maps {ms : TypeMaps} (h : e.maps abi = some ms) : ms.map Prod.fst = e.keys := by
  unfold maps at h
  unfold keys
  split at h
  · next hnone =>
    cases h
    simp [hnone, keys_poolMaps]
  · next table hsome =>
    obtain ⟨fs, hfs, rfl⟩ := Option.map_eq_some'.mp h
    simp [hsome, keys_poolMaps, keys_fieldMaps hfs]

end ClassEntry

/-- The class loop of `makeCodeImage`: each entry the filter `selected` takes
inserts its maps. -/
def codeImageMaps (abi : Abi) (selected : String → Bool) (entries : List ClassEntry) :
    Option TypeMaps :=
  entries.foldlM (fun acc e => if selected e.name then (e.maps abi).map (· ++ acc) else some acc) []

/-- The VM-type loop of `writeBootImage2`: each type's descriptor map is inserted,
replacing an entry of the same key. -/
def vmTypeMaps (abi : Abi) (types : List (Nat × List Ty)) (typeMaps : TypeMaps) : Option TypeMaps :=
  types.foldlM (fun acc t =>
    (descriptorMap abi t.2).map fun m => (t.1, m) :: acc.filter (·.1 ≠ t.1)) typeMaps

/-- All TypeMaps the heap walk uses. -/
def writerTypeMaps (abi : Abi) (selected : String → Bool) (entries : List ClassEntry)
    (types : List (Nat × List Ty)) : Option TypeMaps :=
  (codeImageMaps abi selected entries).bind (vmTypeMaps abi types)

variable {abi : Abi} {selected : String → Bool} {key : Nat}

theorem mem_keys_codeImageMaps :
    ∀ {entries : List ClassEntry} {acc typeMaps : TypeMaps},
      entries.foldlM (fun acc e => if selected e.name then (e.maps abi).map (· ++ acc) else some acc)
        acc = some typeMaps →
      (key ∈ typeMaps.map Prod.fst ↔
        key ∈ acc.map Prod.fst ∨ ∃ e ∈ entries, selected e.name ∧ key ∈ e.keys)
  | [], acc, typeMaps, h => by
      cases h
      simp only [List.not_mem_nil, false_and, exists_false, or_false]
  | e :: entries, acc, typeMaps, h => by
      simp only [List.foldlM_cons, Option.bind_eq_bind] at h
      obtain ⟨acc', hacc', h⟩ := Option.bind_eq_some.mp h
      rw [mem_keys_codeImageMaps h]
      simp only [List.mem_cons, or_and_right, exists_or, exists_eq_left]
      split at hacc'
      · next hsel =>
        obtain ⟨ms, hms, rfl⟩ := Option.map_eq_some'.mp hacc'
        simp only [List.map_append, List.mem_append, ClassEntry.keys_maps hms, hsel, true_and,
          or_assoc, or_comm, or_left_comm]
      · next hsel =>
        cases hacc'
        simp only [hsel, Bool.false_eq_true, false_and, false_or]

theorem mem_keys_vmTypeMaps :
    ∀ {types : List (Nat × List Ty)} {acc typeMaps : TypeMaps},
      vmTypeMaps abi types acc = some typeMaps →
      (key ∈ typeMaps.map Prod.fst ↔ key ∈ acc.map Prod.fst ∨ key ∈ types.map Prod.fst)
  | [], acc, typeMaps, h => by
      cases h
      simp only [List.map_nil, List.not_mem_nil, or_false]
  | t :: types, acc, typeMaps, h => by
      simp only [vmTypeMaps, List.foldlM_cons, Option.bind_eq_bind] at h
      obtain ⟨acc', hacc', h⟩ := Option.bind_eq_some.mp h
      obtain ⟨m, -, rfl⟩ := Option.map_eq_some'.mp hacc'
      rw [mem_keys_vmTypeMaps h]
      simp only [List.map_cons, List.mem_cons, List.mem_map, List.mem_filter, decide_eq_true_eq]
      constructor
      · rintro ((rfl | ⟨x, ⟨hx, -⟩, rfl⟩) | h)
        · exact .inr (.inl rfl)
        · exact .inl ⟨x, hx, rfl⟩
        · exact .inr (.inr h)
      · rintro (⟨x, hx, rfl⟩ | rfl | h)
        · by_cases hx1 : x.1 = t.1
          · exact .inl (.inl hx1)
          · exact .inl (.inr ⟨x, ⟨hx, hx1⟩, rfl⟩)
        · exact .inl (.inl rfl)
        · exact .inr h

theorem isSome_typeMap_iff (rt : Runtime) (typeMaps : TypeMaps) (p : Nat) :
    (rt.typeMap typeMaps p).isSome ↔ rt.typeMapKey p ∈ typeMaps.map Prod.fst := by
  rw [Runtime.typeMap, List.lookup_isSome_iff, List.mem_map]
  simp only [beq_iff_eq]
  exact exists_congr fun _ => and_congr_right fun _ => eq_comm

/-- The walk finds a TypeMap for an object exactly when its key (the object for a
singleton, its class otherwise) is a VM type, or the class, static table or pool of
a selected entry that inserts a map for it. -/
theorem typeMap_isSome_iff {entries : List ClassEntry} {types : List (Nat × List Ty)}
    {typeMaps : TypeMaps} (h : writerTypeMaps abi selected entries types = some typeMaps)
    (rt : Runtime) (p : Nat) :
    (rt.typeMap typeMaps p).isSome ↔ rt.typeMapKey p ∈ types.map Prod.fst ∨
      ∃ e ∈ entries, selected e.name ∧ rt.typeMapKey p ∈ e.keys := by
  obtain ⟨code, hcode, hvm⟩ := Option.bind_eq_some.mp h
  rw [isSome_typeMap_iff, mem_keys_vmTypeMaps hvm, mem_keys_codeImageMaps hcode]
  simp only [List.map_nil, List.not_mem_nil, false_or]
  exact or_comm

/-- Object 100 is an instance of class 300, which declares no field. -/
def emptyClassRuntime : Runtime :=
  ⟨fun p => if p = 100 then 300 else 500, fun _ _ => 0, 500, 600, fun _ => false, 8⟩

/-- `C.class`, whose class 300 has no field table, static table or pool entries. -/
def emptyClassEntry : ClassEntry := ⟨"C.class", 300, none, 4, 0, 0, 0, [], 0⟩

/-- With `C.class` and the VM type 500 of a class pointer, the instance 100 of `C`
has no TypeMap and the class object 200, of the VM type 500, has one. -/
theorem empty_class_lookup :
    ∃ typeMaps, writerTypeMaps Abi.native32 (fun _ => true) [emptyClassEntry] [(500, [.object])] =
        some typeMaps ∧
      ((emptyClassRuntime.typeMap typeMaps 100).isSome ↔
        emptyClassRuntime.typeMapKey 100 ∈ [(500, [Ty.object])].map Prod.fst ∨
          ∃ e ∈ [emptyClassEntry], (fun _ => true : String → Bool) e.name ∧
            emptyClassRuntime.typeMapKey 100 ∈ e.keys) ∧
      ((emptyClassRuntime.typeMap typeMaps 200).isSome ↔
        emptyClassRuntime.typeMapKey 200 ∈ [(500, [Ty.object])].map Prod.fst ∨
          ∃ e ∈ [emptyClassEntry], (fun _ => true : String → Bool) e.name ∧
            emptyClassRuntime.typeMapKey 200 ∈ e.keys) := by
  obtain ⟨typeMaps, h⟩ := Option.isSome_iff_exists.mp (by decide :
    (writerTypeMaps Abi.native32 (fun _ => true) [emptyClassEntry] [(500, [.object])]).isSome)
  exact ⟨typeMaps, h, typeMap_isSome_iff h emptyClassRuntime 100, typeMap_isSome_iff h emptyClassRuntime 200⟩

/-- The maps of a classpath holding only `C.class`. -/
def emptyClassContext : Context :=
  ⟨Abi.native32, emptyClassRuntime,
    (writerTypeMaps Abi.native32 (fun _ => true) [emptyClassEntry] []).getD [], 3, 2 ^ 32 - 4, 30, 3⟩

/-- The walk reaches the instance, finds no TypeMap for class 300 and aborts. -/
theorem empty_class_instance_has_no_typeMap :
    emptyClassRuntime.typeMap emptyClassContext.typeMaps 100 = none ∧
      ((Visitor.init Abi.native32 fun _ => 0).run emptyClassContext [.root, .visitNew 100]).isNone := by
  decide

/-! ### The class filter -/

/-- The terminator of a C string. -/
def nul : Char := Char.ofNat 0

/-- A C string read from its first byte: the characters before the first NUL. -/
def cString (s : List Char) : List Char := s.takeWhile (· ≠ nul)

/-- `endsWith(suffix, s, length)`: `s` has at least `strlen(suffix)` of its
`length` bytes, and the last of them are `suffix`. -/
def endsWith (suffix s : List Char) (length : Nat) : Bool :=
  suffix.length ≤ length && (s.drop (length - suffix.length)).take suffix.length == suffix

/-- `strncmp(s₁, s₂, n)`: the difference of the first differing characters among
the first `n`, stopping at a terminator; a list's terminator follows its last
character. -/
def strncmp : List Char → List Char → Nat → Int
  | _, _, 0 => 0
  | c₁ :: s₁, c₂ :: s₂, n + 1 =>
      if c₁ ≠ c₂ then (c₁.toNat : Int) - c₂.toNat else if c₁ = nul then 0 else strncmp s₁ s₂ n
  | c₁ :: _, [], _ + 1 => c₁.toNat
  | [], c₂ :: _, _ + 1 => -(c₂.toNat : Int)
  | [], [], _ + 1 => 0

/-- The class filter of `makeCodeImage`: a `.class` entry whose first
`nameSize - 6` characters `strncmp` finds equal to the filter's, or every
`.class` entry without a filter. -/
def classSelected (className : Option (List Char)) (name : List Char) : Bool :=
  endsWith ".class".toList name name.length &&
    match className with
    | none => true
    | some filter => strncmp name filter (name.length - 6) == 0

theorem char_eq_of_toNat_eq {c₁ c₂ : Char} (h : c₁.toNat = c₂.toNat) : c₁ = c₂ := by
  rw [← Char.ofNat_toNat c₁, h, Char.ofNat_toNat]

@[simp] theorem cString_nil : cString [] = [] := rfl

theorem cString_cons (c : Char) (s : List Char) :
    cString (c :: s) = if c = nul then [] else c :: cString s := by
  by_cases h : c = nul <;> simp [cString, List.takeWhile_cons, h]

/-- `strncmp` is 0 exactly when the two C strings agree on their first `n`
characters. -/
theorem strncmp_eq_zero_iff :
    ∀ (s₁ s₂ : List Char) (n : Nat), strncmp s₁ s₂ n = 0 ↔ (cString s₁).take n = (cString s₂).take n
  | _, _, 0 => by simp [strncmp]
  | c₁ :: s₁, c₂ :: s₂, n + 1 => by
      rw [strncmp, cString_cons, cString_cons]
      by_cases hc : c₁ = c₂
      · subst hc
        by_cases hnul : c₁ = nul
        · simp [hnul]
        · simp [hnul, strncmp_eq_zero_iff s₁ s₂ n]
      · have hne : ((c₁.toNat : Int) - c₂.toNat) ≠ 0 := fun h =>
          hc (char_eq_of_toNat_eq (by omega))
        simp only [hc, if_true, ne_eq, not_false_eq_true, hne, false_iff]
        split <;> split <;> simp_all
  | c₁ :: s₁, [], n + 1 => by
      rw [strncmp, cString_cons]
      have : c₁.toNat = 0 ↔ c₁ = nul := ⟨fun h => char_eq_of_toNat_eq h, fun h => h ▸ rfl⟩
      split <;> simp_all
  | [], c₂ :: s₂, n + 1 => by
      rw [strncmp, cString_cons]
      have : c₂.toNat = 0 ↔ c₂ = nul := ⟨fun h => char_eq_of_toNat_eq h, fun h => h ▸ rfl⟩
      split <;> simp_all
  | [], [], n + 1 => by simp [strncmp]

theorem cString_append_take (stem t : List Char) :
    (cString (stem ++ t)).take stem.length = cString stem := by
  induction stem with
  | nil => rfl
  | cons c stem ih =>
      rw [List.cons_append, cString_cons, cString_cons]
      split
      · rfl
      · rw [List.length_cons, List.take_succ_cons, ih]

theorem cString_of_not_mem {s : List Char} (h : nul ∉ s) : cString s = s :=
  List.takeWhile_eq_self_iff.mpr fun c hc => by
    simp only [ne_eq, decide_eq_true_eq]
    exact fun hcn => h (hcn ▸ hc)

theorem endsWith_iff (suffix name : List Char) :
    endsWith suffix name name.length = true ↔ ∃ stem, name = stem ++ suffix := by
  simp only [endsWith, Bool.and_eq_true, decide_eq_true_eq, beq_iff_eq]
  constructor
  · rintro ⟨hlen, hsuffix⟩
    rw [List.take_of_length_le (by simp only [List.length_drop]; omega)] at hsuffix
    exact ⟨_, (List.take_append_drop _ name).symm.trans (by rw [hsuffix])⟩
  · rintro ⟨stem, rfl⟩
    simp

/-- With a filter, an entry is taken exactly when its name is some `stem`
followed by `.class` and the C string `stem` agrees with the filter's on all of
`stem`'s length. -/
theorem classSelected_iff (filter name : List Char) :
    classSelected (some filter) name = true ↔
      ∃ stem, name = stem ++ ".class".toList ∧ cString stem = (cString filter).take stem.length := by
  rw [classSelected, Bool.and_eq_true, endsWith_iff]
  constructor
  · rintro ⟨⟨stem, rfl⟩, h⟩
    refine ⟨stem, rfl, ?_⟩
    have h := (strncmp_eq_zero_iff _ _ _).mp (beq_iff_eq.mp h)
    rwa [List.length_append, show stem.length + ".class".toList.length - 6 = stem.length from rfl,
      cString_append_take] at h
  · rintro ⟨stem, rfl, h⟩
    refine ⟨⟨stem, rfl⟩, beq_iff_eq.mpr ((strncmp_eq_zero_iff _ _ _).mpr ?_)⟩
    rwa [List.length_append, show stem.length + ".class".toList.length - 6 = stem.length from rfl,
      cString_append_take]

/-- For names and filters without a NUL, the filter takes every entry whose
stem is a prefix of the filter, the filter's own entry among them. -/
theorem classSelected_iff_prefix {filter name : List Char} (hfilter : nul ∉ filter)
    (hname : nul ∉ name) :
    classSelected (some filter) name = true ↔ ∃ stem, name = stem ++ ".class".toList ∧ stem <+: filter := by
  rw [classSelected_iff]
  refine exists_congr fun stem => and_congr_right fun hstem => ?_
  have : nul ∉ stem := fun h => hname (hstem ▸ List.mem_append_left _ h)
  rw [cString_of_not_mem this, cString_of_not_mem hfilter, List.prefix_iff_eq_take]

example : classSelected (some "AB".toList) "AB.class".toList = true := by decide

/-- Under the filter `AB`, the entry `A.class` passes: its stem `A` is a prefix of
the filter. -/
theorem prefix_stem_passes_class_filter :
    nul ∉ "AB".toList ∧ nul ∉ "A.class".toList ∧ "A".toList <+: "AB".toList ∧
      classSelected (some "AB".toList) "A.class".toList = true :=
  ⟨by decide, by decide, ⟨"B".toList, rfl⟩,
    ( classSelected_iff_prefix (by decide) (by decide)).mpr ⟨"A".toList, rfl, ⟨"B".toList, rfl⟩⟩⟩

/-- `A.class`, whose class 300 has an empty field table. -/
def prefixEntry : ClassEntry := ⟨"A.class", 300, some [], 4, 0, 0, 0, [], 0⟩

/-- Under the filter `AB`, `makeCodeImage` takes `A.class` and inserts the
instance map of its class, though the name is not `AB.class`. -/
theorem prefix_entry_passes_class_filter :
    "A.class".toList ≠ "AB".toList ++ ".class".toList ∧
      ((codeImageMaps Abi.native32 (fun name => classSelected (some "AB".toList) name.toList)
        [prefixEntry]).map fun ms => ms.map Prod.fst) = some [300] := by
  decide

/-! ### The method filter -/

/-- `strcmp(s₁, s₂)`: `strncmp` without a bound. -/
def strcmp : List Char → List Char → Int
  | c₁ :: s₁, c₂ :: s₂ =>
      if c₁ ≠ c₂ then (c₁.toNat : Int) - c₂.toNat else if c₁ = nul then 0 else strcmp s₁ s₂
  | c₁ :: _, [] => c₁.toNat
  | [], c₂ :: _ => -(c₂.toNat : Int)
  | [], [] => 0

/-- A method of a class's method table, as the method loop of `makeCodeImage`
reads it: its name and spec, whether it has code, and whether it is native. -/
structure MethodEntry where
  name : List Char
  spec : List Char
  hasCode : Bool
  native : Bool
  deriving Repr, DecidableEq

/-- The method filter of `makeCodeImage`: every method where a filter is absent;
where one is given, a method whose name, or spec, `strcmp` finds equal to it. -/
def methodSelected (methodName methodSpec : Option (List Char)) (name spec : List Char) : Bool :=
  (match methodName with
    | none => true
    | some filter => strcmp name filter == 0) &&
  (match methodSpec with
    | none => true
    | some filter => strcmp spec filter == 0)

/-- The methods of a table the method loop hands to `compileMethod`, in order: the
selected ones with code or the native flag. -/
def compiledMethods (methodName methodSpec : Option (List Char)) (methods : List MethodEntry) :
    List MethodEntry :=
  methods.filter fun m => methodSelected methodName methodSpec m.name m.spec && (m.hasCode || m.native)

example : compiledMethods (some "run".toList) none
    [⟨"runAll".toList, "()V".toList, true, false⟩, ⟨"run".toList, "()V".toList, true, false⟩] =
      [⟨"run".toList, "()V".toList, true, false⟩] := by
  decide

end BootImage
