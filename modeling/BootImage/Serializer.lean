import BootImage.Image
import BootImage.Resolve

/-! The image file `writeBootImage2` writes: the header record, the boot-class,
app-class, string and call tables as `unsigned` arrays, zero bytes up to a
target-word boundary, then the heap map, the heap, the code map and the code, each
`pad`ded to a host word. A loader that decodes the counts and sizes from the
header record finds every part again. Header and tables are written in the host's
byte order: the target reads a table entry through `TARGET_V4`, as written when
the two byte orders agree and byte-swapped when they differ, and it decodes the
header's words as written only when they agree. -/
namespace BootImage

/-- The index tables: an entry per boot class, app class and interned string, as
the walker's map answered them, and the processor's call table, two `unsigned` per
call. -/
structure Tables where
  bootClassTable : List Nat
  appClassTable : List Nat
  stringTable : List Nat
  callTable : List (Nat × Nat)
  deriving Repr, DecidableEq

/-- The `unsigned` entries of the call table, in memory order. -/
def Tables.calls (t : Tables) : List Nat := t.callTable.flatMap fun c => [c.1, c.2]

/-- What `writeBootImage2` writes from: `BootImage::Magic` and the thunks
descriptor's bytes of the header record, the tables, the visitor's final position,
heap map and heap, and the code (its address, the size the processor recorded, and
its bytes and code map after both resolver passes). -/
structure ImageData where
  magic : Nat
  thunks : List UInt8
  tables : Tables
  position : Nat
  heapMap : Nat → Bool
  heap : Memory
  codeBase : Nat
  codeSize : Nat
  code : CodeState

/-- The header fields the file's layout depends on. -/
structure Header where
  bootClassCount : Nat
  appClassCount : Nat
  stringCount : Nat
  callCount : Nat
  heapSize : Nat
  codeSize : Nat
  deriving Repr, DecidableEq

variable (abi : Abi) (codeMapSize : Nat → Nat)

/-- The header's counts and sizes as `writeBootImage2` and `makeHeapImage` set them. -/
def ImageData.counts (d : ImageData) : Header :=
  ⟨d.tables.bootClassTable.length, d.tables.appClassTable.length, d.tables.stringTable.length,
    d.tables.callTable.length, heapSize abi d.position, d.codeSize⟩

/-- The header record's words, in order: `magic`, `codeBase`, `heapSize`, `codeSize`,
`bootClassCount`, `appClassCount`, `stringCount`, `callCount`. -/
def ImageData.headerWords (d : ImageData) : List Nat :=
  let h := d.counts abi
  [d.magic, d.codeBase, h.heapSize, h.codeSize, h.bootClassCount, h.appClassCount, h.stringCount,
    h.callCount]

/-- Modelled from the spec's file layout: `fwrite(image, sizeof(BootImage))`
(bootimage.h is not under src/). Each header word takes a target word and is stored
as the writer set it, in the host's byte order; the thunks descriptor follows. -/
def headerBytes (d : ImageData) : List UInt8 :=
  (d.headerWords abi).flatMap (bytesOf abi.bigEndian abi.targetBytesPerWord) ++ d.thunks

/-- `fwrite` of an `unsigned` array: the four bytes of each entry's low 32 bits in
host byte order. -/
def tableBytes (table : List Nat) : List UInt8 := table.flatMap (bytesOf abi.bigEndian 4)

/-- `offset` as `writeBootImage2` sums it from the header: the bytes of the tables. -/
def tablesSize (h : Header) : Nat :=
  h.bootClassCount * 4 + h.appClassCount * 4 + h.stringCount * 4 + h.callCount * 4 * 2

/-- The `while (offset % TargetBytesPerWord)` loop: a zero byte and `++offset` per
pass, for at most `fuel` passes. -/
def alignLoop : Nat → Nat → Option (List UInt8)
  | 0, offset => if offset % abi.targetBytesPerWord = 0 then some [] else none
  | fuel + 1, offset => if offset % abi.targetBytesPerWord = 0 then some []
      else (alignLoop fuel (offset + 1)).map (0 :: ·)

/-- The code map section: `pad(codeMapSize(codeSize))` bytes of the code map, whose
host words hold the bits `markBit` set. `codeMapSize` is the runtime's (its header
is not under src/). -/
def codeMapSection (d : ImageData) : List UInt8 :=
  (mapBytes abi d.code.codeMap).read 0 (pad abi (codeMapSize d.codeSize))

/-- The code section: `pad(codeSize)` bytes from the code's start. -/
def codeSection (d : ImageData) : List UInt8 := d.code.bytes.read d.codeBase (pad abi d.codeSize)

/-- The file `writeBootImage2` writes; `none` if the alignment loop ran out of its
`TargetBytesPerWord` passes, which it never does (`alignLoop_eq`). -/
def imageFile (d : ImageData) : Option (List UInt8) :=
  (alignLoop abi abi.targetBytesPerWord (tablesSize (d.counts abi))).map fun padding =>
    headerBytes abi d ++ tableBytes abi d.tables.bootClassTable ++ tableBytes abi d.tables.appClassTable
      ++ tableBytes abi d.tables.stringTable ++ tableBytes abi d.tables.calls ++ padding
      ++ heapMapSection abi d.heapMap d.position ++ heapSection abi d.heap d.position
      ++ codeMapSection abi codeMapSize d ++ codeSection abi d

/-! ### Reading the file back -/

/-- What a loader finds in an image file. -/
structure ImageParts where
  tables : Tables
  heapMap : List UInt8
  heap : List UInt8
  codeMap : List UInt8
  code : List UInt8
  deriving Repr, DecidableEq

/-- The first `n` bytes and the rest, `none` if there are fewer. -/
def takeBytes (n : Nat) (bytes : List UInt8) : Option (List UInt8 × List UInt8) :=
  if n ≤ bytes.length then some (bytes.take n, bytes.drop n) else none

/-- `count` entries of `width` bytes, each read in byte order `bigEndian`. -/
def readTable (bigEndian : Bool) (width : Nat) : Nat → List UInt8 → List Nat
  | 0, _ => []
  | count + 1, bytes =>
      valueOf bigEndian (bytes.take width) :: readTable bigEndian width count (bytes.drop width)

/-- The counts and sizes of the header's eight words. -/
def Header.ofWords : List Nat → Option Header
  | [_, _, heapSize, codeSize, boot, app, strings, calls] =>
      some ⟨boot, app, strings, calls, heapSize, codeSize⟩
  | _ => none

/-- Consecutive entries as pairs. -/
def pairs : List Nat → List (Nat × Nat)
  | a :: b :: rest => (a, b) :: pairs rest
  | _ => []

/-- Parts of the given sizes, in order, and the bytes after them; `none` if the
bytes run out. -/
def takeParts : List Nat → List UInt8 → Option (List (List UInt8) × List UInt8)
  | [], bytes => some ([], bytes)
  | n :: sizes, bytes => do
      let (part, rest) ← takeBytes n bytes
      let (parts, rest) ← takeParts sizes rest
      pure (part :: parts, rest)

/-- Modelled from the spec's file layout (the loader is not under src/): the
header record's eight target words, read in the target's byte order, and the
`thunksSize` bytes of the thunks descriptor; then, of the counts and sizes those
words give, the four tables read in the target's byte order, zero bytes up to a
target word, the heap map, heap, code map and code sections, and nothing after. -/
def readImage (thunksSize : Nat) (file : List UInt8) : Option ImageParts := do
  let (words, rest) ← takeBytes (8 * abi.targetBytesPerWord) file
  let h ← Header.ofWords (readTable abi.targetBigEndian abi.targetBytesPerWord 8 words)
  match takeParts [thunksSize, h.bootClassCount * 4, h.appClassCount * 4, h.stringCount * 4,
      h.callCount * 8, (abi.targetBytesPerWord - tablesSize h % abi.targetBytesPerWord)
        % abi.targetBytesPerWord, pad abi (heapMapSize abi h.heapSize), pad abi h.heapSize,
      pad abi (codeMapSize h.codeSize), pad abi h.codeSize] rest with
  | some ([_, boot, app, strings, calls, padding, heapMap, heap, codeMap, code], []) =>
      if padding.all (· == 0) then
        some ⟨⟨readTable abi.targetBigEndian 4 h.bootClassCount boot,
          readTable abi.targetBigEndian 4 h.appClassCount app,
          readTable abi.targetBigEndian 4 h.stringCount strings,
          pairs (readTable abi.targetBigEndian 4 (2 * h.callCount) calls)⟩, heapMap, heap, codeMap, code⟩
      else none
  | _ => none

variable {abi}

/-- A zero byte brings an unaligned offset one byte nearer the next target word. -/
theorem alignGap_succ {offset : Nat} (hmod : offset % abi.targetBytesPerWord ≠ 0) :
    (abi.targetBytesPerWord - (offset + 1) % abi.targetBytesPerWord) % abi.targetBytesPerWord + 1 =
      (abi.targetBytesPerWord - offset % abi.targetBytesPerWord) % abi.targetBytesPerWord := by
  rcases abi.targetBytesPerWord_cases with hw | hw <;> rw [hw] at hmod ⊢ <;> omega

/-- The alignment loop, given passes enough, writes the fewest zero bytes that bring
`offset` to a multiple of `TargetBytesPerWord`; `TargetBytesPerWord` passes always
suffice. -/
theorem alignLoop_eq {fuel : Nat} (offset : Nat)
    (hfuel : (abi.targetBytesPerWord - offset % abi.targetBytesPerWord) % abi.targetBytesPerWord ≤ fuel) :
    alignLoop abi fuel offset = some (List.replicate
      ((abi.targetBytesPerWord - offset % abi.targetBytesPerWord) % abi.targetBytesPerWord) 0) := by
  induction fuel generalizing offset with
  | zero =>
      have hmod : offset % abi.targetBytesPerWord = 0 := by
        by_contra hmod
        have := alignGap_succ hmod
        omega
      simp only [alignLoop, hmod, Nat.sub_zero, Nat.mod_self, List.replicate_zero, ↓reduceIte]
  | succ fuel ih =>
      by_cases hmod : offset % abi.targetBytesPerWord = 0
      · simp only [alignLoop, hmod, Nat.sub_zero, Nat.mod_self, List.replicate_zero, ↓reduceIte]
      · have hstep := alignGap_succ hmod
        rw [alignLoop, if_neg hmod, ih (offset + 1) (by omega), Option.map_some', ← hstep]
        rfl

@[simp] theorem length_tableBytes (table : List Nat) :
    (tableBytes abi table).length = table.length * 4 := by
  induction table with
  | nil => rfl
  | cons n table ih =>
      simp only [tableBytes, List.flatMap_cons, List.length_append, length_bytesOf] at ih ⊢
      rw [ih, List.length_cons, Nat.succ_mul, Nat.add_comm]

/-- Bytes written in the host's order read, in the target's, as `TARGET_V` of the
value's low bytes. -/
theorem valueOf_target_bytesOf (width value : Nat) :
    valueOf abi.targetBigEndian (bytesOf abi.bigEndian width value) =
      abi.targetV width (value % 256 ^ width) := by
  have hlow : bytesOf abi.bigEndian width value = bytesOf abi.bigEndian width (value % 256 ^ width) := by
    conv_lhs => rw [← bytesOf_valueOf abi.bigEndian (bytesOf abi.bigEndian width value)]
    rw [length_bytesOf, valueOf_bytesOf]
  rw [hlow, Abi.targetV]
  split
  · next h => rw [← h, valueOf_bytesOf, Nat.mod_mod]
  · next h => exact Resolver.valueOf_bytesOf_of_ne h _ _

/-- Entries written one after another in one byte order read back one by one in
another as the value each one's bytes have there. -/
theorem readTable_flatMap (readOrder writeOrder : Bool) (width : Nat) (table : List Nat) :
    readTable readOrder width table.length (table.flatMap (bytesOf writeOrder width)) =
      table.map fun n => valueOf readOrder (bytesOf writeOrder width n) := by
  induction table with
  | nil => rfl
  | cons n table ih =>
      have hlen : (bytesOf writeOrder width n).length = width := length_bytesOf _ _ _
      rw [List.flatMap_cons, List.length_cons, readTable, List.take_left' hlen, List.drop_left' hlen,
        ih, List.map_cons]

theorem readTable_tableBytes (table : List Nat) :
    readTable abi.targetBigEndian 4 table.length (tableBytes abi table) =
      table.map fun n => abi.targetV 4 (u32 n) := by
  rw [tableBytes, readTable_flatMap]
  congr 1
  funext n
  rw [valueOf_target_bytesOf, u32, show (2 : Nat) ^ 32 = 256 ^ 4 by norm_num]

/-- With one byte order on both sides, the header's words read back as written
whenever each fits a target word. -/
theorem readTable_headerBytes (horder : abi.targetBigEndian = abi.bigEndian) (d : ImageData)
    (hfit : ∀ v ∈ d.headerWords abi, v < 256 ^ abi.targetBytesPerWord) :
    readTable abi.targetBigEndian abi.targetBytesPerWord 8
        ((d.headerWords abi).flatMap (bytesOf abi.bigEndian abi.targetBytesPerWord)) =
      d.headerWords abi := by
  rw [show 8 = (d.headerWords abi).length from rfl, readTable_flatMap, horder]
  conv_rhs => rw [← List.map_id (d.headerWords abi)]
  exact List.map_congr_left fun v hv => by rw [valueOf_bytesOf, Nat.mod_eq_of_lt (hfit v hv), id]

theorem pairs_calls (t : Tables) (f : Nat → Nat) :
    pairs (t.calls.map f) = t.callTable.map fun c => (f c.1, f c.2) := by
  unfold Tables.calls
  induction t.callTable with
  | nil => rfl
  | cons c cs ih =>
      rw [List.flatMap_cons, List.map_append]
      exact congrArg ((f c.1, f c.2) :: ·) ih

theorem takeBytes_append {n : Nat} {x : List UInt8} (h : x.length = n) (rest : List UInt8) :
    takeBytes n (x ++ rest) = some (x, rest) := by
  rw [takeBytes, if_pos (by simp [h]), List.take_left' h, List.drop_left' h]

/-- A reader that takes parts of the lengths written finds each part again. -/
theorem takeParts_flatten (rest : List UInt8) : ∀ parts : List (List UInt8),
    takeParts (parts.map List.length) (parts.flatten ++ rest) = some (parts, rest)
  | [] => rfl
  | x :: parts => by
      rw [List.map_cons, List.flatten_cons, List.append_assoc, takeParts, takeBytes_append rfl]
      simp only [Option.bind_eq_bind, Option.some_bind, takeParts_flatten rest parts]
      rfl

theorem length_calls (t : Tables) : t.calls.length = 2 * t.callTable.length := by
  unfold Tables.calls
  induction t.callTable with
  | nil => rfl
  | cons c cs ih =>
      rw [List.flatMap_cons, List.length_append, ih, List.length_cons]
      simp only [List.length_cons, List.length_nil]
      omega

/-- The image file round trip. `writeBootImage2`'s alignment loop ends, and on a
target with the host's byte order, when each header word fits a target word, a
loader that decodes the counts and sizes from the header record finds in the file
the tables, each entry as its low 32 bits, and the heap map, heap, code map and code
sections as written, after zero bytes that start the heap map on a target-word
boundary past the header. -/
theorem image_file_round_trip (horder : abi.targetBigEndian = abi.bigEndian) (d : ImageData)
    (hfit : ∀ v ∈ d.headerWords abi, v < 256 ^ abi.targetBytesPerWord) :
    ∃ file, imageFile abi codeMapSize d = some file ∧
      readImage abi codeMapSize d.thunks.length file = some
        ⟨⟨d.tables.bootClassTable.map u32, d.tables.appClassTable.map u32,
          d.tables.stringTable.map u32, d.tables.callTable.map fun c => (u32 c.1, u32 c.2)⟩,
          heapMapSection abi d.heapMap d.position, heapSection abi d.heap d.position,
          codeMapSection abi codeMapSize d, codeSection abi d⟩ := by
  refine ⟨_, by rw [imageFile, alignLoop_eq _ (Nat.mod_lt _ abi.targetBytesPerWord_pos).le,
    Option.map_some'], ?_⟩
  have hW : ((d.headerWords abi).flatMap (bytesOf abi.bigEndian abi.targetBytesPerWord)).length =
      8 * abi.targetBytesPerWord := by
    simp only [ImageData.headerWords, List.flatMap_cons, List.flatMap_nil, List.length_append,
      length_bytesOf, List.length_nil]
    omega
  have hheader : Header.ofWords (readTable abi.targetBigEndian abi.targetBytesPerWord 8
      ((d.headerWords abi).flatMap (bytesOf abi.bigEndian abi.targetBytesPerWord))) =
        some (d.counts abi) := by
    rw [readTable_headerBytes horder d hfit]
    rfl
  have hC : (tableBytes abi d.tables.calls).length = d.tables.callTable.length * 8 := by
    rw [length_tableBytes, length_calls]
    omega
  have hM : (heapMapSection abi d.heapMap d.position).length =
      pad abi (heapMapSize abi (heapSize abi d.position)) := Memory.length_read
  have hH : (heapSection abi d.heap d.position).length = pad abi (heapSize abi d.position) :=
    Memory.length_read
  have hCM : (codeMapSection abi codeMapSize d).length = pad abi (codeMapSize d.codeSize) :=
    Memory.length_read
  have hCD : (codeSection abi d).length = pad abi d.codeSize := Memory.length_read
  have hparts := takeParts_flatten [] [d.thunks, tableBytes abi d.tables.bootClassTable,
    tableBytes abi d.tables.appClassTable, tableBytes abi d.tables.stringTable,
    tableBytes abi d.tables.calls, List.replicate ((abi.targetBytesPerWord -
      tablesSize (d.counts abi) % abi.targetBytesPerWord) % abi.targetBytesPerWord) 0,
    heapMapSection abi d.heapMap d.position, heapSection abi d.heap d.position,
    codeMapSection abi codeMapSize d, codeSection abi d]
  simp only [List.map_cons, List.map_nil, List.flatten_cons, List.flatten_nil, List.append_nil,
    List.length_replicate, length_tableBytes, hC, hM, hH, hCM, hCD, ImageData.counts] at hparts
  have htarget : ∀ n, abi.targetV 4 (u32 n) = u32 n := fun n => if_pos horder.symm
  simp only [readImage, headerBytes, List.append_assoc, takeBytes_append hW, Option.bind_eq_bind,
    Option.some_bind, hheader, ImageData.counts, hparts, List.all_replicate]
  simp only [← length_calls, readTable_tableBytes, pairs_calls, htarget]
  simp

/-- An image of one boot class numbered 1, a heap of one word and no code. -/
def sampleImage : ImageData :=
  ⟨0x1A2B3C4D, [], ⟨[1], [], [], []⟩, 1, fun _ => false, fun _ => 0, 0, 0,
    ⟨fun _ => 0, fun _ => false⟩⟩

/-- Its file, read back, gives the boot class table and the one heap word. -/
theorem sample_image_round_trip :
    Abi.native32.targetBigEndian = Abi.native32.bigEndian ∧
      (∀ v ∈ sampleImage.headerWords Abi.native32, v < 256 ^ Abi.native32.targetBytesPerWord) ∧
      ∃ file, imageFile Abi.native32 (fun _ => 0) sampleImage = some file ∧
        (readImage Abi.native32 (fun _ => 0) 0 file).map (fun parts => (parts.tables, parts.heap)) =
          some (⟨[1], [], [], []⟩, [0, 0, 0, 0]) := by
  obtain ⟨file, hfile, hread⟩ := @image_file_round_trip Abi.native32 (fun _ => 0) rfl sampleImage
    (by decide)
  exact ⟨rfl, by decide, file, hfile, (congrArg (Option.map _) hread).trans rfl⟩

end BootImage
