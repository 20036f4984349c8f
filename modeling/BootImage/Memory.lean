import BootImage.Target

/-! Byte buffers (the heap buffer of the image, the host bytes of an object) and
the stores the writer makes into them: `memcpy` and `memset`, and the `|=` of an
integer read and written back in host byte order. A store writes exactly the bytes
of its footprint; every other byte keeps its value. -/
namespace BootImage

/-- The bytes of a buffer, by address. -/
abbrev Memory := Nat → UInt8

namespace Memory

/-- `memcpy(m + addr, data, data.length)`. -/
def write (m : Memory) (addr : Nat) (data : List UInt8) : Memory :=
  fun a => if addr ≤ a ∧ a < addr + data.length then data.getD (a - addr) 0 else m a

/-- The `n` bytes at `addr`. -/
def read (m : Memory) (addr n : Nat) : List UInt8 :=
  (List.range n).map fun i => m (addr + i)

variable {m m' : Memory} {addr a n : Nat} {data : List UInt8}

theorem write_apply_of_not_mem (h : a < addr ∨ addr + data.length ≤ a) :
    m.write addr data a = m a := by
  simp only [write]
  rw [if_neg (by omega)]

theorem write_apply_of_mem (h₁ : addr ≤ a) (h₂ : a < addr + data.length) :
    m.write addr data a = data.getD (a - addr) 0 := by
  simp only [write]
  rw [if_pos ⟨h₁, h₂⟩]

@[simp] theorem length_read : (m.read addr n).length = n := by simp [read]

theorem read_congr (h : ∀ i < n, m (addr + i) = m' (addr + i)) : m.read addr n = m'.read addr n :=
  List.map_congr_left fun i hi => h i (List.mem_range.mp hi)

theorem read_write_self : (m.write addr data).read addr data.length = data := by
  apply List.ext_getElem (by simp)
  intro i h _
  simp only [read, List.getElem_map, List.getElem_range]
  rw [write_apply_of_mem (by omega) (by simp at h; omega), Nat.add_sub_cancel_left]
  simp_all

theorem read_write_of_length (h : data.length = n) : (m.write addr data).read addr n = data :=
  h ▸ read_write_self

/-- Bytes read inside a zeroed block are zero. -/
theorem read_write_replicate {k : Nat} (h₁ : addr ≤ a) (h₂ : a + n ≤ addr + k) :
    (m.write addr (List.replicate k 0)).read a n = List.replicate n 0 := by
  refine List.ext_getElem (by simp) fun i hi _ => ?_
  simp only [length_read] at hi
  simp only [read, List.getElem_map, List.getElem_range, List.getElem_replicate]
  rw [write_apply_of_mem (by omega) (by simp only [List.length_replicate]; omega),
    List.getD_eq_getElem?_getD, List.getElem?_getD_replicate_default_eq]

/-- The bytes of two adjacent ranges are the bytes of their union. -/
theorem read_add (k : Nat) : m.read addr (n + k) = m.read addr n ++ m.read (addr + n) k := by
  simp only [read, List.range_add, List.map_append, List.map_map, Function.comp_def, Nat.add_assoc]

/-- A write that misses `[a, a + n)` leaves the bytes there as they were. -/
theorem read_write_of_disjoint (h : a + n ≤ addr ∨ addr + data.length ≤ a) :
    (m.write addr data).read a n = m.read a n :=
  read_congr fun _ _ => write_apply_of_not_mem (by omega)

end Memory

/-- One store into a buffer. -/
inductive Store where
  /-- `memcpy` or `memset` of `data` at `addr`. -/
  | put (addr : Nat) (data : List UInt8)
  /-- `*(T*) addr |= bits` for a `width`-byte integer type `T`, in host byte order. -/
  | orInto (addr width bits : Nat)
  deriving Repr, DecidableEq

namespace Store

/-- The first byte a store writes. -/
def addr : Store → Nat
  | put addr _ => addr
  | orInto addr _ _ => addr

/-- The number of bytes a store writes. -/
def width : Store → Nat
  | put _ data => data.length
  | orInto _ width _ => width

/-- The store's effect, with `bigEndian` the host byte order. -/
def apply (bigEndian : Bool) (m : Memory) : Store → Memory
  | put addr data => m.write addr data
  | orInto addr width bits =>
      m.write addr (bytesOf bigEndian width (valueOf bigEndian (m.read addr width) ||| bits))

/-- Stores made one after another. -/
def applyAll (bigEndian : Bool) (stores : List Store) (m : Memory) : Memory :=
  stores.foldl (apply bigEndian) m

/-- The store writes only bytes in `[lo, hi)`. -/
def Within (lo hi : Nat) (st : Store) : Prop := lo ≤ st.addr ∧ st.addr + st.width ≤ hi

instance (lo hi : Nat) (st : Store) : Decidable (st.Within lo hi) :=
  inferInstanceAs (Decidable (_ ∧ _))

@[simp] theorem addr_put (addr : Nat) (data : List UInt8) : (put addr data).addr = addr := rfl
@[simp] theorem width_put (addr : Nat) (data : List UInt8) : (put addr data).width = data.length := rfl
@[simp] theorem addr_orInto (addr width bits : Nat) : (orInto addr width bits).addr = addr := rfl
@[simp] theorem width_orInto (addr width bits : Nat) : (orInto addr width bits).width = width := rfl

variable {bigEndian : Bool} {m : Memory} {a : Nat}

theorem apply_of_not_mem (st : Store) (h : a < st.addr ∨ st.addr + st.width ≤ a) :
    st.apply bigEndian m a = m a := by
  cases st with
  | put addr data => exact Memory.write_apply_of_not_mem h
  | orInto addr width bits => exact Memory.write_apply_of_not_mem (by simpa using h)

/-- A byte outside the footprint of every store keeps its value. -/
theorem applyAll_of_not_mem (stores : List Store)
    (h : ∀ st ∈ stores, a < st.addr ∨ st.addr + st.width ≤ a) :
    applyAll bigEndian stores m a = m a := by
  induction stores generalizing m with
  | nil => rfl
  | cons st stores ih =>
      simp only [applyAll, List.foldl_cons] at ih ⊢
      rw [ih (fun s hs => h s (List.mem_cons_of_mem _ hs)),
        apply_of_not_mem st (h st (List.mem_cons_self _ _))]

/-- Stores within `[lo, hi)` leave every byte outside `[lo, hi)` unchanged. -/
theorem applyAll_of_within {lo hi : Nat} (stores : List Store)
    (hw : ∀ st ∈ stores, st.Within lo hi) (ha : a < lo ∨ hi ≤ a) :
    applyAll bigEndian stores m a = m a :=
  applyAll_of_not_mem stores fun st hs => by
    have := hw st hs
    simp only [Within] at this
    omega

/-- Stores that write no byte of `[a, a + n)` leave the `n` bytes at `a` as they were. -/
theorem read_applyAll_of_not_mem {n : Nat} (stores : List Store)
    (h : ∀ st ∈ stores, ∀ i < n, a + i < st.addr ∨ st.addr + st.width ≤ a + i) :
    (applyAll bigEndian stores m).read a n = m.read a n :=
  Memory.read_congr fun i hi => applyAll_of_not_mem stores fun st hs => h st hs i hi

@[simp] theorem applyAll_nil : applyAll bigEndian [] m = m := rfl

@[simp] theorem applyAll_cons (st : Store) (stores : List Store) :
    applyAll bigEndian (st :: stores) m = applyAll bigEndian stores (st.apply bigEndian m) := rfl

@[simp] theorem applyAll_append (s t : List Store) :
    applyAll bigEndian (s ++ t) m = applyAll bigEndian t (applyAll bigEndian s m) := by
  simp [applyAll, List.foldl_append]

end Store

end BootImage
