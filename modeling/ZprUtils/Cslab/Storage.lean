import ZprUtils.Foundations.MachineInt
import ZprUtils.Foundations.PackedBits

/-!
# Storage of a slab

`CslabStorage` glues the table of a slab and its presence bitmap together. A table entry is a union
of a free list offset and an item; the model keeps the active field as a constructor, and a read of
the inactive field is undefined behaviour. A freshly allocated table is all zeros, which stands for
offsets to the neighbours.

The allocator may answer with a null pointer, which the code does not look at. The storage then has
a size but neither entries nor bitmap words: the bounds checks compare against the size, and the
first access behind them is undefined behaviour.

## Main definitions

* `Layout`, `storageLayout` — the memory layout of the allocation, and whether it exists.
* `Alloc` — the answer of the allocator.
* `CslabStorage`, `CslabStorage.withFixedCapacity`.
* `CslabStorage.containsKeyImpl`, `CslabStorage.getUncheckedImpl`, `CslabStorage.getImpl` — the
  reads shared by the slab and its readers.
-/

namespace ZprUtils

/-! ### Memory layouts -/

/-- Size and alignment of a type, in bytes. -/
structure Layout where
  size : Nat
  align : Nat
  deriving DecidableEq, Repr

namespace Layout

/-- The layout of a machine word. -/
def word : Layout := ⟨usizeBits / 8, usizeBits / 8⟩

/-- The least multiple of `align` that is at least `n`. -/
def roundUp (n align : Nat) : Nat := (n + align - 1) / align * align

/-- A layout whose size, rounded up to its alignment, fits in an `isize`. -/
def check (l : Layout) : Except RustFault Layout :=
  if l.size + l.align ≤ isizeMax + 1 then .ok l else .error .panic

/-- The layout of an array of `n` elements; an error is unwrapped by the callers. -/
def array (elem : Layout) (n : Nat) : Except RustFault Layout :=
  check ⟨elem.size * n, elem.align⟩

/-- The layout of `l` followed by `next`, and the offset of `next`. -/
def extend (l next : Layout) : Except RustFault (Layout × Nat) := do
  let offset := roundUp l.size next.align
  let layout ← check ⟨offset + next.size, max l.align next.align⟩
  return (layout, offset)

/-- The layout of the union `Entry<T>` of an `isize` and a `T`. -/
def entry (t : Layout) : Layout :=
  ⟨roundUp (max word.size t.size) (max word.align t.align), max word.align t.align⟩

end Layout

/-- The number of bitmap words of a storage of `n` slots. -/
def bitmapLen (n : Nat) : Nat := (n + usizeBits - 1) / usizeBits

/-- The layout of the table: `n` entries for items of layout `t`. -/
def tableLayout (t : Layout) (n : Nat) : Except RustFault Layout :=
  t.entry.array n

/-- The layout of the bitmap of `n` slots; the number of its words is computed in a `usize`. -/
def bitmapLayout (n : Nat) : Except RustFault Layout := do
  let _ ← usizeAdd n (usizeBits - 1)
  Layout.word.array (bitmapLen n)

/-- The layout of the allocation, the table followed by the bitmap, and the offset of the bitmap. It
is computed before anything is allocated, and panics when it does not exist. -/
def storageLayout (t : Layout) (n : Nat) : Except RustFault (Layout × Nat) := do
  let table ← tableLayout t n
  let bitmap ← bitmapLayout n
  table.extend bitmap

theorem le_roundUp (n : Nat) {align : Nat} (h : 0 < align) : n ≤ Layout.roundUp n align := by
  have hdiv := Nat.lt_div_mul_add (a := n + align - 1) h
  rw [Layout.roundUp]
  omega

theorem le_mul_bitmapLen (n : Nat) : n ≤ usizeBits * bitmapLen n := by
  have hdiv := Nat.lt_div_mul_add (a := n + usizeBits - 1) usizeBits_pos
  have hbits := usizeBits_pos
  rw [bitmapLen, Nat.mul_comm]
  omega

/-- The union holds an `isize`, so an entry is at least as large as a word. -/
theorem word_le_entry_size (t : Layout) : usizeBits / 8 ≤ t.entry.size := by
  have halign : 0 < max Layout.word.align t.align :=
    Nat.lt_of_lt_of_le (by decide) (Nat.le_max_left _ _)
  exact Nat.le_trans (Nat.le_max_left _ t.size) (le_roundUp _ halign)

/-- A table that can be allocated has fewer than `2 ^ 60` slots. -/
theorem eight_mul_le_isizeMax {t : Layout} {n : Nat} {l : Layout × Nat}
    (h : storageLayout t n = .ok l) : 8 * n ≤ isizeMax := by
  obtain ⟨table, htable, -⟩ := except_bind_eq_ok.mp h
  have hword := word_le_entry_size t
  have hmul := Nat.mul_le_mul_right n hword
  have halign : 8 ≤ t.entry.align := Nat.le_max_left 8 t.align
  simp only [tableLayout, Layout.array, Layout.check] at htable
  split_ifs at htable with hfit
  have h8 : usizeBits / 8 = 8 := rfl
  rw [h8] at hmul
  omega

/-! ### Storage -/

/-- A bitmap word. -/
abbrev Word := BitVec usizeBits

/-- A table entry: the union of an offset to the next free slot and an item. -/
inductive Entry (α : Type) where
  | nextFree (offset : Int)
  | item (x : α)
  deriving DecidableEq, Repr

/-- The answer of `alloc_zeroed`: zeroed memory of the requested layout, or a null pointer. -/
inductive Alloc where
  | memory
  | null
  deriving DecidableEq, Repr

/-- The table and the bitmap of a slab. The frontier is above every index that was ever marked in
the bitmap. -/
structure CslabStorage (α : Type) where
  size : Nat
  frontier : Nat
  table : List (Entry α)
  bitmap : List Word
  deriving DecidableEq, Repr

namespace CslabStorage

variable {α : Type}

/-- The storage of `size` slots for items of layout `t`. The answer `alloc` of the allocator is
stored without a check: behind a null pointer there are no entries and no bitmap words. -/
def withFixedCapacity (alloc : Alloc) (t : Layout) (size : Nat) :
    Except RustFault (CslabStorage α) := do
  if size = 0 then throw .panic
  let _ ← storageLayout t size
  match alloc with
  | .memory =>
    return ⟨size, 0, List.replicate size (.nextFree 0), List.replicate (bitmapLen size) 0⟩
  | .null => return ⟨size, 0, [], []⟩

variable (s : CslabStorage α)

/-- The fault of an access to element `k` of a slice of `len` elements that has no such element: the
bounds check panics, unless the slice is at a null pointer. -/
def accessFault (k len : Nat) : RustFault :=
  if k < len then .undefined else .panic

/-- A load of the bitmap word `k`, with its bounds check. -/
def loadBitmap (k : Nat) : Except RustFault Word :=
  match s.bitmap[k]? with
  | some word => .ok word
  | none => .error (accessFault k (bitmapLen s.size))

/-- A read of the `next_free` field of an entry. -/
def readNextFree (idx : Nat) : Except RustFault Int :=
  match s.table[idx]? with
  | some (.nextFree offset) => .ok offset
  | some (.item _) => .error .undefined
  | none => .error (accessFault idx s.size)

/-- A read of the `item` field of an entry. -/
def readItem (idx : Nat) : Except RustFault α :=
  match s.table[idx]? with
  | some (.item x) => .ok x
  | some (.nextFree _) => .error .undefined
  | none => .error (accessFault idx s.size)

/-- The frontier after slot `idx` is used. -/
def raiseFrontier (idx : Nat) : Except RustFault Nat :=
  if idx ≥ s.frontier then usizeAdd idx 1 else .ok s.frontier

/-- Whether slot `idx` holds a visible item: an index past the capacity does not. -/
def containsKeyImpl (idx : Nat) : Except RustFault Bool :=
  if idx ≥ s.size then .ok false
  else do
    let word ← s.loadBitmap (idx / usizeBits)
    return (word >>> (idx % usizeBits)) &&& (1 : Word) != (0 : Word)

/-- The item of slot `idx`, without a look at the bitmap. -/
def getUncheckedImpl (idx : Nat) : Except RustFault α :=
  s.readItem idx

/-- The item of slot `idx` if the bitmap has told that there is one. -/
def getImpl (idx : Nat) : Except RustFault (Option α) := do
  if ← s.containsKeyImpl idx then return some (← s.getUncheckedImpl idx) else return none

/-! ### The presence bit of a slot -/

/-- Slot `idx` is marked in the bitmap. -/
def bit (idx : Nat) : Bool := bitAt s.bitmap idx

theorem loadBitmap_eq_ok {k : Nat} {word : Word} :
    s.loadBitmap k = .ok word ↔ s.bitmap[k]? = some word := by
  simp only [loadBitmap]
  split <;> simp_all

/-- A word past the end of an allocated bitmap fails the bounds check. -/
theorem loadBitmap_eq_panic (hlen : s.bitmap.length = bitmapLen s.size) {k : Nat} {e : RustFault}
    (h : s.loadBitmap k = .error e) : e = .panic := by
  simp only [loadBitmap] at h
  split at h
  · cases h
  · rename_i hnone
    have hle : bitmapLen s.size ≤ k := hlen ▸ List.getElem?_eq_none_iff.mp hnone
    rw [accessFault, if_neg (Nat.not_lt.mpr hle)] at h
    exact (Except.error.inj h).symm

theorem exists_loadBitmap (hlen : s.bitmap.length = bitmapLen s.size) {idx : Nat}
    (h : idx < s.size) : ∃ word, s.loadBitmap (idx / usizeBits) = .ok word := by
  have hlt : idx / usizeBits < s.bitmap.length := by
    rw [hlen, Nat.div_lt_iff_lt_mul usizeBits_pos, Nat.mul_comm]
    exact Nat.lt_of_lt_of_le h (le_mul_bitmapLen s.size)
  exact ⟨s.bitmap[idx / usizeBits], s.loadBitmap_eq_ok.mpr (List.getElem?_eq_getElem hlt)⟩

/-- The test of the bit of slot `idx` in its word. -/
theorem test_eq_ite_bit {idx : Nat} {word : Word} (h : s.loadBitmap (idx / usizeBits) = .ok word) :
    (word >>> (idx % usizeBits)) &&& (1 : Word) =
      if s.bit idx then (1 : Word) else (0 : Word) := by
  rw [bit, bitAt_eq_getLsbD (s.loadBitmap_eq_ok.mp h)]
  exact ushiftRight_and_one word (idx % usizeBits)

theorem readItem_eq_ok {idx : Nat} {x : α} :
    s.readItem idx = .ok x ↔ s.table[idx]? = some (.item x) := by
  simp only [readItem]
  split <;> simp_all

theorem readNextFree_eq_ok {idx : Nat} {offset : Int} :
    s.readNextFree idx = .ok offset ↔ s.table[idx]? = some (.nextFree offset) := by
  simp only [readNextFree]
  split <;> simp_all

end CslabStorage

end ZprUtils
