import Mathlib
/-!
# `prevector`

`prevector<N, T>` of `prevector.h`, with its default `size_type` `uint32_t`.  Up to `N` elements
live in the object itself (`direct`); more live in a heap block (`indirect`) whose size is
`_union.capacity`.  The one field `_size` says both how many elements there are and where: the
storage is direct while `_size <= N`, and otherwise `_size` is the size plus `N + 1`.

Memory is modelled as cells: a buffer is the value in each of its cells, a pointer names a buffer
and an offset, and `memmove`, `memcpy` and the `fill`s write ranges of cells.  The arithmetic on
`_size` is `uint32_t` arithmetic, taken modulo `2^32`: a size within `N + 1` of `2^32` overflows
the encoding, and a growth step `new_size + (new_size >> 1)` can overflow too.  Allocation is
taken to succeed.  `T()` is `default`.
-/

namespace Tapyrus

/-- `size_type` arithmetic: `uint32_t`, modulo `2^32`. -/
def size_type (x : ℕ) : ℕ := x % 2 ^ 32

/-- A pointer into a prevector's storage: into the direct buffer or the heap block, at an
offset. -/
structure Ptr where
  inDirect : Bool
  pos : ℕ
  deriving DecidableEq, Repr

/-- A `prevector<N, T>`: the encoded `_size` and both arms of `_union`, of which `is_direct` says
which is live. -/
structure prevector (N : ℕ) (α : Type) where
  _size : ℕ
  direct : ℕ → α
  /-- `_union.capacity`, the number of cells of the heap block -/
  indirectCapacity : ℕ
  indirect : ℕ → α

namespace prevector

variable {N : ℕ} {α : Type}

def is_direct (v : prevector N α) : Bool := v._size ≤ N

/-- `size()`; an indirect `_size` is above `N`, so the subtraction does not wrap. -/
def size (v : prevector N α) : ℕ := if v.is_direct then v._size else v._size - N - 1

/-- `capacity()`. -/
def capacity (v : prevector N α) : ℕ := if v.is_direct then N else v.indirectCapacity

def item_ptr (v : prevector N α) (pos : ℕ) : Ptr := ⟨v.is_direct, pos⟩

/-- The cell a pointer names. -/
def load (v : prevector N α) (p : Ptr) : α := if p.inDirect then v.direct p.pos else v.indirect p.pos

/-- Write the `n` cells from `dst` on, cell `dst + i` taking `f i`. -/
def store (v : prevector N α) (dst : Ptr) (n : ℕ) (f : ℕ → α) : prevector N α :=
  let cells := fun (buf : ℕ → α) i => if dst.pos ≤ i ∧ i < dst.pos + n then f (i - dst.pos) else buf i
  if dst.inDirect then { v with direct := cells v.direct } else { v with indirect := cells v.indirect }

/-- `memmove(dst, src, n * sizeof(T))`, and `memcpy` between buffers. -/
def memmove (v : prevector N α) (dst src : Ptr) (n : ℕ) : prevector N α :=
  v.store dst n fun i => v.load ⟨src.inDirect, src.pos + i⟩

/-- `fill(dst, count, value)`, and `fill(dst, count)` with `T()`. -/
def fill (v : prevector N α) (dst : Ptr) (count : ℕ) (value : α) : prevector N α :=
  v.store dst count fun _ => value

/-- The elements `[begin(), end())`. -/
def elems (v : prevector N α) : List α := List.ofFn fun i : Fin v.size => v.load (v.item_ptr i)

/-- `erase(first, last)`.  For a trivially destructible `T` it subtracts `last - p` from `_size`,
otherwise it decrements `_size` once per element destroyed: the same. -/
def erase (v : prevector N α) (first last : Ptr) : prevector N α :=
  let endp := v.item_ptr v.size
  let v' := { v with _size := v._size - (last.pos - first.pos) }
  v'.memmove first last (endp.pos - last.pos)

/-! ## Memory -/

@[simp] theorem store_size (v : prevector N α) (dst : Ptr) (n : ℕ) (f : ℕ → α) :
    (v.store dst n f)._size = v._size := by
  unfold store
  split <;> rfl

@[simp] theorem store_indirectCapacity (v : prevector N α) (dst : Ptr) (n : ℕ) (f : ℕ → α) :
    (v.store dst n f).indirectCapacity = v.indirectCapacity := by
  unfold store
  split <;> rfl

/-- A store writes its range of its buffer and leaves every other cell. -/
theorem load_store (v : prevector N α) (dst : Ptr) (n : ℕ) (f : ℕ → α) (p : Ptr) :
    (v.store dst n f).load p =
      if p.inDirect = dst.inDirect ∧ dst.pos ≤ p.pos ∧ p.pos < dst.pos + n then f (p.pos - dst.pos)
      else v.load p := by
  obtain ⟨d, i⟩ := p
  obtain ⟨e, j⟩ := dst
  unfold store load
  cases d <;> cases e <;> simp

/-- A fill of the live buffer from position `j` writes the cells `j, ..., j + n - 1`. -/
theorem load_fill_item_ptr (v : prevector N α) (j n i : ℕ) (x : α) :
    (v.fill (v.item_ptr j) n x).load (v.item_ptr i) =
      if j ≤ i ∧ i < j + n then x else v.load (v.item_ptr i) := by
  simp [fill, load_store, item_ptr]

/-- The elements are the cells from the start of the live buffer, as many as the size. -/
theorem elems_eq_iff {v : prevector N α} {l : List α} :
    v.elems = l ↔ v.size = l.length ∧ ∀ i (hi : i < l.length), v.load (v.item_ptr i) = l[i] := by
  constructor
  · rintro rfl
    exact ⟨by simp [elems], fun i hi => by simp [elems]⟩
  · rintro ⟨hs, hl⟩
    apply List.ext_getElem (by simp [elems, hs])
    intro i h1 h2
    simp [elems, hl i h2]

/-! ## The encoding of `_size` -/

/-- What every prevector keeps: `_size` is a `uint32_t`, the size fits the capacity, and a heap
block is larger than the direct buffer. -/
structure Inv (v : prevector N α) : Prop where
  lt : v._size < 2 ^ 32
  size_le : v.size ≤ v.capacity
  block : v.is_direct = false → N < v.indirectCapacity

/-- An indirect `_size` is the size plus `N + 1`. -/
theorem _size_of_indirect {v : prevector N α} (h : v.is_direct = false) :
    v._size = v.size + N + 1 := by
  simp only [size, h, Bool.false_eq_true, if_false]
  simp only [is_direct, decide_eq_false_iff_not, not_le] at h
  omega

theorem size_of_direct {v : prevector N α} (h : v.is_direct = true) : v.size = v._size := by
  simp [size, h]

/-- `_size` is at most the size plus `N + 1`, with equality when indirect. -/
theorem _size_le (v : prevector N α) : v._size ≤ v.size + N + 1 := by
  cases h : v.is_direct
  · rw [_size_of_indirect h]
  · rw [size_of_direct h]
    omega

variable [Inhabited α]

/-- `fill(dst, first, last)`. -/
def fillRange (v : prevector N α) (dst : Ptr) (xs : List α) : prevector N α :=
  v.store dst xs.length fun i => xs.getD i default

/-- `change_capacity`.  `realloc` keeps the cells of the block; `malloc` gives a block whose
cells hold nothing yet, here `default`. -/
def change_capacity (v : prevector N α) (new_capacity : ℕ) : prevector N α :=
  if new_capacity ≤ N then
    if !v.is_direct then
      -- memcpy(dst, src, size() * sizeof(T)); free(indirect); _size -= N + 1
      let v' := v.memmove ⟨true, 0⟩ ⟨false, 0⟩ v.size
      { v' with _size := v._size - (N + 1) }
    else v
  else if !v.is_direct then
    { v with indirectCapacity := new_capacity }
  else
    let v' : prevector N α := { v with indirect := fun _ => default }
    let v' := v'.memmove ⟨false, 0⟩ ⟨true, 0⟩ v.size
    { v' with indirectCapacity := new_capacity, _size := size_type (v._size + (N + 1)) }

/-- `resize(new_size)`. -/
def resize (v : prevector N α) (new_size : ℕ) : prevector N α :=
  let cur_size := v.size
  if cur_size = new_size then v
  else if cur_size > new_size then v.erase (v.item_ptr new_size) (v.item_ptr v.size)
  else
    let v := if new_size > v.capacity then v.change_capacity new_size else v
    let increase := new_size - cur_size
    let v := v.fill (v.item_ptr cur_size) increase default
    { v with _size := size_type (v._size + increase) }

/-- `reserve(new_capacity)`. -/
def reserve (v : prevector N α) (new_capacity : ℕ) : prevector N α :=
  if new_capacity > v.capacity then v.change_capacity new_capacity else v

def shrink_to_fit (v : prevector N α) : prevector N α := v.change_capacity v.size

def clear (v : prevector N α) : prevector N α := v.resize 0

/-- `assign(n, val)`. -/
def assign (v : prevector N α) (n : ℕ) (val : α) : prevector N α :=
  let v := v.clear
  let v := if v.capacity < n then v.change_capacity n else v
  let v := { v with _size := size_type (v._size + n) }
  v.fill (v.item_ptr 0) n val

/-- `assign(first, last)`. -/
def assignRange (v : prevector N α) (xs : List α) : prevector N α :=
  let n := size_type xs.length
  let v := v.clear
  let v := if v.capacity < n then v.change_capacity n else v
  let v := { v with _size := size_type (v._size + n) }
  v.fillRange (v.item_ptr 0) xs

/-- The growth step of `insert` and `push_back`: to one and a half times the new size. -/
def grow (v : prevector N α) (new_size : ℕ) : prevector N α :=
  if v.capacity < new_size then v.change_capacity (size_type (new_size + (new_size >>> 1))) else v

/-- `insert(pos, value)`, at the position `p` of `pos`. -/
def insert (v : prevector N α) (p : ℕ) (value : α) : prevector N α :=
  let v := v.grow (size_type (v.size + 1))
  let ptr := v.item_ptr p
  let v := v.memmove ⟨ptr.inDirect, ptr.pos + 1⟩ ptr (v.size - p)
  let v := { v with _size := size_type (v._size + 1) }
  v.fill ptr 1 value

/-- `insert(pos, count, value)`. -/
def insertFill (v : prevector N α) (p count : ℕ) (value : α) : prevector N α :=
  let v := v.grow (size_type (v.size + count))
  let ptr := v.item_ptr p
  let v := v.memmove ⟨ptr.inDirect, ptr.pos + count⟩ ptr (v.size - p)
  let v := { v with _size := size_type (v._size + count) }
  v.fill (v.item_ptr p) count value

/-- `insert(pos, first, last)`. -/
def insertRange (v : prevector N α) (p : ℕ) (xs : List α) : prevector N α :=
  let count := xs.length
  let v := v.grow (size_type (v.size + count))
  let ptr := v.item_ptr p
  let v := v.memmove ⟨ptr.inDirect, ptr.pos + count⟩ ptr (v.size - p)
  let v := { v with _size := size_type (v._size + count) }
  v.fillRange ptr xs

/-- `push_back(value)`. -/
def push_back (v : prevector N α) (value : α) : prevector N α :=
  let v := v.grow (size_type (v.size + 1))
  let v := v.fill (v.item_ptr v.size) 1 value
  { v with _size := size_type (v._size + 1) }

/-- `pop_back()`: `erase(end() - 1, end())`. -/
def pop_back (v : prevector N α) : prevector N α :=
  v.erase (v.item_ptr (v.size - 1)) (v.item_ptr v.size)

/-- `prevector()`: an empty direct prevector, `_union` zeroed. -/
def empty : prevector N α := ⟨0, fun _ => default, 0, fun _ => default⟩

/-- The constructors that size the storage, then fill it: `change_capacity(n); _size += n`. -/
def construct (n : ℕ) (write : prevector N α → prevector N α) : prevector N α :=
  let v := (empty : prevector N α).change_capacity n
  write { v with _size := size_type (v._size + n) }

/-- `prevector(n, val)`. -/
def ofFill (n : ℕ) (val : α) : prevector N α := construct n fun v => v.fill (v.item_ptr 0) n val

/-- `prevector(first, last)`. -/
def ofRange (xs : List α) : prevector N α :=
  construct (size_type xs.length) fun v => v.fillRange (v.item_ptr 0) xs

/-- `prevector(n)`: `_size(0)`, then `resize(n)`. -/
def ofSize (n : ℕ) : prevector N α := (empty : prevector N α).resize n

/-- `prevector(const prevector& other)`. -/
def copy (other : prevector N α) : prevector N α :=
  construct other.size fun v => v.fillRange (v.item_ptr 0) other.elems

/-! ## `push_back` below the wrap -/

/-- What `change_capacity` does to a direct prevector that needs a heap block: the block holds the
elements, and `_size` takes the indirect encoding. -/
theorem change_capacity_of_direct {v : prevector N α} (hd : v.is_direct = true) {c : ℕ}
    (hc : N < c) :
    (v.change_capacity c)._size = size_type (v._size + (N + 1)) ∧
      (v.change_capacity c).indirectCapacity = c ∧
      ∀ i < v.size, (v.change_capacity c).indirect i = v.direct i := by
  have hc' : ¬c ≤ N := not_le.mpr hc
  refine ⟨by simp [change_capacity, hd, hc'], by simp [change_capacity, hd, hc'], fun i hi => ?_⟩
  simp [change_capacity, hd, hc', memmove, store, load, hi]

/-- Growing to room for `n` elements, where `n + n / 2` does not wrap, keeps the invariant and the
elements. -/
theorem grow_spec {v : prevector N α} (hv : v.Inv) {n : ℕ} (hn : v.size < n)
    (hwrap : n + (n >>> 1) + N + 1 < 2 ^ 32) :
    (v.grow n).Inv ∧ (v.grow n).size = v.size ∧ n ≤ (v.grow n).capacity ∧
      ∀ i < v.size, (v.grow n).load ((v.grow n).item_ptr i) = v.load (v.item_ptr i) := by
  unfold grow
  split_ifs with hcap
  swap
  · exact ⟨hv, rfl, not_lt.mp hcap, fun _ _ => rfl⟩
  have hc : size_type (n + (n >>> 1)) = n + (n >>> 1) := Nat.mod_eq_of_lt (by omega)
  have hsize := hv.size_le
  rw [hc]
  -- the new capacity is above the direct buffer
  have hN : N < n + (n >>> 1) := by
    cases hd : v.is_direct
    · have := hv.block hd
      simp only [capacity, hd, Bool.false_eq_true, if_false] at hcap
      omega
    · simp only [capacity, hd, if_true] at hcap
      omega
  cases hd : v.is_direct
  · -- a heap block: `realloc` to the new capacity
    have hw : v.change_capacity (n + (n >>> 1)) = { v with indirectCapacity := n + (n >>> 1) } := by
      simp [change_capacity, hd, not_le.mpr hN]
    rw [hw]
    set w : prevector N α := { v with indirectCapacity := n + (n >>> 1) }
    have hwd : w.is_direct = false := hd
    have hwc : w.capacity = n + (n >>> 1) := by
      simp only [capacity, hwd, Bool.false_eq_true, if_false]
      rfl
    refine ⟨⟨hv.lt, ?_, fun _ => hN⟩, rfl, by omega, fun _ _ => rfl⟩
    show v.size ≤ w.capacity
    omega
  · -- the direct buffer moves to a new block
    obtain ⟨h_size, hcapw, hcells⟩ := change_capacity_of_direct hd hN
    have hs := size_of_direct hd
    have hdirect : v._size ≤ N := by simpa [is_direct] using hd
    have hwrap' : size_type (v._size + (N + 1)) = v._size + (N + 1) := Nat.mod_eq_of_lt (by omega)
    rw [hwrap'] at h_size
    set w := v.change_capacity (n + (n >>> 1))
    have hwd : w.is_direct = false := by
      simp only [is_direct, h_size, decide_eq_false_iff_not]
      omega
    have hws : w.size = v.size := by
      rw [size, if_neg (by simp [hwd]), h_size]
      omega
    have hwc : w.capacity = n + (n >>> 1) := by simp [capacity, hwd, hcapw]
    refine ⟨⟨by omega, by omega, fun _ => by omega⟩, hws, by omega, fun i hi => ?_⟩
    simp only [load, item_ptr, hwd, hd, Bool.false_eq_true, if_false, if_true]
    exact hcells i hi

/-- `push_back` where the growth step does not wrap keeps the invariant and appends the value. -/
theorem push_back_elems {v : prevector N α} (hv : v.Inv) (x : α)
    (hwrap : v.size + 1 + ((v.size + 1) >>> 1) + N + 1 < 2 ^ 32) :
    (v.push_back x).Inv ∧ (v.push_back x).elems = v.elems ++ [x] := by
  have hs1 : size_type (v.size + 1) = v.size + 1 := Nat.mod_eq_of_lt (by omega)
  obtain ⟨hgi, hgs, hgc, hgl⟩ := grow_spec hv (Nat.lt_succ_self v.size) hwrap
  unfold push_back
  dsimp only
  rw [hs1]
  set g := v.grow (v.size + 1)
  set f := g.fill (g.item_ptr g.size) 1 x
  have hf_size : f._size = g._size := store_size ..
  have hg_size := _size_le g
  have hinc : size_type (f._size + 1) = g._size + 1 := by
    rw [hf_size]
    exact Nat.mod_eq_of_lt (by omega)
  rw [hinc]
  set r : prevector N α := { f with _size := g._size + 1 }
  have hr_size : r._size = g._size + 1 := rfl
  have hr_cap : r.indirectCapacity = g.indirectCapacity := store_indirectCapacity ..
  -- the new element stays in the buffer `grow` chose
  have hrd : r.is_direct = g.is_direct := by
    cases hd : g.is_direct
    · have := _size_of_indirect hd
      simp only [is_direct, hr_size, decide_eq_false_iff_not, not_le] at hd ⊢
      omega
    · have := size_of_direct hd
      have hcap : g.capacity = N := by simp [capacity, hd]
      simp only [is_direct, hr_size, decide_eq_true_eq] at hd ⊢
      omega
  have hrs : r.size = g.size + 1 := by
    cases hd : g.is_direct
    · have := _size_of_indirect hd
      simp only [size, hrd, hd, hr_size, Bool.false_eq_true, if_false]
      omega
    · simp only [size, hrd, hd, hr_size, if_true]
  have hrc : r.capacity = g.capacity := by
    simp only [capacity, hrd, hr_cap]
  have hrl : ∀ i, r.load (r.item_ptr i) = f.load (g.item_ptr i) := by
    intro i
    simp only [item_ptr, hrd]
    rfl
  refine ⟨⟨by omega, by omega, fun hd => ?_⟩, elems_eq_iff.mpr ⟨by simp [hrs, hgs, elems], ?_⟩⟩
  · rw [hrd] at hd
    rw [hr_cap]
    exact hgi.block hd
  intro i hi
  rw [hrl, load_fill_item_ptr]
  simp only [List.length_append, elems, List.length_ofFn, List.length_singleton] at hi
  rcases Nat.lt_succ_iff_lt_or_eq.mp hi with hi | rfl
  · rw [if_neg (by omega), hgl i hi, List.getElem_append_left (by simp [elems, hi])]
    simp [elems]
  · rw [if_pos (by omega), List.getElem_append_right (by simp [elems])]
    simp [elems]

/-! ## Growth past `uint32_t` -/

/-- `push_back` on a full prevector of `2863311550` elements: the new capacity
`2863311551 + (2863311551 >> 1)` wraps to `30` in `uint32_t`, so the block is reallocated to 30
elements while the size becomes `2863311551`. -/
theorem push_back_capacity_wraps :
    ((ofSize 2863311550 : prevector 28 UInt8).push_back 0).size = 2863311551 ∧
      ((ofSize 2863311550 : prevector 28 UInt8).push_back 0).capacity = 30 ∧
      ((ofSize 2863311550 : prevector 28 UInt8).push_back 0).capacity <
        ((ofSize 2863311550 : prevector 28 UInt8).push_back 0).size := by
  decide

end prevector

end Tapyrus
