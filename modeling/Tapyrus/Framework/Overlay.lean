import Mathlib.Logic.Function.Basic
import Mathlib.Data.List.Basic
/-!
# Stacks of overlays

A map seen through a stack of overlays.  Each overlay either sets a key, to a value or to
nothing, or leaves it to the layers below; the bottom of the stack is a base map.  Writes go to
the top overlay.  Flushing an overlay merges it into the layer below and empties it, so that
the flushed layer and every layer above it keep seeing the map they saw, while the layer below
now sees it too.
-/

namespace Framework

variable {κ ν : Type*}

/-- An overlay: `some v` where it sets a key to `v` (`v = none` erases the key), `none` where
it leaves the key to the layers below. -/
abbrev Overlay (κ ν : Type*) := κ → Option (Option ν)

/-- The map shown by the overlays `os`, the top first, over `base`. -/
def layeredView (base : κ → Option ν) : List (Overlay κ ν) → κ → Option ν
  | [], k => base k
  | o :: os, k => (o k).getD (layeredView base os k)

@[simp] theorem layeredView_nil (base : κ → Option ν) : layeredView base [] = base := rfl

theorem layeredView_cons (base : κ → Option ν) (o : Overlay κ ν) (os : List (Overlay κ ν))
    (k : κ) : layeredView base (o :: os) k = (o k).getD (layeredView base os k) := rfl

/-- The overlay that sets nothing. -/
def Overlay.empty : Overlay κ ν := fun _ => none

/-- `upper` merged onto `lower`: the keys `upper` sets win. -/
def Overlay.merge (upper lower : Overlay κ ν) : Overlay κ ν := fun k => (upper k).or (lower k)

/-- `upper` merged onto a base map. -/
def Overlay.mergeBase (upper : Overlay κ ν) (base : κ → Option ν) : κ → Option ν :=
  fun k => (upper k).getD (base k)

@[simp] theorem layeredView_empty (base : κ → Option ν) (os : List (Overlay κ ν)) :
    layeredView base (Overlay.empty :: os) = layeredView base os := rfl

theorem layeredView_merge (base : κ → Option ν) (o o' : Overlay κ ν) (os : List (Overlay κ ν)) :
    layeredView base (o.merge o' :: os) = layeredView base (o :: o' :: os) := by
  funext k
  simp only [layeredView_cons, Overlay.merge]
  cases o k <;> rfl

/-- A base map and the overlays on it, the top first. -/
structure Overlays (κ ν : Type*) where
  base : κ → Option ν
  layers : List (Overlay κ ν)

namespace Overlays

/-- The map layer `j` shows: `j = 0` is the top, `j = layers.length` the base. -/
def view (s : Overlays κ ν) (j : ℕ) : κ → Option ν := layeredView s.base (s.layers.drop j)

/-- A new empty overlay on top. -/
def push (s : Overlays κ ν) : Overlays κ ν := ⟨s.base, Overlay.empty :: s.layers⟩

/-- The top overlay dropped, with what it set. -/
def pop (s : Overlays κ ν) : Overlays κ ν := ⟨s.base, s.layers.tail⟩

@[simp] theorem view_push_zero (s : Overlays κ ν) : s.push.view 0 = s.view 0 := rfl

@[simp] theorem view_push_succ (s : Overlays κ ν) (j : ℕ) : s.push.view (j + 1) = s.view j := rfl

@[simp] theorem view_pop (s : Overlays κ ν) (j : ℕ) : s.pop.view j = s.view (j + 1) := by
  obtain ⟨base, layers⟩ := s
  cases layers with
  | nil => simp [view, pop]
  | cons o os => rfl

/-- Merge overlay `j` into the layer below and empty it. -/
def flushLayers (base : κ → Option ν) : ℕ → List (Overlay κ ν) → (κ → Option ν) × List (Overlay κ ν)
  | _, [] => (base, [])
  | 0, [o] => (o.mergeBase base, [Overlay.empty])
  | 0, o :: o' :: os => (base, Overlay.empty :: o.merge o' :: os)
  | j + 1, o :: os => ((flushLayers base j os).1, o :: (flushLayers base j os).2)

/-- Flush overlay `j` into the layer below it. -/
def flush (s : Overlays κ ν) (j : ℕ) : Overlays κ ν :=
  ⟨(flushLayers s.base j s.layers).1, (flushLayers s.base j s.layers).2⟩

@[simp] theorem length_flushLayers (base : κ → Option ν) (j : ℕ) (os : List (Overlay κ ν)) :
    (flushLayers base j os).2.length = os.length := by
  induction os generalizing j with
  | nil => cases j <;> rfl
  | cons o os ih =>
    cases j with
    | zero => cases os <;> rfl
    | succ j => simp [flushLayers, ih]

/-- The flushed layer and the layers above it see what they saw. -/
theorem view_flush_of_le (s : Overlays κ ν) {j j' : ℕ} (h : j' ≤ j) :
    (s.flush j).view j' = s.view j' := by
  obtain ⟨base, os⟩ := s
  simp only [flush, view]
  induction os generalizing j j' with
  | nil => cases j <;> rfl
  | cons o os ih =>
    cases j with
    | zero =>
      obtain rfl : j' = 0 := by omega
      cases os with
      | nil => rfl
      | cons o' os => simp [flushLayers, layeredView_merge]
    | succ j =>
      cases j' with
      | zero =>
        funext k
        have hrest := ih (Nat.zero_le j)
        simp only [List.drop_zero] at hrest
        simp only [flushLayers, List.drop_zero, layeredView_cons, hrest]
      | succ j' => simpa [flushLayers] using ih (Nat.le_of_succ_le_succ h)

/-- The layer below the flushed one sees what the flushed one saw. -/
theorem view_flush_succ (s : Overlays κ ν) {j : ℕ} (h : j < s.layers.length) :
    (s.flush j).view (j + 1) = s.view j := by
  obtain ⟨base, os⟩ := s
  simp only [flush, view] at h ⊢
  induction os generalizing j with
  | nil => simp at h
  | cons o os ih =>
    cases j with
    | zero =>
      cases os with
      | nil => rfl
      | cons o' os => simp [flushLayers, layeredView_merge]
    | succ j => simpa [flushLayers] using ih (by simpa using h)

/-- The layers further below see what they saw. -/
theorem view_flush_of_lt (s : Overlays κ ν) {j j' : ℕ} (h : j + 1 < j')
    (h' : j' ≤ s.layers.length) : (s.flush j).view j' = s.view j' := by
  obtain ⟨base, os⟩ := s
  simp only [flush, view] at h' ⊢
  induction os generalizing j j' with
  | nil => cases j <;> rfl
  | cons o os ih =>
    obtain ⟨j', rfl⟩ : ∃ i, j' = i + 1 := ⟨j' - 1, by omega⟩
    cases j with
    | zero =>
      cases os with
      | nil => simp at h'; omega
      | cons o' os =>
        obtain ⟨j', rfl⟩ : ∃ i, j' = i + 1 := ⟨j' - 1, by omega⟩
        rfl
    | succ j => simpa [flushLayers] using ih (by omega) (by simpa using h')

variable [DecidableEq κ]

/-- Set key `k` to `v` in overlay `j`. -/
def writeAt (s : Overlays κ ν) (j : ℕ) (k : κ) (v : Option ν) : Overlays κ ν :=
  ⟨s.base, s.layers.modify j fun o => Function.update o k (some v)⟩

/-- A write to the top overlay changes what the top sees at that key. -/
theorem view_writeAt_zero {s : Overlays κ ν} (h : s.layers ≠ []) (k : κ) (v : Option ν) :
    (s.writeAt 0 k v).view 0 = Function.update (s.view 0) k v := by
  obtain ⟨base, layers⟩ := s
  cases layers with
  | nil => exact absurd rfl h
  | cons o os =>
    funext k'
    by_cases hk : k' = k
    · subst hk
      simp [writeAt, view, layeredView_cons]
    · simp [writeAt, view, layeredView_cons, Function.update_of_ne hk]

/-- ... and nothing the layers below it see. -/
theorem view_writeAt_zero_succ (s : Overlays κ ν) (k : κ) (v : Option ν) (j : ℕ) :
    (s.writeAt 0 k v).view (j + 1) = s.view (j + 1) := by
  obtain ⟨base, layers⟩ := s
  cases layers <;> rfl

@[simp] theorem length_writeAt (s : Overlays κ ν) (j : ℕ) (k : κ) (v : Option ν) :
    (s.writeAt j k v).layers.length = s.layers.length := by
  simp [writeAt]

end Overlays

end Framework
