/-!
# A sliding window

The newest entries of a sequence, up to a fixed number. It is a queue in two lists, the older
entries in front and the newer ones behind, the newest first.
-/

namespace MarketFeed

namespace Window

/-- The most entries of a window. -/
def capacity : Nat := 10000

end Window

structure Window where
  older : List UInt64 := []
  newer : List UInt64 := []
  size : Nat := 0
  size_eq : size = older.length + newer.length := by rfl

namespace Window

def empty : Window := {}

instance : Inhabited Window := ⟨empty⟩

/-- The entries, the oldest first. -/
def toList (w : Window) : List UInt64 := w.older ++ w.newer.reverse

/-- The window without its oldest entry. -/
def dropOldest (w : Window) : Window :=
  match w with
  | ⟨_ :: older, newer, size, h⟩ => ⟨older, newer, size - 1, by simp at h; omega⟩
  | ⟨[], newer, size, h⟩ =>
    ⟨newer.reverse.tail, [], size - 1, by simp at h; simp; omega⟩

/-- The window with one more entry, the oldest making room for it. -/
def push (w : Window) (x : UInt64) : Window :=
  let w := if capacity ≤ w.size then w.dropOldest else w
  { w with newer := x :: w.newer, size := w.size + 1, size_eq := by simp [w.size_eq]; omega }

theorem toList_dropOldest (w : Window) : w.dropOldest.toList = w.toList.tail := by
  obtain ⟨older, newer, size, h⟩ := w
  cases older <;> simp [dropOldest, toList]

theorem length_toList (w : Window) : w.toList.length = w.size := by
  simp [toList, w.size_eq]

theorem toList_push (w : Window) (x : UInt64) :
    (w.push x).toList =
      (if capacity ≤ w.toList.length then w.toList.tail else w.toList) ++ [x] := by
  have append (w : Window) (h) :
      toList ⟨w.older, x :: w.newer, w.size + 1, h⟩ = w.toList ++ [x] := by
    simp [toList]
  rw [length_toList, push, append]
  split
  · rw [toList_dropOldest]
  · rfl

end Window

end MarketFeed
