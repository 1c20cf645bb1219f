import Mathlib.Data.List.Sort

/-!
# `sort.Slice`

`sort.Slice` is not stable: it returns some arrangement in which no element is less than an earlier
one.  `SliceSort` is any function that keeps this promise; `SliceSort.insertion` is one that can be
run.
-/

namespace Autumn
namespace Lib

/-- A sort that keeps the promise of `sort.Slice` for the order `less`. -/
structure SliceSort (α : Type*) (less : α → α → Bool) where
  sort : List α → List α
  perm : ∀ l, (sort l).Perm l
  sorted : ∀ l, (sort l).Pairwise fun a b => less b a = false

variable {α : Type*}

theorem pairwise_insertionSort_le {β : Type*} [LinearOrder β] (f : α → β) (l : List α) :
    (l.insertionSort fun a b => f a ≤ f b).Pairwise fun a b => ¬ f b < f a := by
  have htotal : Std.Total fun a b : α => f a ≤ f b := ⟨fun a b => le_total (f a) (f b)⟩
  have htrans : IsTrans α fun a b => f a ≤ f b := ⟨fun _ _ _ => le_trans⟩
  exact (List.pairwise_insertionSort (fun a b => f a ≤ f b) l).imp not_lt.mpr

/-- Insertion sort by a natural number read off the elements. -/
def SliceSort.insertion (f : α → ℕ) : SliceSort α fun a b => decide (f a < f b) where
  sort := List.insertionSort fun a b => f a ≤ f b
  perm := List.perm_insertionSort fun a b => f a ≤ f b
  sorted := fun l => (pairwise_insertionSort_le f l).imp fun h => decide_eq_false h

/-- Insertion sort, greatest number first. -/
def SliceSort.insertionDesc (f : α → ℕ) : SliceSort α fun a b => decide (f a > f b) where
  sort := List.insertionSort fun a b => f b ≤ f a
  perm := List.perm_insertionSort fun a b => f b ≤ f a
  sorted := by
    intro l
    have htotal : Std.Total fun a b : α => f b ≤ f a := ⟨fun a b => le_total (f b) (f a)⟩
    have htrans : IsTrans α fun a b => f b ≤ f a := ⟨fun _ _ _ h h' => le_trans h' h⟩
    refine (List.pairwise_insertionSort (fun a b => f b ≤ f a) l).imp fun h => ?_
    simpa using h

/-- Insertion sort, for an order that comes from a linear one. -/
def SliceSort.ofKey {β : Type*} [LinearOrder β] (f : α → β) {less : α → α → Bool}
    (h : ∀ a b, less a b = decide (f a < f b)) : SliceSort α less where
  sort := List.insertionSort fun a b => f a ≤ f b
  perm := List.perm_insertionSort fun a b => f a ≤ f b
  sorted := fun l => (pairwise_insertionSort_le f l).imp fun hab =>
    (h _ _).trans (decide_eq_false hab)

end Lib
end Autumn
