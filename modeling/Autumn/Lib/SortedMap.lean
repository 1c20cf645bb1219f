import Mathlib.Data.List.Basic
import Mathlib.Data.List.Nodup
import Mathlib.Data.List.Pairwise
import Mathlib.Order.Lattice
import Mathlib.Order.Defs.LinearOrder

/-!
# Finite maps as strictly sorted lists

The common shape of a memtable and of a table on disk: pairs in strictly increasing order of their
keys.  The order is a field of the structure, so a map out of order cannot be built.

* `SortedMap.insert`: put a pair, replacing the pair with the same key.
* `SortedMap.seek`: the first pair whose key is not below the given one.
* `SortedMap.merge`: the two-way merge; of two pairs with the same key the left one stays.
  `SortedMap.mergeAll` merges a list of maps.

Each operation has one membership lemma (`mem_insert`, `seek_eq_some_iff`, `mem_merge`).
-/

namespace Autumn
namespace Lib

open List

variable {K : Type*} {V : Type*} [LinearOrder K]

/-- Pairs in strictly increasing order of their keys. -/
structure SortedMap (K : Type*) (V : Type*) [LinearOrder K] where
  entries : List (K × V)
  /-- The keys strictly increase. -/
  sorted : entries.Pairwise fun x y => x.1 < y.1

namespace SortedMap

instance : Membership (K × V) (SortedMap K V) := ⟨fun m x => x ∈ m.entries⟩

variable {y : K × V} {k : K}

variable {m : SortedMap K V} {x : K × V} {v : V}

theorem mem_def : x ∈ m ↔ x ∈ m.entries := Iff.rfl

/-- The map without pairs. -/
def empty : SortedMap K V := ⟨[], List.Pairwise.nil⟩

instance : Inhabited (SortedMap K V) := ⟨empty⟩

/-- The map has no pairs. -/
def isEmpty (m : SortedMap K V) : Bool := m.entries.isEmpty

@[simp] theorem not_mem_empty (x : K × V) : x ∉ (empty : SortedMap K V) := by
  simp [mem_def, empty]

theorem eq_of_key_eq (hx : x ∈ m) (hy : y ∈ m) (h : x.1 = y.1) : x = y := by
  have hnd : (m.entries.map Prod.fst).Nodup := by
    rw [List.Nodup, pairwise_map]
    exact m.sorted.imp fun hlt => hlt.ne
  exact inj_on_of_nodup_map hnd hx hy h

/-! ## Insertion -/

/-- Insertion into a sorted list of pairs, replacing the pair with the same key. -/
def insertList (k : K) (v : V) : List (K × V) → List (K × V)
  | [] => [(k, v)]
  | x :: xs =>
    if k < x.1 then (k, v) :: x :: xs
    else if k = x.1 then (k, v) :: xs
    else x :: insertList k v xs

theorem mem_insertList_imp :
    ∀ {l : List (K × V)}, y ∈ insertList k v l → y = (k, v) ∨ y ∈ l
  | [], h => by simpa [insertList] using h
  | x :: xs, h => by
    rw [insertList] at h
    split_ifs at h
    · simpa using h
    · rcases mem_cons.mp h with h | h
      · exact .inl h
      · exact .inr (.tail _ h)
    · rcases mem_cons.mp h with h | h
      · exact .inr (h ▸ (.head _))
      · exact (mem_insertList_imp h).imp id (.tail _)

theorem pairwise_insertList (k : K) (v : V) :
    ∀ {l : List (K × V)}, l.Pairwise (fun x y => x.1 < y.1) →
      (insertList k v l).Pairwise fun x y => x.1 < y.1
  | [], _ => pairwise_singleton _ _
  | x :: xs, h => by
    obtain ⟨hx, hxs⟩ := pairwise_cons.mp h
    rw [insertList]
    split_ifs with h1 h2
    · refine pairwise_cons.mpr ⟨fun y hy => ?_, h⟩
      rcases hy with _ | ⟨_, hy⟩
      · exact h1
      · exact h1.trans (hx y hy)
    · exact pairwise_cons.mpr ⟨fun y hy => h2 ▸ hx y hy, hxs⟩
    · refine pairwise_cons.mpr ⟨fun y hy => ?_, pairwise_insertList k v hxs⟩
      rcases mem_insertList_imp hy with rfl | hy
      · exact lt_of_le_of_ne (not_lt.mp h1) (Ne.symm h2)
      · exact hx y hy

/-- Put a pair, replacing the pair with the same key. -/
def insert (m : SortedMap K V) (k : K) (v : V) : SortedMap K V :=
  ⟨insertList k v m.entries, pairwise_insertList k v m.sorted⟩

theorem mem_insertList_self (k : K) (v : V) : ∀ l : List (K × V), (k, v) ∈ insertList k v l
  | [] => by simp [insertList]
  | x :: xs => by
    rw [insertList]
    split_ifs
    · exact (.head _)
    · exact (.head _)
    · exact .tail _ (mem_insertList_self k v xs)

theorem mem_insertList_of_ne (hne : y.1 ≠ k) :
    ∀ {l : List (K × V)}, y ∈ l → y ∈ insertList k v l
  | x :: xs, h => by
    rw [insertList]
    rcases h with _ | ⟨_, h⟩
    · split_ifs with h1 h2
      · simp
      · exact absurd h2.symm hne
      · exact (.head _)
    · split_ifs
      · exact .tail _ (.tail _ h)
      · exact .tail _ h
      · exact .tail _ (mem_insertList_of_ne hne h)

theorem mem_insert : y ∈ m.insert k v ↔ y = (k, v) ∨ (y ∈ m ∧ y.1 ≠ k) := by
  constructor
  · intro h
    by_cases hk : y.1 = k
    · exact .inl (eq_of_key_eq h (mem_insertList_self k v m.entries) hk)
    · refine (mem_insertList_imp h).imp id fun hm => ⟨hm, hk⟩
  · rintro (rfl | ⟨hm, hk⟩)
    · exact mem_insertList_self k v m.entries
    · exact mem_insertList_of_ne hk hm

/-! ## Seeking -/

/-- The first pair whose key is not below `k`. -/
def seek (m : SortedMap K V) (k : K) : Option (K × V) := m.entries.find? fun x => k ≤ x.1

theorem seek_eq_none_iff : m.seek k = none ↔ ∀ x ∈ m, x.1 < k := by
  simp [seek, find?_eq_none, mem_def]

theorem find?_le_of_pairwise {x : K × V} :
    ∀ {l : List (K × V)}, l.Pairwise (fun x y => x.1 < y.1) →
      l.find? (fun y => k ≤ y.1) = some x → ∀ y ∈ l, k ≤ y.1 → x.1 ≤ y.1
  | z :: zs, hp, hf, y, hy, hk => by
    obtain ⟨hz, hzs⟩ := pairwise_cons.mp hp
    rw [find?_cons] at hf
    split at hf
    · cases hf
      rcases hy with _ | ⟨_, hy⟩
      · exact le_rfl
      · exact (hz y hy).le
    · rename_i hzk
      rcases hy with _ | ⟨_, hy⟩
      · simp [hk] at hzk
      · exact find?_le_of_pairwise hzs hf y hy hk

theorem seek_eq_some_iff : m.seek k = some x ↔ x ∈ m ∧ k ≤ x.1 ∧ ∀ y ∈ m, k ≤ y.1 → x.1 ≤ y.1 := by
  constructor
  · intro h
    refine ⟨mem_of_find?_eq_some h, ?_, find?_le_of_pairwise m.sorted h⟩
    simpa using find?_some h
  · rintro ⟨hx, hk, hmin⟩
    cases hs : m.seek k with
    | none => exact absurd hk (not_le.mpr (seek_eq_none_iff.mp hs x hx))
    | some z =>
      have hz : z ∈ m := mem_of_find?_eq_some hs
      have hkz : k ≤ z.1 := by simpa using find?_some hs
      have hzx := find?_le_of_pairwise m.sorted hs x hx hk
      rw [eq_of_key_eq hz hx (le_antisymm hzx (hmin z hz hkz))]

/-! ## Merging -/

/-- One step of the merge with `x` at the front of the left list: `rest` merges the rest of
the left list with what remains of the right one. -/
def mergeFront (x : K × V) (rest : List (K × V) → List (K × V)) :
    List (K × V) → List (K × V)
  | [] => x :: rest []
  | y :: ys =>
    if x.1 < y.1 then x :: rest (y :: ys)
    else if x.1 = y.1 then x :: rest ys
    else y :: mergeFront x rest ys

/-- The merge of two sorted lists of pairs; of two pairs with the same key the left one stays. -/
def mergeList : List (K × V) → List (K × V) → List (K × V)
  | [], r => r
  | x :: xs, r => mergeFront x (mergeList xs) r

/-- Sorted lists, read as the relation the merge keeps. -/
abbrev Increasing (l : List (K × V)) : Prop := l.Pairwise fun x y => x.1 < y.1

theorem mem_mergeList :
    ∀ {l r : List (K × V)}, Increasing l → Increasing r →
      (y ∈ mergeList l r ↔ y ∈ l ∨ (y ∈ r ∧ ∀ x ∈ l, x.1 ≠ y.1))
  | [], r, _, _ => by simp [mergeList]
  | x :: xs, r, hl, hr => by
    obtain ⟨hx, hxs⟩ := pairwise_cons.mp hl
    rw [mergeList]
    -- Inner induction on the right list; the recursive call is the statement for `xs`.
    induction r with
    | nil => simp [mergeFront, mem_mergeList hxs List.Pairwise.nil]
    | cons z zs ihz =>
      obtain ⟨hz, hzs⟩ := pairwise_cons.mp hr
      rw [mergeFront]
      split_ifs with h1 h2
      · rw [mem_cons, mem_mergeList hxs hr]
        have hne : ∀ w ∈ z :: zs, x.1 ≠ w.1 := by
          intro w hw
          rcases hw with _ | ⟨_, hw⟩
          · exact h1.ne
          · exact (h1.trans (hz w hw)).ne
        grind
      · rw [mem_cons, mem_mergeList hxs hzs]
        have hne : ∀ w ∈ zs, x.1 ≠ w.1 := fun w hw => h2 ▸ (hz w hw).ne
        grind
      · rw [mem_cons, ihz hzs]
        have hzx : z.1 < x.1 := lt_of_le_of_ne (not_lt.mp h1) (Ne.symm h2)
        have hne : ∀ w ∈ x :: xs, w.1 ≠ z.1 := by
          intro w hw
          rcases hw with _ | ⟨_, hw⟩
          · exact hzx.ne'
          · exact (hzx.trans (hx w hw)).ne'
        grind

theorem increasing_mergeList :
    ∀ {l r : List (K × V)}, Increasing l → Increasing r → Increasing (mergeList l r)
  | [], _, _, hr => hr
  | x :: xs, r, hl, hr => by
    obtain ⟨hx, hxs⟩ := pairwise_cons.mp hl
    rw [mergeList]
    induction r with
    | nil =>
      refine pairwise_cons.mpr ⟨fun y hy => ?_, increasing_mergeList hxs .nil⟩
      rcases (mem_mergeList hxs .nil).mp hy with hy | ⟨hy, _⟩
      · exact hx y hy
      · simp at hy
    | cons z zs ihz =>
      obtain ⟨hz, hzs⟩ := pairwise_cons.mp hr
      rw [mergeFront]
      split_ifs with h1 h2
      · refine pairwise_cons.mpr ⟨fun y hy => ?_, increasing_mergeList hxs hr⟩
        rcases (mem_mergeList hxs hr).mp hy with hy | ⟨hy, _⟩
        · exact hx y hy
        · rcases hy with _ | ⟨_, hy⟩
          · exact h1
          · exact h1.trans (hz y hy)
      · refine pairwise_cons.mpr ⟨fun y hy => ?_, increasing_mergeList hxs hzs⟩
        rcases (mem_mergeList hxs hzs).mp hy with hy | ⟨hy, _⟩
        · exact hx y hy
        · exact h2 ▸ hz y hy
      · have hzx : z.1 < x.1 := lt_of_le_of_ne (not_lt.mp h1) (Ne.symm h2)
        refine pairwise_cons.mpr ⟨fun y hy => ?_, ihz hzs⟩
        have hy' : y ∈ mergeList (x :: xs) zs := hy
        rcases (mem_mergeList hl hzs).mp hy' with hy | ⟨hy, _⟩
        · rcases hy with _ | ⟨_, hy⟩
          · exact hzx
          · exact hzx.trans (hx y hy)
        · exact hz y hy

/-- The two-way merge; of two pairs with the same key the left one stays. -/
def merge (m n : SortedMap K V) : SortedMap K V :=
  ⟨mergeList m.entries n.entries, increasing_mergeList m.sorted n.sorted⟩

theorem mem_merge {n : SortedMap K V} : y ∈ m.merge n ↔ y ∈ m ∨ (y ∈ n ∧ ∀ x ∈ m, x.1 ≠ y.1) :=
  mem_mergeList m.sorted n.sorted

/-- The merge of several maps; of the pairs with the same key that of the first map stays. -/
def mergeAll (ms : List (SortedMap K V)) : SortedMap K V := ms.foldr merge empty

theorem exists_mem_of_mem_mergeAll {ms : List (SortedMap K V)} (h : y ∈ mergeAll ms) :
    ∃ m ∈ ms, y ∈ m := by
  induction ms with
  | nil => exact absurd h (not_mem_empty y)
  | cons m ms ih =>
    rcases mem_merge.mp h with h | ⟨h, _⟩
    · exact ⟨m, (.head _), h⟩
    · obtain ⟨n, hn, hy⟩ := ih h
      exact ⟨n, .tail _ hn, hy⟩

theorem exists_key_mem_mergeAll {ms : List (SortedMap K V)} (hm : m ∈ ms) (hx : x ∈ m) :
    ∃ y ∈ mergeAll ms, y.1 = x.1 := by
  induction ms with
  | nil => cases hm
  | cons n ms ih =>
    by_cases hn : ∃ z ∈ n, z.1 = x.1
    · obtain ⟨z, hz, hzx⟩ := hn
      exact ⟨z, mem_merge.mpr (.inl hz), hzx⟩
    · rcases hm with _ | ⟨_, hm⟩
      · exact absurd ⟨x, hx, rfl⟩ hn
      · obtain ⟨y, hy, hyx⟩ := ih hm
        exact ⟨y, mem_merge.mpr (.inr ⟨hy, fun z hz hzy => hn ⟨z, hz, hzy.trans hyx⟩⟩), hyx⟩

/-- The first `n` pairs. -/
def take (m : SortedMap K V) (n : ℕ) : SortedMap K V :=
  ⟨m.entries.take n, m.sorted.sublist (List.take_sublist n m.entries)⟩

theorem mem_of_mem_take {n : ℕ} (h : y ∈ m.take n) : y ∈ m :=
  List.mem_of_mem_take h

end SortedMap

end Lib
end Autumn
