import Autumn.Skiplist

/-!
# Tables

A table is what a flush leaves in the row stream: the pairs of one memtable in key order, and a
meta block with the sequence number of the flush and the position in the log from which a replay
has to start.  A table is never empty, because `handleFlushTask` returns before the builder when
the memtable is.
-/

namespace Autumn

open Lib Y List SortedMap

/-- A flushed table.  `vpExtentID` and `vpOffset` are where a replay starts. -/
structure Table extends SortedRun where
  lastSeq : ℕ
  vpExtentID : ℕ
  vpOffset : ℕ
  entries_ne_nil : data.entries ≠ []

variable {x : Pair} {t : Table}

namespace Table

/-- `Smallest`: the first key. -/
def smallest (t : Table) : InternalKey := (t.data.entries.head t.entries_ne_nil).1

/-- `Biggest`: the last key. -/
def biggest (t : Table) : InternalKey := (t.data.entries.getLast t.entries_ne_nil).1

theorem smallest_le (hx : x ∈ t.toSortedRun) : t.smallest ≤ x.1 := by
  have hp := t.data.sorted
  have hmem : x ∈ t.data.entries := hx
  rw [smallest]
  generalize_proofs hne
  revert hp hmem hne
  generalize t.data.entries = l
  intro hp hmem hne
  cases l with
  | nil => exact absurd rfl hne
  | cons y ys =>
    rw [head_cons]
    rcases hmem with _ | ⟨_, hmem⟩
    · exact le_rfl
    · exact ((pairwise_cons.mp hp).1 x hmem).le

theorem le_biggest (hx : x ∈ t.toSortedRun) : x.1 ≤ t.biggest := by
  have hp := t.data.sorted
  have hmem : x ∈ t.data.entries := hx
  rw [biggest]
  generalize_proofs hne
  revert hp hmem hne
  generalize t.data.entries = l
  intro hp hmem hne
  obtain ⟨ys, y, rfl⟩ : ∃ ys y, l = ys ++ [y] := ⟨_, _, (dropLast_append_getLast hne).symm⟩
  rw [getLast_append_singleton]
  rcases mem_append.mp hmem with hmem | hmem
  · exact ((pairwise_append.mp hp).2.2 x hmem y (.head _)).le
  · rw [mem_singleton.mp hmem]

/-- The range test of `getTablesForKey`. -/
def covers (t : Table) (userKey : Bytes) : Bool :=
  decide (parseKey t.smallest ≤ userKey) && decide (userKey ≤ parseKey t.biggest)

theorem userKey_le_of_le {a b : InternalKey} (h : a ≤ b) : a.userKey ≤ b.userKey := by
  rcases InternalKey.le_iff.mp h with h | h
  · exact h.le
  · exact h.1.le

theorem covers_of_mem (hx : x ∈ t.toSortedRun) : t.covers (userKeyOf x) = true := by
  rw [covers, Bool.and_eq_true, decide_eq_true_iff, decide_eq_true_iff]
  exact ⟨userKey_le_of_le (smallest_le hx), userKey_le_of_le (le_biggest hx)⟩

end Table

/-- A table of one pair. -/
def Table.single (key : InternalKey) (vs : ValueStruct) (lastSeq : ℕ) : Table where
  toSortedRun := SortedRun.empty.put key vs
  lastSeq
  vpExtentID := 0
  vpOffset := 0
  entries_ne_nil := by simp [SortedRun.put, SortedRun.empty, SortedMap.insert, SortedMap.empty,
    SortedMap.insertList]

theorem Table.mem_single {key : InternalKey} {vs : ValueStruct} {lastSeq : ℕ} :
    x ∈ (Table.single key vs lastSeq).toSortedRun ↔ x = (key, vs.decoded) := by
  constructor
  · intro hx
    rcases SortedRun.mem_put.mp hx with rfl | ⟨hx, _⟩
    · rfl
    · cases hx
  · rintro rfl
    exact SortedRun.mem_put.mpr (.inl rfl)

/-- The table built from a memtable that is not empty. -/
def Skiplist.toTable (s : Skiplist) (vpExtentID vpOffset seqNum : ℕ) : Option Table :=
  if h : s.data.entries ≠ [] then
    some { toSortedRun := s.toSortedRun, lastSeq := seqNum, vpExtentID, vpOffset,
           entries_ne_nil := h }
  else none

theorem Skiplist.toTable_eq_some {s : Skiplist} {e o q : ℕ} (h : s.toTable e o q = some t) :
    t.toSortedRun = s.toSortedRun ∧ t.lastSeq = q ∧ t.vpExtentID = e ∧ t.vpOffset = o := by
  rw [toTable] at h
  split_ifs at h
  cases h
  exact ⟨rfl, rfl, rfl, rfl⟩

theorem Skiplist.toTable_eq_none {s : Skiplist} {e o q : ℕ} (h : s.toTable e o q = none) :
    ∀ x, x ∉ s.toSortedRun := by
  rw [toTable] at h
  split_ifs at h with hnil
  intro x hx
  exact hnil (ne_nil_of_mem hx)

/-! ## Merging tables -/

/-- The pairs of all tables in key order; of two pairs with the same internal key the one of the
earlier table stays. -/
def mergeIterators (ts : List Table) : SortedMap InternalKey ValueStruct :=
  ts.foldr (fun t m => t.data.merge m) SortedMap.empty

theorem mergeIterators_eq (ts : List Table) :
    mergeIterators ts = mergeAll (ts.map fun t => t.data) := by
  rw [mergeAll, foldr_map]
  rfl

theorem exists_mem_of_mem_mergeIterators {ts : List Table} (h : x ∈ mergeIterators ts) :
    ∃ t ∈ ts, x ∈ t.toSortedRun := by
  rw [mergeIterators_eq] at h
  obtain ⟨m, hm, hx⟩ := exists_mem_of_mem_mergeAll h
  obtain ⟨t, ht, rfl⟩ := mem_map.mp hm
  exact ⟨t, ht, hx⟩

theorem exists_key_mem_mergeIterators {ts : List Table} (ht : t ∈ ts) (hx : x ∈ t.toSortedRun) :
    ∃ y ∈ mergeIterators ts, y.1 = x.1 := by
  rw [mergeIterators_eq]
  exact exists_key_mem_mergeAll (mem_map_of_mem ht) hx

end Autumn
