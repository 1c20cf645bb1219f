import Autumn.Y
import Autumn.Lib.Versioned

/-!
# Memtables

What the rest of the code sees of a memtable is a sorted run of pairs and the number of arena bytes
used (`MemSize`), which decides when the memtable is rotated.  The towers are left out of this view
(`Skl.skiplist_refines_sortedMap` shows that the code with its towers is the same map), but the
height drawn for a new node is not: it determines how many bytes the node takes.
-/

namespace Autumn

open Lib Y Option InternalKey SortedMap

/-- A key and what is stored under it. -/
abbrev Pair := InternalKey × ValueStruct

/-- The user key of a pair. -/
def userKeyOf (x : Pair) : Bytes := x.1.userKey

/-- The version of a pair. -/
def versionOf (x : Pair) : ℕ := x.1.ts

/-- A sorted run of pairs and the writes it was built from. -/
structure SortedRun where
  data : SortedMap InternalKey ValueStruct
  /-- The pairs put so far, oldest first. -/
  puts : List Pair
  mem_puts : ∀ x ∈ data, x ∈ puts
  exists_key : ∀ x ∈ puts, ∃ y ∈ data, y.1 = x.1
  /-- Values are stored encoded: without a version, and never as a `nil` slice. -/
  decoded_eq : ∀ x ∈ data, x.2.decoded = x.2

namespace SortedRun

instance : Membership Pair SortedRun := ⟨fun s x => x ∈ s.data⟩

/-- The pairs of a run as a set. -/
def pairs (s : SortedRun) : Set Pair := {x | x ∈ s}

/-- The run without pairs. -/
def empty : SortedRun where
  data := SortedMap.empty
  puts := []
  mem_puts := fun x hx => absurd hx (SortedMap.not_mem_empty x)
  exists_key := by simp
  decoded_eq := fun x hx => absurd hx (SortedMap.not_mem_empty x)

@[simp] theorem not_mem_empty (x : Pair) : x ∉ empty := SortedMap.not_mem_empty x

/-- Put a value, which is stored in its encoded form. -/
def put (s : SortedRun) (key : InternalKey) (vs : ValueStruct) : SortedRun where
  data := s.data.insert key vs.decoded
  puts := s.puts ++ [(key, vs.decoded)]
  mem_puts := by
    intro x hx
    rcases SortedMap.mem_insert.mp hx with rfl | ⟨hx, _⟩
    · simp
    · exact List.mem_append_left _ (s.mem_puts x hx)
  exists_key := by
    intro x hx
    by_cases hk : x.1 = key
    · exact ⟨_, SortedMap.mem_insert.mpr (.inl rfl), hk.symm⟩
    · rcases List.mem_append.mp hx with hx | hx
      · obtain ⟨y, hy, hyx⟩ := s.exists_key x hx
        exact ⟨y, SortedMap.mem_insert.mpr (.inr ⟨hy, hyx ▸ hk⟩), hyx⟩
      · exact absurd (congrArg Prod.fst (List.mem_singleton.mp hx)) hk
  decoded_eq := by
    intro x hx
    rcases SortedMap.mem_insert.mp hx with rfl | ⟨hx, _⟩
    · rfl
    · exact s.decoded_eq x hx

theorem value_ne_none {s : SortedRun} {x : Pair} (hx : x ∈ s) : x.2.value ≠ none := by
  rw [← s.decoded_eq x hx]
  exact some_ne_none _

theorem mem_put {s : SortedRun} {key : InternalKey} {vs : ValueStruct} {y : Pair} :
    y ∈ s.put key vs ↔ y = (key, vs.decoded) ∨ (y ∈ s ∧ y.1 ≠ key) :=
  mem_insert

@[simp] theorem puts_put (s : SortedRun) (key : InternalKey) (vs : ValueStruct) :
    (s.put key vs).puts = s.puts ++ [(key, vs.decoded)] := rfl

/-- The pair of the same user key with the greatest version not above that of `key`: the first
pair not below `key`, if it has the same user key. -/
def lookup (s : SortedRun) (key : InternalKey) : Option Pair :=
  (s.data.seek key).filter fun x => sameKey key x.1

/-- The lookup is what a layered search asks of one layer. -/
theorem looks_lookup (k : Bytes) (v : ℕ) :
    Looks pairs userKeyOf versionOf k v fun s => s.lookup (keyWithTs k v) where
  some := by
    intro s x h
    obtain ⟨hseek, hsame⟩ := filter_eq_some_iff.mp h
    obtain ⟨hx, hle, hmin⟩ := seek_eq_some_iff.mp hseek
    have hk : x.1.userKey = k := (sameKey_iff.mp hsame).symm
    refine ⟨hx, hk, (le_iff_of_userKey_eq hk.symm).mp hle, fun y hy hyk hyv => ?_⟩
    have hky : keyWithTs k v ≤ y.1 := (le_iff_of_userKey_eq hyk.symm).mpr hyv
    exact (le_iff_of_userKey_eq (hk.trans hyk.symm)).mp (hmin y hy hky)
  none := by
    intro s h y hy hyk
    by_contra hv
    have hky : keyWithTs k v ≤ y.1 :=
      (le_iff_of_userKey_eq hyk.symm).mpr (not_lt.mp hv)
    cases hseek : s.data.seek (keyWithTs k v) with
    | none => exact absurd hky (not_le.mpr (seek_eq_none_iff.mp hseek y hy))
    | some x =>
      obtain ⟨_, hle, hmin⟩ := seek_eq_some_iff.mp hseek
      -- `x` lies between the key asked for and `y`, and both have user key `k`.
      have hxk : k = x.1.userKey := by
        rcases le_iff.mp hle with h1 | h1
        · rcases le_iff.mp (hmin y hy hky) with h2 | h2
          · exact absurd hyk.symm (h1.trans h2).ne
          · exact absurd (hyk.symm.trans h2.1.symm) h1.ne
        · exact h1.1
      rw [lookup, hseek, filter_some, if_pos (sameKey_iff.mpr hxk)] at h
      exact some_ne_none _ h

variable {v : ℕ} {k : Bytes}

theorem lookup_eq_some_iff {s : SortedRun} {x : Pair} :
    s.lookup (keyWithTs k v) = some x ↔ IsNewest userKeyOf versionOf s.pairs k v x := by
  refine ⟨(looks_lookup k v).some s x, fun hx => ?_⟩
  cases hl : s.lookup (keyWithTs k v) with
  | none => exact absurd hx.le (not_le.mpr ((looks_lookup k v).none s hl x hx.mem hx.key_eq))
  | some y =>
    have hy := (looks_lookup k v).some s y hl
    have hkey : y.1 = x.1 := InternalKey.ext (hy.key_eq.trans hx.key_eq.symm) (hy.ver_eq hx)
    exact congrArg some (eq_of_key_eq hy.mem hx.mem hkey)

theorem lookup_eq_none_iff {s : SortedRun} :
    s.lookup (keyWithTs k v) = none ↔ Absent userKeyOf versionOf s.pairs k v := by
  refine ⟨(looks_lookup k v).none s, fun h => ?_⟩
  cases hl : s.lookup (keyWithTs k v) with
  | none => rfl
  | some y =>
    have hy := (looks_lookup k v).some s y hl
    exact absurd (h y hy.mem hy.key_eq) (not_lt.mpr hy.le)

theorem lookup_congr {s t : SortedRun} {v' : ℕ}
    (h : ∀ x, x.1.userKey = k → ((x ∈ s ∧ x.1.ts ≤ v) ↔ (x ∈ t ∧ x.1.ts ≤ v'))) :
    s.lookup (keyWithTs k v) = t.lookup (keyWithTs k v') := by
  cases hl : t.lookup (keyWithTs k v') with
  | none =>
    rw [lookup_eq_none_iff] at hl ⊢
    intro x hx hxk
    by_contra hle
    obtain ⟨hxt, hxv⟩ := (h x hxk).mp ⟨hx, not_lt.mp hle⟩
    exact absurd (hl x hxt hxk) (not_lt.mpr hxv)
  | some x =>
    rw [lookup_eq_some_iff] at hl ⊢
    obtain ⟨hx, hxv⟩ := (h x hl.key_eq).mpr ⟨hl.mem, hl.le⟩
    refine ⟨hx, hl.key_eq, hxv, fun y hy hyk hyv => ?_⟩
    obtain ⟨hyt, hyv'⟩ := (h y hyk).mp ⟨hy, hyv⟩
    exact hl.max y hyt hyk hyv'

end SortedRun

/-! ## The skiplist -/

/-- `maxHeight`: the height of the tallest tower. -/
def maxHeight : ℕ := 20

/-- `MaxNodeSize`: the size of a node with the tallest tower. -/
def maxNodeSize : ℕ := 96

/-- `putNode`: the bytes taken by a node of the given height, with padding for the alignment. -/
def nodeSize (height : ℕ) : ℕ := maxNodeSize - (maxHeight - height) * 4 + 7

/-- A memtable: its pairs and the arena bytes it uses. -/
structure Skiplist extends SortedRun where
  memSize : ℕ

namespace Skiplist

/-- `NewSkiplist`: the arena starts at offset one, and the head node takes the tallest tower and
an empty value. -/
def new : Skiplist where
  toSortedRun := SortedRun.empty
  memSize := 1 + nodeSize maxHeight + ({} : ValueStruct).encodedSize

/-- `Put`: a key that is there gets a new value in the arena, a new key gets a node of the drawn
height. -/
def put (s : Skiplist) (key : InternalKey) (vs : ValueStruct) (height : ℕ) : Skiplist where
  toSortedRun := s.toSortedRun.put key vs
  memSize :=
    if s.data.entries.any fun x => x.1 == key then s.memSize + vs.encodedSize
    else s.memSize + nodeSize height + key.len + vs.encodedSize

/-- `Empty`. -/
def isEmpty (s : Skiplist) : Bool := s.data.isEmpty

/-- `Get`: the stored value with its version, or the zero value struct. -/
def get (s : Skiplist) (key : InternalKey) : ValueStruct :=
  match s.toSortedRun.lookup key with
  | some x => { x.2 with version := parseTs x.1 }
  | none => {}

@[simp] theorem toSortedRun_put (s : Skiplist) (key : InternalKey) (vs : ValueStruct) (h : ℕ) :
    (s.put key vs h).toSortedRun = s.toSortedRun.put key vs := rfl

end Skiplist

end Autumn
