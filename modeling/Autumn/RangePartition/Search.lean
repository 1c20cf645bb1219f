import Autumn.Table
import Autumn.Lib.SliceSort

/-!
# The read path

`getValueStruct` looks for the newest version of a user key not above the version asked for.  It
returns the first answer of the memtables, from the newest to the oldest; only when there is none
does it look at the tables whose range holds the key and whose bloom filter does not exclude it.

Stopping at the first memtable is sound when every memtable dominates the ones behind it and the
tables.  The loop over the tables compares versions, so it needs no order between them, but it
starts from version zero and therefore needs the versions in the tables to be positive.
-/

namespace Autumn

open Lib Y List Option SortedRun

/-- What comes from libraries: the bloom filter of a table, which has no false negatives, and the
two uses of `sort.Slice`. -/
structure Env where
  doesNotHave : Table → Bytes → Bool
  no_false_negative : ∀ t x, x ∈ Table.toSortedRun t → doesNotHave t (userKeyOf x) = false
  sortTables : SliceSort Table fun a b => decide (a.lastSeq > b.lastSeq)
  sortEntries : SliceSort (ℕ × Entry) fun a b => decide (a.2.value.length < b.2.value.length)

/-- An environment that can be run: a filter that excludes nothing, and insertion sorts. -/
def Env.plain : Env where
  doesNotHave := fun _ _ => false
  no_false_negative := fun _ _ _ => rfl
  sortTables := SliceSort.insertionDesc Table.lastSeq
  sortEntries := SliceSort.insertion fun x : ℕ × Entry => x.2.value.length

/-- The value struct a search returns for a pair. -/
def withVersion (x : Pair) : ValueStruct := { x.2 with version := parseTs x.1 }

/-- The loop over the memtables: a value struct without flags and value means "not found". -/
def searchMemTables (mts : List Skiplist) (key : InternalKey) : Option ValueStruct :=
  mts.findSome? fun s =>
    let vs := s.get key
    if vs.metaBits = 0 ∧ vs.value = none then none else some vs

/-- `getTablesForKey`: the tables whose range holds the key, the one flushed last in front. -/
def getTablesForKey (env : Env) (tables : List Table) (userKey : Bytes) : List Table :=
  env.sortTables.sort (tables.filter fun t => t.covers userKey)

/-- The body of the loop over the tables. -/
def searchTable (env : Env) (userKey : Bytes) (key : InternalKey) (maxVs : ValueStruct)
    (t : Table) : ValueStruct :=
  if env.doesNotHave t userKey then maxVs
  else match t.data.seek key with
    | none => maxVs
    | some x =>
      if sameKey key x.1 then
        if parseTs x.1 > maxVs.version then { x.2.decoded with version := parseTs x.1 }
        else maxVs
      else maxVs

/-- `getValueStruct`, given the memtables and the sequence number it loads and the tables it finds
when the memtables had no answer. -/
def getValueStruct (env : Env) (mts : List Skiplist) (seqNumber : ℕ) (tables : List Table)
    (userKey : Bytes) (version : ℕ) : ValueStruct :=
  let key := keyWithTs userKey (if version = 0 then seqNumber else version)
  match searchMemTables mts key with
  | some vs => vs
  | none => (getTablesForKey env tables userKey).foldl (searchTable env userKey key) {}

/-! ## What the search finds -/

/-- All pairs of some memtables. -/
def memPairs (mts : List Skiplist) : Set Pair := unionOf (fun s => s.toSortedRun.pairs) mts

/-- All pairs of some tables. -/
def tablePairs (ts : List Table) : Set Pair := unionOf (fun t => t.toSortedRun.pairs) ts

/-- `vs` is the answer to a read of `k` at version `v` among the pairs `S`: the newest pair, or the
zero value struct if there is none. -/
def Answers (S : Set Pair) (k : Bytes) (v : ℕ) (vs : ValueStruct) : Prop :=
  (∃ x, IsNewest userKeyOf versionOf S k v x ∧ vs = { x.2 with version := x.1.ts }) ∨
    (Absent userKeyOf versionOf S k v ∧ vs = {})

variable {x : Pair} {k : Bytes} {tables : List Table}

theorem mem_memPairs {mts : List Skiplist} : x ∈ memPairs mts ↔ ∃ s ∈ mts, x ∈ s.toSortedRun :=
  Iff.rfl

theorem mem_tablePairs {ts : List Table} : x ∈ tablePairs ts ↔ ∃ t ∈ ts, x ∈ t.toSortedRun :=
  Iff.rfl

theorem searchMemTables_eq (mts : List Skiplist) (key : InternalKey) :
    searchMemTables mts key =
      (mts.findSome? fun s => s.toSortedRun.lookup key).map withVersion := by
  induction mts with
  | nil => rfl
  | cons s mts ih =>
    rw [searchMemTables, findSome?_cons, findSome?_cons]
    cases hl : s.toSortedRun.lookup key with
    | none =>
      have hget : s.get key = {} := by rw [Skiplist.get, hl]
      simp only [hget, and_self, if_true]
      exact ih
    | some x =>
      have hget : s.get key = withVersion x := by rw [Skiplist.get, hl, withVersion]
      have hx : x ∈ s.toSortedRun := by
        obtain ⟨hseek, _⟩ := filter_eq_some_iff.mp hl
        exact (SortedMap.seek_eq_some_iff.mp hseek).1
      have hval : (withVersion x).value ≠ none := value_ne_none hx
      simp only [hget, hval, and_false, if_false, map_some]

theorem looks_memTable (k : Bytes) (v : ℕ) :
    Looks (fun s : Skiplist => s.toSortedRun.pairs) userKeyOf versionOf k v
      fun s => s.toSortedRun.lookup (keyWithTs k v) where
  some := fun s => (looks_lookup k v).some s.toSortedRun
  none := fun s => (looks_lookup k v).none s.toSortedRun

theorem looks_table (k : Bytes) (v : ℕ) :
    Looks (fun t : Table => t.toSortedRun.pairs) userKeyOf versionOf k v
      fun t => t.toSortedRun.lookup (keyWithTs k v) where
  some := fun t => (looks_lookup k v).some t.toSortedRun
  none := fun t => (looks_lookup k v).none t.toSortedRun

/-- The value struct that stands for the best pair so far. -/
def ofBest : Option Pair → ValueStruct
  | some x => withVersion x
  | none => {}

theorem searchTable_eq (env : Env) (k : Bytes) (v : ℕ) (vs : ValueStruct) (t : Table) :
    searchTable env k (keyWithTs k v) vs t =
      match t.toSortedRun.lookup (keyWithTs k v) with
      | none => vs
      | some x => if parseTs x.1 > vs.version then withVersion x else vs := by
  rw [searchTable]
  split_ifs with hbloom
  · -- The filter excludes the key, so the table does not have it.
    cases hl : t.toSortedRun.lookup (keyWithTs k v) with
    | none => rfl
    | some x =>
      have hx := (looks_table k v).some t x hl
      have h := env.no_false_negative t x hx.mem
      rw [hx.key_eq, hbloom] at h
      cases h
  · cases hseek : t.data.seek (keyWithTs k v) with
    | none =>
      have hl : t.toSortedRun.lookup (keyWithTs k v) = none := by
        rw [SortedRun.lookup, hseek, Option.filter_none]
      rw [hl]
    | some x =>
      by_cases hsame : sameKey (keyWithTs k v) x.1 = true
      · have hl : t.toSortedRun.lookup (keyWithTs k v) = some x := by
          rw [SortedRun.lookup, hseek, Option.filter_some, if_pos hsame]
        have hdec : x.2.decoded = x.2 := t.decoded_eq x ((looks_table k v).some t x hl).mem
        rw [hl]
        dsimp only
        rw [if_pos hsame, hdec, withVersion]
      · have hl : t.toSortedRun.lookup (keyWithTs k v) = none := by
          rw [SortedRun.lookup, hseek, Option.filter_some, if_neg hsame]
        rw [hl]
        dsimp only
        rw [if_neg hsame]

theorem searchTable_ofBest (env : Env) (hk : k ≠ []) (v : ℕ) (t : Table)
    (hpos : ∀ x ∈ t.toSortedRun, 0 < x.1.ts) {best : Option Pair}
    (hbest : ∀ x, best = some x → x.1.userKey = k) :
    searchTable env k (keyWithTs k v) (ofBest best) t =
      ofBest (newer versionOf best (t.toSortedRun.lookup (keyWithTs k v))) := by
  rw [searchTable_eq]
  cases hl : t.toSortedRun.lookup (keyWithTs k v) with
  | none => cases best <;> rfl
  | some x =>
    have hx := (looks_table k v).some t x hl
    have hxk : x.1.userKey = k := hx.key_eq
    have hts : parseTs x.1 = x.1.ts := parseTs_of_ne_nil (hxk ▸ hk)
    cases best with
    | none =>
      have h0 : parseTs x.1 > (ofBest none).version := hts ▸ hpos x hx.mem
      dsimp only
      rw [if_pos h0]
      rfl
    | some y =>
      have hty : (ofBest (some y)).version = y.1.ts := parseTs_of_ne_nil (hbest y rfl ▸ hk)
      dsimp only
      rw [hty, hts, newer]
      split_ifs with h1 h2 h2
      · rfl
      · exact absurd h1 h2
      · exact absurd h2 h1
      · rfl

theorem foldl_searchTable (env : Env) {k : Bytes} (hk : k ≠ []) (v : ℕ) :
    ∀ (ts : List Table), (∀ t ∈ ts, ∀ x ∈ t.toSortedRun, 0 < x.1.ts) →
      ∀ best : Option Pair, (∀ x, best = some x → x.1.userKey = k) →
      ts.foldl (searchTable env k (keyWithTs k v)) (ofBest best) =
        ofBest (ts.foldl (fun b t => newer versionOf b (t.toSortedRun.lookup (keyWithTs k v))) best)
  | [], _, _, _ => rfl
  | t :: ts, hpos, best, hbest => by
    rw [foldl_cons, foldl_cons, searchTable_ofBest env hk v t (hpos t (.head _)) hbest]
    refine foldl_searchTable env hk v ts (fun u hu => hpos u (.tail _ hu)) _ ?_
    intro x hx
    cases hl : t.toSortedRun.lookup (keyWithTs k v) with
    | none =>
      rw [hl] at hx
      cases best with
      | none => cases hx
      | some y => exact hbest x hx
    | some z =>
      have hz : z.1.userKey = k := ((looks_table k v).some t z hl).key_eq
      rw [hl] at hx
      cases best with
      | none => exact some.inj hx ▸ hz
      | some y =>
        rw [newer] at hx
        split_ifs at hx
        · exact some.inj hx ▸ hz
        · exact hbest x hx

theorem mem_getTablesForKey {env : Env} {t : Table} (ht : t ∈ tables) (hx : x ∈ t.toSortedRun) :
    t ∈ getTablesForKey env tables (userKeyOf x) := by
  rw [getTablesForKey, (env.sortTables.perm _).mem_iff, mem_filter]
  exact ⟨ht, Table.covers_of_mem hx⟩

theorem mem_of_mem_getTablesForKey {env : Env} {t : Table} (h : t ∈ getTablesForKey env tables k) :
    t ∈ tables := by
  rw [getTablesForKey, (env.sortTables.perm _).mem_iff] at h
  exact mem_of_mem_filter h

theorem searchTables_answers (env : Env) (hk : k ≠ []) (v : ℕ)
    (hpos : ∀ x ∈ tablePairs tables, 0 < x.1.ts) :
    Answers (tablePairs tables) k v
      ((getTablesForKey env tables k).foldl (searchTable env k (keyWithTs k v)) {}) := by
  have hfold := foldl_searchTable env hk v (getTablesForKey env tables k)
    (fun t ht x hx => hpos x ⟨t, mem_of_mem_getTablesForKey ht, hx⟩) none (by simp)
  have hbest := best_foldl_newer_none (looks_table k v) (getTablesForKey env tables k)
  rw [show ({} : ValueStruct) = ofBest none from rfl, hfold]
  generalize (getTablesForKey env tables k).foldl _ _ = b at hbest ⊢
  -- Pairs of `k` in a table the range test leaves out do not exist.
  have hsub : ∀ y ∈ tablePairs tables, userKeyOf y = k →
      y ∈ unionOf (fun t : Table => t.toSortedRun.pairs) (getTablesForKey env tables k) := by
    rintro y ⟨t, ht, hy⟩ hyk
    exact ⟨t, hyk ▸ mem_getTablesForKey ht hy, hy⟩
  cases b with
  | none => exact .inr ⟨fun y hy hyk => hbest y (hsub y hy hyk) hyk, rfl⟩
  | some x =>
    have hx : IsNewest userKeyOf versionOf _ k v x := hbest
    refine .inl ⟨x, ⟨?_, hx.key_eq, hx.le, fun y hy hyk => hx.max y (hsub y hy hyk) hyk⟩, ?_⟩
    · obtain ⟨t, ht, hxt⟩ := hx.mem
      exact ⟨t, mem_of_mem_getTablesForKey ht, hxt⟩
    · have hxk : x.1.userKey = k := hx.key_eq
      rw [ofBest, withVersion, parseTs_of_ne_nil (hxk ▸ hk)]

/-- **The search finds the newest version.**  Each memtable must dominate the ones searched after
it, and all of them the tables; versions in tables must be positive. -/
theorem getValueStruct_answers (env : Env) {mts : List Skiplist} (hk : k ≠ [])
    (seqNumber version : ℕ) (hmts : mts.Pairwise fun s t =>
      Dominates userKeyOf versionOf s.toSortedRun.pairs t.toSortedRun.pairs)
    (htables : ∀ s ∈ mts, Dominates userKeyOf versionOf s.toSortedRun.pairs (tablePairs tables))
    (hpos : ∀ x ∈ tablePairs tables, 0 < x.1.ts) :
    Answers (memPairs mts ∪ tablePairs tables) k (if version = 0 then seqNumber else version)
      (getValueStruct env mts seqNumber tables k version) := by
  generalize hv : (if version = 0 then seqNumber else version) = v
  rw [getValueStruct, hv, searchMemTables_eq]
  cases hfind : mts.findSome? fun s => s.toSortedRun.lookup (keyWithTs k v) with
  | some x =>
    have hx := isNewest_of_findSome (looks_memTable k v) hmts hfind
    have hxk : x.1.userKey = k := hx.key_eq
    refine .inl ⟨x, ?_, ?_⟩
    · -- `x` is in the first layer with an answer; that layer dominates the tables.
      obtain ⟨s, hs, hl⟩ := exists_of_findSome?_eq_some hfind
      have hxs := (looks_memTable k v).some s x hl
      refine ⟨.inl hx.mem, hx.key_eq, hx.le, fun y hy hyk hyv => ?_⟩
      rcases hy with hy | hy
      · exact hx.max y hy hyk hyv
      · exact hxs.max_of_dominates (htables s hs) hy hyk hyv
    · rw [map_some, withVersion, parseTs_of_ne_nil (hxk ▸ hk)]
  | none =>
    have habs := absent_of_findSome (looks_memTable k v) hfind
    rcases searchTables_answers env hk v hpos with ⟨x, hx, hvs⟩ | ⟨hno, hvs⟩
    · exact .inl ⟨x, isNewest_union_of_absent habs hx, hvs⟩
    · exact .inr ⟨fun y hy hyk => hy.elim (fun h => habs y h hyk) fun h => hno y h hyk, hvs⟩

end Autumn
