import Autumn.Table.MergeIterator
import Autumn.RangePartition.Sane

/-!
# One internal key in several tables

Value-log garbage collection writes a value again under its old internal key, so two tables can hold
the same internal key with different values.

A read goes through the tables from the greatest `LastSeq` on and replaces what it has found only by
a strictly newer version: it returns the value of the table with the greatest `LastSeq`.  A
compaction hands its tables to the merge iterator in the order of the stream, which keeps the value
of the table that comes first.  The two agree just when these values are equal
(`duplicate_resolved_alike_iff`).
-/

namespace Autumn

open Lib Y List

/-! ## What a compaction keeps -/

/-- The outer loop of `doCompact` on the pairs of the merge iterator: the stores of its rounds.  For
each round, the clock and the heights drawn are given. -/
def compactRounds (major : Bool) : List (ℕ × List ℕ) → List Pair → List Skiplist
  | [], _ => []
  | _ :: _, [] => []
  | (now, hs) :: rounds, x :: xs =>
    let out := compactLoop major (2 * maxSkipList) now none Skiplist.new hs (x :: xs)
    out.1 :: compactRounds major rounds out.2

/-- `doCompact`: the stores it sends for the given tables, in stream order. -/
def doCompact (major : Bool) (rounds : List (ℕ × List ℕ)) (tbls : List Table) : List Skiplist :=
  compactRounds major rounds (mergeIterators tbls).entries

variable {major : Bool} {m : Skiplist}

theorem mem_compactRounds {y : Pair} :
    ∀ {rounds : List (ℕ × List ℕ)} {todo : List Pair}, (∀ x ∈ todo, x.2.decoded = x.2) →
      m ∈ compactRounds major rounds todo → y ∈ m.toSortedRun → y ∈ todo
  | [], _, _, hm, _ => absurd hm (by simp [compactRounds])
  | _ :: _, [], _, hm, _ => absurd hm (by simp [compactRounds])
  | (now, hs) :: rounds, x :: xs, hdec, hm, hy => by
    rw [compactRounds, mem_cons] at hm
    rcases hm with rfl | hm
    · rcases mem_compactLoop_fst hdec hy with h | h
      · cases h
      · exact h
    · have hsuffix := compactLoop_snd_suffix major (2 * maxSkipList) now (x :: xs) none
        Skiplist.new hs
      exact hsuffix.subset
        (mem_compactRounds (fun z hz => hdec z (hsuffix.subset hz)) hm hy)

theorem mem_mergeIterators_of_mem_doCompact {rounds : List (ℕ × List ℕ)} {tbls : List Table}
    {y : Pair} (hm : m ∈ doCompact major rounds tbls) (hy : y ∈ m.toSortedRun) :
    y ∈ mergeIterators tbls := by
  refine mem_compactRounds (fun x hx => ?_) hm hy
  obtain ⟨t, _, hxt⟩ := exists_mem_of_mem_mergeIterators hx
  exact t.decoded_eq x hxt

/-- A compaction keeps the value of the first table that has the internal key. -/
theorem eq_of_mem_doCompact {rounds : List (ℕ × List ℕ)} {tbls : List Table} {ik : InternalKey}
    {v v₁ : ValueStruct} (hm : m ∈ doCompact major rounds tbls) (hv : (ik, v) ∈ m.toSortedRun)
    (h₁ : Leftmost (tbls.map fun t => t.data.entries) (ik, v₁)) : v = v₁ := by
  have hfirst : (ik, v₁) ∈ mergeIterators tbls := (mem_mergeIterators_iff tbls _).mpr h₁
  have heq := SortedMap.eq_of_key_eq (mem_mergeIterators_of_mem_doCompact hm hv) hfirst rfl
  exact congrArg Prod.snd heq

/-! ## What a read returns -/

/-- A read of the user key at version `v` ends at the internal key `ik`: no version in between is
in the tables. -/
structure Resolves (ts : List Table) (ik : InternalKey) (v : ℕ) : Prop where
  le : ik.ts ≤ v
  max : ∀ x ∈ tablePairs ts, x.1.userKey = ik.userKey → x.1.ts ≤ v → x.1.ts ≤ ik.ts

theorem parseTs_mono {a b : InternalKey} (hk : a.userKey = b.userKey) (h : a.ts ≤ b.ts) :
    parseTs a ≤ parseTs b := by
  rw [parseTs, parseTs, hk]
  split_ifs
  · exact le_rfl
  · exact h

section Search

variable {ts : List Table} {ik : InternalKey} {v : ℕ} (env : Env) {t : Table}

theorem Resolves.lookup_le (h : Resolves ts ik v) (ht : t ∈ ts) {x : Pair}
    (hl : t.toSortedRun.lookup (keyWithTs ik.userKey v) = some x) :
    x.1.userKey = ik.userKey ∧ x.1.ts ≤ ik.ts := by
  have hx := (looks_table ik.userKey v).some t x hl
  exact ⟨hx.key_eq, h.max x ⟨t, ht, hx.mem⟩ hx.key_eq hx.le⟩

theorem Resolves.lookup_eq (h : Resolves ts ik v) (ht : t ∈ ts) {w : ValueStruct}
    (hw : (ik, w) ∈ t.toSortedRun) : t.toSortedRun.lookup (keyWithTs ik.userKey v) = some (ik, w) :=
  SortedRun.lookup_eq_some_iff.mpr ⟨hw, rfl, h.le, fun y hy => h.max y ⟨t, ht, hy⟩⟩

/-- Once the search has a version not below that of `ik`, it keeps it. -/
theorem Resolves.foldl_of_le (h : Resolves ts ik v) :
    ∀ (us : List Table), (∀ t ∈ us, t ∈ ts) → ∀ vs : ValueStruct, parseTs ik ≤ vs.version →
      us.foldl (searchTable env ik.userKey (keyWithTs ik.userKey v)) vs = vs
  | [], _, _, _ => rfl
  | t :: us, hus, vs, hvs => by
    have hstep : searchTable env ik.userKey (keyWithTs ik.userKey v) vs t = vs := by
      rw [searchTable_eq]
      cases hl : t.toSortedRun.lookup (keyWithTs ik.userKey v) with
      | none => rfl
      | some x =>
        obtain ⟨hxk, hxt⟩ := h.lookup_le (hus t (.head _)) hl
        have := parseTs_mono hxk hxt
        exact if_neg (by omega)
    rw [foldl_cons, hstep]
    exact h.foldl_of_le us (fun u hu => hus u (.tail _ hu)) vs hvs

/-- Tables without `ik` leave the search at an older version. -/
theorem Resolves.foldl_lt (h : Resolves ts ik v) (hpos : 0 < parseTs ik) :
    ∀ (us : List Table), (∀ t ∈ us, t ∈ ts) → (∀ t ∈ us, ∀ w, (ik, w) ∉ t.toSortedRun) →
      ∀ vs : ValueStruct, vs.version < parseTs ik →
      (us.foldl (searchTable env ik.userKey (keyWithTs ik.userKey v)) vs).version < parseTs ik
  | [], _, _, _, hvs => hvs
  | t :: us, hus, hno, vs, hvs => by
    have hne : ik.userKey ≠ [] := fun hnil => by simp [parseTs, hnil] at hpos
    rw [foldl_cons]
    refine h.foldl_lt hpos us (fun u hu => hus u (.tail _ hu))
      (fun u hu => hno u (.tail _ hu)) _ ?_
    rw [searchTable_eq]
    cases hl : t.toSortedRun.lookup (keyWithTs ik.userKey v) with
    | none => exact hvs
    | some x =>
      obtain ⟨hxk, hxt⟩ := h.lookup_le (hus t (.head _)) hl
      dsimp only
      split_ifs
      · show parseTs x.1 < parseTs ik
        rw [parseTs_of_ne_nil hne, parseTs_of_ne_nil (hxk ▸ hne)]
        refine lt_of_le_of_ne hxt fun hts => hno t (.head _) x.2 ?_
        have hkey : x.1 = ik := InternalKey.ext hxk hts
        exact hkey ▸ ((looks_table ik.userKey v).some t x hl).mem
      · exact hvs

/-- **The search returns the value of the first table it looks at that has the internal key.** -/
theorem foldl_searchTable_resolves (h : Resolves ts ik v) (hpos : 0 < parseTs ik)
    {front back : List Table} (hus : ∀ u ∈ front ++ t :: back, u ∈ ts)
    (hfront : ∀ u ∈ front, ∀ w, (ik, w) ∉ u.toSortedRun) {w : ValueStruct}
    (hw : (ik, w) ∈ t.toSortedRun) :
    (front ++ t :: back).foldl (searchTable env ik.userKey (keyWithTs ik.userKey v)) {} =
      withVersion (ik, w) := by
  have hlt := h.foldl_lt env hpos front (fun u hu => hus u (mem_append_left _ hu)) hfront {} hpos
  have ht : t ∈ ts := hus t (mem_append_right _ (.head _))
  rw [foldl_append, foldl_cons]
  generalize front.foldl _ _ = vs at hlt
  have hstep : searchTable env ik.userKey (keyWithTs ik.userKey v) vs t = withVersion (ik, w) := by
    rw [searchTable_eq, h.lookup_eq ht hw]
    exact if_pos hlt
  rw [hstep]
  refine h.foldl_of_le env back (fun u hu => hus u ?_) _ le_rfl
  exact mem_append_right _ (.tail _ hu)

end Search

theorem exists_first {α : Type*} (p : α → Prop) {l : List α} {a : α} (ha : a ∈ l) (hp : p a) :
    ∃ front b back, l = front ++ b :: back ∧ p b ∧ ∀ c ∈ front, ¬ p c := by
  classical
  obtain ⟨b, hb⟩ := Option.isSome_iff_exists.mp
    (find?_isSome.mpr ⟨a, ha, decide_eq_true hp⟩ : (l.find? fun c => decide (p c)).isSome)
  obtain ⟨hpb, front, back, hl, hfront⟩ := find?_eq_some_iff_append.mp hb
  exact ⟨front, b, back, hl, of_decide_eq_true hpb, fun c hc => by simpa using hfront c hc⟩

/-- When the memtables have no version of the key to offer, the tables decide. -/
theorem getValueStruct_of_absent (env : Env) {mts : List Skiplist} {tables : List Table}
    {k : Bytes} {seqNumber version v : ℕ} (hv : (if version = 0 then seqNumber else version) = v)
    (habs : Absent userKeyOf versionOf (memPairs mts) k v) :
    getValueStruct env mts seqNumber tables k version =
      (getTablesForKey env tables k).foldl (searchTable env k (keyWithTs k v)) {} := by
  have hnone : (mts.findSome? fun s => s.toSortedRun.lookup (keyWithTs k v)) = none := by
    rw [findSome?_eq_none_iff]
    intro s hs
    cases hl : s.toSortedRun.lookup (keyWithTs k v) with
    | none => rfl
    | some x =>
      have hx := (looks_memTable k v).some s x hl
      exact absurd (habs x ⟨s, hs, hx.mem⟩ hx.key_eq) (not_lt.mpr hx.le)
  rw [getValueStruct, hv, searchMemTables_eq, hnone]
  rfl

/-- A read returns the value of the table with the greatest `LastSeq`, if there is a version. -/
theorem getValueStruct_resolves (env : Env) {mts : List Skiplist} {ts : List Table}
    {ik : InternalKey} {seqNumber version v : ℕ} {v₂ : ValueStruct} {t₂ : Table}
    (hv : (if version = 0 then seqNumber else version) = v)
    (habs : Absent userKeyOf versionOf (memPairs mts) ik.userKey v) (h : Resolves ts ik v)
    (ht₂ : t₂ ∈ ts) (h₂ : (ik, v₂) ∈ t₂.toSortedRun)
    (hlast : ∀ t ∈ ts, ∀ w, (ik, w) ∈ t.toSortedRun → t.lastSeq < t₂.lastSeq ∨ w = v₂) :
    getValueStruct env mts seqNumber ts ik.userKey version =
      if 0 < parseTs ik then withVersion (ik, v₂) else {} := by
  rw [getValueStruct_of_absent env hv habs]
  have hus : ∀ u ∈ getTablesForKey env ts ik.userKey, u ∈ ts := fun u hu =>
    mem_of_mem_getTablesForKey hu
  split_ifs with hpos
  · have hmem : t₂ ∈ getTablesForKey env ts ik.userKey := mem_getTablesForKey ht₂ h₂
    have hsorted : (getTablesForKey env ts ik.userKey).Pairwise fun a b =>
        decide (b.lastSeq > a.lastSeq) = false := env.sortTables.sorted _
    obtain ⟨front, t, back, hl, ⟨w, hw⟩, hfront⟩ :=
      exists_first (fun t : Table => ∃ w, (ik, w) ∈ t.toSortedRun) hmem ⟨v₂, h₂⟩
    rw [hl] at hmem hsorted hus ⊢
    rw [foldl_searchTable_resolves env h hpos hus (fun u hu w' hw' => hfront u hu ⟨w', hw'⟩) hw]
    -- No table behind `t` has a greater `LastSeq`, and those before it do not have the key.
    have hge : t₂.lastSeq ≤ t.lastSeq := by
      rcases mem_append.mp hmem with hmem | hmem
      · exact absurd ⟨v₂, h₂⟩ (hfront t₂ hmem)
      · rcases hmem with _ | ⟨_, hmem⟩
        · exact le_rfl
        · have := (pairwise_cons.mp (pairwise_append.mp hsorted).2.1).1 t₂ hmem
          simpa using this
    rcases hlast t (hus t (mem_append_right _ (.head _))) w hw with hlt | rfl
    · omega
    · rfl
  · exact h.foldl_of_le env _ hus {} (not_lt.mp hpos)

/-- **A compaction keeps the value a read has returned just when the first table in stream order
that has the internal key holds the same value as the one with the greatest `LastSeq`.**  Keys
without a user key and version zero are never found. -/
theorem duplicate_resolved_alike_iff (env : Env) (major : Bool) (rounds : List (ℕ × List ℕ))
    (mts : List Skiplist) (tbls : List Table) (ik : InternalKey) (seqNumber version : ℕ)
    (v v₁ v₂ : ValueStruct) (m : Skiplist) (t₂ : Table)
    (hm : m ∈ doCompact major rounds tbls) (hv : (ik, v) ∈ m.toSortedRun)
    (h₁ : Leftmost (tbls.map fun t => t.data.entries) (ik, v₁))
    (ht₂ : t₂ ∈ tbls) (h₂ : (ik, v₂) ∈ t₂.toSortedRun)
    (hlast : ∀ t ∈ tbls, ∀ w, (ik, w) ∈ t.toSortedRun → t.lastSeq < t₂.lastSeq ∨ w = v₂)
    (habs : Absent userKeyOf versionOf (memPairs mts) ik.userKey
      (if version = 0 then seqNumber else version))
    (hres : Resolves tbls ik (if version = 0 then seqNumber else version)) :
    getValueStruct env mts seqNumber tbls ik.userKey version = withVersion (ik, v) ↔
      0 < parseTs ik ∧ v₁ = v₂ := by
  obtain rfl := eq_of_mem_doCompact hm hv h₁
  have hdec : ∀ w, (ik, w) ∈ tablePairs tbls → w.decoded = w := fun w hw =>
    decoded_eq_of_mem_tablePairs hw
  have hdec₂ := hdec v₂ ⟨t₂, ht₂, h₂⟩
  have hdec₁ := hdec v (exists_mem_of_mem_mergeIterators
    (mem_mergeIterators_of_mem_doCompact hm hv))
  rw [getValueStruct_resolves env rfl habs hres ht₂ h₂ hlast]
  constructor
  · intro heq
    split_ifs at heq with hpos
    · refine ⟨hpos, ?_⟩
      have heq' := congrArg ValueStruct.decoded heq
      rw [← hdec₁, ← hdec₂]
      exact heq'.symm
    · -- What is stored is never a `nil` slice.
      have hval := congrArg ValueStruct.value heq
      rw [withVersion, ← hdec₁] at hval
      exact absurd hval.symm (Option.some_ne_none _)
  · rintro ⟨hpos, rfl⟩
    exact if_pos hpos

/-- The key of a value that is written again. -/
def movedKey : InternalKey := ⟨[107], 5⟩

/-- The value under `movedKey`: a pointer into the given extent. -/
def movedValue (extentID : ℕ) : ValueStruct where
  value := some (ValuePointer.encode ⟨extentID, 0, 2000⟩)
  metaBits := bitValuePointer

/-- A table with `movedKey` only. -/
def movedTable (extentID lastSeq : ℕ) : Table :=
  Table.single movedKey (movedValue extentID) lastSeq

theorem mem_movedTable {extentID lastSeq : ℕ} {x : Pair}
    (hx : x ∈ (movedTable extentID lastSeq).toSortedRun) : x = (movedKey, movedValue extentID) :=
  Table.mem_single.mp hx

/-- Tables whose first one has the greatest `LastSeq`: its pointer is kept, and was read before. -/
theorem duplicate_resolved_alike_firstLatest :
    ∃ m ∈ doCompact true [(0, [])] [movedTable 2 6, movedTable 1 5],
      (movedKey, movedValue 2) ∈ m.toSortedRun ∧
      getValueStruct Env.plain [] 6 [movedTable 2 6, movedTable 1 5] [107] 0 =
        withVersion (movedKey, movedValue 2) := by
  obtain ⟨m, hm, hv⟩ : ∃ m ∈ doCompact true [(0, [])] [movedTable 2 6, movedTable 1 5],
      (movedKey, movedValue 2) ∈ m.data.entries := by decide +kernel
  refine ⟨m, hm, hv, ?_⟩
  refine (duplicate_resolved_alike_iff Env.plain true [(0, [])] [] _ movedKey 6 0 _ (movedValue 2)
    (movedValue 2) m (movedTable 2 6) hm hv (.inl (by decide +kernel)) (.head _)
    (by decide +kernel : (movedKey, movedValue 2) ∈ (movedTable 2 6).data.entries) ?_ ?_ ?_).mpr
    ⟨by decide, rfl⟩
  · intro t ht w hw
    simp only [mem_cons, not_mem_nil, or_false] at ht
    rcases ht with rfl | rfl
    · exact .inr (congrArg Prod.snd (mem_movedTable hw))
    · exact .inl (by decide)
  · rintro y ⟨s, hs, _⟩
    cases hs
  · refine ⟨by decide, ?_⟩
    rintro x ⟨t, ht, hx⟩ _ _
    simp only [mem_cons, not_mem_nil, or_false] at ht
    rcases ht with rfl | rfl <;> rw [mem_movedTable hx]

/-- Tables in the order in which they were flushed: the read follows the new pointer, and the
compaction keeps the old one. -/
theorem duplicate_resolved_apart :
    getValueStruct Env.plain [] 6 [movedTable 1 5, movedTable 2 6] [107] 0 =
        withVersion (movedKey, movedValue 2) ∧
      (doCompact true [(0, [])] [movedTable 1 5, movedTable 2 6]).map (fun m => m.data.entries) =
        [[(movedKey, movedValue 1)]] ∧
      movedValue 1 ≠ movedValue 2 := by
  decide +kernel

end Autumn
