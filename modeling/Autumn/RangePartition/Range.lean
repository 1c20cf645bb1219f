import Autumn.RangePartition.StoreSize
import Autumn.Table.MergeIterator
import Autumn.Y.Encoding

/-!
# The scan

`Range` merges all memtables and tables and goes through the merge from the start key on.  The
newest version of a user key comes first: the key is returned unless that version is a deletion, and
`skipKey` passes over the others.  The scan ends at the first pair without the prefix, which is
looked for in the internal key, with the version behind the user key.
-/

namespace Autumn

open Lib Y List SortedMap

/-! ## The code -/

/-- `bytes.HasPrefix` on the bytes of an internal key. -/
def hasPrefix (key : InternalKey) (pre : Bytes) : Bool := pre.isPrefixOf key.bytes

/-- `newIterator`: the memtables as they are searched, and behind them the tables from the last one
to the first. -/
def newIterator (mts : List Skiplist) (tables : List Table) : SortedMap InternalKey ValueStruct :=
  SortedMap.mergeAll (mts.map (fun m => m.data) ++ tables.reverse.map fun t => t.data)

/-- The body of the loop behind the test of the prefix, on `skipKey` and `out`. -/
def rangeBody (now : ℕ) (st : Option InternalKey × List Bytes) (x : Pair) :
    Option InternalKey × List Bytes :=
  if st.1.any fun k => sameKey x.1 k then st
  else if isDeletedOrExpired x.2.metaBits x.2.expiresAt now then (some x.1, st.2)
  else (some x.1, st.2 ++ [parseKey x.1])

/-- The loop of `Range` over the pairs to come. -/
def rangeLoop (pre : Bytes) (limit now : ℕ) :
    Option InternalKey × List Bytes → List Pair → List Bytes
  | st, [] => st.2
  | st, x :: xs =>
    if st.2.length < limit then
      if hasPrefix x.1 pre then rangeLoop pre limit now (rangeBody now st x) xs else st.2
    else st.2

/-- `Range`, given the memtables and tables that it merges and the sequence number it loads. -/
def range (mts : List Skiplist) (seqNumber : ℕ) (tables : List Table) (now : ℕ)
    (pre start : Bytes) (limit : ℕ) : List Bytes :=
  rangeLoop pre limit now (none, [])
    (fromKey false (keyWithTs start seqNumber) (newIterator mts tables).entries)

/-! ## The loop over an iterator -/

/-- The loop of `Range` over an iterator. -/
def rangeIter (I : Iterator InternalKey ValueStruct) (pre : Bytes) (limit now : ℕ) :
    ℕ → Option InternalKey × List Bytes → I.State → Option (List Bytes)
  | 0, _, _ => none
  | fuel + 1, st, s =>
    if I.valid s && decide (st.2.length < limit) then
      (I.key s).bind fun key =>
        if hasPrefix key pre then
          (I.value s).bind fun vs => (I.next s).bind fun s' =>
            rangeIter I pre limit now fuel (rangeBody now st (key, vs)) s'
        else some st.2
    else some st.2

variable {pre k start : Bytes} {now seqNumber limit : ℕ} {l : List Pair} {x : Pair}
  {mts : List Skiplist} {tables : List Table}

theorem rangeIter_eq {I : Iterator InternalKey ValueStruct} {s : I.State} (h : Yields I s l)
    {fuel : ℕ} (hfuel : l.length < fuel) (st : Option InternalKey × List Bytes) :
    rangeIter I pre limit now fuel st s = some (rangeLoop pre limit now st l) := by
  induction h generalizing fuel st with
  | nil hvalid =>
    obtain ⟨fuel, rfl⟩ := Nat.exists_eq_add_of_lt hfuel
    rw [rangeIter, hvalid]
    rfl
  | @cons s s' x l hvalid hkey hvalue hnext _ ih =>
    obtain ⟨fuel, rfl⟩ : ∃ n, fuel = n + 1 := Nat.exists_eq_succ_of_ne_zero (by omega)
    have hrest : l.length < fuel := by
      rw [length_cons] at hfuel
      omega
    rw [rangeIter, rangeLoop, hvalid, Bool.true_and]
    by_cases hlimit : st.2.length < limit
    · rw [if_pos (decide_eq_true hlimit), if_pos hlimit, hkey, Option.bind_some]
      by_cases hpre : hasPrefix x.1 pre = true
      · rw [if_pos hpre, if_pos hpre, hvalue, Option.bind_some, hnext, Option.bind_some]
        exact ih hrest _
      · rw [if_neg hpre, if_neg hpre]
    · rw [if_neg (by simpa using hlimit), if_neg hlimit]

/-- The code of `Range` over an iterator over all pairs is `range`. -/
theorem rangeIter_of_over {I : Iterator InternalKey ValueStruct}
    (h : Over false I (newIterator mts tables).entries) (s : I.State) :
    ∃ s', I.seek (keyWithTs start seqNumber) s = some s' ∧
      ∀ fuel, (newIterator mts tables).entries.length < fuel →
        rangeIter I pre limit now fuel (none, []) s' =
          some (range mts seqNumber tables now pre start limit) := by
  obtain ⟨s', hs', hy⟩ := (h.yields s).2 (keyWithTs start seqNumber)
  rw [← fromKey_eq_filter h.1] at hy
  refine ⟨s', hs', fun fuel hfuel => rangeIter_eq hy (lt_of_le_of_lt ?_ hfuel) _⟩
  exact (dropWhile_sublist _).length_le

/-- **The code of `Range` over the tree of merges is `range`.** -/
theorem rangeIter_newIterator (mts : List Skiplist) (tables : List Table) (hne : mts ≠ []) (n : ℕ)
    (seqNumber now : ℕ) (pre start : Bytes) (limit : ℕ) :
    ∃ I, newMergeIterator (n + 1) false (mts.map (fun m => mapIterator false m.data) ++
        tables.reverse.map fun t => mapIterator false t.data) = some I ∧
      ∀ s : I.State, ∃ s', I.seek (keyWithTs start seqNumber) s = some s' ∧
        ∀ fuel, (newIterator mts tables).entries.length < fuel →
          rangeIter I pre limit now fuel (none, []) s' =
            some (range mts seqNumber tables now pre start limit) := by
  have hover :
      ∀ d : SortedMap InternalKey ValueStruct, Over false (mapIterator false d) d.entries :=
    over_mapIterator false
  obtain ⟨I, hI, hover⟩ := @over_mergeAll _ (mts.map (fun m => m.data) ++
      tables.reverse.map fun t => t.data) (by simpa using fun h => absurd h hne) (rel_append
    (forall₂_map_left_iff.mpr (forall₂_map_right_iff.mpr
      (forall₂_same.mpr fun m _ => hover m.data)))
    (forall₂_map_left_iff.mpr (forall₂_map_right_iff.mpr
      (forall₂_same.mpr fun t _ => hover t.data)))) n
  exact ⟨I, hI, fun s => rangeIter_of_over hover s⟩

/-! ## Which keys are returned -/

/-- The first pair of a user key is its newest version. -/
theorem find?_userKey_eq_some_iff (hs : l.Pairwise fun a b => a.1 < b.1) :
    (l.find? fun y => decide (y.1.userKey = k)) = some x ↔
      x ∈ l ∧ x.1.userKey = k ∧ ∀ y ∈ l, y.1.userKey = k → y.1.ts ≤ x.1.ts := by
  induction l with
  | nil => simp
  | cons z l ih =>
    have hl := hs.of_cons
    by_cases hz : z.1.userKey = k
    · rw [find?_cons_of_pos (by simpa using hz), Option.some_inj]
      have hmax : ∀ y ∈ l, y.1.userKey = k → y.1.ts < z.1.ts := fun y hy hyk =>
        ts_lt_of_sorted hs hy (hyk.trans hz.symm)
      constructor
      · rintro rfl
        refine ⟨mem_cons_self, hz, fun y hy hyk => ?_⟩
        rcases hy with _ | ⟨_, hy⟩
        · exact le_rfl
        · exact (hmax y hy hyk).le
      · rintro ⟨hx, hxk, hle⟩
        rcases hx with _ | ⟨_, hx⟩
        · rfl
        · exact absurd (hle z (.head _) hz) (not_le.mpr (hmax x hx hxk))
    · rw [find?_cons_of_neg (by simpa using hz), ih hl]
      constructor
      · rintro ⟨hx, hxk, hle⟩
        refine ⟨.tail _ hx, hxk, fun y hy hyk => ?_⟩
        rcases hy with _ | ⟨_, hy⟩
        · exact absurd hyk hz
        · exact hle y hy hyk
      · rintro ⟨hx, hxk, hle⟩
        rcases hx with _ | ⟨_, hx⟩
        · exact absurd hxk hz
        · exact ⟨hx, hxk, fun y hy => hle y (.tail _ hy)⟩

/-- Without a limit the loop returns the user keys that a major compaction of the pairs up to the
first one without the prefix would keep. -/
theorem rangeLoop_eq {skipKey : Option InternalKey} {out : List Bytes}
    (hexp : ∀ x ∈ l, x.2.expiresAt = 0)
    (hlimit : out.length + l.length ≤ limit) : rangeLoop pre limit now (skipKey, out) l =
      out ++ (keptOf skipKey (l.takeWhile fun x => hasPrefix x.1 pre)).map
        fun x => x.1.userKey := by
  induction l generalizing skipKey out with
  | nil => simp [rangeLoop, keptOf]
  | cons x xs ih =>
    rw [forall_mem_cons] at hexp
    rw [length_cons] at hlimit
    rw [rangeLoop, if_pos (show out.length < limit by omega)]
    by_cases hpre : hasPrefix x.1 pre = true
    · rw [if_pos hpre, rangeBody, takeWhile_cons, hpre, if_pos rfl, keptOf,
        isDeletedOrExpired_eq hexp.1]
      dsimp only
      split_ifs
      · exact ih hexp.2 (by omega)
      · exact ih hexp.2 (by omega)
      · rw [ih hexp.2 (by rw [length_append, length_singleton]; omega), append_assoc]
        rfl
    · rw [if_neg hpre, takeWhile_cons, if_neg hpre]
      exact (append_nil out).symm

theorem mem_takeWhile_iff {p : Pair → Bool} (hs : l.Pairwise fun a b => a.1 < b.1) :
    x ∈ l.takeWhile p ↔ x ∈ l ∧ ∀ y ∈ l, y.1 ≤ x.1 → p y = true := by
  induction l with
  | nil => simp
  | cons z xs ih =>
    obtain ⟨hz, hxs⟩ := pairwise_cons.mp hs
    have hle : x ∈ z :: xs → z.1 ≤ x.1 := by
      rintro (_ | ⟨_, hx⟩)
      · exact le_rfl
      · exact (hz x hx).le
    by_cases hp : p z = true
    · rw [takeWhile_cons_of_pos hp, mem_cons, mem_cons, ih hxs, forall_mem_cons]
      refine ⟨?_, fun h => h.1.imp id fun hx => ⟨hx, h.2.2⟩⟩
      rintro (rfl | ⟨hx, hall⟩)
      · exact ⟨.inl rfl, fun _ => hp, fun y hy hyx => absurd (hz y hy) (not_lt.mpr hyx)⟩
      · exact ⟨.inr hx, fun _ => hp, hall⟩
    · rw [takeWhile_cons_of_neg hp]
      exact iff_of_false not_mem_nil fun h => hp (h.2 z (.head _) (hle h.1))

theorem rangeBody_snd (now : ℕ) (st : Option InternalKey × List Bytes) (x : Pair) :
    (rangeBody now st x).2 = st.2 ∨ (rangeBody now st x).2 = st.2 ++ [parseKey x.1] := by
  rw [rangeBody]
  split_ifs
  exacts [.inl rfl, .inl rfl, .inr rfl]

theorem isPrefix_rangeLoop (l : List Pair) (st : Option InternalKey × List Bytes) :
    st.2 <+: rangeLoop pre limit now st l := by
  induction l generalizing st with
  | nil => exact prefix_refl _
  | cons x xs ih =>
    rw [rangeLoop]
    split_ifs
    · refine List.IsPrefix.trans ?_ (ih _)
      rcases rangeBody_snd now st x with h | h <;> rw [h]
      exact prefix_append _ _
    · exact prefix_refl _
    · exact prefix_refl _

/-- **A limit cuts off**: the keys are the first ones of a scan with a greater limit. -/
theorem rangeLoop_eq_take {limit' : ℕ} (hle : limit ≤ limit') (l : List Pair)
    {st : Option InternalKey × List Bytes} (hst : st.2.length ≤ limit) :
    rangeLoop pre limit now st l = (rangeLoop pre limit' now st l).take limit := by
  induction l generalizing st with
  | nil => exact (take_of_length_le hst).symm
  | cons x xs ih =>
    by_cases hlt : st.2.length < limit
    · rw [rangeLoop, rangeLoop, if_pos hlt, if_pos (hlt.trans_le hle)]
      split_ifs
      · refine ih ?_
        rcases rangeBody_snd now st x with h | h <;> rw [h]
        · exact hst
        · rw [length_append]
          exact hlt
      · exact (take_of_length_le hst).symm
    · rw [rangeLoop, if_neg hlt, ← le_antisymm hst (not_lt.mp hlt)]
      exact prefix_iff_eq_take.mp (isPrefix_rangeLoop _ st)

theorem pairwise_rangeLoop {skipKey : Option InternalKey} {out : List Bytes}
    (hs : l.Pairwise fun a b => a.1 < b.1) (hb : Behind skipKey l)
    (hle : ∀ k ∈ out, ∃ j, skipKey = some j ∧ k ≤ j.userKey) (hout : out.Pairwise (· < ·)) :
    (rangeLoop pre limit now (skipKey, out) l).Pairwise (· < ·) := by
  induction l generalizing skipKey out with
  | nil => exact hout
  | cons x xs ih =>
    have hbx : Behind (some x.1) xs := behind_tail hs
    have hxs := hs.of_cons
    have hbelow : ∀ k ∈ out, k ≤ x.1.userKey := by
      intro k hk
      obtain ⟨j, hj, hkj⟩ := hle k hk
      exact hkj.trans (hb j hj x (.head _))
    rw [rangeLoop]
    split_ifs with hlimit hpre
    · rw [rangeBody]
      split_ifs with hskip hdel
      · exact ih hxs hb.tail hle hout
      · exact ih hxs hbx (fun k hk => ⟨x.1, rfl, hbelow k hk⟩) hout
      · -- A key that is returned differs from the one dealt with last.
        have hlt : ∀ k ∈ out, k < x.1.userKey := by
          intro k hk
          obtain ⟨j, rfl, hkj⟩ := hle k hk
          exact hkj.trans_lt ((hb j rfl x (.head _)).lt_of_ne (fresh_of_not_skip hskip j rfl).symm)
        exact ih hxs hbx (fun k hk => ⟨x.1, rfl, forall_mem_concat hbelow le_rfl k hk⟩)
          (pairwise_append.mpr ⟨hout, pairwise_singleton _ _,
            fun k hk j hj => mem_singleton.mp hj ▸ hlt k hk⟩)
    · exact hout
    · exact hout

/-- The pair that decides about a user key: the first one that the scan comes to. -/
def rangeSees (mts : List Skiplist) (seqNumber : ℕ) (tables : List Table) (start k : Bytes) :
    Option Pair :=
  (fromKey false (keyWithTs start seqNumber) (newIterator mts tables).entries).find?
    fun x => decide (x.1.userKey = k)

/-- **Which keys a scan returns**: those decided by a pair that is not a deletion, if everything up
to that pair has the prefix. -/
theorem mem_range_iff (hexp : ∀ x ∈ (newIterator mts tables).entries, x.2.expiresAt = 0)
    (hlimit : (newIterator mts tables).entries.length ≤ limit) :
    k ∈ range mts seqNumber tables now pre start limit ↔
      ∃ x, rangeSees mts seqNumber tables start k = some x ∧ x.2.isDeleted = false ∧
        ∀ y ∈ fromKey false (keyWithTs start seqNumber) (newIterator mts tables).entries,
          y.1 ≤ x.1 → hasPrefix y.1 pre = true := by
  have hsub : fromKey false (keyWithTs start seqNumber) (newIterator mts tables).entries <+
      (newIterator mts tables).entries := dropWhile_sublist _
  have hs : (fromKey false (keyWithTs start seqNumber) (newIterator mts tables).entries).Pairwise
      fun a b => a.1 < b.1 := (newIterator mts tables).sorted.sublist hsub
  have hnone : ∀ {l}, Behind none l := by simp [Behind]
  rw [range, rangeLoop_eq (fun x hx => hexp x (hsub.subset hx)) (by
    rw [length_nil, Nat.zero_add]
    exact hsub.length_le.trans hlimit), nil_append, mem_map]
  simp only [mem_keptOf_iff (hs.sublist (takeWhile_sublist _)) hnone, rangeSees,
    find?_userKey_eq_some_iff hs]
  refine exists_congr fun x => ?_
  constructor
  · rintro ⟨⟨⟨hx, hmax, hlive⟩, -⟩, rfl⟩
    obtain ⟨hx, hp⟩ := (mem_takeWhile_iff hs).mp hx
    refine ⟨⟨hx, rfl, fun y hy hyx => ?_⟩, hlive, hp⟩
    by_cases hle : y.1 ≤ x.1
    · exact hmax y ((mem_takeWhile_iff hs).mpr ⟨hy, fun z hz hzy => hp z hz (hzy.trans hle)⟩) hyx
    · rcases InternalKey.lt_iff.mp (not_le.mp hle) with h | h
      · exact absurd hyx.symm h.ne
      · exact h.2.le
  · rintro ⟨⟨hx, rfl, hmax⟩, hlive, hp⟩
    exact ⟨⟨⟨(mem_takeWhile_iff hs).mpr ⟨hx, hp⟩,
      fun y hy => hmax y ((takeWhile_sublist _).subset hy), hlive⟩, by simp⟩, rfl⟩

/-! ## What a scan goes through -/

theorem mem_of_mem_newIterator (h : x ∈ (newIterator mts tables).entries) :
    x ∈ memPairs mts ∪ tablePairs tables := by
  obtain ⟨m, hm, hx⟩ := exists_mem_of_mem_mergeAll h
  rcases mem_append.mp hm with hm | hm
  · obtain ⟨s, hs, rfl⟩ := mem_map.mp hm
    exact .inl ⟨s, hs, hx⟩
  · obtain ⟨t, ht, rfl⟩ := mem_map.mp hm
    exact .inr ⟨t, mem_reverse.mp ht, hx⟩

theorem exists_key_mem_newIterator (h : x ∈ memPairs mts ∪ tablePairs tables) :
    ∃ y ∈ (newIterator mts tables).entries, y.1 = x.1 := by
  rcases h with ⟨s, hs, hx⟩ | ⟨t, ht, hx⟩
  · exact exists_key_mem_mergeAll
      (mem_append_left _ (mem_map_of_mem hs)) hx
  · exact exists_key_mem_mergeAll
      (mem_append_right _ (mem_map_of_mem (mem_reverse.mpr ht))) hx

/-- The sequence number only limits the versions of the start key itself. -/
theorem mem_fromKey_start :
    x ∈ fromKey false (keyWithTs start seqNumber) (newIterator mts tables).entries ↔
      x ∈ (newIterator mts tables).entries ∧
        (start < x.1.userKey ∨ start = x.1.userKey ∧ x.1.ts ≤ seqNumber) := by
  have hs : InOrder false (newIterator mts tables).entries := (newIterator mts tables).sorted
  rw [fromKey_eq_filter hs, mem_filter, decide_eq_true_iff]
  refine and_congr_right fun _ => ?_
  show ¬ x.1 < keyWithTs start seqNumber ↔ _
  rw [not_lt, InternalKey.le_iff]
  rfl

/-- **What decides about a key is its newest version**, in all memtables and tables. -/
theorem isNewest_of_rangeSees (h : rangeSees mts seqNumber tables start k = some x) :
    ∃ v, seqNumber ≤ v ∧ IsNewest userKeyOf versionOf (memPairs mts ∪ tablePairs tables) k v x := by
  have hs := (newIterator mts tables).sorted.sublist
    (dropWhile_sublist fun x => decide (Before false x.1 (keyWithTs start seqNumber)))
  obtain ⟨hx, hxk, hmax⟩ := (find?_userKey_eq_some_iff hs).mp h
  obtain ⟨hmem, hfrom⟩ := mem_fromKey_start.mp hx
  -- Behind the start key all versions come up, at the start key those up to the sequence number.
  rcases hfrom with hlt | ⟨heq, hle⟩
  · refine ⟨max seqNumber x.1.ts, le_max_left _ _, mem_of_mem_newIterator hmem, hxk,
      le_max_right _ _, fun y hy hyk _ => ?_⟩
    obtain ⟨z, hz, hzy⟩ := exists_key_mem_newIterator hy
    have hzk : z.1.userKey = k := hzy ▸ hyk
    show y.1.ts ≤ x.1.ts
    rw [← hzy]
    exact hmax z (mem_fromKey_start.mpr ⟨hz, .inl (hzk ▸ hxk ▸ hlt)⟩) hzk
  · refine ⟨seqNumber, le_rfl, mem_of_mem_newIterator hmem, hxk, hle, fun y hy hyk hyv => ?_⟩
    obtain ⟨z, hz, hzy⟩ := exists_key_mem_newIterator hy
    have hzk : z.1.userKey = k := hzy ▸ hyk
    show y.1.ts ≤ x.1.ts
    rw [← hzy]
    exact hmax z (mem_fromKey_start.mpr ⟨hz, .inr ⟨heq.trans (hxk.trans hzk.symm), hzy ▸ hyv⟩⟩) hzk

/-- A key that nothing decides about has no version up to the sequence number. -/
theorem absent_of_rangeSees (hstart : start ≤ k)
    (h : rangeSees mts seqNumber tables start k = none) :
    Absent userKeyOf versionOf (memPairs mts ∪ tablePairs tables) k seqNumber := by
  intro y hy hyk
  obtain ⟨z, hz, hzy⟩ := exists_key_mem_newIterator hy
  have hzk : z.1.userKey = k := hzy ▸ hyk
  by_contra hle
  refine find?_eq_none.mp h z (mem_fromKey_start.mpr ⟨hz, ?_⟩) (decide_eq_true hzk)
  rw [hzk]
  exact hstart.lt_or_eq.imp_right fun heq => ⟨heq, hzy ▸ not_lt.mp hle⟩

end Autumn
