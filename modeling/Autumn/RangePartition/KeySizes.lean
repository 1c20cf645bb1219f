import Autumn.RangePartition.Admission
import Autumn.StreamClient.MixBlock
import Autumn.Table.ConcatIterator

/-!
# Keys and values of all sizes

`Write` checks no length.  Its entry comes to a mixed block of 4096 bytes or to a block of its own,
to the estimate of `ensureRoomForWrite`, to a skiplist that keeps the lengths of keys in sixteen
bits, and to a table that adds the length of a header to them in sixteen bits.  `ParseTs` finds no
version in a key of eight bytes.  `writes_served` says which keys and values get through in every
state.
-/

namespace Autumn
namespace KeySizes

open Lib Y Admission List InternalKey

/-- What `Write` makes of a request: a sequence number and an expiry time of 64 bits. -/
structure Stamped (ei : EntryInfo) : Prop where
  ts_pos : 0 < ei.log.key.ts
  ts_lt : ei.log.key.ts < 2 ^ 64
  expiresAt_lt : ei.log.expiresAt < 2 ^ 64

/-- Entries with which every part of the write path can deal. -/
structure Sized (ei : EntryInfo) : Prop where
  key_ne : ei.log.key.userKey ≠ []
  key_le : ei.log.key.len ≤ 65531
  mixed : shouldWriteValueToLSM ei.log → ei.log.size ≤ maxMixedBlockSize

/-- What `getValueStruct` is to return for an entry. -/
def found (ei : EntryInfo) : ValueStruct := { (lsmValue ei).decoded with version := ei.log.key.ts }

/-- The search of `getValueStruct` in one table. -/
def tableGet (t : Sst.Table) (hash : ℕ) (key : Bytes) : Option ValueStruct :=
  if t.doesNotHave hash then some {}
  else (Sst.TableIterator.run t false [.seek key]).bind fun itr =>
    if itr.valid && Raw.sameKey key itr.key && decide (0 < Raw.parseTs itr.key) then
      itr.value.map fun v => { v with version := Raw.parseTs itr.key }
    else some {}

/-- The pairs that a flush passes to the builder, from node `n` on. -/
inductive Flushes (s : Skl) : ℕ → List Sst.KV → Prop where
  | done : Flushes s 0 []
  | add {n n' : ℕ} {v : ValueStruct} {l : List Sst.KV} (hn : n ≠ 0)
    (hv : s.arena.valueOf n = some v)
    (hnext : s.next n = some n') (hl : Flushes s n' l) : Flushes s n ((s.arena.keyOf n, v) :: l)

/-- A search for the user key of an entry at any sequence number that has been reached by then, such
as that of `Get` without a version, gives the entry. -/
def Finds (search : Bytes → Option ValueStruct) (ei : EntryInfo) : Prop :=
  ∀ ts, ei.log.key.ts ≤ ts → ts < 2 ^ 64 →
    search (keyWithTs ei.log.key.userKey ts).bytes = some (found ei)

/-- A flush of the memtable makes a table with the property. -/
def Flushed (C : Sst.Codec) (mt : Skl) (Q : ℕ → ℕ → ℕ → Sst.Table → Prop) : Prop :=
  ∃ n l, mt.seekToFirst = some n ∧ Flushes mt n l ∧ Sst.Opens C l Q

/-- The pairs that the iterator of a memtable hands to the builder come back, from wherever the
stream has put the blocks, in a table with the pairs of `m` in the same order. -/
def FlushesTo (C : Sst.Codec) (mt : Skl) (m : Skiplist) : Prop :=
  Flushed C mt fun e o s t => ∃ (T : Sst.OpenTable C.fingerprint) (t' : Table),
    T.toTable = t ∧ m.toTable e o s = some t' ∧ T.run.data = t'.data ∧
    T.vpExtentID = t'.vpExtentID ∧
      T.vpOffset = t'.vpOffset ∧ T.lastSeq = t'.lastSeq

/-- `Get` finds the entry in the memtable, and in the table that a flush makes of it. -/
structure Served (C : Sst.Codec) (mt : Skl) (ei : EntryInfo) : Prop where
  memtable : Finds mt.get ei
  flushed : Flushed C mt fun _ _ _ t => Finds (tableGet t (C.fingerprint ei.log.key.userKey)) ei

/-- The memtable has been filled by calls with pairs that fit. -/
structure Filled (rp : Partition) (ops : List Skl.PutOp) : Prop where
  made : Skl.Made maxSkipList ops rp.mt
  fits : ∀ op ∈ ops, op.Valid ∧ Sst.Fits (op.key, op.value)

/-- The memtable and the batch have no newer version of the key. -/
def Newest (ops : List Skl.PutOp) (entries : List EntryInfo) (ei : EntryInfo) : Prop :=
  ∀ key ∈ ops.map (fun op => InternalKey.ofBytes op.key) ++ entries.map (fun ei => ei.log.key),
    key.userKey = ei.log.key.userKey → key.ts ≤ ei.log.key.ts

/-- The write path deals with a batch: its blocks can be made, in whatever order it is sorted;
`ensureRoomForWrite` does not die; and if it admits the batch, all entries come into the memtable,
and `Get` finds the newest ones of their keys. -/
def Handled (C : Sst.Codec) (ops : List Skl.PutOp) (rp : Partition) (entries : List EntryInfo)
    (head : ValuePointer) : Prop :=
  (∀ es : List (ℕ × Entry), es.map Prod.snd ~ entries.map EntryInfo.log →
    (entriesToBlocks es).isSome) ∧
  ∃ rp' ok, rp.ensureRoomForWrite entries head = some (rp', ok) ∧ (ok = true →
    ∀ drawn, Drawn entries drawn → ∃ mt, writeToLSM rp'.mt drawn = some mt ∧
      ∀ ei ∈ entries, Newest ops entries ei → Served C mt ei)

/-! ## One entry -/

theorem isSome_entriesToBlocks {es : List (ℕ × Entry)}
    (h : ∀ x ∈ es, shouldWriteValueToLSM x.2 → x.2.size ≤ maxMixedBlockSize) :
    (entriesToBlocks es).isSome := by
  rw [entriesToBlocks, if_pos]
  · rfl
  · refine all_eq_true.mpr fun x hx => decide_eq_true ?_
    exact h x ((takeWhile_sublist _).subset hx)
      (mem_takeWhile_imp (p := fun x : ℕ × Entry => shouldWriteValueToLSM x.2) hx)

theorem flushes {s : Skl} {m : Skiplist} {L : ℕ → List ℕ} (h : s.Refines m L) :
    Flushes s ((L 0).head?.getD 0) ((L 0).map fun y => (s.arena.keyOf y, s.value y)) := by
  -- The list is taken apart from the front, with what is left of it.
  suffices hall : ∀ b a, L 0 = a ++ b →
      Flushes s (b.head?.getD 0) (b.map fun y => (s.arena.keyOf y, s.value y)) from hall _ [] rfl
  intro b
  induction b with
  | nil => exact fun _ _ => .done
  | cons y b ih =>
    intro a hsplit
    have hy : y ∈ L 0 := hsplit ▸ mem_append_right _ (.head _)
    refine .add (h.levels.ne_zero hy) (h.stored y hy).value_eq (h.next_eq hsplit) (ih (a ++ [y]) ?_)
    rw [hsplit, append_cons]

theorem tableGet_eq {C : Sst.Codec} (T : Sst.OpenTable C.fingerprint) {k : Bytes} {ts : ℕ}
    (hts : ts < 2 ^ 64) {x : Pair} (hx : T.run.toSortedRun.lookup (keyWithTs k ts) = some x)
    (hpos : 0 < parseTs x.1) : tableGet T.toTable (C.fingerprint k) (keyWithTs k ts).bytes =
      some { x.2 with version := parseTs x.1 } := by
  have hlen := (keyWithTs k ts).length_bytes_ge
  have hbytes : ofBytes (keyWithTs k ts).bytes = keyWithTs k ts :=
    ofBytes_bytes hts
  obtain ⟨hfind, hsame⟩ := Option.filter_eq_some_iff.mp hx
  obtain ⟨e, he, rfl⟩ := Sst.OpenTable.mem_run.mp (SortedMap.seek_eq_some_iff.mp hfind).1
  have hfilter := T.filter e he
  rw [show Raw.parseKey e.1 = k from (sameKey_iff.mp hsame).symm] at hfilter
  obtain ⟨itr, _, hnew, _⟩ := Sst.TableIterator.newIterator_spec T.laid
  obtain ⟨itr', hseek, hfacing⟩ := T.facing_seek false hlen itr
  have hrun : Sst.TableIterator.run T.toTable false [.seek (keyWithTs k ts).bytes] = some itr' := by
    rw [Sst.TableIterator.run, hnew, Option.bind_some, foldlM_cons, hseek]
    rfl
  rw [T.run_seek] at hfind
  rw [hbytes] at hfacing
  obtain ⟨hnil, -⟩ | ⟨y, r, hcons, hvalid, hlen', hkey, hvalue, -⟩ := hfacing.cases
  · rw [hnil] at hfind
    cases hfind
  · rw [hcons] at hfind
    cases hfind
    have hsame' : Raw.sameKey (keyWithTs k ts).bytes itr'.key = true := by
      rw [Raw.sameKey_eq hlen hlen', hbytes, hkey]
      exact hsame
    have hparse : Raw.parseTs itr'.key = parseTs (Sst.pairOf e).1 := by rw [Raw.parseTs_eq, hkey]
    rw [tableGet, hfilter, if_neg Bool.false_ne_true, hrun]
    simp [hsame', hpos, hvalid, hparse, hvalue]

theorem lastPut_of_mem {before : List Skl.PutOp} {op : Skl.PutOp} {bs : List Skl.PutOp}
    (hnodup : (bs.map Skl.PutOp.key).Nodup) (hop : op ∈ bs) :
    Skl.lastPut (before ++ bs) op.key = some op.value.decoded := by
  induction bs using reverseRecOn with
  | nil => cases hop
  | append_singleton bs o ih =>
    rw [map_append, nodup_append] at hnodup
    rw [← append_assoc, Skl.lastPut_append]
    rcases mem_append.mp hop with hop | hop
    · rw [if_neg, ih hnodup.1 hop]
      exact fun heq => hnodup.2.2 _ (mem_map_of_mem hop) _ (.head _) heq.symm
    · rw [mem_singleton.mp hop, if_pos rfl]

variable {C : Sst.Codec} {mt : Skl} {L : ℕ → List ℕ} {ops : List Skl.PutOp} {ei : EntryInfo}

theorem ofEntry_lsmOp {height : ℕ} (h : (lsmOp ei height).Valid)
    (hexp : ei.log.expiresAt < 2 ^ 64) :
    OfEntry (ei.log.key.bytes, lsmValue ei) := ⟨h.len_ge, h.len_le, ei, hexp, rfl⟩

theorem exists_op (href : mt.Refines (Skl.sortedMap ops) L) (hops : ∀ op ∈ ops, op.Valid) {y : ℕ}
    (hy : y ∈ L 0) : ∃ op ∈ ops, op.key = mt.arena.keyOf y ∧ op.value.decoded = mt.value y :=
  Skl.exists_of_lastPut ((href.contents_iff hops _ _).mp ⟨y, hy, rfl, (href.stored y hy).value_eq⟩)

theorem fits_nodes (href : mt.Refines (Skl.sortedMap ops) L)
    (hops : ∀ op ∈ ops, op.Valid ∧ Sst.Fits (op.key, op.value)) :
    ∀ x ∈ (L 0).map fun y => (mt.arena.keyOf y, mt.value y), Sst.Fits x := by
  intro x hx
  obtain ⟨y, hy, rfl⟩ := mem_map.mp hx
  obtain ⟨op, hop, hkey, hval⟩ := exists_op href (fun op hop => (hops op hop).1) hy
  rw [← hkey, ← hval]
  exact ⟨(hops op hop).2.key, (hops op hop).2.value.expiresAt_lt, (hops op hop).2.value.size_le⟩

theorem sorted_nodes {m : Skiplist} (href : mt.Refines m L) :
    ((L 0).map fun y => (mt.arena.keyOf y, mt.value y)).Pairwise fun x y =>
      Raw.compareKeys x.1 y.1 = .lt := by
  refine pairwise_map.mpr ((href.levels.sorted 0).imp_of_mem fun hx hy hlt => ?_)
  rw [Raw.compareKeys_eq (href.stored _ hx).key_len (href.stored _ hy).key_len]
  exact (cmp_eq_lt_iff _ _).mpr hlt

/-- The list that a flush passes to the builder is the sorted map. -/
theorem map_pairOf_nodes (href : mt.Refines (Skl.sortedMap ops) L) :
    ((L 0).map fun y => (mt.arena.keyOf y, mt.value y)).map Sst.pairOf =
      (Skl.sortedMap ops).data.entries := by
  rw [map_map, ← href.entries]
  refine map_congr_left fun y hy => Prod.ext rfl ?_
  exact (Skl.sortedMap ops).decoded_eq _ (href.mem_iff.mpr ⟨y, hy, rfl⟩)

/-- A flush of the skiplist is one of the sorted map. -/
theorem flushesTo (hC : C.Faithful) (href : mt.Refines (Skl.sortedMap ops) L)
    (hops : ∀ op ∈ ops, op.Valid ∧ Sst.Fits (op.key, op.value))
    (hne : (Skl.sortedMap ops).data.entries ≠ []) : FlushesTo C mt (Skl.sortedMap ops) := by
  have hlist := map_pairOf_nodes href
  have hopens := Sst.opens hC (fun h => hne (by rw [← hlist, h]; rfl)) (sorted_nodes href)
    (fits_nodes href hops)
  refine ⟨_, _, congrArg some (href.levels.chain 0).next, flushes href, hopens.imp ?_⟩
  rintro e o s t ⟨T, rfl, hflat, hholds⟩
  exact ⟨T, _, rfl, dif_pos hne, (SortedMap.mk.injEq ..).mpr
    ((congrArg (map Sst.pairOf) hflat).trans hlist),
    hholds.vpExtentID_eq, hholds.vpOffset_eq, hholds.lastSeq_eq⟩

theorem Sized.served (h : Sized ei) (hei : Stamped ei) (hC : C.Faithful)
    (href : mt.Refines (Skl.sortedMap ops) L)
    (hops : ∀ op ∈ ops, op.Valid ∧ Sst.Fits (op.key, op.value))
    (hput : Skl.lastPut ops ei.log.key.bytes = some (lsmValue ei).decoded)
    (hnew : ∀ op ∈ ops, (ofBytes op.key).userKey = ei.log.key.userKey →
      (ofBytes op.key).ts ≤ ei.log.key.ts) : Served C mt ei := by
  have hvalid : ∀ op ∈ ops, op.Valid := fun op hop => (hops op hop).1
  have hmem := (Skl.mem_sortedMap_iff (Skl.len_ge_of_lastPut hvalid hput) ops hvalid).mpr hput
  rw [ofBytes_bytes hei.ts_lt] at hmem
  have hts : parseTs ei.log.key = ei.log.key.ts := parseTs_of_ne_nil h.key_ne
  have hlookup : ∀ ts, ei.log.key.ts ≤ ts → (Skl.sortedMap ops).toSortedRun.lookup
      (keyWithTs ei.log.key.userKey ts) = some (ei.log.key, (lsmValue ei).decoded) := by
    intro ts hle
    refine SortedRun.lookup_eq_some_iff.mpr ⟨hmem, rfl, hle, fun x hx hkey _ => ?_⟩
    rw [href.pairs_eq hvalid] at hx
    obtain ⟨key, v, hlast, rfl⟩ := hx
    obtain ⟨op, hop, rfl, -⟩ := Skl.exists_of_lastPut hlast
    exact hnew op hop hkey
  constructor
  · intro ts hle hlt
    rw [href.get_eq (length_bytes_ge _), ofBytes_bytes hlt, Skiplist.get, hlookup ts hle]
    show some { (lsmValue ei).decoded with version := parseTs ei.log.key } = _
    rw [hts, found]
  · have hne := ne_nil_of_mem hmem
    obtain ⟨n, l, hn, hl, hopens⟩ := flushesTo hC href hops hne
    refine ⟨n, l, hn, hl, hopens.imp ?_⟩
    rintro e o s t ⟨T, t', rfl, ht', hdata, -⟩ ts hle hlt
    rw [Skiplist.toTable, dif_pos hne] at ht'
    cases ht'
    have hlook := hlookup ts hle
    rw [SortedRun.lookup, ← hdata] at hlook
    rw [tableGet_eq T hlt hlook (hts.symm ▸ hei.ts_pos), hts, found]

/-- **A batch of sized entries is handled.** -/
theorem handled (hC : C.Faithful) {rp : Partition} (hrp : Filled rp ops) {entries : List EntryInfo}
    (hsized : ∀ ei ∈ entries, Stamped ei ∧ Sized ei)
    (hnodup : (entries.map fun ei => ei.log.key.bytes).Nodup)
    (hest : estimate entries ≤ maxSkipList) (hroom : rp.HasRoom entries) (head : ValuePointer) :
    Handled C ops rp entries head := by
  refine ⟨fun es hes => isSome_entriesToBlocks fun x hx => ?_, ?_⟩
  · obtain ⟨ei, hei, heq⟩ := mem_map.mp (hes.subset (mem_map_of_mem hx))
    exact heq ▸ (hsized ei hei).2.mixed
  have hfits : Admission.Fits entries := fun ei hei =>
    ⟨(hsized ei hei).2.key_le.trans_lt (by decide), (hsized ei hei).1.expiresAt_lt⟩
  obtain ⟨s₀, hnew, -⟩ := @Skl.Refines.new maxSkipList (by decide) (by decide)
  have hsome : (rp.ensureRoomForWrite entries head).isSome := by
    rw [Partition.ensureRoomForWrite, if_neg (not_lt.mpr hest), hnew]
    split_ifs <;> rfl
  obtain ⟨⟨rp', ok⟩, hok⟩ := Option.isSome_iff_exists.mp hsome
  refine ⟨rp', ok, hok, ?_⟩
  rintro rfl drawn hdrawn
  obtain ⟨before, hsub, mt, L, hmt, href⟩ := writeToLSM_admitted hrp.made
    (fun op hop => (hrp.fits op hop).1) hfits hok hroom hdrawn
  refine ⟨mt, hmt, fun ei hei hnewest => ?_⟩
  refine (hsized ei hei).2.served (hsized ei hei).1 hC href (fun op hop => ?_) ?_ fun op hop => ?_
  · rcases mem_append.mp hop with hop | hop
    · exact hrp.fits op (hsub hop)
    · refine ⟨hdrawn.valid hfits op hop, ?_⟩
      obtain ⟨x, hx, rfl⟩ := mem_map.mp hop
      obtain ⟨hstamped, hsized⟩ := hsized x.1 (hdrawn.entries_eq ▸ mem_map_of_mem hx)
      have hlen : x.1.log.key.bytes.length = x.1.log.key.len := length_bytes _
      have hof := ofEntry_lsmOp (hdrawn.valid hfits _ hop) hstamped.expiresAt_lt
      exact ⟨⟨hof.len_ge, hlen.trans_le hsized.key_le⟩, hof.buildable.value⟩
  · obtain ⟨x, hx, rfl⟩ := mem_map.mp (hdrawn.entries_eq.symm ▸ hei)
    have hkeys : ((drawn.map fun x => lsmOp x.1 x.2).map Skl.PutOp.key).Nodup := by
      rw [← hdrawn.entries_eq, map_map] at hnodup
      rw [map_map]
      exact hnodup
    exact lastPut_of_mem hkeys (mem_map_of_mem (f := fun x => lsmOp x.1 x.2) hx)
  · refine hnewest _ (mem_append.mpr ?_)
    rcases mem_append.mp hop with hop | hop
    · exact .inl (mem_map_of_mem (hsub hop))
    · obtain ⟨x, hx, rfl⟩ := mem_map.mp hop
      have hmem : x.1 ∈ entries := hdrawn.entries_eq ▸ mem_map_of_mem hx
      refine .inr (mem_map.mpr ⟨x.1, hmem, ?_⟩)
      exact (ofBytes_bytes (hsized x.1 hmem).1.ts_lt).symm

/-! ## Entries that are not served -/

theorem Flushes.unique {n : ℕ} {l l' : List Sst.KV} (h : Flushes mt n l) (h' : Flushes mt n l') :
    l = l' := by
  induction h generalizing l' with
  | done =>
    cases h' with
    | done => rfl
    | add hn => exact absurd rfl hn
  | add hn hv hnext _ ih =>
    cases h' with
    | done => exact absurd rfl hn
    | add _ hv' hnext' hl' =>
      obtain rfl := Option.some.inj (hv.symm.trans hv')
      obtain rfl := Option.some.inj (hnext.symm.trans hnext')
      rw [ih hl']

end KeySizes
end Autumn
