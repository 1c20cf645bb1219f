import Autumn.RangePartition.MapRefinement
import Autumn.StreamClient.Iterator

/-!
# Garbage collection of the value log

`runGC` goes through a candidate stream, looks up the latest version of each key, and writes an
entry again if that version points to the block the entry was read from; then the extents of the
candidate can be deleted.  `ReadEntries` delivers nothing but the size of a block with small
entries, and an entry with a block of its own without the value.

So what is written again has no value.  Besides, an entry is added to the batch after the test that
sends the batch, nothing sends the last batch, and a batch that was sent is never emptied.  Hence
the collection keeps what reads return just when it has nothing to move (`gc_preserves_reads_iff`).
-/

namespace Autumn

open Lib Y List Option SortedRun Skiplist LogStream LogExtent Lsm

/-! ## Reading the candidate -/

/-- `readBlockEntries` for garbage collection.  A block of small entries is delivered as one empty
entry (`none`); an entry with a block of its own without its value, and it must be alone. -/
def gcBlock (id o : ℕ) (b : LogBlock) : Option (List (Option EntryInfo)) :=
  match b.entries with
  | [] => some []
  | e :: es =>
    if shouldWriteValueToLSM e then some [none]
    else if es = [] then some [some ⟨{ e with
      metaBits := e.metaBits ||| bitValuePointer.toUInt32, value := [] }, id, o, b.size⟩]
    else none

/-- The entries delivered for blocks that start at offset `o` of extent `id`. -/
def gcAt (id : ℕ) : ℕ → List LogBlock → Option (List (Option EntryInfo))
  | _, [] => some []
  | o, b :: bs =>
    (gcBlock id o b).bind fun es => (gcAt id (o + b.size) bs).map fun rest => es ++ rest

/-- The entries delivered for a stream, from its start. -/
def gcRead : List LogExtent → Option (List (Option EntryInfo))
  | [] => some []
  | x :: xs => (gcAt x.id 512 x.blocks).bind fun es => (gcRead xs).map fun rest => es ++ rest

/-- What is delivered with a key is in one of the extents and has no value. -/
def Stripped (ids : List ℕ) (p : Option EntryInfo) : Prop :=
  ∀ ei, p = some ei → ei.extentID ∈ ids ∧ ei.log.value = []

variable {id o : ℕ}

theorem stripped_gcBlock {b : LogBlock} {es : List (Option EntryInfo)}
    (h : gcBlock id o b = some es) : ∀ p ∈ es, Stripped [id] p := by
  unfold gcBlock at h
  split at h
  · cases h
    simp
  · split_ifs at h
    · cases h
      simp [Stripped]
    · cases h
      rintro p hp ei rfl
      cases mem_singleton.mp hp
      exact ⟨.head _, rfl⟩

theorem stripped_gcAt : ∀ {bs : List LogBlock} {o : ℕ} {es : List (Option EntryInfo)},
    gcAt id o bs = some es → ∀ p ∈ es, Stripped [id] p
  | [], o, es, h => by
    cases h
    simp
  | b :: bs, o, es, h => by
    obtain ⟨fs, hfs, h⟩ := bind_eq_some_iff.mp h
    obtain ⟨rest, hrest, rfl⟩ := map_eq_some_iff.mp h
    intro p hp
    rcases mem_append.mp hp with hp | hp
    · exact stripped_gcBlock hfs p hp
    · exact stripped_gcAt hrest p hp

theorem stripped_gcRead : ∀ {xs : List LogExtent} {es : List (Option EntryInfo)},
    gcRead xs = some es → ∀ p ∈ es, Stripped (xs.map LogExtent.id) p
  | [], es, h => by
    cases h
    simp
  | x :: xs, es, h => by
    obtain ⟨fs, hfs, h⟩ := Option.bind_eq_some_iff.mp h
    obtain ⟨rest, hrest, rfl⟩ := Option.map_eq_some_iff.mp h
    intro p hp ei hei
    rcases mem_append.mp hp with hp | hp
    · obtain ⟨hid, hval⟩ := stripped_gcAt hfs p hp ei hei
      exact ⟨mem_map.mpr ⟨x, (.head _), (mem_singleton.mp hid).symm⟩, hval⟩
    · obtain ⟨hid, hval⟩ := stripped_gcRead hrest p hp ei hei
      exact ⟨.tail _ hid, hval⟩

/-! ## The collection -/

/-- The range of a partition. -/
structure KeyRange where
  startKey : Bytes
  endKey : Bytes

/-- The test of `runGC`: both ends belong to the range, and an empty end key means no limit. -/
def KeyRange.has (r : KeyRange) (k : Bytes) : Bool :=
  !decide (k < r.startKey) && !(decide (r.endKey ≠ []) && decide (r.endKey < k))

/-- `discardEntry`. -/
def discardEntry (ei : EntryInfo) (vs : ValueStruct) (now : ℕ) : Bool :=
  if vs.version ≠ parseTs ei.log.key then true else isDeletedOrExpired vs.metaBits vs.expiresAt now

/-- A collection under way: the memtables and tables, the sequence number, the log, what the
iterator of the candidate has still to deliver, the batch `wb` and its `size`, and the entries sent
to the write path that have not been put. -/
structure GcWorld where
  lsm : Lsm
  seqNumber : ℕ
  log : LogStream
  todo : List (Option EntryInfo)
  wb : List Entry
  size : ℕ
  sent : List Entry

/-- `getValueStruct(k, 0)`. -/
def GcWorld.latest (env : Env) (w : GcWorld) (k : Bytes) : ValueStruct :=
  getValueStruct env w.lsm.memTables w.seqNumber w.lsm.tables k 0

/-- `Get(k, 0)` with the given log. -/
def GcWorld.get (env : Env) (w : GcWorld) (log : LogStream) (k : Bytes) : Except GetError Bytes :=
  Autumn.get env w.lsm.memTables w.seqNumber w.lsm.tables log k 0

/-- The end of the closure of `runGC`: the entry goes into the batch, which is sent before if it has
more than four entries or would exceed sixteen megabytes. -/
def GcWorld.move (w : GcWorld) (ei : EntryInfo) : GcWorld :=
  { w with
    sent := if w.wb.length > 4 ∨ ei.estimatedSize + w.size > 16 * 1048576 then w.sent ++ w.wb
      else w.sent
    wb := w.wb ++ [{ key := ei.log.key, value := ei.log.value }]
    size := w.size + ei.estimatedSize }

/-- The closure of `runGC` on the next entry; `none` if an assertion fails. -/
def gcVisit (env : Env) (r : KeyRange) (now : ℕ) (w : GcWorld) : Option GcWorld :=
  match w.todo with
  | [] => none
  | none :: todo => some { w with todo }
  | some ei :: todo =>
    let userKey := parseKey ei.log.key
    let vs := w.latest env userKey
    if !r.has userKey || discardEntry ei vs now then some { w with todo }
    else if vs.valueLen = 0 then none
    else
      let vp := ValuePointer.decode (vs.value.getD [])
      if vp.extentID = ei.extentID ∧ vp.offset = ei.offset then some ({ w with todo }.move ei)
      else some { w with todo }

/-- What can happen during a collection. -/
inductive GcAction where
  | visit (now : ℕ)
  | append (bs : List LogBlock)
  /-- The last extent of the log is sealed and a new one opened. -/
  | newExtent (id : ℕ)
  /-- `ensureRoomForWrite` consumes a sequence number and rotates the memtable, if there is room. -/
  | rotate (vptr : ValuePointer)
  /-- The next entry sent, which has been placed in the log, is put into the memtable. -/
  | put (extentID offset height : ℕ)

/-- One step. -/
def gcStep (env : Env) (r : KeyRange) (w : GcWorld) : GcAction → Option GcWorld
  | .visit now => gcVisit env r now w
  | .append bs => some { w with log := w.log.append bs }
  | .newExtent id =>
    if id ∈ w.log.exs.map LogExtent.id then none else some { w with log := w.log.newExtent id }
  | .rotate vptr =>
    some { w with
      lsm := (w.lsm.rotate vptr (w.seqNumber + 1)).getD w.lsm
      seqNumber := w.seqNumber + 1 }
  | .put extentID offset height =>
    match w.sent with
    | [] => none
    | e :: sent =>
      (w.lsm.put e.key (lsmValue ⟨e, extentID, offset, 0⟩) height).map fun lsm =>
        { w with lsm, sent }

/-- The state in which `runGC` begins to read the candidate. -/
def GcWorld.start (lsm : Lsm) (seqNumber : ℕ) (log : LogStream) (todo : List (Option EntryInfo)) :
    GcWorld where
  lsm := lsm
  seqNumber := seqNumber
  log := log
  todo := todo
  wb := []
  size := 0
  sent := []

/-- The extents with the given ids are deleted. -/
def LogStream.delete (s : LogStream) (ids : List ℕ) : LogStream :=
  { s with front := s.front.filter fun x => x.id ∉ ids }

/-! ## How the latest version of a key changes -/

variable {vs : ValueStruct} {height : ℕ}

section Latest

variable (env : Env) {mts : List Skiplist} {m : Skiplist} {n : ℕ} {tables : List Table} {k : Bytes}

theorem getValueStruct_zero : getValueStruct env mts n tables k 0 =
    ((mts.findSome? fun s => s.toSortedRun.lookup (keyWithTs k n)).map withVersion).getD
      ((getTablesForKey env tables k).foldl (searchTable env k (keyWithTs k n)) {}) := by
  rw [getValueStruct, if_pos rfl, searchMemTables_eq]
  cases mts.findSome? fun s => s.toSortedRun.lookup (keyWithTs k n) <;> rfl

theorem version_foldl_searchTable_le :
    ∀ (ts : List Table) (vs : ValueStruct), vs.version ≤ n →
      (ts.foldl (searchTable env k (keyWithTs k n)) vs).version ≤ n
  | [], _, h => h
  | t :: ts, vs, h => by
    rw [foldl_cons]
    refine version_foldl_searchTable_le ts _ ?_
    rw [searchTable_eq]
    cases hl : t.toSortedRun.lookup (keyWithTs k n) with
    | none => exact h
    | some x =>
      dsimp only
      split_ifs
      · exact (parseTs_le x.1).trans (lookup_eq_some_iff.mp hl).le
      · exact h

theorem version_getValueStruct_le : (getValueStruct env mts n tables k 0).version ≤ n := by
  rw [getValueStruct_zero]
  cases hf : mts.findSome? fun s => s.toSortedRun.lookup (keyWithTs k n) with
  | none => exact version_foldl_searchTable_le env _ {} (Nat.zero_le n)
  | some x =>
    obtain ⟨s, _, hl⟩ := exists_of_findSome?_eq_some hf
    exact (parseTs_le x.1).trans (lookup_eq_some_iff.mp hl).le

theorem getValueStruct_new :
    getValueStruct env (new :: mts) n tables k 0 = getValueStruct env mts n tables k 0 := by
  rw [getValueStruct_zero, getValueStruct_zero, findSome?_cons]
  have hnone : new.toSortedRun.lookup (keyWithTs k n) = none :=
    lookup_eq_none_iff.mpr fun y hy => absurd hy (not_mem_empty y)
  rw [hnone]

/-- A greater sequence number does not matter if all versions of the key are below it already. -/
theorem getValueStruct_seq {n' : ℕ} (hn : n ≤ n')
    (hv : ∀ x ∈ memPairs mts ∪ tablePairs tables, x.1.userKey = k → x.1.ts ≤ n) :
    getValueStruct env mts n' tables k 0 = getValueStruct env mts n tables k 0 := by
  have hlook : ∀ s : SortedRun, (∀ x ∈ s, x ∈ memPairs mts ∪ tablePairs tables) →
      s.lookup (keyWithTs k n') = s.lookup (keyWithTs k n) := by
    intro s hs
    refine lookup_congr fun x hxk => ⟨fun hx => ⟨hx.1, hv x (hs x hx.1) hxk⟩, fun hx => ?_⟩
    exact ⟨hx.1, hx.2.trans hn⟩
  rw [getValueStruct_zero, getValueStruct_zero]
  have hmem : ∀ ms : List Skiplist, (∀ s ∈ ms, s ∈ mts) →
      (ms.findSome? fun s => s.toSortedRun.lookup (keyWithTs k n')) =
        ms.findSome? fun s => s.toSortedRun.lookup (keyWithTs k n) := by
    intro ms hms
    induction ms with
    | nil => rfl
    | cons s ms ih =>
      rw [findSome?_cons, findSome?_cons, ih fun t ht => hms t (.tail _ ht),
        hlook s.toSortedRun fun x hx => .inl ⟨s, hms s (.head _), hx⟩]
  have htab : ∀ (ts : List Table) (vs : ValueStruct), (∀ t ∈ ts, t ∈ tables) →
      ts.foldl (searchTable env k (keyWithTs k n')) vs =
        ts.foldl (searchTable env k (keyWithTs k n)) vs := by
    intro ts
    induction ts with
    | nil => exact fun _ _ => rfl
    | cons t ts ih =>
      intro vs hts
      have ht := hlook t.toSortedRun fun x hx => .inr ⟨t, hts t (.head _), hx⟩
      rw [foldl_cons, foldl_cons, searchTable_eq, searchTable_eq, ht]
      exact ih _ fun u hu => hts u (.tail _ hu)
  rw [hmem mts fun s hs => hs, htab _ _ fun t ht => mem_of_mem_getTablesForKey ht]

theorem getValueStruct_put_of_ne {key : InternalKey} (hk : key.userKey ≠ k) :
    getValueStruct env (m.put key vs height :: mts) n tables k 0 =
      getValueStruct env (m :: mts) n tables k 0 := by
  rw [getValueStruct_zero, getValueStruct_zero, findSome?_cons, findSome?_cons]
  have hlook : (m.put key vs height).toSortedRun.lookup (keyWithTs k n) =
      m.toSortedRun.lookup (keyWithTs k n) := by
    refine lookup_congr fun x hxk => and_congr_left fun _ => ?_
    rw [toSortedRun_put, mem_put]
    constructor
    · rintro (rfl | hx)
      · exact absurd hxk hk
      · exact hx.1
    · exact fun hx => .inr ⟨hx, fun heq => hk (heq ▸ hxk)⟩
  rw [hlook]

/-- Putting the latest version of a key again replaces its value. -/
theorem getValueStruct_put_self {key : InternalKey} (hne : key.userKey ≠ [])
    (hv : (getValueStruct env (m :: mts) n tables key.userKey 0).version = key.ts) :
    getValueStruct env (m.put key vs height :: mts) n tables key.userKey 0 =
      withVersion (key, vs.decoded) := by
  have hle : key.ts ≤ n := hv ▸ version_getValueStruct_le env
  have hlook : (m.put key vs height).toSortedRun.lookup (keyWithTs key.userKey n) =
      some (key, vs.decoded) := by
    refine lookup_eq_some_iff.mpr ⟨mem_put.mpr (.inl rfl), rfl, hle, ?_⟩
    intro y hy hyk hyn
    rcases mem_put.mp hy with rfl | ⟨hy, _⟩
    · exact le_rfl
    · -- The memtable had an answer for the key, and it was the version `key.ts`.
      cases hl : m.toSortedRun.lookup (keyWithTs key.userKey n) with
      | none => exact absurd (lookup_eq_none_iff.mp hl y hy hyk) (not_lt.mpr hyn)
      | some x =>
        have hx := lookup_eq_some_iff.mp hl
        have hxk : x.1.userKey = key.userKey := hx.key_eq
        rw [getValueStruct_zero, findSome?_cons, hl] at hv
        have hts : parseTs x.1 = key.ts := hv
        rw [parseTs_of_ne_nil (hxk ▸ hne)] at hts
        exact (hx.max y hy hyk hyn).trans hts.le
  rw [getValueStruct_zero, findSome?_cons, hlook]
  rfl

end Latest

/-! ## The log without the candidate -/

variable {ids : List ℕ}

namespace LogStream

theorem exs_delete (s : LogStream) (h : s.last.id ∉ ids) :
    (s.delete ids).exs = s.exs.filter fun x => x.id ∉ ids := by
  rw [exs, exs, filter_append, filter_cons_of_pos (by simpa using h), filter_nil]
  rfl

theorem readBlock_delete_of_notMem (s : LogStream) (h : s.last.id ∉ ids) {e : ℕ} (he : e ∉ ids) :
    (s.delete ids).readBlock e o = s.readBlock e o := by
  have hfind : (s.exs.filter fun x => x.id ∉ ids).find? (fun x => x.id = e) =
      s.exs.find? fun x => x.id = e := by
    rw [find?_filter]
    congr 1
    ext x
    by_cases hx : x.id = e
    · simp [hx, he]
    · simp [hx]
  rw [readBlock, exs_delete s h, hfind]
  rfl

theorem readBlock_delete_of_mem (s : LogStream) (h : s.last.id ∉ ids) {e : ℕ} (he : e ∈ ids) :
    (s.delete ids).readBlock e o = none := by
  have hfind : (s.exs.filter fun x => x.id ∉ ids).find? (fun x => x.id = e) = none := by
    rw [find?_eq_none]
    intro x hx
    have hx := (mem_filter.mp hx).2
    simp only [decide_eq_true_eq] at hx ⊢
    exact fun heq => hx (heq ▸ he)
  rw [readBlock, exs_delete s h, hfind]
  rfl

end LogStream

/-! ## What a collection does to reads -/

/-- A live value pointer into one of the extents. -/
structure PointsInto (ids : List ℕ) (vs : ValueStruct) : Prop where
  live : vs.isDeleted = false
  pointer : vs.isPointer = true
  extent : (ValuePointer.decode (vs.value.getD [])).extentID ∈ ids

/-- What may be said of the state in which a collection begins: live value pointers lead to values
that are not empty; the latest version of a key is a pointer if the candidate has its entry in a
block of its own; and no version is above the sequence number. -/
structure GcWorld.Consistent (env : Env) (r : KeyRange) (w : GcWorld) : Prop where
  readable : ∀ k, k ≠ [] → r.has k = true → (w.latest env k).isDeleted = false →
    (w.latest env k).isPointer = true → ∃ v, v ≠ [] ∧ w.get env w.log k = .ok v
  pointers : ∀ ei, some ei ∈ w.todo → r.has ei.log.key.userKey = true →
    (w.latest env ei.log.key.userKey).version = parseTs ei.log.key →
    (w.latest env ei.log.key.userKey).isDeleted = false →
    (w.latest env ei.log.key.userKey).isPointer = true
  versions : ∀ x ∈ w.lsm.visible, x.1.userKey ≠ [] → x.1.ts ≤ w.seqNumber

/-- Reads of the keys of the partition return what they returned before, also without the deleted
extents. -/
def GcWorld.ReadsAs (env : Env) (r : KeyRange) (ids : List ℕ) (w₀ w : GcWorld) : Prop :=
  ∀ k, k ≠ [] → r.has k = true →
    w.get env w.log k = w₀.get env w₀.log k ∧
    w.get env (w.log.delete ids) k = w₀.get env w₀.log k

/-- A value struct with the empty value. -/
def emptied (vs : ValueStruct) : ValueStruct := { value := some [], version := vs.version }

/-- An entry as `runGC` writes it again: without a value, and the latest version of a key whose
value points into the candidate. -/
structure GcWorld.Rewrites (env : Env) (ids : List ℕ) (w₀ : GcWorld) (e : Entry) : Prop where
  eq : e = { key := e.key, value := [] }
  latest : e.key.userKey ≠ [] → (w₀.latest env e.key.userKey).version = e.key.ts ∧
    PointsInto ids (w₀.latest env e.key.userKey)

/-- A collection that began in `w₀`: what is still to come, what is in the batch, and what reads
find. -/
structure GcWorld.Rewriting (env : Env) (ids : List ℕ) (w₀ w : GcWorld) : Prop where
  todo_mem : ∀ p ∈ w.todo, p ∈ w₀.todo
  batch : ∀ e ∈ w.wb ++ w.sent, w₀.Rewrites env ids e
  latest : ∀ k, k ≠ [] → w.latest env k = w₀.latest env k ∨
    (PointsInto ids (w₀.latest env k) ∧ w.latest env k = emptied (w₀.latest env k))
  versions : ∀ x ∈ w.lsm.visible, x.1.userKey ≠ [] → x.1.ts ≤ w.seqNumber
  keeps : w₀.log.Keeps w.log
  ids_mem : ∀ i ∈ ids, i ∈ w.log.exs.map LogExtent.id
  last : w.log.last.id ∉ ids

namespace GcWorld.Rewriting

variable {env : Env} {r : KeyRange} {w₀ w w' : GcWorld}

section

variable (h : Rewriting env ids w₀ w)
include h

theorem version_eq {k : Bytes} (hk : k ≠ []) :
    (w.latest env k).version = (w₀.latest env k).version := by
  rcases h.latest k hk with heq | ⟨_, heq⟩
  · rw [heq]
  · rw [heq, emptied]

/-- An entry the closure moves is the latest version of a key whose value points into the
candidate. -/
theorem rewrites_of_moved (hcons : w₀.Consistent env r) (hstrip : ∀ p ∈ w₀.todo, Stripped ids p)
    {now : ℕ} {ei : EntryInfo} (hei : some ei ∈ w₀.todo) (hr : r.has ei.log.key.userKey = true)
    (hlive : discardEntry ei (w.latest env ei.log.key.userKey) now = false)
    (hval : (w.latest env ei.log.key.userKey).valueLen ≠ 0)
    (hptr : (ValuePointer.decode ((w.latest env ei.log.key.userKey).value.getD [])).extentID =
      ei.extentID) :
    w₀.Rewrites env ids { key := ei.log.key, value := ei.log.value } := by
  obtain ⟨hid, hvalue⟩ := hstrip _ hei ei rfl
  refine ⟨by rw [hvalue], fun hk => ?_⟩
  rw [discardEntry] at hlive
  split_ifs at hlive with hver
  -- An emptied value fails the assertion before.
  have heq : w.latest env ei.log.key.userKey = w₀.latest env ei.log.key.userKey := by
    refine (h.latest _ hk).resolve_right fun hempty => hval ?_
    rw [hempty.2]
    rfl
  rw [heq] at hver hlive hptr
  have hdel : (w₀.latest env ei.log.key.userKey).isDeleted = false := by
    rw [isDeletedOrExpired] at hlive
    split_ifs at hlive with hbit
    · exact decide_eq_false hbit
    · exact decide_eq_false hbit
  have hver := not_not.mp hver
  refine ⟨hver.trans (parseTs_of_ne_nil hk), hdel, hcons.pointers ei hei hr hver hdel, ?_⟩
  rw [hptr]
  exact hid

theorem visit (hcons : w₀.Consistent env r) (hstrip : ∀ p ∈ w₀.todo, Stripped ids p) {now : ℕ}
    (hs : gcVisit env r now w = some w') : Rewriting env ids w₀ w' := by
  -- Passing over an entry leaves everything else alone.
  have hskip : ∀ p todo, w.todo = p :: todo → Rewriting env ids w₀ { w with todo } := by
    intro p todo ht
    exact { h with todo_mem := fun q hq => h.todo_mem q (ht ▸ .tail _ hq) }
  unfold gcVisit at hs
  split at hs
  next => cases hs
  next todo ht =>
    cases hs
    exact hskip _ _ ht
  next ei todo ht =>
    dsimp only at hs
    split_ifs at hs with hdiscard hval hptr
    · cases hs
      exact hskip _ _ ht
    · cases hs
      rw [Bool.or_eq_true, not_or, Bool.not_eq_true', Bool.not_eq_false, Bool.not_eq_true]
        at hdiscard
      have hei : some ei ∈ w₀.todo := h.todo_mem _ (ht ▸ (.head _))
      have hnew := h.rewrites_of_moved hcons hstrip hei hdiscard.1 hdiscard.2 hval hptr.1
      have hrest := hskip _ _ ht
      refine { hrest with batch := fun e he => ?_ }
      -- The batch that is sent was in `wb` before.
      have hmem : e ∈ w.wb ++ w.sent ∨ e = { key := ei.log.key, value := ei.log.value } := by
        simp only [GcWorld.move, mem_append, mem_singleton] at he
        rw [mem_append]
        rcases he with (he | he) | he
        · exact .inl (.inl he)
        · exact .inr he
        · split_ifs at he
          · exact .inl ((mem_append.mp he).symm)
          · exact .inl (.inr he)
      rcases hmem with he | rfl
      · exact h.batch e he
      · exact hnew
    · cases hs
      exact hskip _ _ ht

theorem append (bs : List LogBlock) : Rewriting env ids w₀ { w with log := w.log.append bs } :=
  { h with
    keeps := fun e o b hb => LogStream.readBlock_append (h.keeps e o b hb) bs
    ids_mem := by
      have heq : (w.log.append bs).exs.map LogExtent.id = w.log.exs.map LogExtent.id := by
        simp [LogStream.exs, LogStream.append]
      show ∀ i ∈ ids, i ∈ (w.log.append bs).exs.map LogExtent.id
      rw [heq]
      exact h.ids_mem }

theorem newExtent (hid : id ∉ w.log.exs.map LogExtent.id) :
    Rewriting env ids w₀ { w with log := w.log.newExtent id } :=
  { h with
    keeps := fun e o b hb => LogStream.readBlock_newExtent (h.keeps e o b hb) id
    ids_mem := by
      intro i hi
      show i ∈ (w.log.exs ++ [(⟨id, []⟩ : LogExtent)]).map LogExtent.id
      rw [map_append]
      exact mem_append_left _ (h.ids_mem i hi)
    last := fun hmem => hid (h.ids_mem id hmem) }

theorem rotate (vptr : ValuePointer) : Rewriting env ids w₀ { w with
      lsm := (w.lsm.rotate vptr (w.seqNumber + 1)).getD w.lsm
      seqNumber := w.seqNumber + 1 } := by
  generalize hlsm : (w.lsm.rotate vptr (w.seqNumber + 1)).getD w.lsm = lsm
  have hshape : lsm.tables = w.lsm.tables ∧
      (lsm.memTables = w.lsm.memTables ∨ lsm.memTables = new :: w.lsm.memTables) := by
    rw [← hlsm, Lsm.rotate]
    split_ifs
    · exact ⟨rfl, .inr (by simp [memTables])⟩
    · exact ⟨rfl, .inl rfl⟩
  obtain ⟨htables, hmem⟩ := hshape
  have hvis : ∀ x ∈ lsm.visible, x ∈ w.lsm.visible := by
    rintro x (⟨m, hm, hx⟩ | hx)
    · rcases hmem with hmem | hmem
      · exact .inl ⟨m, hmem ▸ hm, hx⟩
      · rw [hmem, mem_cons] at hm
        rcases hm with rfl | hm
        · cases hx
        · exact .inl ⟨m, hm, hx⟩
    · exact .inr (htables ▸ hx)
  refine { h with latest := fun k hk => ?_, versions := ?_ }
  · have hseq : getValueStruct env w.lsm.memTables (w.seqNumber + 1) w.lsm.tables k 0 =
        w.latest env k :=
      getValueStruct_seq env (Nat.le_succ _) fun x hx hxk => h.versions x hx (hxk ▸ hk)
    have heq : GcWorld.latest env { w with lsm, seqNumber := w.seqNumber + 1 } k =
        w.latest env k := by
      unfold GcWorld.latest
      dsimp only
      rw [htables]
      rcases hmem with hmem | hmem
      · rw [hmem]
        exact hseq
      · rw [hmem, getValueStruct_new]
        exact hseq
    rw [heq]
    exact h.latest k hk
  · exact fun x hx hxk => (h.versions x (hvis x hx) hxk).trans (Nat.le_succ _)

end

theorem decoded_lsmValue_empty (key : InternalKey) (extentID offset : ℕ) :
    (lsmValue ⟨{ key, value := [] }, extentID, offset, 0⟩).decoded = { value := some [] } := by
  unfold lsmValue
  rw [if_pos (by simp [shouldWriteValueToLSM])]
  rfl

/-- Putting an entry of the batch empties the value of its key. -/
theorem put (h : Rewriting env ids w₀ w) {e : Entry} {sent : List Entry}
    (hsent : w.sent = e :: sent) {extentID offset : ℕ} {lsm : Lsm}
    (hput : w.lsm.put e.key (lsmValue ⟨e, extentID, offset, 0⟩) height = some lsm) :
    Rewriting env ids w₀ { w with lsm, sent } := by
  have he : w₀.Rewrites env ids e := h.batch e (by simp [hsent])
  simp only [Lsm.put, Option.ite_none_right_eq_some, Option.some.injEq] at hput
  obtain ⟨_, rfl⟩ := hput
  have hdec : (lsmValue ⟨e, extentID, offset, 0⟩).decoded = { value := some [] } := by
    rw [he.eq]
    exact decoded_lsmValue_empty e.key extentID offset
  have hver : e.key.userKey ≠ [] → (w.latest env e.key.userKey).version = e.key.ts := fun hk =>
    (h.version_eq hk).trans (he.latest hk).1
  refine { h with batch := fun f hf => h.batch f ?_, latest := fun k hk => ?_, versions := ?_ }
  · rcases mem_append.mp hf with hf | hf
    · exact mem_append_left _ hf
    · exact mem_append_right _ (hsent ▸ .tail _ hf)
  · by_cases hke : e.key.userKey = k
    · subst hke
      refine .inr ⟨(he.latest hk).2, ?_⟩
      have hself : GcWorld.latest env { w with lsm := { w.lsm with
          mt := w.lsm.mt.put e.key (lsmValue ⟨e, extentID, offset, 0⟩) height }, sent }
            e.key.userKey = withVersion (e.key, (lsmValue ⟨e, extentID, offset, 0⟩).decoded) :=
        getValueStruct_put_self env hk (hver hk)
      rw [hdec, withVersion, parseTs_of_ne_nil hk] at hself
      rw [emptied, (he.latest hk).1]
      exact hself
    · have heq : GcWorld.latest env { w with lsm := { w.lsm with
          mt := w.lsm.mt.put e.key (lsmValue ⟨e, extentID, offset, 0⟩) height }, sent } k =
            w.latest env k := getValueStruct_put_of_ne env hke
      rw [heq]
      exact h.latest k hk
  · rintro x (⟨m, hm, hx⟩ | hx) hxk
    · rcases hm with _ | ⟨_, hm⟩
      · rcases mem_put.mp hx with rfl | ⟨hx, _⟩
        · rw [← hver hxk]
          exact version_getValueStruct_le env
        · exact h.versions x (.inl ⟨w.lsm.mt, (.head _), hx⟩) hxk
      · exact h.versions x (.inl ⟨m, .tail _ hm, hx⟩) hxk
    · exact h.versions x (.inr hx) hxk

/-- **Every step of a collection.** -/
theorem step (h : Rewriting env ids w₀ w) (hcons : w₀.Consistent env r)
    (hstrip : ∀ p ∈ w₀.todo, Stripped ids p) {a : GcAction} (hs : gcStep env r w a = some w') :
    Rewriting env ids w₀ w' := by
  cases a with
  | visit now => exact h.visit hcons hstrip hs
  | append bs =>
    cases hs
    exact h.append bs
  | newExtent id =>
    simp only [gcStep, Option.ite_none_left_eq_some, Option.some.injEq] at hs
    exact hs.2 ▸ h.newExtent hs.1
  | rotate vptr =>
    cases hs
    exact h.rotate vptr
  | put extentID offset height =>
    unfold gcStep at hs
    dsimp only at hs
    split at hs
    next => cases hs
    next e sent hsent =>
      obtain ⟨lsm, hput, rfl⟩ := Option.map_eq_some_iff.mp hs
      exact h.put hsent hput

end GcWorld.Rewriting

variable {log : LogStream}

theorem readValue_delete_of_pointsInto (hlast : log.last.id ∉ ids) (h : PointsInto ids vs) :
    readValue (log.delete ids) vs = .error .readFailed := by
  rw [readValue, if_pos h.pointer]
  dsimp only
  rw [readBlock_delete_of_mem log hlast h.extent]

theorem readValue_delete_of_not (hlast : log.last.id ∉ ids) (hlive : vs.isDeleted = false)
    (h : ¬ PointsInto ids vs) : readValue (log.delete ids) vs = readValue log vs := by
  rw [readValue, readValue]
  by_cases hp : vs.isPointer = true
  · rw [if_pos hp, if_pos hp]
    dsimp only
    rw [readBlock_delete_of_notMem log hlast fun hmem => h ⟨hlive, hp, hmem⟩]
  · rw [if_neg hp, if_neg hp]

/-- `Get` reads the value of the latest version, if there is one and it is not a deletion. -/
theorem GcWorld.get_eq (env : Env) (w : GcWorld) (log : LogStream) (k : Bytes) :
    w.get env log k = if (w.latest env k).version = 0 then .error .notFound
      else if (w.latest env k).isDeleted then .error .notFound
      else readValue log (w.latest env k) := rfl

/-- **A collection preserves what reads return just when no live value points into the candidate**,
in every state that the collection and the write path can reach, in particular at the end, when the
extents are deleted. -/
theorem gc_preserves_reads_iff (env : Env) (r : KeyRange) (lsm : Lsm) (seqNumber : ℕ)
    (log : LogStream) (candidate : List LogExtent) (todo : List (Option EntryInfo))
    (as : List GcAction) (w : GcWorld) (hread : gcRead candidate = some todo)
    (hmem : ∀ x ∈ candidate, x ∈ log.front) (hnodup : (log.exs.map LogExtent.id).Nodup)
    (hcons : (GcWorld.start lsm seqNumber log todo).Consistent env r)
    (hrun : exec (gcStep env r) (.start lsm seqNumber log todo) as = some w) :
    (GcWorld.start lsm seqNumber log todo).ReadsAs env r (candidate.map LogExtent.id) w ↔
      ∀ k, k ≠ [] → r.has k = true → ¬ PointsInto (candidate.map LogExtent.id)
        ((GcWorld.start lsm seqNumber log todo).latest env k) := by
  generalize hids : candidate.map LogExtent.id = ids
  have hstrip : ∀ p ∈ todo, Stripped ids p := hids ▸ stripped_gcRead hread
  have hfront : ∀ i ∈ ids, i ∈ log.front.map LogExtent.id := by
    rw [← hids]
    intro i hi
    obtain ⟨x, hx, rfl⟩ := List.mem_map.mp hi
    exact List.mem_map_of_mem (hmem x hx)
  have hlast : log.last.id ∉ ids := by
    intro hin
    rw [LogStream.exs, List.map_append, List.nodup_append] at hnodup
    exact hnodup.2.2 _ (hfront _ hin) _ (.head _) rfl
  generalize hw₀ : GcWorld.start lsm seqNumber log todo = w₀ at *
  have hlog : w₀.log = log := hw₀ ▸ rfl
  have hstart : GcWorld.Rewriting env ids w₀ w₀ := by
    refine ⟨fun p hp => hp, ?_, fun k _ => .inl rfl, hcons.versions, fun _ _ _ hb => hb, ?_,
      hlog ▸ hlast⟩
    · rw [← hw₀]
      simp [GcWorld.start]
    · intro i hi
      rw [hlog, LogStream.exs, List.map_append]
      exact List.mem_append_left _ (hfront i hi)
  have h : GcWorld.Rewriting env ids w₀ w := by
    refine exec_invariant_of_step (I := GcWorld.Rewriting env ids w₀) ?_ hstart hrun
    exact fun t a t' ht hs => ht.step hcons (hw₀ ▸ hstrip) hs
  constructor
  · -- A live value that points into the candidate has been emptied or cannot be read.
    intro hreads k hk hr hpt
    obtain ⟨v, hv, hget⟩ := hcons.readable k hk hr hpt.live hpt.pointer
    have hafter := (hreads k hk hr).2.trans hget
    have hzero : (w₀.latest env k).version ≠ 0 := by
      intro hzero
      rw [GcWorld.get_eq, if_pos hzero] at hget
      cases hget
    rw [GcWorld.get_eq, if_neg (h.version_eq hk ▸ hzero)] at hafter
    rcases h.latest k hk with heq | ⟨_, heq⟩
    · rw [heq, hpt.live, readValue_delete_of_pointsInto h.last hpt] at hafter
      cases hafter
    · rw [heq] at hafter
      have hempty : readValue (w.log.delete ids) (emptied (w₀.latest env k)) = .ok [] := by
        rw [readValue, if_neg (by simp [emptied, ValueStruct.isPointer])]
        rfl
      rw [if_neg (by simp [emptied, ValueStruct.isDeleted]), hempty] at hafter
      exact hv (Except.ok.inj hafter).symm
  · intro hno k hk hr
    have heq : w.latest env k = w₀.latest env k :=
      (h.latest k hk).resolve_right fun hpt => hno k hk hr hpt.1
    rw [GcWorld.get_eq, GcWorld.get_eq, GcWorld.get_eq, heq]
    by_cases hzero : (w₀.latest env k).version = 0
    · simp only [if_pos hzero, and_self]
    by_cases hdel : (w₀.latest env k).isDeleted = true
    · simp only [if_neg hzero, if_pos hdel, and_self]
    have hlive : (w₀.latest env k).isDeleted = false := by simpa using hdel
    have hsame : readValue w.log (w₀.latest env k) = readValue w₀.log (w₀.latest env k) := by
      by_cases hp : (w₀.latest env k).isPointer = true
      · obtain ⟨v, _, hget⟩ := hcons.readable k hk hr hlive hp
        rw [GcWorld.get_eq, if_neg hzero, if_neg hdel] at hget
        rw [hget]
        exact readValue_of_keeps h.keeps hget
      · rw [readValue, readValue, if_neg hp, if_neg hp]
    simp only [if_neg hzero, if_neg hdel]
    rw [readValue_delete_of_not h.last hlive (hno k hk hr), hsame]
    exact ⟨rfl, rfl⟩

/-! ## Two collections -/

/-- An entry that gets a block of its own. -/
def bigEntry (i : ℕ) : Entry :=
  { key := ⟨[i.toUInt8], i⟩, value := List.replicate 1025 7 }

/-- A log whose first extent holds the big entries of the given keys. -/
def bigLog (is : List ℕ) : LogStream where
  front := [⟨1, is.map fun i => valueBlock (bigEntry i)⟩]
  last := ⟨2, []⟩

/-- The table with the pointer to the `i`-th entry of `bigLog`, counted from one. -/
def bigTable (i : ℕ) : Table :=
  .single (bigEntry i).key { value := some (ValuePointer.encode ⟨1, 2048 * i - 1536, 1025⟩)
                             metaBits := bitValuePointer } i

/-- What is read of the first extent of `bigLog [1]`. -/
def bigInfo : EntryInfo :=
  ⟨{ key := ⟨[1], 1⟩, value := [], metaBits := bitValuePointer.toUInt32 }, 1, 512, 2048⟩

/-- A table with a later version of the key of that entry. -/
def laterTable : Table := .single ⟨[1], 2⟩ { value := some [98] } 2

theorem mem_laterTable {x : Pair} (hx : x ∈ tablePairs [laterTable]) :
    x = (⟨[1], 2⟩, { value := some [98] }) := by
  obtain ⟨t, ht, hx⟩ := hx
  rw [mem_singleton.mp ht] at hx
  exact Table.mem_single.mp hx

/-- The only value is stored next to its key. -/
theorem isPointer_laterTable {todo : List (Option EntryInfo)} {k : Bytes} (hk : k ≠ []) :
    ((GcWorld.start (opened [laterTable]) 2 log todo).latest Env.plain k).isPointer =
      false := by
  have hans := (layered_opened [laterTable]).getValueStruct_answers Env.plain hk 2 0 fun x hx => by
    rw [visible_opened] at hx
    rw [mem_laterTable hx]
    decide
  rw [visible_opened] at hans
  show (getValueStruct Env.plain (opened [laterTable]).memTables 2
    (opened [laterTable]).tables k 0).isPointer = false
  rcases hans with ⟨x, hx, hvs⟩ | ⟨_, hvs⟩
  · rw [hvs, mem_laterTable hx.mem]
    decide
  · rw [hvs]
    decide

/-- A collection of a stream whose only value is superseded. -/
theorem gc_preserves_reads_superseded :
    ∃ w, exec (gcStep Env.plain ⟨[], []⟩)
        (.start (Lsm.opened [laterTable]) 2 (bigLog [1]) [some bigInfo]) [.visit 0] = some w ∧
      w.todo = [] ∧ w.get Env.plain (w.log.delete [1]) [1] = .ok [98] := by
  obtain ⟨w, hrun, htodo⟩ : ∃ w ∈ exec (gcStep Env.plain ⟨[], []⟩)
      (.start (opened [laterTable]) 2 (bigLog [1]) [some bigInfo]) [.visit 0], w.todo = [] := by
    decide +kernel
  have hreads := (gc_preserves_reads_iff Env.plain ⟨[], []⟩ (opened [laterTable]) 2 (bigLog [1])
    (bigLog [1]).front [some bigInfo] [.visit 0] w (by decide +kernel) (fun x hx => hx)
    (by decide +kernel) ⟨fun k hk _ _ hp => ?_, fun ei hei _ hver _ => ?_,
      fun x hx _ => ?_⟩ hrun).mpr
    fun k hk _ hpt => absurd hpt.pointer (by simp [isPointer_laterTable hk])
  · have hbefore : (GcWorld.start (opened [laterTable]) 2 (bigLog [1]) [some bigInfo]).get
        Env.plain (bigLog [1]) [1] = .ok [98] := by decide +kernel
    exact ⟨w, hrun, htodo, (hreads [1] (by simp) rfl).2.trans hbefore⟩
  · exact absurd hp (by simp [isPointer_laterTable hk])
  · cases mem_singleton.mp hei
    exact absurd hver (by decide +kernel)
  · have hx : x ∈ (opened [laterTable]).visible := hx
    rw [visible_opened] at hx
    rw [mem_laterTable hx]
    decide

/-- Six live values in one extent: five of them are put without their values, and the sixth is not
put at all and goes with the extent. -/
theorem gc_loses_values :
    ∃ w, gcRead (bigLog [1, 2, 3, 4, 5, 6]).front = some ((bigLog [1, 2, 3, 4, 5, 6]).placed.map
        fun p => some (replayInfo p)) ∧
      exec (gcStep Env.plain ⟨[], []⟩) (.start (Lsm.opened ([1, 2, 3, 4, 5, 6].map bigTable)) 6
        (bigLog [1, 2, 3, 4, 5, 6]) ((bigLog [1, 2, 3, 4, 5, 6]).placed.map
          fun p => some (replayInfo p)))
        (List.replicate 6 (.visit 0) ++ List.replicate 5 (.put 2 512 1)) = some w ∧
      w.todo = [] ∧ w.sent = [] ∧
      (∀ k ∈ [[1], [6]], get Env.plain [Skiplist.new] 6 ([1, 2, 3, 4, 5, 6].map bigTable)
        (bigLog [1, 2, 3, 4, 5, 6]) k 0 = .ok (List.replicate 1025 7)) ∧
      w.get Env.plain w.log [1] = .ok [] ∧
      w.get Env.plain (w.log.delete [1]) [6] = .error .readFailed := by
  obtain ⟨w, hrun, htodo, hsent, hone, hsix⟩ : ∃ w ∈ exec (gcStep Env.plain ⟨[], []⟩)
      (.start (opened ([1, 2, 3, 4, 5, 6].map bigTable)) 6 (bigLog [1, 2, 3, 4, 5, 6])
        ((bigLog [1, 2, 3, 4, 5, 6]).placed.map fun p => some (replayInfo p)))
      (replicate 6 (.visit 0) ++ replicate 5 (.put 2 512 1)), w.todo = [] ∧ w.sent = [] ∧
      w.get Env.plain w.log [1] = .ok [] ∧
      w.get Env.plain (w.log.delete [1]) [6] = .error .readFailed := by decide +kernel
  exact ⟨w, by decide +kernel, hrun, htodo, hsent, by decide +kernel, hone, hsix⟩

end Autumn
