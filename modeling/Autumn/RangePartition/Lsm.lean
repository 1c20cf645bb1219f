import Autumn.RangePartition.Search
import Mathlib.Data.List.Infix

/-!
# Memtables, flushes and compactions

The part of a range partition that holds pairs: the mutable memtable, the immutable ones waiting
to be flushed, the channel of flush tasks with the goroutine that drains it, the tables, and a
compaction in progress.  Each operation is one atomic piece of the code.

A flush goes through four points that a reader can tell apart: the task is taken from the channel
(`building`), its table is in `rp.tables` but the memtable still in `rp.imm` (`built`), the memtable
is gone (`saving`), the table list is stored in the partition manager.  A compaction sends its
tables through the same channel and then waits for as many results; its channel of results has no
buffer, so the flusher waits at `notifying` until the compaction has sent everything.
-/

namespace Autumn

open Lib Y List Option

/-! ## Value pointers -/

/-- `valuePointer`: where a value is in the log. -/
structure ValuePointer where
  extentID : ℕ := 0
  offset : ℕ := 0
  len : ℕ := 0
  deriving DecidableEq, Repr, Inhabited

/-- `Encode`: the memory image of the struct, 16 bytes. -/
def ValuePointer.encode (p : ValuePointer) : Bytes :=
  leBytes 8 p.extentID ++ (leBytes 4 p.offset ++ leBytes 4 p.len)

/-- `Decode`. -/
def ValuePointer.decode (b : Bytes) : ValuePointer where
  extentID := leVal (b.take 8)
  offset := leVal ((b.drop 8).take 4)
  len := leVal ((b.drop 12).take 4)

theorem ValuePointer.length_encode (p : ValuePointer) : p.encode.length = 16 := by
  simp [encode]

theorem ValuePointer.decode_encode {p : ValuePointer} (he : p.extentID < 2 ^ 64)
    (ho : p.offset < 2 ^ 32) :
    (decode p.encode).extentID = p.extentID ∧ (decode p.encode).offset = p.offset := by
  constructor
  · have : p.encode.take 8 = leBytes 8 p.extentID := by
      rw [encode, take_left' (length_leBytes 8 _)]
    rw [decode, this]
    exact leVal_leBytes_of_lt (by omega)
  · have : (p.encode.drop 8).take 4 = leBytes 4 p.offset := by
      rw [encode, drop_left' (length_leBytes 8 _), take_left' (length_leBytes 4 _)]
    rw [decode, this]
    exact leVal_leBytes_of_lt (by omega)

/-- `writeToLSM`: the value put for an entry, the value itself or a pointer to it. -/
def lsmValue (ei : EntryInfo) : ValueStruct :=
  if shouldWriteValueToLSM ei.log then
    { value := some ei.log.value, metaBits := ei.log.metaBits.toUInt8,
      userMeta := ei.log.userMeta.toUInt8, expiresAt := ei.log.expiresAt }
  else
    { value := some (ValuePointer.encode ⟨ei.extentID, ei.offset, ei.log.value.length⟩),
      metaBits := ei.log.metaBits.toUInt8 ||| bitValuePointer,
      userMeta := ei.log.userMeta.toUInt8, expiresAt := ei.log.expiresAt }

/-- The pair a `Put` for an entry stores. -/
def lsmPair (ei : EntryInfo) : Pair := (ei.log.key, (lsmValue ei).decoded)

/-! ## Sizes -/

/-- `maxSkipList`: the size of a memtable. -/
def maxSkipList : ℕ := 1048576

/-- The bytes `estimatedSizeInSkl` and `estimatedVS` allow for a node: `MaxNodeSize` and eight for
the alignment. -/
def nodeAllowance : ℕ := maxNodeSize + 8

/-- `vptrSize`. -/
def vptrSize : ℕ := 16

/-- `estimatedSizeInSkl`: an upper bound of the bytes a `Put` takes. -/
def estimatedSizeInSkl (e : Entry) : ℕ :=
  e.key.len + (if shouldWriteValueToLSM e then e.value.length + 2 else vptrSize + 2) +
    sizeVarint e.expiresAt + nodeAllowance

/-- `estimatedVS`: the same for a pair of a table. -/
def estimatedVS (key : InternalKey) (vs : ValueStruct) : ℕ :=
  key.len + (if vs.metaBits &&& bitValuePointer = 0 ∧ vs.valueLen ≤ valueThrottle
    then vs.valueLen + 2 else vptrSize + 2) + sizeVarint vs.expiresAt + nodeAllowance

/-! ## Flush tasks and compactions -/

/-- `flushTask`. -/
structure FlushTask where
  mt : Skiplist
  vptr : ValuePointer
  seqNum : ℕ
  isCompact : Bool

/-- The table of a task; there is none for an empty memtable. -/
def FlushTask.table (ft : FlushTask) : Option Table :=
  ft.mt.toTable ft.vptr.extentID ft.vptr.offset ft.seqNum

/-- The capacity of `flushChan`. -/
def flushChanCapacity : ℕ := 16

/-- Where the goroutine `flushMemtable` is. -/
inductive Flusher where
  | idle
  | building (ft : FlushTask)
  | built (ft : FlushTask)
  | saving (ft : FlushTask)
  | notifying

/-- A call of `doCompact`: its tables, the replay position and the sequence number of the latest
of them, what the merge iterator has not delivered, and how many tables were sent and finished. -/
structure Compaction where
  tbls : List Table
  head : ValuePointer
  maxSeq : ℕ
  todo : List Pair
  numBuilds : ℕ
  results : ℕ

/-- `isDeletedOrExpired`. -/
def isDeletedOrExpired (metaBits : UInt8) (expiresAt now : ℕ) : Bool :=
  if metaBits &&& bitDelete > 0 then true
  else if expiresAt = 0 then false
  else expiresAt ≤ now

/-- The inner loop of `doCompact`: older versions of the key put or dropped last are skipped,
deleted and expired keys dropped, and the loop ends early when the store is full, leaving the
iterator where it is.  `hs` are the heights drawn for the nodes. -/
def compactLoop (major : Bool) (capacity now : ℕ) :
    Option InternalKey → Skiplist → List ℕ → List Pair → Skiplist × List Pair
  | _, memStore, _, [] => (memStore, [])
  | skipKey, memStore, hs, x :: xs =>
    if skipKey.any fun k => sameKey x.1 k then
      compactLoop major capacity now skipKey memStore hs xs
    else if major && isDeletedOrExpired x.2.metaBits x.2.expiresAt now then
      compactLoop major capacity now (some x.1) memStore hs xs
    else if memStore.memSize + estimatedVS x.1 x.2 > capacity then (memStore, x :: xs)
    else
      compactLoop major capacity now (some x.1) (memStore.put x.1 x.2 (hs.headD 1)) hs.tail xs

/-- One round of the loop that looks for the table with the greatest `LastSeq`. -/
def laterHead (acc : ValuePointer × ℕ) (t : Table) : ValuePointer × ℕ :=
  if t.lastSeq > acc.2 then (⟨t.vpExtentID, t.vpOffset, 0⟩, t.lastSeq) else acc

/-- The head and the sequence number a compaction takes over: those of the table with the greatest
`LastSeq`, the first such. -/
def compactHead (ts : List Table) : ValuePointer × ℕ := ts.foldl laterHead ({}, 0)

theorem le_foldl_laterHead (ts : List Table) (acc : ValuePointer × ℕ) :
    acc.2 ≤ (ts.foldl laterHead acc).2 ∧ ∀ t ∈ ts, t.lastSeq ≤ (ts.foldl laterHead acc).2 := by
  induction ts generalizing acc with
  | nil => simp
  | cons u ts ih =>
    obtain ⟨h1, h2⟩ := ih (laterHead acc u)
    have hacc : acc.2 ≤ (laterHead acc u).2 ∧ u.lastSeq ≤ (laterHead acc u).2 := by
      rw [laterHead]
      split_ifs with h
      · exact ⟨h.le, le_rfl⟩
      · exact ⟨le_rfl, not_lt.mp h⟩
    refine ⟨hacc.1.trans h1, fun t ht => ?_⟩
    rcases ht with _ | ⟨_, ht⟩
    · exact hacc.2.trans h1
    · exact h2 t ht

theorem lastSeq_le_compactHead {ts : List Table} {t : Table} (ht : t ∈ ts) :
    t.lastSeq ≤ (compactHead ts).2 :=
  (le_foldl_laterHead ts ({}, 0)).2 t ht

theorem foldl_laterHead_eq (ts : List Table) (acc : ValuePointer × ℕ) :
    ts.foldl laterHead acc = acc ∨
      ∃ t ∈ ts, ts.foldl laterHead acc = (⟨t.vpExtentID, t.vpOffset, 0⟩, t.lastSeq) := by
  induction ts generalizing acc with
  | nil => exact .inl rfl
  | cons u ts ih =>
    rw [foldl_cons]
    rcases ih (laterHead acc u) with h | ⟨t, ht, h⟩
    · rw [h, laterHead]
      split_ifs
      · exact .inr ⟨u, (.head _), rfl⟩
      · exact .inl rfl
    · exact .inr ⟨t, .tail _ ht, h⟩

theorem compactHead_eq (ts : List Table) :
    compactHead ts = ({}, 0) ∨
      ∃ t ∈ ts, compactHead ts = (⟨t.vpExtentID, t.vpOffset, 0⟩, t.lastSeq) :=
  foldl_laterHead_eq ts ({}, 0)

/-- A compaction of the given tables before its first round. -/
def Compaction.start (tbls : List Table) : Compaction where
  tbls := tbls
  head := (compactHead tbls).1
  maxSeq := (compactHead tbls).2
  todo := (mergeIterators tbls).entries
  numBuilds := 0
  results := 0

/-- One table of the compaction against the table list: `rest` compares the following ones. -/
def replaceFront (t : Table) (rest : List Table → List Table) : List Table → List Table
  | [] => []
  | u :: us =>
    if t.lastSeq = u.lastSeq then rest us
    else if t.lastSeq < u.lastSeq then rest (u :: us)
    else u :: replaceFront t rest us

/-- The loop of `OpenRangePartition` that takes the compacted tables out of the table list, both
lists read in step and compared by `LastSeq`. -/
def replaceTables : List Table → List Table → List Table
  | [], us => us
  | t :: ts, us => replaceFront t (replaceTables ts) us

/-- The table list begins with the compacted tables, and the loop takes off just these. -/
theorem replaceTables_append (ts us : List Table) : replaceTables ts (ts ++ us) = us := by
  induction ts with
  | nil => rfl
  | cons t ts ih => rw [cons_append, replaceTables, replaceFront, if_pos rfl, ih]

/-! ## The state and its operations -/

/-- The part of a range partition that holds pairs. -/
structure Lsm where
  mt : Skiplist
  imm : List Skiplist
  flushChan : List FlushTask
  flusher : Flusher
  tables : List Table
  compaction : Option Compaction

namespace Lsm

/-- The state of a partition that has just opened its tables. -/
def opened (tables : List Table) : Lsm where
  mt := Skiplist.new
  imm := []
  flushChan := []
  flusher := .idle
  tables := tables
  compaction := none

/-- `getMemTables`: the mutable memtable, then the immutable ones from the newest on. -/
def memTables (s : Lsm) : List Skiplist := s.mt :: s.imm.reverse

/-- `Put` into the mutable memtable; the arena asserts that it has room. -/
def put (s : Lsm) (key : InternalKey) (vs : ValueStruct) (height : ℕ) : Option Lsm :=
  if (s.mt.put key vs height).memSize ≤ maxSkipList then
    some { s with mt := s.mt.put key vs height }
  else none

/-- The non-blocking send of the memtable to `flushChan`, as a flush task and into `rp.imm`. -/
def rotate (s : Lsm) (vptr : ValuePointer) (seqNum : ℕ) : Option Lsm :=
  if s.flushChan.length < flushChanCapacity then
    some { s with
      flushChan := s.flushChan ++ [⟨s.mt, vptr, seqNum, false⟩]
      imm := s.imm ++ [s.mt]
      mt := Skiplist.new }
  else none

/-- The flusher takes the next task. -/
def receive (s : Lsm) : Option Lsm :=
  match s.flusher, s.flushChan with
  | .idle, ft :: rest => some { s with flusher := .building ft, flushChan := rest }
  | _, _ => none

/-- `handleFlushTask`: the table of the task is appended to the table list. -/
def build (s : Lsm) : Option Lsm :=
  match s.flusher with
  | .building ft => some { s with flusher := .built ft, tables := s.tables ++ ft.table.toList }
  | _ => none

/-- The memtable of the task leaves `rp.imm`; the task of a compaction has none there. -/
def popImm (s : Lsm) : Option Lsm :=
  match s.flusher with
  | .built ft =>
    if ft.isCompact then some { s with flusher := .saving ft }
    else match s.imm with
      | [] => none
      | _ :: imm => some { s with flusher := .saving ft, imm }
  | _ => none

/-- The flusher has stored the table list. -/
def saved (s : Lsm) : Option Lsm :=
  match s.flusher with
  | .saving ft => some { s with flusher := if ft.isCompact then .notifying else .idle }
  | _ => none

/-- The flusher hands a result to the compaction, which takes it once it has sent everything. -/
def notify (s : Lsm) : Option Lsm :=
  match s.flusher, s.compaction with
  | .notifying, some c =>
    if c.todo.isEmpty then
      some { s with flusher := .idle, compaction := some { c with results := c.results + 1 } }
    else none
  | _, _ => none

/-- `doCompact` begins with all tables, if there is more than one. -/
def compactStart (s : Lsm) : Option Lsm :=
  match s.compaction with
  | some _ => none
  | none =>
    if s.tables.length ≤ 1 then none
    else some { s with compaction := some (Compaction.start s.tables) }

/-- One round of the outer loop of `doCompact`: the inner loop, and the send of its store. -/
def compactSend (s : Lsm) (now : ℕ) (hs : List ℕ) : Option Lsm :=
  match s.compaction with
  | none => none
  | some c =>
    if c.todo.isEmpty = false ∧ s.flushChan.length < flushChanCapacity then
      let out := compactLoop true (2 * maxSkipList) now none Skiplist.new hs c.todo
      some { s with
        flushChan := s.flushChan ++ [⟨out.1, c.head, c.maxSeq, true⟩]
        compaction := some { c with todo := out.2, numBuilds := c.numBuilds + 1 } }
    else none

/-- The end of a compaction: all results are in, and its tables leave the table list. -/
def compactFinish (s : Lsm) : Option Lsm :=
  match s.compaction with
  | none => none
  | some c =>
    if c.todo.isEmpty ∧ c.results = c.numBuilds then
      some { s with tables := replaceTables c.tbls s.tables, compaction := none }
    else none

end Lsm

/-- The operations on the part of a partition that holds pairs. -/
inductive LsmOp where
  | put (key : InternalKey) (vs : ValueStruct) (height : ℕ)
  | rotate (vptr : ValuePointer) (seqNum : ℕ)
  | receive
  | build
  | popImm
  | saved
  | notify
  | compactStart
  | compactSend (now : ℕ) (hs : List ℕ)
  | compactFinish

/-- One operation. -/
def Lsm.apply (s : Lsm) : LsmOp → Option Lsm
  | .put key vs height => s.put key vs height
  | .rotate vptr seqNum => s.rotate vptr seqNum
  | .receive => s.receive
  | .build => s.build
  | .popImm => s.popImm
  | .saved => s.saved
  | .notify => s.notify
  | .compactStart => s.compactStart
  | .compactSend now hs => s.compactSend now hs
  | .compactFinish => s.compactFinish

/-- What one operation does: the guards it passed and the state it leaves. -/
inductive LsmStep (s : Lsm) : LsmOp → Lsm → Prop where
  | put {key : InternalKey} {vs : ValueStruct} {h : ℕ}
      (room : (s.mt.put key vs h).memSize ≤ maxSkipList) :
      LsmStep s (.put key vs h) { s with mt := s.mt.put key vs h }
  | rotate {vptr : ValuePointer} {seqNum : ℕ} (room : s.flushChan.length < flushChanCapacity) :
      LsmStep s (.rotate vptr seqNum) { s with
        flushChan := s.flushChan ++ [⟨s.mt, vptr, seqNum, false⟩]
        imm := s.imm ++ [s.mt]
        mt := Skiplist.new }
  | receive {ft : FlushTask} {rest : List FlushTask} (hf : s.flusher = .idle)
      (hc : s.flushChan = ft :: rest) :
      LsmStep s .receive { s with flusher := .building ft, flushChan := rest }
  | build {ft : FlushTask} (hf : s.flusher = .building ft) :
      LsmStep s .build { s with flusher := .built ft, tables := s.tables ++ ft.table.toList }
  | popCompact {ft : FlushTask} (hf : s.flusher = .built ft) (hc : ft.isCompact = true) :
      LsmStep s .popImm { s with flusher := .saving ft }
  | popImm {ft : FlushTask} {m : Skiplist} {imm : List Skiplist} (hf : s.flusher = .built ft)
      (hc : ft.isCompact = false) (hi : s.imm = m :: imm) :
      LsmStep s .popImm { s with flusher := .saving ft, imm }
  | saved {ft : FlushTask} (hf : s.flusher = .saving ft) :
      LsmStep s .saved { s with flusher := if ft.isCompact then .notifying else .idle }
  | notify {c : Compaction} (hf : s.flusher = .notifying) (hc : s.compaction = some c)
      (ht : c.todo = []) :
      LsmStep s .notify
        { s with flusher := .idle, compaction := some { c with results := c.results + 1 } }
  | compactStart (hc : s.compaction = none) (hlen : 1 < s.tables.length) :
      LsmStep s .compactStart { s with compaction := some (Compaction.start s.tables) }
  | compactSend {c : Compaction} {now : ℕ} {hs : List ℕ} (hc : s.compaction = some c)
      (ht : c.todo ≠ []) (room : s.flushChan.length < flushChanCapacity) :
      LsmStep s (.compactSend now hs) { s with
        flushChan := s.flushChan ++
          [⟨(compactLoop true (2 * maxSkipList) now none Skiplist.new hs c.todo).1,
            c.head, c.maxSeq, true⟩]
        compaction := some { c with
          todo := (compactLoop true (2 * maxSkipList) now none Skiplist.new hs c.todo).2
          numBuilds := c.numBuilds + 1 } }
  | compactFinish {c : Compaction} (hc : s.compaction = some c) (ht : c.todo = [])
      (hr : c.results = c.numBuilds) :
      LsmStep s .compactFinish
        { s with tables := replaceTables c.tbls s.tables, compaction := none }

theorem Lsm.step_of_apply {s s' : Lsm} {op : LsmOp} (h : s.apply op = some s') :
    LsmStep s op s' := by
  cases op with
  | put key vs height | rotate vptr seqNum =>
    obtain ⟨room, ⟨⟩⟩ := ite_none_right_eq_some.mp h
    constructor
    exact room
  | receive | build | saved =>
    simp only [apply, Lsm.receive, Lsm.build, Lsm.saved] at h
    split at h <;> cases h
    constructor <;> assumption
  | popImm =>
    simp only [apply, Lsm.popImm] at h
    split at h
    next ft hf =>
      split_ifs at h with hc
      · exact some.inj h ▸ .popCompact hf hc
      · split at h
        next => cases h
        next m imm hi =>
          exact some.inj h ▸ .popImm hf (by simpa using hc) hi
    next => cases h
  | notify =>
    simp only [apply, Lsm.notify] at h
    split at h
    next c hf hc =>
      obtain ⟨ht, ⟨⟩⟩ := ite_none_right_eq_some.mp h
      exact .notify hf hc (isEmpty_iff.mp ht)
    next => cases h
  | compactStart =>
    simp only [apply, Lsm.compactStart] at h
    split at h
    next => cases h
    next hc =>
      obtain ⟨hlen, ⟨⟩⟩ := ite_none_left_eq_some.mp h
      exact .compactStart hc (not_le.mp hlen)
  | compactSend now hs =>
    simp only [apply, Lsm.compactSend] at h
    split at h
    next => cases h
    next c hc =>
      obtain ⟨⟨ht, room⟩, ⟨⟩⟩ := ite_none_right_eq_some.mp h
      exact .compactSend hc (by simpa using ht) room
  | compactFinish =>
    simp only [apply, Lsm.compactFinish] at h
    split at h
    next => cases h
    next c hc =>
      obtain ⟨⟨ht, hr⟩, ⟨⟩⟩ := ite_none_right_eq_some.mp h
      exact .compactFinish hc (isEmpty_iff.mp ht) hr

end Autumn
