import Autumn.RangePartition.Sane
import Autumn.StreamClient.MixBlock
import Autumn.Lib.Run

/-!
# A range partition as a machine

The state is the log stream, the table list stored in the partition manager, and the partition
itself while its process lives.  The goroutines (callers of `Write` and `Delete`, `doWrites`,
`writeRequests`, `flushMemtable`, `doCompact`, `Close`) are cut at the points where another one can
run in between; which action comes next is arbitrary.  A crash is possible in every state.

Three parts of the state are bookkeeping that no step reads: the entries acknowledged so far, the
tables merged away by compactions, and what the current process has opened and replayed.
-/

namespace Autumn

open Lib Y

/-! ## The state of a partition -/

/-- Where `writeRequests` is.  `placed` are the entries of the batch with the positions of their
blocks, which the code does not keep. -/
inductive Writer where
  | idle
  /-- In `writeValueLog`. -/
  | appending (reqs : List Entry)
  /-- In the loop around `ensureRoomForWrite`. -/
  | room (infos : List EntryInfo) (head : ValuePointer) (placed : List EntryInfo)
  /-- In the loop around `writeToLSM`. -/
  | putting (todo : List EntryInfo) (head : ValuePointer) (placed : List EntryInfo)
  deriving DecidableEq

/-- A call of `Delete` that has loaded the memtables and the sequence number and has not looked at
the tables yet. -/
structure DeleteSearch where
  key : Bytes
  mts : List Skiplist
  seqNumber : ℕ

/-- What the partition as a whole is doing.  The entries of a replay are those of the log; what
the iterator delivers for one is its `replayInfo`. -/
inductive Mode where
  | replaying (todo : List EntryInfo)
  /-- In the replay closure, around `ensureRoomForWrite`. -/
  | makingRoom (p : EntryInfo) (todo : List EntryInfo)
  /-- In the replay closure, before `writeToLSM`. -/
  | replayPutting (p : EntryInfo) (todo : List EntryInfo)
  | running
  /-- In `Close`, waiting for `doWrites`. -/
  | draining
  /-- In `Close`, waiting for the flusher. -/
  | flushing
  deriving DecidableEq

/-- Callers hold the partition. -/
def Mode.isOpen : Mode → Bool
  | .running | .draining | .flushing => true
  | _ => false

/-- `doWrites` runs. -/
def Mode.writes : Mode → Bool
  | .running | .draining => true
  | _ => false

/-- The entries the replay has not put yet. -/
def Mode.todo : Mode → List EntryInfo
  | .replaying todo => todo
  | .makingRoom p todo => p :: todo
  | .replayPutting p todo => p :: todo
  | _ => []

/-- A range partition.  A request carries the one entry of its caller. -/
structure RangePartition extends Lsm where
  seqNumber : ℕ
  vhead : ValuePointer
  mode : Mode
  /-- Calls of `Delete` between the memtables and the tables. -/
  deletes : List DeleteSearch
  /-- Calls of `Delete` that found their key and have not drawn a version. -/
  checked : List Bytes
  /-- Requests that have a version and are not in the channel yet. -/
  drawn : List Entry
  writeCh : List Entry
  /-- The requests `doWrites` has collected for the next batch. -/
  reqs : List Entry
  writer : Writer
  /-- The tables opened by this process. -/
  opened : List Table
  /-- The entries delivered to the replay closure of this process. -/
  delivered : List EntryInfo

/-- The whole state. -/
structure World where
  log : LogStream
  stored : List Table
  /-- The partition, while its process lives. -/
  rp : Option RangePartition
  /-- The entries acknowledged so far, with the positions of their blocks. -/
  acked : List EntryInfo
  /-- The tables merged away by compactions so far. -/
  merged : List Table

/-- `writeChCapacity`. -/
def writeChCapacity : ℕ := 64

/-- `isReqsTooBig`: more than 30 MB in the log, or more than `3 * writeChCapacity` entries. -/
def isReqsTooBig (reqs : List Entry) : Bool :=
  decide ((reqs.map Entry.size).sum > 30 * 1048576) || decide (reqs.length > 3 * writeChCapacity)

/-! ## The code of the partition -/

/-- `ensureRoomForWrite`: nothing to do, or a rotation, or `errNoRoom` (`false`) when the channel of
flush tasks is full; the sequence number is consumed in both of the last cases.  A batch larger
than a memtable fails the assertion. -/
def ensureRoomForWrite (rp : RangePartition) (entries : List Entry) (head : ValuePointer) :
    Option (RangePartition × Bool) :=
  let n := (entries.map estimatedSizeInSkl).sum
  if n > maxSkipList then none
  else if rp.mt.memSize + n < maxSkipList then some (rp, true)
  else match rp.toLsm.rotate head (rp.seqNumber + 1) with
    | some lsm => some ({ rp with toLsm := lsm, seqNumber := rp.seqNumber + 1 }, true)
    | none => some ({ rp with seqNumber := rp.seqNumber + 1 }, false)

/-- The entry of `Write`. -/
def writeEntry (key value : Bytes) (ts : ℕ) : Entry :=
  { key := keyWithTs key ts, value := value }

/-- The entry of `Delete`. -/
def deleteEntry (key : Bytes) (ts : ℕ) : Entry :=
  { key := keyWithTs key ts, value := [], metaBits := bitDelete.toUInt32 }

/-- The entries of a batch with their indices. -/
def tagged (reqs : List Entry) : List (ℕ × Entry) := reqs.zipIdx.map fun x => (x.2, x.1)

/-- What a goroutine can do within the process. -/
inductive LocalAction where
  | write (key value : Bytes)
  | deleteMem (key : Bytes)
  | deleteTables (i : ℕ)
  | deleteDraw (key : Bytes)
  | enqueue (i : ℕ)
  | reject (i : ℕ)
  | collect
  | startBatch
  | appendErr
  | ensureRoom
  | put (height : ℕ)
  | receive
  | build
  | popImm
  | notify
  | compactStart
  | compactSend (now : ℕ) (hs : List ℕ)
  | replayNext
  | replayRoom
  | replayPut (height : ℕ)
  | replayEnd
  | closeStart
  | closePush

/-- An operation on the memtables and tables. -/
def RangePartition.lsmOp (rp : RangePartition) (op : LsmOp) : Option RangePartition :=
  (rp.toLsm.apply op).map fun lsm => { rp with toLsm := lsm }

/-- `seqNumber` as the replay closure leaves it: one more if the version is newer. -/
def replaySeq (seqNumber : ℕ) (key : InternalKey) : ℕ :=
  if parseTs key > seqNumber then seqNumber + 1 else seqNumber

/-- The steps of the goroutines. -/
def localStep (env : Env) (rp : RangePartition) : LocalAction → Option RangePartition
  -- `Write` and `WriteAsync`: the version is drawn before the request is sent.
  | .write key value =>
    if rp.mode.isOpen then
      some { rp with
        seqNumber := rp.seqNumber + 1
        drawn := rp.drawn ++ [writeEntry key value (rp.seqNumber + 1)] }
    else none
  -- `Delete`: `getValueStruct(key, 0)`, first the memtables and the sequence number.
  | .deleteMem key =>
    if rp.mode.isOpen then
      some { rp with deletes := rp.deletes ++ [⟨key, rp.memTables, rp.seqNumber⟩] }
    else none
  -- Then the tables; a key that is not there or deleted ends the call with `errNotFound`.
  | .deleteTables i =>
    match rp.deletes[i]? with
    | some d =>
      let vs := getValueStruct env d.mts d.seqNumber rp.tables d.key 0
      if vs.version = 0 ∨ vs.isDeleted then some { rp with deletes := rp.deletes.eraseIdx i }
      else some { rp with
        deletes := rp.deletes.eraseIdx i
        checked := rp.checked ++ [d.key] }
    | none => none
  | .deleteDraw key =>
    if key ∈ rp.checked then
      some { rp with
        seqNumber := rp.seqNumber + 1
        checked := rp.checked.erase key
        drawn := rp.drawn ++ [deleteEntry key (rp.seqNumber + 1)] }
    else none
  -- `sendToWriteCh`.
  | .enqueue i =>
    match rp.drawn[i]? with
    | some e =>
      if rp.mode.writes ∧ rp.writeCh.length < writeChCapacity then
        some { rp with drawn := rp.drawn.eraseIdx i, writeCh := rp.writeCh ++ [e] }
      else none
    | none => none
  -- `ErrBlockedWrites`.
  | .reject i =>
    match rp.mode with
    | .draining | .flushing =>
      if i < rp.drawn.length then some { rp with drawn := rp.drawn.eraseIdx i } else none
    | _ => none
  -- `doWrites`.
  | .collect =>
    match rp.writeCh with
    | e :: rest =>
      if rp.mode.writes ∧ isReqsTooBig rp.reqs = false then
        some { rp with writeCh := rest, reqs := rp.reqs ++ [e] }
      else none
    | [] => none
  | .startBatch =>
    match rp.writer with
    | .idle =>
      if rp.mode.writes ∧ rp.reqs.isEmpty = false then
        some { rp with reqs := [], writer := .appending rp.reqs }
      else none
    | _ => none
  -- `writeRequests`.
  | .appendErr =>
    match rp.writer with
    | .appending _ => some { rp with writer := .idle }
    | _ => none
  | .ensureRoom =>
    match rp.writer with
    | .room infos head placed =>
      (ensureRoomForWrite rp (infos.map EntryInfo.log) rp.vhead).map fun r =>
        if r.2 then { r.1 with writer := .putting infos head placed } else r.1
    | _ => none
  | .put height =>
    match rp.writer with
    | .putting (ei :: todo) head placed =>
      (rp.lsmOp (.put ei.log.key (lsmValue ei) height)).map fun rp =>
        { rp with writer := .putting todo head placed }
    | _ => none
  -- `flushMemtable` and `doCompact`.
  | .receive => rp.lsmOp .receive
  | .build => rp.lsmOp .build
  | .popImm => rp.lsmOp .popImm
  | .notify => rp.lsmOp .notify
  | .compactStart =>
    match rp.mode with
    | .running => rp.lsmOp .compactStart
    | _ => none
  | .compactSend now hs => rp.lsmOp (.compactSend now hs)
  -- The replay closure.
  | .replayNext =>
    match rp.mode with
    | .replaying (p :: todo) => some { rp with
        seqNumber := replaySeq rp.seqNumber (replayInfo p).log.key
        delivered := rp.delivered ++ [replayInfo p]
        mode := .makingRoom p todo }
    | _ => none
  | .replayRoom =>
    match rp.mode with
    | .makingRoom p todo =>
      (ensureRoomForWrite rp [(replayInfo p).log]
        ⟨(replayInfo p).extentID, (replayInfo p).offset, 0⟩).map fun r =>
        if r.2 then { r.1 with mode := .replayPutting p todo } else r.1
    | _ => none
  | .replayPut height =>
    match rp.mode with
    | .replayPutting p todo =>
      (rp.lsmOp (.put (replayInfo p).log.key (lsmValue (replayInfo p)) height)).map fun rp =>
        { rp with mode := .replaying todo }
    | _ => none
  | .replayEnd =>
    match rp.mode with
    | .replaying [] => some { rp with mode := .running }
    | _ => none
  -- `close(true)`; the partition is handed to its callers after the compaction of the opening.
  | .closeStart =>
    match rp.mode, rp.compaction with
    | .running, none => some { rp with mode := .draining }
    | _, _ => none
  -- The memtable is handed over unless it is empty; nothing uses the new one.
  | .closePush =>
    match rp.mode, rp.writer with
    | .draining, .idle =>
      if rp.writeCh.isEmpty ∧ rp.reqs.isEmpty then
        if rp.mt.isEmpty then some { rp with mode := .flushing }
        else (rp.lsmOp (.rotate rp.vhead (rp.seqNumber + 1))).map fun rp =>
          { rp with mode := .flushing }
      else none
    | _, _ => none

/-! ## The machine -/

/-- The actions of the machine. -/
inductive Action where
  | loc (a : LocalAction)
  /-- The stream client seals the last extent of the log and allocates a new one. -/
  | newExtent (id : ℕ)
  /-- An append of the first `n` blocks of the batch that is not reported as a success. -/
  | appendGarbage (n : ℕ)
  | appendOk
  | finish
  | store
  | compactFinish
  | openPartition
  | closeEnd
  | crash

/-- `SetRowStreamTables`, which `updateTableLocs` does not call for an empty list. -/
def updateTableLocs (stored tables : List Table) : List Table :=
  if tables.isEmpty then stored else tables

/-- A partition that has opened the stored tables and is about to replay the log, from the replay
position of the table with the greatest `LastSeq`. -/
def openRangePartition (log : LogStream) (stored : List Table) : RangePartition where
  toLsm := Lsm.opened stored
  seqNumber := (compactHead stored).2
  vhead := {}
  mode := .replaying (log.since (compactHead stored).1.extentID (compactHead stored).1.offset)
  deletes := []
  checked := []
  drawn := []
  writeCh := []
  reqs := []
  writer := .idle
  opened := stored
  delivered := []

/-- The blocks of a batch. -/
def batchBlocks (env : Env) (reqs : List Entry) : Option (List LogBlock) :=
  entriesToBlocks (env.sortEntries.sort (tagged reqs))

/-- `writeRequests` behind `AppendEntries`: the entries know their positions, and the end of the
append is the new replay position once the batch is in the memtable. -/
def afterAppend (env : Env) (log : LogStream) (reqs : List Entry) (bs : List LogBlock) : Writer :=
  .room
    (requestOrder (fillPositions log.last.id log.tail (env.sortEntries.sort (tagged reqs))))
    ⟨log.last.id, log.tail + blocksSize bs, 0⟩
    (placedAt log.last.id log.tail bs)

/-- The steps of the machine. -/
def step (env : Env) (w : World) : Action → Option World
  | .loc a => w.rp.bind fun rp => (localStep env rp a).map fun rp => { w with rp := some rp }
  | .newExtent id =>
    if id ∉ w.log.exs.map LogExtent.id ∧ id ≠ 0 ∧ id < 2 ^ 64 then
      some { w with log := w.log.newExtent id }
    else none
  | .appendGarbage n => w.rp.bind fun rp =>
    match rp.writer with
    | .appending reqs => (batchBlocks env reqs).bind fun bs =>
      if w.log.tail + blocksSize bs < 2 ^ 32 then
        some { w with log := w.log.append (bs.take n) }
      else none
    | _ => none
  -- The offsets of the stream are 32 bits wide: it does not accept an append behind that.
  | .appendOk => w.rp.bind fun rp =>
    match rp.writer with
    | .appending reqs => (batchBlocks env reqs).bind fun bs =>
      if w.log.tail + blocksSize bs < 2 ^ 32 then
        some { w with
          log := w.log.append bs
          rp := some { rp with writer := afterAppend env w.log reqs bs } }
      else none
    | _ => none
  | .finish => w.rp.bind fun rp =>
    match rp.writer with
    | .putting [] head placed => some { w with
        rp := some { rp with vhead := head, writer := .idle }
        acked := w.acked ++ placed }
    | _ => none
  | .store => w.rp.bind fun rp => (rp.lsmOp .saved).map fun rp' => { w with
      rp := some rp'
      stored := updateTableLocs w.stored rp.tables }
  | .compactFinish => w.rp.bind fun rp => rp.compaction.bind fun c =>
    (rp.lsmOp .compactFinish).map fun rp' => { w with
      rp := some rp'
      stored := updateTableLocs w.stored rp'.tables
      merged := w.merged ++ c.tbls }
  | .openPartition =>
    match w.rp with
    | none => some { w with rp := some (openRangePartition w.log w.stored) }
    | some _ => none
  | .closeEnd => w.rp.bind fun rp =>
    match rp.mode, rp.flusher, rp.flushChan with
    | .flushing, .idle, [] => some { w with rp := none }
    | _, _, _ => none
  | .crash => some { w with rp := none }

/-- No table is stored, and the log has one extent without blocks. -/
def World.init (id : ℕ) : World where
  log := { front := [], last := ⟨id, []⟩ }
  stored := []
  rp := none
  acked := []
  merged := []

/-! ## Pieces of runs -/

/-- The partition is opened, and there is nothing to replay. -/
def openReplayed : List Action := [.openPartition, .loc .replayEnd]

/-- A write that is acknowledged. -/
def writeKey (key value : Bytes) : List Action :=
  [.loc (.write key value), .loc (.enqueue 0), .loc .collect, .loc .startBatch, .appendOk,
    .loc .ensureRoom, .loc (.put 1), .finish]

/-- A graceful close that flushes the memtable. -/
def closeFlushing : List Action :=
  [.loc .closeStart, .loc .closePush, .loc .receive, .loc .build, .loc .popImm, .store, .closeEnd]

/-- A compaction of one round from its first store on. -/
def compactRest : List Action :=
  [.loc (.compactSend 0 []), .loc .receive, .loc .build, .loc .popImm, .store, .loc .notify,
    .compactFinish]

/-- A key is written twice, each time before a close that flushes it, and the partition is open
again with the two tables. -/
def writtenTwice : List Action :=
  openReplayed ++ writeKey [107] [1] ++ closeFlushing ++ openReplayed ++ writeKey [107] [2] ++
    closeFlushing ++ openReplayed

/-- The two tables are compacted, another key is written, and the process crashes and replays it. -/
def compactedAndCrashed : List Action :=
  writtenTwice ++ .loc .compactStart :: compactRest ++ writeKey [108] [3] ++
    [.crash, .openPartition, .loc .replayNext, .loc .replayRoom, .loc (.replayPut 1),
      .loc .replayEnd]

end Autumn
