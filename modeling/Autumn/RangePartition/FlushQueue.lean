import Autumn.RangePartition.Lsm
import Autumn.Lib.Run

/-!
# The queue of the flusher and the immutable memtables

`Lsm` takes a rotation as one step and compares no pointers.  Here memtables are pointers into a
heap, so that the assertion `ft.mt == rp.imm[0]` of the flusher can fail.  A rotation holds the lock
of the partition while it draws a sequence number, sends the task, appends to `rp.imm` and makes a
new memtable; the flusher, which needs the lock only to take a memtable out of `rp.imm`, may receive
the task and build its table in between.

`ensureRoomForWrite` and `Put` are called by the one goroutine that writes, and `Close` begins when
it is through.  Compactions send tasks of their own at any time until the channel is closed.
-/

namespace Autumn

open Lib Y List Nat Option Skiplist

namespace FlushQueue

/-- `flushTask`, with the memtable as a pointer. -/
structure Task where
  mt : ℕ
  vptr : ValuePointer
  seqNum : ℕ
  isCompact : Bool
  deriving DecidableEq

/-- Who holds the lock of the partition, and where in the critical section. -/
inductive Lock where
  | free
  /-- `ensureRoomForWrite`, in front of `AddUint64`. -/
  | roomDraw (head : ValuePointer)
  /-- In front of its `select`. -/
  | roomSelect (head : ValuePointer) (seqNum : ℕ)
  /-- Behind the send. -/
  | roomSent
  /-- Behind the append to `rp.imm`. -/
  | roomAppended
  /-- `close`, in front of its `select`. -/
  | closeSelect (vhead : ValuePointer)
  | closeSent
  | closeAppended
  /-- `flushMemtable`, in front of the assertion. -/
  | flusher (ft : Task)
  deriving DecidableEq

/-- The task is sent and the memtable is not in `rp.imm` yet. -/
def Lock.sent : Lock → Bool
  | .roomSent | .closeSent => true
  | _ => false

/-- The memtable is handed over and `rp.mt` still points to it. -/
def Lock.stale : Lock → Bool
  | .roomSent | .roomAppended | .closeSent | .closeAppended => true
  | _ => false

/-- `ensureRoomForWrite` is in its critical section. -/
def Lock.rooming : Lock → Bool
  | .roomDraw _ | .roomSelect _ _ | .roomSent | .roomAppended => true
  | _ => false

/-- `close` is in its critical section. -/
def Lock.closing : Lock → Bool
  | .closeSelect _ | .closeSent | .closeAppended => true
  | _ => false

/-- Where `flushMemtable` is. -/
inductive FlushPc where
  | idle
  /-- In the loop around `handleFlushTask`. -/
  | handling (ft : Task)
  /-- Behind it, in front of the update of `rp.imm`. -/
  | handled (ft : Task)
  /-- In `updateTableLocs`. -/
  | saving (ft : Task)
  /-- Sending to `resultCh`. -/
  | notifying
  | returned
  deriving DecidableEq

/-- Where `close` is. -/
inductive Closer where
  /-- The goroutine that writes is at work. -/
  | running
  /-- `writeStopper.Stop` has returned. -/
  | stopped
  /-- The memtable is handed over, or was empty. -/
  | handed
  /-- `flushChan` is closed. -/
  | chClosed
  deriving DecidableEq

end FlushQueue

open FlushQueue in
/-- The part of a partition that rotations, flushes and `close` share.  The last three fields are
bookkeeping: the rotated memtables as they were sent, those handled by `handleFlushTask`, and the
tables it appended to `rp.tables`, each with the flag of its task. -/
structure FlushQueue where
  heap : List Skiplist
  mt : Option ℕ
  imm : List ℕ
  flushChan : List Task
  seqNumber : ℕ
  tables : List Table
  lock : Lock
  flusher : FlushPc
  closer : Closer
  /-- The assertion of the flusher has failed. -/
  failed : Bool
  rotated : List (ℕ × FlushTask)
  handled : List (ℕ × FlushTask)
  appended : List (Bool × Table)

namespace FlushQueue

/-- `OpenRangePartition` with its tables opened; `seqNumber` is the greatest `LastSeq`. -/
def opened (tables : List Table) : FlushQueue where
  heap := [Skiplist.new]
  mt := some 0
  imm := []
  flushChan := []
  seqNumber := (compactHead tables).2
  tables := tables
  lock := .free
  flusher := .idle
  closer := .running
  failed := false
  rotated := []
  handled := []
  appended := []

/-- The memtable behind a pointer. -/
def deref (s : FlushQueue) (p : ℕ) : Skiplist := s.heap.getD p Skiplist.new

/-- A task with the memtable it points to. -/
def load (s : FlushQueue) (ft : Task) : FlushTask :=
  ⟨s.deref ft.mt, ft.vptr, ft.seqNum, ft.isCompact⟩

/-- A step of somebody. -/
inductive Act where
  | draw
  /-- `writeToLSM`. -/
  | put (key : InternalKey) (vs : ValueStruct) (height : ℕ)
  /-- `ensureRoomForWrite` for entries of `n` bytes takes the lock. -/
  | room (n : ℕ) (head : ValuePointer)
  | roomDraw
  | roomSelect
  | roomAppend
  | roomRenew
  /-- `doCompact` sends a store. -/
  | compactSend (memStore : Skiplist) (head : ValuePointer) (maxSeq : ℕ)
  /-- The tables of a compaction leave the table list. -/
  | replace (tbls : List Table)
  /-- `for ft := range rp.flushChan`. -/
  | receive
  | handleErr
  | handleOk
  /-- `rp.Lock()` of the flusher. -/
  | lockImm
  | popImm
  | saved
  | notify
  /-- The end of the `range` over the closed channel. -/
  | flusherReturn
  /-- `writeStopper.Stop` returns. -/
  | stopWrites
  | closeLock (vhead : ValuePointer)
  | closeSelect
  | closeAppend
  | closeNil
  /-- The memtable is empty. -/
  | closeSkip
  | closeChan

/-- A task for the memtable goes into the channel, if there is room. -/
def send (s : FlushQueue) (p : ℕ) (vptr : ValuePointer) (seqNum : ℕ) (lock : Lock) : FlushQueue :=
  { s with
    lock := lock
    flushChan := s.flushChan ++ [⟨p, vptr, seqNum, false⟩]
    rotated := s.rotated ++ [(p, ⟨s.deref p, vptr, seqNum, false⟩)] }

def step (s : FlushQueue) : Act → Option FlushQueue
  | .draw => some { s with seqNumber := s.seqNumber + 1 }
  | .put key vs height =>
    match s.mt, s.closer, s.lock.stale with
    | some p, .running, false =>
      if ((s.deref p).put key vs height).memSize ≤ maxSkipList then
        some { s with heap := s.heap.set p ((s.deref p).put key vs height) }
      else none
    | _, _, _ => none
  -- `ensureRoomForWrite`; with enough room it returns at once.
  | .room n head =>
    match s.mt, s.closer, s.lock with
    | some p, .running, .free =>
      if n > maxSkipList then none
      else if (s.deref p).memSize + n < maxSkipList then some s
      else some { s with lock := .roomDraw head }
    | _, _, _ => none
  | .roomDraw =>
    match s.lock with
    | .roomDraw head => some { s with
        seqNumber := s.seqNumber + 1, lock := .roomSelect head (s.seqNumber + 1) }
    | _ => none
  -- The send, or `errNoRoom`.
  | .roomSelect =>
    match s.lock, s.mt with
    | .roomSelect head seqNum, some p =>
      if s.flushChan.length < flushChanCapacity then some (s.send p head seqNum .roomSent)
      else some { s with lock := .free }
    | _, _ => none
  | .roomAppend =>
    match s.lock, s.mt with
    | .roomSent, some p => some { s with lock := .roomAppended, imm := s.imm ++ [p] }
    | _, _ => none
  | .roomRenew =>
    match s.lock with
    | .roomAppended => some { s with
        lock := .free, mt := some s.heap.length, heap := s.heap ++ [Skiplist.new] }
    | _ => none
  | .compactSend memStore head maxSeq =>
    if s.closer ≠ .chClosed ∧ s.flushChan.length < flushChanCapacity then some { s with
      heap := s.heap ++ [memStore]
      flushChan := s.flushChan ++ [⟨s.heap.length, head, maxSeq, true⟩] }
    else none
  | .replace tbls => some { s with tables := replaceTables tbls s.tables }
  | .receive =>
    match s.flusher, s.flushChan with
    | .idle, ft :: rest => some { s with flusher := .handling ft, flushChan := rest }
    | _, _ => none
  -- `FinishAll` or `OpenTable` fails, and the flusher tries again.
  | .handleErr =>
    match s.flusher with
    | .handling _ => some s
    | _ => none
  | .handleOk =>
    match s.flusher with
    | .handling ft =>
      let new := (s.load ft).table.toList
      some { s with
        flusher := .handled ft
        tables := s.tables ++ new
        handled := if ft.isCompact then s.handled else s.handled ++ [(ft.mt, s.load ft)]
        appended := s.appended ++ new.map fun t => (ft.isCompact, t) }
    | _ => none
  | .lockImm =>
    match s.flusher, s.lock with
    | .handled ft, .free => if ft.isCompact then none else some { s with lock := .flusher ft }
    | _, _ => none
  -- `AssertTrue(ft.mt == rp.imm[0])`; nothing is taken out for a compaction.
  | .popImm =>
    match s.flusher with
    | .handled ft =>
      if ft.isCompact then some { s with flusher := .saving ft }
      else if s.lock = .flusher ft then
        match s.imm with
        | [] => some { s with failed := true }
        | p :: imm =>
          if ft.mt = p then some { s with flusher := .saving ft, lock := .free, imm := imm }
          else some { s with failed := true }
      else none
    | _ => none
  | .saved =>
    match s.flusher with
    | .saving ft => some { s with flusher := if ft.isCompact then .notifying else .idle }
    | _ => none
  | .notify =>
    match s.flusher with
    | .notifying => some { s with flusher := .idle }
    | _ => none
  | .flusherReturn =>
    match s.flusher, s.flushChan, s.closer with
    | .idle, [], .chClosed => some { s with flusher := .returned }
    | _, _, _ => none
  | .stopWrites =>
    match s.closer, s.lock with
    | .running, .free => some { s with closer := .stopped }
    | .running, .flusher _ => some { s with closer := .stopped }
    | _, _ => none
  -- `pushedFlushTask`.
  | .closeLock vhead =>
    match s.mt, s.closer, s.lock with
    | some p, .stopped, .free =>
      if (s.deref p).isEmpty then none else some { s with lock := .closeSelect vhead }
    | _, _, _ => none
  | .closeSelect =>
    match s.lock, s.mt with
    | .closeSelect vhead, some p =>
      if s.flushChan.length < flushChanCapacity then
        some (s.send p vhead (s.seqNumber + 1) .closeSent)
      else some { s with lock := .free }
    | _, _ => none
  | .closeAppend =>
    match s.lock, s.mt with
    | .closeSent, some p => some { s with lock := .closeAppended, imm := s.imm ++ [p] }
    | _, _ => none
  | .closeNil =>
    match s.lock with
    | .closeAppended => some { s with lock := .free, mt := none, closer := .handed }
    | _ => none
  | .closeSkip =>
    match s.mt, s.closer, s.lock.closing with
    | some p, .stopped, false =>
      if (s.deref p).isEmpty then some { s with closer := .handed } else none
    | _, _, _ => none
  | .closeChan =>
    match s.closer with
    | .handed => some { s with closer := .chClosed }
    | _ => none

/-! ## What waits -/

/-- The task flushes a memtable of `rp.imm`. -/
def Task.own (ft : Task) : Bool := !ft.isCompact

/-- The task whose table is not in `rp.tables` yet. -/
def FlushPc.building : FlushPc → List Task
  | .handling ft => [ft]
  | _ => []

/-- The task whose memtable is not out of `rp.imm` yet. -/
def FlushPc.current : FlushPc → List Task
  | .handling ft | .handled ft => [ft]
  | _ => []

/-- The non-compaction tasks in the channel behind the one being flushed. -/
def pending (s : FlushQueue) : List Task := (s.flusher.current ++ s.flushChan).filter Task.own

/-- Those of them without a table. -/
def unhandled (s : FlushQueue) : List Task := (s.flusher.building ++ s.flushChan).filter Task.own

/-- The tables of the memtables of `rp.imm`, in the order they came into `rp.tables`. -/
def flushed (s : FlushQueue) : List Table :=
  s.appended.filterMap fun x => if x.1 then none else some x.2

/-- `close` has not handed the memtable over. -/
def mayRotate (s : FlushQueue) : Bool :=
  match s.closer, s.lock with
  | .running, _ => true
  | .stopped, .closeSent | .stopped, .closeAppended => false
  | .stopped, _ => true
  | _, _ => false

/-! ## The invariant -/

/-- What holds in every state; `base` is the greatest `LastSeq` at the opening. -/
structure Inv (base : ℕ) (s : FlushQueue) : Prop where
  /-- The tasks that wait are `rp.imm` and what a rotation is about to append. -/
  queue : s.pending.map Task.mt = s.imm ++ if s.lock.sent then s.mt.toList else []
  ok : s.failed = false
  /-- A rotated memtable is handled or waits, with the content it was sent with. -/
  split : s.rotated = s.handled ++ s.unhandled.map fun ft => (ft.mt, s.load ft)
  flushed : s.flushed = s.handled.filterMap fun r => r.2.table
  bound : (∀ r ∈ s.rotated, r.1 < s.heap.length) ∧ ∀ p, s.mt = some p → p < s.heap.length
  fresh : s.lock.stale = false → ∀ p, s.mt = some p → ∀ r ∈ s.rotated, r.1 ≠ p
  order : s.rotated.Pairwise fun a b => a.2.seqNum < b.2.seqNum
  above : ∀ r ∈ s.rotated, base < r.2.seqNum
  seq : base ≤ s.seqNumber ∧
    (s.mayRotate = true → ∀ r ∈ s.rotated, r.2.seqNum ≤ s.seqNumber)
  /-- A sequence number that is drawn and not sent yet. -/
  drawn : ∀ head q, s.lock = .roomSelect head q →
    q ≤ s.seqNumber ∧ base < q ∧ ∀ r ∈ s.rotated, r.2.seqNum < q
  room : s.lock.rooming = true → s.closer = .running
  closing : s.lock.closing = true → s.closer = .stopped

theorem inv_opened (tables : List Table) : Inv (compactHead tables).2 (opened tables) where
  queue := rfl
  ok := rfl
  split := rfl
  flushed := rfl
  bound := ⟨fun r h => absurd h not_mem_nil, fun p h => by
    cases h
    exact one_pos⟩
  fresh := fun _ _ _ r h => absurd h not_mem_nil
  order := List.Pairwise.nil
  above := fun r h => absurd h not_mem_nil
  seq := ⟨le_rfl, fun _ r h => absurd h not_mem_nil⟩
  drawn := nofun
  room := nofun
  closing := nofun

section

variable {base p : ℕ} {s s' : FlushQueue} {m : Skiplist} {old lock : Lock} {ft : Task}

/-- A memtable stays as it is when another one is written or a new one is made. -/
theorem load_set (h : ft.mt ≠ p) :
    load { s with heap := s.heap.set p m } ft = s.load ft := by
  unfold load deref
  rw [getD_eq_getElem?_getD, getD_eq_getElem?_getD, getElem?_set_ne h.symm]

theorem load_append (h : ft.mt < s.heap.length) :
    load { s with heap := s.heap ++ [m] } ft = s.load ft := by
  unfold load deref
  rw [getD_eq_getElem?_getD, getD_eq_getElem?_getD, getElem?_append_left h]

section

variable (hI : Inv base s)
include hI

theorem Inv.rotated_of_unhandled (h : ft ∈ s.unhandled) : (ft.mt, s.load ft) ∈ s.rotated := by
  rw [hI.split]
  exact mem_append_right _ (mem_map_of_mem h)

theorem Inv.write (hp : s.mt = some p) (hs : s.lock.stale = false) :
    Inv base { s with heap := s.heap.set p m } :=
  { hI with
    split := by
      refine hI.split.trans (congrArg _ (map_congr_left fun ft hft => ?_))
      rw [load_set (hI.fresh hs p hp _ (hI.rotated_of_unhandled hft))]
    bound := by simpa only [length_set] using hI.bound }

theorem Inv.split_append (m : Skiplist) : s.rotated = s.handled ++ s.unhandled.map fun ft =>
      (ft.mt, load { s with heap := s.heap ++ [m] } ft) := by
  refine hI.split.trans (congrArg _ (map_congr_left fun ft hft => ?_))
  rw [load_append (hI.bound.1 _ (hI.rotated_of_unhandled hft))]

/-- A memtable is sent to the flusher, with a sequence number above all others. -/
theorem Inv.send {q : ℕ} {vptr : ValuePointer} (hp : s.mt = some p) (hl : s.lock = old)
    (hold : old.sent = false) (hsent : lock.sent = true) (hstale : lock.stale = true)
    (hbase : base < q)
    (hq : ∀ r ∈ s.rotated, r.2.seqNum < q) (hsel : ∀ head n, lock ≠ .roomSelect head n)
    (hseq : (s.send p vptr q lock).mayRotate = true → q ≤ s.seqNumber)
    (hroom : lock.rooming = true → s.closer = .running)
    (hclosing : lock.closing = true → s.closer = .stopped) : Inv base (s.send p vptr q lock) where
  queue := by
    have h := hI.queue
    rw [hl, hold] at h
    simp only [pending, FlushQueue.send, hsent, hp] at h ⊢
    rw [← append_assoc, filter_append, map_append, h]
    simp [Task.own]
  ok := hI.ok
  split := by
    simp only [FlushQueue.send, unhandled]
    rw [hI.split, ← append_assoc, filter_append, map_append, append_assoc]
    rfl
  flushed := hI.flushed
  bound := by
    exact ⟨forall_mem_concat hI.bound.1 (hI.bound.2 p hp), hI.bound.2⟩
  fresh := fun h => absurd (hstale.symm.trans h) (by simp)
  order := by
    refine pairwise_append.mpr ⟨hI.order, pairwise_singleton _ _, fun r hr r' hr' => ?_⟩
    rw [mem_singleton.mp hr']
    exact hq r hr
  above := forall_mem_concat hI.above hbase
  seq := ⟨hI.seq.1, fun hm => forall_mem_concat (fun r hr => (hq r hr).le.trans (hseq hm))
    (hseq hm)⟩
  drawn := fun head n h => absurd h (hsel head n)
  room := hroom
  closing := hclosing

theorem Inv.relock (hl : s.lock = old) (h0 : old.sent = false) (h0' : old.stale = false)
    (h1 : lock.sent = false)
    (hseq : ({ s with lock := lock } : FlushQueue).mayRotate = true → s.mayRotate = true)
    (hdrawn : ∀ head q, lock = .roomSelect head q →
      q ≤ s.seqNumber ∧ base < q ∧ ∀ r ∈ s.rotated, r.2.seqNum < q)
    (hroom : lock.rooming = true → s.closer = .running)
    (hclosing : lock.closing = true → s.closer = .stopped) : Inv base { s with lock := lock } :=
  { hI with
    queue := by
      have h := hI.queue
      rw [hl, h0] at h
      rw [h1]
      exact h
    fresh := fun _ => hI.fresh (hl ▸ h0')
    seq := ⟨hI.seq.1, fun h => hI.seq.2 (hseq h)⟩
    drawn := hdrawn
    room := hroom
    closing := hclosing }

theorem Inv.append (hp : s.mt = some p) (hl : s.lock = old) (h0 : old.sent = true)
    (h1 : lock.sent = false) (hstale : lock.stale = true)
    (hseq : ({ s with lock := lock } : FlushQueue).mayRotate = true → s.mayRotate = true)
    (hsel : ∀ head n, lock ≠ .roomSelect head n) (hroom : lock.rooming = true → s.closer = .running)
    (hclosing : lock.closing = true → s.closer = .stopped) :
    Inv base { s with lock := lock, imm := s.imm ++ [p] } :=
  { hI with
    queue := by
      have h := hI.queue
      rw [hl, h0, hp] at h
      rw [h1]
      exact h.trans (by simp)
    fresh := fun h => absurd (hstale.symm.trans h) (by simp)
    seq := ⟨hI.seq.1, fun h => hI.seq.2 (hseq h)⟩
    drawn := fun head n h => absurd h (hsel head n)
    room := hroom
    closing := hclosing }

/-- A step of the flusher that leaves the waiting memtables as they are. -/
theorem Inv.flush {pc : FlushPc} {chan : List Task} {tables : List Table}
    (hp : (pc.current ++ chan).filter Task.own = s.pending)
    (hu : (pc.building ++ chan).filter Task.own = s.unhandled) :
    Inv base { s with flusher := pc, flushChan := chan, tables := tables } :=
  { hI with
    queue := (congrArg _ hp).trans hI.queue
    split := by
      have h := hI.split
      rw [← hu] at h
      exact h }

theorem Inv.handleOk (h : step s .handleOk = some s') : Inv base s' := by
  simp only [step.eq_def] at h
  split at h
  · next ft hft =>
    cases h
    have hqueue : ({ s with flusher := .handled ft } : FlushQueue).pending = s.pending := by
      simp [pending, hft, FlushPc.current]
    cases hc : ft.isCompact with
    | true =>
      have hun : ({ s with flusher := .handled ft } : FlushQueue).unhandled = s.unhandled := by
        simp [unhandled, hft, FlushPc.building, Task.own, hc]
      exact { hI with
        queue := (congrArg _ hqueue).trans hI.queue
        split := hI.split.trans (by rw [← hun]; rfl)
        flushed := by
          refine Eq.trans ?_ hI.flushed
          cases (s.load ft).table <;> simp [FlushQueue.flushed] }
    | false =>
      have hun : s.unhandled = ft :: s.flushChan.filter Task.own := by
        simp [unhandled, hft, FlushPc.building, Task.own, hc]
      exact { hI with
        queue := (congrArg _ hqueue).trans hI.queue
        split := by
          have h := hI.split
          rw [hun, map_cons] at h
          rw [h, append_cons]
          rfl
        flushed := by
          have hf := hI.flushed
          simp only [FlushQueue.flushed] at hf
          cases htab : (s.load ft).table <;> simp [FlushQueue.flushed, hf, htab] }
  · cases h

/-- The flusher takes the memtable it has flushed out of `rp.imm`: it is the first one there. -/
theorem Inv.popImm (h : step s .popImm = some s') : Inv base s' := by
  simp only [step.eq_def] at h
  split at h
  · next ft hft =>
    split_ifs at h with hc hlock
    · cases h
      refine hI.flush ?_ ?_ <;> simp [pending, unhandled, hft, FlushPc.current, FlushPc.building,
        Task.own, hc]
    · have hown : ft.own = true := by simp [Task.own, hc]
      have hq := hI.queue
      rw [hlock, pending, hft] at hq
      simp only [FlushPc.current, singleton_append, filter_cons_of_pos hown,
        map_cons, Lock.sent, Bool.false_eq_true, if_false, append_nil] at hq
      simp only [← hq, if_true, some_inj] at h
      rw [← h]
      exact { hI with
        queue := by simp [pending, FlushPc.current, Lock.sent]
        split := by
          refine hI.split.trans ?_
          rw [unhandled, hft]
          rfl
        fresh := fun _ => hI.fresh (by rw [hlock]; rfl)
        seq := ⟨hI.seq.1, fun hm => hI.seq.2 (by
          revert hm
          simp only [mayRotate, hlock]
          cases s.closer <;> simp)⟩
        drawn := nofun
        room := nofun
        closing := nofun }
  · cases h

/-- `ensureRoomForWrite` takes the lock, if it has to rotate. -/
theorem Inv.ensureRoom {n : ℕ} {head : ValuePointer} (h : step s (.room n head) = some s') :
    Inv base s' := by
  simp only [FlushQueue.step.eq_def] at h
  split at h
  · next hcl hl =>
    split_ifs at h
    · exact some.inj h ▸ hI
    · cases h
      refine hI.relock hl rfl rfl rfl (fun _ => ?_) nofun (fun _ => hcl)
        nofun
      simp [mayRotate, hcl]
  · cases h

/-- It draws a sequence number, which is above those of all tasks. -/
theorem Inv.roomDraw (h : step s .roomDraw = some s') : Inv base s' := by
  simp only [FlushQueue.step.eq_def] at h
  split at h
  · next head hl =>
    cases h
    have hcl := hI.room (hl ▸ rfl)
    have hle := hI.seq.2 (by simp [mayRotate, hcl])
    have hD : Inv base { s with seqNumber := s.seqNumber + 1 } := { hI with
      seq := ⟨hI.seq.1.trans (le_succ _), fun _ r hr => (hle r hr).trans (le_succ _)⟩
      drawn := fun head q hl' => absurd (hl.symm.trans hl') (by simp) }
    refine hD.relock hl rfl rfl rfl (fun _ => by simp [mayRotate, hcl])
      (fun head' q hq => ?_) (fun _ => hcl) nofun
    obtain ⟨-, rfl⟩ := Lock.roomSelect.inj hq
    exact ⟨le_rfl, lt_succ_of_le hI.seq.1, fun r hr => lt_succ_of_le (hle r hr)⟩
  · cases h

/-- It sends the memtable, or gives up. -/
theorem Inv.roomSelect (h : step s .roomSelect = some s') : Inv base s' := by
  simp only [FlushQueue.step.eq_def] at h
  split at h
  · next head q p hl hmt =>
    have hcl := hI.room (hl ▸ rfl)
    obtain ⟨hq, hbase, hall⟩ := hI.drawn head q hl
    split_ifs at h
    · cases h
      exact hI.send hmt hl rfl rfl rfl hbase hall nofun (fun _ => hq) (fun _ => hcl)
        nofun
    · cases h
      exact hI.relock hl rfl rfl rfl (fun _ => by simp [mayRotate, hcl])
        nofun nofun nofun
  · cases h

theorem Inv.roomAppend (h : step s .roomAppend = some s') : Inv base s' := by
  simp only [FlushQueue.step.eq_def] at h
  split at h
  · next p hl hmt =>
    have hcl := hI.room (hl ▸ rfl)
    cases h
    exact hI.append hmt hl rfl rfl rfl (fun _ => by simp [mayRotate, hcl]) nofun
      (fun _ => hcl) nofun
  · cases h

theorem Inv.roomRenew (h : step s .roomRenew = some s') : Inv base s' := by
  simp only [FlushQueue.step.eq_def] at h
  split at h
  · next hl =>
    have hcl := hI.room (hl ▸ rfl)
    cases h
    exact { hI with
      queue := by
        have hq := hI.queue
        rw [hl] at hq
        exact hq
      split := hI.split_append new
      bound := by
        simp only [length_append, length_singleton, some_inj]
        exact ⟨fun r hr => (hI.bound.1 r hr).trans (lt_succ_self _),
          fun p hp => hp ▸ lt_succ_self _⟩
      fresh := fun _ p hp r hr => by
        cases hp
        exact (hI.bound.1 r hr).ne
      seq := ⟨hI.seq.1, fun _ => hI.seq.2 (by simp [mayRotate, hcl])⟩
      drawn := nofun
      room := nofun
      closing := nofun }
  · cases h

/-- The task of a compaction is none of those that wait for `rp.imm`. -/
theorem Inv.compactSend {memStore : Skiplist} {head : ValuePointer} {maxSeq : ℕ}
    (h : step s (.compactSend memStore head maxSeq) = some s') : Inv base s' := by
  simp only [FlushQueue.step.eq_def] at h
  split_ifs at h
  cases h
  have hown :
      ∀ l : List Task, (l ++ ([⟨s.heap.length, head, maxSeq, true⟩] : List Task)).filter Task.own =
      l.filter Task.own := fun l => by simp [Task.own]
  exact { hI with
    queue := by
      refine Eq.trans ?_ hI.queue
      rw [pending, pending, ← append_assoc, hown]
    split := by
      have hs := hI.split_append memStore
      rw [unhandled, ← append_assoc, hown]
      exact hs
    bound := by
      simp only [length_append, length_singleton]
      exact ⟨fun r hr => (hI.bound.1 r hr).trans (lt_succ_self _),
        fun p hp => (hI.bound.2 p hp).trans (lt_succ_self _)⟩ }

theorem Inv.lockImm (h : step s .lockImm = some s') : Inv base s' := by
  simp only [FlushQueue.step.eq_def] at h
  split at h
  · next ft hf hl =>
    split_ifs at h
    cases h
    refine hI.relock hl rfl rfl rfl (fun hm => ?_) nofun nofun nofun
    revert hm
    simp only [mayRotate, hl]
    cases s.closer <;> simp
  · cases h

/-- No rotation is under way when the writers have stopped. -/
theorem Inv.stopWrites (h : step s .stopWrites = some s') : Inv base s' := by
  have hstop : s.closer = .running → s.lock.rooming = false →
      Inv base { s with closer := .stopped } := fun hcl hl =>
    { hI with
      seq := ⟨hI.seq.1, fun _ => hI.seq.2 (by simp [mayRotate, hcl])⟩
      room := fun hr => absurd (hl.symm.trans hr) (by simp)
      closing := fun _ => rfl }
  simp only [FlushQueue.step.eq_def] at h
  split at h
  · next hcl hl => exact some.inj h ▸ hstop hcl (hl ▸ rfl)
  · next hcl hl => exact some.inj h ▸ hstop hcl (hl ▸ rfl)
  · cases h

theorem Inv.closeLock {vhead : ValuePointer} (h : step s (.closeLock vhead) = some s') :
    Inv base s' := by
  simp only [FlushQueue.step.eq_def] at h
  split at h
  · next hcl hl =>
    split_ifs at h
    cases h
    exact hI.relock hl rfl rfl rfl
      (fun _ => by simp [mayRotate, hcl, hl]) nofun nofun (fun _ => hcl)
  · cases h

/-- `close` does not draw its number, and nothing is rotated after it. -/
theorem Inv.closeSelect (h : step s .closeSelect = some s') : Inv base s' := by
  simp only [FlushQueue.step.eq_def] at h
  split at h
  · next vhead p hl hmt =>
    have hcl := hI.closing (hl ▸ rfl)
    have hle := hI.seq.2 (by simp [mayRotate, hcl, hl])
    split_ifs at h
    · cases h
      refine hI.send hmt hl rfl rfl rfl (lt_succ_of_le hI.seq.1)
        (fun r hr => lt_succ_of_le (hle r hr)) nofun (fun hm => ?_) nofun (fun _ => hcl)
      simp [mayRotate, FlushQueue.send, hcl] at hm
    · cases h
      exact hI.relock hl rfl rfl rfl
        (fun _ => by simp [mayRotate, hcl, hl]) nofun nofun nofun
  · cases h

theorem Inv.closeAppend (h : step s .closeAppend = some s') : Inv base s' := by
  simp only [FlushQueue.step.eq_def] at h
  split at h
  · next p hl hmt =>
    have hcl := hI.closing (hl ▸ rfl)
    cases h
    refine hI.append hmt hl rfl rfl rfl (fun hm => ?_) nofun nofun (fun _ => hcl)
    simp [mayRotate, hcl] at hm
  · cases h

theorem Inv.closeNil (h : step s .closeNil = some s') : Inv base s' := by
  simp only [FlushQueue.step.eq_def] at h
  split at h
  · next hl =>
    cases h
    exact { hI with
      queue := by
        have hq := hI.queue
        rw [hl] at hq
        exact hq
      bound := ⟨hI.bound.1, nofun⟩
      fresh := nofun
      seq := ⟨hI.seq.1, nofun⟩
      drawn := nofun
      room := nofun
      closing := nofun }
  · cases h

theorem Inv.step {a : Act} (h : step s a = some s') : Inv base s' := by
  cases a with
  | handleOk => exact hI.handleOk h
  | popImm => exact hI.popImm h
  | draw =>
    simp only [FlushQueue.step.eq_def, some_inj] at h
    rw [← h]
    exact { hI with
      seq := ⟨hI.seq.1.trans (le_succ _), fun hm r hr => (hI.seq.2 hm r hr).trans (le_succ _)⟩
      drawn := fun head q hl => ⟨(hI.drawn head q hl).1.trans (le_succ _), (hI.drawn head q hl).2⟩ }
  | put key vs height =>
    simp only [FlushQueue.step.eq_def] at h
    split at h
    · next p hmt _ hs =>
      split_ifs at h
      exact some.inj h ▸ hI.write hmt hs
    · cases h
  | room n head => exact hI.ensureRoom h
  | roomDraw => exact hI.roomDraw h
  | roomSelect => exact hI.roomSelect h
  | roomAppend => exact hI.roomAppend h
  | roomRenew => exact hI.roomRenew h
  | compactSend memStore head maxSeq => exact hI.compactSend h
  | replace tbls =>
    simp only [FlushQueue.step.eq_def, some_inj] at h
    rw [← h]
    exact hI.flush rfl rfl
  | receive =>
    simp only [FlushQueue.step.eq_def] at h
    split at h
    · next ft rest hf hch =>
      cases h
      exact hI.flush (by rw [pending, hf, hch]; rfl) (by rw [unhandled, hf, hch]; rfl)
    · cases h
  | handleErr =>
    simp only [FlushQueue.step.eq_def] at h
    split at h
    · exact some.inj h ▸ hI
    · cases h
  | lockImm => exact hI.lockImm h
  | saved =>
    simp only [FlushQueue.step.eq_def] at h
    split at h
    · next ft hf =>
      cases h
      refine hI.flush ?_ ?_ <;> simp only [pending, unhandled, hf] <;> split_ifs <;> rfl
    · cases h
  | notify =>
    simp only [FlushQueue.step.eq_def] at h
    split at h
    · next hf =>
      cases h
      exact hI.flush (by rw [pending, hf]; rfl) (by rw [unhandled, hf]; rfl)
    · cases h
  | flusherReturn =>
    simp only [FlushQueue.step.eq_def] at h
    split at h
    · next hf hch _ =>
      cases h
      exact hI.flush (by rw [pending, hf]; rfl) (by rw [unhandled, hf]; rfl)
    · cases h
  | stopWrites => exact hI.stopWrites h
  | closeLock vhead => exact hI.closeLock h
  | closeSelect => exact hI.closeSelect h
  | closeAppend => exact hI.closeAppend h
  | closeNil => exact hI.closeNil h
  | closeSkip =>
    simp only [FlushQueue.step.eq_def] at h
    split at h
    · next p hmt hcl hl =>
      split_ifs at h
      cases h
      exact { hI with
        seq := ⟨hI.seq.1, nofun⟩
        room := fun hr => absurd (hcl.symm.trans (hI.room hr)) nofun
        closing := fun hc => absurd (hl.symm.trans hc) (by simp) }
    · cases h
  | closeChan =>
    simp only [FlushQueue.step.eq_def] at h
    split at h
    · next hcl =>
      cases h
      exact { hI with
        seq := ⟨hI.seq.1, nofun⟩
        room := fun hr => absurd (hcl.symm.trans (hI.room hr)) nofun
        closing := fun hc => absurd (hcl.symm.trans (hI.closing hc)) nofun }
    · cases h

end

end

/-! ## The queue and `rp.imm` -/

theorem lastSeq_table {ft : FlushTask} {t : Table} (h : ft.table = some t) :
    t.lastSeq = ft.seqNum :=
  (toTable_eq_some h).2.1

/-- Unless a compaction takes tables away, `rp.tables` are those of the opening and the appended
ones. -/
theorem tables_step {tables : List Table} {s s' : FlushQueue} {a : Act}
    (ha : ∀ tbls, a ≠ .replace tbls) (hs : s.tables = tables ++ s.appended.map Prod.snd)
    (h : step s a = some s') : s'.tables = tables ++ s'.appended.map Prod.snd := by
  cases a with
  | replace tbls => exact absurd rfl (ha tbls)
  | handleOk =>
    simp only [step.eq_def] at h
    split at h
    · cases h
      simp [hs, Function.comp_def]
    · cases h
  | _ =>
    simp only [step.eq_def] at h
    repeat' split at h
    all_goals
      simp only [reduceCtorEq, some_inj] at h
    all_goals
      subst h
      exact hs

/-- **The flush queue and `rp.imm` agree** in every state that rotations, compaction tasks, the
flusher and `close` can reach.  While nobody holds the lock the memtables of the pending tasks are
those of `rp.imm` in order; the assertion of the flusher never fails; the rotated memtables, with
the content they had then, are those handled and those that wait; each handled one has become one
table, or none if it was empty; and the `LastSeq` of these tables increase. -/
theorem flushQueue_agrees {tables : List Table} {as : List Act} {s : FlushQueue}
    (h : exec step (opened tables) as = some s) :
    (s.lock = .free → s.pending.map Task.mt = s.imm) ∧
      s.failed = false ∧
      s.rotated = s.handled ++ s.unhandled.map (fun ft => (ft.mt, s.load ft)) ∧
      s.flushed = s.handled.filterMap (fun r => r.2.table) ∧
      ((∀ tbls, .replace tbls ∉ as) → s.tables = tables ++ s.appended.map Prod.snd) ∧
      (s.flushed.map Table.lastSeq).Pairwise (· < ·) ∧
      ∀ t ∈ s.flushed, ∀ u ∈ tables, u.lastSeq < t.lastSeq := by
  have hI : Inv (compactHead tables).2 s :=
    exec_invariant_of_step (fun _ _ _ hI h => Inv.step hI h) (inv_opened tables) h
  refine ⟨fun hl => ?_, hI.ok, hI.split, hI.flushed, fun hno => ?_, ?_, fun t ht u hu => ?_⟩
  · have hq := hI.queue
    rw [hl] at hq
    simpa [Lock.sent] using hq
  · have hg : Guarded step (fun _ a => ∀ tbls, a ≠ Act.replace tbls) (opened tables) as :=
      Guarded.of_mem _ fun a ha _ tbls he => hno tbls (he ▸ ha)
    exact exec_invariant (fun _ _ _ hs hg h => tables_step hg hs h) (by simp [opened]) hg h
  · have hord : s.handled.Pairwise fun a b => a.2.seqNum < b.2.seqNum := by
      have hall := hI.order
      rw [hI.split] at hall
      exact (pairwise_append.mp hall).1
    rw [hI.flushed, pairwise_map]
    refine List.Pairwise.filterMap _ (fun a b hab t ht u hu => ?_) hord
    rw [lastSeq_table ht, lastSeq_table hu]
    exact hab
  · rw [hI.flushed] at ht
    obtain ⟨r, hr, htab⟩ := mem_filterMap.mp ht
    have habove := hI.above r (by rw [hI.split]; exact mem_append_left _ hr)
    rw [lastSeq_table htab]
    exact (lastSeq_le_compactHead hu).trans_lt habove

/-- A rotation whose task is received and handled, at the second attempt, before the memtable is in
`rp.imm`; a task of a compaction; and `close` with another memtable. -/
theorem flushQueue_agrees_rotateAndClose :
    let as : List Act :=
      [.put (keyWithTs [1] 1) { value := some [] } 1, .room maxSkipList {}, .roomDraw, .roomSelect,
        .receive, .handleErr, .handleOk, .roomAppend, .roomRenew, .compactSend new {} 0,
        .put (keyWithTs [2] 3) { value := some [] } 1, .lockImm, .popImm, .saved, .stopWrites,
        .closeLock {}, .closeSelect, .receive, .closeAppend, .closeNil, .handleOk, .popImm, .saved,
        .notify, .receive, .closeChan, .handleOk, .lockImm, .popImm, .saved, .flusherReturn]
    ∃ s, exec step (opened []) as = some s ∧ s.flusher = .returned ∧ s.imm = [] ∧
      s.rotated.map Prod.fst = [0, 1] ∧ s.tables.map Table.lastSeq = [1, 2] ∧ s.failed = false := by
  intro as
  refine ⟨_, rfl, rfl, rfl, rfl, rfl, ?_⟩
  exact (@flushQueue_agrees [] as _ rfl).2.1

end FlushQueue

end Autumn
