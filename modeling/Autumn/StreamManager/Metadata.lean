import Autumn.Manager.Commit

/-!
# The metadata of the streams at one leader

The leader keeps the streams, the extents and the nodes in maps, which are copies of what is in
etcd.  A request reads the maps, writes to etcd in one transaction and then updates the maps; each
of these is a critical section of its own, and requests run side by side.  Only `Truncate` keeps the
lock of the streams all the way.

Here all transactions succeed, and the only leader is this one.  `allocUniqID` is one step under
`allocIdLock`.  The nodes chosen by the policy are any three nodes in the map.
`receiveCommitlength` may return at any time or never (`Receive.stuck` says: never).

Whether `cloneStream` gets through is a parameter.  In the code it does not, because it releases a
lock it does not have (`cloneStream_eq_none`).  What does not depend on it is proved for both.

`none` as the result of a step means that the step cannot be taken now, or that the process dies.
-/

namespace Autumn
namespace StreamManager
namespace Metadata

open Lib Manager Function Option

/-! ## The maps -/

/-- The maps of a leader. -/
structure Memory where
  streams : ℕ → Option StreamInfo
  extents : ℕ → Option ExtentInfo
  nodes : ℕ → Option NodeInfo

def asStream : Value → Option StreamInfo
  | .streamInfo info => some info
  | _ => none

def asExtent : Value → Option ExtentInfo
  | .extentInfo info => some info
  | _ => none

def asNode : Value → Option NodeInfo
  | .nodeInfo info => some info
  | _ => none

/-- The maps `runAsLeader` loads from etcd. -/
def runAsLeader (s : Store) : Memory where
  streams := fun id => (s (.streams id)).bind asStream
  extents := fun id => (s (.extents id)).bind asExtent
  nodes := fun id => (s (.nodes id)).bind asNode

def Memory.setStream (m : Memory) (streamID : ℕ) (info : StreamInfo) : Memory :=
  { m with streams := Function.update m.streams streamID (some info) }

def Memory.setExtent (m : Memory) (info : ExtentInfo) : Memory :=
  { m with extents := Function.update m.extents info.extentID (some info) }

/-- `addExtent`. -/
def Memory.addExtent (m : Memory) (streamID : ℕ) (extent : ExtentInfo) : Memory :=
  (m.setExtent extent).setStream streamID <|
    match m.streams streamID with
    | some info => { info with extentIDs := info.extentIDs ++ [extent.extentID] }
    | none => ⟨streamID, [extent.extentID]⟩

/-- `addNode`. -/
def Memory.addNode (m : Memory) (id : ℕ) (addr : String) : Memory :=
  { m with nodes := Function.update m.nodes id (some ⟨id, addr⟩) }

/-- `hasDuplicateAddr`; all nodes have numbers below `bound`. -/
def Memory.hasDuplicateAddr (m : Memory) (bound : ℕ) (addr : String) : Bool :=
  (List.range bound).any fun id => (m.nodes id).any fun n => n.address == addr

/-- Whether the policy can choose these nodes: three different nodes in the map. -/
def Memory.MayChoose (m : Memory) (nodes : List ℕ) : Prop :=
  nodes.length = 3 ∧ nodes.Nodup ∧ ∀ n ∈ nodes, (m.nodes n).isSome

instance (m : Memory) (nodes : List ℕ) : Decidable (m.MayChoose nodes) :=
  inferInstanceAs (Decidable (_ ∧ _ ∧ _))

/-- What `getAppendExtentsAddr` returns: the last extent of the stream, or an error; outer `none` if
it uses something that is not there. -/
def Memory.getAppendExtentsAddr (m : Memory) (streamID : ℕ) : Option (Option ℕ) :=
  (m.streams streamID).bind fun info => info.extentIDs.getLast?.bind fun last =>
    match m.extents last with
    | none => some none
    | some extent =>
      if extent.replicates.all fun n => (m.nodes n).isSome then some (some last) else none

/-! ## Requests -/

/-- The extent a request is about to add to a stream. -/
structure Job where
  streamID : ℕ
  extentID : ℕ
  /-- The stream is new as well. -/
  isNew : Bool
  deriving DecidableEq, Repr

/-- Where a request is. -/
inductive Call where
  | createStream
  | streamAllocExtent (streamID extentToSeal : ℕ)
  /-- In `receiveCommitlength`. -/
  | receiving (streamID : ℕ)
  /-- Behind `sealExtents`. -/
  | sealed (streamID : ℕ)
  /-- It has its numbers. -/
  | allocated (j : Job)
  | chosen (j : Job) (nodes : List ℕ)
  /-- Behind `sendAllocToNodes`. -/
  | sent (j : Job) (nodes : List ℕ)
  /-- It has the extents the stream will have in front of the new one. -/
  | ready (j : Job) (nodes extentIDs : List ℕ)
  /-- Behind its transaction. -/
  | committed (j : Job) (nodes : List ℕ)
  | truncate (streamID extentID : ℕ)
  /-- It has the lock of the streams and drops the first `i` extents. -/
  | cutting (streamID : ℕ) (extentIDs : List ℕ) (i : ℕ)
  /-- Behind its transaction, with the lock. -/
  | cut (streamID : ℕ) (extentIDs : List ℕ) (i : ℕ)
  | registerNode (addr : String)
  /-- The address is new. -/
  | checked (addr : String)
  | numbered (addr : String) (id : ℕ)
  /-- Behind its transaction. -/
  | registered (addr : String) (id : ℕ)
  | done
  | failed
  deriving DecidableEq, Repr

structure World where
  etcd : Store
  /-- The counter of `allocUniqID`. -/
  nextID : ℕ
  mem : Memory
  /-- The lock of the streams, if a `Truncate` has it. -/
  streamLock : Option ℕ
  calls : List Call
  /-- The extents whose allocation was acknowledged, with their streams. -/
  acked : List (ℕ × ℕ)
  /-- The extents that a `Truncate` has removed, with their streams. -/
  removed : List (ℕ × ℕ)

/-- What a step of a request meets: it goes well, it fails, or the policy chooses some nodes. -/
inductive Input where
  | ok
  | err
  | nodes (nodes : List ℕ)
  deriving DecidableEq, Repr

inductive Action where
  | createStream
  | streamAllocExtent (streamID extentToSeal : ℕ)
  | truncate (streamID extentID : ℕ)
  | registerNode (addr : String)
  | go (k : ℕ) (i : Input)
  /-- The manager is elected again and loads the maps, with no request in flight. -/
  | reload
  /-- The process dies and another one is elected. -/
  | crash
  deriving DecidableEq, Repr

def World.set (w : World) (k : ℕ) (c : Call) : World := { w with calls := w.calls.set k c }

def World.add (w : World) (c : Call) : World := { w with calls := w.calls ++ [c] }

/-- One step of request `k`, which is at the given place. -/
def callStep (clones : Bool) (w : World) (k : ℕ) : Call → Input → Option World
  -- `allocUniqID(2)`.
  | .createStream, .ok => some
      { w.set k (.allocated ⟨w.nextID, w.nextID + 1, true⟩) with nextID := w.nextID + 2 }
  | .createStream, .err => some (w.set k .failed)
  | .streamAllocExtent s e, .ok =>
    if w.streamLock = none then
      (w.mem.getAppendExtentsAddr s).map fun last =>
        w.set k (if last = some e then .receiving s else .failed)
    else none
  | .receiving s, .ok => some (w.set k (.sealed s))
  -- `allocUniqID(1)`.
  | .sealed s, .ok => some
      { w.set k (.allocated ⟨s, w.nextID, false⟩) with nextID := w.nextID + 1 }
  | .sealed _, .err => some (w.set k .failed)
  | .allocated j, .nodes nodes =>
    if w.mem.MayChoose nodes then some (w.set k (.chosen j nodes)) else none
  | .chosen j nodes, .ok => some (w.set k (.sent j nodes))
  | .chosen _ _, .err => some (w.set k .failed)
  | .sent j nodes, .ok =>
    if j.isNew then some (w.set k (.ready j nodes []))
    else if clones ∧ w.streamLock = none then
      (w.mem.streams j.streamID).map fun info => w.set k (.ready j nodes info.extentIDs)
    else none
  | .ready j nodes extentIDs, .ok => some
      { w.set k (.committed j nodes) with
        etcd := w.etcd.putAll (extentPuts j.streamID extentIDs j.extentID nodes) }
  | .committed j nodes, .ok =>
    if w.streamLock = none then some
      { w.set k .done with
        mem := w.mem.addExtent j.streamID ⟨j.extentID, nodes⟩
        acked := w.acked ++ [(j.streamID, j.extentID)] }
    else none
  | .truncate s e, .ok =>
    if w.streamLock = none then
      match w.mem.streams s with
      | none => some (w.set k .failed)
      | some info =>
        if truncateIndex e info.extentIDs = 0 then some (w.set k .done)
        else some
          { w.set k (.cutting s info.extentIDs (truncateIndex e info.extentIDs)) with
            streamLock := some k }
    else none
  | .cutting s extentIDs i, .ok => some
      { w.set k (.cut s extentIDs i) with
        etcd := w.etcd.put (.streams s) (.streamInfo ⟨s, extentIDs.drop i⟩)
        removed := w.removed ++ (extentIDs.take i).map fun e => (s, e) }
  | .cut s extentIDs i, .ok => some
      { w.set k .done with
        mem := w.mem.setStream s ⟨s, extentIDs.drop i⟩
        streamLock := none }
  | .registerNode addr, .ok =>
    some (w.set k (if w.mem.hasDuplicateAddr w.nextID addr then .failed else .checked addr))
  | .checked addr, .ok => some
      { w.set k (.numbered addr w.nextID) with nextID := w.nextID + 1 }
  | .checked _, .err => some (w.set k .failed)
  | .numbered addr id, .ok => some
      { w.set k (.registered addr id) with etcd := w.etcd.put (.nodes id) (.nodeInfo ⟨id, addr⟩) }
  | .registered addr id, .ok => some { w.set k .done with mem := w.mem.addNode id addr }
  | _, _ => none

/-- The request has been answered. -/
def Call.finished : Call → Bool
  | .done | .failed => true
  | _ => false

/-- No request is in flight. -/
def World.Quiet (w : World) : Prop := ∀ c ∈ w.calls, c.finished

instance (w : World) : Decidable w.Quiet := inferInstanceAs (Decidable (∀ c ∈ w.calls, _))

def step (clones : Bool) (w : World) : Action → Option World
  | .createStream => some (w.add .createStream)
  | .streamAllocExtent s e => some (w.add (.streamAllocExtent s e))
  | .truncate s e => some (w.add (.truncate s e))
  | .registerNode addr => some (w.add (.registerNode addr))
  | .go k i => (w.calls[k]?).bind fun c => callStep clones w k c i
  | .reload => if w.Quiet then some { w with mem := runAsLeader w.etcd } else none
  | .crash => some { w with mem := runAsLeader w.etcd, streamLock := none, calls := [] }

/-- The code: `cloneStream` does what its locks let it do. -/
abbrev codeStep : World → Action → Option World := step (cloneStream 0).isSome

/-- A leader that has loaded the maps, before the first request. -/
def World.start (etcd : Store) (nextID : ℕ) : World where
  etcd := etcd
  nextID := nextID
  mem := runAsLeader etcd
  streamLock := none
  calls := []
  acked := []
  removed := []

/-- The first leader: nothing is in etcd, and numbers begin with one. -/
def World.init : World := World.start (fun _ => none) 1

/-! ## What a step does -/

/-- Where a request can be refused. -/
def Call.mayFail : Call → Bool
  | .createStream | .streamAllocExtent _ _ | .sealed _ | .chosen _ _ | .truncate _ _ => true
  | .registerNode _ | .checked _ => true
  | _ => false

/-- What a step of request `k` at `c` can do, with the guards it has passed. -/
inductive CallMove (clones : Bool) (w : World) (k : ℕ) : Call → World → Prop where
  | fail {c : Call} (hc : c.mayFail) : CallMove clones w k c (w.set k .failed)
  | create : CallMove clones w k .createStream
      { w.set k (.allocated ⟨w.nextID, w.nextID + 1, true⟩) with nextID := w.nextID + 2 }
  | receive {s e : ℕ} (hs : (w.mem.streams s).isSome) :
      CallMove clones w k (.streamAllocExtent s e) (w.set k (.receiving s))
  | sealing {s : ℕ} : CallMove clones w k (.receiving s) (w.set k (.sealed s))
  | allocate {s : ℕ} : CallMove clones w k (.sealed s)
      { w.set k (.allocated ⟨s, w.nextID, false⟩) with nextID := w.nextID + 1 }
  | choose {j : Job} {nodes : List ℕ} (hn : w.mem.MayChoose nodes) :
      CallMove clones w k (.allocated j) (w.set k (.chosen j nodes))
  | send {j : Job} {nodes : List ℕ} :
      CallMove clones w k (.chosen j nodes) (w.set k (.sent j nodes))
  | begin {j : Job} {nodes : List ℕ} (hj : j.isNew = true) :
      CallMove clones w k (.sent j nodes) (w.set k (.ready j nodes []))
  | clone {j : Job} {nodes : List ℕ} {info : StreamInfo} (hj : j.isNew = false)
      (hc : clones = true) (hinfo : w.mem.streams j.streamID = some info) :
      CallMove clones w k (.sent j nodes) (w.set k (.ready j nodes info.extentIDs))
  | commit {j : Job} {nodes extentIDs : List ℕ} :
      CallMove clones w k (.ready j nodes extentIDs)
        { w.set k (.committed j nodes) with
          etcd := w.etcd.putAll (extentPuts j.streamID extentIDs j.extentID nodes) }
  | addExtent {j : Job} {nodes : List ℕ} (hl : w.streamLock = none) :
      CallMove clones w k (.committed j nodes)
        { w.set k .done with
          mem := w.mem.addExtent j.streamID ⟨j.extentID, nodes⟩
          acked := w.acked ++ [(j.streamID, j.extentID)] }
  | keep {s e : ℕ} : CallMove clones w k (.truncate s e) (w.set k .done)
  | cutting {s e : ℕ} {info : StreamInfo} (hl : w.streamLock = none)
      (hinfo : w.mem.streams s = some info) (hi : truncateIndex e info.extentIDs ≠ 0) :
      CallMove clones w k (.truncate s e)
        { w.set k (.cutting s info.extentIDs (truncateIndex e info.extentIDs)) with
          streamLock := some k }
  | cut {s i : ℕ} {extentIDs : List ℕ} :
      CallMove clones w k (.cutting s extentIDs i)
        { w.set k (.cut s extentIDs i) with
          etcd := w.etcd.put (.streams s) (.streamInfo ⟨s, extentIDs.drop i⟩)
          removed := w.removed ++ (extentIDs.take i).map fun e => (s, e) }
  | unlock {s i : ℕ} {extentIDs : List ℕ} :
      CallMove clones w k (.cut s extentIDs i)
        { w.set k .done with
          mem := w.mem.setStream s ⟨s, extentIDs.drop i⟩
          streamLock := none }
  | check {addr : String} : CallMove clones w k (.registerNode addr) (w.set k (.checked addr))
  | number {addr : String} :
      CallMove clones w k (.checked addr)
        { w.set k (.numbered addr w.nextID) with nextID := w.nextID + 1 }
  | register {addr : String} {id : ℕ} :
      CallMove clones w k (.numbered addr id)
        { w.set k (.registered addr id) with
          etcd := w.etcd.put (.nodes id) (.nodeInfo ⟨id, addr⟩) }
  | addNode {addr : String} {id : ℕ} :
      CallMove clones w k (.registered addr id)
        { w.set k .done with mem := w.mem.addNode id addr }

theorem isSome_of_getAppendExtentsAddr {m : Memory} {s : ℕ} {last : Option ℕ}
    (h : m.getAppendExtentsAddr s = some last) : (m.streams s).isSome := by
  obtain ⟨info, hinfo, -⟩ := bind_eq_some_iff.mp h
  rw [hinfo]
  rfl

theorem callMove_of_callStep {clones : Bool} {w w' : World} {k : ℕ} {c : Call} {i : Input}
    (hs : callStep clones w k c i = some w') : CallMove clones w k c w' := by
  unfold callStep at hs
  split at hs
  case h_3 s e =>
    split_ifs at hs
    obtain ⟨last, hlast, rfl⟩ := map_eq_some_iff.mp hs
    split_ifs
    · exact .receive (isSome_of_getAppendExtentsAddr hlast)
    · exact .fail rfl
  case h_7 j nodes =>
    split_ifs at hs with hn
    exact some.inj hs ▸ .choose hn
  case h_10 j nodes =>
    split_ifs at hs with hj hc
    · exact some.inj hs ▸ .begin hj
    · obtain ⟨info, hinfo, rfl⟩ := map_eq_some_iff.mp hs
      exact .clone (by simpa using hj) hc.1 hinfo
  case h_12 j nodes =>
    split_ifs at hs with hl
    exact some.inj hs ▸ .addExtent hl
  case h_13 s e =>
    split_ifs at hs with hl
    split at hs
    next => exact some.inj hs ▸ .fail rfl
    next info hinfo =>
      split_ifs at hs with hi
      · exact some.inj hs ▸ .keep
      · exact some.inj hs ▸ .cutting hl hinfo hi
  case h_16 addr =>
    cases hs
    split_ifs
    · exact .fail rfl
    · exact .check
  case h_21 => cases hs
  all_goals
    cases hs
    first | exact .fail rfl | constructor

/-! ## What a transaction does to the maps that would be loaded -/

theorem runAsLeader_extentPuts (s : Store) (streamID : ℕ) (extentIDs : List ℕ) (extentID : ℕ)
    (nodes : List ℕ) :
    runAsLeader (s.putAll (extentPuts streamID extentIDs extentID nodes)) =
      ((runAsLeader s).setExtent ⟨extentID, nodes⟩).setStream streamID
        ⟨streamID, extentIDs ++ [extentID]⟩ := by
  simp only [runAsLeader, Memory.setExtent, Memory.setStream, extentPuts, Store.putAll,
    List.foldl_cons, List.foldl_nil, Store.put, Memory.mk.injEq]
  refine ⟨funext fun id => ?_, funext fun id => ?_, funext fun id => ?_⟩
  · by_cases h : id = streamID
    · subst h
      simp [asStream]
    · simp [update_of_ne, h]
  · by_cases h : id = extentID
    · subst h
      simp [asExtent]
    · simp [update_of_ne, h]
  · simp [update_of_ne]

theorem runAsLeader_put_streams (s : Store) (id : ℕ) (info : StreamInfo) :
    runAsLeader (s.put (.streams id) (.streamInfo info)) = (runAsLeader s).setStream id info := by
  simp only [runAsLeader, Memory.setStream, Store.put, Memory.mk.injEq]
  refine ⟨funext fun i => ?_, funext fun i => ?_, funext fun i => ?_⟩
  · by_cases h : i = id
    · subst h
      simp [asStream]
    · simp [update_of_ne, h]
  · simp [update_of_ne]
  · simp [update_of_ne]

theorem runAsLeader_put_nodes (s : Store) (id : ℕ) (addr : String) :
    runAsLeader (s.put (.nodes id) (.nodeInfo ⟨id, addr⟩)) = (runAsLeader s).addNode id addr := by
  simp only [runAsLeader, Store.put, Memory.addNode, Memory.mk.injEq]
  refine ⟨funext fun i => ?_, funext fun i => ?_, funext fun i => ?_⟩
  · simp [update_of_ne]
  · simp [update_of_ne]
  · by_cases h : i = id
    · subst h
      simp [asNode]
    · simp [update_of_ne, h]

end Metadata
end StreamManager
end Autumn
