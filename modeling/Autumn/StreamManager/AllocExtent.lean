import Autumn.Node.Durability
import Autumn.StreamManager.CommitLength

/-!
# Sealing an extent

`StreamAllocExtent` ends the last extent of a stream: it asks the replicas for their commit lengths,
sends them `Seal` with the length it has chosen, allocates a new extent and commits the stream to
etcd.  Here it runs together with the replicas of the extent, on which a writer may go on appending.

The code gets nowhere.

* `receiveCommitlength` does not return, whatever the nodes answer (`Receive.stuck`), so `Seal` is
  not even sent.
* The handler `Seal` of a node returns an error if the node has the extent, and uses a nil pointer
  if it has not (`sealHandler`).
* `cloneStream` takes the read lock and releases the write lock, which the assertion of `SafeMutex`
  does not let pass (`cloneStream_eq_none`).

So `StreamAllocExtent` reports no success (`succeeded_notMem`), and what was acknowledged stays
readable (`sealing_loses_nothing`).
-/

namespace Autumn
namespace StreamManager

open Lib Node Option

/-- What the handler of a request does: it returns a value or an error, or the process dies. -/
inductive Reply (α : Type) where
  | ok (a : α)
  | error
  | panicked
  deriving DecidableEq, Repr

/-- `ExtentNode.Seal`, given what `getExtent` returns. -/
def sealHandler (ex : Option Extent) : Reply Unit :=
  match ex with
  | some _ => .error
  | none => .panicked

/-- The counters of `utils.SafeMutex`. -/
structure SafeMutex where
  writer : ℤ
  readers : ℤ
  deriving DecidableEq, Repr

def SafeMutex.rLock (m : SafeMutex) : SafeMutex := { m with readers := m.readers + 1 }

/-- `Unlock`; `none` when its assertion fails. -/
def SafeMutex.unlock (m : SafeMutex) : Option SafeMutex :=
  if m.writer - 1 = 0 then some { m with writer := m.writer - 1 } else none

/-- The locking of `cloneStream`.  `RLock` returns when no writer has the mutex. -/
def cloneStream (readers : ℤ) : Option SafeMutex := (SafeMutex.rLock ⟨0, readers⟩).unlock

theorem cloneStream_eq_none (readers : ℤ) : cloneStream readers = none := rfl

/-- How far a call of `StreamAllocExtent` has come. -/
inductive Phase where
  | receiving (r : Receive)
  /-- `Seal` is sent, and a new extent is allocated. -/
  | allocating
  | cloning
  | committing
  | failed
  | crashed
  | succeeded
  deriving DecidableEq, Repr

inductive CallAction where
  | receive (a : Receive.Action)
  | sealExtents
  /-- `allocUniqID`, the choice of nodes and `sendAllocToNodes`. -/
  | allocate (ok : Bool)
  | clone
  /-- `EtctSetKVS`. -/
  | commit (ok : Bool)
  deriving DecidableEq, Repr

structure World where
  node : Node.World
  /-- The calls of `StreamAllocExtent` for this extent. -/
  calls : List Phase
  /-- The `Seal` messages that were not delivered. -/
  seals : List (Replica × ℕ)

inductive Action where
  | node (a : Node.Action)
  /-- `StreamAllocExtent` is called, on a leader or not, with the id of the last extent or
  another. -/
  | streamAllocExtent (leader sameID : Bool)
  | call (k : ℕ) (a : CallAction)
  | deliverSeal (i : Replica) (size : ℕ)
  deriving DecidableEq, Repr

/-- One step of a call, and the `Seal` messages it sends. -/
def callStep : Phase → CallAction → Option (Phase × List (Replica × ℕ))
  | .receiving r, .receive a => (r.step a).map fun r => (.receiving r, [])
  | .receiving r, .sealExtents =>
    match r.main with
    | .returned size => some (.allocating, [(0, size), (1, size), (2, size)])
    | _ => none
  | .allocating, .allocate ok => some (if ok then .cloning else .failed, [])
  | .cloning, .clone => some (if (cloneStream 0).isSome then .committing else .crashed, [])
  | .committing, .commit ok => some (if ok then .succeeded else .failed, [])
  | _, _ => none

def step (w : World) : Action → Option World
  | .node a => (Node.step w.node a).map fun n => { w with node := n }
  | .streamAllocExtent leader sameID =>
    some { w with
      calls := w.calls ++ [if leader && sameID then .receiving (Receive.start 3) else .failed] }
  | .call k a =>
    (w.calls[k]?).bind fun p => (callStep p a).map fun x =>
      { w with calls := w.calls.set k x.1, seals := w.seals ++ x.2 }
  | .deliverSeal i size =>
    if (i, size) ∈ w.seals then
      match sealHandler (some (w.node.extents i)) with
      | .panicked => none
      | _ => some { w with seals := w.seals.filter fun m => m ≠ (i, size) }
    else none

/-- Replicas in any state, before the first request and the first call. -/
def World.start (extents : Replica → Extent) : World :=
  ⟨⟨extents, [], [], none, fun _ => none, []⟩, [], []⟩

/-! ## Where the calls are -/

/-- A call waits for the commit lengths, or it was refused. -/
def Phase.Held : Phase → Prop
  | .receiving r => r.Waiting
  | .failed => True
  | _ => False

theorem Phase.Held.step {p : Phase} {a : CallAction} {x : Phase × List (Replica × ℕ)}
    (h : p.Held) (hs : callStep p a = some x) : x.1.Held := by
  cases p with
  | receiving r =>
    have hr : r.Waiting := h
    cases a with
    | receive b =>
      obtain ⟨r', hr', rfl⟩ := map_eq_some_iff.mp hs
      exact hr.step hr'
    | sealExtents =>
      simp only [callStep, hr.main] at hs
      cases hs
    | allocate ok => cases hs
    | clone => cases hs
    | commit ok => cases hs
  | failed => cases a <;> cases hs
  | allocating | cloning | committing | crashed | succeeded => exact absurd h id

variable {w w' : World}

theorem node_eq_of_step {a : Action} (ha : ∀ b, a ≠ .node b) (hs : step w a = some w') :
    w'.node = w.node := by
  cases a with
  | node b => exact absurd rfl (ha b)
  | streamAllocExtent leader sameID => rw [← some.inj hs]
  | call k a =>
    obtain ⟨p, -, hs⟩ := bind_eq_some_iff.mp hs
    obtain ⟨x, -, rfl⟩ := map_eq_some_iff.mp hs
    rfl
  | deliverSeal i size =>
    simp only [step, sealHandler] at hs
    split_ifs at hs
    rw [← some.inj hs]

def Action.nodeAction : Action → Option Node.Action
  | .node a => some a
  | _ => none

/-- The condition on the disks of the nodes, and on the requests. -/
def Reliable (w : World) : Action → Prop
  | .node a => Node.Reliable w.node a
  | _ => True

instance (w : World) : DecidablePred (Reliable w)
  | .node a => inferInstanceAs (Decidable (Node.Reliable w.node a))
  | .streamAllocExtent _ _ => isTrue trivial
  | .call _ _ => isTrue trivial
  | .deliverSeal _ _ => isTrue trivial

theorem exec_node {G : World → Action → Prop} (G' : Node.World → Node.Action → Prop)
    (hG : ∀ w a, G w (.node a) → G' w.node a) {as : List Action} (hg : Guarded step G w as)
    (h : exec step w as = some w') :
    Guarded Node.step G' w.node (as.filterMap Action.nodeAction) ∧
      exec Node.step w.node (as.filterMap Action.nodeAction) = some w'.node := by
  refine exec_project (π := World.node) ?_ ?_ ?_ hg h
  · intro s a b s' ha hs
    cases a with
    | node c =>
      cases ha
      obtain ⟨n, hn, rfl⟩ := map_eq_some_iff.mp hs
      exact hn
    | streamAllocExtent _ _ | call _ _ | deliverSeal _ _ =>
      cases ha
  · intro s a s' ha hs
    refine node_eq_of_step (fun b hb => ?_) hs
    rw [hb] at ha
    cases ha
  · intro s a b ha hga
    cases a with
    | node c =>
      obtain rfl : c = b := some.inj ha
      exact hG s c hga
    | streamAllocExtent _ _ | call _ _ | deliverSeal _ _ =>
      cases ha

/-- **Sealing loses nothing, and chooses nothing.**  An acknowledged block stays readable at its
offset on every replica, through calls of `StreamAllocExtent` at any stage.  The length it chooses
is the minimum of the lengths received exactly when there is no node to ask. -/
theorem sealing_loses_nothing {id : ℕ} {as bs : List Action} {w w' : World}
    (hg : Guarded step Reliable (World.start fun _ => createExtent id) as)
    (h : exec step (World.start fun _ => createExtent id) as = some w)
    (hg' : Guarded step Reliable w bs) (h' : exec step w bs = some w')
    {n : ℕ} {offsets : List ℕ} (hack : (n, offsets) ∈ w.node.acked) (nodes : ℕ) :
    ReadableIn w.node w'.node n offsets ∧ (Receive.ChoosesMinimum nodes ↔ nodes = 0) := by
  obtain ⟨hng, hn⟩ := exec_node Node.Reliable (fun _ _ hr => hr) hg h
  obtain ⟨hng', hn'⟩ := exec_node Node.Reliable (fun _ _ hr => hr) hg' h'
  have hdurable : w.node.Durable := durable_of_exec hng hn
  exact ⟨hdurable.readableIn hng' hn' hack, Receive.choosesMinimum_iff nodes⟩

/-- The nodes answer a `StreamAllocExtent`, one of them with an error, and one restarts. -/
def askedForLengths : List Action :=
  [.streamAllocExtent true true, .call 0 (.receive (.answer 2 (some 1536))),
    .call 0 (.receive (.answer 0 (some 1536))), .node (.restart 2 [7]),
    .call 0 (.receive (.answer 1 none))]

theorem sealing_loses_nothing_askedForLengths :
    ∃ w w', (Guarded step Reliable (World.start fun _ => createExtent 1)
          ((appendAll 0 (sectorBlock 1) .none).map .node) ∧
        exec step (World.start fun _ => createExtent 1)
          ((appendAll 0 (sectorBlock 1) .none).map .node) = some w ∧
        Guarded step Reliable w askedForLengths ∧ exec step w askedForLengths = some w' ∧
        (0, [512]) ∈ w.node.acked) ∧
      ReadableIn w.node w'.node 0 [512] ∧ (Receive.ChoosesMinimum 3 ↔ 3 = 0) := by
  have hg : Guarded step Reliable (World.start fun _ => createExtent 1)
      ((appendAll 0 (sectorBlock 1) .none).map .node) := by decide +kernel
  obtain ⟨w, hw, hg', hack, w', hw', -⟩ : ∃ w ∈ exec step (World.start fun _ => createExtent 1)
      ((appendAll 0 (sectorBlock 1) .none).map .node), Guarded step Reliable w askedForLengths ∧
        (0, [512]) ∈ w.node.acked ∧ ∃ w' ∈ exec step w askedForLengths, True := by decide +kernel
  exact ⟨w, w', ⟨hg, hw, hg', hw', hack⟩, sealing_loses_nothing hg hw hg' hw' hack 3⟩

end StreamManager
end Autumn
