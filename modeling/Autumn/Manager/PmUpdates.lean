import Autumn.Manager.Etcd
import Autumn.Manager.PartitionMeta

/-!
# Requests to the partition manager and the outcomes of their transactions

`Bootstrap` and `SetRowStreamTables` write to etcd, look at the error of `EtctSetKVS` or do not, and
then change the map in memory.  `EtctSetKVS` returns nil for a transaction that was refused, and
dies of one without an answer.  Whether a partition exists is not asked before its tables are
written.
-/

namespace Autumn
namespace Manager
namespace PmUpdates

open Lib Pspb Option Function

/-! ## The handlers -/

/-- What becomes of a transaction; one without an answer may have landed. -/
inductive Txn where
  | applied
  | refused
  | error (landed : Bool)
  deriving DecidableEq, Repr

def Txn.isApplied : Txn → Bool
  | .applied => true
  | .refused => false
  | .error landed => landed

/-- What `Commit` returns. -/
def Txn.result : Txn → CommitResult
  | .applied => .response true
  | .refused => .response false
  | .error _ => .error

/-- A request; `alloc` is what `allocUniqID` returns, and the message of the locations may be
missing. -/
inductive Request where
  | bootstrap (alloc : Option UInt64) (logID rowID parent : UInt64)
  | setRowStreamTables (partitionID : UInt64) (locs : Option (List Location))
  deriving DecidableEq, Repr

inductive Reply where
  | success
  | failure
  /-- There is none: the process has died. -/
  | panicked
  deriving DecidableEq, Repr

/-- What a request leaves, and whether a transaction of it was applied. -/
structure After where
  pm : PartitionManager
  applied : Bool
  reply : Reply

/-- `Bootstrap` with its number: the error of the transaction is not looked at. -/
def bootstrap (pm : PartitionManager) (txn : Txn) (partID logID rowID parent : UInt64) : After :=
  let new := pm.bootstrap partID logID rowID parent
  let etcd := if txn.isApplied then new.etcd else pm.etcd
  match etctSetKVS txn.result with
  | .panicked => ⟨⟨etcd, pm.partMeta⟩, txn.isApplied, .panicked⟩
  | .returned _ => ⟨⟨etcd, new.partMeta⟩, txn.isApplied, .success⟩

/-- `SetRowStreamTables` from its transaction on: the record of the partition is a nil pointer if
there is none. -/
def setRowStreamTables (pm : PartitionManager) (txn : Txn) (partitionID : UInt64)
    (locs : List Location) :
    After :=
  let etcd := if txn.isApplied then pm.etcd.insert (partKey partitionID .tables) (marshalLocs locs)
    else pm.etcd
  match etctSetKVS txn.result with
  | .panicked => ⟨⟨etcd, pm.partMeta⟩, txn.isApplied, .panicked⟩
  | .returned (some _) => ⟨⟨etcd, pm.partMeta⟩, txn.isApplied, .failure⟩
  | .returned none =>
    match pm.partMeta partitionID with
    | none => ⟨⟨etcd, pm.partMeta⟩, txn.isApplied, .panicked⟩
    | some m => ⟨⟨etcd, Function.update pm.partMeta partitionID
      (some { m with locs := some locs })⟩,
        txn.isApplied, .success⟩

/-- A request at a manager that is the leader or is not. -/
def serve (pm : PartitionManager) (leader : Bool) (txn : Txn) : Request → After
  | .bootstrap alloc logID rowID parent =>
    match leader, alloc with
    | true, some partID => bootstrap pm txn partID logID rowID parent
    | _, _ => ⟨pm, false, .failure⟩
  | .setRowStreamTables partitionID locs =>
    match leader, locs with
    | false, _ => ⟨pm, false, .failure⟩
    | true, none => ⟨pm, false, .panicked⟩
    | true, some locs =>
      if locs = [] ∨ partitionID = 0 then ⟨pm, false, .failure⟩
      else setRowStreamTables pm txn partitionID locs

/-! ## All or nothing -/

/-- The request is about the tables of a partition that does not exist. -/
def Request.Unknown (pm : PartitionManager) : Request → Prop
  | .bootstrap .. => False
  | .setRowStreamTables partitionID _ => pm.partMeta partitionID = none

structure AllOrNothing (pm : PartitionManager) (req : Request) (r : After) : Prop where
  returns : r.reply ≠ .panicked
  success_iff : r.reply = .success ↔ r.applied = true
  memory : r.applied = false → r.pm.partMeta = pm.partMeta
  unknown : req.Unknown pm → r.pm = pm

/-- The request is turned down, or its transaction is applied and its partition is there. -/
def Safe (pm : PartitionManager) (leader : Bool) (txn : Txn) : Request → Prop
  | .bootstrap alloc .. => leader = false ∨ alloc = none ∨ txn = .applied
  | .setRowStreamTables partitionID locs => leader = false ∨ ∃ l, locs = some l ∧
      ((l = [] ∨ partitionID = 0) ∨ txn = .applied ∧ pm.partMeta partitionID ≠ none)

variable {pm : PartitionManager} {txn : Txn}

/-- A request that is turned down has done nothing. -/
theorem allOrNothing_failure (req : Request) : AllOrNothing pm req ⟨pm, false, .failure⟩ :=
  ⟨by simp, by simp, fun _ => rfl, fun _ => rfl⟩

theorem allOrNothing_success {req : Request} (hknown : ¬ req.Unknown pm) (pm' : PartitionManager) :
    AllOrNothing pm req ⟨pm', true, .success⟩ :=
  ⟨by simp, by simp, by simp, fun h => absurd h hknown⟩

theorem allOrNothing_bootstrap_iff {alloc : Option UInt64} (partID logID rowID parent : UInt64) :
    AllOrNothing pm (.bootstrap alloc logID rowID parent)
    (bootstrap pm txn partID logID rowID parent) ↔
      txn = .applied := by
  constructor
  · intro h
    cases txn with
    | applied => rfl
    | refused => exact absurd (h.success_iff.mp rfl) Bool.false_ne_true
    | error landed => exact absurd rfl h.returns
  · rintro rfl
    exact allOrNothing_success id _

theorem allOrNothing_setRowStreamTables_iff (partitionID : UInt64) (locs : List Location)
    {l : Option (List Location)} :
    AllOrNothing pm (.setRowStreamTables partitionID l)
        (setRowStreamTables pm txn partitionID locs) ↔
      txn = .applied ∧ pm.partMeta partitionID ≠ none := by
  cases hm : pm.partMeta partitionID with
  | none =>
    -- There is no record to change: the process dies, whatever the transaction has done.
    refine iff_of_false (fun h => h.returns ?_) (by simp)
    rw [setRowStreamTables, hm]
    cases txn <;> rfl
  | some m =>
    have hknown : ¬ (Request.setRowStreamTables partitionID l).Unknown pm :=
      fun h => absurd (hm.symm.trans h) (by simp)
    rw [setRowStreamTables, hm]
    constructor
    · intro h
      cases txn with
      | applied => exact ⟨rfl, by simp⟩
      | refused => exact absurd (h.success_iff.mp rfl) Bool.false_ne_true
      | error landed => exact absurd rfl h.returns
    · rintro ⟨rfl, -⟩
      exact allOrNothing_success hknown _

theorem allOrNothing_serve_iff (leader : Bool) (req : Request) :
    AllOrNothing pm req (serve pm leader txn req) ↔ Safe pm leader txn req := by
  cases req with
  | bootstrap alloc logID rowID parent =>
    cases leader with
    | false => exact iff_of_true (allOrNothing_failure _) (.inl rfl)
    | true =>
      cases alloc with
      | none => exact iff_of_true (allOrNothing_failure _) (.inr (.inl rfl))
      | some partID =>
        simpa [Safe, serve] using allOrNothing_bootstrap_iff partID logID rowID parent
  | setRowStreamTables partitionID locs =>
    cases leader with
    | false => exact iff_of_true (allOrNothing_failure _) (.inl rfl)
    | true =>
      cases locs with
      | none => exact iff_of_false (fun h => h.returns rfl) (by simp [Safe])
      | some locs =>
        by_cases hreq : locs = [] ∨ partitionID = 0
        · rw [serve, if_pos hreq]
          exact iff_of_true (allOrNothing_failure _) (.inr ⟨locs, rfl, .inl hreq⟩)
        · rw [serve, if_neg hreq, allOrNothing_setRowStreamTables_iff]
          simp [Safe, hreq]

/-! ## What is loaded -/

inductive Event where
  | request (leader : Bool) (txn : Txn) (req : Request)
  | put (key value : Bytes)
  | elect

/-- The number that `Bootstrap` gets is not zero and was not used before. -/
def Request.Fresh (pm : PartitionManager) : Request → Prop
  | .bootstrap (some partID) .. => partID ≠ 0 ∧ pm.partMeta partID = none
  | _ => True

instance (pm : PartitionManager) : DecidablePred (Request.Fresh pm)
  | .bootstrap (some partID) .. =>
    inferInstanceAs (Decidable (partID ≠ 0 ∧ pm.partMeta partID = none))
  | .bootstrap none .. | .setRowStreamTables .. => isTrue trivial

/-- A run ends when the process dies. -/
def step (pm : PartitionManager) : Event → Option PartitionManager
  | .request leader txn req =>
    if req.Fresh pm ∧ (serve pm leader txn req).reply ≠ .panicked then
      some (serve pm leader txn req).pm
    else none
  | .put key value => pm.step (.put key value)
  | .elect => pm.step .elect

def Event.Safe (pm : PartitionManager) : Event → Prop
  | .request leader txn req => PmUpdates.Safe pm leader txn req
  | _ => True

/-- Every partition in the map has a range. -/
def Ranged (parts : Parts) : Prop := ∀ id m, parts id = some m → m.rg ≠ none

theorem Ranged.update {parts : Parts} (h : Ranged parts) {m₀ : PartitionMeta} (hm₀ : m₀.rg ≠ none)
    (id₀ : UInt64) : Ranged (update parts id₀ (some m₀)) := by
  intro id m hid
  by_cases heq : id = id₀
  · rw [heq, update_self] at hid
    exact some.inj hid ▸ hm₀
  · rw [update_of_ne heq] at hid
    exact h id m hid

theorem Ranged.step {pm' : PartitionManager} (hm : pm.Mirrors) (h : Ranged pm.partMeta)
    {e : PartitionManager.Event} (hs : pm.step e = some pm') : Ranged pm'.partMeta := by
  cases e with
  | bootstrap partID logID rowID parent =>
    obtain ⟨-, hpm⟩ := ite_none_right_eq_some.mp hs
    exact some.inj hpm ▸ h.update (by simp) partID
  | setRowStreamTables partitionID locs =>
    rw [PartitionManager.step, PartitionManager.setRowStreamTables] at hs
    split_ifs at hs
    · exact some.inj hs ▸ h
    · obtain ⟨m₀, hm₀, rfl⟩ := map_eq_some_iff.mp hs
      have hrg : ({ m₀ with locs := some locs } : PartitionMeta).rg ≠ none := h partitionID m₀ hm₀
      exact h.update hrg partitionID
  | put key value =>
    obtain ⟨-, hpm⟩ := ite_none_left_eq_some.mp hs
    exact some.inj hpm ▸ h
  | elect =>
    obtain ⟨partMeta, hload, rfl⟩ := map_eq_some_iff.mp hs
    cases hm.parseParts.symm.trans hload
    exact h

/-- A safe request does nothing or what it does with a transaction that succeeds. -/
theorem serve_eq_or_step {leader : Bool} {req : Request} (hsafe : Safe pm leader txn req)
    (hfresh : req.Fresh pm) : (serve pm leader txn req).pm = pm ∨
      ∃ e, pm.step e = some (serve pm leader txn req).pm := by
  cases req with
  | bootstrap alloc logID rowID parent =>
    rcases hsafe with rfl | rfl | rfl
    · exact .inl rfl
    · cases leader <;> exact .inl rfl
    · cases leader with
      | false => exact .inl rfl
      | true =>
        cases alloc with
        | none => exact .inl rfl
        | some partID => exact .inr ⟨.bootstrap partID logID rowID parent, if_pos hfresh⟩
  | setRowStreamTables partitionID locs =>
    rcases hsafe with rfl | ⟨l, rfl, hreq | ⟨rfl, hknown⟩⟩
    · exact .inl rfl
    · cases leader with
      | false => exact .inl rfl
      | true => exact .inl (by rw [serve, if_pos hreq])
    · cases leader with
      | false => exact .inl rfl
      | true =>
        by_cases hreq : l = [] ∨ partitionID = 0
        · exact .inl (by rw [serve, if_pos hreq])
        · obtain ⟨m, hm⟩ := ne_none_iff_exists'.mp hknown
          refine .inr ⟨.setRowStreamTables partitionID l, ?_⟩
          rw [PartitionManager.step, PartitionManager.setRowStreamTables, if_neg hreq, serve,
            if_neg hreq, setRowStreamTables, hm]
          rfl

theorem loaded_has_range {events : List Event} (hrun : exec step .init events = some pm)
    (hsafe : Guarded step Event.Safe .init events) :
    ∃ parts, parseParts (etcdRange pm.etcd partPrefix) = some parts ∧ Ranged parts := by
  have hinv : pm.Mirrors ∧ Ranged pm.partMeta := by
    refine exec_invariant (I := fun pm => pm.Mirrors ∧ Ranged pm.partMeta) ?_
      ⟨PartitionManager.Mirrors.init, fun id m h => by cases h⟩ hsafe hrun
    rintro pm e pm' ⟨hm, hr⟩ hG hs
    obtain rfl | ⟨e', he⟩ : pm' = pm ∨ ∃ e', pm.step e' = some pm' := by
      cases e with
      | request leader txn req =>
        obtain ⟨⟨hfresh, -⟩, hpm⟩ := ite_none_right_eq_some.mp hs
        exact some.inj hpm ▸ serve_eq_or_step hG hfresh
      | put key value => exact .inr ⟨.put key value, hs⟩
      | elect => exact .inr ⟨.elect, hs⟩
    · exact ⟨hm, hr⟩
    · exact ⟨hm.step he, Ranged.step hm hr he⟩
  exact ⟨pm.partMeta, hinv.1.parseParts, hinv.2⟩

/-- **Requests are all or nothing just if they are safe**: turned down, or applied for a partition
that exists.  If all requests are, every leader loads partitions with ranges only. -/
theorem allOrNothing_iff (pm : PartitionManager) (leader : Bool) (txn : Txn) (req : Request) :
    (AllOrNothing pm req (serve pm leader txn req) ↔ Safe pm leader txn req) ∧
      ∀ events pm, exec step .init events = some pm → Guarded step Event.Safe .init events →
        ∃ parts, parseParts (etcdRange pm.etcd partPrefix) = some parts ∧ Ranged parts :=
  ⟨allOrNothing_serve_iff leader req, fun _ _ => loaded_has_range⟩

/-- A partition is bootstrapped, and a leader is elected. -/
theorem allOrNothing_bootstrapped : ∃ pm parts,
    exec step .init [.request true .applied (.bootstrap (some 1) 2 3 4), .elect] = some pm ∧
      parseParts (etcdRange pm.etcd partPrefix) = some parts ∧ Ranged parts := by
  obtain ⟨pm, hpm, -⟩ : ∃ pm ∈ exec step .init
      [.request true .applied (.bootstrap (some 1) 2 3 4), .elect], True := by decide +kernel
  obtain ⟨parts, hparts⟩ := (allOrNothing_iff pm true .applied (.bootstrap none 2 3 4)).2 _ pm hpm
    ⟨.inr (.inr rfl), fun _ _ => ⟨trivial, fun _ _ => trivial⟩⟩
  exact ⟨pm, parts, hpm, hparts⟩

/-- **A refused `Bootstrap` is reported as a success** and is in the map, but not in etcd.  **Tables
of a partition that does not exist** are written before the process dies, and the next leader loads
a partition without a range. -/
theorem half_done :
    (∃ r, serve .init true .refused (.bootstrap (some 1) 2 3 4) = r ∧ r.reply = .success ∧
        r.applied = false ∧ r.pm.etcd = SortedMap.empty ∧ r.pm.partMeta 1 ≠ none) ∧
      ∃ r, serve .init true .applied (.setRowStreamTables 7 (some [⟨9, 0⟩])) = r ∧
        r.reply = .panicked ∧ ∃ parts, parseParts (etcdRange r.pm.etcd partPrefix) = some parts ∧
          ∃ m, parts 7 = some m ∧ m.rg = none := by
  refine ⟨⟨_, rfl, rfl, rfl, rfl, by decide⟩, _, rfl, rfl, ?_⟩
  decide +kernel

end PmUpdates
end Manager
end Autumn
