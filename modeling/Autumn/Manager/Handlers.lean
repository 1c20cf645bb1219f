import Autumn.StreamManager.Policy
import Autumn.Manager.PmUpdates
import Autumn.Manager.UniqID

/-!
# Which requests the servers survive

The handlers of the managers and of a node look records up and use what they find.  Some ask first
whether it is there, some ask afterwards, and some do not ask.

`SetRowStreamTables` is in `PmUpdates`.
-/

namespace Autumn
namespace Handlers

open Lib Manager StreamManager Metadata

/-- How a request ends, and what it leaves. -/
inductive Ended (ρ σ : Type*) where
  | response (res : ρ) (after : σ)
  | error (after : σ)
  /-- Response and error are both nil. -/
  | neither
  | panicked
  | stuck

/-- There is a response or an error, and behind an error nothing has changed. -/
def Ended.Total {ρ σ : Type*} (unchanged : σ → Prop) : Ended ρ σ → Prop
  | .response _ _ => True
  | .error after => unchanged after
  | .neither | .panicked | .stuck => False

/-! ## A stream manager -/

/-- What is in etcd, with the counter of the numbers apart, and the maps. -/
structure Leader where
  etcd : Store
  counter : Option UInt64
  mem : Memory

/-- How `EtcdAllocUniqID` goes: the counter is not read, or it is, and `Commit` ends in some way. -/
inductive Alloc where
  | unread
  | commit (answer : UniqID.Answer)
  deriving DecidableEq

/-- `allocUniqID`: the counter afterwards, and the first of the numbers or an error. -/
def allocUniqID (counter : Option UInt64) (count : UInt64) : Alloc → Option UInt64 × Option UInt64
  | .unread => (counter, none)
  | .commit .response => (UniqID.commit counter counter count, some (UniqID.curr counter))
  | .commit (.error made) => (if made then UniqID.commit counter counter count else counter, none)

/-- What a request meets. -/
structure Env (U : Type*) [LinearOrder U] (mem : Memory) where
  leader : Bool
  /-- The streams in the order in which a loop over the map finds them. -/
  streamIDs : List ℕ
  listed : ∀ id ∈ streamIDs, (mem.streams id).isSome
  alloc : Alloc
  /-- What `cloneNodeStatus` returns. -/
  nodes : List (NodeStatus U)
  sort : SliceSort (NodeStatus U) less
  /-- `sendAllocToNodes` returns nil. -/
  sent : Bool
  txn : PmUpdates.Txn

inductive Request where
  /-- Of all streams, if the list is empty. -/
  | streamInfo (streamIDs : List ℕ)
  | createStream
  | streamAllocExtent (streamID extentToSeal : ℕ)

inductive Response where
  | streams (streams : List (ℕ × StreamInfo)) (extents : List (ℕ × Option ExtentInfo))
  | created (stream : StreamInfo)
  | allocated (streamID : ℕ) (extent : ExtentInfo)

/-- The loop of `StreamInfo`, which uses a stream without a look; an extent may be nil. -/
def streamInfoLoop (m : Memory) :
    List ℕ → Option (List (ℕ × StreamInfo) × List (ℕ × Option ExtentInfo))
  | [] => some ([], [])
  | id :: ids => (m.streams id).bind fun info => (streamInfoLoop m ids).map fun res =>
      ((id, info) :: res.1, info.extentIDs.map (fun e => (e, m.extents e)) ++ res.2)

variable {U : Type*} [LinearOrder U]

/-- From `allocUniqID` to `sendAllocToNodes`, and then `next` with the first number and the
nodes. -/
def allocate (l : Leader) (env : Env U l.mem) (count : UInt64)
    (next : Leader → UInt64 → List ℕ → Ended Response Leader) : Ended Response Leader :=
  match allocUniqID l.counter count env.alloc with
  | (counter, none) => .error { l with counter := counter }
  | (counter, some start) =>
    match allocExtent env.sort env.nodes 3 [] with
    | none => .panicked
    | some (.error _) => .error { l with counter := counter }
    | some (.ok nodes) =>
      if env.sent then next { l with counter := counter } start (nodes.map fun n => n.nodeID)
      else .error { l with counter := counter }

/-- The transaction with which a stream gets an extent, and `addExtent`. -/
def commitExtent (l : Leader) (txn : PmUpdates.Txn) (streamID : ℕ) (extentIDs : List ℕ)
    (extent : ExtentInfo) (res : Response) : Ended Response Leader :=
  let etcd := if txn.isApplied then
    l.etcd.putAll (extentPuts streamID extentIDs extent.extentID extent.replicates) else l.etcd
  match etctSetKVS txn.result with
  | .panicked => .panicked
  | .returned (some _) => .error { l with etcd := etcd }
  | .returned none => .response res { l with etcd := etcd, mem := l.mem.addExtent streamID extent }

/-- There is a node `receiveCommitlength` asks. -/
def asks (m : Memory) (extentID : ℕ) : Bool := (m.extents extentID).any fun x => x.replicates ≠ []

def serve (l : Leader) (env : Env U l.mem) (req : Request) : Ended Response Leader :=
  if env.leader then
    match req with
    | .streamInfo ids =>
      match streamInfoLoop l.mem (if ids = [] then env.streamIDs else ids) with
      | none => .panicked
      | some res => .response (.streams res.1 res.2) l
    | .createStream => allocate l env 2 fun l start nodes =>
        commitExtent l env.txn start.toNat [] ⟨(start + 1).toNat, nodes⟩
          (.created ⟨start.toNat, [(start + 1).toNat]⟩)
    | .streamAllocExtent s e =>
      match l.mem.getAppendExtentsAddr s with
      | none => .panicked
      | some none => .error l
      | some (some id) =>
        if id ≠ e then .error l
        -- `receiveCommitlength` does not return if there is a node to ask (`Receive.stuck`).
        else if asks l.mem id then .stuck
        else allocate l env 1 fun l start nodes =>
          match cloneStream 0, l.mem.streams s with
          | some _, some info => commitExtent l env.txn s info.extentIDs ⟨start.toNat, nodes⟩
              (.allocated s ⟨start.toNat, nodes⟩)
          | _, _ => .panicked
  else .error l

/-! ## A node -/

inductive NodeRequest where
  | append (extentID : ℕ) (blocks : List Block) (peers : List String)
  | sealExtent (extentID commitLength : ℕ)
  | commitLength (extentID : ℕ)

structure NodeEnv where
  /-- `IsHealthy` of the pool of a peer. -/
  healthy : String → Bool
  fault : Fault
  /-- What the secondaries answer, and the order in which the results come. -/
  answer : Node.Replica → Node.Result
  order : Equiv.Perm Node.Replica

/-- The loop of `Append` over `retChan`.  For offsets that differ the error of the result is
returned, and it is nil. -/
def collectReply {σ : Type*} (after : σ) : List ℕ → List Node.Result → Ended (List ℕ) σ
  | preOffsets, [] => .response preOffsets after
  | _, none :: _ => .error after
  | preOffsets, some offsets :: rs =>
    let preOffsets := if preOffsets = [] then offsets else preOffsets
    if offsets ≠ preOffsets then .neither else collectReply after preOffsets rs

/-- The results of an `Append` to `ex`, as they come. -/
def NodeEnv.results (env : NodeEnv) (ex : Extent) (blocks : List Block) : List Node.Result :=
  (List.finRange 3).map fun i =>
    Function.update env.answer 0 (ex.appendBlocks blocks (some ex.commitLength) env.fault).2
      (env.order i)

def nodeServe (extents : ℕ → Option Extent) (env : NodeEnv) :
    NodeRequest → Ended (List ℕ) (ℕ → Option Extent)
  | .append id blocks peers =>
    match extents id with
    | none => .error extents
    | some ex =>
      if peers.all env.healthy then
        -- `pools[1]` and `pools[2]` are used.
        if peers.length < 3 then .panicked
        else collectReply (Function.update extents id
            (some (ex.appendBlocks blocks (some ex.commitLength) env.fault).1)) []
          (env.results ex blocks)
      else .error extents
  | .sealExtent id _ =>
    match sealHandler (extents id) with
    | .ok _ => .response [] extents
    | .error => .error extents
    | .panicked => .panicked
  | .commitLength id =>
    match extents id with
    | some _ => .error extents
    | none => .panicked

/-! ## When they are total -/

/-- The counter is not advanced. -/
def Alloc.Refused (a : Alloc) : Prop := a = .unread ∨ a = .commit (.error false)

/-- There is an answer to the transaction. -/
def Answered (txn : PmUpdates.Txn) : Prop := ∀ landed, txn ≠ .error landed

def Safe (l : Leader) (env : Env U l.mem) (req : Request) : Prop :=
  env.leader = false ∨ match req with
    | .streamInfo ids => ∀ id ∈ ids, (l.mem.streams id).isSome
    | .createStream => env.alloc.Refused ∨
        env.alloc = .commit .response ∧ 3 ≤ env.nodes.length ∧ env.sent ∧ Answered env.txn
    | .streamAllocExtent s e => ∃ last, l.mem.getAppendExtentsAddr s = some last ∧
        (last = some e → asks l.mem e = false ∧ env.alloc.Refused)

/-- The offsets in front of the first error agree, except that empty lists may come first. -/
def Agree (rs : List Node.Result) : Prop :=
  (rs.takeWhile Option.isSome).Pairwise fun a b => a = some [] ∨ a = b

def NodeSafe (extents : ℕ → Option Extent) (env : NodeEnv) : NodeRequest → Prop
  | .append id blocks peers => ∀ ex, extents id = some ex →
      peers.all env.healthy = false ∨ 3 ≤ peers.length ∧ Agree (env.results ex blocks)
  | .sealExtent id _ | .commitLength id => (extents id).isSome

theorem isSome_streamInfoLoop (m : Memory) (ids : List ℕ) :
    (streamInfoLoop m ids).isSome ↔ ∀ id ∈ ids, (m.streams id).isSome := by
  induction ids with
  | nil => simp [streamInfoLoop]
  | cons id ids ih =>
    rw [streamInfoLoop, List.forall_mem_cons, ← ih]
    cases m.streams id <;> simp

theorem commit_ne {count : UInt64} (h : count ≠ 0) (counter : Option UInt64) :
    UniqID.commit counter counter count ≠ counter := by
  rw [UniqID.commit, if_pos rfl]
  cases counter with
  | none => simp
  | some c => simpa [UniqID.curr] using h

/-- The policy dies of less than three nodes, and else finds three. -/
theorem allocExtent_three (S : SliceSort (NodeStatus U) less) (ns : List (NodeStatus U)) :
    if 3 ≤ ns.length then ∃ nodes, allocExtent S ns 3 [] = some (.ok nodes)
    else allocExtent S ns 3 [] = none := by
  have hlen := (S.perm ns).length_eq
  split_ifs with h
  · rw [allocExtent_eq S ns 3 [] h, eligible_take (by simp), if_neg]
    · exact ⟨_, rfl⟩
    · simp [hlen, h]
  · rw [allocExtent, foldlM_allocBody, if_neg (by rwa [hlen])]
    rfl

theorem total_allocate {l : Leader} {env : Env U l.mem} {count : UInt64} (hcount : count ≠ 0)
    {next : Leader → UInt64 → List ℕ → Ended Response Leader} {P : Prop}
    (hnext : ∀ l' start nodes, (next l' start nodes).Total (· = l) ↔ P) :
    (allocate l env count next).Total (· = l) ↔ env.alloc.Refused ∨
      env.alloc = .commit .response ∧ 3 ≤ env.nodes.length ∧ env.sent ∧ P := by
  have hne :
      ({ l with counter := UniqID.commit l.counter l.counter count } : Leader) ≠ l := fun h =>
    commit_ne hcount l.counter (congrArg Leader.counter h)
  rw [allocate, Alloc.Refused]
  cases halloc : env.alloc with
  | unread => exact iff_of_true rfl (.inl (.inl rfl))
  | commit answer =>
    cases answer with
    | error made => cases made <;> simp [allocUniqID, Ended.Total, hne]
    | response =>
      have h3 := allocExtent_three env.sort env.nodes
      split_ifs at h3 with hn
      · obtain ⟨nodes, hnodes⟩ := h3
        cases hs : env.sent with
        | false => simp [allocUniqID, hnodes, Ended.Total, hne]
        | true => simpa [allocUniqID, hnodes, hn] using hnext _ _ _
      · simp [allocUniqID, h3, hn, Ended.Total]

theorem total_commitExtent {l l' : Leader} {txn : PmUpdates.Txn} {s : ℕ} {extentIDs : List ℕ}
    {extent : ExtentInfo} {res : Response} :
    (commitExtent l' txn s extentIDs extent res).Total (· = l) ↔ Answered txn := by
  cases txn with
  | applied | refused => exact iff_of_true trivial fun _ h => by cases h
  | error landed => exact iff_of_false id fun h => h landed rfl

theorem total_serve_iff (l : Leader) (env : Env U l.mem) (req : Request) :
    (serve l env req).Total (· = l) ↔ Safe l env req := by
  unfold serve Safe
  cases hleader : env.leader with
  | false => exact iff_of_true rfl (.inl rfl)
  | true =>
    rw [if_pos rfl, or_iff_right (by decide)]
    cases req with
    | streamInfo ids =>
      have hsome := isSome_streamInfoLoop l.mem (if ids = [] then env.streamIDs else ids)
      have hids : (∀ id ∈ if ids = [] then env.streamIDs else ids, (l.mem.streams id).isSome) ↔
          ∀ id ∈ ids, (l.mem.streams id).isSome := by
        split_ifs with h
        · exact iff_of_true env.listed (by simp [h])
        · rfl
      rw [hids] at hsome
      dsimp only
      rw [← hsome]
      cases streamInfoLoop l.mem (if ids = [] then env.streamIDs else ids) <;> simp [Ended.Total]
    | createStream => exact total_allocate (by decide) fun _ _ _ => total_commitExtent
    | streamAllocExtent s e =>
      dsimp only
      cases hlast : l.mem.getAppendExtentsAddr s with
      | none => simp [Ended.Total]
      | some last =>
        cases last with
        | none => simp [Ended.Total]
        | some id =>
          by_cases hid : id = e
          · subst hid
            cases hask : asks l.mem id with
            | true => simp [hask, Ended.Total]
            | false =>
              -- `cloneStream` dies, so only a refused number is left.
              have htotal : (allocate l env 1 fun _ _ _ => .panicked).Total (· = l) ↔ _ :=
                total_allocate (P := False) (by decide) fun _ _ _ => Iff.rfl
              simpa [hask, cloneStream_eq_none] using htotal
          · simp [Ended.Total, hid]

theorem total_collectReply {σ : Type*} {unchanged : σ → Prop} {after : σ} (h : unchanged after)
    (pre : List ℕ) (rs : List Node.Result) :
    (collectReply after pre rs).Total unchanged ↔
      (pre = [] ∨ ∀ r ∈ rs.takeWhile Option.isSome, r = some pre) ∧ Agree rs := by
  induction rs generalizing pre with
  | nil => simp [collectReply, Ended.Total, Agree]
  | cons r rs ih =>
    cases r with
    | none => simp [collectReply, Ended.Total, Agree, h]
    | some offsets =>
      simp only [collectReply]
      by_cases hpre : pre = []
      · by_cases ho : offsets = []
        · simp [hpre, ho, ih, Agree]
        · simp [hpre, ho, ih, Agree, eq_comm]
      · by_cases ho : offsets = pre
        · simp [hpre, ho, ih, Agree, eq_comm]
        · simp [hpre, ho, Ended.Total]

theorem total_nodeServe_iff (extents : ℕ → Option Extent) (env : NodeEnv) (req : NodeRequest) :
    (nodeServe extents env req).Total (fun after => ∀ id, (after id).isSome = (extents id).isSome) ↔
      NodeSafe extents env req := by
  cases req with
  | append id blocks peers =>
    rw [nodeServe, NodeSafe]
    cases hex : extents id with
    | none => simp [Ended.Total]
    | some ex =>
      dsimp only
      by_cases hall : peers.all env.healthy
      · by_cases hlen : peers.length < 3
        · simp [hall, hlen, Ended.Total]
        · rw [if_pos hall, if_neg hlen, total_collectReply]
          · simp [hall, Nat.le_of_not_lt hlen]
          · intro i
            by_cases hi : i = id
            · simp [hi, hex]
            · rw [Function.update_of_ne hi]
      · simp [hall, Ended.Total]
  | sealExtent id length =>
    cases h : extents id <;> simp [nodeServe, NodeSafe, sealHandler, h, Ended.Total]
  | commitLength id => cases h : extents id <;> simp [nodeServe, NodeSafe, h, Ended.Total]

/-- How a request to the partition manager ends. -/
def ofAfter (r : PmUpdates.After) : Ended Unit PartitionManager :=
  match r.reply with
  | .success => .response () r.pm
  | .failure => .error r.pm
  | .panicked => .panicked

theorem total_setRowStreamTables_iff (pm : PartitionManager) (leader : Bool) (txn : PmUpdates.Txn)
    (id : UInt64) (locs : Option (List Pspb.Location)) :
    (ofAfter (PmUpdates.serve pm leader txn (.setRowStreamTables id locs))).Total (· = pm) ↔
      leader = false ∨ ∃ l, locs = some l ∧
        ((l = [] ∨ id = 0) ∨ Answered txn ∧ pm.partMeta id ≠ none) := by
  cases leader with
  | false => simp [PmUpdates.serve, ofAfter, Ended.Total]
  | true =>
    cases locs with
    | none => simp [PmUpdates.serve, ofAfter, Ended.Total]
    | some l =>
      by_cases hl : l = [] ∨ id = 0
      · simp [PmUpdates.serve, hl, ofAfter, Ended.Total]
      · cases hm : pm.partMeta id <;> cases txn <;>
          simp [PmUpdates.serve, PmUpdates.setRowStreamTables, PmUpdates.Txn.result, etctSetKVS,
            wrap, Answered, hl, hm, ofAfter, Ended.Total]

/-- **Which requests end with a response or an error, and behind an error leave everything as it
was.** -/
theorem total_iff :
    (∀ (l : Leader) (env : Env U l.mem) req, (serve l env req).Total (· = l) ↔ Safe l env req) ∧
    (∀ pm leader txn id locs,
      (ofAfter (PmUpdates.serve pm leader txn (.setRowStreamTables id locs))).Total (· = pm) ↔
        leader = false ∨ ∃ l, locs = some l ∧
          ((l = [] ∨ id = 0) ∨ Answered txn ∧ pm.partMeta id ≠ none)) ∧
    ∀ extents env req, (nodeServe extents env req).Total
      (fun after => ∀ id, (after id).isSome = (extents id).isSome) ↔ NodeSafe extents env req :=
  ⟨total_serve_iff, total_setRowStreamTables_iff, total_nodeServe_iff⟩

/-- A leader that has just been elected for the first time. -/
def Leader.init : Leader := ⟨fun _ => none, none, runAsLeader fun _ => none⟩

/-- Some nodes are registered, and not all of them answer. -/
def unsent (nodes : List (NodeStatus ℕ)) : Env ℕ Leader.init.mem :=
  ⟨true, [], by simp, .commit .response, nodes, insertionSort, false, .applied⟩

/-- Every peer is healthy, and none answers. -/
def silent : NodeEnv := ⟨fun _ => true, .none, fun _ => none, .refl _⟩

/-- **Requests that end otherwise**: for streams, extents and partitions that do not exist, without
the message of the locations, and with too few nodes or peers.  One that is refused has taken
numbers. -/
theorem servers_die :
    (∀ req ∈ [.streamInfo [7], .streamAllocExtent 7 8, .createStream],
      serve Leader.init (unsent []) req = .panicked) ∧
    serve Leader.init (unsent threeNodes) .createStream =
      .error { Leader.init with counter := some 3 } ∧
    (∀ locs ∈ [none, some [⟨1, 512⟩]],
      ofAfter (PmUpdates.serve .init true .applied (.setRowStreamTables 7 locs)) = .panicked) ∧
    ∀ req ∈ [.append 1 [] ["a"], .sealExtent 2 512, .commitLength 2],
      nodeServe (Function.update (fun _ => none) 1 (some (createExtent 1))) silent req =
      .panicked := by
  simp only [List.forall_mem_cons, List.not_mem_nil, false_imp_iff, implies_true, and_true]
  exact ⟨⟨rfl, rfl, rfl⟩, rfl, ⟨rfl, rfl⟩, rfl, rfl, rfl⟩

end Handlers
end Autumn
