import Autumn.Manager.Etcd
import Autumn.StreamManager.AllocExtent

/-!
# What a success of a manager says about etcd

A manager that has won the election has a key in etcd as long as its session lives.  A manager that
takes itself for the leader prepares some puts and has etcd make them in one transaction, on the
condition that the key is still there.

`EtctSetKVS` does not say whether the condition held, so a deposed manager answers with success and
nothing was written (`success_without_commit`).  In every run in which the leader key is still there
at each commit that is answered, every success has had its transaction (`success_means_committed`).

A handler is cut at its second look at `AmLeader` and at its transaction.  What a manager has in
memory, the ids and the nodes chosen are part of the request, so they are arbitrary.
-/

namespace Autumn
namespace Manager

open Lib List Option

/-! ## Requests -/

/-- What a handler wants to write, and how it goes on. -/
structure Txn where
  puts : List (Key × Value)
  /-- It does not look at the error of `EtctSetKVS`. -/
  ignoresError : Bool
  /-- What it does after the transaction makes the process die. -/
  diesAfter : Bool
  deriving DecidableEq, Repr

/-- A transaction after which the handler reports success unless `EtctSetKVS` returns an error. -/
def Txn.plain (puts : List (Key × Value)) : Txn := ⟨puts, false, false⟩

/-- What a handler still does. -/
inductive Plan where
  /-- An answer other than success. -/
  | refused
  | done
  | panicked
  /-- It looks whether it is still the leader, and refuses if not. -/
  | recheck (next : Plan)
  | txn (t : Txn)
  deriving DecidableEq, Repr

/-- The transaction a handler will run if nothing stops it. -/
def Plan.transaction : Plan → Option Txn
  | .recheck next => next.transaction
  | .txn t => some t
  | _ => none

/-- `sendAllocToNodes`: all three nodes have created the extent, and the manager is still the
leader. -/
def sendAllocToNodes (completes : Bool) (next : Plan) : Plan :=
  if completes then .recheck next else .refused

/-- `CreateStream`, with the results of `allocUniqID(2)` and of the policy. -/
def createStream (start : Option ℕ) (nodes : Option (List ℕ)) (completes : Bool) : Plan :=
  match start, nodes with
  | some start, some nodes =>
    sendAllocToNodes completes (.txn (.plain (extentPuts start [] (start + 1) nodes)))
  | _, _ => .refused

/-- `StreamAllocExtent` after `sealExtents`; `extentIDs` are those of the stream. -/
def streamAllocExtent (streamID : ℕ) (extentIDs : List ℕ) (extentID : Option ℕ)
    (nodes : Option (List ℕ)) (completes : Bool) : Plan :=
  match extentID, nodes with
  | some extentID, some nodes =>
    sendAllocToNodes completes
      (if (StreamManager.cloneStream 0).isNone then .panicked
      else .txn (.plain (extentPuts streamID extentIDs extentID nodes)))
  | _, _ => .refused

/-- The index at which the loop of `Truncate` stops: the last one if the extent is not found. -/
def truncateIndex (extentID : ℕ) : List ℕ → ℕ
  | x :: y :: ids => if x = extentID then 0 else truncateIndex extentID (y :: ids) + 1
  | _ => 0

theorem truncateIndex_eq (extentID : ℕ) (ids : List ℕ) :
    truncateIndex extentID ids = min (ids.idxOf extentID) (ids.length - 1) := by
  induction ids with
  | nil => rfl
  | cons x ids ih =>
    cases ids with
    | nil => exact (Nat.min_zero _).symm
    | cons y ids =>
      rw [truncateIndex]
      split_ifs with h
      · rw [idxOf_cons_eq _ h, Nat.zero_min]
      · rw [ih, idxOf_cons_ne _ h]
        simp only [length_cons]
        omega

theorem truncateIndex_append {front rest : List ℕ} {e : ℕ} (he : e ∉ front) :
    truncateIndex e (front ++ e :: rest) = front.length := by
  rw [truncateIndex_eq, idxOf_append_of_notMem he, idxOf_cons_self, length_append, length_cons]
  omega

theorem truncateIndex_of_notMem {ids : List ℕ} {e : ℕ} (he : e ∉ ids) :
    truncateIndex e ids = ids.length - 1 := by
  rw [truncateIndex_eq, idxOf_of_notMem he]
  omega

/-- `Truncate`, with the extents of the stream if the manager knows it. -/
def truncate (streamID : ℕ) (extentIDs : Option (List ℕ)) (extentID : ℕ) : Plan :=
  match extentIDs with
  | none => .refused
  | some ids =>
    if truncateIndex extentID ids = 0 then .done
    else .txn (.plain
      [(.streams streamID, .streamInfo ⟨streamID, ids.drop (truncateIndex extentID ids)⟩)])

/-- `RegisterNode`, with the addresses the manager knows and the result of `allocUniqID`. -/
def registerNode (known : List String) (addr : String) (id : Option ℕ) : Plan :=
  if addr ∈ known then .refused
  else match id with
    | none => .refused
    | some id => .txn (.plain [(.nodes id, .nodeInfo ⟨id, addr⟩)])

/-- `SetRowStreamTables`.  After the transaction it writes to the entry of the partition in memory,
which is a nil pointer if there is none. -/
def setRowStreamTables (partitionID : ℕ) (locs : List (ℕ × ℕ)) (known : Bool) : Plan :=
  if locs = [] ∨ partitionID = 0 then .refused
  else .txn { puts := [(.part partitionID .tables, .tableLocations locs)]
              ignoresError := false, diesAfter := !known }

/-- `RegisterPS`; its look for the address has no effect. -/
def registerPS (addr : String) (id : Option ℕ) : Plan :=
  if addr = "" then .refused
  else match id with
    | none => .refused
    | some id => .txn (.plain [(.psserver id, .psDetail ⟨id, addr⟩)])

/-- `Bootstrap`. -/
def bootstrap (logID rowID parent : ℕ) (id : Option ℕ) : Plan :=
  match id with
  | none => .refused
  | some id => .txn {
      puts := [(.part id .logStream, .uint64 logID), (.part id .rowStream, .uint64 rowID),
        (.part id .parent, .uint64 parent), (.part id .range, .range [] [])]
      ignoresError := true, diesAfter := false }

/-- A request to a manager, with all that the handler reads besides. -/
inductive Request where
  | createStream (start : Option ℕ) (nodes : Option (List ℕ)) (completes : Bool)
  | streamAllocExtent (streamID : ℕ) (extentIDs : List ℕ) (extentID : Option ℕ)
      (nodes : Option (List ℕ)) (completes : Bool)
  | truncate (streamID : ℕ) (extentIDs : Option (List ℕ)) (extentID : ℕ)
  | registerNode (known : List String) (addr : String) (id : Option ℕ)
  | setRowStreamTables (partitionID : ℕ) (locs : List (ℕ × ℕ)) (known : Bool)
  | registerPS (addr : String) (id : Option ℕ)
  | bootstrap (logID rowID parent : ℕ) (id : Option ℕ)
  deriving DecidableEq, Repr

/-- What the handler of a request does behind its first look at `AmLeader`. -/
def Request.plan : Request → Plan
  | .createStream start nodes completes => Manager.createStream start nodes completes
  | .streamAllocExtent streamID extentIDs extentID nodes completes =>
    Manager.streamAllocExtent streamID extentIDs extentID nodes completes
  | .truncate streamID extentIDs extentID => Manager.truncate streamID extentIDs extentID
  | .registerNode known addr id => Manager.registerNode known addr id
  | .setRowStreamTables partitionID locs known =>
    Manager.setRowStreamTables partitionID locs known
  | .registerPS addr id => Manager.registerPS addr id
  | .bootstrap logID rowID parent id => Manager.bootstrap logID rowID parent id

theorem nodup_puts {r : Request} {t : Txn} (h : r.plan.transaction = some t) :
    (t.puts.map Prod.fst).Nodup := by
  cases r with
  | createStream start nodes completes =>
    cases start <;> cases nodes <;> cases completes <;>
      simp [Request.plan, createStream, sendAllocToNodes, Plan.transaction, Txn.plain,
        extentPuts] at h
    simp [← h]
  | streamAllocExtent streamID extentIDs extentID nodes completes =>
    cases extentID <;> cases nodes <;> cases completes <;>
      simp [Request.plan, streamAllocExtent, sendAllocToNodes, Plan.transaction,
        StreamManager.cloneStream_eq_none] at h
  | truncate streamID extentIDs extentID =>
    cases extentIDs with
    | none => cases h
    | some ids =>
      simp only [Request.plan, truncate] at h
      split_ifs at h
      · cases h
      · simp [← some.inj h, Txn.plain]
  | registerNode known addr id =>
    simp only [Request.plan, registerNode] at h
    split_ifs at h
    · cases h
    · cases id <;> simp [Plan.transaction, Txn.plain] at h
      simp [← h]
  | setRowStreamTables partitionID locs known =>
    simp only [Request.plan, setRowStreamTables] at h
    split_ifs at h
    · cases h
    · simp [← some.inj h]
  | registerPS addr id =>
    simp only [Request.plan, registerPS] at h
    split_ifs at h
    · cases h
    · cases id <;> simp [Plan.transaction, Txn.plain] at h
      simp [← h]
  | bootstrap logID rowID parent id =>
    cases id <;> simp [Request.plan, bootstrap, Plan.transaction] at h
    simp [← h]

/-! ## Managers -/

/-- Where `LeaderLoop` is. -/
inductive LeaderLoop where
  | idle
  /-- In `Campaign`, with the key of the session in etcd. -/
  | campaigning (session : ℕ)
  /-- In `runAsLeader`. -/
  | loading
  /-- Waiting for the end of the session. -/
  | waiting
  deriving DecidableEq, Repr

structure Member where
  isLeader : Bool
  /-- The session of `leaderKey`, once an election was won. -/
  leaderKey : Option ℕ
  loop : LeaderLoop
  deriving DecidableEq, Repr

/-- A request that a manager handles. -/
structure Call where
  manager : ℕ
  request : Request
  rest : Plan
  deriving DecidableEq, Repr

structure World where
  store : Store
  managers : ℕ → Member
  /-- The number of sessions so far. -/
  sessions : ℕ
  calls : List Call

/-- How `Commit` ends: with the response of etcd, or with an error, after which the transaction may
have been made or not. -/
inductive Answer where
  | response
  | error (made : Bool)
  deriving DecidableEq, Repr

inductive Action where
  /-- A manager starts a session and puts its value under the key of the session. -/
  | campaign (m : ℕ)
  /-- `Campaign` returns: all keys of earlier sessions are gone. -/
  | elect (m : ℕ)
  | campaignErr (m : ℕ)
  /-- `runAsLeader` has loaded what is in etcd, or has failed to. -/
  | load (m : ℕ) (ok : Bool)
  /-- A session ends, and etcd deletes its key. -/
  | expire (session : ℕ)
  /-- The manager learns that its session has ended. -/
  | stepDown (m : ℕ)
  | call (m : ℕ) (request : Request)
  /-- Call `k` looks again whether its manager is the leader. -/
  | check (k : ℕ)
  /-- Call `k` runs its transaction. -/
  | commit (k : ℕ) (answer : Answer)
  deriving DecidableEq, Repr

/-- The condition of every transaction: the leader key of the manager holds its value. -/
def World.Leads (w : World) (m : ℕ) : Prop :=
  ∃ session ∈ (w.managers m).leaderKey, w.store (.leader session) = some (.memberValue m)

instance (w : World) (m : ℕ) : Decidable (w.Leads m) :=
  inferInstanceAs (Decidable (∃ session ∈ (w.managers m).leaderKey, _))

/-- How a handler goes on after `EtctSetKVS`. -/
def Txn.after (t : Txn) : Outcome → Plan
  | .panicked => .panicked
  | .returned none => if t.diesAfter then .panicked else .done
  | .returned (some _) => if t.ignoresError then .done else .refused

def World.setMember (w : World) (m : ℕ) (x : Member) : World :=
  { w with managers := Function.update w.managers m x }

def World.setRest (w : World) (k : ℕ) (c : Call) (p : Plan) : World :=
  { w with calls := w.calls.set k { c with rest := p } }

/-- The store after a transaction of a manager. -/
def World.committed (w : World) (m : ℕ) (t : Txn) : Store :=
  if w.Leads m then w.store.putAll t.puts else w.store

def step (w : World) : Action → Option World
  | .campaign m =>
    match (w.managers m).loop with
    | .idle => some { w.setMember m { w.managers m with loop := .campaigning w.sessions } with
        store := w.store.put (.leader w.sessions) (.memberValue m)
        sessions := w.sessions + 1 }
    | _ => none
  | .elect m =>
    match (w.managers m).loop with
    | .campaigning session =>
      if ∀ s < session, w.store (.leader s) = none then
        some (w.setMember m { w.managers m with leaderKey := some session, loop := .loading })
      else none
    | _ => none
  | .campaignErr m =>
    match (w.managers m).loop with
    | .campaigning _ => some (w.setMember m { w.managers m with loop := .idle })
    | _ => none
  | .load m ok =>
    match (w.managers m).loop with
    | .loading => some (w.setMember m
        { w.managers m with isLeader := ok || (w.managers m).isLeader, loop := .waiting })
    | _ => none
  | .expire session => some { w with store := w.store.delete (.leader session) }
  | .stepDown m =>
    match (w.managers m).loop with
    | .waiting => some (w.setMember m { w.managers m with isLeader := false, loop := .idle })
    | _ => none
  | .call m request =>
    some { w with
      calls := w.calls ++
        [⟨m, request, if (w.managers m).isLeader then request.plan else .refused⟩] }
  | .check k => (w.calls[k]?).bind fun c =>
    match c.rest with
    | .recheck next =>
      some (w.setRest k c (if (w.managers c.manager).isLeader then next else .refused))
    | _ => none
  | .commit k answer => (w.calls[k]?).bind fun c =>
    match c.rest, answer with
    | .txn t, .response => some
        { w.setRest k c (t.after (etctSetKVS (.response (w.Leads c.manager)))) with
          store := w.committed c.manager t }
    | .txn t, .error made => some
        { w.setRest k c (t.after (etctSetKVS .error)) with
          store := if made then w.committed c.manager t else w.store }
    | _, _ => none

def World.init : World := ⟨fun _ => none, fun _ => ⟨false, none, .idle⟩, 0, []⟩

/-! ## What a step does to the calls -/

/-- What a step can do to the calls, and to the store when it answers a commit. -/
inductive CallMove (w : World) : Action → World → Prop where
  | other {a : Action} {w' : World} (h : w'.calls = w.calls) : CallMove w a w'
  | new {m : ℕ} {r : Request} {p : Plan} {w' : World} (hp : p = r.plan ∨ p = .refused)
      (h : w'.calls = w.calls ++ [⟨m, r, p⟩]) : CallMove w (.call m r) w'
  | check {k : ℕ} {c : Call} {p next : Plan} {w' : World} (hc : w.calls[k]? = some c)
      (hr : c.rest = .recheck next) (hp : p = next ∨ p = .refused)
      (h : w'.calls = w.calls.set k { c with rest := p }) : CallMove w (.check k) w'
  | answered {k : ℕ} {c : Call} {t : Txn} {w' : World} (hc : w.calls[k]? = some c)
      (hr : c.rest = .txn t)
      (h : w'.calls = w.calls.set k { c with rest := t.after (.returned none) })
      (hs : w'.store = w.committed c.manager t) : CallMove w (.commit k .response) w'
  | failed {k : ℕ} {c : Call} {made : Bool} {w' : World} (hc : w.calls[k]? = some c)
      (h : w'.calls = w.calls.set k { c with rest := .panicked }) :
      CallMove w (.commit k (.error made)) w'

variable {w w' : World} {a : Action} {p : List Action} {k : ℕ}

theorem callMove_of_step (hs : step w a = some w') : CallMove w a w' := by
  cases a with
  | campaign m | campaignErr m | load m ok | stepDown m =>
    simp only [step] at hs
    split at hs
    · exact .other (some.inj hs ▸ rfl)
    · cases hs
  | elect m =>
    simp only [step] at hs
    split at hs
    · split_ifs at hs
      exact .other (some.inj hs ▸ rfl)
    · cases hs
  | expire session => exact .other (some.inj hs ▸ rfl)
  | call m r =>
    cases hs
    refine .new ?_ rfl
    split_ifs
    · exact .inl rfl
    · exact .inr rfl
  | check k =>
    obtain ⟨c, hc, hs⟩ := bind_eq_some_iff.mp hs
    split at hs
    next next hr =>
      cases hs
      refine .check hc hr ?_ rfl
      split_ifs
      · exact .inl rfl
      · exact .inr rfl
    next => cases hs
  | commit k answer =>
    obtain ⟨c, hc, hs⟩ := bind_eq_some_iff.mp hs
    split at hs
    next t hr _ =>
      rw [etctSetKVS_response] at hs
      cases hs
      exact .answered hc hr rfl rfl
    next t made hr _ => exact .failed hc (some.inj hs ▸ rfl)
    next => cases hs

/-! ## Success -/

/-- The condition on a run: when etcd answers a commit, the manager has not lost its leader key. -/
def NotDeposed (w : World) : Action → Prop
  | .commit k .response => ∀ c ∈ w.calls[k]?, w.Leads c.manager
  | _ => True

instance (w : World) : DecidablePred (NotDeposed w)
  | .commit k .response => inferInstanceAs (Decidable (∀ c ∈ w.calls[k]?, w.Leads c.manager))
  | .commit _ (.error _) => isTrue trivial
  | .campaign _ => isTrue trivial
  | .elect _ => isTrue trivial
  | .campaignErr _ => isTrue trivial
  | .load _ _ => isTrue trivial
  | .expire _ => isTrue trivial
  | .stepDown _ => isTrue trivial
  | .call _ _ => isTrue trivial
  | .check _ => isTrue trivial

/-- In the run `p` etcd has answered the commit of call `k`, the condition of the transaction held,
and all puts of `t` took effect. -/
def Committed (p : List Action) (k m : ℕ) (t : Txn) : Prop :=
  ∃ p₁ p₂ s s', p = p₁ ++ .commit k .response :: p₂ ∧ exec step World.init p₁ = some s ∧
    step s (.commit k .response) = some s' ∧ s.Leads m ∧ ∀ x ∈ t.puts, s'.store x.1 = some x.2

theorem Committed.snoc {m : ℕ} {t : Txn} (h : Committed p k m t) (a : Action) :
    Committed (p ++ [a]) k m t := by
  obtain ⟨p₁, p₂, s, s', rfl, h₁, hs, hl, hx⟩ := h
  exact ⟨p₁, p₂ ++ [a], s, s', by simp, h₁, hs, hl, hx⟩

/-- A call has its transaction before it, or was stopped, or has succeeded with its transaction
behind it. -/
inductive Call.Sound (p : List Action) (k : ℕ) (c : Call) : Prop where
  | ahead (h : c.rest.transaction = c.request.plan.transaction)
  | stopped (h : c.rest = .refused ∨ c.rest = .panicked)
  | done (t : Txn) (ht : c.request.plan.transaction = some t) (h : Committed p k c.manager t)

theorem Call.Sound.snoc {c : Call} (h : c.Sound p k) (a : Action) : c.Sound (p ++ [a]) k := by
  cases h with
  | ahead h => exact .ahead h
  | stopped h => exact .stopped h
  | done t ht h => exact .done t ht (h.snoc a)

/-- All calls after the run `p`. -/
structure Traced (p : List Action) (w : World) : Prop where
  run : exec step World.init p = some w
  sound : ∀ (k : ℕ) (c : Call), w.calls[k]? = some c → c.Sound p k

/-- A step that changes one call at most keeps what is known of the others. -/
theorem Traced.sound_set (h : Traced p w) {c' : Call} (hcalls : w'.calls = w.calls.set k c')
    (hc' : c'.Sound (p ++ [a]) k) :
    ∀ (j : ℕ) (c : Call), w'.calls[j]? = some c → c.Sound (p ++ [a]) j := by
  intro j c hc
  rw [hcalls] at hc
  by_cases hj : k = j
  · subst hj
    rw [getElem?_set_self'] at hc
    obtain ⟨_, _, rfl⟩ := map_eq_some_iff.mp hc
    exact hc'
  · rw [getElem?_set_ne hj] at hc
    exact (h.sound j c hc).snoc a

theorem Traced.step (h : Traced p w) (hg : NotDeposed w a) (hs : step w a = some w') :
    Traced (p ++ [a]) w' := by
  have hrun : exec Manager.step World.init (p ++ [a]) = some w' :=
    exec_append_eq_some.mpr ⟨w, h.run, exec_cons_eq_some.mpr ⟨w', hs, rfl⟩⟩
  refine ⟨hrun, ?_⟩
  cases callMove_of_step hs with
  | other hcalls => exact fun k c hc => (h.sound k c (hcalls ▸ hc)).snoc a
  | @new m r p' _ hp hcalls =>
    intro k c hc
    rw [hcalls, getElem?_append] at hc
    split_ifs at hc
    · exact (h.sound k c hc).snoc _
    · have hmem := mem_of_getElem? hc
      rw [mem_singleton.mp hmem]
      rcases hp with rfl | rfl
      · exact .ahead rfl
      · exact .stopped (.inl rfl)
  | @check k c p' next _ hc hr hp hcalls =>
    refine h.sound_set hcalls ?_
    rcases hp with rfl | rfl
    · -- The transaction behind the second look is the one the handler had ahead of it before.
      cases h.sound k c hc with
      | ahead hah => exact .ahead (by rw [← hah, hr]; rfl)
      | stopped hst => exact absurd hst (by simp [hr])
      | done t ht hdone => exact .done t ht (hdone.snoc _)
    · exact .stopped (.inl rfl)
  | @answered k c t _ hc hr hcalls hstore =>
    refine h.sound_set hcalls ?_
    cases h.sound k c hc with
    | ahead hah =>
      have ht : c.request.plan.transaction = some t := by rw [← hah, hr]; rfl
      have hleads : w.Leads c.manager := hg c hc
      refine .done t ht ⟨p, [], w, w', rfl, h.run, hs, hleads, fun x hx => ?_⟩
      rw [hstore, World.committed, if_pos hleads]
      exact Store.putAll_of_mem _ (nodup_puts ht) hx
    | stopped hst => exact absurd hst (by simp [hr])
    | done t' ht hdone => exact .done t' ht (hdone.snoc _)
  | @failed k c made _ hc hcalls => exact h.sound_set hcalls (.stopped (.inr rfl))

/-- **Success means committed.**  In a run in which a manager still has its leader key whenever etcd
answers one of its commits, every call that has reported success has had its transaction: the
condition of the transaction held and all its puts took effect. -/
theorem success_means_committed {as : List Action} {w : World}
    (hg : Guarded step NotDeposed World.init as) (h : exec step World.init as = some w)
    {k : ℕ} {c : Call} {t : Txn} (hc : w.calls[k]? = some c) (hdone : c.rest = .done)
    (ht : c.request.plan.transaction = some t) : Committed as k c.manager t := by
  have htraced : Traced as w := by
    have hinit : Traced [] World.init := ⟨rfl, fun k c hc => absurd hc (by simp [World.init])⟩
    exact exec_trace (I := Traced) (fun _ _ _ _ hI hga hs => hI.step hga hs) hinit hg h
  cases htraced.sound k c hc with
  | ahead hah => exact absurd (hah.trans ht) (by simp [hdone, Plan.transaction])
  | stopped hst => exact absurd hst (by simp [hdone])
  | done t' ht' hcom => exact some.inj (ht'.symm.trans ht) ▸ hcom

/-- The request to register a node. -/
def registerRequest (id : ℕ) : Request := .registerNode [] "127.0.0.1:3301" (some id)

/-- A manager is elected and begins to handle a request to register a node. -/
def electedAndCalled : List Action :=
  [.campaign 0, .elect 0, .load 0 true, .call 0 (registerRequest 1)]

/-- The manager commits; then another one is elected and creates a stream. -/
def twoLeaders : List Action :=
  electedAndCalled ++ [.commit 0 .response, .expire 0, .stepDown 0, .campaign 1, .elect 1,
    .load 1 true,
    .call 1 (.createStream (some 2) (some [1, 4, 5]) true), .check 1, .commit 1 .response]

theorem success_means_committed_twoLeaders :
    ∃ w c t, (Guarded step NotDeposed World.init twoLeaders ∧
        exec step World.init twoLeaders = some w ∧ w.calls[1]? = some c ∧ c.rest = .done ∧
        c.request.plan.transaction = some t) ∧ Committed twoLeaders 1 c.manager t := by
  have hg : Guarded step NotDeposed World.init twoLeaders := by decide +kernel
  obtain ⟨w, hw, c, hc, hdone, t, ht, -⟩ : ∃ w ∈ exec step World.init twoLeaders, ∃ c ∈ w.calls[1]?,
      c.rest = .done ∧ ∃ t ∈ c.request.plan.transaction, True := by decide +kernel
  exact ⟨w, c, t, ⟨hg, hw, hc, hdone, ht⟩, success_means_committed hg hw hc hdone ht⟩

/-- The session of the manager ends and another manager is elected before the commit. -/
def deposedLeader : List Action :=
  electedAndCalled ++ [.expire 0, .campaign 1, .elect 1, .load 1 true, .commit 0 .response]

/-- A deposed manager reports success, and the node is not in etcd. -/
theorem success_without_commit :
    ∃ w, exec step World.init deposedLeader = some w ∧
      w.calls = [⟨0, registerRequest 1, .done⟩] ∧
      (registerRequest 1).plan.transaction =
        some (.plain [(.nodes 1, .nodeInfo ⟨1, "127.0.0.1:3301"⟩)]) ∧
      w.store (.nodes 1) = none := by
  decide +kernel

end Manager
end Autumn
