import Autumn.StreamManager.Integrity

/-!
# The addresses of nodes and of partition servers

An extent has its replicas on three different nodes, so a manager should know every address under
one number only.

`RegisterNode` of the stream manager looks for the address in the map of the nodes, draws a number,
writes the node to etcd, and then adds it to the map.  Two requests for one address may both find
nothing (`registered_twice`).  If no request for an address comes to its look while another one for
it is on its way, then all addresses in the map and in etcd are different (`Addresses`).

`RegisterPS` of the partition manager goes over the servers with a flag that is never set
(`hasDupLoop_eq`).  So every address is registered again, and the addresses are different exactly if
all requests were for different new ones (`PSManager.unique_run_iff`).
-/

namespace Autumn
namespace Manager

/-- No two entries of the map have one address. -/
def UniqueAddr {α : Type*} (address : α → String) (nodes : ℕ → Option α) : Prop :=
  ∀ id id' n n', nodes id = some n → nodes id' = some n' → address n = address n' → id = id'

theorem UniqueAddr.update {α : Type*} {address : α → String} {nodes : ℕ → Option α} {id : ℕ}
    (h : UniqueAddr address nodes) {n : α}
    (hnew : ∀ id' n', nodes id' = some n' → address n' ≠ address n) :
    UniqueAddr address (Function.update nodes id (some n)) := by
  intro i j a b hi hj hab
  rcases StreamManager.Metadata.update_eq_some hi with ⟨rfl, rfl⟩ | ⟨-, hi'⟩
  · rcases StreamManager.Metadata.update_eq_some hj with ⟨rfl, -⟩ | ⟨-, hj'⟩
    · rfl
    · exact absurd hab.symm (hnew j b hj')
  · rcases StreamManager.Metadata.update_eq_some hj with ⟨rfl, rfl⟩ | ⟨-, hj'⟩
    · exact absurd hab (hnew i a hi')
    · exact h i j a b hi' hj' hab

end Manager

/-! ## Nodes -/

variable {addr : String} {id : ℕ}

namespace StreamManager
namespace Metadata

open Lib Manager List Function

/-- The address of a request that is behind its look and not at its end. -/
def pendingAddr : Call → Option String
  | .checked addr => some addr
  | .numbered addr _ => some addr
  | .registered addr _ => some addr
  | _ => none

/-- The address of a request that is behind its look and has not written to etcd. -/
def unwrittenAddr : Call → Option String
  | .checked addr => some addr
  | .numbered addr _ => some addr
  | _ => none

variable {clones : Bool} {w : World} {k : ℕ} {c : Call}

theorem pendingAddr_of_unwrittenAddr (h : unwrittenAddr c = some addr) :
    pendingAddr c = some addr := by
  cases c <;> first | exact h | cases h

/-- The invariant, with the maps `stored` that would be loaded from etcd. -/
structure Addresses (stored mem : Memory) (calls : List Call) : Prop where
  unique : UniqueAddr NodeInfo.address stored.nodes
  loaded : ∀ id n, mem.nodes id = some n → stored.nodes id = some n
  stored_cases : ∀ id n, stored.nodes id = some n →
    mem.nodes id = some n ∨ ∃ j : ℕ, calls[j]? = some (Call.registered n.address id)
  alone : ∀ (i j : ℕ) (c d : Call) (addr : String), calls[i]? = some c → calls[j]? = some d →
    pendingAddr c = some addr → pendingAddr d = some addr → i = j
  fresh : ∀ (j : ℕ) (c : Call) (addr : String), calls[j]? = some c → unwrittenAddr c = some addr →
    ∀ id n, stored.nodes id = some n → n.address ≠ addr
  written : ∀ (j : ℕ) (addr : String) (id : ℕ), calls[j]? = some (Call.registered addr id) →
    stored.nodes id = some ⟨id, addr⟩

section Addresses

variable {stored mem : Memory} {calls : List Call}

variable {c' : Call}

theorem getElem?_set_cases {d : Call} {j : ℕ} (h : (calls.set k c')[j]? = some d) :
    j = k ∧ d = c' ∨ j ≠ k ∧ calls[j]? = some d := by
  rw [getElem?_set] at h
  split_ifs at h with hkj hlt
  · exact .inl ⟨hkj.symm, (Option.some.inj h).symm⟩
  · exact .inr ⟨Ne.symm hkj, h⟩

theorem getElem?_set_of_ne {d : Call} {j : ℕ} (hj : j ≠ k) (h : calls[j]? = some d) :
    (calls.set k c')[j]? = some d := by
  rwa [getElem?_set_ne hj.symm]

theorem getElem?_set_at (hk : calls[k]? = some c) (c' : Call) : (calls.set k c')[k]? = some c' := by
  obtain ⟨hlt, -⟩ := List.getElem?_eq_some_iff.mp hk
  rw [getElem?_set_self hlt]

section

variable (h : Addresses stored mem calls)
include h

theorem Addresses.alone_set (hk : calls[k]? = some c)
    (hpending : ∀ addr, pendingAddr c' = some addr → pendingAddr c = some addr) :
    ∀ (i j : ℕ) (a b : Call) (addr : String), (calls.set k c')[i]? = some a →
      (calls.set k c')[j]? = some b → pendingAddr a = some addr → pendingAddr b = some addr →
      i = j := by
  intro i j a b addr hi hj ha hb
  rcases getElem?_set_cases hi with ⟨rfl, rfl⟩ | ⟨-, hi'⟩
  · rcases getElem?_set_cases hj with ⟨rfl, -⟩ | ⟨-, hj'⟩
    · rfl
    · exact h.alone i j c b addr hk hj' (hpending addr ha) hb
  · rcases getElem?_set_cases hj with ⟨rfl, rfl⟩ | ⟨-, hj'⟩
    · exact h.alone i j a c addr hi' hk ha (hpending addr hb)
    · exact h.alone i j a b addr hi' hj' ha hb

theorem Addresses.set (hk : calls[k]? = some c) (c' : Call) {stored' mem' : Memory}
    (hstored : stored'.nodes = stored.nodes) (hmem : mem'.nodes = mem.nodes)
    (hpending : ∀ addr, pendingAddr c' = some addr → unwrittenAddr c = some addr)
    (hc : ∀ addr id, c ≠ .registered addr id) (hc' : ∀ addr id, c' ≠ .registered addr id) :
    Addresses stored' mem' (calls.set k c') := by
  constructor
  · rw [hstored]
    exact h.unique
  · rw [hstored, hmem]
    exact h.loaded
  · rw [hstored, hmem]
    intro id n hn
    rcases h.stored_cases id n hn with hn | ⟨j, hj⟩
    · exact .inl hn
    · have hne : j ≠ k := by
        rintro rfl
        exact hc _ _ (Option.some.inj (hk.symm.trans hj))
      exact .inr ⟨j, getElem?_set_of_ne hne hj⟩
  · exact h.alone_set hk fun addr ha => pendingAddr_of_unwrittenAddr (hpending addr ha)
  · rw [hstored]
    intro j d addr hj hd
    rcases getElem?_set_cases hj with ⟨rfl, rfl⟩ | ⟨-, hj'⟩
    · exact h.fresh j c addr hk (hpending addr (pendingAddr_of_unwrittenAddr hd))
    · exact h.fresh j d addr hj' hd
  · rw [hstored]
    intro j addr id hj
    rcases getElem?_set_cases hj with ⟨-, hd⟩ | ⟨-, hj'⟩
    · exact absurd hd.symm (hc' addr id)
    · exact h.written j addr id hj'

/-- A request passes its look: the address is not in the map, and no other request with this address
is on its way. -/
theorem Addresses.check (hk : calls[k]? = some (.registerNode addr))
    (halone : ∀ (j : ℕ) (d : Call), calls[j]? = some d → pendingAddr d ≠ some addr)
    (hnone : ∀ id n, mem.nodes id = some n → n.address ≠ addr) :
    Addresses stored mem (calls.set k (.checked addr)) := by
  have hnew : ∀ id n, stored.nodes id = some n → n.address ≠ addr := by
    intro id n hn haddr
    rcases h.stored_cases id n hn with hn | ⟨j, hj⟩
    · exact hnone id n hn haddr
    · exact halone j _ hj (congrArg some haddr)
  refine ⟨h.unique, h.loaded, fun id n hn => ?_, ?_, ?_, ?_⟩
  · rcases h.stored_cases id n hn with hn | ⟨j, hj⟩
    · exact .inl hn
    · have hne : j ≠ k := by
        rintro rfl
        cases hk.symm.trans hj
      exact .inr ⟨j, getElem?_set_of_ne hne hj⟩
  · intro i j a b addr' hi hj ha hb
    rcases getElem?_set_cases hi with ⟨rfl, rfl⟩ | ⟨-, hi'⟩
    · rcases getElem?_set_cases hj with ⟨rfl, rfl⟩ | ⟨-, hj'⟩
      · rfl
      · exact absurd (hb.trans ha.symm) (halone j b hj')
    · rcases getElem?_set_cases hj with ⟨rfl, rfl⟩ | ⟨-, hj'⟩
      · exact absurd (ha.trans hb.symm) (halone i a hi')
      · exact h.alone i j a b addr' hi' hj' ha hb
  · intro j d addr' hj hd
    rcases getElem?_set_cases hj with ⟨rfl, rfl⟩ | ⟨-, hj'⟩
    · cases hd
      exact hnew
    · exact h.fresh j d addr' hj' hd
  · intro j addr' id hj
    rcases getElem?_set_cases hj with ⟨-, hd⟩ | ⟨-, hj'⟩
    · cases hd
    · exact h.written j addr' id hj'

theorem Addresses.register (hk : calls[k]? = some (.numbered addr id))
    (hfree : stored.nodes id = none) :
    Addresses (stored.addNode id addr) mem (calls.set k (.registered addr id)) := by
  have hother : ∀ {id' : ℕ} {n : NodeInfo}, stored.nodes id' = some n → id' ≠ id := by
    rintro id' n hn rfl
    cases hfree.symm.trans hn
  have hnodes : ∀ {id' : ℕ} {n : NodeInfo}, stored.nodes id' = some n →
      (stored.addNode id addr).nodes id' = some n := fun hn =>
    (update_of_ne (hother hn) _ _).trans hn
  refine ⟨h.unique.update (h.fresh k _ addr hk rfl), fun id' n hn => hnodes (h.loaded id' n hn),
    fun id' n hn => ?_, h.alone_set hk fun _ ha => ha, ?_, ?_⟩
  · rcases update_eq_some hn with ⟨rfl, rfl⟩ | ⟨-, hn⟩
    · exact .inr ⟨k, getElem?_set_at hk _⟩
    · rcases h.stored_cases id' n hn with hn | ⟨j, hj⟩
      · exact .inl hn
      · have hne : j ≠ k := by
          rintro rfl
          cases hk.symm.trans hj
        exact .inr ⟨j, getElem?_set_of_ne hne hj⟩
  · intro j d addr' hj hd id' n hn
    rcases getElem?_set_cases hj with ⟨-, rfl⟩ | ⟨hne, hj'⟩
    · cases hd
    · rcases update_eq_some hn with ⟨-, rfl⟩ | ⟨-, hn⟩
      · -- the request would be for the address that is just written
        rintro rfl
        exact hne (h.alone j k d _ addr hj' hk (pendingAddr_of_unwrittenAddr hd) rfl)
      · exact h.fresh j d addr' hj' hd id' n hn
  · intro j addr' id' hj
    rcases getElem?_set_cases hj with ⟨-, hd⟩ | ⟨-, hj'⟩
    · obtain ⟨rfl, rfl⟩ := Call.registered.inj hd
      exact update_self ..
    · exact hnodes (h.written j addr' id' hj')

theorem Addresses.addNode (hk : calls[k]? = some (.registered addr id)) :
    Addresses stored (mem.addNode id addr) (calls.set k .done) := by
  have hstored := h.written k addr id hk
  refine ⟨h.unique, fun id' n hn => ?_, fun id' n hn => ?_,
    h.alone_set hk fun addr' ha => absurd ha (by simp [pendingAddr]), ?_, ?_⟩
  · rcases update_eq_some hn with ⟨rfl, rfl⟩ | ⟨-, hn⟩
    · exact hstored
    · exact h.loaded id' n hn
  · by_cases hid : id' = id
    · subst hid
      cases hstored.symm.trans hn
      exact .inl (update_self ..)
    · rcases h.stored_cases id' n hn with hn | ⟨j, hj⟩
      · exact .inl ((update_of_ne hid _ _).trans hn)
      · have hne : j ≠ k := by
          rintro rfl
          obtain ⟨-, rfl⟩ := Call.registered.inj (Option.some.inj (hk.symm.trans hj))
          exact hid rfl
        exact .inr ⟨j, getElem?_set_of_ne hne hj⟩
  · intro j d addr' hj hd
    rcases getElem?_set_cases hj with ⟨-, rfl⟩ | ⟨-, hj'⟩
    · cases hd
    · exact h.fresh j d addr' hj' hd
  · intro j addr' id' hj
    rcases getElem?_set_cases hj with ⟨-, hd⟩ | ⟨-, hj'⟩
    · cases hd
    · exact h.written j addr' id' hj'

theorem Addresses.add (hc : pendingAddr c = none) : Addresses stored mem (calls ++ [c]) := by
  have hcases : ∀ {j : ℕ} {d : Call}, (calls ++ [c])[j]? = some d →
      calls[j]? = some d ∨ d = c := by
    intro j d hj
    rcases lt_or_ge j calls.length with hlt | hge
    · exact .inl (getElem?_append_left hlt ▸ hj)
    · rw [getElem?_append_right hge, getElem?_singleton] at hj
      split_ifs at hj
      exact .inr (Option.some.inj hj).symm
  have hold : ∀ {j : ℕ} {d : Call} {addr : String}, (calls ++ [c])[j]? = some d →
      pendingAddr d = some addr → calls[j]? = some d := by
    intro j d addr hj hd
    refine (hcases hj).resolve_right ?_
    rintro rfl
    cases hc.symm.trans hd
  refine ⟨h.unique, h.loaded, fun id n hn => ?_, ?_, ?_, ?_⟩
  · refine (h.stored_cases id n hn).imp_right fun ⟨j, hj⟩ => ⟨j, ?_⟩
    obtain ⟨hlt, -⟩ := List.getElem?_eq_some_iff.mp hj
    rwa [getElem?_append_left hlt]
  · intro i j a b addr hi hj ha hb
    exact h.alone i j a b addr (hold hi ha) (hold hj hb) ha hb
  · intro j d addr hj hd
    exact h.fresh j d addr (hold hj (pendingAddr_of_unwrittenAddr hd)) hd
  · intro j addr id hj
    exact h.written j addr id (hold hj rfl)

end

theorem Addresses.reload (h : UniqueAddr NodeInfo.address stored.nodes)
    (hcalls : ∀ d ∈ calls, pendingAddr d = none) : Addresses stored stored calls := by
  have hnone : ∀ {j : ℕ} {d : Call} {addr : String}, calls[j]? = some d →
      pendingAddr d ≠ some addr := by
    intro j d addr hj hd
    cases (hcalls d (mem_of_getElem? hj)).symm.trans hd
  refine ⟨h, fun _ _ hn => hn, fun _ _ hn => .inl hn, ?_, ?_, ?_⟩
  · intro i j a b addr hi hj ha hb
    exact absurd ha (hnone hi)
  · intro j d addr hj hd
    exact absurd (pendingAddr_of_unwrittenAddr hd) (hnone hj)
  · intro j addr id hj
    exact absurd (show pendingAddr (.registered addr id) = some addr from rfl) (hnone hj)

end Addresses

/-- The address that a request looks for in this step. -/
def lookedUp (w : World) : Action → Option String
  | .go k _ =>
    match w.calls[k]? with
    | some (.registerNode addr) => some addr
    | _ => none
  | _ => none

/-- When a request looks for its address, no other one for this address is on its way. -/
def Alone (w : World) (a : Action) : Prop :=
  ∀ addr ∈ lookedUp w a, ∀ d ∈ w.calls, pendingAddr d ≠ some addr

instance (w : World) (a : Action) : Decidable (Alone w a) :=
  inferInstanceAs (Decidable (∀ addr ∈ lookedUp w a, _))

/-- The look finds an address that is in the map, if all nodes have numbers below the bound. -/
theorem Memory.hasDuplicateAddr_iff {m : Memory} {bound : ℕ}
    (hfree : ∀ x, bound ≤ x → m.nodes x = none) :
    m.hasDuplicateAddr bound addr = true ↔ ∃ id n, m.nodes id = some n ∧ n.address = addr := by
  rw [Memory.hasDuplicateAddr, any_eq_true]
  constructor
  · rintro ⟨id, -, hany⟩
    obtain ⟨n, hn, haddr⟩ := (Option.any_eq_true _ _).mp hany
    exact ⟨id, n, hn, beq_iff_eq.mp haddr⟩
  · rintro ⟨id, n, hn, haddr⟩
    have hid : id < bound := by
      by_contra hge
      cases (hfree id (not_lt.mp hge)).symm.trans hn
    refine ⟨id, mem_range.mpr hid, ?_⟩
    rw [hn]
    exact beq_iff_eq.mpr haddr

theorem hasDuplicateAddr_of_check {i : Input} (hk : w.calls[k]? = some (.registerNode addr))
    (hs : callStep clones w k (.registerNode addr) i = some (w.set k (.checked addr))) :
    w.mem.hasDuplicateAddr w.nextID addr = false := by
  cases i with
  | ok =>
    by_contra hdup
    have hcalls : (w.set k .failed).calls = (w.set k (.checked addr)).calls := by
      rw [callStep, if_pos (by simpa using hdup), Option.some_inj] at hs
      rw [hs]
    have hat := getElem?_set_at hk Call.failed
    rw [show w.calls.set k .failed = w.calls.set k (.checked addr) from hcalls,
      getElem?_set_at hk] at hat
    cases hat
  | err | nodes nodes => cases hs

structure World.Addressed (w : World) : Prop where
  integral : w.Integral
  addresses : Addresses (runAsLeader w.etcd) w.mem w.calls

theorem Addresses.other {stored mem : Memory} {calls : List Call} (h : Addresses stored mem calls)
    (hk : calls[k]? = some c) (c' : Call) {stored' mem' : Memory}
    (hstored : stored'.nodes = stored.nodes) (hmem : mem'.nodes = mem.nodes)
    (hc : ∀ addr id, c ≠ .registered addr id) (hc' : pendingAddr c' = none) :
    Addresses stored' mem' (calls.set k c') := by
  refine h.set hk c' hstored hmem (fun addr ha => ?_) hc ?_
  · cases hc'.symm.trans ha
  · rintro addr id rfl
    cases hc'

theorem World.Addressed.callStep {w' : World} {i : Input} (h : w.Addressed)
    (hk : w.calls[k]? = some c)
    (halone : ∀ addr, c = .registerNode addr → ∀ d ∈ w.calls, pendingAddr d ≠ some addr)
    (hs : callStep clones w k c i = some w') : w'.Addressed := by
  have hmove := callMove_of_callStep hs
  refine ⟨h.integral.callMove hk hmove, ?_⟩
  have ha := h.addresses
  obtain ⟨owner, hint⟩ := h.integral
  cases hmove with
  | fail hfail =>
    refine ha.other hk _ rfl rfl ?_ rfl
    rintro addr id rfl
    cases hfail
  | create | receive _ | sealing | allocate | choose _ | send | begin _ | clone _ _ _
  | addExtent _ | keep | cutting _ _ _ | unlock => exact ha.other hk _ rfl rfl (by simp) rfl
  | commit =>
    exact ha.other hk _ (by rw [runAsLeader_extentPuts]; rfl) rfl (by simp) rfl
  | cut => exact ha.other hk _ (by rw [runAsLeader_put_streams]; rfl) rfl (by simp) rfl
  | check =>
    have hfree : ∀ x, w.nextID ≤ x → w.mem.nodes x = none := fun x hx =>
      (hint.mem_free x (.inl hx)).node
    refine ha.check hk (fun j d hj => halone _ rfl d (mem_of_getElem? hj)) ?_
    intro id n hn haddr
    have hdup := (Memory.hasDuplicateAddr_iff hfree).mpr ⟨id, n, hn, haddr⟩
    cases (hasDuplicateAddr_of_check hk hs).symm.trans hdup
  | number => exact ha.set hk _ rfl rfl (fun addr haddr => haddr) (by simp) (by simp)
  | @register addr id =>
    have hid : id ∈ (Call.numbered addr id).unpublished := mem_singleton_self id
    have hfree := hint.stored_free id (.inr ⟨_, mem_of_getElem? hk, hid⟩)
    exact (runAsLeader_put_nodes ..).symm ▸ ha.register hk hfree.node
  | addNode => exact ha.addNode hk

theorem World.Addressed.step {w' : World} {a : Action} (h : w.Addressed) (halone : Alone w a)
    (hs : Metadata.step clones w a = some w') : w'.Addressed := by
  have hintegral := h.integral.step hs
  cases a with
  | createStream | streamAllocExtent s e | truncate s e | registerNode addr =>
    cases hs
    exact ⟨hintegral, h.addresses.add rfl⟩
  | go k i =>
    obtain ⟨c, hk, hs⟩ := Option.bind_eq_some_iff.mp hs
    refine h.callStep hk ?_ hs
    rintro addr rfl
    exact halone addr (by simp [lookedUp, hk])
  | reload =>
    obtain ⟨hquiet, hw⟩ := Option.ite_none_right_eq_some.mp hs
    cases hw
    refine ⟨hintegral, .reload h.addresses.unique fun d hd => ?_⟩
    have hfin := hquiet d hd
    cases d <;> first | rfl | cases hfin
  | crash =>
    cases hs
    exact ⟨hintegral, .reload h.addresses.unique (by simp)⟩

/-- **The addresses of the nodes are different** in the map and in etcd, after every run in which no
request looks for its address while another one with this address is on its way. -/
theorem unique_nodes {etcd : Store} {nextID : ℕ} (hstart : (runAsLeader etcd).Intact)
    (hfresh : ∀ x, nextID ≤ x → (runAsLeader etcd).Free x)
    (hunique : UniqueAddr NodeInfo.address (runAsLeader etcd).nodes) {as : List Action}
    (hrun : exec (step clones) (World.start etcd nextID) as = some w)
    (halone : Guarded (step clones) Alone (World.start etcd nextID) as) : w.Addressed :=
  exec_invariant (fun _ _ _ h halone hs => World.Addressed.step h halone hs)
    ⟨World.integral_start hstart hfresh, .reload hunique (by simp [World.start])⟩ halone hrun

theorem World.Addressed.refused (h : w.Addressed) (hk : w.calls[k]? = some (.registerNode addr))
    {n : NodeInfo} (hn : w.mem.nodes id = some n) (haddr : n.address = addr) :
    Metadata.step clones w (.go k .ok) = some (w.set k .failed) := by
  obtain ⟨owner, hint⟩ := h.integral
  have hdup : w.mem.hasDuplicateAddr w.nextID addr = true :=
    (Memory.hasDuplicateAddr_iff fun x hx => (hint.mem_free x (.inl hx)).node).mpr
      ⟨id, n, hn, haddr⟩
  simp only [Metadata.step, hk, Option.bind_some, Metadata.callStep, hdup, if_true]

end Metadata
end StreamManager

/-! ## Partition servers -/

namespace Manager

open Lib StreamManager.Metadata

/-- The servers a partition manager knows, and the counter its numbers come from. -/
structure PSManager where
  psNodes : ℕ → Option PSDetail
  nextID : ℕ

/-- The loop over the servers in `RegisterPS`: it ends at a server with the address. -/
def hasDupLoop (addr : String) (hasDup : Bool) : List PSDetail → Bool
  | [] => hasDup
  | n :: nodes => if n.address = addr then hasDup else hasDupLoop addr hasDup nodes

/-- What a manager answers. -/
inductive PSAnswer where
  | err (msg : String)
  /-- `Code_ERROR`. -/
  | refused
  | ok (id : ℕ)
  deriving DecidableEq, Repr

/-- A request, and whether `allocUniqID` gives it a number. -/
structure PSRequest where
  addr : String
  allocates : Bool
  deriving DecidableEq, Repr

namespace PSManager

/-- The servers, in some order. -/
def servers (pm : PSManager) : List PSDetail := (List.range pm.nextID).filterMap pm.psNodes

/-- `RegisterPS`, with a transaction that succeeds. -/
def registerPS (pm : PSManager) (req : PSRequest) : PSManager × PSAnswer :=
  if req.addr = "" then (pm, .err "no address")
  else if hasDupLoop req.addr false pm.servers then (pm, .refused)
  else if req.allocates then
    ({ psNodes := Function.update pm.psNodes pm.nextID (some ⟨pm.nextID, req.addr⟩)
       nextID := pm.nextID + 1 }, .ok pm.nextID)
  else (pm, .err "failed to alloc uniq id")

/-- One request after the other. -/
def run (pm : PSManager) (reqs : List PSRequest) : PSManager :=
  reqs.foldl (fun pm req => (pm.registerPS req).1) pm

/-- Numbers are used once. -/
def Fresh (pm : PSManager) : Prop := ∀ id, pm.nextID ≤ id → pm.psNodes id = none

/-- No server has the address. -/
def Unused (pm : PSManager) (addr : String) : Prop :=
  ∀ id n, pm.psNodes id = some n → n.address ≠ addr

end PSManager

/-- The addresses that are registered. -/
def accepted (reqs : List PSRequest) : List String :=
  (reqs.filter fun req => req.addr ≠ "" ∧ req.allocates).map PSRequest.addr

theorem hasDupLoop_eq (addr : String) (hasDup : Bool) (nodes : List PSDetail) :
    hasDupLoop addr hasDup nodes = hasDup := by
  induction nodes with
  | nil => rfl
  | cons n nodes ih => rw [hasDupLoop, ih, ite_self]

namespace PSManager

/-- The manager after a server is added. -/
def add (pm : PSManager) (addr : String) : PSManager where
  psNodes := Function.update pm.psNodes pm.nextID (some ⟨pm.nextID, addr⟩)
  nextID := pm.nextID + 1

theorem registerPS_eq (pm : PSManager) (req : PSRequest) :
    (pm.registerPS req).1 = if req.addr ≠ "" ∧ req.allocates then pm.add req.addr else pm := by
  rw [registerPS, hasDupLoop_eq]
  by_cases haddr : req.addr = ""
  · simp [haddr]
  · cases hal : req.allocates <;> simp [haddr, add]

variable {pm : PSManager}

theorem Fresh.add (h : pm.Fresh) (addr : String) : (pm.add addr).Fresh := by
  intro id hid
  have hlt : pm.nextID < id := hid
  exact (Function.update_of_ne hlt.ne' _ _).trans (h id hlt.le)

theorem unique_add_iff (hfresh : pm.Fresh) (h : UniqueAddr PSDetail.address pm.psNodes)
    (addr : String) : UniqueAddr PSDetail.address (pm.add addr).psNodes ↔ pm.Unused addr := by
  constructor
  · intro hadd id n hn haddr
    have hne : id ≠ pm.nextID := by
      rintro rfl
      cases (hfresh _ le_rfl).symm.trans hn
    exact hne (hadd id pm.nextID n ⟨pm.nextID, addr⟩
      ((Function.update_of_ne hne _ _).trans hn) (Function.update_self ..) haddr)
  · intro hunused
    exact h.update hunused

theorem unused_add_iff (hfresh : pm.Fresh) {addr' : String} :
    (pm.add addr).Unused addr' ↔ pm.Unused addr' ∧ addr ≠ addr' := by
  constructor
  · intro h
    refine ⟨fun id n hn => ?_, h pm.nextID ⟨pm.nextID, addr⟩ (Function.update_self ..)⟩
    have hne : id ≠ pm.nextID := by
      rintro rfl
      cases (hfresh _ le_rfl).symm.trans hn
    exact h id n ((Function.update_of_ne hne _ _).trans hn)
  · rintro ⟨h, hne⟩ id n hn
    rcases update_eq_some hn with ⟨-, rfl⟩ | ⟨-, hn⟩
    · exact hne
    · exact h id n hn

theorem psNodes_run (hfresh : pm.Fresh) {n : PSDetail} (hn : pm.psNodes id = some n)
    (reqs : List PSRequest) : (pm.run reqs).psNodes id = some n := by
  induction reqs generalizing pm with
  | nil => exact hn
  | cons req reqs ih =>
    show ((pm.registerPS req).1.run reqs).psNodes id = some n
    rw [registerPS_eq]
    split_ifs
    · have hne : id ≠ pm.nextID := by
        rintro rfl
        cases (hfresh _ le_rfl).symm.trans hn
      exact ih (hfresh.add req.addr) ((Function.update_of_ne hne _ _).trans hn)
    · exact ih hfresh hn

theorem unique_of_unique_run (hfresh : pm.Fresh) {reqs : List PSRequest}
    (h : UniqueAddr PSDetail.address (pm.run reqs).psNodes) :
    UniqueAddr PSDetail.address pm.psNodes := by
  intro id id' n n' hn hn' haddr
  exact h id id' n n' (psNodes_run hfresh hn reqs) (psNodes_run hfresh hn' reqs) haddr

/-- The addresses are different after a sequence of requests exactly if the requests were for
different addresses that were not there before. -/
theorem unique_run_iff (hfresh : pm.Fresh) (h : UniqueAddr PSDetail.address pm.psNodes)
    (reqs : List PSRequest) :
    UniqueAddr PSDetail.address (pm.run reqs).psNodes ↔
      (accepted reqs).Nodup ∧ ∀ addr ∈ accepted reqs, pm.Unused addr := by
  induction reqs generalizing pm with
  | nil => simp [run, accepted, h]
  | cons req reqs ih =>
    have hrun : pm.run (req :: reqs) = ((pm.registerPS req).1).run reqs := rfl
    rw [hrun, registerPS_eq]
    by_cases hreq : req.addr ≠ "" ∧ req.allocates
    · have hacc : accepted (req :: reqs) = req.addr :: accepted reqs := by
        simp [accepted, hreq]
      rw [if_pos hreq, hacc, List.nodup_cons, List.forall_mem_cons]
      constructor
      · intro hunique
        have hadd := unique_of_unique_run (hfresh.add req.addr) hunique
        obtain ⟨hnodup, hunused⟩ := (ih (hfresh.add req.addr) hadd).mp hunique
        have hunused' := fun addr haddr => (unused_add_iff hfresh).mp (hunused addr haddr)
        refine ⟨⟨fun hmem => (hunused' _ hmem).2 rfl, hnodup⟩, ?_, fun addr haddr => ?_⟩
        · exact (unique_add_iff hfresh h req.addr).mp hadd
        · exact (hunused' addr haddr).1
      · rintro ⟨⟨hnew, hnodup⟩, hunused, hrest⟩
        have hadd := (unique_add_iff hfresh h req.addr).mpr hunused
        refine (ih (hfresh.add req.addr) hadd).mpr ⟨hnodup, fun addr haddr => ?_⟩
        refine (unused_add_iff hfresh).mpr ⟨hrest addr haddr, ?_⟩
        rintro rfl
        exact hnew haddr
    · have hacc : accepted (req :: reqs) = accepted reqs := by
        simp [accepted, hreq]
      rw [if_neg hreq, hacc]
      exact ih hfresh h

end PSManager

end Manager

/-! ## Both managers -/

namespace StreamManager
namespace Metadata

open Lib Manager

/-- **Registered addresses are different**, on two conditions.  At a stream manager: no request
looks for its address while another one for it is on its way; a request for a known address is then
refused.  At a partition manager: the requests are for different addresses that are not registered
yet. -/
theorem registered_addresses_unique {clones : Bool} {etcd : Store} {nextID : ℕ}
    (hstart : (runAsLeader etcd).Intact) (hfresh : ∀ x, nextID ≤ x → (runAsLeader etcd).Free x)
    (hunique : UniqueAddr NodeInfo.address (runAsLeader etcd).nodes) {as : List Action} {w : World}
    (hrun : exec (step clones) (World.start etcd nextID) as = some w)
    (halone : Guarded (step clones) Alone (World.start etcd nextID) as) {pm : PSManager}
    (hpm : pm.Fresh) (hservers : UniqueAddr PSDetail.address pm.psNodes) (reqs : List PSRequest) :
    (UniqueAddr NodeInfo.address w.mem.nodes ∧
      ∀ (k : ℕ) (addr : String) (id : ℕ) (n : NodeInfo), w.calls[k]? = some (.registerNode addr) →
        w.mem.nodes id = some n → n.address = addr →
        step clones w (.go k .ok) = some (w.set k .failed)) ∧
    (UniqueAddr PSDetail.address (pm.run reqs).psNodes ↔
      (accepted reqs).Nodup ∧ ∀ addr ∈ accepted reqs, pm.Unused addr) := by
  have hw := unique_nodes hstart hfresh hunique hrun halone
  refine ⟨⟨?_, fun k addr id n hk hn haddr => hw.refused hk hn haddr⟩,
    PSManager.unique_run_iff hpm hservers reqs⟩
  intro id id' n n' hn hn' haddr
  have hstored := hw.addresses.loaded
  exact hw.addresses.unique id id' n n' (hstored id n hn) (hstored id' n' hn') haddr

/-- A partition manager without servers. -/
def noServers : PSManager := ⟨fun _ => none, 1⟩

theorem registered_addresses_unique_threeNodes :
    ∃ w, exec (step false) World.init oneStream = some w ∧
      w.mem.nodes 1 = some ⟨1, "a"⟩ ∧ w.mem.nodes 2 = some ⟨2, "b"⟩ ∧
      UniqueAddr NodeInfo.address w.mem.nodes ∧
      UniqueAddr PSDetail.address (noServers.run
        [⟨"a", true⟩, ⟨"", true⟩, ⟨"b", true⟩]).psNodes := by
  obtain ⟨w, hw, hone, htwo⟩ : ∃ w ∈ exec (step false) World.init oneStream,
      w.mem.nodes 1 = some ⟨1, "a"⟩ ∧ w.mem.nodes 2 = some ⟨2, "b"⟩ := by decide +kernel
  have halone : Guarded (step false) Alone World.init oneStream := by decide +kernel
  have hunique : UniqueAddr NodeInfo.address (runAsLeader fun _ => none).nodes := by
    rintro id id' n n' ⟨⟩
  have hpm : noServers.Fresh := fun _ _ => rfl
  have hboth := registered_addresses_unique Memory.intact_empty (fun _ _ => ⟨rfl, rfl, rfl⟩) hunique
    hw halone hpm (by rintro id id' n n' ⟨⟩)
    [⟨"a", true⟩, ⟨"", true⟩, ⟨"b", true⟩]
  refine ⟨w, hw, hone, htwo, hboth.1.1, hboth.2.mpr ⟨by decide, ?_⟩⟩
  rintro addr - id n ⟨⟩

/-- Two requests for one address at a stream manager look before either of them writes. -/
def lookTogether : List Action :=
  [.registerNode "a", .registerNode "a", .go 0 .ok, .go 1 .ok, .go 0 .ok, .go 0 .ok, .go 0 .ok,
    .go 1 .ok, .go 1 .ok, .go 1 .ok]

/-- Both managers come to know one address under two numbers: the stream manager by two requests
that run together, the partition manager by two requests one after the other. -/
theorem registered_twice :
    (∃ w, exec codeStep World.init lookTogether = some w ∧
      w.mem.nodes 1 = some ⟨1, "a"⟩ ∧ w.mem.nodes 2 = some ⟨2, "a"⟩) ∧
    (noServers.run [⟨"a", true⟩, ⟨"a", true⟩]).psNodes 1 = some ⟨1, "a"⟩ ∧
    (noServers.run [⟨"a", true⟩, ⟨"a", true⟩]).psNodes 2 = some ⟨2, "a"⟩ := by
  decide +kernel

end Metadata
end StreamManager
end Autumn
