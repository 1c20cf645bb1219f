import Autumn.StreamManager.Integrity

/-!
# The maps of the leader and etcd

The maps are copies of etcd.  The two differ where a request stands between its transaction and its
update of the maps (`Call.pendingStream`, `Call.pendingExtent`), and nowhere else
(`maps_eq_of_settled`).

* A `CreateStream` adds a stream and an extent with new numbers.  Nobody else has them, so until the
  update no other request can touch the records (`Integrity`).
* A `Truncate` holds the lock of the streams from the read to the update.  So the list it has read
  is the list in etcd when it writes, and what it drops is what it says it removes.

A `StreamAllocExtent` reads the list, writes the longer list to etcd and appends to the map, each
with the lock released in between.  Two of them for one stream would lose an extent.  They do not
get there, since `cloneStream` does not return.
-/

namespace Autumn
namespace StreamManager
namespace Metadata

open Lib Manager List Function Option

/-- The stream whose record is in etcd and not yet in the map. -/
def Call.pendingStream : Call → Option ℕ
  | .committed j _ => some j.streamID
  | .cut s _ _ => some s
  | _ => none

/-- The extent whose record is in etcd and not yet in the map. -/
def Call.pendingExtent : Call → Option ℕ
  | .committed j _ => some j.extentID
  | _ => none

/-- What holds at request `k`, which is at the given place. -/
def Call.Coherent (stored mem : Memory) (lock : Option ℕ) (k : ℕ) : Call → Prop
  | .ready j _ extentIDs => j.isNew = true ∧ extentIDs = []
  | .committed j nodes => j.isNew = true ∧
      stored.streams j.streamID = some ⟨j.streamID, [j.extentID]⟩ ∧
      stored.extents j.extentID = some ⟨j.extentID, nodes⟩
  | .cutting s extentIDs _ => lock = some k ∧
      ∃ info, mem.streams s = some info ∧ info.extentIDs = extentIDs
  | .cut s extentIDs i => lock = some k ∧ stored.streams s = some ⟨s, extentIDs.drop i⟩
  | _ => True

structure Coherence (stored mem : Memory) (lock : Option ℕ) (calls : List Call) : Prop where
  coherent : ∀ (k : ℕ) (c : Call), calls[k]? = some c → c.Coherent stored mem lock k
  streams : ∀ s, (∀ c ∈ calls, c.pendingStream ≠ some s) → mem.streams s = stored.streams s
  extents : ∀ e, (∀ c ∈ calls, c.pendingExtent ≠ some e) → mem.extents e = stored.extents e

/-- The extents in `acked` are in the records of their streams, but for those in `removed`. -/
def Recorded (stored : Memory) (acked removed : List (ℕ × ℕ)) : Prop :=
  ∀ p ∈ acked, (∃ info, stored.streams p.1 = some info ∧ p.2 ∈ info.extentIDs) ∨ p ∈ removed

section Coherence

variable {stored mem : Memory} {lock : Option ℕ} {calls : List Call} {k : ℕ} {c : Call}

/-- Request `k` goes on to `c'`.  The copies may come to differ, or to agree, where `c'` or `c`
says so. -/
theorem Coherence.move (h : Coherence stored mem lock calls) (hk : calls[k]? = some c) (c' : Call)
    {stored' mem' : Memory} {lock' : Option ℕ} (hc' : c'.Coherent stored' mem' lock' k)
    (hother : ∀ (i : ℕ) (d : Call), i ≠ k → calls[i]? = some d → d.Coherent stored mem lock i →
      d.Coherent stored' mem' lock' i)
    (hstreams : ∀ s, c'.pendingStream ≠ some s →
      (c.pendingStream ≠ some s → mem.streams s = stored.streams s) →
        mem'.streams s = stored'.streams s)
    (hextents : ∀ e, c'.pendingExtent ≠ some e →
      (c.pendingExtent ≠ some e → mem.extents e = stored.extents e) →
        mem'.extents e = stored'.extents e) :
    Coherence stored' mem' lock' (calls.set k c') := by
  have hlt : k < calls.length := (List.getElem?_eq_some_iff.mp hk).1
  have hself : c' ∈ calls.set k c' := mem_set hlt c'
  -- What holds of `c` and of all requests after the step held of all requests before it.
  have hback : ∀ {P : Call → Prop}, (∀ d ∈ calls.set k c', P d) → P c → ∀ d ∈ calls, P d := by
    intro P hP hc d hd
    obtain ⟨i, hi⟩ := mem_iff_getElem?.mp hd
    by_cases hik : i = k
    · subst hik
      rwa [some.inj (hi.symm.trans hk)]
    · exact hP d (mem_of_getElem? ((getElem?_set_ne (Ne.symm hik)).trans hi))
  refine ⟨fun i d hi => ?_, fun s hs => ?_, fun e he => ?_⟩
  · by_cases hik : i = k
    · subst hik
      rw [getElem?_set_self hlt, some_inj] at hi
      exact hi ▸ hc'
    · rw [getElem?_set_ne (Ne.symm hik)] at hi
      exact hother i d hik hi (h.coherent i d hi)
  · exact hstreams s (hs c' hself) fun hcs => h.streams s (hback hs hcs)
  · exact hextents e (he c' hself) fun hce => h.extents e (hback he hce)

theorem Coherence.set (h : Coherence stored mem lock calls) (hk : calls[k]? = some c) (c' : Call)
    (hc' : c'.Coherent stored mem lock k) (hs : c.pendingStream = none)
    (he : c.pendingExtent = none) : Coherence stored mem lock (calls.set k c') :=
  h.move hk c' hc' (fun _ _ _ _ hd => hd) (fun _ _ h => h (by simp [hs]))
    (fun _ _ h => h (by simp [he]))

theorem Coherence.add (h : Coherence stored mem lock calls)
    (hc : ∀ k, c.Coherent stored mem lock k) :
    Coherence stored mem lock (calls ++ [c]) := by
  refine ⟨fun i d hi => ?_, fun s hp => h.streams s fun d hd => hp d (mem_append_left _ hd),
    fun e hp => h.extents e fun d hd => hp d (mem_append_left _ hd)⟩
  rcases Nat.lt_or_ge i calls.length with hlt | hge
  · rw [getElem?_append_left hlt] at hi
    exact h.coherent i d hi
  · rw [getElem?_append_right hge] at hi
    exact mem_singleton.mp (mem_of_getElem? hi) ▸ hc i

variable {owner : ℕ → ℕ} {nextID i s : ℕ} {j : Job} {extentIDs nodes : List ℕ}

theorem Integrity.stream_eq_none (hint : Integrity owner stored nextID mem calls) (hc : c ∈ calls)
    (hj : c.ids = j.ids) (hnew : j.isNew = true) : mem.streams j.streamID = none :=
  (hint.mem_free _ (.inr ⟨c, hc, by simp [hj, Job.ids, hnew]⟩)).stream

/-- The lock has been taken by one request at most. -/
theorem Call.Coherent.of_lock {stored' mem' : Memory} {lock' : Option ℕ}
    (h : c.Coherent stored mem lock k) (hl : lock ≠ some k)
    (hstored : ∀ j nodes, c = .committed j nodes →
      stored'.streams j.streamID = stored.streams j.streamID ∧
        stored'.extents j.extentID = stored.extents j.extentID) :
    c.Coherent stored' mem' lock' k := by
  cases c with
  | ready j nodes l => exact h
  | committed j nodes =>
    obtain ⟨hs, he⟩ := hstored j nodes rfl
    exact ⟨h.1, hs.trans h.2.1, he.trans h.2.2⟩
  | cutting s l i | cut s l i => exact absurd h.1 hl
  | _ => trivial

theorem Coherence.commit (h : Coherence stored mem lock calls)
    (hint : Integrity owner stored nextID mem calls)
    (hk : calls[k]? = some (.ready j nodes extentIDs)) :
    Coherence
      ((stored.setExtent ⟨j.extentID, nodes⟩).setStream j.streamID
        ⟨j.streamID, extentIDs ++ [j.extentID]⟩) mem lock
      (calls.set k (.committed j nodes)) := by
  obtain ⟨hnew, rfl⟩ := h.coherent k _ hk
  have hnone := hint.stream_eq_none (mem_of_getElem? hk) rfl hnew
  refine h.move hk (.committed j nodes) ⟨hnew, ?_, ?_⟩ (fun i d hik hi hd => ?_)
    (fun s hs hold => ?_) (fun e he hold => ?_)
  · exact update_self ..
  · exact update_self ..
  · cases d with
    | committed j' nodes' =>
      have hdisj := hint.disjoint k i _ _ hk hi (Ne.symm hik)
      have hs : j'.streamID ≠ j.streamID := fun hs =>
        hdisj j.streamID (by simp [Call.ids, Job.ids, hnew])
          (by simp [Call.ids, Job.ids, hd.1, hs])
      have he : j'.extentID ≠ j.extentID := fun he =>
        hdisj j.extentID j.extentID_mem_ids (he ▸ j'.extentID_mem_ids)
      exact ⟨hd.1, (update_of_ne hs ..).trans hd.2.1, (update_of_ne he ..).trans hd.2.2⟩
    | cut s l n =>
      -- The other request has found its stream in the map.
      have hs : s ≠ j.streamID := fun hs => by
        have hsome := (hint.linked _ (mem_of_getElem? hi)).1
        rw [hs, hnone] at hsome
        cases hsome
      exact ⟨hd.1, (update_of_ne hs ..).trans hd.2⟩
    | _ => exact hd
  · have hs : s ≠ j.streamID := fun hsj => hs (congrArg some hsj.symm)
    exact (hold (by simp [Call.pendingStream])).trans (update_of_ne hs ..).symm
  · have he : e ≠ j.extentID := fun hej => he (congrArg some hej.symm)
    exact (hold (by simp [Call.pendingExtent])).trans (update_of_ne he ..).symm

theorem Coherence.addExtent (h : Coherence stored mem none calls)
    (hint : Integrity owner stored nextID mem calls) (hk : calls[k]? = some (.committed j nodes)) :
    Coherence stored (mem.addExtent j.streamID ⟨j.extentID, nodes⟩) none (calls.set k .done) := by
  obtain ⟨hnew, hstream, hextent⟩ := h.coherent k _ hk
  have hnone := hint.stream_eq_none (mem_of_getElem? hk) rfl hnew
  have hmem : mem.addExtent j.streamID ⟨j.extentID, nodes⟩ =
      (mem.setExtent ⟨j.extentID, nodes⟩).setStream j.streamID ⟨j.streamID, [j.extentID]⟩ := by
    unfold Memory.addExtent
    rw [hnone]
  rw [hmem]
  refine h.move hk .done trivial (fun i d _ _ hd => hd.of_lock (by simp) fun _ _ _ => ⟨rfl, rfl⟩)
    (fun s _ hold => ?_) (fun e _ hold => ?_)
  · by_cases hs : s = j.streamID
    · subst hs
      exact (update_self ..).trans hstream.symm
    · exact (update_of_ne hs ..).trans
        (hold fun hsj => hs (some.inj hsj).symm)
  · by_cases he : e = j.extentID
    · subst he
      exact (update_self ..).trans hextent.symm
    · exact (update_of_ne he ..).trans
        (hold fun hej => he (some.inj hej).symm)

theorem Coherence.cutting (h : Coherence stored mem none calls) {e : ℕ} {info : StreamInfo}
    (hk : calls[k]? = some (.truncate s e)) (hinfo : mem.streams s = some info) :
    Coherence stored mem (some k) (calls.set k (.cutting s info.extentIDs i)) :=
  h.move hk _ ⟨rfl, info, hinfo, rfl⟩
    (fun _ _ _ _ hd => hd.of_lock (by simp) fun _ _ _ => ⟨rfl, rfl⟩)
    (fun _ _ hold => hold (by simp [Call.pendingStream]))
    (fun _ _ hold => hold (by simp [Call.pendingExtent]))

section

variable (h : Coherence stored mem lock calls) (hint : Integrity owner stored nextID mem calls)
include h hint

/-- A stream in the map is not the stream another request is about to add. -/
theorem Coherence.ne_committed (hs : (mem.streams s).isSome)
    (hi : calls[i]? = some (.committed j nodes)) : j.streamID ≠ s := by
  rintro rfl
  rw [hint.stream_eq_none (mem_of_getElem? hi) rfl (h.coherent i _ hi).1] at hs
  cases hs

theorem Coherence.stored_cutting (hk : calls[k]? = some (.cutting s extentIDs i)) :
    ∃ info, stored.streams s = some info ∧ info.extentIDs = extentIDs := by
  obtain ⟨hlock, info, hinfo, hl⟩ := h.coherent k _ hk
  refine ⟨info, ?_, hl⟩
  rw [← h.streams s fun d hd hp => ?_, hinfo]
  obtain ⟨n, hn⟩ := mem_iff_getElem?.mp hd
  cases d with
  | committed j nodes =>
    exact h.ne_committed hint (by simp [hinfo]) hn (some.inj hp)
  | cut s' l' i' =>
    have hnk : n = k := some.inj ((h.coherent n _ hn).1.symm.trans hlock)
    subst hnk
    cases hn.symm.trans hk
  | _ => cases hp

theorem Coherence.cut (hk : calls[k]? = some (.cutting s extentIDs i)) :
    Coherence (stored.setStream s ⟨s, extentIDs.drop i⟩) mem lock
      (calls.set k (.cut s extentIDs i)) := by
  obtain ⟨hlock, info, hinfo, -⟩ := h.coherent k _ hk
  refine h.move hk (.cut s extentIDs i) ⟨hlock, update_self ..⟩ (fun n d hnk hn hd => ?_)
    (fun t ht hold => ?_) (fun e _ hold => hold (by simp [Call.pendingExtent]))
  · refine hd.of_lock (fun hl => hnk (some.inj (hl.symm.trans hlock)))
      fun j nodes hc => ⟨update_of_ne ?_ .., rfl⟩
    exact h.ne_committed hint (by simp [hinfo]) (hc ▸ hn)
  · have ht : t ≠ s := fun hts => ht (congrArg some hts.symm)
    exact (hold (by simp [Call.pendingStream])).trans (update_of_ne ht ..).symm

end

theorem Coherence.unlock (h : Coherence stored mem lock calls)
    (hk : calls[k]? = some (.cut s extentIDs i)) :
    Coherence stored (mem.setStream s ⟨s, extentIDs.drop i⟩) none (calls.set k .done) := by
  obtain ⟨hlock, hstream⟩ := h.coherent k _ hk
  refine h.move hk .done trivial (fun n d hnk _ hd => ?_) (fun t _ hold => ?_)
    (fun e _ hold => hold (by simp [Call.pendingExtent]))
  · exact hd.of_lock (fun hl => hnk (some.inj (hl.symm.trans hlock)))
      fun _ _ _ => ⟨rfl, rfl⟩
  · by_cases ht : t = s
    · subst ht
      exact (update_self ..).trans hstream.symm
    · exact (update_of_ne ht ..).trans
        (hold fun hts => ht (some.inj hts).symm)

theorem Coherence.set_nodes (h : Coherence stored mem lock calls) (hk : calls[k]? = some c)
    (c' : Call) (hc' : c'.Coherent stored mem lock k) (hs : c.pendingStream = none)
    (he : c.pendingExtent = none) {n m : ℕ → Option NodeInfo} :
    Coherence { stored with nodes := n } { mem with nodes := m } lock (calls.set k c') :=
  have hset := h.set hk c' hc' hs he
  ⟨fun i d hi => by
    have hd := hset.coherent i d hi
    cases d <;> exact hd, hset.streams, hset.extents⟩

theorem Recorded.setStream {acked removed : List (ℕ × ℕ)} (h : Recorded stored acked removed)
    {i : StreamInfo} {g : List (ℕ × ℕ)} (hkept : ∀ old e, stored.streams s = some old → e ∈
      old.extentIDs → e ∈ i.extentIDs ∨ (s, e) ∈ g) :
    Recorded (stored.setStream s i) acked (removed ++ g) := by
  rintro ⟨t, e⟩ hp
  rcases h (t, e) hp with ⟨old, hold, he⟩ | hr
  · by_cases hts : t = s
    · subst hts
      rcases hkept old e hold he with he | hg
      · exact .inl ⟨i, update_self .., he⟩
      · exact .inr (mem_append_right _ hg)
    · exact .inl ⟨old, (update_of_ne hts ..).trans hold, he⟩
  · exact .inr (mem_append_left _ hr)

end Coherence

/-! ## Steps and runs -/

structure World.Coherent (w : World) : Prop where
  integral : w.Integral
  coherence : Coherence (runAsLeader w.etcd) w.mem w.streamLock w.calls
  recorded : Recorded (runAsLeader w.etcd) w.acked w.removed

variable {w : World}

theorem World.Coherent.callMove {w' : World} {k : ℕ} {c : Call} (h : w.Coherent)
    (hk : w.calls[k]? = some c) (hm : CallMove false w k c w') : w'.Coherent := by
  have hintegral := h.integral.callMove hk hm
  obtain ⟨⟨owner, hint⟩, hcoh, hrec⟩ := h
  cases hm with
  | fail hc =>
    have hpending : c.pendingStream = none ∧ c.pendingExtent = none := by
      cases c <;> first | exact ⟨rfl, rfl⟩ | cases hc
    exact ⟨hintegral, hcoh.set hk _ trivial hpending.1 hpending.2, hrec⟩
  | clone _ hc _ => cases hc
  | @commit j nodes extentIDs =>
    refine ⟨hintegral, (runAsLeader_extentPuts ..).symm ▸ hcoh.commit hint hk, ?_⟩
    obtain ⟨hnew, -⟩ := hcoh.coherent k _ hk
    have hnone : (runAsLeader w.etcd).streams j.streamID = none :=
      (hint.stored_free _ (.inr ⟨_, mem_of_getElem? hk,
        by simp [Call.unpublished, Call.ids, Job.ids, hnew]⟩)).stream
    have hrec' := Recorded.setStream (s := j.streamID)
      (i := ⟨j.streamID, extentIDs ++ [j.extentID]⟩)
      (g := []) hrec fun old e hold => absurd (hnone.symm.trans hold) (by simp)
    rw [append_nil] at hrec'
    exact (runAsLeader_extentPuts ..).symm ▸ hrec'
  | @addExtent j nodes hl =>
    refine ⟨hintegral, ?_, fun p hp => ?_⟩
    · show Coherence _ _ w.streamLock _
      rw [hl] at hcoh ⊢
      exact hcoh.addExtent hint hk
    · rcases mem_append.mp hp with hp | hp
      · exact hrec p hp
      · rw [mem_singleton.mp hp]
        exact .inl ⟨_, (hcoh.coherent k _ hk).2.1, .head _⟩
  | cutting hl hinfo _ =>
    rw [hl] at hcoh
    exact ⟨hintegral, hcoh.cutting hk hinfo, hrec⟩
  | @cut s i extentIDs =>
    refine ⟨hintegral, (runAsLeader_put_streams ..).symm ▸ hcoh.cut hint hk,
      (runAsLeader_put_streams ..).symm ▸ hrec.setStream fun old e hold he => ?_⟩
    -- What was in the record is in the list the request has read.
    obtain ⟨info, hinfo, hl⟩ := hcoh.stored_cutting hint hk
    rw [some.inj (hold.symm.trans hinfo), hl, ← take_append_drop i extentIDs] at he
    rcases mem_append.mp he with he | he
    · exact .inr (mem_map.mpr ⟨e, he, rfl⟩)
    · exact .inl he
  | unlock => exact ⟨hintegral, hcoh.unlock hk, hrec⟩
  | @register addr n =>
    have hset := hcoh.set_nodes hk (.registered addr n) trivial rfl rfl
      (n := ((runAsLeader w.etcd).addNode n addr).nodes) (m := w.mem.nodes)
    refine ⟨hintegral, (runAsLeader_put_nodes ..).symm ▸ hset, ?_⟩
    exact (runAsLeader_put_nodes ..).symm ▸ hrec
  | addNode => exact ⟨hintegral, hcoh.set_nodes hk .done trivial rfl rfl, hrec⟩
  | begin hj => exact ⟨hintegral, hcoh.set hk _ ⟨hj, rfl⟩ rfl rfl, hrec⟩
  | _ => exact ⟨hintegral, hcoh.set hk _ trivial rfl rfl, hrec⟩

theorem Coherence.reload {stored : Memory} {calls : List Call} (hfin : ∀ d ∈ calls, d.finished)
    (lock : Option ℕ) : Coherence stored stored lock calls :=
  ⟨fun k d hk => by
    have hd := hfin d (mem_of_getElem? hk)
    cases d <;> trivial,
    fun _ _ => rfl, fun _ _ => rfl⟩

theorem World.Coherent.step {w' : World} {a : Action} (h : w.Coherent)
    (hs : codeStep w a = some w') :
    w'.Coherent := by
  have hintegral := h.integral.step hs
  cases a with
  | go k i =>
    obtain ⟨c, hk, hs⟩ := bind_eq_some_iff.mp hs
    exact h.callMove hk (callMove_of_callStep hs)
  | reload =>
    simp only [codeStep, Metadata.step] at hs
    split_ifs at hs with hq
    cases hs
    exact ⟨hintegral, .reload hq _, h.recorded⟩
  | crash =>
    cases hs
    exact ⟨hintegral, .reload (by simp) _, h.recorded⟩
  | createStream | streamAllocExtent _ _ | truncate _ _ | registerNode _ =>
    cases hs
    exact ⟨hintegral, h.coherence.add fun _ => trivial, h.recorded⟩

/-- No request is between its transaction and its update of the maps. -/
def World.Settled (w : World) : Prop :=
  ∀ c ∈ w.calls, c.pendingStream = none ∧ c.pendingExtent = none

theorem World.Quiet.settled (h : w.Quiet) : w.Settled := fun c hc => by
  have := h c hc
  cases c <;> first | exact ⟨rfl, rfl⟩ | cases this

theorem etcd_eq_of_streams_eq_some {s : Store} {id : ℕ} {info : StreamInfo}
    (h : (runAsLeader s).streams id = some info) : s (.streams id) = some (.streamInfo info) := by
  obtain ⟨v, hv, hinfo⟩ := bind_eq_some_iff.mp h
  cases v with
  | streamInfo info' => rw [hv, some.inj hinfo]
  | _ => cases hinfo

section Runs

variable {etcd : Store} {nextID : ℕ} (hstart : (runAsLeader etcd).Intact)
  (hfresh : ∀ x, nextID ≤ x → (runAsLeader etcd).Free x)

include hstart hfresh

theorem coherent_of_exec {as : List Action}
    (h : exec codeStep (World.start etcd nextID) as = some w) : w.Coherent :=
  exec_invariant_of_step (fun _ _ _ hI hs => hI.step hs)
    ⟨World.integral_start hstart hfresh, .reload (by simp [World.start]) _,
      by simp [Recorded, World.start]⟩ h

theorem maps_eq_of_settled {as : List Action}
    (h : exec codeStep (World.start etcd nextID) as = some w) (hw : w.Settled) :
    w.mem.streams = (runAsLeader w.etcd).streams ∧
      w.mem.extents = (runAsLeader w.etcd).extents := by
  have hcoh := (coherent_of_exec hstart hfresh h).coherence
  exact ⟨funext fun s => hcoh.streams s fun c hc => by simp [(hw c hc).1],
    funext fun e => hcoh.extents e fun c hc => by simp [(hw c hc).2]⟩

/-- **No lost update.**  A leader starts with intact metadata in etcd.  After every interleaving of
requests: if none is in flight the maps are what would be loaded from etcd, and in any case an
extent whose allocation was acknowledged is in the record of its stream in etcd or was removed by a
`Truncate`. -/
theorem no_lost_update {as : List Action} {w : World}
    (h : exec codeStep (World.start etcd nextID) as = some w) :
    (w.Quiet → w.mem.streams = (runAsLeader w.etcd).streams ∧
      w.mem.extents = (runAsLeader w.etcd).extents) ∧
    ∀ s e, (s, e) ∈ w.acked →
      (∃ info, w.etcd (.streams s) = some (.streamInfo info) ∧ e ∈ info.extentIDs) ∨
        (s, e) ∈ w.removed := by
  refine ⟨fun hq => maps_eq_of_settled hstart hfresh h hq.settled, fun s e hack => ?_⟩
  rcases (coherent_of_exec hstart hfresh h).recorded (s, e) hack with ⟨info, hinfo, he⟩ | hr
  · exact .inl ⟨info, etcd_eq_of_streams_eq_some hinfo, he⟩
  · exact .inr hr

end Runs

/-- Etcd with a stream 1 of two extents 2 and 3 on the nodes 4, 5 and 6. -/
def twoExtents : Store
  | .streams 1 => some (.streamInfo ⟨1, [2, 3]⟩)
  | .extents 2 => some (.extentInfo ⟨2, [4, 5, 6]⟩)
  | .extents 3 => some (.extentInfo ⟨3, [6, 4, 5]⟩)
  | .nodes 4 => some (.nodeInfo ⟨4, "a"⟩)
  | .nodes 5 => some (.nodeInfo ⟨5, "b"⟩)
  | .nodes 6 => some (.nodeInfo ⟨6, "c"⟩)
  | _ => none

/-- A stream is created while a `Truncate` of another one has the lock. -/
def createdBeside : List Action :=
  [.createStream, .go 0 .ok, .go 0 (.nodes [4, 5, 6]), .go 0 .ok, .truncate 1 3, .go 1 .ok,
    .go 0 .ok, .go 0 .ok, .go 1 .ok, .go 1 .ok, .go 0 .ok]

theorem etcd_eq_of_extents_eq_some {s : Store} {id : ℕ} {info : ExtentInfo}
    (h : (runAsLeader s).extents id = some info) : s (.extents id) = some (.extentInfo info) := by
  obtain ⟨v, hv, hinfo⟩ := bind_eq_some_iff.mp h
  cases v with
  | extentInfo info' => rw [hv, some.inj hinfo]
  | _ => cases hinfo

theorem intact_twoExtents : (runAsLeader twoExtents).Intact := by
  have hstream : ∀ {s : ℕ} {info : StreamInfo}, (runAsLeader twoExtents).streams s = some info →
      s = 1 ∧ info = ⟨1, [2, 3]⟩ := by
    intro s info hs
    have hs := etcd_eq_of_streams_eq_some hs
    unfold twoExtents at hs
    split at hs <;> simp_all
  have hextent : ∀ {e : ℕ} {info : ExtentInfo}, (runAsLeader twoExtents).extents e = some info →
      info = ⟨2, [4, 5, 6]⟩ ∨ info = ⟨3, [6, 4, 5]⟩ := by
    intro e info he
    have he := etcd_eq_of_extents_eq_some he
    unfold twoExtents at he
    split at he <;> simp_all
  refine ⟨fun s info hs => ?_, fun s info hs => ?_, fun s s' info info' hs hs' _ _ _ => ?_,
    fun s info hs => ?_, fun e info he => ?_⟩
  · simp [(hstream hs).2]
  · simp [(hstream hs).2]
  · exact (hstream hs).1.trans (hstream hs').1.symm
  · rw [(hstream hs).2]
    decide
  · rcases hextent he with rfl | rfl <;> decide

theorem free_twoExtents {x : ℕ} (hx : 7 ≤ x) : (runAsLeader twoExtents).Free x := by
  refine ⟨?_, ?_, ?_⟩ <;>
  · simp only [runAsLeader, bind_eq_none_iff]
    intro v hv
    unfold twoExtents at hv
    split at hv <;> simp_all

theorem no_lost_update_createdBeside :
    ∃ w, ((runAsLeader twoExtents).Intact ∧ (∀ x, 7 ≤ x → (runAsLeader twoExtents).Free x) ∧
        exec codeStep (World.start twoExtents 7) createdBeside = some w ∧ w.Quiet ∧
        w.acked = [(7, 8)] ∧ w.removed = [(1, 2)]) ∧
      (w.Quiet → w.mem.streams = (runAsLeader w.etcd).streams ∧
        w.mem.extents = (runAsLeader w.etcd).extents) ∧
      ∀ s e, (s, e) ∈ w.acked →
        (∃ info, w.etcd (.streams s) = some (.streamInfo info) ∧ e ∈ info.extentIDs) ∨
          (s, e) ∈ w.removed := by
  obtain ⟨w, hw, hall⟩ : ∃ w ∈ exec codeStep (World.start twoExtents 7) createdBeside,
      w.Quiet ∧ w.acked = [(7, 8)] ∧ w.removed = [(1, 2)] := by decide +kernel
  exact ⟨w, ⟨intact_twoExtents, fun _ => free_twoExtents, hw, hall⟩,
    no_lost_update intact_twoExtents (fun _ => free_twoExtents) hw⟩

end Metadata
end StreamManager
end Autumn
