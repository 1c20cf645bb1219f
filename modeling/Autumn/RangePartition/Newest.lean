import Autumn.RangePartition.Batch

/-!
# Newest version wins

`getValueStruct` stops at the first memtable that has any version of the key.  That is the newest
version when the versions of a key do not decrease from older to newer memtables, and nothing in the
code sees to it: a version is drawn before its request is sent to the channel, so two callers can be
put in the opposite order of their versions, with a rotation between the two puts.
-/

namespace Autumn

open Lib Y List Option InternalKey Skiplist Entry World

/-- The entry an action is about to put into the memtable. -/
def nextPut (rp : RangePartition) : Action → Option EntryInfo
  | .loc (.put _) =>
    match rp.writer with
    | .putting (ei :: _) _ _ => some ei
    | _ => none
  | .loc (.replayPut _) =>
    match rp.mode with
    | .replayPutting p _ => some (replayInfo p)
    | _ => none
  | _ => none

/-- The condition on a step: what it puts is not older than a version of the same user key in an
immutable memtable or a table. -/
def PutsOnTop (w : World) (a : Action) : Prop :=
  ∀ rp ei, w.rp = some rp → nextPut rp a = some ei → rp.toLsm.PutOnTop ei.log.key

instance (s : Lsm) (key : InternalKey) : Decidable (s.PutOnTop key) :=
  decidable_of_iff ((∀ m ∈ s.imm, ∀ x ∈ m.data.entries, x.1.userKey = key.userKey →
    x.1.ts ≤ key.ts) ∧
      ∀ t ∈ s.tables, ∀ x ∈ t.data.entries, x.1.userKey = key.userKey → x.1.ts ≤ key.ts)
    ⟨fun h => ⟨h.1, fun x hx => let ⟨t, ht, hxt⟩ := hx; h.2 t ht x hxt⟩,
      fun h => ⟨h.1, fun t ht x hx => h.2 x ⟨t, ht, hx⟩⟩⟩

instance (w : World) (a : Action) : Decidable (PutsOnTop w a) :=
  decidable_of_iff (∀ rp ∈ w.rp, ∀ ei ∈ nextPut rp a, rp.toLsm.PutOnTop ei.log.key)
    ⟨fun h rp ei hrp hei => h rp hrp ei hei, fun h rp hrp ei hei => h rp ei hrp hei⟩

/-- The layers of the partition are in order, if it is open. -/
def World.Layered (w : World) : Prop := ∀ rp, w.rp = some rp → rp.toLsm.Layered

variable {env : Env} {rp : RangePartition} {w : World} {s ts : ℕ} {v : UInt8}

theorem layered_localStep {rp' : RangePartition} {a : LocalAction} (hl : rp.toLsm.Layered)
    (hsane : rp.toLsm.Sane)
    (hput : ∀ ei, nextPut rp (.loc a) = some ei → rp.toLsm.PutOnTop ei.log.key)
    (hs : LocalStep env rp a rp') : rp'.toLsm.Layered := by
  cases hs with
  | roomRotate hw hs | replayRotate hm hs | closePush hm hw hs => exact hl.step hsane hs (by simp)
  | @put ei todo placed head height lsm hw hs =>
    refine hl.step hsane hs fun key vs h' hop => ?_
    obtain ⟨rfl, _, _⟩ := LsmOp.put.inj hop
    exact hput ei (by simp only [nextPut, hw])
  | background hop hs ha =>
    refine hl.step hsane hs ?_
    rintro key vs height rfl
    simp [LsmOp.isBackground] at hop
  | @replayPut p todo height lsm hm hs =>
    refine hl.step hsane hs fun key vs h' hop => ?_
    obtain ⟨rfl, _, _⟩ := LsmOp.put.inj hop
    exact hput (replayInfo p) (by simp only [nextPut, hm])
  | _ => exact hl

theorem layered_step {w' : World} {a : Action} (hb : w.Base) (hl : w.Layered) (hg : PutsOnTop w a)
    (hs : WorldStep env w a w') : w'.Layered := by
  intro rp' hrp'
  cases hs with
  | @loc a rp rp'' hrp hs =>
    cases hrp'
    exact layered_localStep (hl rp hrp) (hb.rp rp hrp).sane (fun ei => hg rp ei hrp) hs
  | @appendOk rp reqs bs hrp hw hbs hlen | @finish rp head placed hrp hw =>
    cases hrp'
    exact hl rp hrp
  | @store rp lsm hrp hs | @compactFinish rp c lsm hrp hc hs =>
    cases hrp'
    exact (hl rp hrp).step (hb.rp rp hrp).sane hs (by simp)
  | openPartition hrp =>
    cases hrp'
    exact Lsm.layered_opened _
  | closeEnd hrp | crash => cases hrp'
  | newExtent hid h0 hlt | appendGarbage hrp hw hbs hlen => exact hl rp' hrp'

theorem layered_of_exec {id : ℕ} (hid : id ≠ 0) {as : List Action}
    (hrun : exec (step env) (init id) as = some w)
    (hg : Guarded (step env) PutsOnTop (init id) as) : w.Base ∧ w.Layered := by
  refine exec_invariant (I := fun w => w.Base ∧ w.Layered) (fun s a s' hI hG hs => ?_)
    ⟨base_init hid, by simp [World.Layered, init]⟩ hg hrun
  exact ⟨hI.1.step (step_cases hs), layered_step hI.1 hI.2 hG (step_cases hs)⟩

/-- **Newest version wins**, in every run that puts on top. -/
theorem getValueStruct_newest {env : Env} {id : ℕ} (hid : id ≠ 0) {as : List Action} {w : World}
    (hrun : exec (step env) (World.init id) as = some w)
    (hg : Guarded (step env) PutsOnTop (World.init id) as) {rp : RangePartition}
    (hrp : w.rp = some rp) {k : Bytes} (hk : k ≠ []) (version : ℕ) :
    Answers rp.toLsm.visible k (if version = 0 then rp.seqNumber else version)
      (getValueStruct env rp.memTables rp.seqNumber rp.tables k version) := by
  obtain ⟨hb, hl⟩ := layered_of_exec hid hrun hg
  exact (hl rp hrp).getValueStruct_answers env hk rp.seqNumber version (hb.visible_pos hrp)

/-- The key was written twice, and its versions are in a table that a compaction made. -/
theorem getValueStruct_newest_compactedAndCrashed :
    ∃ w rp, exec (step Env.plain) (World.init 1) compactedAndCrashed = some w ∧ w.rp = some rp ∧
      Answers rp.toLsm.visible [107] rp.seqNumber
        (getValueStruct Env.plain rp.memTables rp.seqNumber rp.tables [107] 0) := by
  obtain ⟨w, hw, rp, hrp, -⟩ : ∃ w ∈ exec (step Env.plain) (init 1) compactedAndCrashed,
      ∃ rp ∈ w.rp, True := by decide +kernel
  exact ⟨w, rp, hw, hrp, getValueStruct_newest (by decide) hw (by decide +kernel) hrp (by decide) 0⟩

/-! ## A run that puts below a newer version

Two callers write to the same key.  The second one, with version 2, reaches the channel first and
is put.  The first one, with version 1, is in the next batch, behind sixteen entries with long
keys, which has no room in the memtable. -/

/-- The first part: versions 1 and 2 are drawn, and version 2 is put. -/
def overtaken : List Action :=
  [.openPartition, .loc .replayEnd, .loc (.write [107] [1]), .loc (.write [107] [2]),
    .loc (.enqueue 1), .loc .collect, .loc .startBatch, .appendOk, .loc .ensureRoom, .loc (.put 1),
    .finish]

/-- The other writes of the second batch. -/
def longKeys : List (Bytes × Bytes) :=
  (List.range 16).map fun i => (UInt8.ofNat i :: List.replicate 65391 0, List.replicate 1025 0)

/-- The whole run; both callers are acknowledged. -/
def overtaking : List Action :=
  overtaken ++ (gather longKeys ++ ([.loc (.enqueue 0), .loc .collect] ++ batchActions 17))

/-- What the first part leaves. -/
@[mk_iff]
structure Overtaken (w : World) (rp : RangePartition) : Prop where
  mode : rp.mode = .running
  writer : rp.writer = .idle
  drawn : rp.drawn = [writeEntry [107] [1] 1]
  writeCh : rp.writeCh = []
  reqs : rp.reqs = []
  seqNumber : rp.seqNumber = 2
  imm : rp.imm.length = 0
  flushChan : rp.flushChan.length = 0
  memSize : rp.mt.memSize = 147
  newer : ∃ y ∈ rp.mt.data.entries, y.1 = keyWithTs [107] 2
  tail : w.log.tail < 2 ^ 20

instance (w : World) (rp : RangePartition) : Decidable (Overtaken w rp) :=
  decidable_of_iff' _ (overtaken_iff w rp)

theorem exists_overtaken :
    ∃ w rp, exec (step Env.plain) (init 1) overtaken = some w ∧ w.rp = some rp ∧
      Overtaken w rp := by
  obtain ⟨w, hw, rp, hrp, h⟩ : ∃ w ∈ exec (step Env.plain) (init 1) overtaken,
      ∃ rp ∈ w.rp, Overtaken w rp := by decide +kernel
  exact ⟨w, rp, hw, hrp, h⟩

theorem length_of_mem_longKeys {kv : Bytes × Bytes} (h : kv ∈ longKeys) :
    kv.1.length = 65392 ∧ kv.2.length = 1025 := by
  obtain ⟨i, _, rfl⟩ := mem_map.mp h
  exact ⟨by rw [length_cons, length_replicate], length_replicate⟩

/-- The entries of the long keys: their sizes, and that they have other keys. -/
theorem sizes_of_mem_longKeys {e : Entry} (h : e ∈ drawnFrom s longKeys) :
    e.size = 66432 ∧ estimatedSizeInSkl e = 65523 ∧ shouldWriteValueToLSM e = false ∧
      e.key.userKey ≠ [107] := by
  obtain ⟨kv, hkv, ts, rfl⟩ := mem_drawnFrom h
  obtain ⟨h1, h2⟩ := length_of_mem_longKeys hkv
  have hbig : shouldWriteValueToLSM (writeEntry kv.1 kv.2 ts) = false := by
    simp [shouldWriteValueToLSM, writeEntry, h2, valueThrottle]
  refine ⟨?_, ?_, hbig, fun hk => ?_⟩
  · simp only [size, writeEntry, len, keyWithTs, h1, h2]
    decide
  · rw [estimatedSizeInSkl, hbig]
    simp only [writeEntry, len, keyWithTs, h1, Bool.false_eq_true, if_false]
    decide
  · have := congrArg length hk
    simp [writeEntry, keyWithTs, h1] at this

theorem sum_map_of_mem_longKeys (f : Entry → ℕ) {c : ℕ} (h : ∀ e ∈ drawnFrom s longKeys, f e = c) :
    ((drawnFrom s longKeys).map f).sum = 16 * c := by
  have hrep : (drawnFrom s longKeys).map f = replicate 16 c := by
    rw [eq_replicate_iff, length_map, length_drawnFrom]
    refine ⟨by rw [longKeys, length_map, length_range], fun x hx => ?_⟩
    obtain ⟨e, he, rfl⟩ := mem_map.mp hx
    exact h e he
  rw [hrep, sum_replicate_nat]

/-- A write of one byte to the key waits to be sent, and the memtable is not empty. -/
@[mk_iff]
structure Overdue (w : World) (rp : RangePartition) (v : UInt8) (ts : ℕ) : Prop where
  mode : rp.mode = .running
  writer : rp.writer = .idle
  drawn : rp.drawn = [writeEntry [107] [v] ts]
  writeCh : rp.writeCh = []
  reqs : rp.reqs = []
  flushChan : rp.flushChan.length = 0
  memSize : 91 ≤ rp.mt.memSize
  tail : w.log.tail < 2 ^ 20

instance (w : World) (rp : RangePartition) (v : UInt8) (ts : ℕ) : Decidable (Overdue w rp v ts) :=
  decidable_of_iff' _ (overdue_iff w rp v ts)

/-- The write is sent behind the long keys. -/
def lateBatch : List Action :=
  gather longKeys ++ ([.loc (.enqueue 0), .loc .collect] ++ batchActions 17)

/-- The late write goes into a new memtable, in front of the one that was there. -/
theorem Overdue.exists_exec (h : Overdue w rp v ts) (hrp : w.rp = some rp) :
    ∃ infos w' rp', exec (step Env.plain) w lateBatch = some w' ∧ w'.rp = some rp' ∧
      (infos.map EntryInfo.log).Perm
        (drawnFrom rp.seqNumber longKeys ++ [writeEntry [107] [v] ts]) ∧
      rp'.mt = putAll new infos ∧ rp'.imm = rp.imm ++ [rp.mt] ∧
      rp'.tables = rp.tables ∧ rp'.seqNumber = rp.seqNumber + 17 := by
  have hlong : longKeys.length = 16 := by rw [longKeys, length_map, length_range]
  have hreqs : rp.reqs ++ drawnFrom rp.seqNumber longKeys = drawnFrom rp.seqNumber longKeys := by
    rw [h.reqs, nil_append]
  have hsize := sum_map_of_mem_longKeys (s := rp.seqNumber) size fun e he =>
    (sizes_of_mem_longKeys he).1
  have hlog := sum_map_of_mem_longKeys (s := rp.seqNumber) (fun e => e.size + 9216) (c := 75648)
    fun e he => by rw [(sizes_of_mem_longKeys he).1]
  have hest := sum_map_of_mem_longKeys (s := rp.seqNumber) estimatedSizeInSkl fun e he =>
    (sizes_of_mem_longKeys he).2.1
  have hlate : (writeEntry [107] [v] ts).size = 14 ∧
      estimatedSizeInSkl (writeEntry [107] [v] ts) = 117 := by
    have hs : shouldWriteValueToLSM (writeEntry [107] [v] ts) = true := by
      simp [shouldWriteValueToLSM, writeEntry, valueThrottle]
    constructor
    · simp only [size, writeEntry, len, keyWithTs, length_singleton]
      decide
    · rw [estimatedSizeInSkl, if_pos hs]
      simp only [writeEntry, len, keyWithTs, length_singleton]
      decide
  have hfits : isReqsTooBig (drawnFrom rp.seqNumber longKeys) = false := by
    rw [isReqsTooBig, hsize, length_drawnFrom, hlong]
    decide
  -- The long keys reach the batch, and the late write behind them.
  have hgather := exec_gather Env.plain hrp h.mode h.drawn h.writeCh (hreqs ▸ hfits)
  rw [hreqs] at hgather
  have hsend := exec_send Env.plain (w := { w with rp := some { rp with
      seqNumber := rp.seqNumber + longKeys.length
      reqs := drawnFrom rp.seqNumber longKeys } }) (i := 0) (e := writeEntry [107] [v] ts) rfl
    (by simp [h.mode, Mode.writes]) (by simp [h.drawn]) h.writeCh hfits
  have hsmall : ∀ e ∈ drawnFrom rp.seqNumber longKeys ++ [writeEntry [107] [v] ts],
      shouldWriteValueToLSM e = true → e.size ≤ maxMixedBlockSize := by
    intro e he hsm
    rcases mem_append.mp he with he | he
    · exact absurd hsm (by simp [(sizes_of_mem_longKeys he).2.2.1])
    · rw [mem_singleton.mp he, hlate.1]
      decide
  have hlog : ((drawnFrom rp.seqNumber longKeys ++ [writeEntry [107] [v] ts]).map
      fun e => e.size + 9216).sum = 1219598 := by
    rw [map_append, sum_append, hlog, map_singleton, hlate.1]
    rfl
  have hest : ((drawnFrom rp.seqNumber longKeys ++ [writeEntry [107] [v] ts]).map
      estimatedSizeInSkl).sum = 1048485 := by
    rw [map_append, sum_append, hest, map_singleton, hlate.2]
    rfl
  have hlen : (drawnFrom rp.seqNumber longKeys ++ [writeEntry [107] [v] ts]).length = 17 := by
    rw [length_append, length_drawnFrom, hlong, length_singleton]
  have htail := h.tail
  have hmem := h.memSize
  obtain ⟨infos, w', rp', hexec, hrp', hperm, hmt, himm, htables, hseq⟩ :=
    exec_batch_rotate Env.plain (w := { w with rp := some { rp with
      seqNumber := rp.seqNumber + longKeys.length
      drawn := rp.drawn.eraseIdx 0
      reqs := drawnFrom rp.seqNumber longKeys ++ [writeEntry [107] [v] ts] } }) rfl
      (by simp [h.mode, Mode.writes]) h.writer (by rw [hlen]; decide) hsmall
      (by rw [hlog]; dsimp only; omega) (by rw [hest]; decide)
      (by rw [hest, maxSkipList]; dsimp only; omega) (by rw [h.flushChan]; decide)
  rw [hlen] at hexec
  refine ⟨infos, w', rp', ?_, hrp', hperm, hmt, himm, htables, ?_⟩
  · rw [lateBatch, exec_append, hgather, bind_some, exec_append, hsend, bind_some]
    exact hexec
  · rw [hseq, hlong]

section

variable {infos : List EntryInfo}
  (hperm : (infos.map EntryInfo.log).Perm (drawnFrom s longKeys ++ [writeEntry [107] [v] ts]))
include hperm

/-- Of the key, the new memtable holds the late write only. -/
theorem eq_late_of_mem {x : Pair} (hx : x ∈ (putAll new infos).toSortedRun)
    (hk : x.1.userKey = [107]) :
    ∃ ei : EntryInfo, ei.log = writeEntry [107] [v] ts ∧ x = lsmPair ei := by
  rcases mem_putAll hx with hx | ⟨ei, hei, rfl⟩
  · cases hx
  · rcases mem_append.mp (hperm.mem_iff.mp (mem_map_of_mem hei)) with he | he
    · exact absurd hk (sizes_of_mem_longKeys he).2.2.2
    · exact ⟨ei, mem_singleton.mp he, rfl⟩

/-- A read of the key stops at the new memtable and finds the late write. -/
theorem getValueStruct_late (hmt : rp.mt = putAll new infos) (hle : ts ≤ rp.seqNumber) :
    ∃ ei : EntryInfo, ei.log = writeEntry [107] [v] ts ∧
      getValueStruct Env.plain rp.memTables rp.seqNumber rp.tables [107] 0 =
        withVersion (lsmPair ei) := by
  obtain ⟨ei, hei, hlog⟩ : ∃ ei ∈ infos, ei.log = writeEntry [107] [v] ts :=
    mem_map.mp (hperm.mem_iff.mpr (mem_concat_self))
  obtain ⟨z, hz, hzk⟩ := exists_key_putAll (m := new) hei
  rw [← hmt] at hz
  rw [hlog] at hzk
  rw [getValueStruct, if_pos rfl, Lsm.memTables, searchMemTables_eq, findSome?_cons]
  cases hl : rp.mt.toSortedRun.lookup (keyWithTs [107] rp.seqNumber) with
  | none =>
    have habs := (looks_memTable [107] rp.seqNumber).none rp.mt hl z hz (congrArg _ hzk)
    rw [versionOf, hzk] at habs
    exact absurd hle (not_le.mpr habs)
  | some x =>
    have hx := (looks_memTable [107] rp.seqNumber).some rp.mt x hl
    obtain ⟨ei, hei, rfl⟩ := eq_late_of_mem hperm (hmt ▸ hx.mem) hx.key_eq
    exact ⟨ei, hei, rfl⟩

end

/-- The second part: version 1 goes into a new memtable, in front of the one with version 2. -/
theorem exists_overtaking :
    ∃ infos w rp, exec (step Env.plain) (init 1) overtaking = some w ∧ w.rp = some rp ∧
      (infos.map EntryInfo.log).Perm (drawnFrom 2 longKeys ++ [writeEntry [107] [1] 1]) ∧
      rp.mt = putAll new infos ∧ rp.seqNumber = 19 ∧
      ∃ m ∈ rp.imm, ∃ y ∈ m.toSortedRun, y.1 = keyWithTs [107] 2 := by
  obtain ⟨w, rp, hw, hrp, h⟩ := exists_overtaken
  have hdue : Overdue w rp 1 1 := { h with memSize := h.memSize ▸ by decide }
  obtain ⟨infos, w', rp', hexec, hrp', hperm, hmt, himm, -, hseq⟩ := hdue.exists_exec hrp
  rw [h.seqNumber] at hperm hseq
  obtain ⟨y, hy, hyk⟩ := h.newer
  refine ⟨infos, w', rp', ?_, hrp', hperm, hmt, hseq, rp.mt, ?_, y, hy, hyk⟩
  · rw [overtaking, exec_append, hw, bind_some]
    exact hexec
  · rw [himm]
    exact mem_concat_self

/-- **A read does not return the newest version**: it stops at version 1, although the immutable
memtable holds version 2 of the same key. -/
theorem getValueStruct_returns_older :
    ∃ w rp, exec (step Env.plain) (World.init 1) overtaking = some w ∧ w.rp = some rp ∧
      ¬ Answers rp.toLsm.visible [107] rp.seqNumber
        (getValueStruct Env.plain rp.memTables rp.seqNumber rp.tables [107] 0) := by
  obtain ⟨infos, w, rp, hw, hrp, hperm, hmt, hseq, m, hm, y, hy, hyk⟩ := exists_overtaking
  refine ⟨w, rp, hw, hrp, fun hans => ?_⟩
  obtain ⟨ei, hlog, hvs⟩ := getValueStruct_late hperm hmt (by rw [hseq]; decide)
  have hread :
      (getValueStruct Env.plain rp.memTables rp.seqNumber rp.tables [107] 0).version = 1 := by
    have hkey : (lsmPair ei).1 = keyWithTs [107] 1 := congrArg key hlog
    rw [hvs, withVersion, hkey]
    rfl
  -- Version 2 can be seen and is not above the version asked for.
  rcases hans with ⟨x, hx, hvs⟩ | ⟨_, hvs⟩
  · have hvis : y ∈ rp.toLsm.visible := Lsm.mem_visible.mpr (.inr (.inl ⟨m, hm, hy⟩))
    have hle : versionOf y ≤ versionOf x := hx.max y hvis (congrArg _ hyk) (by
      rw [versionOf, hyk, hseq]
      decide)
    have hxv : x.1.ts = 1 := (congrArg ValueStruct.version hvs).symm.trans hread
    rw [versionOf, versionOf, hyk, hxv] at hle
    exact absurd hle (by decide)
  · rw [hvs] at hread
    exact absurd hread (by decide)

end Autumn
