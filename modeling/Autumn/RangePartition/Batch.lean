import Autumn.RangePartition.Origin
import Mathlib.Algebra.Order.BigOperators.Group.List
import Mathlib.Algebra.Order.Ring.Nat

/-!
# A batch gets through

Runs of a batch from its requests to the memtable.  A batch that does not fit rotates the memtable
first.

* `exec_gather`: callers whose requests reach the next batch while another request waits.
* `exec_writeValueLog`, `step_rotate`, `exec_puts`: the pieces of `writeRequests`.
* `mem_putAll`, `exists_key_putAll`: what the memtable holds afterwards.
-/

namespace Autumn

open Lib Y List Skiplist

variable {env : Env} {w : World} {rp : RangePartition} {infos : List EntryInfo}

/-! ## Putting the entries of a batch -/

/-- The arena bytes that a `Put` of an entry takes with a node of height one. -/
def putSize (ei : EntryInfo) : ℕ := nodeSize 1 + ei.log.key.len + (lsmValue ei).encodedSize

/-- The estimate of `ensureRoomForWrite` has room for the tallest node and its alignment. -/
theorem putSize_add_le (ei : EntryInfo) : putSize ei + 77 ≤ estimatedSizeInSkl ei.log := by
  rw [putSize, estimatedSizeInSkl, lsmValue, nodeSize, nodeAllowance, maxNodeSize, maxHeight]
  split_ifs with h
  · simp only [ValueStruct.encodedSize, ValueStruct.valueLen, Option.getD_some]
    omega
  · simp only [ValueStruct.encodedSize, ValueStruct.valueLen, Option.getD_some,
      ValuePointer.length_encode, vptrSize]
    omega

/-- A memtable after the entries, put in order with nodes of height one. -/
def putAll (m : Skiplist) (infos : List EntryInfo) : Skiplist :=
  infos.foldl (fun m ei => m.put ei.log.key (lsmValue ei) 1) m

theorem memSize_put_le (m : Skiplist) (ei : EntryInfo) :
    (m.put ei.log.key (lsmValue ei) 1).memSize ≤ m.memSize + putSize ei := by
  simp only [put, putSize]
  split_ifs <;> omega

theorem mem_putAll {y : Pair} :
    ∀ {m : Skiplist}, y ∈ (putAll m infos).toSortedRun →
      y ∈ m.toSortedRun ∨ ∃ ei ∈ infos, y = lsmPair ei := by
  induction infos with
  | nil => exact fun hy => .inl hy
  | cons ei infos ih =>
    intro m hy
    rcases ih hy with hy | ⟨ei', hei', rfl⟩
    · rcases SortedRun.mem_put.mp hy with rfl | ⟨hy, _⟩
      · exact .inr ⟨ei, (.head _), rfl⟩
      · exact .inl hy
    · exact .inr ⟨ei', .tail _ hei', rfl⟩

theorem exists_key_putAll_of_mem {k : InternalKey} :
    ∀ {m : Skiplist}, (∃ y ∈ m.toSortedRun, y.1 = k) →
      ∃ y ∈ (putAll m infos).toSortedRun, y.1 = k := by
  induction infos with
  | nil => exact fun h => h
  | cons ei infos ih =>
    rintro m ⟨y, hy, rfl⟩
    refine ih ?_
    by_cases hk : y.1 = ei.log.key
    · exact ⟨_, SortedRun.mem_put.mpr (.inl rfl), hk.symm⟩
    · exact ⟨y, SortedRun.mem_put.mpr (.inr ⟨hy, hk⟩), rfl⟩

theorem exists_key_putAll {ei : EntryInfo} :
    ∀ {m : Skiplist}, ei ∈ infos → ∃ y ∈ (putAll m infos).toSortedRun, y.1 = ei.log.key := by
  induction infos with
  | nil => simp
  | cons e infos ih =>
    intro m hei
    rcases hei with _ | ⟨_, hei⟩
    · have hput : lsmPair ei ∈ (m.put ei.log.key (lsmValue ei) 1).toSortedRun :=
        SortedRun.mem_put.mpr (.inl rfl)
      exact exists_key_putAll_of_mem (m := m.put ei.log.key (lsmValue ei) 1) ⟨lsmPair ei, hput, rfl⟩
    · exact ih hei

/-- The loop around `writeToLSM`, when the arena has room for the batch. -/
theorem exec_puts {head : ValuePointer} {placed : List EntryInfo} :
    ∀ {todo : List EntryInfo} {w : World} {rp : RangePartition}, w.rp = some rp →
      rp.writer = .putting todo head placed →
      rp.mt.memSize + (todo.map putSize).sum ≤ maxSkipList →
      exec (step env) w (todo.map fun _ => .loc (.put 1)) = some { w with rp := some { rp with
        mt := putAll rp.mt todo
        writer := .putting [] head placed } }
  | [], w, rp, hrp, hw, _ => by
    simp only [map_nil, exec_nil, putAll, foldl_nil, ← hw, ← hrp]
  | ei :: todo, w, rp, hrp, hw, hroom => by
    have hput := memSize_put_le rp.mt ei
    rw [map_cons, sum_cons] at hroom
    have hfit : (rp.mt.put ei.log.key (lsmValue ei) 1).memSize ≤ maxSkipList := by omega
    have hstep : step env w (.loc (.put 1)) = some { w with rp := some { rp with
        mt := rp.mt.put ei.log.key (lsmValue ei) 1
        writer := .putting todo head placed } } := by
      simp [step, localStep, hrp, hw, RangePartition.lsmOp, Lsm.apply, Lsm.put, hfit]
    rw [map_cons, exec_cons_of_step hstep]
    refine (exec_puts rfl rfl ?_).trans rfl
    dsimp only
    omega

/-! ## The pieces of `writeRequests` -/

theorem exec_send (env : Env) {i : ℕ} {e : Entry} (hrp : w.rp = some rp)
    (hm : rp.mode.writes = true)
    (hd : rp.drawn[i]? = some e) (hch : rp.writeCh = []) (hr : isReqsTooBig rp.reqs = false) :
    exec (step env) w [.loc (.enqueue i), .loc .collect] = some { w with rp := some { rp with
      drawn := rp.drawn.eraseIdx i
      reqs := rp.reqs ++ [e] } } := by
  simp [exec_cons, step, localStep, hrp, hm, hd, hch, hr, writeChCapacity]

/-- The entries of calls of `Write` made one after the other. -/
def drawnFrom (seqNumber : ℕ) : List (Bytes × Bytes) → List Entry
  | [] => []
  | kv :: kvs => writeEntry kv.1 kv.2 (seqNumber + 1) :: drawnFrom (seqNumber + 1) kvs

theorem mem_drawnFrom {e : Entry} :
    ∀ {kvs : List (Bytes × Bytes)} {s : ℕ}, e ∈ drawnFrom s kvs →
      ∃ kv ∈ kvs, ∃ ts, e = writeEntry kv.1 kv.2 ts
  | [], _, h => by simp [drawnFrom] at h
  | kv :: kvs, s, h => by
    rcases h with _ | ⟨_, h⟩
    · exact ⟨kv, (.head _), s + 1, rfl⟩
    · obtain ⟨kv', hkv', hts⟩ := mem_drawnFrom h
      exact ⟨kv', .tail _ hkv', hts⟩

theorem length_drawnFrom :
    ∀ (s : ℕ) (kvs : List (Bytes × Bytes)), (drawnFrom s kvs).length = kvs.length
  | _, [] => rfl
  | s, _ :: kvs => by rw [drawnFrom, length_cons, length_cons, length_drawnFrom]

theorem isReqsTooBig_of_append {es fs : List Entry} (h : isReqsTooBig (es ++ fs) = false) :
    isReqsTooBig es = false := by
  simp only [isReqsTooBig, map_append, sum_append, length_append,
    Bool.or_eq_false_iff, decide_eq_false_iff_not, not_lt] at h ⊢
  omega

/-- Callers that write one after the other while the request of another one waits. -/
def gather (kvs : List (Bytes × Bytes)) : List Action :=
  kvs.flatMap fun kv => [.loc (.write kv.1 kv.2), .loc (.enqueue 1), .loc .collect]

theorem exec_gather (env : Env) {d : Entry} :
    ∀ {kvs : List (Bytes × Bytes)} {w : World} {rp : RangePartition}, w.rp = some rp →
      rp.mode = .running → rp.drawn = [d] → rp.writeCh = [] →
      isReqsTooBig (rp.reqs ++ drawnFrom rp.seqNumber kvs) = false →
      exec (step env) w (gather kvs) = some { w with rp := some { rp with
        seqNumber := rp.seqNumber + kvs.length
        reqs := rp.reqs ++ drawnFrom rp.seqNumber kvs } }
  | [], w, rp, hrp, _, _, _, _ => by
    simp only [gather, flatMap_nil, exec_nil, drawnFrom, append_nil, length_nil,
      Nat.add_zero, ← hrp]
  | kv :: kvs, w, rp, hrp, hm, hd, hch, hsmall => by
    have hwrite : step env w (.loc (.write kv.1 kv.2)) = some { w with rp := some { rp with
        seqNumber := rp.seqNumber + 1
        drawn := [d, writeEntry kv.1 kv.2 (rp.seqNumber + 1)] } } := by
      simp [step, localStep, hrp, hm, hd, Mode.isOpen]
    have hassoc : rp.reqs ++ drawnFrom rp.seqNumber (kv :: kvs) =
        rp.reqs ++ [writeEntry kv.1 kv.2 (rp.seqNumber + 1)] ++
          drawnFrom (rp.seqNumber + 1) kvs := by
      rw [drawnFrom, append_assoc, singleton_append]
    have hsend := exec_send env (w := { w with rp := some { rp with
        seqNumber := rp.seqNumber + 1
        drawn := [d, writeEntry kv.1 kv.2 (rp.seqNumber + 1)] } }) rfl (by simp [hm, Mode.writes])
      (i := 1) rfl hch (isReqsTooBig_of_append hsmall)
    rw [gather, flatMap_cons, cons_append, exec_cons_of_step hwrite, Lib.exec_append,
      hsend, Option.bind_some]
    rw [hassoc] at hsmall ⊢
    refine Eq.trans (exec_gather env rfl hm rfl hch hsmall) ?_
    simp [hd, Nat.add_assoc, Nat.add_comm 1]

theorem exec_writeValueLog {bs : List LogBlock} (hrp : w.rp = some rp) (hm : rp.mode.writes = true)
    (hw : rp.writer = .idle) (hr : rp.reqs ≠ []) (hb : batchBlocks env rp.reqs = some bs)
    (hlen : w.log.tail + blocksSize bs < 2 ^ 32) :
    exec (step env) w [.loc .startBatch, .appendOk] = some { w with
      log := w.log.append bs
      rp := some { rp with reqs := [], writer := afterAppend env w.log rp.reqs bs } } := by
  have hstart : step env w (.loc .startBatch) = some { w with rp := some { rp with
      reqs := [], writer := .appending rp.reqs } } := by
    simp [step, localStep, hrp, hm, hw, hr]
  rw [exec_cons_of_step hstart]
  simp only [exec_cons, step, Option.bind_some, hb, if_pos hlen, exec_nil]

theorem step_rotate (env : Env) {placed : List EntryInfo} {head : ValuePointer}
    (hrp : w.rp = some rp) (hw : rp.writer = .room infos head placed)
    (hn : ((infos.map EntryInfo.log).map estimatedSizeInSkl).sum ≤ maxSkipList)
    (hfull : maxSkipList ≤ rp.mt.memSize + ((infos.map EntryInfo.log).map estimatedSizeInSkl).sum)
    (hchan : rp.flushChan.length < flushChanCapacity) :
    step env w (.loc .ensureRoom) = some { w with rp := some { rp with
      flushChan := rp.flushChan ++ [⟨rp.mt, rp.vhead, rp.seqNumber + 1, false⟩]
      imm := rp.imm ++ [rp.mt]
      mt := new
      seqNumber := rp.seqNumber + 1
      writer := .putting infos head placed } } := by
  have h1 := not_lt.mpr hn
  have h2 := not_lt.mpr hfull
  simp only [step, hrp, Option.bind_some, localStep, hw, ensureRoomForWrite, gt_iff_lt, if_neg h1,
    if_neg h2, Lsm.rotate, if_pos hchan, Option.map_some, if_true]

/-! ## Sizes of a batch -/

theorem blocksSize_fillMixed_le :
    ∀ (es cur : List Entry) (tail : ℕ),
      blocksSize (fillMixed es cur tail) ≤ 4608 * (es.length + 1)
  | [], _, _ => by simp [fillMixed, LogBlock.size, maxMixedBlockSize]
  | e :: es, cur, tail => by
    rw [fillMixed]
    split_ifs
    · have := blocksSize_fillMixed_le es [e] e.size
      simp only [blocksSize_cons, LogBlock.size, maxMixedBlockSize, length_cons]
      omega
    · have := blocksSize_fillMixed_le es (cur ++ [e]) (tail + e.size)
      rw [length_cons]
      omega

theorem blocksSize_mixedBlocks_le (es : List Entry) :
    blocksSize (mixedBlocks es) ≤ 9216 * es.length := by
  cases es with
  | nil => simp [mixedBlocks]
  | cons e es =>
    have := blocksSize_fillMixed_le (e :: es) [] 0
    rw [length_cons] at this ⊢
    rw [mixedBlocks]
    omega

theorem size_valueBlock_le (e : Entry) : (valueBlock e).size ≤ e.size + 1023 := by
  simp only [LogBlock.size, valueBlock, ceil, u32]
  omega

theorem blocksSize_valueBlocks_le (es : List (ℕ × Entry)) :
    blocksSize (es.map fun x => valueBlock x.2) ≤ (es.map fun x => x.2.size + 1023).sum := by
  induction es with
  | nil => simp
  | cons x es ih =>
    have := size_valueBlock_le x.2
    rw [map_cons, map_cons, blocksSize_cons, sum_cons]
    omega

/-- The blocks of a batch whose small entries fit into mixed blocks, and a bound of their size. -/
theorem exists_batchBlocks (env : Env) {reqs : List Entry}
    (hsmall : ∀ e ∈ reqs, shouldWriteValueToLSM e = true → e.size ≤ maxMixedBlockSize) :
    ∃ bs, batchBlocks env reqs = some bs ∧
      blocksSize bs ≤ (reqs.map fun e => e.size + 9216).sum := by
  have hperm := env.sortEntries.perm (tagged reqs)
  have hall : (smallEntries (env.sortEntries.sort (tagged reqs))).all
      (fun x => x.2.size ≤ maxMixedBlockSize) = true := by
    rw [all_eq_true]
    intro x hx
    have hmem : x ∈ tagged reqs := hperm.mem_iff.mp ((takeWhile_sublist _).subset hx)
    have hreq : x.2 ∈ (tagged reqs).map Prod.snd := mem_map_of_mem hmem
    rw [map_snd_tagged] at hreq
    exact decide_eq_true (hsmall x.2 hreq
      (mem_takeWhile_imp (p := fun y : ℕ × Entry => shouldWriteValueToLSM y.2) hx))
  refine ⟨_, by rw [batchBlocks, entriesToBlocks, if_pos hall], ?_⟩
  have hsum : (reqs.map fun e => e.size + 9216).sum =
      ((env.sortEntries.sort (tagged reqs)).map fun x => x.2.size + 9216).sum := by
    rw [(hperm.map fun x => x.2.size + 9216).sum_eq]
    conv_lhs => rw [← map_snd_tagged reqs, map_map]
    rfl
  rw [hsum]
  generalize env.sortEntries.sort (tagged reqs) = es
  have hsplit : es.map (fun x => x.2.size + 9216) =
      (smallEntries es).map (fun x => x.2.size + 9216) ++
        (valueEntries es).map (fun x => x.2.size + 9216) := by
    rw [← map_append, smallEntries, valueEntries, takeWhile_append_dropWhile]
  rw [blocksSize_append, hsplit, sum_append]
  refine Nat.add_le_add ?_ ((blocksSize_valueBlocks_le _).trans ?_)
  · refine (blocksSize_mixedBlocks_le _).trans ?_
    rw [length_map]
    induction smallEntries es with
    | nil => simp
    | cons x xs ih =>
      rw [map_cons, sum_cons, length_cons]
      omega
  · exact sum_le_sum fun x _ => by omega

theorem sum_putSize_le (infos : List EntryInfo) :
    (infos.map putSize).sum + 77 * infos.length ≤
      ((infos.map EntryInfo.log).map estimatedSizeInSkl).sum := by
  induction infos with
  | nil => simp
  | cons ei infos ih =>
    have := putSize_add_le ei
    rw [map_cons, map_cons, map_cons, sum_cons, sum_cons, length_cons]
    omega

/-! ## A batch that rotates the memtable -/

/-- `writeRequests` from the append on, for a batch of `n` entries. -/
def batchActions (n : ℕ) : List Action :=
  [.loc .startBatch, .appendOk] ++
    (.loc .ensureRoom :: (List.replicate n (.loc (.put 1)) ++ [.finish]))

/-- A batch of at least two entries that fits a memtable but not the rest of this one: the
memtable becomes the newest immutable one, and the new memtable holds the batch. -/
theorem exec_batch_rotate (env : Env) (hrp : w.rp = some rp) (hm : rp.mode.writes = true)
    (hw : rp.writer = .idle) (hlen : 2 ≤ rp.reqs.length)
    (hsmall : ∀ e ∈ rp.reqs, shouldWriteValueToLSM e = true → e.size ≤ maxMixedBlockSize)
    (hlog : w.log.tail + (rp.reqs.map fun e => e.size + 9216).sum < 2 ^ 32)
    (hn : (rp.reqs.map estimatedSizeInSkl).sum ≤ maxSkipList)
    (hfull : maxSkipList ≤ rp.mt.memSize + (rp.reqs.map estimatedSizeInSkl).sum)
    (hchan : rp.flushChan.length < flushChanCapacity) :
    ∃ infos w' rp', exec (step env) w (batchActions rp.reqs.length) = some w' ∧
      w'.rp = some rp' ∧ (infos.map EntryInfo.log).Perm rp.reqs ∧
      rp'.mt = putAll new infos ∧ rp'.imm = rp.imm ++ [rp.mt] ∧
      rp'.tables = rp.tables ∧ rp'.seqNumber = rp.seqNumber + 1 := by
  obtain ⟨bs, hb, hbs⟩ := exists_batchBlocks env hsmall
  have hne : rp.reqs ≠ [] := ne_nil_of_length_pos (by omega)
  have hperm := map_log_requestOrder_perm env w.log.last.id w.log.tail rp.reqs
  have happend := exec_writeValueLog hrp hm hw hne hb (by omega)
  rw [afterAppend] at happend
  generalize requestOrder (fillPositions w.log.last.id w.log.tail
    (env.sortEntries.sort (tagged rp.reqs))) = infos at hperm happend
  have hest : ((infos.map EntryInfo.log).map estimatedSizeInSkl).sum =
      (rp.reqs.map estimatedSizeInSkl).sum := (hperm.map _).sum_eq
  have hcount : infos.length = rp.reqs.length := by simpa using hperm.length_eq
  have hputs := sum_putSize_le infos
  rw [← hest] at hn hfull
  have hrot := step_rotate env (w := { w with
      log := w.log.append bs
      rp := some { rp with
        reqs := []
        writer := .room infos ⟨w.log.last.id, w.log.tail + blocksSize bs, 0⟩
          (placedAt w.log.last.id w.log.tail bs) } }) rfl rfl hn hfull hchan
  refine ⟨infos, ?_⟩
  rw [batchActions, Lib.exec_append, happend, Option.bind_some, exec_cons_of_step hrot,
    Lib.exec_append, ← hcount, ← map_const', exec_puts rfl rfl, Option.bind_some]
  · exact ⟨_, _, rfl, rfl, hperm, rfl, rfl, rfl, rfl⟩
  · have hnew : new.memSize = 107 := rfl
    dsimp only
    omega

end Autumn
