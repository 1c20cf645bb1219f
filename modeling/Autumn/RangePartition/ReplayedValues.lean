import Autumn.RangePartition.Origin
import Autumn.StreamClient.Iterator
import Mathlib.Algebra.Order.BigOperators.Group.List

/-!
# The memtable a replay rebuilds

After a restart the entries of the log are read back and put by the `writeToLSM` that
`writeRequests` uses.  An entry whose value is stored next to its key comes back whole.  Of the
others the reader drops the value and sets a bit of the meta byte, and `writeToLSM` builds the
pointer from what it is given.  The length in the pointer is what `updateStats` adds up when a
compaction drops the pair.
-/

namespace Autumn

open Lib Y List

/-- What `writeToLSM` puts for an entry. -/
def lsmPut (ei : EntryInfo) : InternalKey × ValueStruct := (ei.log.key, lsmValue ei)

/-- The same with a length of 0 in the pointer, if there is one. -/
def lsmPutNoLen (ei : EntryInfo) : InternalKey × ValueStruct :=
  if shouldWriteValueToLSM ei.log then lsmPut ei
  else (ei.log.key, { lsmValue ei with
    value := some (ValuePointer.encode ⟨ei.extentID, ei.offset, 0⟩) })

/-! ## What is read back -/

/-- The entries of blocks from offset `o` on, read block by block in replay mode. -/
def readEntriesOf (id : ℕ) : ℕ → List LogBlock → Option (List EntryInfo)
  | _, [] => some []
  | o, b :: bs =>
    (readBlockEntries id o b).bind fun es => (readEntriesOf id (o + b.size) bs).map (es ++ ·)

variable {bs : List LogBlock}

theorem readEntriesOf_eq {id o : ℕ} (h : ∀ b ∈ bs, b.WellFormed) :
    readEntriesOf id o bs = some (entriesAt id o bs) := by
  induction bs generalizing o with
  | nil => rfl
  | cons b bs ih =>
    rw [readEntriesOf, readBlockEntries_eq (h b (.head _)),
      ih fun c hc => h c (.tail _ hc), ← singleton_append (l := bs),
      entriesAt_append]
    simp

/-! ## What is put for it -/

theorem or_bitValuePointer_toUInt8 (m : UInt32) :
    (m ||| bitValuePointer.toUInt32).toUInt8 ||| bitValuePointer =
    m.toUInt8 ||| bitValuePointer := by
  have hbit : bitValuePointer.toUInt32.toUInt8 ||| bitValuePointer = bitValuePointer := by decide
  rw [UInt32.toUInt8_or, UInt8.or_assoc, hbit]

theorem or_and_self (m b : UInt32) : (m ||| b) &&& b = b := by
  apply UInt32.toBitVec_inj.mp
  ext i hi
  simp only [UInt32.toBitVec_and, UInt32.toBitVec_or, BitVec.getElem_and, BitVec.getElem_or]
  exact Bool.and_eq_right_iff_imp.mpr (by simp +contextual)

theorem shouldWriteValueToLSM_replayInfo (p : EntryInfo) :
    shouldWriteValueToLSM (replayInfo p).log = shouldWriteValueToLSM p.log := by
  by_cases hs : shouldWriteValueToLSM p.log = true
  · rw [replayInfo, if_pos hs]
  · have hbit : ¬ bitValuePointer.toUInt32 = 0 := by decide
    rw [replayInfo, if_neg hs, Bool.eq_false_iff.mpr hs]
    simp only [shouldWriteValueToLSM, or_and_self]
    simp [hbit]

/-- **One entry.**  The replay puts what the live entry puts, up to the length in the pointer. -/
theorem lsmPut_replayInfo (p : EntryInfo) : lsmPut (replayInfo p) = lsmPutNoLen p := by
  have hsame := shouldWriteValueToLSM_replayInfo p
  by_cases hs : shouldWriteValueToLSM p.log = true
  · have hlog : (replayInfo p).log = p.log := by rw [replayInfo, if_pos hs]
    rw [lsmPutNoLen, if_pos hs, lsmPut, lsmPut, lsmValue, lsmValue, hlog, if_pos hs, if_pos hs]
  · rw [lsmPutNoLen, if_neg hs, lsmPut, lsmValue, lsmValue, hsame, if_neg hs, if_neg hs,
      replayInfo_key, replayInfo_extentID, replayInfo_offset]
    rw [replayInfo, if_neg hs]
    simp only [or_bitValuePointer_toUInt8, length_nil]

theorem lsmPutNoLen_of_sameEntry {p : EntryInfo} {q : ℕ × EntryInfo} (h : SameEntry p q) :
    lsmPutNoLen p = lsmPutNoLen q.2 := by
  obtain ⟨hlog, hpos⟩ := h
  rw [lsmPutNoLen, lsmPutNoLen, lsmPut, lsmPut, lsmValue, lsmValue, ← hlog]
  split_ifs with hs
  · rfl
  · obtain ⟨he, ho⟩ := hpos.resolve_left hs
    rw [he, ho]

/-! ## A batch -/

/-- The entries of a batch behind the append, with the positions that the requests see. -/
def liveInfos (env : Env) (id o : ℕ) (reqs : List Entry) : List EntryInfo :=
  requestOrder (fillPositions id o (env.sortEntries.sort (tagged reqs)))

/-- **A batch.**  What the replay of its blocks puts are the pairs of the live entries without the
lengths. -/
theorem replay_perm (env : Env) (id o : ℕ) {reqs : List Entry}
    (hb : batchBlocks env reqs = some bs) :
    ((entriesAt id o bs).map lsmPut).Perm ((liveInfos env id o reqs).map lsmPutNoLen) := by
  have hsame := forall₂_placedAt_fillPositions id o hb
  have hmap : ∀ {ps : List EntryInfo} {qs : List (ℕ × EntryInfo)}, List.Forall₂ SameEntry ps qs →
      ps.map lsmPutNoLen = qs.map fun q => lsmPutNoLen q.2 := by
    intro ps qs h
    induction h with
    | nil => rfl
    | cons hpq _ ih => rw [map_cons, map_cons, lsmPutNoLen_of_sameEntry hpq, ih]
  have hleft : (entriesAt id o bs).map lsmPut = (placedAt id o bs).map lsmPutNoLen := by
    rw [entriesAt, map_map]
    exact map_congr_left fun p _ => lsmPut_replayInfo p
  rw [hleft, hmap hsame, liveInfos, requestOrder, map_map]
  exact ((perm_insertionSort _ _).map fun q : ℕ × EntryInfo => lsmPutNoLen q.2).symm

/-- The length in the pointer of a pair, as `updateStats` reads it. -/
def pointerLen (x : InternalKey × ValueStruct) : ℕ :=
  if x.2.isPointer then (ValuePointer.decode (x.2.value.getD [])).len else 0

theorem isPointer_or (m : UInt8) : (m ||| bitValuePointer) &&& bitValuePointer > 0 := by
  have hbit : (m ||| bitValuePointer) &&& bitValuePointer = bitValuePointer := by
    apply UInt8.toBitVec_inj.mp
    ext i hi
    simp only [UInt8.toBitVec_and, UInt8.toBitVec_or, BitVec.getElem_and, BitVec.getElem_or]
    exact Bool.and_eq_right_iff_imp.mpr (by simp +contextual)
  rw [hbit]
  decide

theorem ValuePointer.len_decode_encode (p : ValuePointer) :
    (decode p.encode).len = p.len % 2 ^ 32 := by
  have hdrop : p.encode.drop 12 = leBytes 4 p.len := by
    rw [encode, ← append_assoc]
    exact drop_left' (by simp)
  show leVal ((p.encode.drop 12).take 4) = p.len % 2 ^ 32
  have hpow : 256 ^ 4 = 2 ^ 32 := by decide
  rw [hdrop, take_of_length_le (length_leBytes 4 _).le, leVal_leBytes, hpow]

theorem pointerLen_lsmPut (ei : EntryInfo) :
    pointerLen (lsmPut ei) =
      if shouldWriteValueToLSM ei.log then 0 else ei.log.value.length % 2 ^ 32 := by
  rw [pointerLen, lsmPut, lsmValue]
  by_cases hs : shouldWriteValueToLSM ei.log = true
  · have hbit : ei.log.metaBits.toUInt8 &&& bitValuePointer = 0 := by
      have hand : ei.log.metaBits &&& bitValuePointer.toUInt32 = 0 := by
        simp only [shouldWriteValueToLSM, Bool.and_eq_true, beq_iff_eq] at hs
        exact hs.1
      have := congrArg UInt32.toUInt8 hand
      rwa [UInt32.toUInt8_and] at this
    simp [hs, ValueStruct.isPointer, hbit]
  · have hptr :
        (ei.log.metaBits.toUInt8 ||| bitValuePointer) &&& bitValuePointer > 0 := isPointer_or _
    simp only [hs, Bool.false_eq_true, if_false, ValueStruct.isPointer, hptr, decide_true, if_true,
      Option.getD_some]
    rw [ValuePointer.len_decode_encode]

theorem pointerLen_lsmPutNoLen (ei : EntryInfo) : pointerLen (lsmPutNoLen ei) = 0 := by
  by_cases hs : shouldWriteValueToLSM ei.log = true
  · rw [lsmPutNoLen, if_pos hs, pointerLen_lsmPut, if_pos hs]
  · rw [lsmPutNoLen, if_neg hs, pointerLen]
    split_ifs
    · exact ValuePointer.len_decode_encode ⟨ei.extentID, ei.offset, 0⟩
    · rfl

/-- A length that is 0 in 32 bits is not seen. -/
theorem lsmPutNoLen_eq {ei : EntryInfo}
    (h : shouldWriteValueToLSM ei.log = true ∨ ei.log.value.length % 2 ^ 32 = 0) :
    lsmPutNoLen ei = lsmPut ei := by
  by_cases hs : shouldWriteValueToLSM ei.log = true
  · rw [lsmPutNoLen, if_pos hs]
  · have hlen : ei.log.value.length % 256 ^ 4 = 0 := h.resolve_left hs
    have henc : ValuePointer.encode ⟨ei.extentID, ei.offset, 0⟩ =
        ValuePointer.encode ⟨ei.extentID, ei.offset, ei.log.value.length⟩ := by
      simp only [ValuePointer.encode]
      rw [← leBytes_mod 4 ei.log.value.length, hlen]
    rw [lsmPutNoLen, if_neg hs, lsmPut, lsmValue, if_neg hs, henc]

/-- **The memtable a replay rebuilds.**  The entries of the batch's blocks are read back, and they
put the pairs of the live entries with the lengths of the pointers replaced by 0.  The pairs are the
same altogether exactly if every value that is not stored next to its key has a length that is 0 as
a 32-bit number. -/
theorem replay_rebuilds_iff (env : Env) (id o : ℕ) {reqs : List Entry} {bs : List LogBlock}
    (hb : batchBlocks env reqs = some bs) :
    ∃ es, readEntriesOf id o bs = some es ∧
      (es.map lsmPut).Perm ((liveInfos env id o reqs).map lsmPutNoLen) ∧
      ((es.map lsmPut).Perm ((liveInfos env id o reqs).map lsmPut) ↔
        ∀ e ∈ reqs, shouldWriteValueToLSM e = true ∨ e.value.length % 2 ^ 32 = 0) := by
  have hperm := replay_perm env id o hb
  have hlogs : ((liveInfos env id o reqs).map EntryInfo.log).Perm reqs :=
    map_log_requestOrder_perm env id o reqs
  refine ⟨entriesAt id o bs, readEntriesOf_eq (wellFormed_of_entriesToBlocks hb), hperm, ?_⟩
  constructor
  · intro hsame
    -- the lengths add up to the same number on both sides, which is 0 on that of the replay
    have hsum := ((hperm.symm.trans hsame).map pointerLen).sum_eq
    rw [map_map, map_map] at hsum
    have hzero : ((liveInfos env id o reqs).map (pointerLen ∘ lsmPutNoLen)).sum = 0 := by
      rw [sum_eq_zero_iff]
      intro n hn
      obtain ⟨ei, -, rfl⟩ := mem_map.mp hn
      exact pointerLen_lsmPutNoLen ei
    rw [hzero, eq_comm, sum_eq_zero_iff] at hsum
    intro e he
    obtain ⟨ei, hei, rfl⟩ := mem_map.mp (hlogs.mem_iff.mpr he)
    have hlen := hsum _ (mem_map_of_mem hei)
    rw [Function.comp_apply, pointerLen_lsmPut] at hlen
    by_cases hs : shouldWriteValueToLSM ei.log = true
    · exact Or.inl hs
    · rw [if_neg hs] at hlen
      exact Or.inr hlen
  · intro hall
    have heq : (liveInfos env id o reqs).map lsmPutNoLen = (liveInfos env id o reqs).map lsmPut :=
      map_congr_left fun ei hei =>
        lsmPutNoLen_eq (hall _ (hlogs.mem_iff.mp (mem_map_of_mem hei)))
    rwa [← heq]

/-- A write and a deletion. -/
def smallBatch : List Entry :=
  [⟨keyWithTs [1] 1, [5, 6], 0, 0, 7⟩, ⟨keyWithTs [2] 2, [], bitDelete.toUInt32, 0, 0⟩]

theorem replay_rebuilds_iff_smallBatch :
    ∃ bs es, batchBlocks Env.plain smallBatch = some bs ∧ readEntriesOf 7 512 bs = some es ∧
      (es.map lsmPut).Perm ((liveInfos Env.plain 7 512 smallBatch).map lsmPut) := by
  obtain ⟨bs, hbs, -⟩ : ∃ bs ∈ batchBlocks Env.plain smallBatch, True := by decide +kernel
  obtain ⟨es, hes, -, hiff⟩ := replay_rebuilds_iff Env.plain 7 512 hbs
  exact ⟨bs, es, hbs, hes, hiff.mpr (by decide +kernel)⟩

/-- A write of a value of 2000 bytes. -/
def bigBatch : List Entry := [⟨keyWithTs [1] 1, List.replicate 2000 0, 0, 0, 0⟩]

/-- **The length is lost.**  The live pointer says 2000 bytes, the replayed one 0. -/
theorem replay_loses_length :
    ∃ bs es, batchBlocks Env.plain bigBatch = some bs ∧ readEntriesOf 7 512 bs = some es ∧
      ((liveInfos Env.plain 7 512 bigBatch).map fun ei => pointerLen (lsmPut ei)) = [2000] ∧
      (es.map fun ei => pointerLen (lsmPut ei)) = [0] ∧
      ¬ (es.map lsmPut).Perm ((liveInfos Env.plain 7 512 bigBatch).map lsmPut) := by
  obtain ⟨bs, hbs, es, hes, hzero⟩ : ∃ bs ∈ batchBlocks Env.plain bigBatch,
      ∃ es ∈ readEntriesOf 7 512 bs, (es.map fun ei => pointerLen (lsmPut ei)) = [0] := by
    decide +kernel
  have hlive :
      ((liveInfos Env.plain 7 512 bigBatch).map fun ei => pointerLen (lsmPut ei)) = [2000] := by
    decide +kernel
  refine ⟨bs, es, hbs, hes, hlive, hzero, fun hperm => ?_⟩
  have hlens := hperm.map pointerLen
  rw [map_map, map_map] at hlens
  have hlens : List.Perm [0] [2000] := by
    rw [← hzero, ← hlive]
    exact hlens
  exact absurd hlens (by decide)

end Autumn
