import Autumn.RangePartition.Machine

/-!
# What a step of the machine can do

`LocalStep` and `WorldStep` list the ways a step can go, each with the guards it passed and the
state it leaves; `localStep_cases` and `step_cases` say that there are no others.  What a step
within the process can do to each part of the partition is said once.
-/

namespace Autumn

open Lib Y List Option

/-- The operations the flusher and the compaction do on their own. -/
def LsmOp.isBackground : LsmOp → Bool
  | .receive | .build | .popImm | .notify | .compactStart | .compactSend _ _ => true
  | _ => false

/-- The position a replayed entry hands to `ensureRoomForWrite`. -/
def replayHead (p : EntryInfo) : ValuePointer := ⟨(replayInfo p).extentID, (replayInfo p).offset, 0⟩

/-- What a step within the process can do. -/
inductive LocalStep (env : Env) (rp : RangePartition) : LocalAction → RangePartition → Prop where
  | write {key value : Bytes} (ho : rp.mode.isOpen = true) :
      LocalStep env rp (.write key value) { rp with
        seqNumber := rp.seqNumber + 1
        drawn := rp.drawn ++ [writeEntry key value (rp.seqNumber + 1)] }
  | deleteMem {key : Bytes} (ho : rp.mode.isOpen = true) :
      LocalStep env rp (.deleteMem key)
        { rp with deletes := rp.deletes ++ [⟨key, rp.memTables, rp.seqNumber⟩] }
  | deleteMiss {i : ℕ} {d : DeleteSearch} (hd : rp.deletes[i]? = some d) :
      LocalStep env rp (.deleteTables i) { rp with deletes := rp.deletes.eraseIdx i }
  | deleteHit {i : ℕ} {d : DeleteSearch} (hd : rp.deletes[i]? = some d) :
      LocalStep env rp (.deleteTables i)
        { rp with deletes := rp.deletes.eraseIdx i, checked := rp.checked ++ [d.key] }
  | deleteDraw {key : Bytes} (hk : key ∈ rp.checked) :
      LocalStep env rp (.deleteDraw key) { rp with
        seqNumber := rp.seqNumber + 1
        checked := rp.checked.erase key
        drawn := rp.drawn ++ [deleteEntry key (rp.seqNumber + 1)] }
  | enqueue {i : ℕ} {e : Entry} (he : rp.drawn[i]? = some e) (hm : rp.mode.writes = true) :
      LocalStep env rp (.enqueue i)
        { rp with drawn := rp.drawn.eraseIdx i, writeCh := rp.writeCh ++ [e] }
  | reject {i : ℕ} (hm : rp.mode = .draining ∨ rp.mode = .flushing) :
      LocalStep env rp (.reject i) { rp with drawn := rp.drawn.eraseIdx i }
  | collect {e : Entry} {rest : List Entry} (hc : rp.writeCh = e :: rest)
      (hm : rp.mode.writes = true) :
      LocalStep env rp .collect { rp with writeCh := rest, reqs := rp.reqs ++ [e] }
  | startBatch (hw : rp.writer = .idle) (hm : rp.mode.writes = true) (hr : rp.reqs ≠ []) :
      LocalStep env rp .startBatch { rp with reqs := [], writer := .appending rp.reqs }
  | appendErr {reqs : List Entry} (hw : rp.writer = .appending reqs) :
      LocalStep env rp .appendErr { rp with writer := .idle }
  | roomFits {infos placed : List EntryInfo} {head : ValuePointer}
      (hw : rp.writer = .room infos head placed) :
      LocalStep env rp .ensureRoom { rp with writer := .putting infos head placed }
  | roomRotate {infos placed : List EntryInfo} {head : ValuePointer} {lsm : Lsm}
      (hw : rp.writer = .room infos head placed)
      (hs : LsmStep rp.toLsm (.rotate rp.vhead (rp.seqNumber + 1)) lsm) :
      LocalStep env rp .ensureRoom { rp with
        toLsm := lsm
        seqNumber := rp.seqNumber + 1
        writer := .putting infos head placed }
  | roomFull {infos placed : List EntryInfo} {head : ValuePointer}
      (hw : rp.writer = .room infos head placed) :
      LocalStep env rp .ensureRoom { rp with seqNumber := rp.seqNumber + 1 }
  | put {ei : EntryInfo} {todo placed : List EntryInfo} {head : ValuePointer} {height : ℕ}
      {lsm : Lsm} (hw : rp.writer = .putting (ei :: todo) head placed)
      (hs : LsmStep rp.toLsm (.put ei.log.key (lsmValue ei) height) lsm) :
      LocalStep env rp (.put height)
        { rp with toLsm := lsm, writer := .putting todo head placed }
  | background {a : LocalAction} {op : LsmOp} {lsm : Lsm} (hop : op.isBackground = true)
      (hs : LsmStep rp.toLsm op lsm)
      (ha : a ∈ [.receive, .build, .popImm, .notify, .compactStart] ∨
        ∃ now hs, a = .compactSend now hs) :
      LocalStep env rp a { rp with toLsm := lsm }
  | replayNext {p : EntryInfo} {todo : List EntryInfo} (hm : rp.mode = .replaying (p :: todo)) :
      LocalStep env rp .replayNext { rp with
        seqNumber := replaySeq rp.seqNumber (replayInfo p).log.key
        delivered := rp.delivered ++ [replayInfo p]
        mode := .makingRoom p todo }
  | replayFits {p : EntryInfo} {todo : List EntryInfo} (hm : rp.mode = .makingRoom p todo) :
      LocalStep env rp .replayRoom { rp with mode := .replayPutting p todo }
  | replayRotate {p : EntryInfo} {todo : List EntryInfo} {lsm : Lsm}
      (hm : rp.mode = .makingRoom p todo)
      (hs : LsmStep rp.toLsm (.rotate (replayHead p) (rp.seqNumber + 1)) lsm) :
      LocalStep env rp .replayRoom { rp with
        toLsm := lsm
        seqNumber := rp.seqNumber + 1
        mode := .replayPutting p todo }
  | replayFull {p : EntryInfo} {todo : List EntryInfo} (hm : rp.mode = .makingRoom p todo) :
      LocalStep env rp .replayRoom { rp with seqNumber := rp.seqNumber + 1 }
  | replayPut {p : EntryInfo} {todo : List EntryInfo} {height : ℕ} {lsm : Lsm}
      (hm : rp.mode = .replayPutting p todo)
      (hs : LsmStep rp.toLsm (.put (replayInfo p).log.key (lsmValue (replayInfo p)) height) lsm) :
      LocalStep env rp (.replayPut height) { rp with toLsm := lsm, mode := .replaying todo }
  | replayEnd (hm : rp.mode = .replaying []) :
      LocalStep env rp .replayEnd { rp with mode := .running }
  | closeStart (hm : rp.mode = .running) (hc : rp.compaction = none) :
      LocalStep env rp .closeStart { rp with mode := .draining }
  | closeEmpty (hm : rp.mode = .draining) (hw : rp.writer = .idle) (hmt : rp.mt.isEmpty = true) :
      LocalStep env rp .closePush { rp with mode := .flushing }
  | closePush {lsm : Lsm} (hm : rp.mode = .draining) (hw : rp.writer = .idle)
      (hs : LsmStep rp.toLsm (.rotate rp.vhead (rp.seqNumber + 1)) lsm) :
      LocalStep env rp .closePush { rp with toLsm := lsm, mode := .flushing }

variable {rp rp' : RangePartition} {env : Env} {a : LocalAction} {e : Entry}

theorem RangePartition.lsmOp_eq_some {op : LsmOp} (h : rp.lsmOp op = some rp') :
    ∃ lsm, LsmStep rp.toLsm op lsm ∧ rp' = { rp with toLsm := lsm } := by
  obtain ⟨lsm, hl, rfl⟩ := map_eq_some_iff.mp h
  exact ⟨lsm, Lsm.step_of_apply hl, rfl⟩

theorem ensureRoomForWrite_cases {entries : List Entry} {head : ValuePointer} {ok : Bool}
    (h : ensureRoomForWrite rp entries head = some (rp', ok)) :
    (rp' = rp ∧ ok = true) ∨
    (∃ lsm, LsmStep rp.toLsm (.rotate head (rp.seqNumber + 1)) lsm ∧
      rp' = { rp with toLsm := lsm, seqNumber := rp.seqNumber + 1 } ∧ ok = true) ∨
    (rp' = { rp with seqNumber := rp.seqNumber + 1 } ∧ ok = false) := by
  simp only [ensureRoomForWrite] at h
  split_ifs at h
  · cases h
    exact .inl ⟨rfl, rfl⟩
  · split at h
    next lsm hl =>
      cases h
      have hs : LsmStep rp.toLsm (.rotate head (rp.seqNumber + 1)) lsm :=
        Lsm.step_of_apply hl
      exact .inr (.inl ⟨lsm, hs, rfl, rfl⟩)
    next =>
      cases h
      exact .inr (.inr ⟨rfl, rfl⟩)

theorem localStep_cases (h : localStep env rp a = some rp') : LocalStep env rp a rp' := by
  cases a with
  | write key value | deleteMem key | deleteDraw key =>
    obtain ⟨hg, ⟨⟩⟩ := ite_none_right_eq_some.mp h
    constructor
    exact hg
  | deleteTables i =>
    simp only [localStep] at h
    split at h
    next d hd =>
      split_ifs at h
      · exact some.inj h ▸ .deleteMiss hd
      · exact some.inj h ▸ .deleteHit hd
    next => cases h
  | enqueue i | collect =>
    rw [localStep] at h
    split at h
    next =>
      obtain ⟨⟨hm, -⟩, ⟨⟩⟩ := ite_none_right_eq_some.mp h
      constructor <;> assumption
    next => cases h
  | reject i =>
    rw [localStep] at h
    split at h
    next hm =>
      obtain ⟨hg, ⟨⟩⟩ := ite_none_right_eq_some.mp h
      exact .reject (.inl hm)
    next hm =>
      obtain ⟨hg, ⟨⟩⟩ := ite_none_right_eq_some.mp h
      exact .reject (.inr hm)
    next => cases h
  | startBatch =>
    rw [localStep] at h
    split at h
    next hw =>
      obtain ⟨hg, ⟨⟩⟩ := ite_none_right_eq_some.mp h
      exact .startBatch hw hg.1 (by simpa using hg.2)
    next => cases h
  | appendErr | replayNext | replayEnd | closeStart =>
    rw [localStep] at h
    split at h <;> cases h
    constructor <;> assumption
  | ensureRoom =>
    rw [localStep] at h
    split at h
    next infos head placed hw =>
      obtain ⟨⟨r, ok⟩, hr, rfl⟩ := map_eq_some_iff.mp h
      rcases ensureRoomForWrite_cases hr with ⟨rfl, rfl⟩ | ⟨lsm, hs, rfl, rfl⟩ | ⟨rfl, rfl⟩
      · exact .roomFits hw
      · exact .roomRotate hw hs
      · exact .roomFull hw
    next => cases h
  | put height | replayPut height =>
    rw [localStep] at h
    split at h
    next =>
      obtain ⟨r, hr, rfl⟩ := map_eq_some_iff.mp h
      obtain ⟨lsm, hs, rfl⟩ := RangePartition.lsmOp_eq_some hr
      constructor <;> assumption
    next => cases h
  | receive | build | popImm | notify =>
    obtain ⟨lsm, hs, rfl⟩ := RangePartition.lsmOp_eq_some h
    exact .background rfl hs (.inl (by simp))
  | compactStart =>
    rw [localStep] at h
    split at h
    next =>
      obtain ⟨lsm, hs, rfl⟩ := RangePartition.lsmOp_eq_some h
      exact .background rfl hs (.inl (by simp))
    next => cases h
  | compactSend now hs =>
    obtain ⟨lsm, hstep, rfl⟩ := RangePartition.lsmOp_eq_some h
    exact .background rfl hstep (.inr ⟨now, hs, rfl⟩)
  | replayRoom =>
    rw [localStep] at h
    split at h
    next p todo hm =>
      obtain ⟨⟨r, ok⟩, hr, rfl⟩ := map_eq_some_iff.mp h
      rcases ensureRoomForWrite_cases hr with ⟨rfl, rfl⟩ | ⟨lsm, hs, rfl, rfl⟩ | ⟨rfl, rfl⟩
      · exact .replayFits hm
      · exact .replayRotate hm hs
      · exact .replayFull hm
    next => cases h
  | closePush =>
    rw [localStep] at h
    split at h
    next hm hw =>
      split_ifs at h with hempty hmt
      · exact some.inj h ▸ .closeEmpty hm hw hmt
      · obtain ⟨r, hr, rfl⟩ := map_eq_some_iff.mp h
        obtain ⟨lsm, hs, rfl⟩ := RangePartition.lsmOp_eq_some hr
        exact .closePush hm hw hs
    next => cases h

/-! ## What a step does to each part -/

/-- The entries of the batch being appended. -/
def Writer.pending : Writer → List Entry
  | .appending reqs => reqs
  | _ => []

/-- The entries of the batch that are appended and not put yet. -/
def Writer.infos : Writer → List EntryInfo
  | .room infos _ _ => infos
  | .putting todo _ _ => todo
  | _ => []

/-- The entries that have a version and are not in the log yet. -/
def RangePartition.inFlight (rp : RangePartition) : List Entry :=
  rp.drawn ++ (rp.writeCh ++ (rp.reqs ++ rp.writer.pending))

/-- The entry the replay closure has been given and has not put yet. -/
def Mode.current : Mode → List EntryInfo
  | .makingRoom p _ => [p]
  | .replayPutting p _ => [p]
  | _ => []

theorem Mode.current_subset_todo {m : Mode} {p : EntryInfo} (h : p ∈ m.current) : p ∈ m.todo := by
  cases m with
  | makingRoom q todo | replayPutting q todo => exact mem_singleton.mp h ▸ (.head _)
  | _ => simp [current] at h

/-- What the process puts and where it rotates: the entries of the batch or of the replay, at the
replay position reached. -/
def RangePartition.Makes (rp : RangePartition) : LsmOp → Prop
  | .put key vs _ => ∃ ei, key = ei.log.key ∧ vs = lsmValue ei ∧
      (ei ∈ rp.writer.infos ∨ ∃ p ∈ rp.mode.current, ei = replayInfo p)
  | .rotate vptr seqNum => seqNum = rp.seqNumber + 1 ∧
      ((vptr = rp.vhead ∧ (rp.writer ≠ .idle ∨ rp.mode = .draining)) ∨
        ∃ p ∈ rp.mode.current, vptr = replayHead p)
  | .saved | .compactFinish => False
  | _ => True

theorem RangePartition.Makes.of_background {op : LsmOp} (h : op.isBackground = true) :
    rp.Makes op := by
  cases op with
  | put key vs height | rotate vptr seqNum | saved | compactFinish => simp [LsmOp.isBackground] at h
  | _ => trivial

/-- The memtables and tables stay or make one operation. -/
theorem LocalStep.lsm_cases (hs : LocalStep env rp a rp') :
    rp'.toLsm = rp.toLsm ∨ ∃ op, LsmStep rp.toLsm op rp'.toLsm ∧ rp.Makes op := by
  cases hs with
  | roomRotate hw hs => exact .inr ⟨_, hs, rfl, .inl ⟨rfl, .inl (by simp [hw])⟩⟩
  | @put ei todo placed head height lsm hw hs =>
    exact .inr ⟨_, hs, ei, rfl, rfl, .inl (by simp [hw, Writer.infos])⟩
  | background hop hs ha => exact .inr ⟨_, hs, .of_background hop⟩
  | @replayRotate p todo lsm hm hs =>
    exact .inr ⟨_, hs, rfl, .inr ⟨p, by simp [hm, Mode.current], rfl⟩⟩
  | @replayPut p todo height lsm hm hs =>
    exact .inr ⟨_, hs, replayInfo p, rfl, rfl, .inr ⟨p, by simp [hm, Mode.current], rfl⟩⟩
  | closePush hm hw hs => exact .inr ⟨_, hs, rfl, .inl ⟨rfl, .inr hm⟩⟩
  | _ => exact .inl rfl

theorem LocalStep.seqNumber_le (hs : LocalStep env rp a rp') : rp.seqNumber ≤ rp'.seqNumber := by
  cases hs with
  | replayNext hm =>
    simp only [replaySeq]
    split_ifs <;> omega
  | _ => dsimp only; omega

/-- The entry a caller can draw now: that of a `Write`, or of a `Delete` that has found its key. -/
def RangePartition.Draws (rp : RangePartition) (e : Entry) : Prop :=
  (rp.mode.isOpen = true ∧ ∃ key value, e = writeEntry key value (rp.seqNumber + 1)) ∨
    ∃ key ∈ rp.checked, e = deleteEntry key (rp.seqNumber + 1)

theorem RangePartition.Draws.ts_eq (h : rp.Draws e) : e.key.ts = rp.seqNumber + 1 := by
  rcases h with ⟨_, key, value, rfl⟩ | ⟨key, _, rfl⟩
  · rfl
  · rfl

/-- Entries move on, and only a draw adds one. -/
theorem LocalStep.inFlight_cases (hs : LocalStep env rp a rp') :
    (∀ e ∈ rp'.inFlight, e ∈ rp.inFlight) ∨ ∃ e₀, rp.Draws e₀ ∧
      rp'.seqNumber = rp.seqNumber + 1 ∧ ∀ e ∈ rp'.inFlight, e ∈ rp.inFlight ∨ e = e₀ := by
  simp only [RangePartition.inFlight, mem_append]
  cases hs with
  | @write key value ho =>
    refine .inr ⟨_, .inl ⟨ho, key, value, rfl⟩, rfl, fun e he => ?_⟩
    rw [mem_append, mem_singleton] at he
    tauto
  | @deleteDraw key hk =>
    refine .inr ⟨_, .inr ⟨key, hk, rfl⟩, rfl, fun e he => ?_⟩
    rw [mem_append, mem_singleton] at he
    tauto
  | @enqueue i f hf hm =>
    refine .inl fun e he => ?_
    have hmem : f ∈ rp.drawn := mem_of_getElem? hf
    rw [mem_append, mem_singleton] at he
    rcases he with he | (he | rfl) | he
    · exact .inl (mem_of_mem_eraseIdx he)
    · exact .inr (.inl he)
    · exact .inl hmem
    · exact .inr (.inr he)
  | reject hm => exact .inl fun e he => he.imp mem_of_mem_eraseIdx id
  | collect hc hm =>
    refine .inl fun e he => ?_
    simp only [hc, mem_append, mem_cons] at he ⊢
    tauto
  | startBatch hw hm hr =>
    refine .inl fun e he => ?_
    simp only [Writer.pending, not_mem_nil, false_or] at he
    tauto
  | appendErr hw =>
    refine .inl fun e he => ?_
    simp only [Writer.pending, not_mem_nil, or_false] at he
    tauto
  | roomFits hw | roomRotate hw hs | put hw hs =>
    exact .inl fun e he => by simpa [Writer.pending, hw] using he
  | _ => exact .inl fun e he => he

theorem LocalStep.mem_inFlight (hs : LocalStep env rp a rp') (he : e ∈ rp'.inFlight) :
    e ∈ rp.inFlight ∨ (e.key.ts = rp.seqNumber + 1 ∧ rp'.seqNumber = rp.seqNumber + 1) := by
  rcases hs.inFlight_cases with h | ⟨e₀, hdraws, hseq, h⟩
  · exact .inl (h e he)
  · rcases h e he with he | rfl
    · exact .inl he
    · exact .inr ⟨hdraws.ts_eq, hseq⟩

theorem RangePartition.mem_inFlight_of_writer {head : ValuePointer} {writer : Writer}
    (hw : writer.pending = [])
    (he : e ∈ ({ rp with vhead := head, writer := writer } : RangePartition).inFlight) :
    e ∈ rp.inFlight := by
  simp only [inFlight, hw, append_nil, mem_append] at he ⊢
  tauto

theorem LocalStep.mem_infos (hs : LocalStep env rp a rp') {ei : EntryInfo}
    (h : ei ∈ rp'.writer.infos) : ei ∈ rp.writer.infos := by
  cases hs with
  | startBatch hw hm hr | appendErr hw => simp [Writer.infos] at h
  | roomFits hw | roomRotate hw hs => simpa [Writer.infos, hw] using h
  | put hw hs =>
    rw [hw]
    exact .tail _ h
  | _ => exact h

/-- Only a put of the replay takes an entry from what is to be replayed. -/
theorem LocalStep.todo_cases (hs : LocalStep env rp a rp') :
    rp'.mode.todo = rp.mode.todo ∨ ∃ p, rp.mode.todo = p :: rp'.mode.todo ∧
      p ∈ rp.mode.current ∧ lsmPair (replayInfo p) ∈ rp'.mt.puts := by
  cases hs with
  | replayPut hm hs =>
    cases hs with
    | put room => exact .inr ⟨_, by rw [hm]; rfl, by rw [hm]; exact .head _, mem_concat_self⟩
  | replayNext hm | replayFits hm | replayRotate hm hs | replayEnd hm | closeStart hm hc
  | closeEmpty hm hw hmt | closePush hm hw hs => exact .inl (by rw [hm]; rfl)
  | _ => exact .inl rfl

theorem LocalStep.todo_sublist (hs : LocalStep env rp a rp') :
    rp'.mode.todo.Sublist rp.mode.todo := by
  rcases hs.todo_cases with heq | ⟨p, heq, _⟩
  · rw [heq]
  · rw [heq]
    exact sublist_cons_self _ _

/-! ## The machine -/

/-- What a step of the machine can do. -/
inductive WorldStep (env : Env) (w : World) : Action → World → Prop where
  | loc {a : LocalAction} {rp rp' : RangePartition} (hrp : w.rp = some rp)
      (hs : LocalStep env rp a rp') : WorldStep env w (.loc a) { w with rp := some rp' }
  | newExtent {id : ℕ} (hid : id ∉ w.log.exs.map LogExtent.id) (h0 : id ≠ 0) (hlt : id < 2 ^ 64) :
      WorldStep env w (.newExtent id) { w with log := w.log.newExtent id }
  | appendGarbage {n : ℕ} {rp : RangePartition} {reqs : List Entry} {bs : List LogBlock}
      (hrp : w.rp = some rp) (hw : rp.writer = .appending reqs)
      (hb : batchBlocks env reqs = some bs) (hlen : w.log.tail + blocksSize bs < 2 ^ 32) :
      WorldStep env w (.appendGarbage n) { w with log := w.log.append (bs.take n) }
  | appendOk {rp : RangePartition} {reqs : List Entry} {bs : List LogBlock}
      (hrp : w.rp = some rp) (hw : rp.writer = .appending reqs)
      (hb : batchBlocks env reqs = some bs) (hlen : w.log.tail + blocksSize bs < 2 ^ 32) :
      WorldStep env w .appendOk { w with
        log := w.log.append bs
        rp := some { rp with writer := afterAppend env w.log reqs bs } }
  | finish {rp : RangePartition} {head : ValuePointer} {placed : List EntryInfo}
      (hrp : w.rp = some rp) (hw : rp.writer = .putting [] head placed) :
      WorldStep env w .finish { w with
        rp := some { rp with vhead := head, writer := .idle }
        acked := w.acked ++ placed }
  | store {rp : RangePartition} {lsm : Lsm} (hrp : w.rp = some rp)
      (hs : LsmStep rp.toLsm .saved lsm) :
      WorldStep env w .store { w with
        rp := some { rp with toLsm := lsm }
        stored := updateTableLocs w.stored rp.tables }
  | compactFinish {rp : RangePartition} {c : Compaction} {lsm : Lsm} (hrp : w.rp = some rp)
      (hc : rp.compaction = some c) (hs : LsmStep rp.toLsm .compactFinish lsm) :
      WorldStep env w .compactFinish { w with
        rp := some { rp with toLsm := lsm }
        stored := updateTableLocs w.stored lsm.tables
        merged := w.merged ++ c.tbls }
  | openPartition (hrp : w.rp = none) :
      WorldStep env w .openPartition
        { w with rp := some (openRangePartition w.log w.stored) }
  | closeEnd {rp : RangePartition} (hrp : w.rp = some rp) (hm : rp.mode = .flushing) :
      WorldStep env w .closeEnd { w with rp := none }
  | crash : WorldStep env w .crash { w with rp := none }

theorem step_cases {w w' : World} {a : Action} (h : step env w a = some w') :
    WorldStep env w a w' := by
  cases a with
  | loc a =>
    obtain ⟨rp, hrp, h⟩ := bind_eq_some_iff.mp h
    obtain ⟨rp', hs, rfl⟩ := map_eq_some_iff.mp h
    exact .loc hrp (localStep_cases hs)
  | newExtent id =>
    obtain ⟨hg, ⟨⟩⟩ := ite_none_right_eq_some.mp h
    exact .newExtent hg.1 hg.2.1 hg.2.2
  | appendGarbage n =>
    obtain ⟨rp, hrp, h⟩ := bind_eq_some_iff.mp h
    split at h
    next reqs hw =>
      obtain ⟨bs, hb, h⟩ := bind_eq_some_iff.mp h
      obtain ⟨hg, ⟨⟩⟩ := ite_none_right_eq_some.mp h
      exact .appendGarbage hrp hw hb hg
    next => cases h
  | appendOk =>
    obtain ⟨rp, hrp, h⟩ := bind_eq_some_iff.mp h
    split at h
    next reqs hw =>
      obtain ⟨bs, hb, h⟩ := bind_eq_some_iff.mp h
      obtain ⟨hg, ⟨⟩⟩ := ite_none_right_eq_some.mp h
      exact .appendOk hrp hw hb hg
    next => cases h
  | finish =>
    obtain ⟨rp, hrp, h⟩ := bind_eq_some_iff.mp h
    split at h
    next head placed hw => exact some.inj h ▸ .finish hrp hw
    next => cases h
  | store =>
    obtain ⟨rp, hrp, h⟩ := bind_eq_some_iff.mp h
    obtain ⟨rp', hr, rfl⟩ := map_eq_some_iff.mp h
    obtain ⟨lsm, hs, rfl⟩ := RangePartition.lsmOp_eq_some hr
    exact .store hrp hs
  | compactFinish =>
    obtain ⟨rp, hrp, h⟩ := bind_eq_some_iff.mp h
    obtain ⟨c, hc, h⟩ := bind_eq_some_iff.mp h
    obtain ⟨rp', hr, rfl⟩ := map_eq_some_iff.mp h
    obtain ⟨lsm, hs, rfl⟩ := RangePartition.lsmOp_eq_some hr
    exact .compactFinish hrp hc hs
  | openPartition =>
    simp only [step] at h
    split at h
    next hrp => exact some.inj h ▸ .openPartition hrp
    next => cases h
  | closeEnd =>
    obtain ⟨rp, hrp, h⟩ := bind_eq_some_iff.mp h
    split at h
    next hm _ _ => exact some.inj h ▸ .closeEnd hrp hm
    next => cases h
  | crash => exact some.inj h ▸ .crash

end Autumn
