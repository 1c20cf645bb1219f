import Autumn.RangePartition.Coverage
import Autumn.RangePartition.Origin

/-!
# Checkpoint coverage

After a crash the log is replayed from the position of the stored table with the greatest `LastSeq`,
so everything acknowledged before that position must be in a table.  In every state of every run,
every stored table is right about its position.

The position of a table is `rp.vhead` when the memtable was rotated, the end of the last batch that
had been put completely, or during a replay the block of the entry that no longer fitted.
Everything acknowledged before it had been put by then:

* a batch is acknowledged after its last `Put`, so an acknowledged entry is in the memtable, in a
  flush task, in a table, or still to be replayed (`kept`);
* the entries still to be replayed do not lie before the one being replayed (`order`);
* the entries of the batch in progress lie behind every position there is (`fresh`), because the
  log grows at its end only, also when an append fails or is not acknowledged.

Flushes and compactions carry the positions on without change (`Lsm.CoveredTo.step`).
-/

namespace Autumn

open Lib Y List LogStream Lsm World

/-- The acknowledged entries before a position. -/
def Counts (log : LogStream) (acked : List EntryInfo) (e o : ℕ) (p : EntryInfo) : Prop :=
  p ∈ acked ∧ p ∈ log.before e o

theorem not_counts_start (log : LogStream) (acked : List EntryInfo) (p : EntryInfo) :
    ¬ Counts log acked 0 0 p := by
  rintro ⟨_, h⟩
  simp [before] at h

/-- The entries of the batch that is appended and not acknowledged, with their positions. -/
def Writer.placed : Writer → List EntryInfo
  | .room _ _ placed => placed
  | .putting _ _ placed => placed
  | _ => []

/-- The end of that batch. -/
def Writer.heads : Writer → List ValuePointer
  | .room _ head _ => [head]
  | .putting _ head _ => [head]
  | _ => []

/-- Every entry of the batch in progress is still to be put, or has been put into the memtable. -/
def RangePartition.Awaits (rp : RangePartition) : Prop :=
  match rp.writer with
  | .room infos _ placed => ∀ p ∈ placed, ∃ ei ∈ infos, lsmPair ei = lsmPair p
  | .putting todo _ placed =>
    ∀ p ∈ placed, rp.mt.toSortedRun.Holds p ∨ ∃ ei ∈ todo, lsmPair ei = lsmPair p
  | _ => True

/-- The replay positions of a partition. -/
def RangePartition.Marks (rp : RangePartition) (e o : ℕ) : Prop :=
  rp.toLsm.Marks e o ∨ (rp.vhead.extentID = e ∧ rp.vhead.offset = o)

/-- The replay positions of the stored tables. -/
def World.StoredMarks (w : World) (e o : ℕ) : Prop :=
  ∃ t ∈ w.stored, t.vpExtentID = e ∧ t.vpOffset = o

/-- What holds of a partition. -/
structure RangePartition.Checkpoint (rp : RangePartition) (w : World) : Prop where
  valid : ∀ e o, rp.Marks e o → w.log.ValidPos e o
  covered : Lsm.CoveredTo (Counts w.log w.acked) rp.toLsm w.merged
  kept : ∀ p ∈ w.acked, rp.toLsm.Kept w.merged p ∨ p ∈ rp.mode.todo
  order : rp.mode.todo.Pairwise fun p q => q ∉ w.log.before p.extentID p.offset
  writes : rp.writer ≠ .idle → rp.mode.writes = true
  awaits : rp.Awaits
  placed : ∀ p ∈ rp.writer.placed, p ∈ w.log.placed
  heads : ∀ v ∈ rp.writer.heads, w.log.ValidPos v.extentID v.offset
  fresh : ∀ p ∈ rp.writer.placed, ∀ e o, rp.Marks e o ∨ w.StoredMarks e o →
    p ∉ w.log.before e o

/-- What holds of the whole state. -/
structure World.Checkpoint (w : World) : Prop where
  acked_placed : ∀ p ∈ w.acked, p ∈ w.log.placed
  stored_valid : ∀ e o, w.StoredMarks e o → w.log.ValidPos e o
  stored_covered : ∀ t ∈ w.stored, ∀ p, Counts w.log w.acked t.vpExtentID t.vpOffset p →
    Covered (w.stored ++ w.merged) p
  rp : ∀ rp, w.rp = some rp → rp.Checkpoint w

/-! ## Steps within the process -/

variable {rp : RangePartition} {w : World} {env : Env}
variable {p : EntryInfo}

section Local

variable {rp' : RangePartition} {a : LocalAction}

theorem LocalStep.vhead_eq (hs : LocalStep env rp a rp') : rp'.vhead = rp.vhead := by
  cases hs <;> rfl

theorem LocalStep.batch_subset (hs : LocalStep env rp a rp') :
    rp'.writer.placed ⊆ rp.writer.placed ∧ rp'.writer.heads ⊆ rp.writer.heads := by
  cases hs with
  | startBatch hw hm hr | appendErr hw => simp [Writer.placed, Writer.heads]
  | roomFits hw | roomRotate hw hs | put hw hs => simp [Writer.placed, Writer.heads, hw]
  | _ => exact ⟨fun _ => id, fun _ => id⟩

/-- The entry that leaves what is to be replayed is the one being replayed, and it has been put. -/
theorem LocalStep.todo_or_holds (hs : LocalStep env rp a rp') (h : p ∈ rp.mode.todo) :
    p ∈ rp'.mode.todo ∨ p ∈ rp.mode.current ∧ rp'.mt.toSortedRun.Holds p := by
  rcases hs.todo_cases with heq | ⟨q, heq, hq, hput⟩
  · exact .inl (heq ▸ h)
  · rw [heq, mem_cons] at h
    rcases h with rfl | h
    · exact .inr ⟨hq, .inr hput⟩
    · exact .inl h

theorem LocalStep.writes (hs : LocalStep env rp a rp')
    (h : rp.writer ≠ .idle → rp.mode.writes = true) :
    rp'.writer ≠ .idle → rp'.mode.writes = true := by
  intro hne
  cases hs with
  | startBatch hw hm hr => exact hm
  | appendErr hw => exact absurd rfl hne
  | roomFits hw | roomRotate hw hs | put hw hs => exact h (by simp [hw])
  | replayNext hm | replayFits hm | replayRotate hm hs | replayPut hm hs =>
    simpa [hm, Mode.writes] using h hne
  | replayEnd hm => rfl
  | closeStart hm hc => rfl
  | closeEmpty hm hw hmt | closePush hm hw hs => exact absurd hw hne
  | _ => exact h hne

theorem not_writes_of_current {m : Mode} (h : p ∈ m.current) : m.writes = false := by
  cases m <;> simp [Mode.current] at h <;> rfl

theorem todo_eq_nil_of_writes {m : Mode} (h : m.writes = true) : m.todo = [] := by
  cases m <;> simp [Mode.writes] at h <;> rfl

theorem idle_of_not_writes (h : rp.writer ≠ .idle → rp.mode.writes = true)
    (hm : rp.mode.writes = false) : rp.writer = .idle := by
  by_contra hne
  rw [h hne] at hm
  cases hm

/-- An operation that neither puts nor rotates leaves what the batch awaits. -/
theorem RangePartition.Awaits.lsm (h : rp.Awaits) {lsm : Lsm} (hmt : lsm.mt = rp.mt) :
    ({ rp with toLsm := lsm } : RangePartition).Awaits := by
  simpa only [RangePartition.Awaits, hmt] using h

theorem LocalStep.awaits (hs : LocalStep env rp a rp') (h : rp.Awaits)
    (hwrites : rp.writer ≠ .idle → rp.mode.writes = true) : rp'.Awaits := by
  cases hs with
  | startBatch hw hm hr => trivial
  | appendErr hw => trivial
  | roomFits hw | roomRotate hw hs =>
    simp only [RangePartition.Awaits, hw] at h ⊢
    exact fun p hp => .inr (h p hp)
  | @put ei todo placed head height lsm hw hs =>
    cases hs with
    | put room =>
      simp only [RangePartition.Awaits, hw] at h ⊢
      intro p hp
      rcases h p hp with h | ⟨ei', hei', heq⟩
      · exact .inl (h.put _ _)
      · rcases hei' with _ | ⟨_, hei'⟩
        · refine .inl (.inl ?_)
          rw [← heq]
          exact mem_concat_self
        · exact .inr ⟨ei', hei', heq⟩
  | @background a op lsm hop hs ha =>
    rcases mt_of_step hs with hmt | ⟨_, _, _, rfl, _⟩ | ⟨_, _, rfl, _⟩
    · exact h.lsm hmt
    · cases hop
    · cases hop
  | replayRotate hm hs | replayPut hm hs =>
    simp [RangePartition.Awaits, idle_of_not_writes hwrites (by simp [hm, Mode.writes])]
  | closePush hm hw hs => simp [RangePartition.Awaits, hw]
  | _ => exact h

/-- Where a position can come from within the process. -/
theorem LocalStep.marks (hs : LocalStep env rp a rp') (hsane : rp.toLsm.Sane) {e o : ℕ}
    (hm : rp'.Marks e o) :
    rp.Marks e o ∨ (e = 0 ∧ o = 0) ∨
      ∃ p ∈ rp.mode.current, p.extentID = e ∧ p.offset = o := by
  rcases hm with hm | hv
  · rcases hs.lsm_cases with heq | ⟨op, hop, hmakes⟩
    · exact .inl (.inl (heq ▸ hm))
    · rcases marks_of_step hsane hop hm with hm | h0 | ⟨vptr, seqNum, rfl, he, ho⟩
      · exact .inl (.inl hm)
      · exact .inr (.inl h0)
      · rcases hmakes.2 with ⟨rfl, _⟩ | ⟨p, hp, rfl⟩
        · exact .inl (.inr ⟨he, ho⟩)
        · refine .inr (.inr ⟨p, hp, ?_, ?_⟩)
          · rw [← he, replayHead, replayInfo_extentID]
          · rw [← ho, replayHead, replayInfo_offset]
  · rw [hs.vhead_eq] at hv
    exact .inl (.inr hv)

section

variable (h : rp.Checkpoint w) (hwf : w.log.WellFormed)
  (htodo : ∀ p ∈ rp.mode.todo, p ∈ w.log.placed) {vptr : ValuePointer} {seqNum : ℕ}
  (hmakes : rp.Makes (.rotate vptr seqNum))
include h hwf htodo hmakes

/-- What is still to be replayed lies behind the position of a rotation: at the block of the entry
being replayed, or behind it. -/
theorem RangePartition.Checkpoint.not_mem_todo_of_rotate
    (hbefore : p ∈ w.log.before vptr.extentID vptr.offset) : p ∉ rp.mode.todo := by
  intro hk
  rcases hmakes.2 with ⟨_, hmode⟩ | ⟨q, hq, rfl⟩
  · have hwrites : rp.mode.writes = true := by
      rcases hmode with hne | hdrain
      · exact h.writes hne
      · rw [hdrain]
        rfl
    rw [todo_eq_nil_of_writes hwrites] at hk
    cases hk
  · rw [replayHead, replayInfo_extentID, replayInfo_offset] at hbefore
    have hqp := not_mem_before_self hwf (htodo q (Mode.current_subset_todo hq))
    have horder := h.order
    cases hmode : rp.mode with
    | makingRoom r todo | replayPutting r todo =>
      rw [hmode, Mode.current, mem_singleton] at hq
      rw [hmode, Mode.todo, mem_cons] at hk
      rw [hmode, Mode.todo, pairwise_cons] at horder
      subst hq
      rcases hk with rfl | hk
      · exact hqp hbefore
      · exact horder.1 p hk hbefore
    | _ => simp [hmode, Mode.current] at hq

/-- So a rotation finds everything acknowledged before its position kept. -/
theorem RangePartition.Checkpoint.kept_of_rotate
    (hp : Counts w.log w.acked vptr.extentID vptr.offset p) :
    rp.toLsm.Kept w.merged p :=
  (h.kept p hp.1).resolve_right (h.not_mem_todo_of_rotate hwf htodo hmakes hp.2)

end

theorem RangePartition.Checkpoint.step (h : rp.Checkpoint w) (hb : rp.Base w.log)
    (hwf : w.log.WellFormed) (hs : LocalStep env rp a rp') : rp'.Checkpoint w := by
  have hlsm : Lsm.CoveredTo (Counts w.log w.acked) rp'.toLsm w.merged ∧
      ∀ p, rp.toLsm.Kept w.merged p → rp'.toLsm.Kept w.merged p := by
    rcases hs.lsm_cases with heq | ⟨op, hop, hmakes⟩
    · rw [heq]
      exact ⟨h.covered, fun p hp => hp⟩
    · have hne : op ≠ .compactFinish := by
        rintro rfl
        exact hmakes
      have hkeep : ∀ t ∈ rp.tables ++ w.merged, t ∈ rp'.tables ++ w.merged := fun t ht =>
        mem_append.mpr ((mem_append.mp ht).imp (subset_tables_of_step hop hne t) id)
      refine ⟨h.covered.step hb.sane hop hkeep (not_counts_start _ _) ?_,
        fun p hp => hp.step hop hkeep⟩
      rintro vptr seqNum rfl p hp
      exact h.kept_of_rotate hwf hb.todo_placed hmakes hp
  refine ⟨fun e o hm => ?_, hlsm.1, fun p hp => ?_, h.order.sublist hs.todo_sublist,
    hs.writes h.writes, hs.awaits h.awaits h.writes, fun p hp => h.placed p (hs.batch_subset.1 hp),
    fun v hv => h.heads v (hs.batch_subset.2 hv), fun p hp e o hm => ?_⟩
  · rcases hs.marks hb.sane hm with hm | h0 | ⟨p, hp, rfl, rfl⟩
    · exact h.valid e o hm
    · exact .inl h0
    · exact validPos_of_mem_placed (hb.todo_placed p (Mode.current_subset_todo hp))
  · rcases h.kept p hp with hk | hk
    · exact .inl (hlsm.2 p hk)
    · exact (hs.todo_or_holds hk).elim .inr fun hh => .inl (.inr (.inr hh.2))
  · have hpl := hs.batch_subset.1 hp
    rcases hm with hm | hm
    · rcases hs.marks hb.sane hm with hm | ⟨rfl, rfl⟩ | ⟨q, hq, _, _⟩
      · exact h.fresh p hpl e o (.inl hm)
      · simp [before]
      · rw [idle_of_not_writes h.writes (not_writes_of_current hq)] at hpl
        cases hpl
    · exact h.fresh p hpl e o (.inr hm)

end Local

/-! ## Steps of the machine -/

/-- The log grows behind every position there is. -/
structure LogGrows (log log' : LogStream) : Prop where
  placed : ∀ p ∈ log.placed, p ∈ log'.placed
  valid : ∀ e o, log.ValidPos e o → log'.ValidPos e o
  before : ∀ e o, log.ValidPos e o → log'.before e o = log.before e o

theorem logGrows_append {log : LogStream} (hwf : log.WellFormed) (bs : List LogBlock) :
    LogGrows log (log.append bs) where
  placed := fun _ => mem_placed_append bs
  valid := fun _ _ hv => hv.append bs
  before := fun _ _ hv => before_append hwf hv bs

theorem logGrows_newExtent (log : LogStream) (id : ℕ) : LogGrows log (log.newExtent id) where
  placed := fun p hp => by rwa [placed_newExtent]
  valid := fun _ _ hv => hv.newExtent id
  before := fun _ _ hv => before_newExtent hv id

variable {log' : LogStream}

theorem LogGrows.counts {log : LogStream} (hg : LogGrows log log') {acked : List EntryInfo}
    {e o : ℕ} (hv : log.ValidPos e o) (hp : Counts log' acked e o p) : Counts log acked e o p :=
  ⟨hp.1, hg.before e o hv ▸ hp.2⟩

theorem RangePartition.Checkpoint.grows (h : rp.Checkpoint w) (hb : rp.Base w.log)
    (hst : ∀ e o, w.StoredMarks e o → w.log.ValidPos e o) (hg : LogGrows w.log log') :
    rp.Checkpoint { w with log := log' } :=
  { h with
    valid := fun e o hm => hg.valid e o (h.valid e o hm)
    covered := h.covered.mono fun e o p hm hp => hg.counts (h.valid e o (.inl hm)) hp
    order := h.order.imp_of_mem fun {p q} hp _ hnot => by
      rwa [hg.before _ _ (validPos_of_mem_placed (hb.todo_placed p hp))]
    placed := fun p hp => hg.placed p (h.placed p hp)
    heads := fun v hv => hg.valid _ _ (h.heads v hv)
    fresh := fun p hp e o hm => by
      have hv : w.log.ValidPos e o := hm.elim (h.valid e o) (hst e o)
      rw [hg.before e o hv]
      exact h.fresh p hp e o hm }

section

variable (h : w.Checkpoint)
include h

theorem World.Checkpoint.grows (hb : w.Base) (hg : LogGrows w.log log') :
    ({ w with log := log' } : World).Checkpoint where
  acked_placed := fun p hp => hg.placed p (h.acked_placed p hp)
  stored_valid := fun e o hm => hg.valid e o (h.stored_valid e o hm)
  stored_covered := fun t ht p hp =>
    h.stored_covered t ht p (hg.counts (h.stored_valid _ _ ⟨t, ht, rfl, rfl⟩) hp)
  rp := fun rp hrp => (h.rp rp hrp).grows (hb.rp rp hrp) h.stored_valid hg

/-- A successful append: the batch lies behind every position, and each of its entries is to be
put. -/
theorem World.Checkpoint.appendOk (hb : w.Base) {reqs : List Entry} {bs : List LogBlock}
    (hrp : w.rp = some rp) (hw : rp.writer = .appending reqs)
    (hbs : batchBlocks env reqs = some bs) :
    ({ w with log := w.log.append bs, rp := some { rp with
      writer := afterAppend env w.log reqs bs } } : World).Checkpoint := by
  have hg := logGrows_append hb.log_wf bs
  have hgrown := h.grows hb hg
  have hr := hgrown.rp rp hrp
  have hold := h.rp rp hrp
  refine { hgrown with rp := forall_of_some { hr with
    writes := fun _ => hr.writes (by simp [hw])
    awaits := fun p hp => exists_mem_requestOrder_of_placed hbs hp
    placed := fun p hp => ?_
    heads := fun v hv => ?_
    fresh := fun p hp e o hm => ?_ } }
  · dsimp only
    rw [placed_append]
    exact mem_append_right _ hp
  · cases mem_singleton.mp hv
    have htail := (w.log.append bs).validPos_tail
    rw [LogStream.tail, LogStream.append, LogStream.commitLength_append_blocks] at htail
    exact htail
  · have hv : w.log.ValidPos e o := hm.elim (hold.valid e o) (h.stored_valid e o)
    rw [hg.before e o hv]
    exact not_mem_before_of_new hb.log_wf hp

theorem World.Checkpoint.finish {head : ValuePointer} {placed : List EntryInfo}
    (hrp : w.rp = some rp) (hw : rp.writer = .putting [] head placed) : ({ w with
      rp := some { rp with vhead := head, writer := .idle }
      acked := w.acked ++ placed } : World).Checkpoint := by
  have hr := h.rp rp hrp
  have hplaced : rp.writer.placed = placed := by rw [hw]; rfl
  -- The new entries do not lie before any position there is.
  have hcounts : ∀ e o, rp.Marks e o ∨ w.StoredMarks e o → ∀ p,
      Counts w.log (w.acked ++ placed) e o p → Counts w.log w.acked e o p := by
    rintro e o hm p ⟨hp, hbefore⟩
    rcases mem_append.mp hp with hp | hp
    · exact ⟨hp, hbefore⟩
    · exact absurd hbefore (hr.fresh p (hplaced ▸ hp) e o hm)
  refine ⟨forall_mem_append.mpr ⟨h.acked_placed, fun p hp => hr.placed p (hplaced ▸ hp)⟩,
    h.stored_valid,
    fun t ht p hp => h.stored_covered t ht p (hcounts _ _ (.inr ⟨t, ht, rfl, rfl⟩) p hp),
    forall_of_some ⟨fun e o hm => ?_, ?_, forall_mem_append.mpr ⟨hr.kept, fun p hp => ?_⟩,
      hr.order, fun hne => absurd rfl hne, trivial, by simp [Writer.placed], by simp [Writer.heads],
      by simp [Writer.placed]⟩⟩
  · rcases hm with hm | ⟨rfl, rfl⟩
    · exact hr.valid e o (.inl hm)
    · exact hr.heads head (by simp [hw, Writer.heads])
  · exact hr.covered.mono fun e o p hm hp => hcounts e o (.inl (.inl hm)) p hp
  · have hawait := hr.awaits
    simp only [RangePartition.Awaits, hw] at hawait
    rcases hawait p hp with hh | ⟨ei, hei, _⟩
    · exact .inl (.inr (.inr hh))
    · cases hei

/-- The table list is stored, after a flush or at the end of a compaction; `merged` is what the
operation has merged away. -/
theorem World.Checkpoint.store {lsm : Lsm} {op : LsmOp} (tbls : List Table) (hrp : w.rp = some rp)
    (hsane : rp.toLsm.Sane) (hs : LsmStep rp.toLsm op lsm) (hop : op = .saved ∨ op = .compactFinish)
    (hkeep : ∀ t ∈ rp.tables, t ∈ lsm.tables ++ tbls) : ({ w with
      rp := some { rp with toLsm := lsm }
      stored := updateTableLocs w.stored lsm.tables
      merged := w.merged ++ tbls } : World).Checkpoint := by
  have hr := h.rp rp hrp
  have hkeep' : ∀ t ∈ rp.tables ++ w.merged, t ∈ lsm.tables ++ (w.merged ++ tbls) := by
    intro t ht
    simp only [mem_append] at ht ⊢
    rcases ht with ht | ht
    · exact (mem_append.mp (hkeep t ht)).imp id .inr
    · exact .inr (.inl ht)
  have hnorot : ∀ vptr seqNum, op ≠ .rotate vptr seqNum := by
    rintro vptr seqNum rfl
    simp at hop
  have hcov : Lsm.CoveredTo (Counts w.log w.acked) lsm (w.merged ++ tbls) :=
    hr.covered.step hsane hs hkeep' (not_counts_start _ _)
      fun vptr seqNum hrot => absurd hrot (hnorot vptr seqNum)
  have hmarks : ∀ e o, lsm.Marks e o → rp.Marks e o ∨ (e = 0 ∧ o = 0) := by
    intro e o hm
    rcases marks_of_step hsane hs hm with hm | h0 | ⟨vptr, seqNum, hrot, _⟩
    · exact .inl (.inl hm)
    · exact .inr h0
    · exact absurd hrot (hnorot vptr seqNum)
  have hmt : lsm.mt = rp.mt := by
    rcases hop with rfl | rfl <;> cases hs <;> rfl
  -- A stored position was stored before or is one of the list.
  have hstored : ∀ e o, (∃ t ∈ updateTableLocs w.stored lsm.tables,
      t.vpExtentID = e ∧ t.vpOffset = o) → w.StoredMarks e o ∨ lsm.Marks e o := by
    rintro e o ⟨t, ht, he, ho⟩
    exact (mem_updateTableLocs ht).imp (fun ht => ⟨t, ht, he, ho⟩) fun ht => .inl ⟨t, ht, he, ho⟩
  have hvalid : ∀ e o, lsm.Marks e o → w.log.ValidPos e o := fun e o hm =>
    (hmarks e o hm).elim (hr.valid e o) .inl
  have hfresh : ∀ p ∈ rp.writer.placed, ∀ e o, lsm.Marks e o → p ∉ w.log.before e o := by
    intro p hp e o hm
    rcases hmarks e o hm with hm | ⟨rfl, rfl⟩
    · exact hr.fresh p hp e o (.inl hm)
    · simp [before]
  refine ⟨h.acked_placed, fun e o hm => (hstored e o hm).elim (h.stored_valid e o) (hvalid e o),
    fun t ht p hp => ?_, forall_of_some { hr with
      valid := fun e o hm => hm.elim (hvalid e o) fun hv => hr.valid e o (.inr hv)
      covered := hcov
      kept := fun p hp => (hr.kept p hp).imp (fun hk => hk.step hs hkeep') id
      awaits := hr.awaits.lsm hmt
      fresh := fun p hp e o hm => ?_ }⟩
  · rw [updateTableLocs] at ht ⊢
    split_ifs at ht ⊢
    · refine (h.stored_covered t ht p hp).mono fun u hu => ?_
      simp only [mem_append] at hu ⊢
      exact hu.imp id .inl
    · exact hcov.tables t ht p hp
  · rcases hm with (hm | hv) | hm
    · exact hfresh p hp e o hm
    · exact hr.fresh p hp e o (.inl (.inr hv))
    · exact (hstored e o hm).elim (fun hm => hr.fresh p hp e o (.inr hm)) (hfresh p hp e o)

theorem World.Checkpoint.validPos_head :
    w.log.ValidPos (compactHead w.stored).1.extentID (compactHead w.stored).1.offset := by
  rcases compactHead_eq w.stored with hno | ⟨t, ht, hyes⟩
  · rw [hno]
    exact .inl ⟨rfl, rfl⟩
  · rw [hyes]
    exact h.stored_valid _ _ ⟨t, ht, rfl, rfl⟩

/-- An entry of the log lies before the position of the table that a replay starts from, or it is
replayed when the partition is opened. -/
theorem World.Checkpoint.before_or_since (hp : p ∈ w.log.placed) :
    (∃ t ∈ w.stored, p ∈ w.log.before t.vpExtentID t.vpOffset ∧
      (compactHead w.stored).2 = t.lastSeq) ∨
      p ∈ w.log.since (compactHead w.stored).1.extentID (compactHead w.stored).1.offset := by
  rcases mem_before_or_mem_since h.validPos_head hp with hbefore | hsince
  · rcases compactHead_eq w.stored with hno | ⟨t, ht, hyes⟩
    · rw [hno] at hbefore
      simp [before] at hbefore
    · rw [hyes] at hbefore
      exact .inl ⟨t, ht, hbefore, by rw [hyes]⟩
  · exact .inr hsince

/-- An acknowledged entry is in a table that is stored or was merged away, or it is replayed. -/
theorem World.Checkpoint.covered_or_since (hp : p ∈ w.acked) :
    Covered (w.stored ++ w.merged) p ∨
      p ∈ w.log.since (compactHead w.stored).1.extentID (compactHead w.stored).1.offset := by
  refine (h.before_or_since (h.acked_placed p hp)).imp ?_ id
  rintro ⟨t, ht, hbefore, _⟩
  exact h.stored_covered t ht p ⟨hp, hbefore⟩

theorem World.Checkpoint.openPartition (hwf : w.log.WellFormed) :
    ({ w with rp := some (openRangePartition w.log w.stored) } : World).Checkpoint := by
  have hmarks : ∀ e o, (openRangePartition w.log w.stored).Marks e o →
      w.StoredMarks e o ∨ (e = 0 ∧ o = 0) := by
    rintro e o ((⟨t, ht, he, ho⟩ | ⟨ft, hft, _⟩) | ⟨rfl, rfl⟩)
    · exact .inl ⟨t, ht, he, ho⟩
    · simp [openRangePartition, opened, pendingTasks, Flusher.unbuilt] at hft
    · exact .inr ⟨rfl, rfl⟩
  exact { h with rp := forall_of_some ⟨fun e o hm => (hmarks e o hm).elim (h.stored_valid e o) .inl,
    ⟨h.stored_covered, trivial⟩, fun p hp => (h.covered_or_since hp).imp .inl id,
    pairwise_since hwf _ _,
    fun hne => absurd rfl hne, trivial, by simp [openRangePartition, Writer.placed],
    by simp [openRangePartition, Writer.heads], by simp [openRangePartition, Writer.placed]⟩ }

end

theorem World.Checkpoint.step {w' : World} {a : Action} (h : w.Checkpoint) (hb : w.Base)
    (hs : WorldStep env w a w') : w'.Checkpoint := by
  cases hs with
  | @loc a rp rp' hrp hs =>
    have hc := (h.rp rp hrp).step (hb.rp rp hrp) hb.log_wf hs
    exact { h with rp := forall_of_some { hc with valid := hc.valid } }
  | newExtent hid h0 hlt => exact h.grows hb (logGrows_newExtent _ _)
  | appendGarbage hrp hw hbs hlen => exact h.grows hb (logGrows_append hb.log_wf _)
  | appendOk hrp hw hbs hlen => exact h.appendOk hb hrp hw hbs
  | finish hrp hw => exact h.finish hrp hw
  | @store rp lsm hrp hs =>
    have htab : lsm.tables = rp.tables := by cases hs; rfl
    have hc := h.store [] hrp (hb.rp rp hrp).sane hs (.inl rfl) (by simp [htab])
    simpa only [htab, append_nil] using hc
  | @compactFinish rp c lsm hrp hc hs =>
    have hsane := (hb.rp rp hrp).sane
    refine h.store c.tbls hrp hsane hs (.inr rfl) fun t ht => mem_append.mpr ?_
    cases hs with
    | compactFinish hc' ht' hr =>
      cases hc.symm.trans hc'
      exact ((hsane.compaction c hc).mem_tables_iff.mpr ht).symm
  | openPartition hrp => exact h.openPartition hb.log_wf
  | closeEnd hrp | crash => exact { h with rp := by simp }

theorem checkpoint_init (id : ℕ) : (init id).Checkpoint where
  acked_placed := by simp [init]
  stored_valid := by simp [init, World.StoredMarks]
  stored_covered := by simp [init]
  rp := by simp [init]

theorem checkpoint_of_exec {id : ℕ} (hid : id ≠ 0) {as : List Action}
    (hrun : exec (step env) (init id) as = some w) : w.Base ∧ w.Checkpoint := by
  refine exec_invariant_of_step (I := fun w => w.Base ∧ w.Checkpoint) (fun s a s' hI hs => ?_)
    ⟨base_init hid, checkpoint_init id⟩ hrun
  exact ⟨hI.1.step (step_cases hs), hI.2.step hI.1 (step_cases hs)⟩

/-- **Checkpoint coverage.**  In every state of every run, for every stored table `T`, that with the
greatest `LastSeq` among them: an acknowledged entry whose block lies before the replay position of
`T` was put into a table that is stored or was merged away, and that table has its key. -/
theorem checkpoint_covers {env : Env} {id : ℕ} (hid : id ≠ 0) {as : List Action} {w : World}
    (hrun : exec (step env) (World.init id) as = some w) {T : Table} (hT : T ∈ w.stored)
    {p : EntryInfo} (hp : p ∈ w.acked) (hbefore : p ∈ w.log.before T.vpExtentID T.vpOffset) :
    ∃ u ∈ w.stored ++ w.merged, u.toSortedRun.Holds p ∧
      ∃ y ∈ u.toSortedRun, y.1 = p.log.key := by
  obtain ⟨u, hu, hh⟩ := (checkpoint_of_exec hid hrun).2.stored_covered T hT p ⟨hp, hbefore⟩
  exact ⟨u, hu, hh, hh.exists_key⟩

theorem checkpoint_covers_compactedAndCrashed :
    ∃ w T p, exec (step Env.plain) (World.init 1) compactedAndCrashed = some w ∧ T ∈ w.stored ∧
      p ∈ w.acked ∧ p ∈ w.log.before T.vpExtentID T.vpOffset ∧
      ∃ u ∈ w.stored ++ w.merged, u.toSortedRun.Holds p ∧
        ∃ y ∈ u.toSortedRun, y.1 = p.log.key := by
  obtain ⟨w, hw, T, hT, p, hp, hbefore⟩ :
      ∃ w ∈ exec (step Env.plain) (init 1) compactedAndCrashed, ∃ T ∈ w.stored, ∃ p ∈ w.acked,
      p ∈ w.log.before T.vpExtentID T.vpOffset := by decide +kernel
  exact ⟨w, T, p, hw, hT, hp, hbefore, checkpoint_covers (by decide) hw hT hp hbefore⟩

/-- **Nothing is invented.**  In every run, each pair of the stored tables and each pair that a read
can find is what `Put` stores for an entry of the log. -/
theorem traced_of_exec {env : Env} {id : ℕ} (hid : id ≠ 0) {as : List Action} {w : World}
    (hrun : exec (step env) (World.init id) as = some w) :
    (∀ x ∈ tablePairs w.stored, Traced w.log x) ∧
      ∀ rp, w.rp = some rp → ∀ x ∈ rp.toLsm.visible, Traced w.log x := by
  have hb := (checkpoint_of_exec hid hrun).1
  exact ⟨hb.stored_traced, fun rp hrp => (hb.rp rp hrp).visible_traced⟩

theorem traced_of_exec_compactedAndCrashed :
    ∃ w x, exec (step Env.plain) (World.init 1) compactedAndCrashed = some w ∧
      x ∈ tablePairs w.stored ∧ Traced w.log x := by
  obtain ⟨w, hw, t, ht, x, hx, -⟩ :
      ∃ w ∈ exec (step Env.plain) (init 1) compactedAndCrashed,
        ∃ t ∈ w.stored, ∃ x ∈ t.data.entries, True := by decide +kernel
  exact ⟨w, x, hw, ⟨t, ht, hx⟩, (traced_of_exec (by decide) hw).1 x ⟨t, ht, hx⟩⟩

end Autumn
