import Autumn.RangePartition.Origin

/-!
# Recovering the sequence number

`OpenRangePartition` starts from the greatest `LastSeq` of the stored tables.  That covers the
tables: a rotation stamps its table with a number above every version in the memtable, and a
compaction with the greatest number of the tables it merges.  The replay then adds one for every
entry whose version is above the number it has reached.  That covers the log only if no version is
skipped on the way: the entries of a batch are in the log in the order of their value lengths, and
versions that were drawn and never acknowledged leave gaps.
-/

namespace Autumn

open Lib Y List Lsm World

/-- The entry the log iterator is about to hand to the replay closure. -/
def nextDelivered (rp : RangePartition) : Action → Option EntryInfo
  | .loc .replayNext =>
    match rp.mode with
    | .replaying (p :: _) => some p
    | _ => none
  | _ => none

/-- The condition on a step: an entry delivered by the replay is at most one version ahead of the
sequence number.  The version of an empty user key is read as zero and moves nothing. -/
def DeliversNext (w : World) (a : Action) : Prop :=
  ∀ rp p, w.rp = some rp → nextDelivered rp a = some p →
    p.log.key.ts ≤ rp.seqNumber ∨ (p.log.key.userKey ≠ [] ∧ p.log.key.ts = rp.seqNumber + 1)

instance (w : World) (a : Action) : Decidable (DeliversNext w a) :=
  decidable_of_iff (∀ rp ∈ w.rp, ∀ p ∈ nextDelivered rp a, p.log.key.ts ≤ rp.seqNumber ∨
      (p.log.key.userKey ≠ [] ∧ p.log.key.ts = rp.seqNumber + 1))
    ⟨fun h rp p hrp hp => h rp hrp p hp, fun h rp hrp p hp => h rp p hrp hp⟩

theorem deliversNext_of_ne {a : Action} (h : a ≠ .loc .replayNext) (w : World) :
    DeliversNext w a := by
  intro rp p _ hp
  unfold nextDelivered at hp
  split at hp
  · exact absurd rfl h
  · cases hp

/-- The replay keeps up with an entry exactly when the entry is at most one version ahead. -/
theorem le_replaySeq_iff {key : InternalKey} {s : ℕ} :
    key.ts ≤ replaySeq s key ↔ key.ts ≤ s ∨ (key.userKey ≠ [] ∧ key.ts = s + 1) := by
  rw [replaySeq]
  by_cases hk : key.userKey = []
  · have h0 : parseTs key = 0 := if_pos hk
    rw [h0, if_neg (by omega)]
    simp [hk]
  · rw [parseTs_of_ne_nil hk]
    split_ifs with h
    · constructor
      · exact fun hle => .inr ⟨hk, by omega⟩
      · rintro (hle | ⟨_, heq⟩) <;> omega
    · constructor
      · exact fun hle => .inl hle
      · rintro (hle | ⟨_, heq⟩) <;> omega

/-! ## Tables and tasks -/

/-- The versions in a table do not lie above its `LastSeq`. -/
def Stamped (ts : List Table) : Prop := ∀ t ∈ ts, ∀ x ∈ t.toSortedRun, x.1.ts ≤ t.lastSeq

theorem Stamped.le_compactHead {ts : List Table} (h : Stamped ts) :
    ∀ x ∈ tablePairs ts, x.1.ts ≤ (compactHead ts).2 := by
  rintro x ⟨t, ht, hx⟩
  exact (h t ht x hx).trans (lastSeq_le_compactHead ht)

/-- The tables, and the tables the pending tasks will become, are stamped. -/
structure Lsm.Stamped (s : Lsm) : Prop where
  tables : Autumn.Stamped s.tables
  tasks : ∀ ft ∈ s.pendingTasks, ∀ x ∈ ft.mt.toSortedRun, x.1.ts ≤ ft.seqNum

theorem Lsm.Stamped.step {s s' : Lsm} {op : LsmOp} (h : s.Stamped) (hsane : s.Sane)
    (hs : LsmStep s op s')
    (hrot : ∀ vptr seqNum, op = .rotate vptr seqNum → ∀ x ∈ s.mt.toSortedRun, x.1.ts ≤ seqNum) :
    s'.Stamped := by
  refine ⟨fun t ht x hx => ?_, fun ft hft => ?_⟩
  · rcases mem_tables_of_step hsane hs ht with ht | ⟨ft, hft, ht⟩
    · exact h.tables t ht x hx
    · obtain ⟨hrun, hseq, -, -⟩ := Skiplist.toTable_eq_some ht
      rw [hseq]
      exact h.tasks ft hft x (hrun ▸ hx)
  · rcases mem_pendingTasks_of_step hs hft with
      hft | ⟨vptr, seqNum, hop, rfl⟩ | ⟨c, now, hs, hc, -, rfl⟩
    · exact h.tasks ft hft
    · exact hrot vptr seqNum hop
    · -- What a compaction sends comes from its tables, which are stamped with less.
      intro x hx
      have g := hsane.compaction c hc
      have htbls : Autumn.Stamped c.tbls := fun t ht => h.tables t (g.mem_tables_iff.mp (.inl ht))
      have hmax : (compactHead c.tbls).2 = c.maxSeq := congrArg Prod.snd g.head_eq.symm
      have hdec : ∀ x ∈ c.todo, x.2.decoded = x.2 := fun x hx =>
        decoded_eq_of_mem_tablePairs (g.todo_mem x hx)
      rcases mem_compactLoop_fst hdec hx with hx | hx
      · cases hx
      · exact (htbls.le_compactHead x (g.todo_mem x hx)).trans hmax.le

/-! ## The invariant -/

/-- No version in use lies above the sequence number. -/
structure RangePartition.Numbered (rp : RangePartition) : Prop where
  stamped : rp.toLsm.Stamped
  visible : ∀ x ∈ rp.toLsm.visible, x.1.ts ≤ rp.seqNumber
  inFlight : ∀ e ∈ rp.inFlight, e.key.ts ≤ rp.seqNumber
  infos : ∀ ei ∈ rp.writer.infos, ei.log.key.ts ≤ rp.seqNumber
  current : ∀ p ∈ rp.mode.current, p.log.key.ts ≤ rp.seqNumber
  opened : ∀ x ∈ tablePairs rp.opened, x.1.ts ≤ rp.seqNumber
  delivered : ∀ ei ∈ rp.delivered, ei.log.key.ts ≤ rp.seqNumber

/-- The versions of the partition and of the stored tables. -/
structure World.Numbered (w : World) : Prop where
  stored : Stamped w.stored
  rp : ∀ rp, w.rp = some rp → rp.Numbered

variable {a : LocalAction} {env : Env} {rp rp' : RangePartition}

theorem LocalStep.opened_eq (hs : LocalStep env rp a rp') : rp'.opened = rp.opened := by
  cases hs <;> rfl

/-- The replay closure is given an entry, or it has been given what it works on before. -/
theorem LocalStep.replay_cases (hs : LocalStep env rp a rp') :
    (rp'.delivered = rp.delivered ∧ ∀ p ∈ rp'.mode.current, p ∈ rp.mode.current) ∨
    ∃ p todo, a = .replayNext ∧ rp.mode = .replaying (p :: todo) ∧
      rp'.delivered = rp.delivered ++ [replayInfo p] ∧ rp'.mode.current = [p] ∧
      rp'.seqNumber = replaySeq rp.seqNumber p.log.key := by
  cases hs with
  | @replayNext p todo hm =>
    exact .inr ⟨p, todo, rfl, hm, rfl, rfl, by rw [replayInfo_key]⟩
  | replayFits hm | replayRotate hm hs => exact .inl ⟨rfl, by simp [hm, Mode.current]⟩
  | replayPut hm hs | replayEnd hm | closeStart hm hc | closeEmpty hm hw hmt | closePush hm hw hs =>
    exact .inl ⟨rfl, by simp [Mode.current]⟩
  | _ => exact .inl ⟨rfl, fun p hp => hp⟩

theorem RangePartition.Numbered.step (h : rp.Numbered) (hsane : rp.toLsm.Sane)
    (hs : LocalStep env rp a rp')
    (hg : ∀ p todo, a = .replayNext → rp.mode = .replaying (p :: todo) →
      p.log.key.ts ≤ replaySeq rp.seqNumber p.log.key) : rp'.Numbered := by
  have hle := hs.seqNumber_le
  have hlsm : rp'.toLsm.Stamped ∧ ∀ x ∈ rp'.toLsm.visible, x.1.ts ≤ rp.seqNumber := by
    rcases hs.lsm_cases with heq | ⟨op, hop, hmakes⟩
    · rw [heq]
      exact ⟨h.stamped, h.visible⟩
    · refine ⟨h.stamped.step hsane hop ?_, fun x hx => ?_⟩
      · rintro vptr seqNum rfl x hx
        have := h.visible x (mem_visible.mpr (.inl hx))
        have := hmakes.1
        omega
      · rcases mem_visible_of_step hsane hop hx with hx | ⟨key, vs, height, rfl, rfl⟩
        · exact h.visible x hx
        · obtain ⟨ei, rfl, rfl, hei | ⟨p, hp, rfl⟩⟩ := hmakes
          · exact h.infos ei hei
          · rw [replayInfo_key]
            exact h.current p hp
  refine ⟨hlsm.1, fun x hx => (hlsm.2 x hx).trans hle, fun e he => ?_,
    fun ei hei => (h.infos ei (hs.mem_infos hei)).trans hle, fun p hp => ?_, fun x hx => ?_,
    fun ei hei => ?_⟩
  · rcases hs.mem_inFlight he with he | ⟨hts, hseq⟩
    · exact (h.inFlight e he).trans hle
    · omega
  · rcases hs.replay_cases with ⟨_, hcur⟩ | ⟨q, todo, ha, hm, _, hcur, hseq⟩
    · exact (h.current p (hcur p hp)).trans hle
    · rw [hcur, mem_singleton] at hp
      rw [hseq, hp]
      exact hg q todo ha hm
  · rw [hs.opened_eq] at hx
    exact (h.opened x hx).trans hle
  · rcases hs.replay_cases with ⟨hdel, _⟩ | ⟨q, todo, ha, hm, hdel, _, hseq⟩
    · rw [hdel] at hei
      exact (h.delivered ei hei).trans hle
    · rw [hdel, mem_append, mem_singleton] at hei
      rcases hei with hei | rfl
      · exact (h.delivered ei hei).trans hle
      · rw [hseq, replayInfo_key]
        exact hg q todo ha hm

theorem RangePartition.Numbered.lsm (h : rp.Numbered) (hsane : rp.toLsm.Sane) {op : LsmOp}
    {lsm : Lsm} (hs : LsmStep rp.toLsm op lsm) (hop : op = .saved ∨ op = .compactFinish) :
    ({ rp with toLsm := lsm } : RangePartition).Numbered := by
  refine { h with stamped := h.stamped.step hsane hs ?_, visible := fun x hx => ?_ }
  · rcases hop with rfl | rfl <;> simp
  · rcases mem_visible_of_step hsane hs hx with hx | ⟨key, vs, height, rfl, -⟩
    · exact h.visible x hx
    · simp at hop

theorem World.Numbered.step {w w' : World} {a : Action} (h : w.Numbered) (hb : w.Base)
    (hg : DeliversNext w a) (hs : WorldStep env w a w') : w'.Numbered := by
  cases hs with
  | @loc a rp rp' hrp hs =>
    refine { h with
      rp := forall_of_some ((h.rp rp hrp).step (hb.rp rp hrp).sane hs fun p todo ha hm => ?_) }
    exact le_replaySeq_iff.mpr (hg rp p hrp (by simp only [nextDelivered, ha, hm]))
  | newExtent hid h0 hlt | appendGarbage hrp hw hb hlen => exact ⟨h.stored, h.rp⟩
  | @appendOk rp reqs bs hrp hw hbs hlen =>
    have hr := h.rp rp hrp
    refine { h with rp := forall_of_some { hr with
      inFlight := fun e he => hr.inFlight e (RangePartition.mem_inFlight_of_writer rfl he)
      infos := fun ei hei => ?_ } }
    have hperm := map_log_requestOrder_perm env w.log.last.id w.log.tail reqs
    have hmem : ei.log ∈ reqs := hperm.mem_iff.mp (mem_map_of_mem hei)
    refine hr.inFlight ei.log ?_
    simp [RangePartition.inFlight, hw, Writer.pending, hmem]
  | @finish rp head placed hrp hw =>
    have hr := h.rp rp hrp
    exact { h with rp := forall_of_some { hr with
      inFlight := fun e he => hr.inFlight e (RangePartition.mem_inFlight_of_writer rfl he)
      infos := by simp [Writer.infos] } }
  | @store rp lsm hrp hs =>
    have hr := h.rp rp hrp
    exact ⟨fun t ht => (mem_updateTableLocs ht).elim (h.stored t) (hr.stamped.tables t),
      forall_of_some (hr.lsm (hb.rp rp hrp).sane hs (.inl rfl))⟩
  | @compactFinish rp c lsm hrp hc hs =>
    have hr := (h.rp rp hrp).lsm (hb.rp rp hrp).sane hs (.inr rfl)
    exact ⟨fun t ht => (mem_updateTableLocs ht).elim (h.stored t) (hr.stamped.tables t),
      forall_of_some hr⟩
  | openPartition hrp =>
    refine { h with rp := forall_of_some ⟨⟨h.stored, by simp [openRangePartition, opened,
      pendingTasks, Flusher.unbuilt]⟩, fun x hx => ?_, by simp [RangePartition.inFlight,
      openRangePartition, Writer.pending], by simp [openRangePartition, Writer.infos],
      by simp [openRangePartition, Mode.current], h.stored.le_compactHead,
      by simp [openRangePartition]⟩ }
    exact h.stored.le_compactHead x (visible_opened w.stored ▸ hx)
  | closeEnd hrp | crash => exact { h with rp := by simp }

theorem numbered_init (id : ℕ) : (init id).Numbered where
  stored := by simp [Stamped, init]
  rp := by simp [init]

/-- **Sequence number recovery**, in every run whose replays deliver no version more than one
ahead: the sequence number is not below any version in the opened tables or delivered by the
replay, nor below any version that a read can find or that is on its way to the log. -/
theorem seqNumber_recovers {env : Env} {id : ℕ} (hid : id ≠ 0) {as : List Action} {w : World}
    (hrun : exec (step env) (World.init id) as = some w)
    (hg : Guarded (step env) DeliversNext (World.init id) as) {rp : RangePartition}
    (hrp : w.rp = some rp) :
    (∀ x ∈ tablePairs rp.opened, x.1.ts ≤ rp.seqNumber) ∧
    (∀ ei ∈ rp.delivered, ei.log.key.ts ≤ rp.seqNumber) ∧
    (∀ x ∈ rp.toLsm.visible, x.1.ts ≤ rp.seqNumber) ∧
    ∀ e ∈ rp.inFlight, e.key.ts ≤ rp.seqNumber := by
  have hinv : w.Base ∧ w.Numbered := by
    refine exec_invariant (I := fun w => w.Base ∧ w.Numbered) (fun s a s' hI hG hs => ?_)
      ⟨base_init hid, numbered_init id⟩ hg hrun
    exact ⟨hI.1.step (step_cases hs), hI.2.step hI.1 hG (step_cases hs)⟩
  have h := hinv.2.rp rp hrp
  exact ⟨h.opened, h.delivered, h.visible, h.inFlight⟩

/-- A batch of writes to `a` and `b`, a crash, and the replay of both. -/
def crashAfterBatch (a b : Bytes) : List Action :=
  [.openPartition, .loc .replayEnd, .loc (.write [97] a), .loc (.write [98] b),
    .loc (.enqueue 0), .loc (.enqueue 0), .loc .collect, .loc .collect, .loc .startBatch, .appendOk,
    .loc .ensureRoom, .loc (.put 1), .loc (.put 1), .finish, .crash, .openPartition,
    .loc .replayNext, .loc .replayRoom, .loc (.replayPut 1), .loc .replayNext, .loc .replayRoom,
    .loc (.replayPut 1), .loc .replayEnd]

theorem seqNumber_recovers_crashAfterBatch :
    ∃ w rp, exec (step Env.plain) (World.init 1) (crashAfterBatch [1] [2]) = some w ∧
      w.rp = some rp ∧ rp.delivered ≠ [] ∧
      ∀ ei ∈ rp.delivered, ei.log.key.ts ≤ rp.seqNumber := by
  obtain ⟨w, hw, rp, hrp, h⟩ : ∃ w ∈ exec (step Env.plain) (init 1) (crashAfterBatch [1] [2]),
      ∃ rp ∈ w.rp, rp.delivered ≠ [] := by decide +kernel
  exact ⟨w, rp, hw, hrp, h, (seqNumber_recovers (by decide) hw (by decide +kernel) hrp).2.1⟩

/-- **The recovered sequence number can be too small.**  The value written to `a` is the longer one,
so the log holds version 2 in front of version 1, and the replay counts to one: `b`, whose write was
acknowledged, is not found. -/
theorem seqNumber_behind :
    ∃ w rp, exec (step Env.plain) (World.init 1) (crashAfterBatch [1, 1] [2]) = some w ∧
      w.rp = some rp ∧ rp.mode = .running ∧
      (∃ p ∈ w.acked, p.log.key = keyWithTs [98] 2) ∧
      (∃ ei ∈ rp.delivered, rp.seqNumber < ei.log.key.ts) ∧
      getValueStruct Env.plain rp.memTables rp.seqNumber rp.tables [98] 0 = {} := by
  obtain ⟨w, hw, rp, hrp, h⟩ : ∃ w ∈ exec (step Env.plain) (init 1)
      (crashAfterBatch [1, 1] [2]), ∃ rp ∈ w.rp, rp.mode = .running ∧
        (∃ p ∈ w.acked, p.log.key = keyWithTs [98] 2) ∧
        (∃ ei ∈ rp.delivered, rp.seqNumber < ei.log.key.ts) ∧
        getValueStruct Env.plain rp.memTables rp.seqNumber rp.tables [98] 0 = {} := by
    decide +kernel
  exact ⟨w, rp, hw, hrp, h⟩

end Autumn
