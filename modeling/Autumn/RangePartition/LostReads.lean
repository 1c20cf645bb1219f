import Autumn.RangePartition.Batch
import Autumn.RangePartition.Compaction
import Autumn.RangePartition.ReadErrors
import Autumn.RangePartition.Reached
import Autumn.Table.MergeIterator

/-!
# Reads that fail while a partition is opened

Opening a partition reads the log from the replay position on, and then all tables, to compact them.
Neither read is checked.

To the merge iterator a table iterator that cannot read a block is at the end of its table.  So the
compaction runs over the pairs in front of the first unreadable block of each table, and the tables
leave the list: what was not delivered is gone (`Lsm.live_of_compactStartReading`).  A replay that
fails is taken for a complete one: the next batch moves the replay position behind everything in the
log.  There is no loss as long as nothing acknowledged was left to replay, and the newest live pairs
of the tables lie in front of what cannot be read (`reaching_of_faulty`).
-/

namespace Autumn

open Lib Y List Option SortedMap Lsm

/-! ## What a compaction reads -/

/-- The first pairs of each table, so many as its iterator delivers. -/
def fronts (ts : List Table) (cuts : List ℕ) : List (SortedMap InternalKey ValueStruct) :=
  List.zipWith SortedMap.take (ts.map fun t => t.data) cuts

/-- The merge of the tables if the iterator of each ends after so many pairs. -/
def readFronts (ts : List Table) (cuts : List ℕ) : SortedMap InternalKey ValueStruct :=
  SortedMap.mergeAll (fronts ts cuts)

theorem mem_tablePairs_of_mem_readFronts {ts : List Table} {cuts : List ℕ} {x : Pair}
    (h : x ∈ (readFronts ts cuts).entries) : x ∈ tablePairs ts := by
  obtain ⟨m, hm, hx⟩ := exists_mem_of_mem_mergeAll h
  rw [fronts, ← List.map_uncurry_zip_eq_zipWith, List.mem_map] at hm
  obtain ⟨⟨d, n⟩, hd, rfl⟩ := hm
  obtain ⟨t, ht, rfl⟩ := mem_map.mp (of_mem_zip hd).1
  exact ⟨t, ht, SortedMap.mem_of_mem_take hx⟩

namespace Sst

variable {fingerprint : Bytes → ℕ}

/-- The numbers of pairs that can be read from the start of each table. -/
def cutsOf (Ts : List (OpenTable fingerprint)) (F : ℕ → ℕ → Bool) : List ℕ :=
  Ts.map fun T => (T.front F).length

theorem OpenTable.take_run (T : OpenTable fingerprint) (F : ℕ → ℕ → Bool) :
    (T.run.data.take (T.front F).length).entries = (T.front F).map pairOf := by
  show (T.blocks.flatten.map pairOf).take _ = _
  rw [← map_take, front, ← delivered_eq_take]

/-- **A failed read looks like the end of the table.**  The merge iterator over the open tables
yields the merge of what can be read from the start of each of them. -/
theorem yields_readFronts (Ts : List (OpenTable fingerprint)) (hne : Ts ≠ []) (F : ℕ → ℕ → Bool)
    (n : ℕ) :
    ∃ I, newMergeIterator (n + 1) false (Ts.map fun T => tableIterator (T.failing F)) = some I ∧
      ∀ s : I.State, ∃ s', I.rewind s = some s' ∧
        Yields I s' (readFronts (Ts.map OpenTable.run) (cutsOf Ts F)).entries := by
  have hforall : List.Forall₂ (fun I l => InOrder false l ∧ ∃ At, Runs I l At)
      (Ts.map fun T => tableIterator (T.failing F)) (Ts.map fun T => (T.front F).map pairOf) := by
    rw [forall₂_map_left_iff, forall₂_map_right_iff, forall₂_same]
    intro T _
    refine ⟨?_, _, T.runs_failing F⟩
    rw [← T.take_run F]
    exact (T.run.data.take _).sorted
  obtain ⟨I, all, hI, ⟨horder, At, hruns⟩, hall⟩ :=
    runs_newMergeIterator n _ _ (by simpa using hne) hforall
  have hfronts : (fronts (Ts.map OpenTable.run) (cutsOf Ts F)).map (fun m => m.entries) =
      Ts.map fun T => (T.front F).map pairOf := by
    rw [fronts, cutsOf, List.map_map, List.zipWith_map, List.zipWith_self, List.map_map]
    exact map_congr_left fun T _ => T.take_run F
  have heq : all = (readFronts (Ts.map OpenTable.run) (cutsOf Ts F)).entries := by
    refine horder.ext (readFronts _ _).sorted fun x => ?_
    rw [hall, readFronts, mem_mergeAll_iff, hfronts]
  refine ⟨I, hI, fun s => ?_⟩
  obtain ⟨s', hs', hat⟩ := hruns.rewind s
  exact ⟨s', hs', heq ▸ hruns.yields hat⟩

end Sst

/-! ## A compaction that does not read everything -/

namespace Lsm

/-- `doCompact` begins, and the iterator of each table will end after so many pairs. -/
def compactStartReading (s : Lsm) (cuts : List ℕ) : Option Lsm :=
  s.compactStart.map fun s' => { s' with
    compaction := s'.compaction.map fun c => { c with todo := (readFronts s.tables cuts).entries } }

variable {s s' : Lsm} {cuts : List ℕ}

theorem compactStartReading_eq_some (h : s.compactStartReading cuts = some s') :
    s.compaction = none ∧ s' = { s with compaction := some { Compaction.start s.tables with
      todo := (readFronts s.tables cuts).entries } } := by
  obtain ⟨t, ht, rfl⟩ := map_eq_some_iff.mp h
  rw [compactStart] at ht
  split at ht
  · cases ht
  · split_ifs at ht
    cases ht
    exact ⟨‹_›, rfl⟩

theorem Sane.with_todo {c : Compaction} (h : s.Sane) (hc : s.compaction = some c) {todo : List Pair}
    (htodo : ∀ x ∈ todo, x ∈ tablePairs c.tbls) :
    ({ s with compaction := some { c with todo } } : Lsm).Sane := by
  have g := h.compaction c hc
  exact ⟨h.imm_eq, by simp, forall_of_some { g with todo_mem := htodo }⟩

theorem Sane.compactStartReading (h : s.Sane) (hs : s.compactStartReading cuts = some s') :
    s'.Sane := by
  obtain ⟨t, ht, rfl⟩ := map_eq_some_iff.mp hs
  have hstep : LsmStep s .compactStart t := step_of_apply ht
  have hsane := h.step hstep
  cases hstep with
  | compactStart hc hlen =>
    exact hsane.with_todo rfl fun x hx => mem_tablePairs_of_mem_readFronts hx

theorem midway_reading (h : s.Sane) (hs : s.compactStartReading cuts = some s') :
    ∃ c, s'.compaction = some c ∧ Midway {x | x ∈ (readFronts s.tables cuts).entries} s s' c := by
  obtain ⟨hc, rfl⟩ := compactStartReading_eq_some hs
  exact ⟨_, rfl, midway_start h hc rfl (readFronts s.tables cuts).sorted next_none_iff⟩

/-- **What a compaction with failing reads leaves**: the pairs that were in no table when it began,
and the survivors of what it read. -/
theorem live_of_compactStartReading {s₀ s₁ : Lsm} {ops : List LsmOp} (hsane : s₀.Sane)
    (hstart : s₀.compactStartReading cuts = some s₁) (hrun : exec apply s₁ ops = some s)
    (hops : ∀ op ∈ ops, op.meanwhile = true) (hfin : s.apply .compactFinish = some s')
    (hexp : ∀ x ∈ tablePairs s₀.tables, x.2.expiresAt = 0) :
    s'.live = s₀.unflushed ∪ {x | Survivor {y | y ∈ (readFronts s₀.tables cuts).entries} x} := by
  have hmid : s.Sane ∧ ∃ c, s.compaction = some c ∧
      Midway {x | x ∈ (readFronts s₀.tables cuts).entries} s₀ s c := by
    refine exec_invariant (G := fun _ op => op.meanwhile = true) (I := fun s => s.Sane ∧ ∃ c,
      s.compaction = some c ∧ Midway {x | x ∈ (readFronts s₀.tables cuts).entries} s₀ s c)
      ?_ ⟨hsane.compactStartReading hstart, midway_reading hsane hstart⟩
      (Guarded.of_mem s₁ fun op hop _ => hops op hop) hrun
    rintro t op t' ⟨ht, c, hc, hm⟩ hop hs
    have hs := step_of_apply hs
    obtain ⟨c', hc', hwork⟩ := working_of_step hs hop hc
    exact ⟨ht.step hs, c', hc', hm.step (ht.compaction c hc) (hm.tbls_eq ▸ hexp) hwork⟩
  obtain ⟨hs, c, hc, hm⟩ := hmid
  exact (hm.live_finish hs hc (step_of_apply hfin)).2

/-- It leaves every newest live pair exactly if it has read all that are in tables. -/
theorem keeps_survivors_iff {s₀ : Lsm}
    (h : s'.live = s₀.unflushed ∪ {x | Survivor {y | y ∈ (readFronts s₀.tables cuts).entries} x}) :
    (∀ x, Survivor s₀.live x → x ∈ s'.live) ↔
      ∀ x, Survivor s₀.live x → x ∈ s₀.unflushed ∨ x ∈ (readFronts s₀.tables cuts).entries := by
  have hsub : ∀ x ∈ (readFronts s₀.tables cuts).entries, x ∈ s₀.live := fun x hx =>
    .inr (.inr (mem_tablePairs_of_mem_readFronts hx))
  rw [h]
  refine forall_congr' fun x => forall_congr' fun hx => or_congr_right ?_
  constructor
  · exact fun hs => hs.mem
  · exact fun hmem => ⟨hmem, fun y hy => hx.max y (hsub y hy), hx.live⟩

end Lsm

/-! ## The machine with failing reads -/

/-- The actions of the machine, and those in which a read fails. -/
inductive FaultyAction where
  | act (a : Action)
  /-- `doCompact` begins, and the iterator of each table will end after so many pairs. -/
  | compactStart (cuts : List ℕ)
  /-- `replayLog` returns an error, which `OpenRangePartition` does not look at. -/
  | replayFail

/-- The steps of the machine with failing reads. -/
def faultyStep (env : Env) (w : World) : FaultyAction → Option World
  | .act a => step env w a
  | .compactStart cuts => w.rp.bind fun rp =>
    match rp.mode with
    | .running => (rp.toLsm.compactStartReading cuts).map fun lsm =>
      { w with rp := some { rp with toLsm := lsm } }
    | _ => none
  | .replayFail => w.rp.bind fun rp =>
    match rp.mode with
    | .replaying _ => some { w with rp := some { rp with mode := .running } }
    | _ => none

/-- A compaction reads each key that is the newest of its user key in the tables and not that of a
deletion, and a replay that fails leaves out nothing acknowledged that is not there already. -/
def FaultyAction.Spares (w : World) : FaultyAction → Prop
  | .compactStart cuts => ∀ rp ∈ w.rp, ∀ t ∈ rp.tables, ∀ x ∈ t.data.entries,
    (∀ u ∈ rp.tables, ∀ y ∈ u.data.entries, y.1.userKey = x.1.userKey → y.1.ts ≤ x.1.ts) →
      x.2.isDeleted = false → ∃ m ∈ fronts rp.tables cuts, ∃ y ∈ m.entries, y.1 = x.1
  | .replayFail => ∀ rp ∈ w.rp, ∀ p ∈ rp.mode.todo, p ∈ w.acked → rp.toLsm.Kept [] p
  | .act _ => True

instance (s : SortedRun) (p : EntryInfo) : Decidable (s.Holds p) :=
  inferInstanceAs (Decidable (_ ∨ _))

instance (s : Lsm) (merged : List Table) (p : EntryInfo) : Decidable (s.Kept merged p) :=
  inferInstanceAs (Decidable ((∃ t ∈ s.tables ++ merged, t.toSortedRun.Holds p) ∨ _))

instance (w : World) (a : FaultyAction) : Decidable (a.Spares w) :=
  match a with
  | .compactStart _ => inferInstanceAs (Decidable (∀ rp ∈ w.rp, ∀ t ∈ rp.tables, _))
  | .replayFail => inferInstanceAs (Decidable (∀ rp ∈ w.rp, ∀ p ∈ rp.mode.todo, _))
  | .act _ => isTrue trivial

theorem FaultyAction.Spares.delivers {w : World} {cuts : List ℕ} {rp : RangePartition}
    (h : (FaultyAction.compactStart cuts).Spares w) (hrp : w.rp = some rp) :
    DeliversLive rp.tables {x | x ∈ (readFronts rp.tables cuts).entries} := by
  refine ⟨fun x hx => mem_tablePairs_of_mem_readFronts hx, fun x hx => ?_⟩
  obtain ⟨t, ht, hxt⟩ := hx.mem
  obtain ⟨m, hm, y, hy, hyx⟩ :=
    h rp hrp t ht x hxt (fun u hu y hy => hx.max y ⟨u, hu, hy⟩) hx.live
  obtain ⟨z, hz, hzy⟩ := exists_key_mem_mergeAll hm hy
  exact ⟨z, hz, hzy.trans hyx⟩

/-- What a step of the machine with failing reads can do. -/
inductive FaultyStep (env : Env) (w : World) : FaultyAction → World → Prop where
  | act {a : Action} {w' : World} (hs : WorldStep env w a w') : FaultyStep env w (.act a) w'
  | compactStart {cuts : List ℕ} {rp : RangePartition} {lsm : Lsm} (hrp : w.rp = some rp)
      (hs : rp.toLsm.compactStartReading cuts = some lsm) :
      FaultyStep env w (.compactStart cuts) { w with rp := some { rp with toLsm := lsm } }
  | replayFail {rp : RangePartition} {todo : List EntryInfo} (hrp : w.rp = some rp)
      (hm : rp.mode = .replaying todo) :
      FaultyStep env w .replayFail { w with rp := some { rp with mode := .running } }

variable {env : Env} {w w' : World} {a : FaultyAction}

theorem faultyStep_cases (h : faultyStep env w a = some w') : FaultyStep env w a w' := by
  cases a with
  | act a => exact .act (step_cases h)
  | compactStart cuts =>
    obtain ⟨rp, hrp, h⟩ := bind_eq_some_iff.mp h
    split at h
    · obtain ⟨lsm, hs, rfl⟩ := map_eq_some_iff.mp h
      exact .compactStart hrp hs
    · cases h
  | replayFail =>
    obtain ⟨rp, hrp, h⟩ := bind_eq_some_iff.mp h
    split at h
    · cases h
      exact .replayFail hrp ‹_›
    · cases h

theorem World.Base.faultyStep (h : w.Base) (hs : FaultyStep env w a w') : w'.Base := by
  cases hs with
  | act hs => exact h.step hs
  | @compactStart cuts rp lsm hrp hs =>
    have hb := h.rp rp hrp
    have hsane := hb.sane.compactStartReading hs
    obtain ⟨_, rfl⟩ := compactStartReading_eq_some hs
    exact { h with rp := forall_of_some { hb with sane := hsane } }
  | @replayFail rp todo hrp hm =>
    exact { h with rp := forall_of_some { h.rp rp hrp with todo_placed := by simp [Mode.todo] } }

theorem World.Checkpoint.faultyStep (h : w.Checkpoint) (hb : w.Base) (hspares : a.Spares w)
    (hs : FaultyStep env w a w') : w'.Checkpoint := by
  cases hs with
  | act hs => exact h.step hb hs
  | @compactStart cuts rp lsm hrp hs =>
    have hr := h.rp rp hrp
    obtain ⟨_, rfl⟩ := compactStartReading_eq_some hs
    exact { h with
      rp := forall_of_some { hr with covered := ⟨hr.covered.tables, hr.covered.tasks⟩ } }
  | @replayFail rp todo hrp hm =>
    have hr := h.rp rp hrp
    exact { h with rp := forall_of_some { hr with
      kept := fun p hp => .inl ((hr.kept p hp).elim id fun hk =>
        (hspares rp hrp p hk hp).imp (Covered.mono fun t ht => by simp_all) id)
      order := by simp [Mode.todo]
      writes := fun _ => rfl } }

theorem World.Reaching.faultyStep (h : w.Reaching) (hb : w.Base) (hspares : a.Spares w)
    (hs : FaultyStep env w a w') : w'.Reaching := by
  cases hs with
  | act hs => exact h.step hb hs
  | @compactStart cuts rp lsm hrp hs =>
    obtain ⟨hc, rfl⟩ := compactStartReading_eq_some hs
    have hcarry := carrying_start (c := { Compaction.start rp.tables with
      todo := (readFronts rp.tables cuts).entries }) (hb.rp rp hrp).sane hc
      (readFronts rp.tables cuts).sorted next_none_iff
    exact { h with rp := forall_of_some ⟨(h.rp rp hrp).merged,
      forall_of_some ⟨_, hspares.delivers hrp, hcarry⟩⟩ }
  | @replayFail rp todo hrp hm => exact { h with rp := forall_of_some (h.rp rp hrp) }

/-- The invariants hold in every run whose failing reads spare what has to be read. -/
theorem reaching_of_faulty {id : ℕ} (hid : id ≠ 0) {as : List FaultyAction}
    (hrun : exec (faultyStep env) (World.init id) as = some w)
    (hspares : Guarded (faultyStep env) (fun w a => a.Spares w) (World.init id) as) :
    (w.Base ∧ w.Checkpoint) ∧ w.Reaching := by
  refine exec_invariant (I := fun w => (w.Base ∧ w.Checkpoint) ∧ w.Reaching)
    (fun s a s' ⟨⟨hb, hc⟩, hr⟩ ha hs => ?_)
    ⟨⟨base_init hid, checkpoint_init id⟩, reaching_init id⟩ hspares hrun
  have hs := faultyStep_cases hs
  exact ⟨⟨hb.faultyStep hs, hc.faultyStep hb ha hs⟩, hr.faultyStep hb ha hs⟩

/-- **When failing reads lose nothing.**  In a compaction the merge iterator yields what can be read
from the start of each table, whatever blocks fail, and at its end every newest live pair is still
there exactly if the ones in tables were among it.  In a run in which compactions read the newest
live pairs and no failed replay leaves out something acknowledged, every acknowledged entry is
reached by the stored tables or replayed by the next opening, and reached by reads once a replay has
ended. -/
theorem failing_reads_keep {fingerprint : Bytes → ℕ} (Ts : List (Sst.OpenTable fingerprint))
    (F : ℕ → ℕ → Bool) (n : ℕ) (opening : List Table) (earlier ops : List LsmOp) (s₀ s₁ s s' : Lsm)
    (h₀ : exec Lsm.apply (Lsm.opened opening) earlier = some s₀)
    (htables : s₀.tables.map (fun t => t.data) = Ts.map fun T => T.run.data)
    (hstart : s₀.compactStartReading (Sst.cutsOf Ts F) = some s₁)
    (hcompact : exec Lsm.apply s₁ ops = some s) (hops : ∀ op ∈ ops, op.meanwhile = true)
    (hfin : s.apply .compactFinish = some s') (hexp : ∀ x ∈ tablePairs s₀.tables, x.2.expiresAt = 0)
    (env : Env) (id : ℕ) (hid : id ≠ 0) (as : List FaultyAction) (w : World)
    (hrun : exec (faultyStep env) (World.init id) as = some w)
    (hspares : Guarded (faultyStep env) (fun w a => a.Spares w) (World.init id) as) :
    ((∃ I, newMergeIterator (n + 1) false
        (Ts.map fun T => Sst.tableIterator (T.failing F)) = some I ∧
        ∀ st : I.State, ∃ st', I.rewind st = some st' ∧
          Yields I st' (readFronts s₀.tables (Sst.cutsOf Ts F)).entries) ∧
      ((∀ x, Survivor s₀.live x → x ∈ s'.live) ↔
        ∀ x, Survivor s₀.live x →
          x ∈ s₀.unflushed ∨ x ∈ (readFronts s₀.tables (Sst.cutsOf Ts F)).entries)) ∧
    ∀ p ∈ w.acked, (Reached w.log (tablePairs w.stored) p.log.key ∨
        p ∈ w.log.since (compactHead w.stored).1.extentID (compactHead w.stored).1.offset) ∧
      ∀ rp, w.rp = some rp → rp.mode.todo = [] → Reached w.log rp.toLsm.visible p.log.key := by
  have hsane : s₀.Sane :=
    exec_invariant_of_step (fun _ _ _ h hs => h.step (step_of_apply hs))
      (sane_opened opening) h₀
  have hne : Ts ≠ [] := by
    rintro rfl
    have hnil : s₀.tables = [] := map_eq_nil_iff.mp htables
    obtain ⟨t, ht, _⟩ := map_eq_some_iff.mp hstart
    have hstep : LsmStep s₀ .compactStart t := step_of_apply ht
    cases hstep with
    | compactStart hc hlen => simp [hnil] at hlen
  have hfronts : readFronts s₀.tables (Sst.cutsOf Ts F) =
      readFronts (Ts.map Sst.OpenTable.run) (Sst.cutsOf Ts F) := by
    rw [readFronts, readFronts, fronts, fronts, htables, List.map_map]
    rfl
  refine ⟨⟨?_, ?_⟩, fun p hp => ?_⟩
  · rw [hfronts]
    exact Sst.yields_readFronts Ts hne F n
  · exact keeps_survivors_iff
      (live_of_compactStartReading hsane hstart hcompact hops hfin hexp)
  · obtain ⟨⟨hb, hc⟩, hr⟩ := reaching_of_faulty hid hrun hspares
    refine ⟨hr.reached_or_since hc hp, fun rp hrp htodo => ?_⟩
    exact (hr.reached_or_todo hb hc hrp hp).resolve_right (by simp [htodo])

/-- A key is written twice.  The table with its first version cannot be read, which the compaction
does not need; and when the partition is opened again after a crash, the replay fails with nothing
to do. -/
def compactSparing : List FaultyAction :=
  writtenTwice.map .act ++ .compactStart [0, 1] :: compactRest.map .act ++
    [.act .crash, .act .openPartition, .replayFail]

/-- The compaction of the two tables while the older one cannot be read. -/
theorem failing_reads_keep_twoTables : ∃ (s₁ s s' : Lsm) (w : World) (rp : RangePartition),
    (Lsm.opened Snapshot.twoRuns).compactStartReading
      (Sst.cutsOf Snapshot.twoTables.tables fun extentID _ => extentID == 1) = some s₁ ∧
    exec Lsm.apply s₁ [.compactSend 0 [], .receive, .build, .popImm, .saved, .notify] = some s ∧
    s.apply .compactFinish = some s' ∧
    exec (faultyStep Env.plain) (World.init 1) compactSparing = some w ∧ w.rp = some rp ∧
    ((∀ x, Survivor (Lsm.opened Snapshot.twoRuns).live x → x ∈ s'.live) ↔
      ∀ x, Survivor (Lsm.opened Snapshot.twoRuns).live x →
        x ∈ (Lsm.opened Snapshot.twoRuns).unflushed ∨ x ∈ (readFronts Snapshot.twoRuns
          (Sst.cutsOf Snapshot.twoTables.tables fun extentID _ => extentID == 1)).entries) ∧
    w.acked.length = 2 ∧ ∀ p ∈ w.acked, Reached w.log rp.toLsm.visible p.log.key := by
  obtain ⟨s₁, hstart, s, hcompact, s', hfin, -⟩ :
      ∃ s₁ ∈ (opened Snapshot.twoRuns).compactStartReading
        (Sst.cutsOf Snapshot.twoTables.tables fun extentID _ => extentID == 1),
      ∃ s ∈ exec apply s₁ [.compactSend 0 [], .receive, .build, .popImm, .saved, .notify],
      ∃ s' ∈ s.apply .compactFinish, True := by decide +kernel
  obtain ⟨w, hw, rp, hrp, htodo, hlen⟩ :
      ∃ w ∈ exec (faultyStep Env.plain) (World.init 1) compactSparing,
        ∃ rp ∈ w.rp, rp.mode.todo = [] ∧ w.acked.length = 2 := by decide +kernel
  have hzero : ∀ t ∈ Snapshot.twoRuns, ∀ x ∈ t.data.entries, x.2.expiresAt = 0 := by
    decide +kernel
  have hexp : ∀ x ∈ tablePairs Snapshot.twoRuns, x.2.expiresAt = 0 := by
    rintro x ⟨t, ht, hx⟩
    exact hzero t ht x hx
  have hall := failing_reads_keep Snapshot.twoTables.tables (fun extentID _ => extentID == 1) 0
    Snapshot.twoRuns [] _ _ s₁ s s' rfl map_map hstart hcompact (by simp [LsmOp.meanwhile]) hfin
    hexp Env.plain 1 (by decide) _ w hw (by decide +kernel)
  exact ⟨s₁, s, s', w, rp, hstart, hcompact, hfin, hw, hrp, hall.1.2, hlen,
    fun p hp => (hall.2 p hp).2 rp hrp htodo⟩

/-! ## Runs that lose an entry -/

/-- A key is written and flushed, then another one.  When the two tables are compacted, the only
block of the first one cannot be read; after the compaction the process crashes and the partition is
opened again. -/
def compactLosing : List FaultyAction :=
  (openReplayed ++ writeKey [107] [1] ++ closeFlushing ++ openReplayed ++ writeKey [108] [2] ++
      closeFlushing ++ openReplayed).map .act ++
    .compactStart [0, 1] :: (compactRest ++ .crash :: openReplayed).map .act

/-- A key is written and the process crashes.  The replay fails, another key is written and flushed,
and the partition is opened again. -/
def replayLosing : List FaultyAction :=
  (openReplayed ++ writeKey [107] [1]).map .act ++
    .act .crash :: .act .openPartition :: .replayFail ::
      (writeKey [108] [2] ++ closeFlushing ++ openReplayed).map .act

/-- The first entry of the log, of version 1 of key `[107]`, is acknowledged; the partition is open
and has nothing left to replay, and the key is not found. -/
def World.lostFirst (w : World) : Bool :=
  w.rp.any fun rp =>
    decide (rp.mode = .running) &&
    (w.acked.any fun p => decide (p.log = writeEntry [107] [1] 1)) &&
    decide (get Env.plain rp.memTables rp.seqNumber rp.tables w.log [107] 0 = .error .notFound)

/-- **Failed reads lose acknowledged keys for good.**  With the first of two tables unreadable, its
iterator ends after no pair, and the compaction drops its keys.  A failed replay does the same to
the keys it did not get to. -/
theorem failing_reads_lose :
    (Sst.cutsOf Snapshot.twoTables.tables (fun extentID _ => extentID == 1) = [0, 1] ∧
      ∃ w, exec (faultyStep Env.plain) (World.init 1) compactLosing = some w ∧
        w.lostFirst = true) ∧
    ∃ w, exec (faultyStep Env.plain) (World.init 1) replayLosing = some w ∧ w.lostFirst = true := by
  exact ⟨⟨by decide, by decide +kernel⟩, by decide +kernel⟩

end Autumn
