import Autumn.RangePartition.Carrying
import Mathlib.Data.Finset.Max

/-!
# Memtables and tables against the writes

When versions are put in increasing order, the memtables and tables hold the latest write of every
user key, whatever has been rotated, flushed and compacted.  What can be missing is older versions,
and a latest version that is a deletion; then the whole user key is gone.

The argument is about the pairs in the memtable, the pending flush tasks and the tables
(`Lsm.live`); the tasks of a compaction do not count, since their pairs are in the tables being
compacted as well.  Only the end of a compaction takes pairs away, and replaces them by its
survivors.  Tables flushed meanwhile are newer than its own, so nothing they hold can reappear from
below.
-/

namespace Autumn

open Lib Y List SortedRun

/-- Every version in `S` is below every version in `T`. -/
def Older (S T : Set Pair) : Prop := ∀ x ∈ S, ∀ y ∈ T, x.1.ts < y.1.ts

variable {S : Set Pair}

theorem Older.mono {S' T T' : Set Pair} (h : Older S T) (hS : S' ⊆ S) (hT : T' ⊆ T) : Older S' T' :=
  fun x hx y hy => h x (hS hx) y (hT hy)

theorem older_empty (S : Set Pair) : Older S Skiplist.new.toSortedRun.pairs :=
  fun _ _ y hy => absurd hy (not_mem_empty y)

theorem Older.union_left {S' T : Set Pair} (h : Older S T) (h' : Older S' T) : Older (S ∪ S') T :=
  fun x hx => hx.elim (h x) (h' x)

theorem Older.put {m : SortedRun} {key : InternalKey} {vs : ValueStruct} (h : Older S m.pairs)
    (hkey : ∀ x ∈ S, x.1.ts < key.ts) : Older S (m.put key vs).pairs := by
  intro x hx y hy
  rcases mem_put.mp hy with rfl | ⟨hy, _⟩
  · exact hkey x hx
  · exact h x hx y hy

/-- The pair an operation puts. -/
def LsmOp.puts : LsmOp → List Pair
  | .put key vs _ => [(key, vs.decoded)]
  | _ => []

namespace Lsm

/-- The pairs of the memtable, of the pending tasks that are not of a compaction, and of the
tables. -/
def live (s : Lsm) : Set Pair :=
  {x | x ∈ s.mt.toSortedRun ∨
    (∃ ft ∈ s.pendingTasks, ft.isCompact = false ∧ x ∈ ft.mt.toSortedRun) ∨
    x ∈ tablePairs s.tables}

/-- What the flusher has just flushed is in the tables, and a compaction in progress does not take
it away before the memtable has left `rp.imm`. -/
def BuiltSafe (s : Lsm) : Prop :=
  ∀ ft, s.flusher = .built ft → ft.isCompact = false →
    (∀ x ∈ ft.mt.toSortedRun, x ∈ tablePairs s.tables) ∧
    ∀ c, s.compaction = some c → (∀ x ∈ ft.mt.toSortedRun, x ∈ tablePairs (c.rest s)) ∨
      c.todo ≠ [] ∨ c.results < c.numBuilds

variable {s s' : Lsm} {x : Pair} {P : List Pair} {op : LsmOp}
variable {c : Compaction}

theorem visible_eq_live (h : s.Sane) (hb : s.BuiltSafe) : s.visible = s.live := by
  ext x
  constructor
  · intro hx
    rcases mem_visible.mp hx with hx | ⟨m, hm, hx⟩ | hx
    · exact .inl hx
    · rw [← h.imm_eq, immTasks, mem_map] at hm
      obtain ⟨ft, hft, rfl⟩ := hm
      obtain ⟨hft, hc⟩ := mem_filter.mp hft
      have hc : ft.isCompact = false := by simpa using hc
      rcases mem_append.mp hft with hft | hft
      · cases hf : s.flusher with
        | building f =>
          rw [hf, Flusher.inImm, mem_singleton] at hft
          subst hft
          exact .inr (.inl ⟨ft, by simp [pendingTasks, hf, Flusher.unbuilt], hc, hx⟩)
        | built f =>
          rw [hf, Flusher.inImm, mem_singleton] at hft
          subst hft
          exact .inr (.inr ((hb ft hf hc).1 x hx))
        | _ => simp [hf, Flusher.inImm] at hft
      · exact .inr (.inl ⟨ft, mem_append_right _ hft, hc, hx⟩)
    · exact .inr (.inr hx)
  · rintro (hx | ⟨ft, hft, _, hx⟩ | hx)
    · exact mem_visible.mpr (.inl hx)
    · exact h.mem_visible_of_task hft hx
    · exact mem_visible.mpr (.inr (.inr hx))

/-! ## Increasing versions -/

/-- Tables, tasks and memtable hold increasing versions. -/
structure InOrder (s : Lsm) : Prop where
  tables_tasks : ∀ ft ∈ s.pendingTasks, ft.isCompact = false →
    Older (tablePairs s.tables) ft.mt.toSortedRun.pairs
  tasks : s.pendingTasks.Pairwise fun f g => f.isCompact = false → g.isCompact = false →
    Older f.mt.toSortedRun.pairs g.mt.toSortedRun.pairs
  tables_mt : Older (tablePairs s.tables) s.mt.toSortedRun.pairs
  tasks_mt : ∀ ft ∈ s.pendingTasks, ft.isCompact = false →
    Older ft.mt.toSortedRun.pairs s.mt.toSortedRun.pairs

theorem InOrder.step (h : s.InOrder) (hsane : s.Sane) (hs : LsmStep s op s')
    (hput : ∀ key vs height, op = .put key vs height → ∀ x ∈ s.live, x.1.ts < key.ts) :
    s'.InOrder := by
  -- The memtable stays, takes a version above all others, or is new.
  have hmt : ∀ S ⊆ s.live, Older S s.mt.toSortedRun.pairs → Older S s'.mt.toSortedRun.pairs := by
    intro S hS hold
    rcases mt_of_step hs with heq | ⟨key, vs, height, hop, heq⟩ | ⟨_, _, _, heq⟩
    · rwa [heq]
    · rw [heq]
      exact hold.put fun x hx => hput key vs height hop x (hS hx)
    · rw [heq]
      exact older_empty S
  have htab : tablePairs s.tables ⊆ s.live := fun x hx => .inr (.inr hx)
  have htask : ∀ ft ∈ s.pendingTasks, ft.isCompact = false → ft.mt.toSortedRun.pairs ⊆ s.live :=
    fun ft hft hc x hx => .inr (.inl ⟨ft, hft, hc, hx⟩)
  have hless : op ≠ .build → tablePairs s'.tables ⊆ tablePairs s.tables := by
    rintro hop x ⟨t, ht, hx⟩
    exact ⟨t, tables_subset_of_step hsane hs hop t ht, hx⟩
  rcases pendingTasks_of_step hs with
    ⟨heq, hop⟩ | ⟨vptr, seqNum, rfl, heq⟩ | ⟨c, now, hs', hc, rfl, heq⟩ | ⟨ft, hop, heq, htabs⟩
  · have hsub := hless hop
    refine ⟨?_, heq ▸ h.tasks, (hmt _ htab h.tables_mt).mono hsub subset_rfl, ?_⟩
    · rw [heq]
      exact fun f hf hfc => (h.tables_tasks f hf hfc).mono hsub subset_rfl
    · rw [heq]
      exact fun f hf hfc => hmt _ (htask f hf hfc) (h.tasks_mt f hf hfc)
  · have hsub := hless (by simp)
    have hnew : s'.mt = Skiplist.new := by cases hs; rfl
    refine ⟨?_, ?_, hnew ▸ older_empty _, fun f _ _ => hnew ▸ older_empty _⟩
    · rw [heq]
      exact forall_mem_concat (fun f hf hfc => (h.tables_tasks f hf hfc).mono hsub subset_rfl)
        fun _ => h.tables_mt.mono hsub subset_rfl
    · rw [heq, pairwise_append]
      refine ⟨h.tasks, pairwise_singleton _ _, fun f hf g hg hfc _ => ?_⟩
      rw [mem_singleton.mp hg]
      exact h.tasks_mt f hf hfc
  · have hsub := hless (by simp)
    refine ⟨?_, ?_, (hmt _ htab h.tables_mt).mono hsub subset_rfl, ?_⟩
    · rw [heq]
      exact forall_mem_concat (fun f hf hfc => (h.tables_tasks f hf hfc).mono hsub subset_rfl) nofun
    · rw [heq, pairwise_append]
      refine ⟨h.tasks, pairwise_singleton _ _, fun f hf g hg _ hgc => ?_⟩
      rw [mem_singleton.mp hg] at hgc
      cases hgc
    · rw [heq]
      exact forall_mem_concat (fun f hf hfc => hmt _ (htask f hf hfc) (h.tasks_mt f hf hfc)) nofun
  · have hft : ft ∈ s.pendingTasks := heq ▸ (.head _)
    have hpairs : tablePairs s'.tables = tablePairs s.tables ∪ tablePairs ft.table.toList := by
      rw [htabs, tablePairs_append]
    have hnew : tablePairs ft.table.toList ⊆ ft.mt.toSortedRun.pairs := fun x hx =>
      mem_tablePairs_task.mp hx
    obtain ⟨hfirst, hrest⟩ := pairwise_cons.mp (heq ▸ h.tasks)
    -- The new table is older than `T` if the tables were, and its task was unless it is compact.
    have hboth : ∀ T, Older (tablePairs s.tables) T →
        (ft.isCompact = false → Older ft.mt.toSortedRun.pairs T) →
        Older (tablePairs s'.tables) T := by
      intro T hT hTft
      rw [hpairs]
      refine hT.union_left ?_
      cases hc : ft.isCompact with
      | false => exact (hTft hc).mono hnew subset_rfl
      | true => exact hT.mono (fun x hx => hsane.mem_tablePairs_of_task hft hc (hnew hx)) subset_rfl
    have hmem : ∀ g ∈ s'.pendingTasks, g ∈ s.pendingTasks := fun g hg =>
      heq ▸ .tail _ hg
    refine ⟨fun g hg hgc => hboth _ (h.tables_tasks g (hmem g hg) hgc)
      fun hc => hfirst g hg hc hgc, hrest, ?_, fun g hg hgc => ?_⟩
    · exact hboth _ (hmt _ htab h.tables_mt) fun hc =>
        hmt _ (htask ft hft hc) (h.tasks_mt ft hft hc)
    · exact hmt _ (htask g (hmem g hg) hgc) (h.tasks_mt g (hmem g hg) hgc)

/-! ## A compaction in progress -/

/-- The survivors of a compaction are still to come, in a pending task, or in a table that has
joined the list; and what has joined the list is a survivor or newer than all of its tables. -/
structure Compacting (s : Lsm) (c : Compaction) : Prop
    extends Carrying (tablePairs c.tbls) s c where
  newer : ∀ x ∈ tablePairs (c.rest s), Survivor (tablePairs c.tbls) x ∨
    ∀ y ∈ tablePairs c.tbls, y.1.ts < x.1.ts

/-- What joins the list while a compaction is in progress is one of its survivors, or newer than all
of its tables. -/
theorem Compacting.newer_build (h : s.Compacting c) (g : s.CompactionSane c) (hord : s.InOrder)
    {ft : FlushTask} (htasks : s.pendingTasks = ft :: s'.pendingTasks)
    (htables : s'.tables = s.tables ++ ft.table.toList) :
    ∀ x ∈ tablePairs (c.rest s'), Survivor (tablePairs c.tbls) x ∨
      ∀ y ∈ tablePairs c.tbls, y.1.ts < x.1.ts := by
  have hft : ft ∈ s.pendingTasks := htasks ▸ (.head _)
  rw [rest_append g.tables_eq htables, tablePairs_append]
  rintro x (hx | hx)
  · exact h.newer x hx
  · have hx := mem_tablePairs_task.mp hx
    cases hc : ft.isCompact with
    | true => exact .inl (h.task_survivor ft hft hc x hx)
    | false => exact .inr fun y hy => hord.tables_tasks ft hft hc y (g.tablePairs_subset hy) x hx

/-- Every operation keeps the account of a compaction. -/
theorem Compacting.step (hs : LsmStep s op s') (hsane : s.Sane) (hord : s.InOrder)
    (h : ∀ c, s.compaction = some c → s.Compacting c)
    (huniq : ∀ y ∈ tablePairs s.tables, ∀ z ∈ tablePairs s.tables, y.1 = z.1 → y = z)
    (hexp : ∀ x ∈ tablePairs s.tables, x.2.expiresAt = 0) :
    ∀ c, s'.compaction = some c → s'.Compacting c := by
  intro c' hc'
  obtain ⟨_, rfl, hcarry⟩ := Carrying.step (Q := fun ts D => D = tablePairs ts) hs hsane
    (fun c hc => ⟨_, rfl, (h c hc).toCarrying⟩)
    ⟨_, rfl, fun _ => next_mergeIterators_iff huniq⟩ hexp c' hc'
  refine ⟨hcarry, ?_⟩
  cases hs with
  | build hf =>
    exact (h c' hc').newer_build (hsane.compaction c' hc') hord
      (by simp [pendingTasks, hf, Flusher.unbuilt]) rfl
  | @notify c hf hc ht | @compactSend c now hs hc ht room =>
    cases hc'
    exact (h c hc).newer
  | compactStart hc hlen =>
    cases hc'
    rintro x ⟨t, ht, _⟩
    simp [Compaction.rest, Compaction.start] at ht
  | compactFinish hc ht hr => cases hc'
  | _ => exact (h c' hc').newer

/-- A memtable does not leave `rp.imm` before its pairs are safe in the tables. -/
theorem BuiltSafe.step (h : s.BuiltSafe) (hsane : s.Sane) (hs : LsmStep s op s') :
    s'.BuiltSafe := by
  intro ft hft hc
  cases hs with
  | receive hf hch | popCompact hf hcc | popImm hf hcc hi | notify hf hcc ht => simp at hft
  | @build f hf =>
    obtain rfl := Flusher.built.inj hft
    refine ⟨fun x hx => ?_, fun c hcomp => .inl fun x hx => ?_⟩
    · dsimp only
      rw [tablePairs_append]
      exact .inr (mem_tablePairs_task.mpr hx)
    · rw [rest_append (hsane.compaction c hcomp).tables_eq rfl, tablePairs_append]
      exact .inr (mem_tablePairs_task.mpr hx)
  | @saved f hf => cases hcc : f.isCompact <;> simp [hcc] at hft
  | compactStart hcc hlen =>
    refine ⟨(h ft hft hc).1, fun c hcomp => .inr (.inl ?_)⟩
    cases hcomp
    -- There are tables, and none of them is empty.
    obtain ⟨t, ht⟩ := exists_mem_of_length_pos (by omega : 0 < s.tables.length)
    obtain ⟨x, hx⟩ := exists_mem_of_ne_nil _ t.entries_ne_nil
    obtain ⟨y, hy, _⟩ := exists_key_mem_mergeIterators (x := x) ht hx
    exact ne_nil_of_mem hy
  | @compactSend c now hs' hcc ht room =>
    refine ⟨(h ft hft hc).1, fun c' hcomp => .inr (.inr ?_)⟩
    cases hcomp
    have := (hsane.compaction c hcc).owed_eq
    dsimp only
    omega
  | @compactFinish c hcc ht hr =>
    refine ⟨fun x hx => ?_, by simp⟩
    rcases (h ft hft hc).2 c hcc with hx' | hne | hlt
    · dsimp only
      rw [(hsane.compaction c hcc).replaceTables_eq]
      exact hx' x hx
    · exact absurd ht hne
    · omega
  | put room | rotate room => exact h ft hft hc

/-! ## The live pairs along an operation -/

theorem mem_live_of_step (hsane : s.Sane) (hb : s.BuiltSafe) (hs : LsmStep s op s')
    (hx : x ∈ s'.live) : x ∈ s.live ∨ x ∈ op.puts := by
  rw [← visible_eq_live (hsane.step hs) (hb.step hsane hs)] at hx
  rw [← visible_eq_live hsane hb]
  refine (mem_visible_of_step hsane hs hx).imp id ?_
  rintro ⟨key, vs, height, rfl, rfl⟩
  exact .head _

/-- Only the end of a compaction takes live pairs away, if puts replace nothing. -/
theorem live_subset_of_step (hs : LsmStep s op s') (hop : op ≠ .compactFinish)
    (hput : ∀ key vs height, op = .put key vs height → ∀ x ∈ s.live, x.1 ≠ key) :
    s.live ⊆ s'.live := by
  rintro x hx
  have hlive := hx
  rcases hx with hx | ⟨ft, hft, hc, hx⟩ | ⟨t, ht, hx⟩
  · rcases mt_of_step hs with heq | ⟨key, vs, height, hop', heq⟩ | ⟨vptr, seqNum, hop', _⟩
    · exact .inl (heq ▸ hx)
    · refine .inl ?_
      rw [heq]
      exact mem_put.mpr (.inr ⟨hx, hput key vs height hop' x hlive⟩)
    · subst hop'
      cases hs with
      | rotate room =>
        refine .inr (.inl ⟨⟨s.mt, vptr, seqNum, false⟩, ?_, rfl, hx⟩)
        exact mem_append_right _ (mem_concat_self)
  · rcases pendingTasks_of_step hs with
      ⟨heq, _⟩ | ⟨_, _, _, heq⟩ | ⟨_, _, _, _, _, heq⟩ | ⟨f, _, heq, htab⟩
    · exact .inr (.inl ⟨ft, heq ▸ hft, hc, hx⟩)
    · exact .inr (.inl ⟨ft, heq ▸ mem_append_left _ hft, hc, hx⟩)
    · exact .inr (.inl ⟨ft, heq ▸ mem_append_left _ hft, hc, hx⟩)
    · rw [heq, mem_cons] at hft
      rcases hft with rfl | hft
      · refine .inr (.inr ?_)
        rw [htab, tablePairs_append]
        exact .inr (mem_tablePairs_task.mpr hx)
      · exact .inr (.inl ⟨ft, hft, hc, hx⟩)
  · exact .inr (.inr ⟨t, subset_tables_of_step hs hop t ht, hx⟩)

/-! ## The latest writes -/

/-- `x` is the last pair of its user key among the pairs put. -/
def Latest (P : List Pair) (x : Pair) : Prop :=
  x ∈ P ∧ ∀ y ∈ P, y.1.userKey = x.1.userKey → y.1.ts ≤ x.1.ts

/-- The memtables and tables hold the latest of the pairs put so far. -/
structure Faithful (s : Lsm) (P : List Pair) : Prop where
  sane : s.Sane
  layered : s.Layered
  built : s.BuiltSafe
  inOrder : s.InOrder
  compacting : ∀ c, s.compaction = some c → s.Compacting c
  increasing : P.Pairwise fun x y => x.1.ts < y.1.ts
  lasting : ∀ x ∈ P, x.2.expiresAt = 0
  from_puts : ∀ x ∈ s.live, x ∈ P
  latest : ∀ x, Latest P x →
    x ∈ s.live ∨ (x.2.isDeleted = true ∧ ∀ y ∈ s.live, y.1.userKey ≠ x.1.userKey)

theorem eq_of_ts_eq (h : P.Pairwise fun x y => x.1.ts < y.1.ts) {y : Pair} (hx : x ∈ P) (hy : y ∈ P)
    (hts : x.1.ts = y.1.ts) : x = y := by
  have hnd : (P.map fun x => x.1.ts).Nodup := pairwise_map.mpr (h.imp fun hlt => hlt.ne)
  exact inj_on_of_nodup_map hnd hx hy hts

theorem faithful_opened_of {tables : List Table} (hinc : P.Pairwise fun x y => x.1.ts < y.1.ts)
    (hlast : ∀ x ∈ P, x.2.expiresAt = 0) (hmem : ∀ x, x ∈ P ↔ x ∈ tablePairs tables) :
    (opened tables).Faithful P where
  sane := sane_opened tables
  layered := layered_opened tables
  built := by simp [BuiltSafe, opened]
  inOrder := by
    refine ⟨?_, List.Pairwise.nil, older_empty _, ?_⟩
    · exact fun ft hft => absurd hft (by simp [pendingTasks, opened, Flusher.unbuilt])
    · exact fun ft hft => absurd hft (by simp [pendingTasks, opened, Flusher.unbuilt])
  compacting := by simp [opened]
  increasing := hinc
  lasting := hlast
  from_puts := by
    rintro x (hx | ⟨ft, hft, _⟩ | hx)
    · cases hx
    · simp [pendingTasks, opened, Flusher.unbuilt] at hft
    · exact (hmem x).mpr hx
  latest := fun x hx => .inl (.inr (.inr ((hmem x).mp hx.1)))

theorem faithful_opened : (opened []).Faithful [] :=
  faithful_opened_of List.Pairwise.nil (by simp) (by simp [tablePairs, unionOf])

theorem Faithful.mem_tables (h : s.Faithful P) : ∀ x ∈ tablePairs s.tables, x ∈ P :=
  fun x hx => h.from_puts x (.inr (.inr hx))

/-- The end of a compaction.  The last version of a user key in its tables survives, or it is a
deletion and what is left of the user key is newer. -/
theorem Faithful.survives_or_newer (h : s.Faithful P) (hs : LsmStep s .compactFinish s')
    (hc : s.compaction = some c) (hx : x ∈ tablePairs c.tbls)
    (hmax : ∀ y ∈ tablePairs c.tbls, y.1.userKey = x.1.userKey → y.1.ts ≤ x.1.ts) :
    x ∈ tablePairs s'.tables ∨ (x.2.isDeleted = true ∧
      ∀ y ∈ s'.live, y.1.userKey = x.1.userKey → x.1.ts < y.1.ts) := by
  cases hs with
  | @compactFinish c' hc' ht hr =>
    cases hc'.symm.trans hc
    have g := h.sane.compaction c hc
    have k := h.compacting c hc
    simp only [live, g.replaceTables_eq]
    have hxt := g.tablePairs_subset hx
    cases hdel : x.2.isDeleted with
    | false => exact .inl (k.toCarrying.mem_rest h.sane hc ht hr ⟨hx, hmax, hdel⟩)
    | true =>
      refine .inr ⟨rfl, ?_⟩
      rintro y (hy | ⟨ft, hft, hcc, hy⟩ | hy) hyk
      · exact h.inOrder.tables_mt x hxt y hy
      · exact h.inOrder.tables_tasks ft hft hcc x hxt y hy
      · rcases k.newer y hy with hsurv | hnew
        · have hyt := g.tablePairs_subset hsurv.mem
          have hts := le_antisymm (hmax y hsurv.mem hyk) (hsurv.max x hx hyk.symm)
          have hyx := eq_of_ts_eq h.increasing (h.mem_tables y hyt) (h.mem_tables x hxt) hts
          exact absurd (hyx ▸ hsurv.live) (by simp [hdel])
        · exact hnew x hx

theorem mem_tables_or_finish (hsane : s.Sane) (hs : LsmStep s .compactFinish s')
    (hx : x ∈ tablePairs s.tables) :
    x ∈ tablePairs s'.tables ∨ ∃ c, s.compaction = some c ∧ x ∈ tablePairs c.tbls := by
  cases hs with
  | @compactFinish c hc ht hr =>
    rw [(hsane.compaction c hc).tablePairs_eq] at hx
    dsimp only
    rw [(hsane.compaction c hc).replaceTables_eq]
    exact hx.symm.imp id fun hx => ⟨c, hc, hx⟩

theorem mem_live_of_finish (h : s.Faithful P) (hs : LsmStep s .compactFinish s') :
    ∀ y ∈ s'.live, y ∈ s.live := fun _ hy =>
  (mem_live_of_step h.sane h.built hs hy).elim id fun hp => absurd hp not_mem_nil

/-- The end of a compaction takes a latest write away only if it is a deletion, and then nothing of
its user key is left. -/
theorem Faithful.latest_finish (h : s.Faithful P) (hs : LsmStep s .compactFinish s')
    (hx : Latest P x) :
    x ∈ s'.live ∨ (x.2.isDeleted = true ∧ ∀ y ∈ s'.live, y.1.userKey ≠ x.1.userKey) := by
  have hsub := mem_live_of_finish h hs
  rcases h.latest x hx with (hmt | htask | htab) | ⟨hdel, hno⟩
  · cases hs
    exact .inl (.inl hmt)
  · cases hs
    exact .inl (.inr (.inl htask))
  · rcases mem_tables_or_finish h.sane hs htab with htab | ⟨c, hc, hxc⟩
    · exact .inl (.inr (.inr htab))
    · have hmem : ∀ y ∈ tablePairs c.tbls, y ∈ P := fun y hy =>
        h.mem_tables y ((h.sane.compaction c hc).tablePairs_subset hy)
      rcases h.survives_or_newer hs hc hxc fun y hy => hx.2 y (hmem y hy) with hkept | ⟨hdel, hnew⟩
      · exact .inl (.inr (.inr hkept))
      · refine .inr ⟨hdel, fun y hy hyk => ?_⟩
        exact absurd (hnew y hy hyk) (not_lt.mpr (hx.2 y (h.from_puts y (hsub y hy)) hyk))
  · exact .inr ⟨hdel, fun y hy => hno y (hsub y hy)⟩

/-- **Every operation keeps the latest writes**, if what is put has the greatest version and does
not expire. -/
theorem Faithful.step (h : s.Faithful P) (hs : LsmStep s op s')
    (hput : ∀ x ∈ op.puts, (∀ y ∈ P, y.1.ts < x.1.ts) ∧ x.2.expiresAt = 0) :
    s'.Faithful (P ++ op.puts) := by
  have hnew : ∀ key vs height, op = .put key vs height → ∀ x ∈ s.live, x.1.ts < key.ts := by
    rintro key vs height rfl x hx
    exact (hput (key, vs.decoded) (.head _)).1 x (h.from_puts x hx)
  have hpairs : P.Pairwise fun x y => x.1.ts < y.1.ts := h.increasing
  refine ⟨h.sane.step hs, h.layered.step h.sane hs ?_, h.built.step h.sane hs,
    h.inOrder.step h.sane hs hnew, ?_, ?_, ?_, ?_, ?_⟩
  · intro key vs height hop
    have hvis : ∀ x ∈ s.visible, x.1.userKey = key.userKey → x.1.ts ≤ key.ts := fun x hx _ =>
      (hnew key vs height hop x (visible_eq_live h.sane h.built ▸ hx)).le
    exact ⟨fun m hm x hx => hvis x (mem_visible.mpr (.inr (.inl ⟨m, hm, hx⟩))),
      fun x hx => hvis x (mem_visible.mpr (.inr (.inr hx)))⟩
  · refine Compacting.step hs h.sane h.inOrder h.compacting (fun y hy z hz hyz => ?_) fun x hx =>
      h.lasting x (h.mem_tables x hx)
    exact eq_of_ts_eq hpairs (h.mem_tables y hy) (h.mem_tables z hz) (hyz ▸ rfl)
  · refine pairwise_append.mpr ⟨hpairs, ?_, fun y hy x hx => (hput x hx).1 y hy⟩
    cases op <;> simp [LsmOp.puts]
  · intro x hx
    exact (mem_append.mp hx).elim (h.lasting x) fun hx => (hput x hx).2
  · intro x hx
    rcases mem_live_of_step h.sane h.built hs hx with hx | hx
    · exact mem_append_left _ (h.from_puts x hx)
    · exact mem_append_right _ hx
  · intro x hx
    by_cases hfin : op = .compactFinish
    · subst hfin
      exact h.latest_finish hs ⟨by simpa [LsmOp.puts] using hx.1, fun y hy => hx.2 y (by simp [hy])⟩
    have hkeep : s.live ⊆ s'.live := live_subset_of_step hs hfin fun key vs height hop y hy heq =>
      absurd (heq ▸ rfl) (hnew key vs height hop y hy).ne
    rcases mem_append.mp hx.1 with hxP | hxnew
    · have hxP' : Latest P x := ⟨hxP, fun y hy => hx.2 y (mem_append_left _ hy)⟩
      rcases h.latest x hxP' with hlive | ⟨hdel, hno⟩
      · exact .inl (hkeep hlive)
      · refine .inr ⟨hdel, fun y hy hyk => ?_⟩
        rcases mem_live_of_step h.sane h.built hs hy with hy | hy
        · exact hno y hy hyk
        · have h1 := (hput y hy).1 x hxP
          have h2 := hx.2 y (mem_append_right _ hy) hyk
          omega
    · cases hs with
      | put room => exact .inl (.inl (mem_put.mpr (.inl (mem_singleton.mp hxnew))))
      | _ => cases hxnew

/-! ## Reading -/

/-- What a read of `k` may return when the pairs `P` have been put: the last pair of `k`; nothing
if there is none, or if it is a deletion. -/
def Reads (P : List Pair) (k : Bytes) (vs : ValueStruct) : Prop :=
  (∃ x, Latest P x ∧ x.1.userKey = k ∧
    (vs = { x.2 with version := x.1.ts } ∨ (x.2.isDeleted = true ∧ vs = {}))) ∨
  ((∀ x ∈ P, x.1.userKey ≠ k) ∧ vs = {})

theorem exists_latest (hx : x ∈ P) : ∃ y, Latest P y ∧ y.1.userKey = x.1.userKey := by
  have hne : (P.toFinset.filter fun y => y.1.userKey = x.1.userKey).Nonempty :=
    ⟨x, by simp [hx]⟩
  obtain ⟨y, hy, hmax⟩ := Finset.exists_max_image _ (fun y : Pair => y.1.ts) hne
  rw [Finset.mem_filter, mem_toFinset] at hy
  refine ⟨y, ⟨hy.1, fun z hz hzy => hmax z ?_⟩, hy.2⟩
  rw [Finset.mem_filter, mem_toFinset]
  exact ⟨hz, hzy.trans hy.2⟩

/-- The answer among the visible pairs is the answer among all pairs put, up to deletions. -/
theorem Faithful.reads (h : s.Faithful P) {v : ℕ} (hv : ∀ x ∈ P, x.1.ts ≤ v) {k : Bytes}
    {vs : ValueStruct} (hans : Answers s.visible k v vs) : Reads P k vs := by
  rw [visible_eq_live h.sane h.built] at hans
  by_cases hex : ∃ x ∈ P, x.1.userKey = k
  · obtain ⟨x, hx, rfl⟩ := hex
    obtain ⟨y, hy, hyk⟩ := exists_latest hx
    refine .inl ⟨y, hy, hyk, ?_⟩
    rcases hans with ⟨z, hz, rfl⟩ | ⟨habs, rfl⟩
    · have hzk : z.1.userKey = x.1.userKey := hz.key_eq
      have hzy : z.1.ts ≤ y.1.ts := hy.2 z (h.from_puts z hz.mem) (hzk.trans hyk.symm)
      rcases h.latest y hy with hlive | ⟨_, hno⟩
      · have hyz : y.1.ts ≤ z.1.ts := hz.max y hlive hyk (hv y hy.1)
        rw [eq_of_ts_eq h.increasing (h.from_puts z hz.mem) hy.1 (le_antisymm hzy hyz)]
        exact .inl rfl
      · exact absurd (hzk.trans hyk.symm) (hno z hz.mem)
    · rcases h.latest y hy with hlive | ⟨hdel, _⟩
      · exact absurd (habs y hlive hyk) (not_lt.mpr (hv y hy.1))
      · exact .inr ⟨hdel, rfl⟩
  · refine .inr ⟨fun x hx hxk => hex ⟨x, hx, hxk⟩, ?_⟩
    rcases hans with ⟨z, hz, _⟩ | ⟨_, rfl⟩
    · exact absurd ⟨z, h.from_puts z hz.mem, hz.key_eq⟩ hex
    · rfl

/-- A read takes the tables later than the memtables.  If no memtable was added in between, it
answers for the earlier or for the later state. -/
theorem Layered.getValueStruct_later (hl : s.Layered) (env : Env) {k : Bytes} (hk : k ≠ [])
    (seqNumber version : ℕ) (hpos : ∀ x ∈ s.visible, 0 < x.1.ts)
    (hpos' : ∀ x ∈ s'.visible, 0 < x.1.ts) (hmem : memPairs s'.memTables ⊆ memPairs s.memTables) :
    Answers s.visible k (if version = 0 then seqNumber else version)
        (getValueStruct env s.memTables seqNumber s'.tables k version) ∨
      Answers s'.visible k (if version = 0 then seqNumber else version)
        (getValueStruct env s.memTables seqNumber s'.tables k version) := by
  have hans := hl.getValueStruct_answers env hk seqNumber version hpos
  rw [getValueStruct] at hans ⊢
  generalize (if version = 0 then seqNumber else version) = v at hans ⊢
  cases hfind : searchMemTables s.memTables (keyWithTs k v) with
  | some vs =>
    simp only [hfind] at hans ⊢
    exact .inl hans
  | none =>
    right
    rw [searchMemTables_eq, Option.map_eq_none_iff] at hfind
    have habs := absent_of_findSome (looks_memTable k v) hfind
    have htables : ∀ x ∈ tablePairs s'.tables, 0 < x.1.ts := fun x hx => hpos' x (.inr hx)
    have htab := searchTables_answers env hk v htables
    rcases htab with ⟨x, hx, hvs⟩ | ⟨hno, hvs⟩
    · exact .inl ⟨x, isNewest_union_of_absent (fun y hy => habs y (hmem hy)) hx, hvs⟩
    · exact .inr ⟨fun y hy hyk => hy.elim (fun h => habs y (hmem h) hyk) (hno y · hyk), hvs⟩

end Lsm

end Autumn
