import Autumn.RangePartition.MapRefinement
import Mathlib.Algebra.Order.BigOperators.Group.List
import Mathlib.Algebra.Order.Ring.Nat

/-!
# Major compaction

While a compaction runs, flushed memtables and its own outputs join the table list behind the tables
being compacted; when it ends, the compacted tables leave the list.  Reads do not notice: the old
tables are replaced by their survivors (`Lsm.Midway.visible_finish`), and a deletion that is dropped
had nothing of its user key left to hide.

Whether it ends is another matter.  The flusher hands the result of each output to the compaction,
which takes results only after it has sent everything.  So with the first output the flusher stops,
and the channel has to hold whatever is sent: sixteen tasks.  A compaction that needs one round
always ends (`Lsm.exists_works`, `Lsm.work_run`); one that needs more than seventeen never does
(`Lsm.Overfull.step`).
-/

namespace Autumn

open Lib Y List InternalKey Skiplist Lsm

/-- What can happen between the start and the end of a compaction if nothing is put. -/
def LsmOp.meanwhile : LsmOp → Bool
  | .put .. | .compactStart | .compactFinish => false
  | _ => true

/-- The operations of the flusher and of the compaction. -/
def LsmOp.works : LsmOp → Bool
  | .put .. | .rotate .. | .compactStart => false
  | _ => true

/-- The memtable is sent to the flusher. -/
def LsmOp.isRotate : LsmOp → Bool
  | .rotate .. => true
  | _ => false

/-- The steps the flusher has left for the task it holds. -/
def Flusher.work : Flusher → ℕ
  | .idle => 0
  | .building _ => 4
  | .built _ => 3
  | .saving _ => 2
  | .notifying => 1

/-- The steps a compaction of one round has left: its end, and before it the round, which makes a
task of five steps. -/
def Compaction.work (c : Compaction) : ℕ := if c.todo = [] then 1 else 7

variable {op : LsmOp} {ts : List Table}

namespace Lsm

/-- The pairs that are in no table yet. -/
def unflushed (s : Lsm) : Set Pair :=
  {x | x ∈ s.mt.toSortedRun ∨
    ∃ ft ∈ s.pendingTasks, ft.isCompact = false ∧ x ∈ ft.mt.toSortedRun}

theorem live_eq (s : Lsm) : s.live = s.unflushed ∪ tablePairs s.tables := by
  ext x
  exact or_assoc.symm

/-- The outcome of one round for the pairs to come. -/
def round (now : ℕ) (hs : List ℕ) (todo : List Pair) : Skiplist × List Pair :=
  compactLoop true (2 * maxSkipList) now none Skiplist.new hs todo

/-- What an operation does while a compaction is in progress: nothing that matters to the pairs, a
rotation, a round of the compaction, or a flush. -/
inductive Working (s : Lsm) (c : Compaction) (s' : Lsm) (c' : Compaction) : Prop where
  | same (htbls : c'.tbls = c.tbls) (htodo : c'.todo = c.todo) (htables : s'.tables = s.tables)
      (htasks : s'.pendingTasks = s.pendingTasks) (hmt : s'.mt = s.mt)
  | rotate (hc : c' = c) (htables : s'.tables = s.tables) {vptr : ValuePointer} {seqNum : ℕ}
      (htasks : s'.pendingTasks = s.pendingTasks ++ [⟨s.mt, vptr, seqNum, false⟩])
      (hmt : s'.mt = Skiplist.new)
  | send {now : ℕ} {hs : List ℕ}
      (hc : c' = { c with todo := (round now hs c.todo).2, numBuilds := c.numBuilds + 1 })
      (htables : s'.tables = s.tables)
      (htasks : s'.pendingTasks =
        s.pendingTasks ++ [⟨(round now hs c.todo).1, c.head, c.maxSeq, true⟩])
      (hmt : s'.mt = s.mt)
  | build (hc : c' = c) {ft : FlushTask} (htables : s'.tables = s.tables ++ ft.table.toList)
      (htasks : s.pendingTasks = ft :: s'.pendingTasks) (hmt : s'.mt = s.mt)

variable {s s' s₀ : Lsm} {c c' : Compaction} {D : Set Pair}

theorem working_of_step (hs : LsmStep s op s') (hop : op.meanwhile = true)
    (hc : s.compaction = some c) : ∃ c', s'.compaction = some c' ∧ s.Working c s' c' := by
  cases hs with
  | put room | compactStart hn _ | compactFinish _ _ _ =>
    cases hop
  | rotate room => exact ⟨c, hc, .rotate rfl rfl (append_assoc _ _ _).symm rfl⟩
  | receive hf hch =>
    exact ⟨c, hc, .same rfl rfl rfl (by simp [pendingTasks, hf, hch, Flusher.unbuilt]) rfl⟩
  | build hf => exact ⟨c, hc, .build rfl rfl (by simp [pendingTasks, hf, Flusher.unbuilt]) rfl⟩
  | popCompact hf _ | popImm hf _ _ =>
    exact ⟨c, hc, .same rfl rfl rfl (by simp [pendingTasks, hf, Flusher.unbuilt]) rfl⟩
  | @saved ft hf =>
    refine ⟨c, hc, .same rfl rfl rfl ?_ rfl⟩
    cases hcc : ft.isCompact <;> simp [pendingTasks, hf, Flusher.unbuilt]
  | @notify d hf hd ht =>
    cases hd.symm.trans hc
    exact ⟨_, rfl, .same rfl rfl rfl (by simp [pendingTasks, hf, Flusher.unbuilt]) rfl⟩
  | @compactSend d now hs' hd ht room =>
    cases hd.symm.trans hc
    exact ⟨_, rfl, .send rfl rfl (append_assoc _ _ _).symm rfl⟩

/-! ## Where the pairs are -/

/-- The pairs of `s₀`, in which the compaction began: those in no table then are still in no table
or in one that has joined the list, and besides them only survivors of the pairs `D` that the merge
iterator delivers have joined it. -/
structure Midway (D : Set Pair) (s₀ s : Lsm) (c : Compaction) : Prop where
  tbls_eq : c.tbls = s₀.tables
  carrying : Carrying D s c
  keeps : ∀ x ∈ s₀.unflushed, x ∈ s.unflushed ∨ x ∈ tablePairs (c.rest s)
  unflushed_subset : ∀ x ∈ s.unflushed, x ∈ s₀.unflushed
  rest_subset : ∀ x ∈ tablePairs (c.rest s), x ∈ s₀.unflushed ∨ Survivor D x

theorem midway_start (h : s.Sane) (hc : s.compaction = none) (htbls : c.tbls = s.tables)
    (hsorted : c.todo.Pairwise fun a b => a.1 < b.1) (hD : ∀ x, Next none c.todo x ↔ Survivor D x) :
    Midway D s { s with compaction := some c } c where
  tbls_eq := htbls
  carrying := carrying_start h hc hsorted hD
  keeps := fun _ hx => .inl hx
  unflushed_subset := fun _ hx => hx
  rest_subset := by
    rintro x ⟨t, ht, _⟩
    simp [Compaction.rest, htbls] at ht

theorem mem_unflushed_iff_of_same (hmt : s'.mt = s.mt)
    (htasks : ∀ ft, ft.isCompact = false → (ft ∈ s'.pendingTasks ↔ ft ∈ s.pendingTasks))
    (x : Pair) :
    x ∈ s'.unflushed ↔ x ∈ s.unflushed := by
  unfold unflushed
  rw [Set.mem_ofPred_eq, Set.mem_ofPred_eq, hmt]
  refine or_congr_right (exists_congr fun ft => ?_)
  constructor
  · exact fun ⟨hft, hc, hx⟩ => ⟨(htasks ft hc).mp hft, hc, hx⟩
  · exact fun ⟨hft, hc, hx⟩ => ⟨(htasks ft hc).mpr hft, hc, hx⟩

theorem mem_unflushed_rotate {vptr : ValuePointer} {seqNum : ℕ}
    (htasks : s'.pendingTasks = s.pendingTasks ++ [⟨s.mt, vptr, seqNum, false⟩])
    (hmt : s'.mt = new) (x : Pair) : x ∈ s'.unflushed ↔ x ∈ s.unflushed := by
  unfold unflushed
  rw [Set.mem_ofPred_eq, Set.mem_ofPred_eq, hmt, htasks]
  constructor
  · rintro (hx | ⟨ft, hft, hc, hx⟩)
    · cases hx
    · rcases mem_append.mp hft with hft | hft
      · exact .inr ⟨ft, hft, hc, hx⟩
      · rw [mem_singleton.mp hft] at hx
        exact .inl hx
  · rintro (hx | ⟨ft, hft, hc, hx⟩)
    · exact .inr ⟨_, mem_concat_self, rfl, hx⟩
    · exact .inr ⟨ft, mem_append_left _ hft, hc, hx⟩

/-- Operations that add no table and keep the unflushed pairs. -/
theorem Midway.of_same (h : Midway D s₀ s c) (htbls : c'.tbls = c.tbls)
    (htables : s'.tables = s.tables) (hun : ∀ x, x ∈ s'.unflushed ↔ x ∈ s.unflushed)
    (hcarry : Carrying D s' c') : Midway D s₀ s' c' := by
  have hrest : c'.rest s' = c.rest s := by rw [Compaction.rest, Compaction.rest, htables, htbls]
  refine ⟨htbls.trans h.tbls_eq, hcarry, fun x hx => ?_, fun x hx => ?_, ?_⟩
  · rw [hun x, hrest]
    exact h.keeps x hx
  · exact h.unflushed_subset x ((hun x).mp hx)
  · rw [hrest]
    exact h.rest_subset

theorem Midway.step (h : Midway D s₀ s c) (g : s.CompactionSane c)
    (hexp : ∀ x ∈ tablePairs c.tbls, x.2.expiresAt = 0) (hs : s.Working c s' c') :
    Midway D s₀ s' c' := by
  cases hs with
  | same htbls htodo htables htasks hmt =>
    exact h.of_same htbls htables (mem_unflushed_iff_of_same hmt fun ft _ => by rw [htasks])
      (h.carrying.of_same htbls htodo htables fun ft _ => by rw [htasks])
  | rotate hc htables htasks hmt =>
    subst hc
    refine h.of_same rfl htables (mem_unflushed_rotate htasks hmt)
      (h.carrying.of_same rfl rfl htables fun ft hft => ?_)
    rw [htasks, mem_append, mem_singleton, or_iff_left]
    rintro rfl
    cases hft
  | @send now hs hc htables htasks hmt =>
    subst hc
    refine h.of_same rfl htables (mem_unflushed_iff_of_same hmt fun ft hft => ?_)
      (h.carrying.send g hexp now hs htables htasks)
    rw [htasks, mem_append, mem_singleton, or_iff_left]
    rintro rfl
    cases hft
  | @build hc ft htables htasks hmt =>
    subst hc
    have hrest : tablePairs (c'.rest s') =
        tablePairs (c'.rest s) ∪ tablePairs ft.table.toList := by
      rw [rest_append g.tables_eq htables, tablePairs_append]
    have hmem : ft ∈ s.pendingTasks := htasks ▸ (.head _)
    refine ⟨h.tbls_eq, h.carrying.build g htasks htables, fun x hx => ?_, fun x hx => ?_, ?_⟩
    · rw [hrest]
      rcases h.keeps x hx with (hx | ⟨f, hf, hfc, hx⟩) | hx
      · exact .inl (.inl (hmt ▸ hx))
      · rw [htasks, mem_cons] at hf
        rcases hf with rfl | hf
        · exact .inr (.inr (mem_tablePairs_task.mpr hx))
        · exact .inl (.inr ⟨f, hf, hfc, hx⟩)
      · exact .inr (.inl hx)
    · refine h.unflushed_subset x ?_
      rcases hx with hx | ⟨f, hf, hfc, hx⟩
      · exact .inl (hmt ▸ hx)
      · exact .inr ⟨f, htasks ▸ .tail _ hf, hfc, hx⟩
    · rw [hrest]
      rintro x (hx | hx)
      · exact h.rest_subset x hx
      · have hx := mem_tablePairs_task.mp hx
        cases hfc : ft.isCompact with
        | false => exact .inl (h.unflushed_subset x (.inr ⟨ft, hmem, hfc, hx⟩))
        | true => exact .inr (h.carrying.task_survivor ft hmem hfc x hx)

/-- **What the end of a compaction leaves**: the pairs that were in no table when it began, and the
survivors of what was delivered. -/
theorem Midway.live_finish (h : Midway D s₀ s c) (hsane : s.Sane) (hc : s.compaction = some c)
    (hs : LsmStep s .compactFinish s') :
    s'.tables = c.rest s ∧ s'.live = s₀.unflushed ∪ {x | Survivor D x} := by
  cases hs with
  | @compactFinish d hd ht hr =>
    obtain rfl := Option.some.inj (hd.symm.trans hc)
    have htables := (hsane.compaction d hc).replaceTables_eq
    refine ⟨htables, ?_⟩
    rw [live_eq, htables]
    ext x
    constructor
    · rintro (hx | hx)
      · exact .inl (h.unflushed_subset x hx)
      · exact h.rest_subset x hx
    · rintro (hx | hx)
      · exact h.keeps x hx
      · exact .inr (h.carrying.mem_rest hsane hc ht hr hx)

theorem Midway.visible_finish (h : Midway D s₀ s c) (hsane : s.Sane) (hb : s.BuiltSafe)
    (hc : s.compaction = some c) (hs : LsmStep s .compactFinish s') :
    s'.tables = c.rest s ∧
      s'.visible = s₀.unflushed ∪ {x | Survivor D x} := by
  rw [visible_eq_live (hsane.step hs) (hb.step hsane hs)]
  exact h.live_finish hsane hc hs

/-! ## The outputs -/

/-- The stores of the rounds so far and the pairs to come: no user key occurs in two of them, and a
store has one version of each of its user keys. -/
structure StoresOf (stores : List Skiplist) (todo : List Pair) : Prop where
  disjoint : stores.Pairwise fun m n =>
    ∀ x ∈ m.toSortedRun, ∀ y ∈ n.toSortedRun, x.1.userKey ≠ y.1.userKey
  single : ∀ m ∈ stores, ∀ x ∈ m.toSortedRun, ∀ y ∈ m.toSortedRun,
    x.1.userKey = y.1.userKey → x = y
  fresh : ∀ m ∈ stores, ∀ x ∈ m.toSortedRun, ∀ y ∈ todo, x.1.userKey ≠ y.1.userKey

theorem StoresOf.round {stores : List Skiplist} {todo : List Pair} (h : StoresOf stores todo)
    (hsorted : todo.Pairwise fun a b => a.1 < b.1)
    (hok : ∀ x ∈ todo, x.2.expiresAt = 0 ∧ x.2.decoded = x.2) (now : ℕ) (hs : List ℕ) :
    StoresOf (stores ++ [(round now hs todo).1]) (round now hs todo).2 := by
  have hspec := compactLoop_spec (2 * maxSkipList) now todo none new hs hsorted hok
    (by simp [Behind]) (fun y hy => absurd hy (SortedRun.not_mem_empty y))
  have hnext : ∀ x ∈ (Lsm.round now hs todo).1.toSortedRun, Next none todo x := fun x hx =>
    (hspec.puts x hx).resolve_left (SortedRun.not_mem_empty x)
  have hsuffix := compactLoop_snd_suffix true (2 * maxSkipList) now todo none new hs
  refine ⟨?_, forall_mem_concat h.single fun x hx y hy hxy => ?_, forall_mem_concat
    (fun m hm x hx y hy => h.fresh m hm x hx y (hsuffix.subset hy)) ?_⟩
  · refine pairwise_append.mpr ⟨h.disjoint, pairwise_singleton _ _, ?_⟩
    intro m hm n hn x hx y hy
    rw [mem_singleton.mp hn] at hy
    exact h.fresh m hm x hx y (hnext y hy).1.mem
  · have hle := (hnext y hy).1.max x (hnext x hx).1.mem hxy
    have hge := (hnext x hx).1.max y (hnext y hy).1.mem hxy.symm
    exact SortedMap.eq_of_key_eq hx hy (InternalKey.ext hxy (le_antisymm hle hge))
  · exact userKey_ne_of_compactLoop hsorted (by simp [Behind])
      fun y hy => absurd hy (SortedRun.not_mem_empty y)

/-- The stores of the tasks of a compaction. -/
def storesOf (fts : List FlushTask) : List Skiplist :=
  (fts.filter FlushTask.isCompact).map FlushTask.mt

theorem storesOf_append (fts gts : List FlushTask) :
    storesOf (fts ++ gts) = storesOf fts ++ storesOf gts := by
  rw [storesOf, filter_append, map_append]
  rfl

/-- The tables that have joined the list are those of the tasks `built`; together with the pending
tasks these account for the rounds so far. -/
structure Outputs (s : Lsm) (c : Compaction) (built : List FlushTask) : Prop where
  rest_eq : c.rest s = built.flatMap fun ft => ft.table.toList
  stores : StoresOf (storesOf (built ++ s.pendingTasks)) c.todo

theorem outputs_start (h : s.Sane) (hc : s.compaction = none) :
    ({ s with compaction := some (Compaction.start s.tables) } : Lsm).Outputs
      (Compaction.start s.tables) [] := by
  have hnone : storesOf ([] ++ s.pendingTasks) = [] := by
    rw [storesOf, nil_append, map_eq_nil_iff, filter_eq_nil_iff]
    intro ft hft hcc
    obtain ⟨c, hc'⟩ := h.exists_compaction hft hcc
    cases hc.symm.trans hc'
  refine ⟨by simp [Compaction.rest, Compaction.start], ?_⟩
  show StoresOf (storesOf ([] ++ s.pendingTasks)) _
  rw [hnone]
  exact ⟨List.Pairwise.nil, by simp, by simp⟩

theorem Outputs.step {built : List FlushTask} (h : s.Outputs c built) (g : s.CompactionSane c)
    (hs : s.Working c s' c') (hsorted : c.todo.Pairwise fun a b => a.1 < b.1)
    (hexp : ∀ x ∈ tablePairs c.tbls, x.2.expiresAt = 0) : ∃ built', s'.Outputs c' built' := by
  cases hs with
  | same htbls htodo htables htasks _ =>
    refine ⟨built, ?_, htasks ▸ htodo ▸ h.stores⟩
    rw [Compaction.rest, htables, htbls]
    exact h.rest_eq
  | rotate hc htables htasks _ =>
    subst hc
    refine ⟨built, by rw [Compaction.rest, htables]; exact h.rest_eq, ?_⟩
    rw [htasks, ← append_assoc, storesOf_append, show storesOf [_] = [] from rfl, append_nil]
    exact h.stores
  | @send now hs hc htables htasks _ =>
    subst hc
    refine ⟨built, by rw [Compaction.rest, htables]; exact h.rest_eq, ?_⟩
    rw [htasks, ← append_assoc, storesOf_append]
    exact h.stores.round hsorted (fun x hx => ⟨hexp x (g.todo_mem x hx),
      decoded_eq_of_mem_tablePairs (g.todo_mem x hx)⟩) now hs
  | @build hc ft htables htasks _ =>
    subst hc
    refine ⟨built ++ [ft], ?_, ?_⟩
    · rw [rest_append g.tables_eq htables, h.rest_eq, flatMap_append, flatMap_singleton]
    · rw [append_assoc, singleton_append, ← htasks]
      exact h.stores

/-- The states between the start and the end of a compaction that began in `s₀`. -/
structure Underway (s₀ s : Lsm) : Prop where
  sane : s.Sane
  built : s.BuiltSafe
  layered : s.Layered
  inProgress : ∃ c, s.compaction = some c ∧ Midway (tablePairs s₀.tables) s₀ s c ∧
    ∃ built, s.Outputs c built

theorem underway_start (hsane : s.Sane) (hb : s.BuiltSafe) (hl : s.Layered)
    (huniq : ∀ y ∈ tablePairs s.tables, ∀ z ∈ tablePairs s.tables, y.1 = z.1 → y = z)
    (hs : LsmStep s .compactStart s') : s.Underway s' := by
  refine ⟨hsane.step hs, hb.step hsane hs, hl.step hsane hs (by simp), ?_⟩
  cases hs with
  | compactStart hc hlen =>
    exact ⟨_, rfl, midway_start hsane hc rfl (mergeIterators s.tables).sorted
      fun _ => next_mergeIterators_iff huniq, [], outputs_start hsane hc⟩

theorem Underway.step (h : s₀.Underway s) (hexp : ∀ x ∈ tablePairs s₀.tables, x.2.expiresAt = 0)
    (hop : op.meanwhile = true) (hs : LsmStep s op s') : s₀.Underway s' := by
  obtain ⟨c, hc, hmid, built, hout⟩ := h.inProgress
  obtain ⟨c', hc', hwork⟩ := working_of_step hs hop hc
  have g := h.sane.compaction c hc
  have hexp' : ∀ x ∈ tablePairs c.tbls, x.2.expiresAt = 0 := hmid.tbls_eq ▸ hexp
  refine ⟨h.sane.step hs, h.built.step h.sane hs, h.layered.step h.sane hs ?_, c', hc',
    hmid.step g hexp' hwork, hout.step g hwork hmid.carrying.sorted hexp'⟩
  rintro key vs height rfl
  cases hop

/-! ## Whether it ends -/

/-- The steps the flusher and a compaction of one round have left. -/
def work (s : Lsm) : ℕ :=
  s.flusher.work + 5 * s.flushChan.length + s.compaction.elim 0 Compaction.work

/-- The compaction has sent nothing, or everything. -/
def OneRound (s₀ s : Lsm) : Prop :=
  ∃ c, s.compaction = some c ∧
    (c.todo = [] ∨ (c.numBuilds = 0 ∧ c.todo = (mergeIterators s₀.tables).entries))

/-- The survivors of the tables fit into one store, by the estimate of `doCompact`. -/
def FitsOneStore (ts : List Table) : Prop :=
  Skiplist.new.memSize + ((survivors ts).map fun x => estimatedVS x.1 x.2).sum ≤ 2 * maxSkipList

theorem FitsOneStore.round_eq_nil (h : FitsOneStore ts)
    (hok : ∀ x ∈ tablePairs ts, x.2.expiresAt = 0 ∧ Stored x.2) (now : ℕ) (hs : List ℕ) :
    (round now hs (mergeIterators ts).entries).2 = [] := by
  refine compactLoop_snd_eq_nil (fun x hx => ?_) ?_
  · exact (hok x (exists_mem_of_mem_mergeIterators hx)).symm
  · rw [keptOf_mergeIterators]
    exact h

section

variable (h : s₀.OneRound s)
  (hone : ∀ now hs, (round now hs (mergeIterators s₀.tables).entries).2 = [])
  (hop : op.meanwhile = true) (hs : LsmStep s op s')
include h hone hop hs

theorem OneRound.step : s₀.OneRound s' := by
  obtain ⟨c, hc, hround⟩ := h
  cases hs with
  | @notify d hf hd ht =>
    cases hd.symm.trans hc
    exact ⟨_, rfl, .inl ht⟩
  | @compactSend d now hs hd ht room =>
    cases hd.symm.trans hc
    refine ⟨_, rfl, .inl ?_⟩
    obtain ⟨_, htodo⟩ := hround.resolve_left ht
    rw [htodo]
    exact hone now hs
  | put _ | compactStart _ _ | compactFinish _ _ _ => cases hop
  | _ => exact ⟨c, hc, hround⟩

/-- Every step of the flusher and of the compaction takes off some of the work, and a rotation adds
the five steps of its task. -/
theorem work_step :
    s'.work + (if op.works then 1 else 0) ≤ s.work + (if op.isRotate then 5 else 0) := by
  obtain ⟨c, hc, hround⟩ := h
  cases hs with
  | put _ | compactStart _ _ | compactFinish _ _ _ => cases hop
  | rotate room =>
    show work _ + 0 ≤ work s + 5
    simp only [work, length_append, length_singleton]
    omega
  | receive hf hch =>
    show work _ + 1 ≤ work s + 0
    simp only [work, hf, hch, length_cons, Flusher.work]
    omega
  | build hf | popCompact hf _ | popImm hf _ _ =>
    show work _ + 1 ≤ work s + 0
    simp only [work, hf, Flusher.work]
    omega
  | @saved ft hf =>
    show work _ + 1 ≤ work s + 0
    have hle : (if ft.isCompact then Flusher.notifying else Flusher.idle).work ≤ 1 := by
      cases ft.isCompact <;> simp [Flusher.work]
    simp only [work, hf]
    rw [Flusher.work]
    omega
  | @notify d hf hd ht =>
    show work _ + 1 ≤ work s + 0
    simp only [work, hf, hd, Option.elim_some, Flusher.work, Compaction.work, ht]
    omega
  | @compactSend d now hs hd ht room =>
    obtain rfl := Option.some.inj (hd.symm.trans hc)
    obtain ⟨_, htodo⟩ := hround.resolve_left ht
    have hnil : (compactLoop true (2 * maxSkipList) now none new hs d.todo).2 = [] := by
      rw [htodo]
      exact hone now hs
    show work _ + 1 ≤ work s + 0
    simp only [work, hd, Option.elim_some, Compaction.work, hnil, if_true, if_neg ht,
      length_append, length_singleton]
    omega

end

/-- **While a compaction of one round is in progress, the flusher or the compaction can move.**  The
flusher waits for the compaction only when it has a result for it, and then all has been sent. -/
theorem exists_works (hsane : s.Sane) (h : s₀.OneRound s) :
    ∃ op : LsmOp, op.works = true ∧ (s.apply op).isSome = true := by
  obtain ⟨c, hc, hround⟩ := h
  have howed := (hsane.compaction c hc).owed_eq
  cases hf : s.flusher with
  | idle =>
    cases hch : s.flushChan with
    | cons ft rest => exact ⟨.receive, rfl, by simp [apply, receive, hf, hch]⟩
    | nil =>
      by_cases ht : c.todo = []
      · have hr : c.results = c.numBuilds := by simpa [owed, hf, hch, Flusher.owes] using howed
        exact ⟨.compactFinish, rfl, by simp [apply, compactFinish, hc, ht, hr]⟩
      · exact ⟨.compactSend 0 [], rfl, by simp [apply, compactSend, hc, ht, hch, flushChanCapacity]⟩
  | building ft => exact ⟨.build, rfl, by simp [apply, build, hf]⟩
  | built ft =>
    refine ⟨.popImm, rfl, ?_⟩
    cases hcc : ft.isCompact with
    | true => simp [apply, popImm, hf, hcc]
    | false =>
      obtain ⟨imm, himm⟩ := hsane.head_imm (.inr hf) hcc
      simp [apply, popImm, hf, hcc, himm]
  | saving ft => exact ⟨.saved, rfl, by simp [apply, saved, hf]⟩
  | notifying =>
    have ht : c.todo = [] := by
      refine hround.resolve_right fun hzero => ?_
      simp only [owed, hf, Flusher.owes] at howed
      omega
    exact ⟨.notify, rfl, by simp [apply, notify, hf, hc, ht]⟩

/-- **The steps of the flusher and of a compaction of one round are bounded** by the work at the
start and the rotations meanwhile. -/
theorem work_run {ops : List LsmOp}
    (hone : ∀ now hs, (round now hs (mergeIterators s₀.tables).entries).2 = []) (h : s₀.OneRound s)
    (hops : ∀ op ∈ ops, op.meanwhile = true) (hrun : exec apply s ops = some s') :
    s₀.OneRound s' ∧ s'.work + ops.countP LsmOp.works ≤ s.work + 5 * ops.countP LsmOp.isRotate := by
  refine exec_trace (G := fun _ op => op.meanwhile = true) (I := fun p t => s₀.OneRound t ∧
    t.work + p.countP LsmOp.works ≤ s.work + 5 * p.countP LsmOp.isRotate) ?_ (p := [])
    ⟨h, le_rfl⟩ (Guarded.of_mem s fun op hop _ => hops op hop) hrun
  rintro p t op t' ⟨ht, hle⟩ hop hs
  have hwork := work_step ht hone hop (step_of_apply hs)
  refine ⟨ht.step hone hop (step_of_apply hs), ?_⟩
  rw [countP_append, countP_append, countP_singleton, countP_singleton]
  split_ifs at hwork ⊢ <;> omega

/-! ## Reads -/

/-- Replacing the tables by their survivors changes an answer only from a deletion to nothing. -/
theorem answers_survivors {M T : Set Pair} {k : Bytes} {v v' : ℕ} {vs vs' : ValueStruct}
    (huniq : ∀ x ∈ M ∪ T, ∀ y ∈ M ∪ T, x.1 = y.1 → x = y)
    (hdom : Dominates userKeyOf versionOf M T) (hv : ∀ x ∈ M ∪ T, x.1.ts ≤ v) (hle : v ≤ v')
    (hans : Answers (M ∪ T) k v vs) (hans' : Answers (M ∪ {x | Survivor T x}) k v' vs') :
    vs' = vs ∨ (vs.isDeleted = true ∧ vs' = {}) := by
  have hsub : ∀ x ∈ M ∪ {x | Survivor T x}, x ∈ M ∪ T := fun x hx =>
    hx.imp id fun h : Survivor T x => h.mem
  have heq : ∀ x ∈ M ∪ T, ∀ y ∈ M ∪ T, x.1.userKey = y.1.userKey → x.1.ts = y.1.ts → x = y :=
    fun x hx y hy hk ht => huniq x hx y hy (InternalKey.ext hk ht)
  rcases hans with ⟨x, hx, rfl⟩ | ⟨habs, rfl⟩
  · have hmax : ∀ y ∈ M ∪ T, y.1.userKey = k → y.1.ts ≤ x.1.ts := fun y hy hyk =>
      hx.max y hy hyk (hv y hy)
    have hxk : x.1.userKey = k := hx.key_eq
    by_cases hkept : x ∈ M ∪ {x | Survivor T x}
    · rcases hans' with ⟨y, hy, rfl⟩ | ⟨habs', rfl⟩
      · have hyx : y.1.ts ≤ x.1.ts := hmax y (hsub y hy.mem) hy.key_eq
        have hxy : x.1.ts ≤ y.1.ts := hy.max x hkept hxk ((hv x hx.mem).trans hle)
        have hyk : y.1.userKey = k := hy.key_eq
        rw [heq y (hsub y hy.mem) x hx.mem (hyk.trans hxk.symm) (le_antisymm hyx hxy)]
        exact .inl rfl
      · have hlt : v' < x.1.ts := habs' x hkept hxk
        exact absurd ((hv x hx.mem).trans hle) (not_le.mpr hlt)
    · -- `x` is the newest version in the tables, so it is a deletion.
      have hxT : x ∈ T := hx.mem.resolve_left fun hM => hkept (.inl hM)
      have hdel : x.2.isDeleted = true := by
        by_contra hlive
        refine hkept (.inr ⟨hxT, fun y hy hyx => hmax y (.inr hy) (hyx.trans hxk), ?_⟩)
        simpa using hlive
      refine .inr ⟨hdel, ?_⟩
      rcases hans' with ⟨y, hy, rfl⟩ | ⟨_, rfl⟩
      · exfalso
        have hyk : y.1.userKey = k := hy.key_eq
        have hkey : y.1.userKey = x.1.userKey := hyk.trans hxk.symm
        have hyx : y.1.ts ≤ x.1.ts := hmax y (hsub y hy.mem) hyk
        rcases hy.mem with hM | hS
        · rcases hdom x hxT y hM hkey with hge | ⟨z, hz, hzk, hzt⟩
          · exact hkept (heq y (.inl hM) x (.inr hxT) hkey (le_antisymm hyx hge) ▸ .inl hM)
          · exact hkept (heq z (.inl hz) x (.inr hxT) hzk hzt ▸ .inl hz)
        · have hge : x.1.ts ≤ y.1.ts := hS.max x hxT hkey.symm
          have hyx := heq y (.inr hS.mem) x (.inr hxT) hkey (le_antisymm hyx hge)
          exact absurd (hyx ▸ hS.live) (by simp [hdel])
      · rfl
  · rcases hans' with ⟨y, hy, _⟩ | ⟨_, rfl⟩
    · have hlt : v < y.1.ts := habs y (hsub y hy.mem) hy.key_eq
      exact absurd (hv y (hsub y hy.mem)) (not_le.mpr hlt)
    · exact .inl rfl

theorem Layered.dominates_unflushed (hl : s.Layered) (h : s.Sane) :
    Dominates userKeyOf versionOf s.unflushed (tablePairs s.tables) := by
  have hlayer : ∀ m ∈ s.memTables, (∀ z ∈ m.toSortedRun, z ∈ s.unflushed) →
      ∀ x ∈ tablePairs s.tables, ∀ y ∈ m.toSortedRun, userKeyOf y = userKeyOf x →
        versionOf x ≤ versionOf y ∨
          ∃ z ∈ s.unflushed, userKeyOf z = userKeyOf x ∧ versionOf z = versionOf x := by
    intro m hm hsub x hx y hy hk
    refine (hl.tables m hm x hx y hy hk).imp id ?_
    rintro ⟨z, hz, hzk⟩
    exact ⟨z, hsub z hz, hzk⟩
  rintro x hx y (hy | ⟨ft, hft, hc, hy⟩) hk
  · exact hlayer s.mt (.head _) (fun z hz => .inl hz) x hx y hy hk
  · refine hlayer ft.mt ?_ (fun z hz => .inr ⟨ft, hft, hc, hz⟩) x hx y hy hk
    exact .tail _ (mem_reverse.mpr (h.mem_imm_of_task hft hc))

end Lsm

/-- A deletion and nothing look the same to a caller of `Get`. -/
theorem get_eq_of_answer {env : Env} {mts mts' : List Skiplist} {n n' : ℕ}
    {tables tables' : List Table} {log : LogStream} {k : Bytes} {version : ℕ}
    (h : getValueStruct env mts' n' tables' k version = getValueStruct env mts n tables k version ∨
      ((getValueStruct env mts n tables k version).isDeleted = true ∧
        getValueStruct env mts' n' tables' k version = {})) :
    get env mts' n' tables' log k version = get env mts n tables log k version := by
  rcases h with h | ⟨hdel, h⟩
  · rw [get, h, get]
  · rw [get, h, get, hdel]
    simp

/-- The tables before and after the end of a compaction that began in `s₀`, for the tasks `built`
that were flushed meanwhile; those of the compaction have different user keys, and one version of
each. -/
structure Compacted (s₀ s s' : Lsm) (built : List FlushTask) : Prop where
  before : s.tables = s₀.tables ++ built.flatMap fun ft => ft.table.toList
  after : s'.tables = built.flatMap fun ft => ft.table.toList
  disjoint : (built.filter FlushTask.isCompact).Pairwise fun f g =>
    ∀ x ∈ f.mt.toSortedRun, ∀ y ∈ g.mt.toSortedRun, x.1.userKey ≠ y.1.userKey
  single : ∀ ft ∈ built, ft.isCompact = true → ∀ x ∈ ft.mt.toSortedRun, ∀ y ∈ ft.mt.toSortedRun,
    x.1.userKey = y.1.userKey → x = y

variable {s' : Lsm}

theorem Lsm.Outputs.compacted {s₀ s : Lsm} {c : Compaction} {built : List FlushTask}
    (h : s.Outputs c built) (g : s.CompactionSane c) (htbls : c.tbls = s₀.tables)
    (hafter : s'.tables = c.rest s) : Compacted s₀ s s' built := by
  have hstores := h.stores
  rw [storesOf_append] at hstores
  refine ⟨?_, hafter.trans h.rest_eq, ?_, fun ft hft hc => ?_⟩
  · obtain ⟨rest, hr⟩ := g.tables_eq
    rw [← h.rest_eq, Compaction.rest, hr, drop_left, htbls]
  · exact pairwise_map.mp (pairwise_append.mp hstores.disjoint).1
  · exact hstores.single ft.mt (mem_append_left _ (mem_map_of_mem (mem_filter.mpr ⟨hft, hc⟩)))

/-- **A major compaction is not seen by reads.**  The memtables must dominate the tables, internal
keys must determine their values, and versions lie above zero and not above the sequence number;
values in the tables do not expire and have the form in which they are stored.  Then no round
outgrows its store; if the survivors fit into one store, the compaction ends; and when it does, the
tables it began with are gone and every read is answered as before. -/
theorem compaction_preserves_reads (env : Env) (log : LogStream) (opening : List Table)
    (earlier ops : List LsmOp) (s₀ s : Lsm) (seqNumber : ℕ)
    (h₀ : exec Lsm.apply (Lsm.opened opening) earlier = some s₀)
    (hrun : exec Lsm.apply s₀ (.compactStart :: ops) = some s)
    (hops : ∀ op ∈ ops, op.meanwhile = true) (hlayered : s₀.Layered)
    (huniq : ∀ x ∈ s₀.visible, ∀ y ∈ s₀.visible, x.1 = y.1 → x = y)
    (hver : ∀ x ∈ s₀.visible, 0 < x.1.ts ∧ x.1.ts ≤ seqNumber)
    (htab : ∀ x ∈ tablePairs s₀.tables, x.2.expiresAt = 0 ∧ Stored x.2) :
    (∀ c, s.compaction = some c → ∀ now hs,
      (compactLoop true (2 * maxSkipList) now none Skiplist.new hs c.todo).1.memSize ≤
        2 * maxSkipList) ∧
    (Lsm.FitsOneStore s₀.tables → (∃ op : LsmOp, op.works = true ∧ (s.apply op).isSome = true) ∧
      ops.countP LsmOp.works ≤ s₀.work + 7 + 5 * ops.countP LsmOp.isRotate) ∧
    ∀ s', s.apply .compactFinish = some s' →
      (∃ built, Compacted s₀ s s' built) ∧
      ∀ k, k ≠ [] → ∀ n, seqNumber ≤ n →
        get env s'.memTables n s'.tables log k 0 =
          get env s₀.memTables seqNumber s₀.tables log k 0 := by
  -- The state before the compaction.
  have hinv : s₀.Sane ∧ s₀.BuiltSafe := by
    refine exec_invariant_of_step (I := fun s => s.Sane ∧ s.BuiltSafe) ?_
      ⟨sane_opened opening, by simp [Lsm.BuiltSafe, opened]⟩ h₀
    exact fun s op s' h hs => ⟨h.1.step (step_of_apply hs), h.2.step h.1 (step_of_apply hs)⟩
  obtain ⟨hsane, hbuilt⟩ := hinv
  have hvis := visible_eq_live hsane hbuilt
  rw [live_eq] at hvis
  have htabsub : ∀ x ∈ tablePairs s₀.tables, x ∈ s₀.visible := fun x hx => .inr hx
  -- The run up to `s`.
  obtain ⟨s₁, hstart, hrest⟩ := exec_cons_eq_some.mp hrun
  have hstart := step_of_apply hstart
  have hunder : s₀.Underway s := by
    refine exec_invariant (G := fun _ op => op.meanwhile = true) (I := s₀.Underway) ?_
      (underway_start hsane hbuilt hlayered
        (fun y hy z hz => huniq y (htabsub y hy) z (htabsub z hz)) hstart)
      (Guarded.of_mem s₁ fun op hop _ => hops op hop) hrest
    exact fun t op t' ht hop hs => ht.step (fun x hx => (htab x hx).1) hop (step_of_apply hs)
  obtain ⟨c, hc, hmid, built, hout⟩ := hunder.inProgress
  have g := hunder.sane.compaction c hc
  refine ⟨fun d hd now hs => ?_, fun hfit => ?_, fun s' hs' => ?_⟩
  · cases hd.symm.trans hc
    refine memSize_compactLoop_le (fun x hx => ?_) (by decide)
    exact (htab x (hmid.tbls_eq ▸ g.todo_mem x hx)).2
  · have hone := hfit.round_eq_nil htab
    have hround : s₀.OneRound s₁ ∧ s₁.work ≤ s₀.work + 7 := by
      cases hstart with
      | compactStart hn _ =>
        refine ⟨⟨_, rfl, .inr ⟨rfl, rfl⟩⟩, ?_⟩
        simp only [work, hn, Option.elim_some, Option.elim_none, Compaction.work]
        split_ifs <;> omega
    obtain ⟨hround', hle⟩ := work_run hone hround.1 hops hrest
    exact ⟨exists_works hunder.sane hround', by omega⟩
  · have hs' := step_of_apply hs'
    obtain ⟨htables, hvis'⟩ := hmid.visible_finish hunder.sane hunder.built hc hs'
    refine ⟨⟨built, hout.compacted g hmid.tbls_eq htables⟩, fun k hk n hn => ?_⟩
    have hlayered' : s'.Layered := hunder.layered.step hunder.sane hs' (by simp)
    have hpos' : ∀ x ∈ s'.visible, 0 < x.1.ts := by
      intro x hx
      rw [hvis'] at hx
      refine (hver x ?_).1
      rw [hvis]
      exact hx.imp id fun h : Survivor (tablePairs s₀.tables) x => h.mem
    have hans := hlayered.getValueStruct_answers env hk seqNumber 0 fun x hx => (hver x hx).1
    have hans' := hlayered'.getValueStruct_answers env hk n 0 hpos'
    rw [hvis] at hans huniq hver
    rw [hvis'] at hans'
    exact get_eq_of_answer (answers_survivors huniq (hlayered.dominates_unflushed hsane)
      (fun x hx => (hver x hx).2) hn hans hans')

/-! ## A compaction that ends -/

/-- Two versions of a key in two tables. -/
def twoVersions : List Table :=
  [.single ⟨[107], 5⟩ { value := some [97] } 5, .single ⟨[107], 6⟩ { value := some [98] } 6]

theorem mem_twoVersions {x : Pair} (hx : x ∈ tablePairs twoVersions) :
    x = (⟨[107], 5⟩, { value := some [97] }) ∨ x = (⟨[107], 6⟩, { value := some [98] }) := by
  obtain ⟨t, ht, hx⟩ := hx
  simp only [twoVersions, mem_cons, not_mem_nil, or_false] at ht
  rcases ht with rfl | rfl
  · exact .inl (Table.mem_single.mp hx)
  · exact .inr (Table.mem_single.mp hx)

/-- The compaction of two versions, with a memtable rotated meanwhile. -/
theorem compaction_preserves_reads_twoVersions : ∃ s s' : Lsm,
    exec Lsm.apply (Lsm.opened twoVersions) [.compactStart, .compactSend 0 [], .receive,
      .rotate {} 7, .build, .popImm, .saved, .notify] = some s ∧
    s.apply .compactFinish = some s' ∧ s'.tables.length = 1 ∧
    (∃ op : LsmOp, op.works = true ∧ (s.apply op).isSome = true) ∧
    get Env.plain s'.memTables 6 s'.tables ⟨[], ⟨1, []⟩⟩ [107] 0 =
      get Env.plain [Skiplist.new] 6 twoVersions ⟨[], ⟨1, []⟩⟩ [107] 0 := by
  obtain ⟨s, hs, s', hs', hlen⟩ : ∃ s ∈ exec apply (opened twoVersions) [.compactStart,
      .compactSend 0 [], .receive, .rotate {} 7, .build, .popImm, .saved, .notify],
      ∃ s' ∈ s.apply .compactFinish, s'.tables.length = 1 := by decide +kernel
  have hall := compaction_preserves_reads Env.plain ⟨[], ⟨1, []⟩⟩ twoVersions [] _ _ s 6 rfl hs
    (by simp [LsmOp.meanwhile]) (layered_opened _)
    (by
      rw [visible_opened]
      intro x hx y hy hxy
      rcases mem_twoVersions hx with rfl | rfl <;> rcases mem_twoVersions hy with rfl | rfl <;>
        simp at hxy ⊢)
    (by
      rw [visible_opened]
      intro x hx
      rcases mem_twoVersions hx with rfl | rfl <;> simp)
    (by
      intro x hx
      rcases mem_twoVersions hx with rfl | rfl <;> decide)
  have hfits : Lsm.FitsOneStore twoVersions := by
    unfold Lsm.FitsOneStore
    decide +kernel
  exact ⟨s, s', hs, hs', hlen, (hall.2.1 hfits).1, (hall.2.2 s' hs').2 [107] (by simp) 6 le_rfl⟩

/-! ## A compaction that does not end -/

/-- The keys and values of the survivors are more than what seventeen stores hold. -/
def TooLarge (ts : List Table) : Prop :=
  17 * (2 * maxSkipList) < ((survivors ts).map payload).sum

/-- A compaction of `ts` has sent at most seventeen stores and got no result. -/
structure Lsm.Overfull (ts : List Table) (s : Lsm) : Prop where
  sane : s.Sane
  inProgress : ∃ c, s.compaction = some c ∧ c.tbls = ts ∧ c.results = 0 ∧ c.todo ≠ [] ∧
    c.todo.Pairwise (fun a b => a.1 < b.1) ∧
    ((survivors ts).map payload).sum ≤
      ((keptOf none c.todo).map payload).sum + c.numBuilds * (2 * maxSkipList)

theorem Lsm.owed_le (s : Lsm) : s.owed ≤ 1 + s.flushChan.length := by
  have hcount : s.flushChan.countP FlushTask.isCompact ≤ s.flushChan.length := countP_le_length
  have howes : s.flusher.owes ≤ 1 := by
    cases s.flusher with
    | idle => exact Nat.zero_le 1
    | notifying => exact le_rfl
    | _ =>
      simp only [Flusher.owes]
      split_ifs <;> omega
  unfold owed
  omega

theorem Lsm.overfull_start (hlarge : TooLarge ts) (hs : LsmStep (opened ts) .compactStart s') :
    s'.Overfull ts := by
  refine ⟨(sane_opened ts).step hs, ?_⟩
  cases hs with
  | compactStart _ _ =>
    refine ⟨_, rfl, rfl, rfl, fun hnil => ?_, (mergeIterators ts).sorted, ?_⟩
    · have hnil : (mergeIterators ts).entries = [] := hnil
      simp [TooLarge, survivors, hnil] at hlarge
    · show _ ≤ ((keptOf none (mergeIterators ts).entries).map payload).sum + _
      rw [keptOf_mergeIterators]
      exact Nat.le_add_right _ _

/-- **A compaction that needs more than seventeen stores is stuck for good**: one is with the
flusher, which waits for the last to be sent, and sixteen fill the channel. -/
theorem Lsm.Overfull.step {s : Lsm} (h : s.Overfull ts) (hlarge : TooLarge ts)
    (htab : ∀ x ∈ tablePairs ts, x.2.expiresAt = 0 ∧ Stored x.2) (hs : LsmStep s op s') :
    s'.Overfull ts := by
  refine ⟨h.sane.step hs, ?_⟩
  obtain ⟨c, hc, htbls, hres, hne, hsorted, hsum⟩ := h.inProgress
  cases hs with
  | notify hf hd ht | compactFinish hd ht _ =>
    cases hd.symm.trans hc
    exact absurd ht hne
  | compactStart hn _ => cases hn.symm.trans hc
  | @compactSend d now hs hd ht room =>
    obtain rfl := Option.some.inj (hd.symm.trans hc)
    have g := h.sane.compaction d hc
    have hmem : ∀ x ∈ d.todo, x.2.expiresAt = 0 ∧ Stored x.2 := fun x hx =>
      htab x (htbls ▸ g.todo_mem x hx)
    have hfits := @memSize_compactLoop_le true (2 * maxSkipList) now d.todo none new hs
      (fun x hx => (hmem x hx).2) (by decide)
    obtain ⟨put, hkept, -, hround⟩ := @exists_put_of_compactLoop (2 * maxSkipList) now d.todo none
      new hs hsorted (fun x hx => ⟨(hmem x hx).1, decoded_eq_of_mem_tablePairs (g.todo_mem x hx)⟩)
      fun y hy => absurd hy (SortedRun.not_mem_empty y)
    rw [hkept, map_append, sum_append] at hsum
    have hsuffix := compactLoop_snd_suffix true (2 * maxSkipList) now d.todo none new hs
    have hbuilds : d.numBuilds ≤ 16 := by
      have howed := g.owed_eq
      have hle := s.owed_le
      rw [flushChanCapacity] at room
      omega
    generalize compactLoop true (2 * maxSkipList) now none new hs d.todo = r at *
    have hsum' : ((survivors ts).map payload).sum ≤
        ((keptOf none r.2).map payload).sum + (d.numBuilds + 1) * (2 * maxSkipList) := by
      rw [Nat.succ_mul]
      omega
    refine ⟨_, rfl, htbls, hres, fun hnil => ?_, hsorted.sublist hsuffix.sublist, hsum'⟩
    have hnil : r.2 = [] := hnil
    rw [hnil] at hsum'
    have hle : (d.numBuilds + 1) * (2 * maxSkipList) ≤ 17 * (2 * maxSkipList) :=
      Nat.mul_le_mul_right _ (by omega)
    have hzero : ((keptOf none []).map payload).sum = 0 := rfl
    unfold TooLarge at hlarge
    omega
  | _ => exact ⟨c, hc, htbls, hres, hne, hsorted, hsum⟩

/-- The pair of the `i`-th of many tables: a key of `i + 1` bytes and an empty value. -/
def manyPair (i : ℕ) : Pair := (⟨List.replicate (i + 1) 0, i + 1⟩, { value := some [] })

/-- Nine thousand small tables, forty megabytes together. -/
def manyTables : List Table :=
  (List.range 9000).map fun i => .single (manyPair i).1 (manyPair i).2 (i + 1)

theorem mem_manyTables {x : Pair} : x ∈ tablePairs manyTables ↔ ∃ i < 9000, x = manyPair i := by
  constructor
  · rintro ⟨t, ht, hx⟩
    obtain ⟨i, hi, rfl⟩ := mem_map.mp ht
    exact ⟨i, mem_range.mp hi, Table.mem_single.mp hx⟩
  · rintro ⟨i, hi, rfl⟩
    exact ⟨_, mem_map_of_mem (mem_range.mpr hi), Table.mem_single.mpr rfl⟩

theorem manyPair_eq_of_userKey {i j : ℕ} (h : (manyPair i).1.userKey = (manyPair j).1.userKey) :
    i = j := by
  have hlen := congrArg length h
  simpa [manyPair] using hlen

theorem manyTables_uniq : ∀ x ∈ tablePairs manyTables, ∀ y ∈ tablePairs manyTables,
    x.1 = y.1 → x = y := by
  intro x hx y hy hxy
  obtain ⟨i, _, rfl⟩ := mem_manyTables.mp hx
  obtain ⟨j, _, rfl⟩ := mem_manyTables.mp hy
  rw [manyPair_eq_of_userKey (congrArg userKey hxy)]

theorem manyPair_mem_survivors {i : ℕ} (hi : i < 9000) : manyPair i ∈ survivors manyTables := by
  rw [mem_survivors, next_mergeIterators_iff manyTables_uniq]
  refine ⟨mem_manyTables.mpr ⟨i, hi, rfl⟩, fun y hy hyk => ?_, by simp [manyPair,
    ValueStruct.isDeleted]⟩
  obtain ⟨j, _, rfl⟩ := mem_manyTables.mp hy
  rw [manyPair_eq_of_userKey hyk]

theorem payload_manyPair (i : ℕ) : payload (manyPair i) = i + 12 := by
  simp only [payload, manyPair, len, length_replicate, ValueStruct.encodedSize,
    ValueStruct.valueLen, Option.getD_some, length_nil]
  have hvar : sizeVarint 0 = 1 := by decide
  omega

theorem manyTables_tooLarge : TooLarge manyTables := by
  have hnodup : ((range 9000).map manyPair).Nodup := by
    refine List.Nodup.map (fun i j hij => ?_) nodup_range
    exact manyPair_eq_of_userKey (congrArg (fun x : Pair => x.1.userKey) hij)
  have hsub : (range 9000).map manyPair ⊆ survivors manyTables := by
    intro x hx
    obtain ⟨i, hi, rfl⟩ := mem_map.mp hx
    exact manyPair_mem_survivors (mem_range.mp hi)
  obtain ⟨l, hperm, hl⟩ := hnodup.subperm hsub
  have hle : (l.map payload).sum ≤ ((survivors manyTables).map payload).sum :=
    (hl.map payload).sum_le_sum fun _ _ => Nat.zero_le _
  have hsum : (l.map payload).sum = ((range 9000).map fun i => i + 12).sum := by
    rw [(hperm.map payload).sum_eq, map_map]
    exact congrArg sum (map_congr_left fun i _ => payload_manyPair i)
  have hval : 17 * (2 * maxSkipList) < ((range 9000).map fun i => i + 12).sum := by
    decide +kernel
  rw [← hsum] at hval
  exact hval.trans_le hle

/-- **A compaction of tables with forty megabytes of live pairs never ends**, although every version
is at most the sequence number 9000, nothing expires, and internal keys determine the values. -/
theorem compaction_never_ends :
    (∀ x ∈ tablePairs manyTables, x.1.ts ≤ 9000 ∧ x.2.expiresAt = 0 ∧ Stored x.2) ∧
    (∀ x ∈ tablePairs manyTables, ∀ y ∈ tablePairs manyTables, x.1 = y.1 → x = y) ∧
    ((Lsm.opened manyTables).apply .compactStart).isSome = true ∧
    ∀ ops s, exec Lsm.apply (Lsm.opened manyTables) (.compactStart :: ops) = some s →
      s.compaction.isSome = true := by
  have htab : ∀ x ∈ tablePairs manyTables, x.2.expiresAt = 0 ∧ Stored x.2 := by
    intro x hx
    obtain ⟨i, _, rfl⟩ := mem_manyTables.mp hx
    exact ⟨rfl, .inl (Nat.zero_le _)⟩
  refine ⟨fun x hx => ⟨?_, htab x hx⟩, manyTables_uniq, ?_, fun ops s hrun => ?_⟩
  · obtain ⟨i, hi, rfl⟩ := mem_manyTables.mp hx
    exact hi
  · have hlen : manyTables.length = 9000 := by rw [manyTables, length_map, length_range]
    simp [apply, compactStart, opened, hlen]
  · obtain ⟨s₁, hstart, hrest⟩ := exec_cons_eq_some.mp hrun
    have hfull : s.Overfull manyTables := by
      refine exec_invariant_of_step (I := Lsm.Overfull manyTables) ?_
        (overfull_start manyTables_tooLarge (step_of_apply hstart)) hrest
      exact fun t op t' ht hs => ht.step manyTables_tooLarge htab (step_of_apply hs)
    obtain ⟨c, hc, _⟩ := hfull.inProgress
    rw [hc]
    rfl

end Autumn
