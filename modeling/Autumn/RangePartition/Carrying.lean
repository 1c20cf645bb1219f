import Autumn.RangePartition.StoreSize

/-!
# The survivors of a compaction in progress

At any time each survivor of the tables being compacted is in one of three places: it is still to
come from the merge iterator, in the store of a task that waits to be flushed, or in a table that
has joined the list behind those being compacted.  Other flushes do not touch this.
-/

namespace Autumn

open Lib Y List Skiplist

/-- The tables that have joined the list since the compaction began. -/
def Compaction.rest (c : Compaction) (s : Lsm) : List Table := s.tables.drop c.tbls.length

namespace Lsm

/-- The survivors of the pairs `D` that the merge iterator delivers are still to come, in a pending
task, or in a table that has joined the list. -/
structure Carrying (D : Set Pair) (s : Lsm) (c : Compaction) : Prop where
  sorted : c.todo.Pairwise fun a b => a.1 < b.1
  todo_survivor : ∀ x, Next none c.todo x → Survivor D x
  task_survivor : ∀ ft ∈ s.pendingTasks, ft.isCompact = true → ∀ x ∈ ft.mt.toSortedRun,
    Survivor D x
  kept : ∀ x, Survivor D x → Next none c.todo x ∨
    (∃ ft ∈ s.pendingTasks, ft.isCompact = true ∧ x ∈ ft.mt.toSortedRun) ∨
    x ∈ tablePairs (c.rest s)

variable {s s' : Lsm} {c : Compaction} {D : Set Pair}

/-- Operations that neither add a table nor touch the tasks of the compaction. -/
theorem Carrying.of_same {c' : Compaction} (h : Carrying D s c) (htbls : c'.tbls = c.tbls)
    (htodo : c'.todo = c.todo) (htables : s'.tables = s.tables)
    (htasks : ∀ ft, ft.isCompact = true → (ft ∈ s'.pendingTasks ↔ ft ∈ s.pendingTasks)) :
    Carrying D s' c' where
  sorted := htodo ▸ h.sorted
  todo_survivor := htodo ▸ h.todo_survivor
  task_survivor := fun ft hft hc => h.task_survivor ft ((htasks ft hc).mp hft) hc
  kept := by
    rw [htodo, Compaction.rest, htables, htbls]
    refine fun x hx => (h.kept x hx).imp id (Or.imp (fun hft => ?_) id)
    obtain ⟨ft, hft, hc, hxt⟩ := hft
    exact ⟨ft, (htasks ft hc).mpr hft, hc, hxt⟩

theorem rest_append (h : ∃ rest, s.tables = c.tbls ++ rest) {more : List Table}
    (htables : s'.tables = s.tables ++ more) : c.rest s' = c.rest s ++ more := by
  obtain ⟨rest, hr⟩ := h
  rw [Compaction.rest, Compaction.rest, htables, hr, append_assoc, drop_left, drop_left]

/-- The merge of tables in which a version determines the pair has the same survivors. -/
theorem next_mergeIterators_iff {ts : List Table} {x : Pair}
    (huniq : ∀ y ∈ tablePairs ts, ∀ z ∈ tablePairs ts, y.1 = z.1 → y = z) :
    Next none (mergeIterators ts).entries x ↔ Survivor (tablePairs ts) x := by
  have hmem : ∀ y, y ∈ (mergeIterators ts).entries ↔ y ∈ tablePairs ts := by
    intro y
    constructor
    · exact fun hy => exists_mem_of_mem_mergeIterators hy
    · intro hy
      obtain ⟨t, ht, hyt⟩ := hy
      obtain ⟨z, hz, hzy⟩ := exists_key_mem_mergeIterators ht hyt
      have hz' : z ∈ tablePairs ts := exists_mem_of_mem_mergeIterators hz
      exact huniq z hz' y ⟨t, ht, hyt⟩ hzy ▸ hz
  constructor
  · rintro ⟨⟨hx, hmax, hlive⟩, _⟩
    exact ⟨(hmem x).mp hx, fun y hy => hmax y ((hmem y).mpr hy), hlive⟩
  · rintro ⟨hx, hmax, hlive⟩
    exact ⟨⟨(hmem x).mpr hx, fun y hy => hmax y ((hmem y).mp hy), hlive⟩, by simp⟩

theorem carrying_start (h : s.Sane) (hc : s.compaction = none)
    (hsorted : c.todo.Pairwise fun a b => a.1 < b.1) (hD : ∀ x, Next none c.todo x ↔ Survivor D x) :
    Carrying D { s with compaction := some c } c where
  sorted := hsorted
  todo_survivor := fun x => (hD x).mp
  task_survivor := by
    intro ft hft hcc
    obtain ⟨c, hc'⟩ := h.exists_compaction hft hcc
    cases hc.symm.trans hc'
  kept := fun x hx => .inl ((hD x).mpr hx)

theorem Carrying.send {s : Lsm} {c : Compaction} (h : Carrying D s c) (g : s.CompactionSane c)
    (hexp : ∀ x ∈ tablePairs c.tbls, x.2.expiresAt = 0) (now : ℕ) (hs : List ℕ) {s' : Lsm}
    (htables : s'.tables = s.tables) (htasks : s'.pendingTasks = s.pendingTasks ++ [⟨(compactLoop
      true (2 * maxSkipList) now none new hs c.todo).1, c.head, c.maxSeq, true⟩]) :
    Carrying D s' { c with
      todo := (compactLoop true (2 * maxSkipList) now none new hs c.todo).2
      numBuilds := c.numBuilds + 1 } := by
  have hround := compactLoop_spec (2 * maxSkipList) now c.todo none new hs h.sorted
    (fun x hx => ⟨hexp x (g.todo_mem x hx), decoded_eq_of_mem_tablePairs (g.todo_mem x hx)⟩)
    (by simp [Behind]) (fun y hy => absurd hy (SortedRun.not_mem_empty y))
  have hsuffix := compactLoop_snd_suffix true (2 * maxSkipList) now c.todo none new hs
  generalize compactLoop true (2 * maxSkipList) now none new hs c.todo = r at *
  have hputs : ∀ x ∈ r.1.toSortedRun, Survivor D x := by
    intro x hx
    rcases hround.puts x hx with hx | hx
    · cases hx
    · exact h.todo_survivor x hx
  refine ⟨h.sorted.sublist hsuffix.sublist, fun x hx => h.todo_survivor x (hround.left x hx), ?_,
    fun x hx => ?_⟩
  · rw [htasks]
    exact forall_mem_concat h.task_survivor fun _ => hputs
  · rw [htasks, Compaction.rest, htables]
    rcases h.kept x hx with hx | ⟨ft, hft, hc, hxt⟩ | hx
    · rcases hround.put_or_left x hx with hx | hx
      · exact .inr (.inl ⟨_, mem_concat_self, rfl, hx⟩)
      · exact .inl hx
    · exact .inr (.inl ⟨ft, mem_append_left _ hft, hc, hxt⟩)
    · exact .inr (.inr hx)

theorem Carrying.build {s s' : Lsm} {c : Compaction} (h : Carrying D s c)
    (g : s.CompactionSane c) {ft : FlushTask} (htasks : s.pendingTasks = ft :: s'.pendingTasks)
    (htables : s'.tables = s.tables ++ ft.table.toList) : Carrying D s' c := by
  have hmem : ∀ f ∈ s'.pendingTasks, f ∈ s.pendingTasks := fun f hf =>
    htasks ▸ .tail _ hf
  refine ⟨h.sorted, h.todo_survivor, fun f hf => h.task_survivor f (hmem f hf), fun x hx => ?_⟩
  rw [rest_append g.tables_eq htables, tablePairs_append]
  rcases h.kept x hx with hx | ⟨f, hf, hc, hxf⟩ | hx
  · exact .inl hx
  · rw [htasks, mem_cons] at hf
    rcases hf with rfl | hf
    · exact .inr (.inr (.inr (mem_tablePairs_task.mpr hxf)))
    · exact .inr (.inl ⟨f, hf, hc, hxf⟩)
  · exact .inr (.inr (.inl hx))

theorem CompactionSane.replaceTables_eq (g : s.CompactionSane c) :
    replaceTables c.tbls s.tables = c.rest s := by
  obtain ⟨rest, hrest⟩ := g.tables_eq
  rw [Compaction.rest, hrest, replaceTables_append, drop_left]

theorem CompactionSane.tablePairs_eq (g : s.CompactionSane c) :
    tablePairs s.tables = tablePairs c.tbls ∪ tablePairs (c.rest s) := by
  obtain ⟨rest, hrest⟩ := g.tables_eq
  rw [Compaction.rest, hrest, drop_left, tablePairs_append]

theorem CompactionSane.tablePairs_subset (g : s.CompactionSane c) :
    tablePairs c.tbls ⊆ tablePairs s.tables :=
  g.tablePairs_eq ▸ Set.subset_union_left

/-- Every operation keeps the account of the survivors; `Q` says which pairs are delivered for the
tables of a compaction. -/
theorem Carrying.step {op : LsmOp} {Q : List Table → Set Pair → Prop} (hs : LsmStep s op s')
    (hsane : s.Sane) (h : ∀ c, s.compaction = some c → ∃ D, Q c.tbls D ∧ Carrying D s c)
    (hstart : ∃ D, Q s.tables D ∧ ∀ x, Next none (mergeIterators s.tables).entries x ↔ Survivor D x)
    (hexp : ∀ x ∈ tablePairs s.tables, x.2.expiresAt = 0) :
    ∀ c, s'.compaction = some c → ∃ D, Q c.tbls D ∧ Carrying D s' c := by
  intro c' hc'
  have hsame := mem_pendingTasks_iff_of_step hs
  cases hs with
  | @build ft hf =>
    obtain ⟨D, hD, hcarry⟩ := h c' hc'
    exact ⟨D, hD, hcarry.build (hsane.compaction c' hc')
      (by simp [pendingTasks, hf, Flusher.unbuilt]) rfl⟩
  | @notify c hf hc ht =>
    cases hc'
    obtain ⟨D, hD, hcarry⟩ := h c hc
    exact ⟨D, hD, hcarry.of_same rfl rfl rfl (hsame (by simp) (by simp))⟩
  | compactStart hc hlen =>
    cases hc'
    obtain ⟨D, hD, hnext⟩ := hstart
    exact ⟨D, hD, carrying_start hsane hc (mergeIterators s.tables).sorted hnext⟩
  | @compactSend c now hs hc ht room =>
    cases hc'
    obtain ⟨D, hD, hcarry⟩ := h c hc
    have g := hsane.compaction c hc
    exact ⟨D, hD, hcarry.send g (fun x hx => hexp x (g.tablePairs_subset hx)) now hs rfl
      (append_assoc _ _ _).symm⟩
  | compactFinish hc ht hr => cases hc'
  | _ =>
    obtain ⟨D, hD, hcarry⟩ := h c' hc'
    exact ⟨D, hD, hcarry.of_same rfl rfl rfl (hsame (by simp) (by simp))⟩

/-! ## The end of a compaction -/

theorem Sane.not_isCompact (h : s.Sane) (hc : s.compaction = some c)
    (hr : c.results = c.numBuilds) :
    ∀ ft ∈ s.pendingTasks, ft.isCompact ≠ true := by
  have ho : s.owed = 0 := by
    have := (h.compaction c hc).owed_eq
    omega
  intro ft hft hcc
  have hsane : ({ s with compaction := none } : Lsm).Sane := ⟨h.imm_eq, fun _ => ho, by simp⟩
  obtain ⟨c', hc'⟩ := hsane.exists_compaction hft hcc
  cases hc'

/-- When a compaction ends, its survivors are in the tables that have joined the list. -/
theorem Carrying.mem_rest (h : Carrying D s c) (hsane : s.Sane) (hc : s.compaction = some c)
    (ht : c.todo = []) (hr : c.results = c.numBuilds) {x : Pair} (hx : Survivor D x) :
    x ∈ tablePairs (c.rest s) := by
  rcases h.kept x hx with hnext | ⟨ft, hft, hcc, _⟩ | hxr
  · rw [ht] at hnext
    cases hnext.1.mem
  · exact absurd hcc (hsane.not_isCompact hc hr ft hft)
  · exact hxr

end Lsm

end Autumn
