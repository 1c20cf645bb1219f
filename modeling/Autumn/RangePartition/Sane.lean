import Autumn.RangePartition.Lsm

/-!
# How flushes, compactions and reads hang together

Three facts about the part of a partition that holds pairs, each kept by every operation.

* `Lsm.Sane`: the flush tasks that are not yet done hold the memtables of `rp.imm` in order (the
  assertion `ft.mt == rp.imm[0]` of the flusher); the tables begin with the tables being compacted;
  a compaction waits for exactly the tasks it has sent; and what it moves comes from its tables.
* `Lsm.mem_visible_of_step`: only a put adds to the pairs that a read can see.
* `Lsm.Layered`: every memtable dominates the older ones and the tables, as soon as no pair is put
  whose version lies below one of the same user key in `rp.imm` or `rp.tables`; then a read finds
  the newest version (`Lsm.Layered.getValueStruct_answers`).
-/

namespace Autumn

open Lib Y List SortedRun Skiplist

/-! ## The loop of a compaction -/

theorem mem_compactLoop_fst {major : Bool} {capacity now : ℕ} {y : Pair} {todo : List Pair}
    {skipKey : Option InternalKey} {ms : Skiplist} {hs : List ℕ}
    (hdec : ∀ x ∈ todo, x.2.decoded = x.2)
    (h : y ∈ (compactLoop major capacity now skipKey ms hs todo).1.toSortedRun) :
    y ∈ ms.toSortedRun ∨ y ∈ todo := by
  fun_induction compactLoop major capacity now skipKey ms hs todo with
  | case1 | case4 => exact .inl h
  | case2 _ _ _ x xs _ ih | case3 _ _ _ x xs _ _ ih =>
    exact (ih (forall_mem_cons.mp hdec).2 h).imp id (.tail _)
  | case5 _ ms hs x xs _ _ _ ih =>
    rw [forall_mem_cons] at hdec
    rcases ih hdec.2 h with h | h
    · rcases mem_put.mp h with rfl | ⟨h, _⟩
      · rw [hdec.1]
        exact .inr (.head _)
      · exact .inl h
    · exact .inr (.tail _ h)

theorem compactLoop_snd_suffix (major : Bool) (capacity now : ℕ) (todo : List Pair)
    (skipKey : Option InternalKey) (ms : Skiplist) (hs : List ℕ) :
    (compactLoop major capacity now skipKey ms hs todo).2 <:+ todo := by
  fun_induction compactLoop major capacity now skipKey ms hs todo with
  | case1 | case4 => exact suffix_rfl
  | case2 _ _ _ x xs _ ih | case3 _ _ _ x xs _ _ ih | case5 _ _ _ x xs _ _ _ ih =>
    exact ih.trans (suffix_cons x xs)

theorem decoded_eq_of_mem_tablePairs {ts : List Table} {x : Pair} (hx : x ∈ tablePairs ts) :
    x.2.decoded = x.2 := by
  obtain ⟨t, _, hxt⟩ := hx
  exact t.decoded_eq x hxt

theorem tablePairs_append (ts us : List Table) :
    tablePairs (ts ++ us) = tablePairs ts ∪ tablePairs us := by
  ext x
  simp only [mem_tablePairs, mem_append, Set.mem_union, or_and_right, exists_or]

theorem mem_tablePairs_task {ft : FlushTask} {x : Pair} :
    x ∈ tablePairs ft.table.toList ↔ x ∈ ft.mt.toSortedRun := by
  rw [mem_tablePairs]
  cases ht : ft.table with
  | none =>
    constructor
    · rintro ⟨t, h, _⟩
      simp at h
    · exact fun hx => absurd hx (toTable_eq_none ht x)
  | some t =>
    simp only [Option.toList_some, mem_singleton, exists_eq_left]
    rw [(toTable_eq_some ht).1]

/-! ## The shape of the flush queue -/

/-- The task whose table is not built yet, if the flusher holds one. -/
def Flusher.unbuilt : Flusher → List FlushTask
  | .building ft => [ft]
  | _ => []

/-- The task whose memtable is still in `rp.imm`, if the flusher holds one. -/
def Flusher.inImm : Flusher → List FlushTask
  | .building ft => [ft]
  | .built ft => [ft]
  | _ => []

/-- The number of results the flusher still owes for the task it holds. -/
def Flusher.owes : Flusher → ℕ
  | .idle => 0
  | .building ft | .built ft | .saving ft => if ft.isCompact then 1 else 0
  | .notifying => 1

namespace Lsm

/-- The tasks whose tables are not built yet, in order. -/
def pendingTasks (s : Lsm) : List FlushTask := s.flusher.unbuilt ++ s.flushChan

/-- The memtables the flusher will take out of `rp.imm`, in order. -/
def immTasks (s : Lsm) : List Skiplist :=
  ((s.flusher.inImm ++ s.flushChan).filter fun ft => !ft.isCompact).map FlushTask.mt

/-- The results the flusher owes to a compaction. -/
def owed (s : Lsm) : ℕ := s.flusher.owes + s.flushChan.countP FlushTask.isCompact

/-- What a compaction in progress may rely on. -/
structure CompactionSane (s : Lsm) (c : Compaction) : Prop where
  owed_eq : s.owed + c.results = c.numBuilds
  tables_eq : ∃ rest, s.tables = c.tbls ++ rest
  head_eq : (c.head, c.maxSeq) = compactHead c.tbls
  todo_mem : ∀ x ∈ c.todo, x ∈ tablePairs c.tbls
  task_mem : ∀ ft ∈ s.pendingTasks, ft.isCompact = true →
    ∀ x ∈ ft.mt.toSortedRun, x ∈ tablePairs c.tbls
  task_head : ∀ ft ∈ s.pendingTasks, ft.isCompact = true →
    ft.vptr = c.head ∧ ft.seqNum = c.maxSeq

/-- The flush queue, `rp.imm`, the tables and the compaction fit together. -/
structure Sane (s : Lsm) : Prop where
  imm_eq : s.immTasks = s.imm
  owed_eq_zero : s.compaction = none → s.owed = 0
  compaction : ∀ c, s.compaction = some c → s.CompactionSane c

theorem sane_opened (tables : List Table) : (opened tables).Sane where
  imm_eq := rfl
  owed_eq_zero := fun _ => rfl
  compaction := by simp [opened]

variable {s s' : Lsm} {ft : FlushTask} {x : Pair} {S : Set Pair} {op : LsmOp}

theorem Sane.head_imm (h : s.Sane) (hf : s.flusher = .building ft ∨ s.flusher = .built ft)
    (hc : ft.isCompact = false) : ∃ imm, s.imm = ft.mt :: imm := by
  refine ⟨(s.flushChan.filter fun ft => !ft.isCompact).map FlushTask.mt, ?_⟩
  rw [← h.imm_eq]
  rcases hf with hf | hf <;> simp [immTasks, hf, Flusher.inImm, hc]

theorem Sane.exists_compaction (h : s.Sane) (hft : ft ∈ s.pendingTasks) (hc : ft.isCompact = true) :
    ∃ c, s.compaction = some c := by
  cases hcomp : s.compaction with
  | some c => exact ⟨c, rfl⟩
  | none =>
    exfalso
    have ho := h.owed_eq_zero hcomp
    rw [owed, Nat.add_eq_zero_iff, countP_eq_zero] at ho
    rcases mem_append.mp hft with hft | hft
    · have hown := ho.1
      cases hf : s.flusher with
      | building f =>
        rw [hf, Flusher.unbuilt, mem_singleton] at hft
        simp [hf, Flusher.owes, ← hft, hc] at hown
      | _ => simp [hf, Flusher.unbuilt] at hft
    · exact absurd hc (ho.2 ft hft)

/-- What an operation does to the pending tasks: a rotation and a compaction add one at the end,
and only the flusher takes one off, the first, when its table is built. -/
theorem pendingTasks_of_step (hs : LsmStep s op s') :
    (s'.pendingTasks = s.pendingTasks ∧ op ≠ .build) ∨
    (∃ vptr seqNum, op = .rotate vptr seqNum ∧
      s'.pendingTasks = s.pendingTasks ++ [⟨s.mt, vptr, seqNum, false⟩]) ∨
    (∃ c now hs, s.compaction = some c ∧ op = .compactSend now hs ∧ s'.pendingTasks =
      s.pendingTasks ++ [⟨(compactLoop true (2 * maxSkipList) now none new hs c.todo).1,
        c.head, c.maxSeq, true⟩]) ∨
    ∃ ft, op = .build ∧ s.pendingTasks = ft :: s'.pendingTasks ∧
      s'.tables = s.tables ++ ft.table.toList := by
  cases hs with
  | @rotate vptr seqNum room =>
    exact .inr (.inl ⟨vptr, seqNum, rfl, (append_assoc _ _ _).symm⟩)
  | receive hf hc => exact .inl ⟨by simp [pendingTasks, hf, hc, Flusher.unbuilt], by simp⟩
  | @build ft hf =>
    exact .inr (.inr (.inr ⟨ft, rfl, by simp [pendingTasks, hf, Flusher.unbuilt], rfl⟩))
  | popCompact hf hc | popImm hf hc hi | notify hf hc ht =>
    exact .inl ⟨by simp [pendingTasks, hf, Flusher.unbuilt], by simp⟩
  | @saved ft hf =>
    refine .inl ⟨?_, by simp⟩
    cases hc : ft.isCompact <;> simp [pendingTasks, hf, Flusher.unbuilt]
  | @compactSend c now hs hc ht room =>
    exact .inr (.inr (.inl ⟨c, now, hs, hc, rfl, (append_assoc _ _ _).symm⟩))
  | _ => exact .inl ⟨rfl, by simp⟩

theorem mem_pendingTasks_of_step (hs : LsmStep s op s') (hft : ft ∈ s'.pendingTasks) :
    ft ∈ s.pendingTasks ∨
    (∃ vptr seqNum, op = .rotate vptr seqNum ∧ ft = ⟨s.mt, vptr, seqNum, false⟩) ∨
    ∃ c now hs, s.compaction = some c ∧ op = .compactSend now hs ∧
      ft = ⟨(compactLoop true (2 * maxSkipList) now none new hs c.todo).1,
        c.head, c.maxSeq, true⟩ := by
  rcases pendingTasks_of_step hs with
    ⟨hp, _⟩ | ⟨vptr, seqNum, hop, hp⟩ | ⟨c, now, hs, hc, hop, hp⟩ | ⟨f, _, hp, _⟩
  · exact .inl (hp ▸ hft)
  · rw [hp, mem_append, mem_singleton] at hft
    exact hft.imp id fun h => .inl ⟨vptr, seqNum, hop, h⟩
  · rw [hp, mem_append, mem_singleton] at hft
    exact hft.imp id fun h => .inr ⟨c, now, hs, hc, hop, h⟩
  · exact .inl (hp ▸ .tail _ hft)

/-- Only a flush and a round of the compaction touch the tasks of a compaction. -/
theorem mem_pendingTasks_iff_of_step (hs : LsmStep s op s') (hb : op ≠ .build)
    (hsend : ∀ now hs, op ≠ .compactSend now hs) (ft : FlushTask) (hc : ft.isCompact = true) :
    ft ∈ s'.pendingTasks ↔ ft ∈ s.pendingTasks := by
  rcases pendingTasks_of_step hs with
    ⟨heq, _⟩ | ⟨_, _, _, heq⟩ | ⟨_, now, hs, _, hop, _⟩ | ⟨_, hop, _⟩
  · rw [heq]
  · rw [heq, mem_append, mem_singleton, or_iff_left]
    rintro rfl
    cases hc
  · exact absurd hop (hsend now hs)
  · exact absurd hop hb

theorem CompactionSane.mem_tables_iff {c : Compaction} (g : s.CompactionSane c) {t : Table} :
    t ∈ c.tbls ∨ t ∈ replaceTables c.tbls s.tables ↔ t ∈ s.tables := by
  obtain ⟨rest, hr⟩ := g.tables_eq
  rw [hr, replaceTables_append, mem_append]

theorem Sane.mem_tablePairs_of_task (h : s.Sane) (hft : ft ∈ s.pendingTasks)
    (hc : ft.isCompact = true) (hx : x ∈ ft.mt.toSortedRun) : x ∈ tablePairs s.tables := by
  obtain ⟨c, hcomp⟩ := h.exists_compaction hft hc
  obtain ⟨t, ht, hxt⟩ := (h.compaction c hcomp).task_mem ft hft hc x hx
  exact ⟨t, (h.compaction c hcomp).mem_tables_iff.mp (.inl ht), hxt⟩

theorem CompactionSane.of_same {c : Compaction} (g : s.CompactionSane c) (ho : s'.owed = s.owed)
    (ht : ∃ more, s'.tables = s.tables ++ more)
    (hp : ∀ ft ∈ s'.pendingTasks, ft.isCompact = true → ft ∈ s.pendingTasks) :
    s'.CompactionSane c :=
  { g with
    owed_eq := ho ▸ g.owed_eq
    tables_eq := by
      obtain ⟨rest, hr⟩ := g.tables_eq
      obtain ⟨more, hm⟩ := ht
      exact ⟨rest ++ more, by rw [hm, hr, append_assoc]⟩
    task_mem := fun ft hft hc => g.task_mem ft (hp ft hft hc) hc
    task_head := fun ft hft hc => g.task_head ft (hp ft hft hc) hc }

/-- An operation outside a compaction: it may add tables and finish tasks, but it neither adds nor
finishes one of the compaction. -/
theorem Sane.of_same (h : s.Sane) (hcomp : s'.compaction = s.compaction)
    (himm : s'.immTasks = s'.imm) (ho : s'.owed = s.owed)
    (ht : ∃ more, s'.tables = s.tables ++ more)
    (hp : ∀ ft ∈ s'.pendingTasks, ft.isCompact = true → ft ∈ s.pendingTasks) : s'.Sane where
  imm_eq := himm
  owed_eq_zero := fun hn => ho.trans (h.owed_eq_zero (hcomp ▸ hn))
  compaction := fun c hc => (h.compaction c (hcomp ▸ hc)).of_same ho ht hp

theorem Sane.step (h : s.Sane) (hs : LsmStep s op s') : s'.Sane := by
  have hp : (∀ now hs, op ≠ .compactSend now hs) →
      ∀ ft ∈ s'.pendingTasks, ft.isCompact = true → ft ∈ s.pendingTasks := by
    intro hop ft hft hc
    rcases mem_pendingTasks_of_step hs hft with hft | ⟨_, _, _, rfl⟩ | ⟨_, now, hs', _, heq, _⟩
    · exact hft
    · cases hc
    · exact absurd heq (hop now hs')
  cases hs with
  | put room => exact h.of_same rfl h.imm_eq rfl ⟨[], by simp⟩ (hp (by simp))
  | rotate room =>
    refine h.of_same rfl ?_ ?_ ⟨[], by simp⟩ (hp (by simp))
    · rw [immTasks, ← append_assoc, filter_append, map_append]
      exact congrArg (· ++ [s.mt]) h.imm_eq
    · simp [owed, countP_append]
  | @receive ft rest hf hc =>
    refine h.of_same rfl ?_ ?_ ⟨[], by simp⟩ (hp (by simp))
    · simpa [immTasks, hf, hc, Flusher.inImm] using h.imm_eq
    · simp only [owed, hf, hc, countP_cons, Flusher.owes]
      omega
  | @build ft hf =>
    refine h.of_same rfl ?_ ?_ ⟨_, rfl⟩ (hp (by simp))
    · simpa [immTasks, hf, Flusher.inImm] using h.imm_eq
    · simp [owed, hf, Flusher.owes]
  | @popCompact ft hf hc =>
    refine h.of_same rfl ?_ ?_ ⟨[], by simp⟩ (hp (by simp))
    · simpa [immTasks, hf, hc, Flusher.inImm] using h.imm_eq
    · simp [owed, hf, Flusher.owes]
  | @popImm ft m imm hf hc hi =>
    refine h.of_same rfl ?_ ?_ ⟨[], by simp⟩ (hp (by simp))
    · have := h.imm_eq
      simp only [immTasks, hf, Flusher.inImm, hi, filter_cons, hc, Bool.not_false, if_true,
        singleton_append, map_cons, cons.injEq] at this
      simpa [immTasks, Flusher.inImm] using this.2
    · simp [owed, hf, Flusher.owes]
  | @saved ft hf =>
    refine h.of_same rfl ?_ ?_ ⟨[], by simp⟩ (hp (by simp))
    · have := h.imm_eq
      cases hc : ft.isCompact <;> simpa [immTasks, hf, hc, Flusher.inImm] using this
    · cases hc : ft.isCompact <;> simp [owed, hf, hc, Flusher.owes]
  | @notify c hf hc ht =>
    have g := h.compaction c hc
    refine ⟨?_, by simp, fun c' hc' => ?_⟩
    · simpa [immTasks, hf, Flusher.inImm] using h.imm_eq
    · cases hc'
      have hp : s.pendingTasks = s.flushChan := by simp [pendingTasks, hf, Flusher.unbuilt]
      refine ⟨?_, g.tables_eq, g.head_eq, g.todo_mem, ?_, ?_⟩
      · have := g.owed_eq
        simp only [owed, hf, Flusher.owes] at this ⊢
        omega
      · exact fun f hft => g.task_mem f (hp ▸ hft)
      · exact fun f hft => g.task_head f (hp ▸ hft)
  | compactStart hc hlen =>
    have hnot : ∀ ft ∈ s.pendingTasks, ft.isCompact ≠ true := by
      intro ft hft hcc
      obtain ⟨c, hc'⟩ := h.exists_compaction hft hcc
      cases hc.symm.trans hc'
    refine ⟨h.imm_eq, by simp, fun c' hc' => ?_⟩
    cases hc'
    refine ⟨h.owed_eq_zero hc, ⟨[], by simp [Compaction.start]⟩, rfl, ?_, ?_, ?_⟩
    · exact fun x hx => exists_mem_of_mem_mergeIterators hx
    · exact fun ft hft hcc => absurd hcc (hnot ft hft)
    · exact fun ft hft hcc => absurd hcc (hnot ft hft)
  | @compactSend c now hs hc ht room =>
    have g := h.compaction c hc
    refine ⟨?_, by simp, fun c' hc' => ?_⟩
    · rw [immTasks, ← append_assoc, filter_append, map_append]
      simpa [immTasks] using h.imm_eq
    · cases hc'
      have hdec : ∀ x ∈ c.todo, x.2.decoded = x.2 := fun x hx =>
        decoded_eq_of_mem_tablePairs (g.todo_mem x hx)
      refine ⟨?_, g.tables_eq, g.head_eq, ?_, fun ft hft => ?_, fun ft hft => ?_⟩
      · have := g.owed_eq
        simp only [owed, countP_append, countP_cons, countP_nil, if_true] at this ⊢
        omega
      · exact fun x hx => g.todo_mem x ((compactLoop_snd_suffix _ _ _ _ _ _ _).subset hx)
      all_goals
        rw [pendingTasks, ← append_assoc, mem_append, mem_singleton] at hft
        rcases hft with hft | rfl
      · exact g.task_mem ft hft
      · intro _ x hx
        rcases mem_compactLoop_fst hdec hx with hx | hx
        · cases hx
        · exact g.todo_mem x hx
      · exact g.task_head ft hft
      · exact fun _ => ⟨rfl, rfl⟩
  | @compactFinish c hc ht hr =>
    have g := h.compaction c hc
    have hown : s.owed = 0 := by
      have := g.owed_eq
      omega
    exact ⟨h.imm_eq, fun _ => hown, by simp⟩

theorem mt_of_step (hs : LsmStep s op s') :
    s'.mt = s.mt ∨ (∃ key vs height, op = .put key vs height ∧ s'.mt = s.mt.put key vs height) ∨
      ∃ vptr seqNum, op = .rotate vptr seqNum ∧ s'.mt = new := by
  cases hs with
  | put room => exact .inr (.inl ⟨_, _, _, rfl, rfl⟩)
  | rotate room => exact .inr (.inr ⟨_, _, rfl, rfl⟩)
  | _ => exact .inl rfl

theorem tables_subset_of_step (h : s.Sane) (hs : LsmStep s op s') (hop : op ≠ .build) :
    ∀ t ∈ s'.tables, t ∈ s.tables := by
  intro t ht
  cases hs with
  | build hf => exact absurd rfl hop
  | @compactFinish c hc _ hr => exact (h.compaction c hc).mem_tables_iff.mp (.inr ht)
  | _ => exact ht

theorem subset_tables_of_step (hs : LsmStep s op s') (hop : op ≠ .compactFinish) :
    ∀ t ∈ s.tables, t ∈ s'.tables := by
  intro t ht
  cases hs with
  | build hf => exact mem_append_left _ ht
  | compactFinish hc _ hr => exact absurd rfl hop
  | _ => exact ht

theorem mem_tables_of_step (h : s.Sane) (hs : LsmStep s op s') {t : Table} (ht : t ∈ s'.tables) :
    t ∈ s.tables ∨ ∃ ft ∈ s.pendingTasks, ft.table = some t := by
  rcases pendingTasks_of_step hs with
    ⟨_, hop⟩ | ⟨_, _, rfl, _⟩ | ⟨_, _, _, _, rfl, _⟩ | ⟨ft, _, hp, htab⟩
  · exact .inl (tables_subset_of_step h hs hop t ht)
  · exact .inl (tables_subset_of_step h hs (by simp) t ht)
  · exact .inl (tables_subset_of_step h hs (by simp) t ht)
  · rw [htab, mem_append, Option.mem_toList] at ht
    exact ht.imp id fun h => ⟨ft, hp ▸ (.head _), h⟩

/-! ## The pairs a read can see -/

/-- The pairs of the memtables and the tables. -/
def visible (s : Lsm) : Set Pair := memPairs s.memTables ∪ tablePairs s.tables

theorem mem_visible :
    x ∈ s.visible ↔ x ∈ s.mt.toSortedRun ∨ (∃ m ∈ s.imm, x ∈ m.toSortedRun) ∨
      ∃ t ∈ s.tables, x ∈ t.toSortedRun := by
  simp only [visible, Set.mem_union, mem_memPairs, memTables, mem_cons, mem_reverse,
    exists_eq_or_imp, mem_tablePairs, or_assoc]

theorem visible_opened (tables : List Table) : (opened tables).visible = tablePairs tables := by
  ext x
  constructor
  · rintro (⟨m, hm, hx⟩ | hx)
    · rw [mem_singleton.mp hm] at hx
      cases hx
    · exact hx
  · exact .inr

theorem Sane.mem_imm_of_task (h : s.Sane) (hft : ft ∈ s.pendingTasks) (hc : ft.isCompact = false) :
    ft.mt ∈ s.imm := by
  rw [← h.imm_eq, immTasks]
  refine mem_map_of_mem (mem_filter.mpr ⟨?_, by simp [hc]⟩)
  rcases mem_append.mp hft with hft | hft
  · refine mem_append_left _ ?_
    cases hf : s.flusher with
    | building f => rwa [hf] at hft
    | _ => simp [hf, Flusher.unbuilt] at hft
  · exact mem_append_right _ hft

theorem Sane.mem_visible_of_task (h : s.Sane) (hft : ft ∈ s.pendingTasks)
    (hx : x ∈ ft.mt.toSortedRun) : x ∈ s.visible := by
  rw [mem_visible]
  cases hc : ft.isCompact with
  | false => exact .inr (.inl ⟨ft.mt, h.mem_imm_of_task hft hc, hx⟩)
  | true => exact .inr (.inr (h.mem_tablePairs_of_task hft hc hx))

/-- **Only a put adds pairs**: flushes and compactions move what could be seen before. -/
theorem mem_visible_of_step (h : s.Sane) (hs : LsmStep s op s') (hx : x ∈ s'.visible) :
    x ∈ s.visible ∨ ∃ key vs height, op = .put key vs height ∧ x = (key, vs.decoded) := by
  cases hs with
  | put room =>
    rw [mem_visible] at hx
    rcases hx with hx | hx
    · rcases mem_put.mp hx with rfl | ⟨hx, _⟩
      · exact .inr ⟨_, _, _, rfl, rfl⟩
      · exact .inl (mem_visible.mpr (.inl hx))
    · exact .inl (mem_visible.mpr (.inr hx))
  | rotate room =>
    refine .inl (mem_visible.mpr ?_)
    rcases mem_visible.mp hx with hx | ⟨m, hm, hx⟩ | hx
    · cases hx
    · rcases mem_append.mp hm with hm | hm
      · exact .inr (.inl ⟨m, hm, hx⟩)
      · exact .inl (mem_singleton.mp hm ▸ hx)
    · exact .inr (.inr hx)
  | @build ft hf =>
    left
    rcases mem_visible.mp hx with hx | hx | ⟨t, ht, hx⟩
    · exact mem_visible.mpr (.inl hx)
    · exact mem_visible.mpr (.inr (.inl hx))
    · rcases mem_append.mp ht with ht | ht
      · exact mem_visible.mpr (.inr (.inr ⟨t, ht, hx⟩))
      · have hft : ft ∈ s.pendingTasks := by simp [pendingTasks, hf, Flusher.unbuilt]
        exact h.mem_visible_of_task hft (mem_tablePairs_task.mp ⟨t, ht, hx⟩)
  | popImm hf hc hi =>
    refine .inl (mem_visible.mpr ?_)
    rcases mem_visible.mp hx with hx | ⟨m, hm, hx⟩ | hx
    · exact .inl hx
    · exact .inr (.inl ⟨m, hi ▸ .tail _ hm, hx⟩)
    · exact .inr (.inr hx)
  | @compactFinish c hc ht hr =>
    refine .inl (mem_visible.mpr ?_)
    rcases mem_visible.mp hx with hx | hx | ⟨t, ht, hx⟩
    · exact .inl hx
    · exact .inr (.inl hx)
    · exact .inr (.inr ⟨t, (h.compaction c hc).mem_tables_iff.mp (.inr ht), hx⟩)
  | _ => exact .inl hx

/-! ## Layers -/

/-- Every memtable dominates the older ones and the tables. -/
structure Layered (s : Lsm) : Prop where
  mem : s.memTables.Pairwise fun m n =>
    Dominates userKeyOf versionOf m.toSortedRun.pairs n.toSortedRun.pairs
  tables : ∀ m ∈ s.memTables,
    Dominates userKeyOf versionOf m.toSortedRun.pairs (tablePairs s.tables)

/-- The version put for a key does not lie below one in an immutable memtable or a table. -/
def PutOnTop (s : Lsm) (key : InternalKey) : Prop :=
  (∀ m ∈ s.imm, ∀ x ∈ m.toSortedRun, x.1.userKey = key.userKey → x.1.ts ≤ key.ts) ∧
    ∀ x ∈ tablePairs s.tables, x.1.userKey = key.userKey → x.1.ts ≤ key.ts

theorem layered_opened (tables : List Table) : (opened tables).Layered where
  mem := pairwise_singleton _ _
  tables := by
    intro m hm x _ y hy
    rw [mem_singleton.mp hm] at hy
    cases hy

theorem dominates_put {m : SortedRun} {key : InternalKey} {vs : ValueStruct}
    (hd : Dominates userKeyOf versionOf m.pairs S)
    (htop : ∀ x ∈ S, x.1.userKey = key.userKey → x.1.ts ≤ key.ts) :
    Dominates userKeyOf versionOf (m.put key vs).pairs S := by
  intro x hx y hy hk
  rcases mem_put.mp hy with rfl | ⟨hy, _⟩
  · exact .inl (htop x hx hk.symm)
  · rcases hd x hx y hy hk with hle | ⟨z, hz, hzk, hzv⟩
    · exact .inl hle
    · by_cases hzkey : z.1 = key
      · refine .inr ⟨(key, vs.decoded), mem_put.mpr (.inl rfl), ?_, ?_⟩
        · rwa [userKeyOf, ← hzkey]
        · rwa [versionOf, ← hzkey]
      · exact .inr ⟨z, mem_put.mpr (.inr ⟨hz, hzkey⟩), hzk, hzv⟩

theorem dominates_union {L T : Set Pair} (hS : Dominates userKeyOf versionOf L S)
    (hT : Dominates userKeyOf versionOf L T) : Dominates userKeyOf versionOf L (S ∪ T) :=
  fun x hx => hx.elim (hS x) (hT x)

theorem dominates_mono {L T : Set Pair} (h : Dominates userKeyOf versionOf L S) (hT : T ⊆ S) :
    Dominates userKeyOf versionOf L T :=
  fun x hx => h x (hT hx)

theorem dominates_self (L : Set Pair) : Dominates userKeyOf versionOf L L :=
  fun x hx _ _ _ => .inr ⟨x, hx, rfl, rfl⟩

/-- **Puts on top keep the layers in order**, and no other operation disturbs them. -/
theorem Layered.step (hl : s.Layered) (h : s.Sane) (hs : LsmStep s op s')
    (hput : ∀ key vs height, op = .put key vs height → s.PutOnTop key) : s'.Layered := by
  cases hs with
  | @put key vs height room =>
    obtain ⟨himm, htab⟩ := hput key vs height rfl
    obtain ⟨hmt, hrest⟩ := pairwise_cons.mp hl.mem
    refine ⟨pairwise_cons.mpr ⟨fun n hn => ?_, hrest⟩, fun m hm => ?_⟩
    · exact dominates_put (hmt n hn) (himm n (mem_reverse.mp hn))
    · rcases hm with _ | ⟨_, hm⟩
      · exact dominates_put (hl.tables s.mt (.head _)) htab
      · exact hl.tables m (.tail _ hm)
  | rotate room =>
    have hmem : new :: (s.imm ++ [s.mt]).reverse = new :: s.memTables := by
      simp [memTables]
    have hnew : ∀ S, Dominates userKeyOf versionOf new.toSortedRun.pairs S :=
      fun S x _ y hy => absurd hy (not_mem_empty y)
    refine ⟨?_, fun m hm => ?_⟩
    · rw [memTables, hmem]
      exact pairwise_cons.mpr ⟨fun n _ => hnew _, hl.mem⟩
    · rw [memTables, hmem] at hm
      rcases hm with _ | ⟨_, hm⟩
      · exact hnew _
      · exact hl.tables m hm
  | @build ft hf =>
    refine ⟨hl.mem, fun m hm => ?_⟩
    have hft : ft ∈ s.pendingTasks := by simp [pendingTasks, hf, Flusher.unbuilt]
    have hsub : tablePairs ft.table.toList ⊆ ft.mt.toSortedRun.pairs :=
      fun x hx => mem_tablePairs_task.mp hx
    rw [tablePairs_append]
    refine dominates_union (hl.tables m hm) ?_
    cases hc : ft.isCompact with
    | false =>
      -- The task holds the oldest immutable memtable, the last layer.
      obtain ⟨imm, himm⟩ := h.head_imm (.inl hf) hc
      have hlayers : s.memTables = (s.mt :: imm.reverse) ++ [ft.mt] := by
        simp [memTables, himm]
      have hpair := hl.mem
      have hm' : m ∈ s.memTables := hm
      rw [hlayers] at hpair hm'
      refine dominates_mono ?_ hsub
      rcases mem_append.mp hm' with hm' | hm'
      · exact (pairwise_append.mp hpair).2.2 m hm' ft.mt (.head _)
      · rw [mem_singleton.mp hm']
        exact dominates_self _
    | true =>
      exact dominates_mono (hl.tables m hm) fun x hx => h.mem_tablePairs_of_task hft hc (hsub hx)
  | @popImm ft m imm hf hc hi =>
    have hsub : (s.mt :: imm.reverse).Sublist s.memTables := by
      rw [memTables, hi, reverse_cons]
      exact (sublist_append_left _ _).cons_cons _
    exact ⟨hl.mem.sublist hsub, fun n hn => hl.tables n (hsub.subset hn)⟩
  | @compactFinish c hc ht hr =>
    refine ⟨hl.mem, fun m hm => dominates_mono (hl.tables m hm) ?_⟩
    rintro x ⟨t, ht, hx⟩
    exact ⟨t, (h.compaction c hc).mem_tables_iff.mp (.inr ht), hx⟩
  | _ => exact ⟨hl.mem, hl.tables⟩

/-- In a layered state a read finds the newest version. -/
theorem Layered.getValueStruct_answers (hl : s.Layered) (env : Env) {k : Bytes} (hk : k ≠ [])
    (seqNumber version : ℕ) (hpos : ∀ x ∈ s.visible, 0 < x.1.ts) :
    Answers s.visible k (if version = 0 then seqNumber else version)
      (getValueStruct env s.memTables seqNumber s.tables k version) :=
  Autumn.getValueStruct_answers env hk seqNumber version hl.mem hl.tables
    fun x hx => hpos x (.inr hx)

end Lsm

end Autumn
