import Autumn.RangePartition.Sane
import Autumn.StreamClient.MixBlock

/-!
# What the flush queue carries

What lies before a replay position in the log need not be replayed.  The tables, the flush tasks and
`rp.vhead` hold such positions.  Every entry before a position must have been put into a memtable
that is flushed no later than the table that carries the position.

`SortedRun.Holds` says that an entry was put into a run, live or by a replay.  It looks at the
history of the run, because a later `Put` of the same internal key replaces the value.

* `Lsm.CoveredTo B`: with `B e o` the entries that count before the position `(e, o)`, every table
  and every task is right about its position; a task may rely on the tasks in front of it.  A
  rotation keeps this when everything before the position it carries is kept (`Lsm.CoveredTo.step`).
-/

namespace Autumn

open Lib Y List Skiplist

/-- The entry was put into the run. -/
def SortedRun.Holds (s : SortedRun) (p : EntryInfo) : Prop :=
  lsmPair p ∈ s.puts ∨ lsmPair (replayInfo p) ∈ s.puts

/-- The entry was put into one of the tables. -/
def Covered (ts : List Table) (p : EntryInfo) : Prop := ∃ t ∈ ts, t.toSortedRun.Holds p

variable {p : EntryInfo}

theorem Covered.mono {ts us : List Table} (h : ∀ t ∈ ts, t ∈ us) (hp : Covered ts p) :
    Covered us p := by
  obtain ⟨t, ht, htp⟩ := hp
  exact ⟨t, h t ht, htp⟩

theorem SortedRun.Holds.put {s : SortedRun} (h : s.Holds p) (key : InternalKey) (vs : ValueStruct) :
    (s.put key vs).Holds p := by
  rw [Holds, puts_put]
  exact h.imp (mem_append_left _) (mem_append_left _)

/-- A run that an entry was put into has its key. -/
theorem SortedRun.Holds.exists_key {s : SortedRun} (h : s.Holds p) : ∃ y ∈ s, y.1 = p.log.key := by
  rcases h with h | h
  · exact s.exists_key _ h
  · obtain ⟨y, hy, hyk⟩ := s.exists_key _ h
    exact ⟨y, hy, hyk.trans (replayInfo_key p)⟩

theorem exists_table_of_holds {ft : FlushTask} (h : ft.mt.toSortedRun.Holds p) :
    Covered ft.table.toList p := by
  cases ht : ft.table with
  | none =>
    obtain ⟨y, hy, _⟩ := h.exists_key
    exact absurd hy (toTable_eq_none ht y)
  | some t =>
    refine ⟨t, by simp, ?_⟩
    rwa [(toTable_eq_some ht).1]

namespace Lsm

/-- The entry is in a table of the list or merged away, in a pending task or in the memtable. -/
def Kept (s : Lsm) (merged : List Table) (p : EntryInfo) : Prop :=
  Covered (s.tables ++ merged) p ∨ (∃ ft ∈ s.pendingTasks, ft.mt.toSortedRun.Holds p) ∨
    s.mt.toSortedRun.Holds p

variable {s s' : Lsm} {merged : List Table} {e o : ℕ} {op : LsmOp} {B : ℕ → ℕ → EntryInfo → Prop}

/-- No operation loses an entry, if the tables that leave the list are counted as merged. -/
theorem Kept.step {merged' : List Table} (h : s.Kept merged p) (hs : LsmStep s op s')
    (hkeep : ∀ t ∈ s.tables ++ merged, t ∈ s'.tables ++ merged') : s'.Kept merged' p := by
  rcases h with h | ⟨ft, hft, hp⟩ | h
  · exact .inl (h.mono hkeep)
  · rcases pendingTasks_of_step hs with
      ⟨heq, _⟩ | ⟨_, _, _, heq⟩ | ⟨_, _, _, _, _, heq⟩ | ⟨f, _, heq, htab⟩
    · exact .inr (.inl ⟨ft, heq ▸ hft, hp⟩)
    · exact .inr (.inl ⟨ft, heq ▸ mem_append_left _ hft, hp⟩)
    · exact .inr (.inl ⟨ft, heq ▸ mem_append_left _ hft, hp⟩)
    · rw [heq, mem_cons] at hft
      rcases hft with rfl | hft
      · refine .inl ((exists_table_of_holds hp).mono fun t ht => ?_)
        rw [htab]
        exact mem_append_left _ (mem_append_right _ ht)
      · exact .inr (.inl ⟨ft, hft, hp⟩)
  · rcases mt_of_step hs with heq | ⟨key, vs, height, _, heq⟩ | ⟨vptr, seqNum, rfl, _⟩
    · exact .inr (.inr (heq ▸ h))
    · exact .inr (.inr (heq ▸ h.put key vs))
    · cases hs with
      | rotate room =>
        refine .inr (.inl ⟨⟨s.mt, vptr, seqNum, false⟩, ?_, h⟩)
        rw [pendingTasks, ← append_assoc]
        exact mem_concat_self

/-! ## Replay positions -/

/-- A table or a pending task carries the position. -/
def Marks (s : Lsm) (e o : ℕ) : Prop :=
  (∃ t ∈ s.tables, t.vpExtentID = e ∧ t.vpOffset = o) ∨
    ∃ ft ∈ s.pendingTasks, ft.vptr.extentID = e ∧ ft.vptr.offset = o

/-- A table or a pending task carries the position, with the sequence number `n`. -/
def Stamps (s : Lsm) (e o n : ℕ) : Prop :=
  (∃ t ∈ s.tables, t.vpExtentID = e ∧ t.vpOffset = o ∧ t.lastSeq = n) ∨
    ∃ ft ∈ s.pendingTasks, ft.vptr.extentID = e ∧ ft.vptr.offset = o ∧ ft.seqNum = n

theorem marks_iff : s.Marks e o ↔ ∃ n, s.Stamps e o n := by
  constructor
  · rintro (⟨t, ht, he, ho⟩ | ⟨ft, hft, he, ho⟩)
    · exact ⟨_, .inl ⟨t, ht, he, ho, rfl⟩⟩
    · exact ⟨_, .inr ⟨ft, hft, he, ho, rfl⟩⟩
  · rintro ⟨n, ⟨t, ht, he, ho, _⟩ | ⟨ft, hft, he, ho, _⟩⟩
    · exact .inl ⟨t, ht, he, ho⟩
    · exact .inr ⟨ft, hft, he, ho⟩

/-- Where a position and its sequence number can come from: a rotation brings them, and a compaction
of tables without any `LastSeq` carries the start of the log. -/
theorem stamps_of_step (h : s.Sane) (hs : LsmStep s op s') {n : ℕ} (hm : s'.Stamps e o n) :
    s.Stamps e o n ∨ (e = 0 ∧ o = 0) ∨
      ∃ vptr, op = .rotate vptr n ∧ vptr.extentID = e ∧ vptr.offset = o := by
  rcases hm with ⟨t, ht, he, ho, hn⟩ | ⟨ft, hft, he, ho, hn⟩
  · left
    rcases mem_tables_of_step h hs ht with ht | ⟨ft, hft, ht⟩
    · exact .inl ⟨t, ht, he, ho, hn⟩
    · obtain ⟨-, hn', he', ho'⟩ := toTable_eq_some ht
      exact .inr ⟨ft, hft, he'.symm.trans he, ho'.symm.trans ho, hn'.symm.trans hn⟩
  · rcases mem_pendingTasks_of_step hs hft with
      hft | ⟨vptr, seqNum, hop, rfl⟩ | ⟨c, now, hs, hc, -, rfl⟩
    · exact .inl (.inr ⟨ft, hft, he, ho, hn⟩)
    · obtain rfl := hn
      exact .inr (.inr ⟨vptr, hop, he, ho⟩)
    · have g := h.compaction c hc
      have hhead : c.head = (compactHead c.tbls).1 := congrArg Prod.fst g.head_eq
      have hmax : c.maxSeq = (compactHead c.tbls).2 := congrArg Prod.snd g.head_eq
      obtain ⟨rest, hrest⟩ := g.tables_eq
      dsimp only at he ho hn
      rcases compactHead_eq c.tbls with hno | ⟨t, ht, hyes⟩
      · rw [hhead, hno] at he ho
        exact .inr (.inl ⟨he.symm, ho.symm⟩)
      · rw [hhead, hyes] at he ho
        rw [hmax, hyes] at hn
        exact .inl (.inl ⟨t, hrest ▸ mem_append_left _ ht, he, ho, hn⟩)

theorem marks_of_step (h : s.Sane) (hs : LsmStep s op s') (hm : s'.Marks e o) :
    s.Marks e o ∨ (e = 0 ∧ o = 0) ∨
      ∃ vptr seqNum, op = .rotate vptr seqNum ∧ vptr.extentID = e ∧ vptr.offset = o := by
  obtain ⟨n, hn⟩ := marks_iff.mp hm
  rcases stamps_of_step h hs hn with hn | h0 | ⟨vptr, hop, he, ho⟩
  · exact .inl (marks_iff.mpr ⟨n, hn⟩)
  · exact .inr (.inl h0)
  · exact .inr (.inr ⟨vptr, n, hop, he, ho⟩)

/-- Tasks in the order in which they are flushed: what lies before the position of a task is
already there (`C`), or in one of the tasks in front of it, or in its own memtable. -/
def TasksCover (B : ℕ → ℕ → EntryInfo → Prop) :
    (EntryInfo → Prop) → List FlushTask → Prop
  | _, [] => True
  | C, ft :: fts =>
    (∀ p, B ft.vptr.extentID ft.vptr.offset p → C p ∨ ft.mt.toSortedRun.Holds p) ∧
      TasksCover B (fun p => C p ∨ ft.mt.toSortedRun.Holds p) fts

theorem TasksCover.mono {B' : ℕ → ℕ → EntryInfo → Prop} :
    ∀ {fts : List FlushTask} {C C' : EntryInfo → Prop},
      (∀ ft ∈ fts, ∀ p, B' ft.vptr.extentID ft.vptr.offset p →
        B ft.vptr.extentID ft.vptr.offset p) → (∀ p, C p → C' p) →
      TasksCover B C fts → TasksCover B' C' fts
  | [], _, _, _, _, _ => trivial
  | ft :: fts, C, C', hB, hC, h => by
    refine ⟨fun p hp => (h.1 p (hB ft (.head _) p hp)).imp (hC p) id, ?_⟩
    exact mono (fun f hf => hB f (.tail _ hf)) (fun p => Or.imp (hC p) id) h.2

/-- A task at the end may rely on all tasks in front of it. -/
theorem TasksCover.append {ft : FlushTask} :
    ∀ {fts : List FlushTask} {C : EntryInfo → Prop}, TasksCover B C fts →
      (∀ p, B ft.vptr.extentID ft.vptr.offset p →
        C p ∨ (∃ f ∈ fts, f.mt.toSortedRun.Holds p) ∨ ft.mt.toSortedRun.Holds p) →
      TasksCover B C (fts ++ [ft])
  | [], C, _, hft => by
    refine ⟨fun p hp => ?_, trivial⟩
    rcases hft p hp with h | ⟨f, hf, _⟩ | h
    · exact .inl h
    · simp at hf
    · exact .inr h
  | f :: fts, C, h, hft => by
    refine ⟨h.1, append h.2 fun p hp => ?_⟩
    rcases hft p hp with h | ⟨g, hg, hgp⟩ | h
    · exact .inl (.inl h)
    · rcases hg with _ | ⟨_, hg⟩
      · exact .inl (.inr hgp)
      · exact .inr (.inl ⟨g, hg, hgp⟩)
    · exact .inr (.inr h)

/-- Every table and every task is right about the position it carries. -/
structure CoveredTo (B : ℕ → ℕ → EntryInfo → Prop) (s : Lsm) (merged : List Table) : Prop where
  tables : ∀ t ∈ s.tables, ∀ p, B t.vpExtentID t.vpOffset p → Covered (s.tables ++ merged) p
  tasks : TasksCover B (Covered (s.tables ++ merged)) s.pendingTasks

theorem CoveredTo.mono {B' : ℕ → ℕ → EntryInfo → Prop} (h : CoveredTo B s merged)
    (hB : ∀ e o p, s.Marks e o → B' e o p → B e o p) :
    CoveredTo B' s merged where
  tables := fun t ht p hp => h.tables t ht p (hB _ _ p (.inl ⟨t, ht, rfl, rfl⟩) hp)
  tasks := h.tasks.mono (fun ft hft p hp => hB _ _ p (.inr ⟨ft, hft, rfl, rfl⟩) hp) fun _ => id

/-- **Only a rotation can make a position wrong**, and it does not if everything before the
position it carries is kept. -/
theorem CoveredTo.step {merged' : List Table} (h : CoveredTo B s merged) (hsane : s.Sane)
    (hs : LsmStep s op s') (hkeep : ∀ t ∈ s.tables ++ merged, t ∈ s'.tables ++ merged')
    (hstart : ∀ p, ¬ B 0 0 p) (hrot : ∀ vptr seqNum, op = .rotate vptr seqNum → ∀ p, B vptr.extentID
      vptr.offset p → s.Kept merged p) : CoveredTo B s' merged' := by
  have hcov : ∀ p, Covered (s.tables ++ merged) p → Covered (s'.tables ++ merged') p :=
    fun p hp => hp.mono hkeep
  rcases pendingTasks_of_step hs with
    ⟨heq, hop⟩ | ⟨vptr, seqNum, rfl, heq⟩ | ⟨c, now, hs', hc, rfl, heq⟩ | ⟨ft, -, heq, htab⟩
  · refine ⟨fun t ht p hp => ?_, ?_⟩
    · exact hcov p (h.tables t (tables_subset_of_step hsane hs hop t ht) p hp)
    · rw [heq]
      exact h.tasks.mono (fun _ _ _ => id) hcov
  · refine ⟨fun t ht p hp => ?_, ?_⟩
    · exact hcov p (h.tables t (tables_subset_of_step hsane hs (by simp) t ht) p hp)
    · rw [heq]
      refine (h.tasks.mono (fun _ _ _ => id) hcov).append fun p hp => ?_
      exact (hrot vptr seqNum rfl p hp).imp (hcov p) id
  · -- A compaction carries the position of one of its tables.
    refine ⟨fun t ht p hp => ?_, ?_⟩
    · exact hcov p (h.tables t (tables_subset_of_step hsane hs (by simp) t ht) p hp)
    · rw [heq]
      refine (h.tasks.mono (fun _ _ _ => id) hcov).append fun p hp => .inl (hcov p ?_)
      have g := hsane.compaction c hc
      have hhead : c.head = (compactHead c.tbls).1 := congrArg Prod.fst g.head_eq
      obtain ⟨rest, hrest⟩ := g.tables_eq
      dsimp only at hp
      rcases compactHead_eq c.tbls with hno | ⟨t, ht, hyes⟩
      · rw [hhead, hno] at hp
        exact absurd hp (hstart p)
      · rw [hhead, hyes] at hp
        exact h.tables t (hrest ▸ mem_append_left _ ht) p hp
  · -- The first task becomes a table, and the others rely on the table instead.
    have htasks := h.tasks
    rw [heq] at htasks
    have hnew : ∀ p, ft.mt.toSortedRun.Holds p → Covered (s'.tables ++ merged') p := by
      intro p hp
      refine (exists_table_of_holds hp).mono fun t ht => ?_
      rw [htab]
      exact mem_append_left _ (mem_append_right _ ht)
    have hall : ∀ p, Covered (s.tables ++ merged) p ∨ ft.mt.toSortedRun.Holds p →
        Covered (s'.tables ++ merged') p := fun p hp => hp.elim (hcov p) (hnew p)
    refine ⟨fun t ht p hp => ?_, htasks.2.mono (fun _ _ _ => id) hall⟩
    rw [htab, mem_append, Option.mem_toList] at ht
    rcases ht with ht | ht
    · exact hcov p (h.tables t ht p hp)
    · obtain ⟨-, -, he, ho⟩ := toTable_eq_some ht
      rw [he, ho] at hp
      exact hall p (htasks.1 p hp)

end Lsm

end Autumn
