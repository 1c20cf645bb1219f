import Autumn.RangePartition.Checkpoint
import Autumn.RangePartition.Faithful

/-!
# What is left of the entries that were acknowledged

`Checkpoint` finds an acknowledged entry in a table, which a compaction may have merged away since.
The compaction has left the newest version of every user key in a table of the list, unless that
version is a deletion.  So the same or a newer version is left, or the log has a deletion that is
not older (`Reached`).

A compaction that cannot read all of its tables does this too, as long as its merge iterator
delivers the pairs that it has to leave (`DeliversLive`).
-/

namespace Autumn

open Lib Y List

/-- A version of the user key that is not older is among the pairs `S`, or a deletion of the user
key that is not older is in the log. -/
def Reached (log : LogStream) (S : Set Pair) (k : InternalKey) : Prop :=
  (∃ y ∈ S, y.1.userKey = k.userKey ∧ k.ts ≤ y.1.ts) ∨
    ∃ q ∈ log.placed, isDelete q.log = true ∧ q.log.key.userKey = k.userKey ∧ k.ts ≤ q.log.key.ts

variable {log : LogStream} {S T : Set Pair} {k : InternalKey} {y : Pair}

theorem reached_of_mem (hy : y ∈ S) : Reached log S y.1 := .inl ⟨y, hy, rfl, le_rfl⟩

/-- What reaches the pairs of `S` reaches everything that `S` reaches. -/
theorem Reached.trans (h : Reached log S k) (hS : ∀ y ∈ S, Reached log T y.1) :
    Reached log T k := by
  rcases h with ⟨y, hy, hyk, hle⟩ | hdel
  · rcases hS y hy with ⟨z, hz, hzk, hle'⟩ | ⟨q, hq, hd, hqk, hle'⟩
    · exact .inl ⟨z, hz, hzk.trans hyk, hle.trans hle'⟩
    · exact .inr ⟨q, hq, hd, hqk.trans hyk, hle.trans hle'⟩
  · exact .inr hdel

theorem Reached.grows {log' : LogStream} (h : Reached log S k)
    (hlog : ∀ p ∈ log.placed, p ∈ log'.placed) : Reached log' S k :=
  h.imp id (Exists.imp fun q hq => hq.imp (hlog q) id)

/-- A list that is not stored reaches nothing but what is deleted. -/
theorem Reached.updateTableLocs {tables : List Table} (h : Reached log (tablePairs tables) k)
    (stored : List Table) : Reached log (tablePairs (updateTableLocs stored tables)) k := by
  rw [Autumn.updateTableLocs]
  split_ifs with hnil
  · rw [isEmpty_iff.mp hnil] at h
    refine h.trans ?_
    rintro y ⟨t, ht, -⟩
    cases ht
  · exact h

/-! ## A compaction -/

/-- The pairs `D` are of the tables, and every key that is the newest of its user key there, and not
that of a deletion, is among theirs. -/
def DeliversLive (ts : List Table) (D : Set Pair) : Prop :=
  D ⊆ tablePairs ts ∧ ∀ x, Survivor (tablePairs ts) x → ∃ y ∈ D, y.1 = x.1

theorem deliversLive_mergeIterators (ts : List Table) :
    DeliversLive ts {x | x ∈ (mergeIterators ts).entries} := by
  refine ⟨fun x hx => exists_mem_of_mem_mergeIterators hx, fun x hx => ?_⟩
  obtain ⟨t, ht, hxt⟩ := hx.mem
  exact exists_key_mem_mergeIterators ht hxt

variable {w : World} {s s' : Lsm} {op : LsmOp} {c : Compaction} {merged : List Table}

/-- What the survivors of a compaction reach. -/
theorem World.Base.reached_of_deliversLive (hb : w.Base) {ts : List Table} {D : Set Pair}
    (hD : DeliversLive ts D) (htr : ∀ x ∈ tablePairs ts, Traced w.log x)
    (hT : ∀ x, Survivor D x → x ∈ T) : ∀ x ∈ tablePairs ts, Reached w.log T x.1 := by
  -- A pair that is delivered survives, or is a deletion that is in the log.
  have hdel : ∀ y ∈ tablePairs ts, y.2.isDeleted = true → Reached w.log T y.1 := by
    intro y hy hyd
    obtain ⟨p, hp, hkey, hpd, -⟩ := hb.exists_entry (htr y hy)
    exact .inr ⟨p, hp, hpd ▸ hyd, by rw [hkey], by rw [hkey]⟩
  rintro x ⟨t, ht, hxt⟩
  obtain ⟨y, ⟨hy, hmax⟩, hyx⟩ := Lsm.exists_latest
    (P := ts.flatMap fun t => t.data.entries) (mem_flatMap.mpr ⟨t, ht, hxt⟩)
  have hmax : ∀ z ∈ tablePairs ts, z.1.userKey = y.1.userKey → z.1.ts ≤ y.1.ts := fun z hz =>
    hmax z (mem_flatMap.mpr hz)
  have hxy : Reached w.log {y} x.1 := .inl ⟨y, rfl, hyx, hmax x ⟨t, ht, hxt⟩ hyx.symm⟩
  refine hxy.trans fun z hz => ?_
  rw [Set.mem_singleton_iff.mp hz]
  cases hyd : y.2.isDeleted with
  | true => exact hdel y (mem_flatMap.mp hy) hyd
  | false =>
    obtain ⟨z, hz, hzy⟩ := hD.2 y ⟨mem_flatMap.mp hy, hmax, hyd⟩
    rw [← hzy] at hmax ⊢
    cases hzd : z.2.isDeleted with
    | true => exact hdel z (hD.1 hz) hzd
    | false => exact reached_of_mem (hT z ⟨hz, fun u hu => hmax u (hD.1 hu), hzd⟩)

namespace Lsm

/-- What was in the merged tables is reached, and a compaction in progress carries enough to keep
it so. -/
structure Reaching (s : Lsm) (log : LogStream) (merged : List Table) : Prop where
  merged : ∀ x ∈ tablePairs merged, Reached log (tablePairs s.tables) x.1
  compaction : ∀ c, s.compaction = some c → ∃ D, DeliversLive c.tbls D ∧ Carrying D s c

theorem next_none_iff {l : List Pair} (x : Pair) : Next none l x ↔ Survivor {y | y ∈ l} x :=
  ⟨fun hx => hx.1, fun hx => ⟨hx, by simp⟩⟩

theorem Reaching.step (h : s.Reaching log merged) (hsane : s.Sane)
    (hexp : ∀ x ∈ tablePairs s.tables, x.2.expiresAt = 0) (hs : LsmStep s op s')
    (hop : op ≠ .compactFinish) : s'.Reaching log merged where
  merged := by
    refine fun x hx => (h.merged x hx).trans ?_
    rintro y ⟨t, ht, hy⟩
    exact reached_of_mem ⟨t, subset_tables_of_step hs hop t ht, hy⟩
  compaction := Carrying.step hs hsane h.compaction
    ⟨_, deliversLive_mergeIterators s.tables, next_none_iff⟩ hexp

theorem Reaching.compactFinish (h : s.Reaching w.log merged) (hb : w.Base) (hsane : s.Sane)
    (htr : ∀ x ∈ tablePairs s.tables, Traced w.log x) (hc : s.compaction = some c)
    (hs : LsmStep s .compactFinish s') : s'.Reaching w.log (merged ++ c.tbls) := by
  cases hs with
  | compactFinish hc' ht hr =>
    cases hc.symm.trans hc'
    obtain ⟨D, hD, hcarry⟩ := h.compaction c hc
    have g := hsane.compaction c hc
    have htbls := hb.reached_of_deliversLive hD (fun x hx => htr x (g.tablePairs_subset hx))
      fun x => hcarry.mem_rest hsane hc ht hr
    refine ⟨?_, by simp⟩
    dsimp only
    rw [g.replaceTables_eq, tablePairs_append]
    rintro x (hx | hx)
    · refine (h.merged x hx).trans ?_
      rw [g.tablePairs_eq]
      rintro y (hy | hy)
      · exact htbls y hy
      · exact reached_of_mem hy
    · exact htbls x hx

end Lsm

/-! ## The machine -/

/-- What was in the merged tables is reached by the stored tables and by those of the partition. -/
structure World.Reaching (w : World) : Prop where
  stored : ∀ x ∈ tablePairs w.merged, Reached w.log (tablePairs w.stored) x.1
  rp : ∀ rp, w.rp = some rp → rp.toLsm.Reaching w.log w.merged

theorem reaching_init (id : ℕ) : (World.init id).Reaching :=
  ⟨fun _ ⟨_, ht, _⟩ => absurd ht not_mem_nil, by simp [World.init]⟩

variable {env : Env} {rp : RangePartition} {p : EntryInfo}

section

variable (h : w.Reaching)
include h

theorem World.Reaching.grows {log' : LogStream} (hlog : ∀ p ∈ w.log.placed, p ∈ log'.placed) :
    ({ w with log := log' } : World).Reaching where
  stored x hx := (h.stored x hx).grows hlog
  rp rp hrp := ⟨fun x hx => ((h.rp rp hrp).merged x hx).grows hlog, (h.rp rp hrp).compaction⟩

theorem World.Reaching.step {w' : World} {a : Action} (hb : w.Base) (hs : WorldStep env w a w') :
    w'.Reaching := by
  have hexp : ∀ rp, w.rp = some rp → ∀ x ∈ tablePairs rp.tables, x.2.expiresAt = 0 :=
    fun rp hrp x hx => hb.expiresAt_eq ((hb.rp rp hrp).visible_traced x (.inr hx))
  cases hs with
  | @loc a rp rp' hrp hs =>
    refine { h with rp := forall_of_some ?_ }
    rcases hs.lsm_cases with heq | ⟨op, hop, hmakes⟩
    · exact heq ▸ h.rp rp hrp
    · exact (h.rp rp hrp).step (hb.rp rp hrp).sane (hexp rp hrp) hop (by rintro rfl; exact hmakes)
  | newExtent hid h0 hlt => exact h.grows (logGrows_newExtent _ _).placed
  | appendGarbage hrp hw hbs hlen => exact h.grows (logGrows_append hb.log_wf _).placed
  | @appendOk rp reqs bs hrp hw hbs hlen =>
    have hg := h.grows (logGrows_append hb.log_wf bs).placed
    exact { hg with rp := forall_of_some (hg.rp rp hrp) }
  | @finish rp head placed hrp hw => exact { h with rp := forall_of_some (h.rp rp hrp) }
  | @store rp lsm hrp hs =>
    have hr := (h.rp rp hrp).step (hb.rp rp hrp).sane (hexp rp hrp) hs (by simp)
    exact ⟨fun x hx => ((h.rp rp hrp).merged x hx).updateTableLocs _, forall_of_some hr⟩
  | @compactFinish rp c lsm hrp hc hs =>
    have hr := (h.rp rp hrp).compactFinish hb (hb.rp rp hrp).sane
      (fun x hx => (hb.rp rp hrp).visible_traced x (.inr hx)) hc hs
    exact ⟨fun x hx => (hr.merged x hx).updateTableLocs _, forall_of_some hr⟩
  | openPartition hrp =>
    exact { h with rp := forall_of_some ⟨h.stored, by simp [openRangePartition, Lsm.opened]⟩ }
  | closeEnd hrp | crash => exact { h with rp := by simp }

/-- An acknowledged entry is reached by the stored tables, or it is replayed. -/
theorem World.Reaching.reached_or_since (hc : w.Checkpoint) (hp : p ∈ w.acked) :
    Reached w.log (tablePairs w.stored) p.log.key ∨
      p ∈ w.log.since (compactHead w.stored).1.extentID (compactHead w.stored).1.offset := by
  refine (hc.covered_or_since hp).imp ?_ id
  rintro ⟨t, ht, hh⟩
  obtain ⟨y, hy, hyk⟩ := hh.exists_key
  rw [← hyk]
  rcases mem_append.mp ht with ht | ht
  · exact reached_of_mem ⟨t, ht, hy⟩
  · exact h.stored y ⟨t, ht, hy⟩

/-- It is reached by what a read can find, or it is still to be replayed. -/
theorem World.Reaching.reached_or_todo (hb : w.Base) (hc : w.Checkpoint) (hrp : w.rp = some rp)
    (hp : p ∈ w.acked) : Reached w.log rp.toLsm.visible p.log.key ∨ p ∈ rp.mode.todo := by
  refine ((hc.rp rp hrp).kept p hp).imp ?_ id
  rintro (⟨t, ht, hh⟩ | ⟨ft, hft, hh⟩ | hh)
  all_goals
    obtain ⟨y, hy, hyk⟩ := hh.exists_key
    rw [← hyk]
  · rcases mem_append.mp ht with ht | ht
    · exact reached_of_mem (.inr ⟨t, ht, hy⟩)
    · exact ((h.rp rp hrp).merged y ⟨t, ht, hy⟩).trans fun z hz => reached_of_mem (.inr hz)
  · exact reached_of_mem ((hb.rp rp hrp).sane.mem_visible_of_task hft hy)
  · exact reached_of_mem (Lsm.mem_visible.mpr (.inl hy))

end

end Autumn
