import Autumn.RangePartition.Sequence
import Autumn.RangePartition.Checkpoint
import Autumn.RangePartition.MapRefinement

/-!
# Versions are not used twice

The sequence number is kept in memory only.  A partition that is opened again takes it from its
tables and from the log, and if it comes out too small, a version is drawn a second time.  As long
as the replay keeps up with the versions it delivers (`DeliversNext`), every version in the log is
at most the sequence number, or is still to be replayed.

A rotation stamps its table with a number above every version in the log, so what lies before the
position of a table is at most its `LastSeq`; compactions keep position and number together
(`Lsm.stamps_of_step`).  So an internal key stands for one entry, and the pairs made of it agree on
whether it is a deletion (`World.Authentic.isDeleted_eq`).
-/

namespace Autumn

open Lib Y List LogStream Lsm World

variable {e : Entry}

/-! ## The invariant -/

/-- The versions in front of a position are at most `n`. -/
def UpTo (log : LogStream) (e o n : ℕ) : Prop := ∀ p ∈ log.before e o, p.log.key.ts ≤ n

theorem upTo_start (log : LogStream) (n : ℕ) : UpTo log 0 0 n := by
  intro p hp
  simp [before] at hp

/-- A partition draws new versions only. -/
structure RangePartition.Authentic (rp : RangePartition) (log : LogStream) : Prop where
  distinct : ∀ e ∈ rp.inFlight, ∀ f ∈ rp.inFlight, e.key = f.key → e = f
  fresh : ∀ e ∈ rp.inFlight, ∀ p ∈ log.placed, p.log.key = e.key → p.log = e
  below : ∀ p ∈ log.placed, p ∈ rp.mode.todo ∨ p.log.key.ts ≤ rp.seqNumber
  stamps : ∀ e o n, rp.toLsm.Stamps e o n → UpTo log e o n
  quiet : rp.mode.todo ≠ [] → rp.deletes = [] ∧ rp.checked = []

/-- The log holds one entry for an internal key. -/
structure World.Authentic (w : World) : Prop where
  unique : ∀ p ∈ w.log.placed, ∀ q ∈ w.log.placed, p.log.key = q.log.key → p.log = q.log
  stored : ∀ t ∈ w.stored, UpTo w.log t.vpExtentID t.vpOffset t.lastSeq
  rp : ∀ rp, w.rp = some rp → rp.Authentic w.log

/-! ## Steps within the process -/

variable {w : World}

section Local

variable {env : Env} {rp rp' : RangePartition} {a : LocalAction}

theorem todo_eq_nil_of_isOpen {m : Mode} (h : m.isOpen = true) : m.todo = [] := by
  cases m <;> simp [Mode.isOpen] at h <;> rfl

/-- When a caller draws a version, nothing is left to replay. -/
theorem RangePartition.Authentic.todo_eq_nil {log : LogStream} (h : rp.Authentic log)
    (hd : rp.Draws e) : rp.mode.todo = [] := by
  rcases hd with ⟨ho, _⟩ | ⟨key, hk, _⟩
  · exact todo_eq_nil_of_isOpen ho
  · by_contra hne
    rw [(h.quiet hne).2] at hk
    cases hk

theorem LocalStep.quiet (hs : LocalStep env rp a rp')
    (h : rp.mode.todo ≠ [] → rp.deletes = [] ∧ rp.checked = []) :
    rp'.mode.todo ≠ [] → rp'.deletes = [] ∧ rp'.checked = [] := by
  intro hne
  have hold : rp.mode.todo ≠ [] := fun hnil => hne (sublist_nil.mp (hnil ▸ hs.todo_sublist))
  obtain ⟨hdel, hchk⟩ := h hold
  cases hs with
  | deleteMem ho => exact absurd (todo_eq_nil_of_isOpen ho) hold
  | deleteMiss hd | deleteHit hd => simp [hdel] at hd
  | deleteDraw hk => simp [hchk] at hk
  | _ => exact ⟨hdel, hchk⟩

/-- A rotation finds versions below its number in front of its position. -/
theorem RangePartition.Authentic.upTo_of_rotate (h : rp.Authentic w.log) (hc : rp.Checkpoint w)
    (hwf : w.log.WellFormed) (htodo : ∀ p ∈ rp.mode.todo, p ∈ w.log.placed) {vptr : ValuePointer}
    {seqNum : ℕ} (hmakes : rp.Makes (.rotate vptr seqNum)) :
    UpTo w.log vptr.extentID vptr.offset seqNum := by
  intro p hp
  obtain ⟨rfl, hpos⟩ := hmakes
  rcases h.below p (mem_placed_of_mem_before hp) with hk | hle
  · exfalso
    exact hc.not_mem_todo_of_rotate hwf htodo ⟨rfl, hpos⟩ hp hk
  · exact hle.trans (Nat.le_succ _)

theorem RangePartition.Authentic.step (h : rp.Authentic w.log) (hc : rp.Checkpoint w)
    (hb : rp.Base w.log) (hn : rp.Numbered) (hwf : w.log.WellFormed) (hs : LocalStep env rp a rp') :
    rp'.Authentic w.log := by
  have hle := hs.seqNumber_le
  have hflight :
      (∀ e ∈ rp'.inFlight, ∀ f ∈ rp'.inFlight, e.key = f.key → e = f) ∧
      ∀ e ∈ rp'.inFlight, ∀ p ∈ w.log.placed, p.log.key = e.key → p.log = e := by
    rcases hs.inFlight_cases with hsub | ⟨e₀, hd, _, hsub⟩
    · exact ⟨fun e he f hf => h.distinct e (hsub e he) f (hsub f hf),
        fun e he => h.fresh e (hsub e he)⟩
    · -- The version that is drawn is above all others.
      have habove : ∀ e ∈ rp.inFlight, e.key ≠ e₀.key := by
        intro e he heq
        have hle := hn.inFlight e he
        rw [heq, hd.ts_eq] at hle
        omega
      refine ⟨fun e he f hf hef => ?_, fun e he p hp hpe => ?_⟩
      · rcases hsub e he with he | rfl <;> rcases hsub f hf with hf | rfl
        · exact h.distinct e he f hf hef
        · exact absurd hef (habove e he)
        · exact absurd hef.symm (habove f hf)
        · rfl
      · rcases hsub e he with he | rfl
        · exact h.fresh e he p hp hpe
        · rcases h.below p hp with hk | hle
          · rw [h.todo_eq_nil hd] at hk
            cases hk
          · rw [hpe, hd.ts_eq] at hle
            omega
  refine ⟨hflight.1, hflight.2, fun p hp => ?_, fun e o n hm => ?_, hs.quiet h.quiet⟩
  · rcases h.below p hp with hk | hk
    · exact (hs.todo_or_holds hk).imp id fun hk => (hn.current p hk.1).trans hle
    · exact .inr (hk.trans hle)
  · rcases hs.lsm_cases with heq | ⟨op, hop, hmakes⟩
    · exact h.stamps e o n (heq ▸ hm)
    · rcases stamps_of_step hb.sane hop hm with hm | ⟨rfl, rfl⟩ | ⟨vptr, rfl, rfl, rfl⟩
      · exact h.stamps e o n hm
      · exact upTo_start _ n
      · exact h.upTo_of_rotate hc hwf hb.todo_placed hmakes

theorem RangePartition.Authentic.shrink {log : LogStream} (h : rp.Authentic log)
    {head : ValuePointer} {writer : Writer}
    (hsub : ∀ e ∈ ({ rp with vhead := head, writer := writer } : RangePartition).inFlight,
      e ∈ rp.inFlight) :
    ({ rp with vhead := head, writer := writer } : RangePartition).Authentic log :=
  { h with
    distinct := fun e he f hf => h.distinct e (hsub e he) f (hsub f hf)
    fresh := fun e he => h.fresh e (hsub e he) }

end Local

/-! ## Steps of the machine -/

/-- The log grows by entries that are in flight, if at all. -/
theorem World.Authentic.grows (h : w.Authentic) (hc : w.Checkpoint) (hn : w.Numbered)
    {log' : LogStream} (hg : LogGrows w.log log')
    (hnew : ∀ p ∈ log'.placed, p ∈ w.log.placed ∨ ∃ rp, w.rp = some rp ∧ p.log ∈ rp.inFlight) :
    ({ w with log := log' } : World).Authentic := by
  refine ⟨fun p hp q hq hpq => ?_, fun t ht => ?_, fun rp hrp => ?_⟩
  · rcases hnew p hp with hp | ⟨rp, hrp, hp⟩ <;> rcases hnew q hq with hq | ⟨rp', hrp', hq⟩
    · exact h.unique p hp q hq hpq
    · exact (h.rp rp' hrp').fresh q.log hq p hp hpq
    · exact ((h.rp rp hrp).fresh p.log hp q hq hpq.symm).symm
    · cases hrp.symm.trans hrp'
      exact (h.rp rp hrp).distinct p.log hp q.log hq hpq
  · rw [UpTo, hg.before _ _ (hc.stored_valid _ _ ⟨t, ht, rfl, rfl⟩)]
    exact h.stored t ht
  · have ha := h.rp rp hrp
    have hnew' : ∀ p ∈ log'.placed, p ∈ w.log.placed ∨ p.log ∈ rp.inFlight := by
      intro p hp
      refine (hnew p hp).imp id ?_
      rintro ⟨rp', hrp', hp⟩
      cases hrp.symm.trans hrp'
      exact hp
    refine { ha with
      fresh := fun e he p hp hpe => ?_
      below := fun p hp => ?_
      stamps := fun e o n hm => ?_ }
    · rcases hnew' p hp with hp | hp
      · exact ha.fresh e he p hp hpe
      · exact ha.distinct p.log hp e he hpe
    · rcases hnew' p hp with hp | hp
      · exact ha.below p hp
      · exact .inr ((hn.rp rp hrp).inFlight p.log hp)
    · rw [UpTo, hg.before e o ((hc.rp rp hrp).valid e o (.inl (marks_iff.mpr ⟨n, hm⟩)))]
      exact ha.stamps e o n hm

theorem World.Authentic.store (h : w.Authentic) {rp : RangePartition} {lsm : Lsm} {op : LsmOp}
    (tbls : List Table) (hrp : w.rp = some rp) (hsane : rp.toLsm.Sane)
    (hs : LsmStep rp.toLsm op lsm) (hop : ∀ vptr seqNum, op ≠ .rotate vptr seqNum) :
    ({ w with
      rp := some { rp with toLsm := lsm }
      stored := updateTableLocs w.stored lsm.tables
      merged := w.merged ++ tbls } : World).Authentic := by
  have ha := h.rp rp hrp
  have hstamps : ∀ e o n, lsm.Stamps e o n → UpTo w.log e o n := by
    intro e o n hm
    rcases stamps_of_step hsane hs hm with hm | ⟨rfl, rfl⟩ | ⟨vptr, rfl, _⟩
    · exact ha.stamps e o n hm
    · exact upTo_start _ n
    · exact absurd rfl (hop vptr n)
  exact { h with
    stored := fun t ht => (mem_updateTableLocs ht).elim (h.stored t)
      fun ht => hstamps _ _ _ (.inl ⟨t, ht, rfl, rfl, rfl⟩)
    rp := forall_of_some { ha with stamps := hstamps } }

/-- An opened partition has the sequence number of the table from whose position it replays. -/
theorem World.Authentic.openPartition (h : w.Authentic) (hc : w.Checkpoint) :
    ({ w with rp := some (openRangePartition w.log w.stored) } : World).Authentic := by
  have hnil : (openRangePartition w.log w.stored).inFlight = [] := rfl
  refine { h with rp := forall_of_some ⟨by simp [hnil], by simp [hnil],
    fun p hp => ?_, fun e o n hm => ?_, fun _ => ⟨rfl, rfl⟩⟩ }
  · rcases hc.before_or_since hp with ⟨t, ht, hbefore, heq⟩ | hsince
    · exact .inr ((h.stored t ht p hbefore).trans_eq heq.symm)
    · exact .inl hsince
  · rcases hm with ⟨t, ht, rfl, rfl, rfl⟩ | ⟨ft, hft, _⟩
    · exact h.stored t ht
    · simp [openRangePartition, opened, pendingTasks, Flusher.unbuilt] at hft

theorem World.Authentic.step {env : Env} {w' : World} {a : Action} (h : w.Authentic) (hb : w.Base)
    (hc : w.Checkpoint) (hn : w.Numbered) (hs : WorldStep env w a w') : w'.Authentic := by
  cases hs with
  | @loc a rp rp' hrp hs =>
    have ha := (h.rp rp hrp).step (hc.rp rp hrp) (hb.rp rp hrp) (hn.rp rp hrp) hb.log_wf hs
    exact { h with rp := forall_of_some ha }
  | newExtent hid h0 hlt =>
    refine h.grows hc hn (logGrows_newExtent _ _) fun p hp => .inl ?_
    rwa [placed_newExtent] at hp
  | @appendGarbage n rp reqs bs hrp hw hbs hlen =>
    refine h.grows hc hn (logGrows_append hb.log_wf _) fun p hp => ?_
    rw [placed_append, mem_append] at hp
    exact hp.imp id fun hp => ⟨rp, hrp, mem_inFlight_of_placedAt hw hbs (mem_placedAt_of_take hp)⟩
  | @appendOk rp reqs bs hrp hw hbs hlen =>
    have hgrown := h.grows hc hn (logGrows_append hb.log_wf bs) fun p hp => by
      rw [placed_append, mem_append] at hp
      exact hp.imp id fun hp => ⟨rp, hrp, mem_inFlight_of_placedAt hw hbs hp⟩
    exact { hgrown with
      rp := forall_of_some ((hgrown.rp rp hrp).shrink fun e =>
        RangePartition.mem_inFlight_of_writer rfl) }
  | @finish rp head placed hrp hw =>
    exact { h with
      rp := forall_of_some ((h.rp rp hrp).shrink fun e =>
        RangePartition.mem_inFlight_of_writer rfl) }
  | @store rp lsm hrp hs =>
    have htab : lsm.tables = rp.tables := by cases hs; rfl
    have hst := h.store [] hrp (hb.rp rp hrp).sane hs (by simp)
    simpa only [htab, append_nil] using hst
  | @compactFinish rp c lsm hrp hcomp hs =>
    exact h.store c.tbls hrp (hb.rp rp hrp).sane hs (by simp)
  | openPartition hrp => exact h.openPartition hc
  | closeEnd hrp | crash => exact { h with rp := by simp }

theorem authentic_init (id : ℕ) : (init id).Authentic where
  unique := by simp [placed_init]
  stored := by simp [init]
  rp := by simp [init]

/-- **No version is used twice** in a run whose replays keep up with the versions they deliver. -/
theorem authentic_of_exec {env : Env} {id : ℕ} (hid : id ≠ 0) {as : List Action}
    (hrun : exec (step env) (init id) as = some w)
    (hg : Guarded (step env) DeliversNext (init id) as) :
    (w.Base ∧ w.Checkpoint) ∧ w.Numbered ∧ w.Authentic := by
  refine exec_invariant (I := fun w => (w.Base ∧ w.Checkpoint) ∧ w.Numbered ∧ w.Authentic)
    (fun s a s' hI hG hs => ?_)
    ⟨⟨base_init hid, checkpoint_init id⟩, numbered_init id, authentic_init id⟩ hg hrun
  obtain ⟨⟨hb, hc⟩, hn, ha⟩ := hI
  have hs := step_cases hs
  exact ⟨⟨hb.step hs, hc.step hb hs⟩, hn.step hb hG hs, ha.step hb hc hn hs⟩

theorem World.Authentic.isDeleted_eq (h : w.Authentic) (hb : w.Base) {x y : Pair}
    (hx : Traced w.log x) (hy : Traced w.log y) (hxy : x.1 = y.1) :
    x.2.isDeleted = y.2.isDeleted := by
  obtain ⟨p, hp, hpk, hpd, -⟩ := hb.exists_entry hx
  obtain ⟨q, hq, hqk, hqd, -⟩ := hb.exists_entry hy
  rw [hpd, hqd, h.unique p hp q hq (hpk.symm.trans (hxy.trans hqk))]

end Autumn
