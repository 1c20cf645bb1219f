import Autumn.RangePartition.Steps

/-!
# Where pairs come from

Everything a partition stores was once an entry of the log.  `World.Base` says this for a whole
state, together with the facts that go with it: the flush queue is sane, versions are positive,
entries were made by `Write` or `Delete`, and positions written into requests are those of the
blocks.  It holds in every state of every run (`World.Base.step`), whatever fails or crashes.
-/

namespace Autumn

open Lib Y List LogStream World

/-! ## What is made of one entry -/

/-- The entry of a `Write` or a `Delete`. -/
def Plain (e : Entry) : Prop :=
  (∃ key value ts, e = writeEntry key value ts) ∨ ∃ key ts, e = deleteEntry key ts

/-- The entry is a deletion. -/
def isDelete (e : Entry) : Bool := e.metaBits != 0

theorem RangePartition.Draws.plain {rp : RangePartition} {e : Entry} (h : rp.Draws e) :
    Plain e := by
  rcases h with ⟨_, key, value, rfl⟩ | ⟨key, _, rfl⟩
  · exact .inl ⟨key, value, _, rfl⟩
  · exact .inr ⟨key, _, rfl⟩

theorem Plain.metaBits_eq {e : Entry} (h : Plain e) : e.metaBits = 0 ∨ e.metaBits = 1 := by
  rcases h with ⟨key, value, ts, rfl⟩ | ⟨key, ts, rfl⟩
  · exact .inl rfl
  · exact .inr rfl

theorem Plain.expiresAt_eq {e : Entry} (h : Plain e) : e.expiresAt = 0 := by
  rcases h with ⟨key, value, ts, rfl⟩ | ⟨key, ts, rfl⟩
  · rfl
  · rfl

theorem expiresAt_lsmPair (ei : EntryInfo) : (lsmPair ei).2.expiresAt = ei.log.expiresAt := by
  rw [lsmPair, lsmValue]
  split_ifs <;> rfl

theorem or_bitValuePointer_and_bitDelete (m : UInt8) :
    (m ||| bitValuePointer) &&& bitDelete = m &&& bitDelete := by
  apply UInt8.toNat_inj.mp
  rw [UInt8.toNat_and, UInt8.toNat_or, Nat.and_or_distrib_right, UInt8.toNat_and]
  exact Nat.or_zero _

theorem isDeleted_lsmPair_eq (ei : EntryInfo) :
    (lsmPair ei).2.isDeleted = decide (ei.log.metaBits.toUInt8 &&& bitDelete > 0) := by
  rw [lsmPair, lsmValue]
  split_ifs
  · rfl
  · simp only [ValueStruct.decoded, ValueStruct.isDeleted, or_bitValuePointer_and_bitDelete]

theorem isDeleted_lsmPair {p : EntryInfo} (h : Plain p.log) :
    (lsmPair p).2.isDeleted = isDelete p.log ∧
      (lsmPair (replayInfo p)).2.isDeleted = isDelete p.log := by
  have hreplay : (lsmPair (replayInfo p)).2.isDeleted = (lsmPair p).2.isDeleted := by
    rw [isDeleted_lsmPair_eq, isDeleted_lsmPair_eq, replayInfo]
    split_ifs
    · rfl
    · simp only [UInt32.toUInt8_or, UInt8.toUInt8_toUInt32, or_bitValuePointer_and_bitDelete]
  rw [hreplay, isDeleted_lsmPair_eq, and_self, isDelete]
  rcases h.metaBits_eq with hmeta | hmeta <;> rw [hmeta] <;> decide

/-! ## Where pairs come from -/

/-- The pair is what a live or a replayed `Put` stores for an entry of the log. -/
def Traced (log : LogStream) (x : Pair) : Prop :=
  ∃ p ∈ log.placed, x = lsmPair p ∨ x = lsmPair (replayInfo p)

/-- What holds of a partition over its log in every run. -/
structure RangePartition.Base (rp : RangePartition) (log : LogStream) : Prop where
  sane : rp.toLsm.Sane
  inFlight_sound : ∀ e ∈ rp.inFlight, Plain e ∧ 0 < e.key.ts
  infos_traced : ∀ ei ∈ rp.writer.infos, ∃ p ∈ log.placed, lsmPair ei = lsmPair p
  todo_placed : ∀ p ∈ rp.mode.todo, p ∈ log.placed
  visible_traced : ∀ x ∈ rp.toLsm.visible, Traced log x

/-- What holds of the whole state in every run. -/
structure World.Base (w : World) : Prop where
  log_wf : w.log.WellFormed
  log_sound : ∀ p ∈ w.log.placed, Plain p.log ∧ 0 < p.log.key.ts
  stored_traced : ∀ x ∈ tablePairs w.stored, Traced w.log x
  rp : ∀ rp, w.rp = some rp → rp.Base w.log

variable {log : LogStream} {rp : RangePartition} {p : EntryInfo} {env : Env} {bs : List LogBlock}
  {id o : ℕ}
variable {w : World} {reqs : List Entry}

theorem Traced.mono {log' : LogStream} (h : ∀ p ∈ log.placed, p ∈ log'.placed) {x : Pair}
    (hx : Traced log x) : Traced log' x := by
  obtain ⟨p, hp, hxp⟩ := hx
  exact ⟨p, h p hp, hxp⟩

/-- A traced pair has the key of its entry, is a deletion if the entry is, and does not expire. -/
theorem World.Base.exists_entry (h : w.Base) {x : Pair} (hx : Traced w.log x) :
    ∃ p ∈ w.log.placed, x.1 = p.log.key ∧ x.2.isDeleted = isDelete p.log ∧ x.2.expiresAt = 0 := by
  obtain ⟨p, hp, hxp⟩ := hx
  have hplain := (h.log_sound p hp).1
  have hdel := isDeleted_lsmPair hplain
  refine ⟨p, hp, ?_⟩
  rcases hxp with rfl | rfl
  · exact ⟨rfl, hdel.1, (expiresAt_lsmPair p).trans hplain.expiresAt_eq⟩
  · have hexp : (replayInfo p).log.expiresAt = p.log.expiresAt := by
      rw [replayInfo]
      split_ifs <;> rfl
    exact ⟨replayInfo_key p, hdel.2, by rw [expiresAt_lsmPair, hexp, hplain.expiresAt_eq]⟩

theorem World.Base.expiresAt_eq (h : w.Base) {x : Pair} (hx : Traced w.log x) :
    x.2.expiresAt = 0 := by
  obtain ⟨_, _, _, _, hexp⟩ := h.exists_entry hx
  exact hexp

theorem World.Base.visible_pos (h : w.Base) (hrp : w.rp = some rp) :
    ∀ x ∈ rp.toLsm.visible, 0 < x.1.ts := by
  intro x hx
  obtain ⟨p, hp, hkey, -⟩ := h.exists_entry ((h.rp rp hrp).visible_traced x hx)
  rw [hkey]
  exact (h.log_sound p hp).2

/-! ## A batch and its blocks -/

theorem lsmPair_eq_of_sameEntry {q : ℕ × EntryInfo} (h : SameEntry p q) :
    lsmPair p = lsmPair q.2 := by
  obtain ⟨hlog, hpos⟩ := h
  rw [lsmPair, lsmPair, lsmValue, lsmValue, ← hlog]
  split_ifs with hs
  · rfl
  · rcases hpos with hpos | ⟨he, ho⟩
    · exact absurd hpos hs
    · rw [he, ho]

theorem map_snd_tagged (reqs : List Entry) : (tagged reqs).map Prod.snd = reqs := by
  rw [tagged, map_map]
  exact zipIdx_map_fst 0 reqs

theorem log_mem_of_mem_placedAt (hb : batchBlocks env reqs = some bs) (hp : p ∈ placedAt id o bs) :
    p.log ∈ reqs := by
  obtain ⟨q, hq, hpq⟩ := exists_right_of_mem (forall₂_placedAt_fillPositions id o hb) hp
  have hmem : q.2.log ∈ (fillPositions id o (env.sortEntries.sort (tagged reqs))).map
      fun x => x.2.log := mem_map_of_mem hq
  rw [map_log_fillPositions, ((env.sortEntries.perm (tagged reqs)).map Prod.snd).mem_iff,
    map_snd_tagged] at hmem
  exact hpq.1 ▸ hmem

/-- The requests see the entries of the batch, whatever order the append has used. -/
theorem map_log_requestOrder_perm (env : Env) (id o : ℕ) (reqs : List Entry) :
    ((requestOrder (fillPositions id o (env.sortEntries.sort (tagged reqs)))).map
      EntryInfo.log).Perm reqs := by
  rw [requestOrder, map_map]
  have h1 := (perm_insertionSort (fun a b : ℕ × EntryInfo => a.1 ≤ b.1)
    (fillPositions id o (env.sortEntries.sort (tagged reqs)))).map fun x => x.2.log
  refine h1.trans ?_
  rw [map_log_fillPositions]
  have h2 := (env.sortEntries.perm (tagged reqs)).map Prod.snd
  rwa [map_snd_tagged] at h2

theorem exists_placed_of_mem_requestOrder {es : List (ℕ × Entry)}
    (hb : entriesToBlocks es = some bs) {ei : EntryInfo}
    (hei : ei ∈ requestOrder (fillPositions id o es)) :
    ∃ p ∈ placedAt id o bs, lsmPair ei = lsmPair p := by
  obtain ⟨q, hq, rfl⟩ := mem_requestOrder.mp hei
  obtain ⟨p, hp, hpq⟩ := exists_right_of_mem (forall₂_placedAt_fillPositions id o hb).flip hq
  exact ⟨p, hp, (lsmPair_eq_of_sameEntry hpq).symm⟩

theorem exists_mem_requestOrder_of_placed {es : List (ℕ × Entry)}
    (hb : entriesToBlocks es = some bs) (hp : p ∈ placedAt id o bs) :
    ∃ ei ∈ requestOrder (fillPositions id o es), lsmPair ei = lsmPair p := by
  obtain ⟨q, hq, hpq⟩ := exists_right_of_mem (forall₂_placedAt_fillPositions id o hb) hp
  exact ⟨q.2, mem_requestOrder.mpr ⟨q, hq, rfl⟩, (lsmPair_eq_of_sameEntry hpq).symm⟩

theorem mem_placedAt_of_take {n : ℕ} (hp : p ∈ placedAt id o (bs.take n)) :
    p ∈ placedAt id o bs := by
  rw [← take_append_drop n bs, placedAt_append]
  exact mem_append_left _ hp

/-! ## The invariant -/

theorem placed_init (id : ℕ) : (init id).log.placed = [] := by
  simp [init, placed, placedList, exs, LogExtent.placed, placedAt]

theorem base_init (hid : id ≠ 0) : (init id).Base where
  log_wf := by
    refine ⟨?_, fun x hx => ?_⟩
    · simp [init, exs]
    · rw [show x = ⟨id, []⟩ by simpa [init, exs] using hx]
      exact hid
  log_sound := by simp [placed_init]
  stored_traced := by
    rintro x ⟨t, ht, _⟩
    simp [init] at ht
  rp := by simp [init]

theorem mem_inFlight_of_placedAt (hw : rp.writer = .appending reqs)
    (hb : batchBlocks env reqs = some bs) (hp : p ∈ placedAt id o bs) : p.log ∈ rp.inFlight := by
  have hmem := log_mem_of_mem_placedAt hb hp
  simp [RangePartition.inFlight, Writer.pending, hw, hmem]

theorem RangePartition.Base.mono {log' : LogStream} (h : rp.Base log)
    (hlog : ∀ p ∈ log.placed, p ∈ log'.placed) : rp.Base log' :=
  { h with
    infos_traced := fun ei hei =>
      let ⟨p, hp, heq⟩ := h.infos_traced ei hei
      ⟨p, hlog p hp, heq⟩
    todo_placed := fun p hp => hlog p (h.todo_placed p hp)
    visible_traced := fun x hx => (h.visible_traced x hx).mono hlog }

theorem RangePartition.Base.step {rp' : RangePartition} {a : LocalAction} (h : rp.Base log)
    (hs : LocalStep env rp a rp') : rp'.Base log := by
  have hlsm : rp'.toLsm.Sane ∧ ∀ x ∈ rp'.toLsm.visible, Traced log x := by
    rcases hs.lsm_cases with heq | ⟨op, hop, hmakes⟩
    · rw [heq]
      exact ⟨h.sane, h.visible_traced⟩
    · refine ⟨h.sane.step hop, fun x hx => ?_⟩
      rcases Lsm.mem_visible_of_step h.sane hop hx with hx | ⟨key, vs, height, rfl, rfl⟩
      · exact h.visible_traced x hx
      · obtain ⟨ei, rfl, rfl, hei | ⟨p, hp, rfl⟩⟩ := hmakes
        · obtain ⟨p, hp, heq⟩ := h.infos_traced ei hei
          exact ⟨p, hp, .inl heq⟩
        · exact ⟨p, h.todo_placed p (Mode.current_subset_todo hp), .inr rfl⟩
  refine ⟨hlsm.1, fun e he => ?_, fun ei hei => h.infos_traced ei (hs.mem_infos hei),
    fun p hp => h.todo_placed p (hs.todo_sublist.subset hp), hlsm.2⟩
  rcases hs.inFlight_cases with hsub | ⟨e₀, hd, -, hsub⟩
  · exact h.inFlight_sound e (hsub e he)
  · rcases hsub e he with he | rfl
    · exact h.inFlight_sound e he
    · exact ⟨hd.plain, by rw [hd.ts_eq]; omega⟩

theorem mem_placed_append (bs : List LogBlock) (hp : p ∈ log.placed) :
    p ∈ (log.append bs).placed := by
  rw [placed_append]
  exact mem_append_left _ hp

theorem RangePartition.Base.lsm (h : rp.Base log) {op : LsmOp} {lsm : Lsm}
    (hs : LsmStep rp.toLsm op lsm) (hop : op = .saved ∨ op = .compactFinish) :
    ({ rp with toLsm := lsm } : RangePartition).Base log := by
  refine { h with sane := h.sane.step hs, visible_traced := fun x hx => ?_ }
  rcases Lsm.mem_visible_of_step h.sane hs hx with hx | ⟨key, vs, height, rfl, -⟩
  · exact h.visible_traced x hx
  · simp at hop

theorem mem_updateTableLocs {stored tables : List Table} {t : Table}
    (h : t ∈ updateTableLocs stored tables) : t ∈ stored ∨ t ∈ tables := by
  rw [updateTableLocs] at h
  split_ifs at h
  · exact .inl h
  · exact .inr h

theorem forall_updateTableLocs {stored tables : List Table} {P : Pair → Prop}
    (hs : ∀ x ∈ tablePairs stored, P x) (ht : ∀ x ∈ tablePairs tables, P x) :
    ∀ x ∈ tablePairs (updateTableLocs stored tables), P x := by
  rintro x ⟨t, hmem, hx⟩
  exact (mem_updateTableLocs hmem).elim (hs x ⟨t, ·, hx⟩) (ht x ⟨t, ·, hx⟩)

/-- An append of some blocks of the batch. -/
theorem World.Base.append (h : w.Base) (hrp : w.rp = some rp) (hw : rp.writer = .appending reqs)
    (hb : batchBlocks env reqs = some bs) {bs' : List LogBlock}
    (hsub : ∀ p ∈ placedAt w.log.last.id w.log.tail bs', p ∈ placedAt w.log.last.id w.log.tail bs) :
    ({ w with log := w.log.append bs' } : World).Base := by
  have hmono : ∀ p ∈ w.log.placed, p ∈ (w.log.append bs').placed := fun p => mem_placed_append _
  refine ⟨h.log_wf.append _, fun p hp => ?_, fun x hx => (h.stored_traced x hx).mono hmono,
    fun rp hrp => (h.rp rp hrp).mono hmono⟩
  rw [placed_append, mem_append] at hp
  rcases hp with hp | hp
  · exact h.log_sound p hp
  · exact (h.rp rp hrp).inFlight_sound p.log (mem_inFlight_of_placedAt hw hb (hsub p hp))

theorem World.Base.step {w' : World} {a : Action} (h : w.Base) (hs : WorldStep env w a w') :
    w'.Base := by
  cases hs with
  | loc hrp hs => exact { h with rp := forall_of_some ((h.rp _ hrp).step hs) }
  | @newExtent id hid h0 hlt =>
    have hmono : ∀ p ∈ w.log.placed, p ∈ (w.log.newExtent id).placed := by
      intro p hp
      rwa [placed_newExtent]
    refine ⟨h.log_wf.newExtent hid h0, ?_, fun x hx => (h.stored_traced x hx).mono hmono,
      fun rp hrp => (h.rp rp hrp).mono hmono⟩
    rw [placed_newExtent]
    exact h.log_sound
  | appendGarbage hrp hw hb hlen => exact h.append hrp hw hb fun p => mem_placedAt_of_take
  | @appendOk rp reqs bs hrp hw hb hlen =>
    have hgrown := h.append hrp hw hb fun _ hp => hp
    have hm := hgrown.rp rp hrp
    refine { hgrown with rp := forall_of_some { hm with
      inFlight_sound := fun e he => hm.inFlight_sound e
        (RangePartition.mem_inFlight_of_writer rfl he)
      infos_traced := fun ei hei => ?_ } }
    obtain ⟨p, hp, heq⟩ := exists_placed_of_mem_requestOrder hb hei
    refine ⟨p, ?_, heq⟩
    rw [placed_append]
    exact mem_append_right _ hp
  | @finish rp head placed hrp hw =>
    have hb := h.rp rp hrp
    exact { h with rp := forall_of_some { hb with
      inFlight_sound := fun e he => hb.inFlight_sound e
        (RangePartition.mem_inFlight_of_writer rfl he)
      infos_traced := by simp [Writer.infos] } }
  | @store rp lsm hrp hs =>
    have hb := h.rp rp hrp
    exact { h with
      stored_traced := forall_updateTableLocs h.stored_traced fun x hx =>
        hb.visible_traced x (.inr hx)
      rp := forall_of_some (hb.lsm hs (.inl rfl)) }
  | @compactFinish rp c lsm hrp hc hs =>
    have hb := (h.rp rp hrp).lsm hs (.inr rfl)
    exact { h with
      stored_traced := forall_updateTableLocs h.stored_traced fun x hx =>
        hb.visible_traced x (.inr hx)
      rp := forall_of_some hb }
  | openPartition hrp =>
    refine { h with rp := forall_of_some ⟨Lsm.sane_opened _, by simp [RangePartition.inFlight,
      openRangePartition, Writer.pending], by simp [openRangePartition, Writer.infos],
      fun p hp => ?_, fun x hx => ?_⟩ }
    · exact (w.log.since_sublist _ _).subset hp
    · exact h.stored_traced x (Lsm.visible_opened w.stored ▸ hx)
  | closeEnd hrp | crash => exact { h with rp := by simp }

end Autumn
