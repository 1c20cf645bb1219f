import Autumn.Lib.Run
import Autumn.Manager.Etcd

/-!
# The stream with the most to discard

The discard manager counts for every blob stream the bytes that nobody refers to any more.
`MaxDiscard` names the stream the garbage collection should rewrite.  Go maps are functions into
`Option`; where the code goes through a map, the order is that of any list of its entries (`Lists`).
-/

namespace Autumn
namespace Discard

open Lib Manager List Function

/-! ## The code -/

/-- `discardManager`.  A nil map of streams is `none`. -/
structure DiscardManager where
  streams : Option (ℕ → Option StreamInfo)
  reverseIndex : ℕ → List ℕ
  discardOfStream : ℕ → Option ℤ

/-- `l` is an order in which a `range` over the map may go. -/
structure Lists {β : Type*} (m : ℕ → Option β) (l : List (ℕ × β)) : Prop where
  nodup : (l.map Prod.fst).Nodup
  mem_iff : ∀ k v, (k, v) ∈ l ↔ m k = some v

/-- `reverseIndex[extentID] = append(reverseIndex[extentID], f(extentID))` for some extents. -/
def index (f : ℕ → ℕ) (idx : ℕ → List ℕ) (extentIDs : List ℕ) : ℕ → List ℕ :=
  extentIDs.foldl (fun idx e => Function.update idx e (idx e ++ [f e])) idx

/-- `NewDiscardManager`; `order` lists the map. -/
def newDiscardManager (si : Option (ℕ → Option StreamInfo)) (order : List (ℕ × StreamInfo)) :
    DiscardManager where
  streams := si
  reverseIndex := order.foldl (fun idx x => index (fun _ => x.1) idx x.2.extentIDs) fun _ => []
  discardOfStream := fun _ => none

/-- `discardOfStream[streamID] += discard`, an `int64`. -/
def credit (discard : ℤ) (m : ℕ → Option ℤ) (streamID : ℕ) : ℕ → Option ℤ :=
  Function.update m streamID (some (((m streamID).getD 0 + discard).bmod (2 ^ 64)))

/-- `UpdateDiscardStats`, with the entries of its map. -/
def updateDiscardStats (dsm : DiscardManager) (stats : List (ℕ × ℤ)) : DiscardManager :=
  { dsm with
    discardOfStream := stats.foldl (fun m x => (dsm.reverseIndex x.1).foldl (credit x.2) m)
      dsm.discardOfStream }

/-- `AddBlobStream`.  A nil map cannot be assigned to.  What goes into the index is the id of the
extent, not of the stream. -/
def addBlobStream (dsm : DiscardManager) (si : StreamInfo) : Option DiscardManager :=
  dsm.streams.map fun streams =>
    { dsm with
      streams := some (Function.update streams si.streamID (some si))
      reverseIndex := index id dsm.reverseIndex si.extentIDs }

/-- The loop of `MaxDiscard`: `maxDiscard` and `maxStreamID`. -/
def maxLoop (entries : List (ℕ × ℤ)) (m : ℤ × ℕ) : ℤ × ℕ :=
  entries.foldl (fun m x => if m.1 < x.2 then (x.2, x.1) else m) m

/-- `MaxDiscard`; `entries` lists `discardOfStream`.  A stream that is not there is read as the zero
value. -/
def maxDiscard (dsm : DiscardManager) (entries : List (ℕ × ℤ)) : Option StreamInfo :=
  if entries = [] then none
  else some ((dsm.streams.bind fun streams => streams (maxLoop entries (0, 0)).2).getD ⟨0, []⟩)

inductive Op where
  | addBlobStream (si : StreamInfo)
  | updateDiscardStats (stats : List (ℕ × ℤ))
  deriving DecidableEq, Repr

def step (dsm : DiscardManager) : Op → Option DiscardManager
  | .addBlobStream si => addBlobStream dsm si
  | .updateDiscardStats stats => some (updateDiscardStats dsm stats)

/-! ## What is to be counted -/

/-- A stream, with the updates made since it was registered. -/
structure Registered where
  id : ℕ
  info : StreamInfo
  updates : List (List (ℕ × ℤ))

/-- The discards of its extents. -/
def Registered.discards (r : Registered) : List (ℕ × ℤ) :=
  r.updates.flatten.filter fun x => x.1 ∈ r.info.extentIDs

def Registered.total (r : Registered) : ℤ := (r.discards.map Prod.snd).sum

def register (l : List Registered) : Op → List Registered
  | .addBlobStream si => l ++ [⟨si.streamID, si, []⟩]
  | .updateDiscardStats stats => l.map fun r => { r with updates := r.updates ++ [stats] }

/-- The streams after some operations. -/
def ledger (order : List (ℕ × StreamInfo)) (ops : List Op) : List Registered :=
  ops.foldl register (order.map fun x => ⟨x.1, x.2, []⟩)

/-- The streams with the extent, in the order of their registration. -/
def containing (l : List Registered) (e : ℕ) : List ℕ :=
  (l.filter fun r => e ∈ r.info.extentIDs).map Registered.id

/-- The manager knows where every extent is and how much every stream has to discard, and it names
one with the most, or none if none has anything. -/
structure Accurate (dsm : DiscardManager) (entries : List (ℕ × ℤ))
    (l : List Registered) : Prop where
  index : ∀ e, dsm.reverseIndex e = containing l e
  totals : ∀ r ∈ l, (dsm.discardOfStream r.id).getD 0 = r.total
  victim : (∃ r ∈ l, maxDiscard dsm entries = some r.info ∧ 0 < r.total ∧
      ∀ r' ∈ l, r'.total ≤ r.total) ∨
    maxDiscard dsm entries = none ∧ ∀ r ∈ l, r.total ≤ 0

/-! ## The index -/

theorem index_apply (f : ℕ → ℕ) (idx : ℕ → List ℕ) (extentIDs : List ℕ) (e : ℕ) :
    index f idx extentIDs e = idx e ++ replicate (extentIDs.count e) (f e) := by
  induction extentIDs generalizing idx with
  | nil => simp [index]
  | cons x extentIDs ih =>
    have hstep : index f idx (x :: extentIDs) =
      index f (update idx x (idx x ++ [f x])) extentIDs := rfl
    rw [hstep, ih]
    by_cases hx : e = x
    · subst hx
      rw [update_self, count_cons_self, replicate_succ, append_assoc]
      rfl
    · rw [update_of_ne hx, count_cons_of_ne (Ne.symm hx)]

theorem index_apply_of_nodup {extentIDs : List ℕ} (h : extentIDs.Nodup) (f : ℕ → ℕ)
    (idx : ℕ → List ℕ) (e : ℕ) :
    index f idx extentIDs e = idx e ++ if e ∈ extentIDs then [f e] else [] := by
  rw [index_apply, h.count]
  split_ifs <;> rfl

theorem containing_append (l l' : List Registered) (e : ℕ) :
    containing (l ++ l') e = containing l e ++ containing l' e := by
  simp [containing]

theorem containing_singleton (r : Registered) (e : ℕ) :
    containing [r] e = if e ∈ r.info.extentIDs then [r.id] else [] := by
  by_cases he : e ∈ r.info.extentIDs <;> simp [containing, he]

theorem foldl_index_apply {order : List (ℕ × StreamInfo)} (h : ∀ x ∈ order, x.2.extentIDs.Nodup)
    (idx : ℕ → List ℕ) (e : ℕ) :
    order.foldl (fun idx x => index (fun _ => x.1) idx x.2.extentIDs) idx e =
      idx e ++ containing (order.map fun x => ⟨x.1, x.2, []⟩) e := by
  induction order generalizing idx with
  | nil => simp [containing]
  | cons x order ih =>
    rw [foldl_cons, ih fun y hy => h y (.tail _ hy), map_cons,
      ← singleton_append, containing_append, containing_singleton,
      index_apply_of_nodup (h x (.head _)), append_assoc]

/-! ## The totals -/

/-- The entry of a stream: none before the first discard, then the total as an `int64`. -/
def record (discards : List (ℕ × ℤ)) : Option ℤ :=
  if discards = [] then none else some ((discards.map Prod.snd).sum.bmod (2 ^ 64))

theorem record_concat (discards : List (ℕ × ℤ)) (x : ℕ × ℤ) :
    record (discards ++ [x]) = some (((record discards).getD 0 + x.2).bmod (2 ^ 64)) := by
  rw [record, if_neg (by simp), map_append, sum_append, record]
  by_cases h : discards = []
  · simp [h]
  · rw [if_neg h, Option.getD_some, Int.bmod_add_bmod]
    simp

theorem foldl_credit {ids : List ℕ} (hids : ids.Nodup) (d : ℤ) (m : ℕ → Option ℤ) (s : ℕ) :
    ids.foldl (credit d) m s =
      if s ∈ ids then some (((m s).getD 0 + d).bmod (2 ^ 64)) else m s := by
  induction ids generalizing m with
  | nil => simp
  | cons i ids ih =>
    obtain ⟨hi, hids⟩ := nodup_cons.mp hids
    rw [foldl_cons, ih hids, credit]
    by_cases hs : s = i
    · subst hs
      simp [hi]
    · simp [hs]

/-- An update adds its discards to the entry of the stream. -/
theorem foldl_stats {idx : ℕ → List ℕ} (hidx : ∀ e, (idx e).Nodup) {s : ℕ} {extentIDs : List ℕ}
    (hs : ∀ e, s ∈ idx e ↔ e ∈ extentIDs) (stats : List (ℕ × ℤ)) {m : ℕ → Option ℤ}
    {discards : List (ℕ × ℤ)} (hm : m s = record discards) :
    stats.foldl (fun m x => (idx x.1).foldl (credit x.2) m) m s =
      record (discards ++ stats.filter fun x => x.1 ∈ extentIDs) := by
  induction stats generalizing m discards with
  | nil => simpa using hm
  | cons x stats ih =>
    rw [foldl_cons]
    by_cases hx : x.1 ∈ extentIDs
    · have hcredit : (idx x.1).foldl (credit x.2) m s = record (discards ++ [x]) := by
        rw [foldl_credit (hidx _), if_pos ((hs _).mpr hx), hm, record_concat]
      rw [ih hcredit, filter_cons_of_pos (by simpa using hx), append_assoc]
      rfl
    · have hcredit : (idx x.1).foldl (credit x.2) m s = record discards := by
        rw [foldl_credit (hidx _), if_neg fun h => hx ((hs _).mp h), hm]
      rw [ih hcredit, filter_cons_of_neg (by simpa using hx)]

/-! ## The invariant -/

/-- The manager counts for the streams of the ledger. -/
structure Counts (dsm : DiscardManager) (l : List Registered) : Prop where
  streams : ∃ m, dsm.streams = some m ∧ ∀ r ∈ l, m r.id = some r.info
  index : ∀ e, dsm.reverseIndex e = containing l e
  recorded : ∀ r ∈ l, dsm.discardOfStream r.id = record r.discards
  unknown : ∀ s, s ∉ l.map Registered.id → dsm.discardOfStream s = none

theorem counts_new {si : ℕ → Option StreamInfo} {order : List (ℕ × StreamInfo)}
    (hsi : Lists si order) (h : ∀ x ∈ order, x.2.extentIDs.Nodup) :
    Counts (newDiscardManager (some si) order) (ledger order []) where
  streams := by
    refine ⟨si, rfl, fun r hr => ?_⟩
    obtain ⟨x, hx, rfl⟩ := mem_map.mp hr
    exact (hsi.mem_iff x.1 x.2).mp hx
  index := foldl_index_apply h _
  recorded := fun r hr => by
    obtain ⟨x, -, rfl⟩ := mem_map.mp hr
    rfl
  unknown := fun _ _ => rfl

variable {dsm : DiscardManager} {l : List Registered}

/-- A stream is added that has no extent of another id than its own. -/
theorem Counts.addBlobStream (h : Counts dsm l) {si : StreamInfo}
    (hnew : si.streamID ∉ l.map Registered.id) (hnodup : si.extentIDs.Nodup)
    (hown : ∀ e ∈ si.extentIDs, e = si.streamID) :
    ∃ dsm', addBlobStream dsm si = some dsm' ∧ Counts dsm' (register l (.addBlobStream si)) := by
  obtain ⟨m, hm, hinfo⟩ := h.streams
  rw [Discard.addBlobStream, hm]
  refine ⟨_, rfl, ⟨_, rfl, forall_mem_concat (fun r hr => ?_) (update_self _ _ _)⟩,
    fun e => ?_, forall_mem_concat h.recorded (h.unknown _ hnew),
    fun s hs => h.unknown s fun hmem => hs ?_⟩
  · have hne : r.id ≠ si.streamID := fun heq => hnew (heq ▸ mem_map_of_mem hr)
    rw [update_of_ne hne]
    exact hinfo r hr
  · rw [register, containing_append, containing_singleton, ← h.index]
    dsimp only
    rw [index_apply_of_nodup hnodup]
    -- The id of the extent is that of the stream.
    split_ifs with he
    · rw [id, hown e he]
    · rfl
  · rw [register, map_append]
    exact mem_append_left _ hmem

theorem Counts.updateDiscardStats (h : Counts dsm l) (hids : (l.map Registered.id).Nodup)
    (stats : List (ℕ × ℤ)) :
    Counts (updateDiscardStats dsm stats) (register l (.updateDiscardStats stats)) := by
  have hnodup : ∀ e, (dsm.reverseIndex e).Nodup := fun e => by
    rw [h.index e]
    exact (filter_sublist.map _).nodup hids
  obtain ⟨m, hm, hinfo⟩ := h.streams
  refine ⟨⟨m, hm, fun r hr => ?_⟩, fun e => ?_, fun r hr => ?_, fun s hs => ?_⟩
  · obtain ⟨q, hq, rfl⟩ := mem_map.mp hr
    exact hinfo q hq
  · rw [register, containing, filter_map, map_map]
    exact h.index e
  · obtain ⟨q, hq, rfl⟩ := mem_map.mp hr
    have hmem : ∀ e, q.id ∈ dsm.reverseIndex e ↔ e ∈ q.info.extentIDs := fun e => by
      rw [h.index e, containing, mem_map]
      constructor
      · rintro ⟨q', hq', hid⟩
        obtain ⟨hq', he⟩ := mem_filter.mp hq'
        rw [← inj_on_of_nodup_map hids hq' hq hid]
        exact of_decide_eq_true he
      · exact fun he => ⟨q, mem_filter.mpr ⟨hq, decide_eq_true he⟩, rfl⟩
    refine (foldl_stats hnodup hmem stats (h.recorded q hq)).trans ?_
    simp [Registered.discards]
  · have hs : s ∉ l.map Registered.id := by simpa [register, comp_def] using hs
    have hmem : ∀ e, s ∈ dsm.reverseIndex e ↔ e ∈ ([] : List ℕ) := fun e => by
      refine iff_of_false (fun hs' => hs ?_) not_mem_nil
      rw [h.index e] at hs'
      exact (filter_sublist.map _).subset hs'
    have hnone : dsm.discardOfStream s = record [] := h.unknown s hs
    refine (foldl_stats hnodup hmem stats hnone).trans ?_
    simp [record]

theorem ids_isPrefix (l : List Registered) (ops : List Op) :
    l.map Registered.id <+: (ops.foldl register l).map Registered.id := by
  induction ops generalizing l with
  | nil => exact prefix_rfl
  | cons op ops ih =>
    refine List.IsPrefix.trans ?_ (ih (register l op))
    cases op with
    | addBlobStream si => simp [register]
    | updateDiscardStats stats => simp [register, comp_def]

/-- The condition on the streams that are added. -/
def Own (ops : List Op) : Prop :=
  ∀ si, .addBlobStream si ∈ ops → si.extentIDs.Nodup ∧ ∀ e ∈ si.extentIDs, e = si.streamID

theorem Counts.run (h : Counts dsm l) {ops : List Op} (hown : Own ops)
    (hids : ((ops.foldl register l).map Registered.id).Nodup) :
    ∃ dsm', exec step dsm ops = some dsm' ∧ Counts dsm' (ops.foldl register l) := by
  induction ops generalizing dsm l with
  | nil => exact ⟨dsm, rfl, h⟩
  | cons op ops ih =>
    obtain ⟨dsm₁, hstep, h₁⟩ : ∃ dsm₁, step dsm op = some dsm₁ ∧ Counts dsm₁ (register l op) := by
      have hids₁ := (ids_isPrefix (register l op) ops).sublist.nodup hids
      cases op with
      | addBlobStream si =>
        obtain ⟨hnodup, hsi⟩ := hown si (.head _)
        refine h.addBlobStream (fun hmem => ?_) hnodup hsi
        rw [register, map_append] at hids₁
        exact disjoint_of_nodup_append hids₁ hmem (.head _)
      | updateDiscardStats stats =>
        refine ⟨_, rfl, h.updateDiscardStats ?_ stats⟩
        simpa [register, comp_def] using hids₁
    rw [exec_cons_of_step hstep]
    exact ih h₁ (fun si hsi => hown si (.tail _ hsi)) hids

/-! ## The stream to rewrite -/

/-- The loop ends with an entry that is not less than any other, unless it keeps what it had. -/
theorem maxLoop_spec (entries : List (ℕ × ℤ)) (m : ℤ × ℕ) :
    m.1 ≤ (maxLoop entries m).1 ∧ (∀ x ∈ entries, x.2 ≤ (maxLoop entries m).1) ∧
      (maxLoop entries m = m ∨ ((maxLoop entries m).2, (maxLoop entries m).1) ∈ entries) := by
  induction entries generalizing m with
  | nil => simp [maxLoop]
  | cons x entries ih =>
    obtain ⟨hle, hmax, hmem⟩ := ih (if m.1 < x.2 then (x.2, x.1) else m)
    rw [show maxLoop (x :: entries) m =
      maxLoop entries (if m.1 < x.2 then (x.2, x.1) else m) from rfl]
    have hx : m.1 ≤ (if m.1 < x.2 then (x.2, x.1) else m).1 ∧
        x.2 ≤ (if m.1 < x.2 then (x.2, x.1) else m).1 := by
      split_ifs with h
      · exact ⟨h.le, le_rfl⟩
      · exact ⟨le_rfl, not_lt.mp h⟩
    refine ⟨hx.1.trans hle, forall_mem_cons.mpr ⟨hx.2.trans hle, hmax⟩, ?_⟩
    rcases hmem with hmem | hmem
    · rw [hmem]
      split_ifs
      · exact .inr (.head _)
      · exact .inl rfl
    · exact .inr (.tail _ hmem)

theorem Counts.getD_eq_total (h : Counts dsm l) {r : Registered} (hr : r ∈ l)
    (hrange : r.total.bmod (2 ^ 64) = r.total) : (dsm.discardOfStream r.id).getD 0 = r.total := by
  rw [h.recorded r hr, record]
  split_ifs with hnil
  · rw [Registered.total, hnil]
    rfl
  · exact hrange

/-- If a stream has something to discard, one with the most is returned. -/
theorem Counts.victim (h : Counts dsm l) {entries : List (ℕ × ℤ)}
    (hentries : Lists dsm.discardOfStream entries)
    (hrange : ∀ r ∈ l, r.total.bmod (2 ^ 64) = r.total)
    {r : Registered} (hr : r ∈ l) (hpos : 0 < r.total) :
    ∃ r ∈ l, maxDiscard dsm entries = some r.info ∧ 0 < r.total ∧ ∀ r' ∈ l, r'.total ≤ r.total := by
  obtain ⟨h0, hmax, hmem⟩ := maxLoop_spec entries (0, 0)
  have hle : ∀ r ∈ l, r.total ≤ (maxLoop entries (0, 0)).1 := fun r hr => by
    rw [← h.getD_eq_total hr (hrange r hr)]
    cases hd : dsm.discardOfStream r.id with
    | none => exact h0
    | some d => exact hmax (r.id, d) ((hentries.mem_iff _ _).mpr hd)
  replace hmem := hmem.resolve_left fun heq => by
    have := hle r hr
    rw [heq] at this
    exact absurd hpos (not_lt.mpr this)
  have hd := (hentries.mem_iff _ _).mp hmem
  -- The entry belongs to a stream, since there are no others.
  obtain ⟨r', hr', hid⟩ : ∃ r' ∈ l, r'.id = (maxLoop entries (0, 0)).2 := by
    by_contra hno
    rw [h.unknown _ fun hs => hno (mem_map.mp hs)] at hd
    cases hd
  have htotal : (maxLoop entries (0, 0)).1 = r'.total := by
    rw [← h.getD_eq_total hr' (hrange r' hr'), hid, hd]
    rfl
  obtain ⟨m, hm, hinfo⟩ := h.streams
  refine ⟨r', hr', ?_, htotal ▸ hpos.trans_le (hle r hr), fun r hr => htotal ▸ hle r hr⟩
  rw [maxDiscard, if_neg (ne_nil_of_mem hmem), hm, Option.bind_some, ← hid, hinfo r' hr']
  rfl

/-- **The discards are counted for the right streams**, whatever the orders of the maps, if no
stream is added that has extents of other ids than its own, the totals are `int64`s, and there is
something to discard if there is an entry at all. -/
theorem accurate_of_own {si : ℕ → Option StreamInfo} {order : List (ℕ × StreamInfo)} {ops : List Op}
    (hsi : Lists si order) (hids : ((ledger order ops).map Registered.id).Nodup)
    (hnodup : ∀ x ∈ order, x.2.extentIDs.Nodup) (hown : Own ops)
    (hrange : ∀ r ∈ ledger order ops, r.total.bmod (2 ^ 64) = r.total)
    (hpos : (∃ r ∈ ledger order ops, 0 < r.total) ∨ ∀ r ∈ ledger order ops, r.discards = []) :
    ∃ dsm, exec step (newDiscardManager (some si) order) ops = some dsm ∧
      ∀ entries, Lists dsm.discardOfStream entries → Accurate dsm entries (ledger order ops) := by
  obtain ⟨dsm, hrun, h⟩ := (counts_new hsi hnodup).run hown hids
  refine ⟨dsm, hrun, fun entries hentries =>
    ⟨h.index, fun r hr => h.getD_eq_total hr (hrange r hr), ?_⟩⟩
  rcases hpos with ⟨r, hr, hpos⟩ | hnone
  · exact .inl (h.victim hentries hrange hr hpos)
  · have hnil : entries = [] := by
      refine eq_nil_iff_forall_not_mem.mpr fun x hx => ?_
      have hd := (hentries.mem_iff x.1 x.2).mp hx
      by_cases hs : x.1 ∈ (ledger order ops).map Registered.id
      · obtain ⟨r, hr, hid⟩ := mem_map.mp hs
        rw [← hid, h.recorded r hr, hnone r hr] at hd
        cases hd
      · rw [h.unknown _ hs] at hd
        cases hd
    refine .inr ⟨by rw [maxDiscard, if_pos hnil], fun r hr => ?_⟩
    rw [Registered.total, hnone r hr]
    rfl

theorem lists_singleton {β : Type*} (k : ℕ) (v : β) : Lists (update (fun _ => none) k (some v))
    [(k, v)] := by
  refine ⟨nodup_singleton k, fun k' v' => ?_⟩
  by_cases hk : k' = k
  · subst hk
    simp [eq_comm]
  · simp [hk]

/-- A stream without extents is added, and the extent of the other is discarded. -/
theorem accurate_twoStreams :
    ∃ dsm, exec step (newDiscardManager (some (Function.update (fun _ => none) 1 (some ⟨1, [2]⟩)))
        [(1, ⟨1, [2]⟩)]) [.addBlobStream ⟨3, []⟩, .updateDiscardStats [(2, 10)]] = some dsm ∧
      ∀ entries, Lists dsm.discardOfStream entries → Accurate dsm entries
        (ledger [(1, ⟨1, [2]⟩)] [.addBlobStream ⟨3, []⟩, .updateDiscardStats [(2, 10)]]) :=
  accurate_of_own (lists_singleton 1 _) (by decide) (by decide)
    (by intro si hsi; obtain rfl : si = ⟨3, []⟩ := by simpa using hsi
        exact ⟨nodup_nil, by simp⟩)
    (by decide) (.inl ⟨_, (.head _), by decide⟩)

/-- **The bytes of an added stream go to an id that no stream has**, and `MaxDiscard` returns the
zero value.  It does so too if there is an entry and nothing to discard. -/
theorem wrong_victim :
    (∃ dsm, exec step (newDiscardManager (some fun _ => none) [])
          [.addBlobStream ⟨3, [4]⟩, .updateDiscardStats [(4, 10)]] = some dsm ∧
        Lists dsm.discardOfStream [(4, 10)] ∧
        ¬ Accurate dsm [(4, 10)]
          (ledger [] [.addBlobStream ⟨3, [4]⟩, .updateDiscardStats [(4, 10)]]) ∧
        maxDiscard dsm [(4, 10)] = some ⟨0, []⟩) ∧
      ∃ dsm, exec step (newDiscardManager (some (Function.update (fun _ => none) 1 (some ⟨1, [2]⟩)))
          [(1, ⟨1, [2]⟩)]) [.updateDiscardStats [(2, 0)]] = some dsm ∧
        Lists dsm.discardOfStream [(1, 0)] ∧ maxDiscard dsm [(1, 0)] = some ⟨0, []⟩ := by
  refine ⟨⟨_, rfl, lists_singleton 4 10, fun h => ?_, rfl⟩, _, rfl, lists_singleton 1 0, rfl⟩
  cases h.index 4

end Discard
end Autumn
