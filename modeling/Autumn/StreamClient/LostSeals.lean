import Autumn.StreamClient.Iterator

/-!
# Extents that were not sealed

When a new extent is allocated, the stream manager asks the replicas of the old one to seal it and
does not look at the answers.  A replica that never got the message answers `EndOfStream` behind its
last block, which the iterator takes for the end of the stream.

So the iterator sees the stream that ends with the first extent that is not sealed
(`ReplicaView.visible`): as long as it has not come to the end, the two streams answer alike
(`receive_visible`, `delivers_visible`).
-/

namespace Autumn

open Lib Y List LogStream

/-! ## The iterator on replicas -/

/-- A log stream and which extents, by their index, are sealed on the replicas that are read.  The
last extent is open. -/
structure ReplicaView where
  stream : LogStream
  isSeal : ℕ → Bool
  last_open : ∀ i, stream.front.length ≤ i → isSeal i = false

namespace ReplicaView

/-- The loop over the stream ends, given enough rounds, and has delivered `D`. -/
def Delivers (v : ReplicaView) (maxTotalSize : ℕ) (it : LogEntryIter) (D : List EntryInfo) : Prop :=
  LoopDelivers (receiveEntries v.stream.exs v.isSeal maxTotalSize) it D

/-! ## The part of the stream that is seen -/

theorem exists_open (v : ReplicaView) : ∃ i, v.isSeal i = false :=
  ⟨v.stream.front.length, v.last_open _ le_rfl⟩

/-- The index of the first extent that is not sealed. -/
def firstOpen (v : ReplicaView) : ℕ := Nat.find v.exists_open

/-- The stream up to the first extent that is not sealed. -/
def visible (v : ReplicaView) : LogStream where
  front := v.stream.exs.take v.firstOpen
  last := (v.stream.exs[v.firstOpen]?).getD v.stream.last

/-- The extents behind it. -/
def hidden (v : ReplicaView) : List LogExtent := v.stream.exs.drop (v.firstOpen + 1)

variable {v : ReplicaView} {m : ℕ} {it : LogEntryIter}

theorem length_exs (s : LogStream) : s.exs.length = s.front.length + 1 := by
  rw [exs, length_append, length_singleton]

theorem firstOpen_lt (v : ReplicaView) : v.firstOpen < v.stream.exs.length := by
  have h : v.firstOpen ≤ v.stream.front.length := Nat.find_min' _ (v.last_open _ le_rfl)
  rw [length_exs]
  omega

theorem isSeal_firstOpen (v : ReplicaView) :
    v.isSeal v.firstOpen = false := Nat.find_spec v.exists_open

theorem isSeal_of_lt {i : ℕ} (h : i < v.firstOpen) : v.isSeal i = true := by
  have := Nat.find_min v.exists_open h
  simpa using this

theorem exs_visible (v : ReplicaView) : v.visible.exs = v.stream.exs.take (v.firstOpen + 1) := by
  have hget := getElem?_eq_getElem v.firstOpen_lt
  rw [exs, visible, hget, Option.getD_some, take_add_one, hget]
  rfl

theorem exs_eq (v : ReplicaView) : v.stream.exs = v.visible.exs ++ v.hidden := by
  rw [exs_visible, hidden, take_append_drop]

theorem length_front_visible (v : ReplicaView) : v.visible.front.length = v.firstOpen := by
  have := v.firstOpen_lt
  rw [visible, length_take]
  omega

theorem readLoop_code {id : ℕ} {isSeal : Bool} {bs : List LogBlock} {o size : ℕ}
    {ret es : List EntryInfo} {t : ℕ} {code : ReadCode}
    (h : readLoop id m isSeal bs o ret size = .ok (es, t, code)) :
    code = .ok ∨ code = endCode isSeal := by
  induction bs generalizing o ret size with
  | nil =>
    cases h
    exact .inr rfl
  | cons b bs ih =>
    rw [readLoop] at h
    split at h
    · cases h
    · split_ifs at h with hfull
      · cases h
        exact .inl rfl
      · exact ih h

theorem readEntries_code {x : LogExtent} {isSeal : Bool} {o : ℕ} {es : List EntryInfo} {t : ℕ}
    {code : ReadCode} (h : x.readEntries isSeal o m = .ok (es, t, code)) :
    code = .ok ∨ code = endCode isSeal := by
  unfold LogExtent.readEntries at h
  split_ifs at h with hzero hend
  · cases h
    exact .inr rfl
  · split at h
    · cases h
    · exact readLoop_code h

/-- The iterator is in front of the end of what it can see. -/
def Inside (v : ReplicaView) (it : LogEntryIter) : Prop :=
  it.noMore = false → it.currentIndex ≤ v.firstOpen

/-- **One read**: the stream and its visible part answer alike, and the iterator stays inside. -/
theorem receive_visible (h : it.currentIndex ≤ v.firstOpen) :
    receiveEntries v.stream.exs v.isSeal m it = v.visible.receive m it ∧
      ∀ it', receiveEntries v.stream.exs v.isSeal m it = .ok it' → v.Inside it' := by
  have hlt := v.firstOpen_lt
  obtain ⟨x, hx⟩ : ∃ x, v.stream.exs[it.currentIndex]? = some x :=
    ⟨_, getElem?_eq_getElem (by omega)⟩
  have hx' : v.visible.exs[it.currentIndex]? = some x := by
    rw [exs_visible, getElem?_take_of_lt (by omega), hx]
  have hseal : v.isSeal it.currentIndex = decide (it.currentIndex < v.visible.front.length) := by
    rw [length_front_visible]
    rcases Nat.lt_or_eq_of_le h with hlt | heq
    · rw [isSeal_of_lt hlt, decide_eq_true hlt]
    · rw [heq, isSeal_firstOpen, decide_eq_false (lt_irrefl _)]
  have hlen : v.visible.exs.length = v.firstOpen + 1 := by
    rw [length_exs, length_front_visible]
  unfold receive receiveEntries
  rw [hx, hx']
  dsimp only
  rw [← hseal]
  cases hread : x.readEntries (v.isSeal it.currentIndex) it.currentOffset m with
  | error e => exact ⟨rfl, fun it' h' => absurd h' (by simp)⟩
  | ok r =>
    obtain ⟨res, tail, code⟩ := r
    cases code with
    | ok =>
      refine ⟨rfl, fun it' h' _ => ?_⟩
      cases h'
      exact h
    | endOfStream =>
      refine ⟨rfl, fun it' h' hmore => ?_⟩
      cases h'
      cases hmore
    | endOfExtent =>
      -- only a sealed extent answers so, and behind a sealed one there is one that is visible
      have hsealed : v.isSeal it.currentIndex = true := by
        rcases readEntries_code hread with hcode | hcode
        · cases hcode
        · unfold endCode at hcode
          split_ifs at hcode with hs
          exact hs
      have hbefore : it.currentIndex < v.firstOpen := by
        rcases Nat.lt_or_eq_of_le h with hlt | heq
        · exact hlt
        · rw [heq, isSeal_firstOpen] at hsealed
          cases hsealed
      have hne : ¬ it.currentIndex + 1 = v.stream.exs.length := by omega
      have hne' : ¬ it.currentIndex + 1 = v.visible.exs.length := by omega
      refine ⟨by simp [hne, hne'], fun it' h' _ => ?_⟩
      cases h'
      exact hbefore

/-! ## What is delivered -/

/-- The loop delivers some first entries of what there is. -/
theorem delivered_sub (m id o : ℕ) (bs : List LogBlock) (xs : List LogExtent) :
    delivered m id o bs xs <+: (placedAt id o bs ++ placedList xs).map replayInfo := by
  induction xs generalizing id o bs with
  | nil =>
    rw [delivered, placedList, flatMap_nil, append_nil]
    exact prefix_refl _
  | cons x xs ih =>
    rw [delivered, map_append, ← entriesAt, prefix_append_right_inj]
    split_ifs
    · exact nil_prefix
    · exact ih _ _ _

/-- The condition under which a stream is iterated completely from its start. -/
def Complete (m : ℕ) : List LogExtent → Prop
  | [] => True
  | x :: xs => NoEarlyStop m x.id 512 x.blocks xs

/-- What the loop delivers from the start of a list of extents. -/
def deliveredFrom (m : ℕ) : List LogExtent → List EntryInfo
  | [] => []
  | x :: xs => delivered m x.id 512 x.blocks xs

theorem delivers_visible (hwf : ∀ x ∈ v.stream.exs, ∀ b ∈ x.blocks, b.WellFormed) (m : ℕ) :
    v.Delivers m (newLogEntryIter v.stream 0 0) (deliveredFrom m v.visible.exs) := by
  have hwf' : ∀ x ∈ v.visible.exs, ∀ b ∈ x.blocks, b.WellFormed := fun x hx =>
    hwf x (v.exs_eq ▸ mem_append_left _ hx)
  obtain ⟨x, xs, hexs⟩ : ∃ x xs, v.visible.exs = x :: xs :=
    exists_cons_of_length_pos (by rw [length_exs]; omega)
  obtain ⟨n, hn⟩ := delivers_delivered hwf' m xs [] x hexs [] x.blocks rfl
  refine ⟨n, fun k hk => ?_⟩
  have hagree : ∀ it, v.Inside it → it.noMore = false → _ := fun it h hmore =>
    receive_visible (m := m) (h hmore)
  rw [replayLoop_congr (fun it c h => h) hagree (fun _ => Nat.zero_le _), hexs]
  exact hn k hk

/-- **Lost seals.**  The loop over a log stream ends, and it has delivered every entry of every
extent if and only if the extents up to the first one that is not sealed are iterated completely and
no extent behind them has entries. -/
theorem lost_seals_iff (v : ReplicaView) (hwf : ∀ x ∈ v.stream.exs, ∀ b ∈ x.blocks, b.WellFormed)
    (maxTotalSize : ℕ) :
    ∃ D, v.Delivers maxTotalSize (newLogEntryIter v.stream 0 0) D ∧
      (D = v.stream.placed.map replayInfo ↔
        Complete maxTotalSize v.visible.exs ∧ placedList v.hidden = []) := by
  refine ⟨_, delivers_visible hwf maxTotalSize, ?_⟩
  obtain ⟨x, xs, hexs⟩ : ∃ x xs, v.visible.exs = x :: xs :=
    exists_cons_of_length_pos (by rw [length_exs]; omega)
  have hplaced : v.stream.placed = (placedAt x.id 512 x.blocks ++ placedList xs) ++
      placedList v.hidden := by
    rw [placed, v.exs_eq, hexs, placedList, flatMap_append, flatMap_cons]
    rfl
  rw [hexs, hplaced, deliveredFrom, Complete, map_append]
  constructor
  · intro hD
    -- the entries of the visible part are not enough
    have hlen := (delivered_sub maxTotalSize x.id 512 x.blocks xs).length_le
    rw [hD, length_append, length_map, length_map] at hlen
    have hhidden : placedList v.hidden = [] := length_eq_zero_iff.mp (by omega)
    rw [hhidden, map_nil, append_nil] at hD
    exact ⟨delivered_eq_iff.mp hD, hhidden⟩
  · rintro ⟨hcomplete, hhidden⟩
    rw [hhidden, map_nil, append_nil]
    exact delivered_eq_iff.mpr hcomplete

/-- Two extents with one entry each, the first of them sealed. -/
def twoSealed : ReplicaView where
  stream := twoExtents
  isSeal i := decide (i < 1)
  last_open i hi := by
    have h : 1 ≤ i := hi
    exact decide_eq_false (by omega)

theorem lost_seals_iff_twoSealed :
    (∀ x ∈ twoSealed.stream.exs, ∀ b ∈ x.blocks, b.WellFormed) ∧
      ∃ D, twoSealed.Delivers 16384 (newLogEntryIter twoSealed.stream 0 0) D ∧
        D = twoSealed.stream.placed.map replayInfo := by
  have hwf : ∀ x ∈ twoSealed.stream.exs, ∀ b ∈ x.blocks, b.WellFormed := twoExtents_wellFormed.2
  obtain ⟨D, hD, hiff⟩ := lost_seals_iff twoSealed hwf 16384
  have hfirst : twoSealed.firstOpen = 1 := (Nat.find_eq_iff _).mpr ⟨rfl, by decide⟩
  have hvisible : twoSealed.visible.exs = twoExtents.exs := by
    rw [exs_visible, hfirst]
    rfl
  have hhidden : twoSealed.hidden = [] := by
    rw [hidden, hfirst]
    rfl
  refine ⟨hwf, D, hD, hiff.mpr ⟨?_, by rw [hhidden]; rfl⟩⟩
  rw [hvisible]
  exact ⟨fun h => absurd h (by decide), trivial⟩

/-- The same extents, but the message to seal the first of them was lost. -/
def oneLost : ReplicaView where
  stream := twoExtents
  isSeal _ := false
  last_open _ _ := rfl

/-- **A lost seal hides data.**  Only the entry of the first extent is delivered, whatever the chunk
limit, although the second extent has one. -/
theorem lost_seal_hides_extent :
    (∀ x ∈ oneLost.stream.exs, ∀ b ∈ x.blocks, b.WellFormed) ∧
      ∀ maxTotalSize, ∃ D, oneLost.Delivers maxTotalSize (newLogEntryIter oneLost.stream 0 0) D ∧
        D.length = 1 ∧ (oneLost.stream.placed.map replayInfo).length = 2 := by
  have hwf : ∀ x ∈ oneLost.stream.exs, ∀ b ∈ x.blocks, b.WellFormed := twoExtents_wellFormed.2
  refine ⟨hwf, fun maxTotalSize => ⟨_, delivers_visible hwf maxTotalSize, ?_, rfl⟩⟩
  have hfirst : oneLost.firstOpen = 0 := (Nat.find_eq_zero _).mpr rfl
  rw [exs_visible, hfirst]
  rfl

end ReplicaView
end Autumn
