import Autumn.Y
import Mathlib.Data.List.Perm.Basic
import Mathlib.Data.List.Sort
import Mathlib.Data.List.Nodup
import Mathlib.Data.List.TakeWhile

/-!
# The log stream

A log stream is a list of extents; all but the last are sealed.  An extent holds blocks of entries
one after the other behind a header of 512 bytes, each block with a header of 512 bytes of its own.
Positions are ordered by the place of the extent in the stream and then by the offset.
-/

namespace Autumn

open Y List

/-- A block of the log, as the entries it holds. -/
structure LogBlock where
  blockLength : ℕ
  entries : List Entry
  deriving DecidableEq, Repr

/-- The bytes a block takes with its header. -/
def LogBlock.size (b : LogBlock) : ℕ := b.blockLength + 512

/-- The bytes a list of blocks takes. -/
def blocksSize (bs : List LogBlock) : ℕ := (bs.map LogBlock.size).sum

@[simp] theorem blocksSize_nil : blocksSize [] = 0 := rfl

@[simp] theorem blocksSize_cons (b : LogBlock) (bs : List LogBlock) :
    blocksSize (b :: bs) = b.size + blocksSize bs := by
  simp [blocksSize]

@[simp] theorem blocksSize_append (bs cs : List LogBlock) :
    blocksSize (bs ++ cs) = blocksSize bs + blocksSize cs := by
  simp [blocksSize]

/-- An extent of the log. -/
structure LogExtent where
  id : ℕ
  blocks : List LogBlock
  deriving DecidableEq, Repr

/-- The commit length: the header of the extent and its blocks. -/
def LogExtent.commitLength (x : LogExtent) : ℕ := 512 + blocksSize x.blocks

/-- The entries of blocks that start at offset `o` of extent `id`, each with the position and the
size of its block. -/
def placedAt (id : ℕ) : ℕ → List LogBlock → List EntryInfo
  | _, [] => []
  | o, b :: bs => (b.entries.map fun e => ⟨e, id, o, b.size⟩) ++ placedAt id (o + b.size) bs

/-- The entries of an extent with their positions. -/
def LogExtent.placed (x : LogExtent) : List EntryInfo := placedAt x.id 512 x.blocks

theorem placedAt_append (id : ℕ) :
    ∀ (o : ℕ) (bs cs : List LogBlock),
      placedAt id o (bs ++ cs) = placedAt id o bs ++ placedAt id (o + blocksSize bs) cs
  | o, [], cs => by simp [placedAt]
  | o, b :: bs, cs => by
    rw [cons_append, placedAt, placedAt, placedAt_append id (o + b.size) bs cs,
      blocksSize_cons, append_assoc, Nat.add_assoc]

variable {p : EntryInfo} {id : ℕ}

theorem extentID_of_mem_placedAt :
    ∀ {o : ℕ} {bs : List LogBlock}, p ∈ placedAt id o bs → p.extentID = id
  | _, [], h => by simp [placedAt] at h
  | o, b :: bs, h => by
    rw [placedAt, mem_append, mem_map] at h
    rcases h with ⟨e, _, rfl⟩ | h
    · rfl
    · exact extentID_of_mem_placedAt h

theorem offset_of_mem_placedAt :
    ∀ {o : ℕ} {bs : List LogBlock}, p ∈ placedAt id o bs →
      o ≤ p.offset ∧ p.offset + 512 ≤ o + blocksSize bs
  | _, [], h => by simp [placedAt] at h
  | o, b :: bs, h => by
    rw [placedAt, mem_append, mem_map] at h
    rw [blocksSize_cons, LogBlock.size]
    rcases h with ⟨e, _, rfl⟩ | h
    · dsimp only
      omega
    · have := offset_of_mem_placedAt h
      rw [LogBlock.size] at this
      omega

theorem pairwise_placedAt (id : ℕ) :
    ∀ (o : ℕ) (bs : List LogBlock), (placedAt id o bs).Pairwise fun p q => p.offset ≤ q.offset
  | _, [] => List.Pairwise.nil
  | o, b :: bs => by
    rw [placedAt, pairwise_append]
    refine ⟨?_, pairwise_placedAt id (o + b.size) bs, fun p hp q hq => ?_⟩
    · rw [pairwise_map]
      exact pairwise_of_forall fun _ _ => le_rfl
    · obtain ⟨e, _, rfl⟩ := mem_map.mp hp
      have := (offset_of_mem_placedAt hq).1
      dsimp only
      omega

/-! ## Positions in a list of extents -/

/-- The entries of a list of extents, in log order. -/
def placedList (xs : List LogExtent) : List EntryInfo := xs.flatMap LogExtent.placed

theorem placedList_cons (x : LogExtent) (xs : List LogExtent) :
    placedList (x :: xs) = x.placed ++ placedList xs :=
  flatMap_cons

/-- The entries before offset `o` of the extent `e`. -/
def beforeList (e o : ℕ) : List LogExtent → List EntryInfo
  | [] => []
  | x :: xs =>
    if x.id = e then x.placed.filter fun p => p.offset < o
    else x.placed ++ beforeList e o xs

/-- The entries from offset `o` of the extent `e` on. -/
def sinceList (e o : ℕ) : List LogExtent → List EntryInfo
  | [] => []
  | x :: xs =>
    if x.id = e then (x.placed.filter fun p => ¬ p.offset < o) ++ placedList xs
    else sinceList e o xs

variable {e o : ℕ} {x : LogExtent}

theorem extentID_of_mem_placed (h : p ∈ x.placed) : p.extentID = x.id :=
  extentID_of_mem_placedAt h

theorem offset_of_mem_placed (h : p ∈ x.placed) :
    512 ≤ p.offset ∧ p.offset + 512 ≤ x.commitLength :=
  offset_of_mem_placedAt h

theorem mem_placedList {xs : List LogExtent} : p ∈ placedList xs ↔ ∃ x ∈ xs, p ∈ x.placed :=
  mem_flatMap

theorem mem_placedList_of_mem_beforeList :
    ∀ {xs : List LogExtent}, p ∈ beforeList e o xs → p ∈ placedList xs
  | [], h => by simp [beforeList] at h
  | x :: xs, h => by
    rw [placedList_cons, mem_append]
    rw [beforeList] at h
    split_ifs at h
    · exact .inl (mem_of_mem_filter h)
    · exact (mem_append.mp h).imp id mem_placedList_of_mem_beforeList

theorem sinceList_sublist (e o : ℕ) :
    ∀ xs : List LogExtent, (sinceList e o xs).Sublist (placedList xs)
  | [] => List.Sublist.slnil
  | x :: xs => by
    rw [sinceList, placedList_cons]
    split_ifs
    · exact (filter_sublist).append_right _
    · exact (sinceList_sublist e o xs).trans (sublist_append_right _ _)

theorem mem_before_or_since :
    ∀ {xs : List LogExtent}, (∃ x ∈ xs, x.id = e) → p ∈ placedList xs →
      p ∈ beforeList e o xs ∨ p ∈ sinceList e o xs
  | x :: xs, hid, h => by
    rw [placedList_cons, mem_append] at h
    rw [beforeList, sinceList]
    split_ifs with hx
    · rw [mem_append, mem_filter, mem_filter]
      rcases h with h | h
      · by_cases ho : p.offset < o
        · exact .inl ⟨h, by simpa using ho⟩
        · exact .inr (.inl ⟨h, by simpa using ho⟩)
      · exact .inr (.inr h)
    · have hid' : ∃ x ∈ xs, x.id = e := by
        obtain ⟨y, hy, hye⟩ := hid
        rcases hy with _ | ⟨_, hy⟩
        · exact absurd hye hx
        · exact ⟨y, hy, hye⟩
      rcases h with h | h
      · exact .inl (mem_append_left _ h)
      · exact (mem_before_or_since hid' h).imp (mem_append_right _) id

/-- An entry of the stream does not lie before the position of its own block. -/
theorem not_mem_beforeList_self :
    ∀ {xs : List LogExtent}, (xs.map LogExtent.id).Nodup → p ∈ placedList xs →
      p ∉ beforeList p.extentID p.offset xs
  | x :: xs, hnd, h => by
    rw [map_cons, nodup_cons] at hnd
    rw [placedList_cons, mem_append] at h
    rw [beforeList]
    split_ifs with hx
    · simp
    · have hne : p ∉ x.placed := fun hp => hx (extentID_of_mem_placed hp).symm
      rcases h with h | h
      · exact absurd h hne
      · rw [mem_append, not_or]
        exact ⟨hne, not_mem_beforeList_self hnd.2 h⟩

/-- **Log order.**  Of two entries in the order of the log the second does not lie before the
block of the first. -/
theorem pairwise_placedList :
    ∀ {xs : List LogExtent}, (xs.map LogExtent.id).Nodup →
      (placedList xs).Pairwise fun p q => q ∉ beforeList p.extentID p.offset xs
  | [], _ => List.Pairwise.nil
  | x :: xs, hnd => by
    rw [map_cons, nodup_cons] at hnd
    rw [placedList_cons, pairwise_append]
    have hsep : ∀ p ∈ x.placed, ∀ q ∈ placedList xs, p.extentID ≠ q.extentID := by
      intro p hp q hq heq
      obtain ⟨y, hy, hqy⟩ := mem_placedList.mp hq
      rw [extentID_of_mem_placed hp, extentID_of_mem_placed hqy] at heq
      exact hnd.1 (heq ▸ mem_map_of_mem hy)
    refine ⟨?_, ?_, fun p hp q hq => ?_⟩
    · refine (pairwise_placedAt x.id 512 x.blocks).imp_of_mem fun {p q} hp hq hle => ?_
      rw [beforeList, if_pos (extentID_of_mem_placed hp).symm, mem_filter]
      rintro ⟨_, hlt⟩
      simp only [decide_eq_true_eq] at hlt
      omega
    · refine (pairwise_placedList hnd.2).imp_of_mem fun {p q} hp hq hnot => ?_
      obtain ⟨y, hy, hpy⟩ := mem_placedList.mp hp
      have hne : x.id ≠ p.extentID := by
        rw [extentID_of_mem_placed hpy]
        exact fun heq => hnd.1 (heq ▸ mem_map_of_mem hy)
      rw [beforeList, if_neg hne, mem_append, not_or]
      exact ⟨fun hqx => hsep q hqx q hq rfl, hnot⟩
    · rw [beforeList, if_pos (extentID_of_mem_placed hp).symm]
      exact fun hq' => hsep q (mem_of_mem_filter hq') q hq rfl

/-! ## The stream -/

/-- A log stream: the sealed extents, oldest first, and the one appended to. -/
structure LogStream where
  front : List LogExtent
  last : LogExtent
  deriving DecidableEq, Repr

namespace LogStream

/-- The extents in order. -/
def exs (s : LogStream) : List LogExtent := s.front ++ [s.last]

/-- Every entry of the log with its position, in log order. -/
def placed (s : LogStream) : List EntryInfo := placedList s.exs

/-- The entries whose blocks lie before a position; nothing lies before the start `(0, 0)`. -/
def before (s : LogStream) (e o : ℕ) : List EntryInfo :=
  if e = 0 ∧ o = 0 then [] else beforeList e o s.exs

/-- What a replay from a position has to deliver; `(0, 0)` reads from the start. -/
def since (s : LogStream) (e o : ℕ) : List EntryInfo :=
  if e = 0 ∧ o = 0 then s.placed else sinceList e o s.exs

/-- Blocks behind the last extent. -/
def append (s : LogStream) (bs : List LogBlock) : LogStream :=
  { s with last := { s.last with blocks := s.last.blocks ++ bs } }

/-- The last extent is sealed and a new one takes its place. -/
def newExtent (s : LogStream) (id : ℕ) : LogStream :=
  { front := s.front ++ [s.last], last := ⟨id, []⟩ }

/-- The end of the last extent. -/
def tail (s : LogStream) : ℕ := s.last.commitLength

/-- Extents have different ids, and zero is not one of them. -/
structure WellFormed (s : LogStream) : Prop where
  nodup : (s.exs.map LogExtent.id).Nodup
  id_ne_zero : ∀ x ∈ s.exs, x.id ≠ 0

/-- A position of the stream: its start, or a place not behind the end of one of its extents. -/
def ValidPos (s : LogStream) (e o : ℕ) : Prop :=
  (e = 0 ∧ o = 0) ∨ ∃ x ∈ s.exs, x.id = e ∧ o ≤ x.commitLength

variable {s : LogStream}

theorem mem_exs : x ∈ s.exs ↔ x ∈ s.front ∨ x = s.last := by
  simp [exs]

/-! ### What lies before a position does not change -/

theorem commitLength_append_blocks (x : LogExtent) (bs : List LogBlock) :
    ({ x with blocks := x.blocks ++ bs } : LogExtent).commitLength =
      x.commitLength + blocksSize bs := by
  simp [LogExtent.commitLength, Nat.add_assoc]

theorem placed_append_blocks (x : LogExtent) (bs : List LogBlock) :
    ({ x with blocks := x.blocks ++ bs } : LogExtent).placed =
      x.placed ++ placedAt x.id x.commitLength bs := by
  rw [LogExtent.placed, placedAt_append]
  rfl

theorem placed_append (s : LogStream) (bs : List LogBlock) :
    (s.append bs).placed = s.placed ++ placedAt s.last.id s.tail bs := by
  simp only [placed, placedList, exs, append, flatMap_append, flatMap_singleton,
    placed_append_blocks, append_assoc, tail]

theorem placed_newExtent (s : LogStream) (id : ℕ) : (s.newExtent id).placed = s.placed := by
  simp [placed, placedList, exs, newExtent, LogExtent.placed, placedAt]

theorem ids_append (s : LogStream) (bs : List LogBlock) :
    (s.append bs).exs.map LogExtent.id = s.exs.map LogExtent.id := by
  simp [exs, append]

theorem WellFormed.append (h : s.WellFormed) (bs : List LogBlock) :
    (s.append bs).WellFormed where
  nodup := by
    rw [ids_append]
    exact h.nodup
  id_ne_zero := by
    intro x hx
    have hid : x.id ∈ (s.append bs).exs.map LogExtent.id := mem_map_of_mem hx
    rw [ids_append] at hid
    obtain ⟨y, hy, hyx⟩ := mem_map.mp hid
    exact hyx ▸ h.id_ne_zero y hy

theorem WellFormed.newExtent {s : LogStream} (h : s.WellFormed) (hid : id ∉ s.exs.map LogExtent.id)
    (h0 : id ≠ 0) : (s.newExtent id).WellFormed where
  nodup := by
    have : (s.newExtent id).exs.map LogExtent.id = s.exs.map LogExtent.id ++ [id] := by
      simp [exs, LogStream.newExtent]
    rw [this]
    exact h.nodup.append (nodup_singleton id) (by simpa using hid)
  id_ne_zero := by
    intro x hx
    rcases mem_exs.mp hx with hx | rfl
    · exact h.id_ne_zero x hx
    · exact h0

theorem beforeList_append_last (x y : LogExtent) (hid : y.id = x.id) (hbefore : x.id = e →
      (y.placed.filter fun p => p.offset < o) = x.placed.filter fun p => p.offset < o) :
    ∀ {front : List LogExtent}, (∃ z ∈ front ++ [x], z.id = e) →
      beforeList e o (front ++ [y]) = beforeList e o (front ++ [x])
  | [], hex => by
    have hx : x.id = e := by simpa using hex
    simp only [nil_append, beforeList, if_pos hx, if_pos (hid.trans hx), hbefore hx]
  | z :: front, hex => by
    rw [cons_append, cons_append, beforeList, beforeList]
    split_ifs with hz
    · rfl
    · have hex' : ∃ w ∈ front ++ [x], w.id = e := by
        obtain ⟨w, hw, hwe⟩ := hex
        rcases hw with _ | ⟨_, hw⟩
        · exact absurd hwe hz
        · exact ⟨w, hw, hwe⟩
      rw [beforeList_append_last x y hid hbefore hex']

theorem before_append (hwf : s.WellFormed) (hv : s.ValidPos e o) (bs : List LogBlock) :
    (s.append bs).before e o = s.before e o := by
  rw [before, before]
  split_ifs with h0
  · rfl
  · rcases hv with hv | ⟨x, hx, hxe, hxo⟩
    · exact absurd hv h0
    · refine beforeList_append_last s.last (s.append bs).last rfl (fun hlast => ?_) ⟨x, hx, hxe⟩
      have hxl : x = s.last := by
        have hl : s.last ∈ s.exs := mem_exs.mpr (.inr rfl)
        exact inj_on_of_nodup_map hwf.nodup hx hl (hxe.trans hlast.symm)
      rw [append, placed_append_blocks, filter_append]
      refine append_right_eq_self.mpr (filter_eq_nil_iff.mpr fun p hp => ?_)
      have := (offset_of_mem_placedAt hp).1
      rw [hxl] at hxo
      simp only [decide_eq_true_eq]
      omega

theorem beforeList_append_new (y : LogExtent) :
    ∀ {xs : List LogExtent}, (∃ x ∈ xs, x.id = e) →
      beforeList e o (xs ++ [y]) = beforeList e o xs
  | x :: xs, hex => by
    rw [cons_append, beforeList, beforeList]
    split_ifs with hx
    · rfl
    · have hex' : ∃ w ∈ xs, w.id = e := by
        obtain ⟨w, hw, hwe⟩ := hex
        rcases hw with _ | ⟨_, hw⟩
        · exact absurd hwe hx
        · exact ⟨w, hw, hwe⟩
      rw [beforeList_append_new y hex']

theorem before_newExtent (hv : s.ValidPos e o) (id : ℕ) :
    (s.newExtent id).before e o = s.before e o := by
  rw [before, before]
  split_ifs with h0
  · rfl
  · rcases hv with hv | ⟨x, hx, hxe, _⟩
    · exact absurd hv h0
    · exact beforeList_append_new ⟨id, []⟩ ⟨x, hx, hxe⟩

theorem ValidPos.append (hv : s.ValidPos e o) (bs : List LogBlock) :
    (s.append bs).ValidPos e o := by
  rcases hv with hv | ⟨x, hx, hxe, hxo⟩
  · exact .inl hv
  · rcases mem_exs.mp hx with hx | rfl
    · exact .inr ⟨x, mem_exs.mpr (.inl hx), hxe, hxo⟩
    · refine .inr ⟨_, mem_exs.mpr (.inr rfl), hxe, ?_⟩
      rw [LogStream.append, commitLength_append_blocks]
      omega

theorem ValidPos.newExtent {s : LogStream} (hv : s.ValidPos e o) (id : ℕ) :
    (s.newExtent id).ValidPos e o := by
  rcases hv with hv | ⟨x, hx, hxe, hxo⟩
  · exact .inl hv
  · exact .inr ⟨x, mem_exs.mpr (.inl hx), hxe, hxo⟩

theorem validPos_tail (s : LogStream) : s.ValidPos s.last.id s.tail :=
  .inr ⟨s.last, mem_exs.mpr (.inr rfl), rfl, le_rfl⟩

theorem validPos_of_mem_placed (h : p ∈ s.placed) : s.ValidPos p.extentID p.offset := by
  obtain ⟨x, hx, hp⟩ := mem_placedList.mp h
  have := offset_of_mem_placed hp
  exact .inr ⟨x, hx, (extentID_of_mem_placed hp).symm, by omega⟩

theorem mem_placed_of_mem_before (h : p ∈ s.before e o) : p ∈ s.placed := by
  rw [before] at h
  split_ifs at h
  · simp at h
  · exact mem_placedList_of_mem_beforeList h

/-- Every entry lies before a position or is delivered by a replay from it. -/
theorem mem_before_or_mem_since (hv : s.ValidPos e o) (h : p ∈ s.placed) :
    p ∈ s.before e o ∨ p ∈ s.since e o := by
  rw [before, since]
  split_ifs with h0
  · exact .inr h
  · rcases hv with hv | ⟨x, hx, hxe, _⟩
    · exact absurd hv h0
    · exact mem_before_or_since ⟨x, hx, hxe⟩ h

theorem since_sublist (s : LogStream) (e o : ℕ) : (s.since e o).Sublist s.placed := by
  rw [since]
  split_ifs
  · exact List.Sublist.refl _
  · exact sinceList_sublist e o s.exs

theorem before_eq_beforeList (hwf : s.WellFormed) (h : p ∈ s.placed) :
    s.before p.extentID p.offset = beforeList p.extentID p.offset s.exs := by
  obtain ⟨x, hx, hp⟩ := mem_placedList.mp h
  have hne : ¬ (p.extentID = 0 ∧ p.offset = 0) := fun h0 =>
    hwf.id_ne_zero x hx ((extentID_of_mem_placed hp).symm.trans h0.1)
  rw [before, if_neg hne]

theorem not_mem_before_self (hwf : s.WellFormed) (h : p ∈ s.placed) :
    p ∉ s.before p.extentID p.offset := by
  rw [before_eq_beforeList hwf h]
  exact not_mem_beforeList_self hwf.nodup h

/-- What a replay delivers later does not lie before the block it delivers now. -/
theorem pairwise_since (hwf : s.WellFormed) (e o : ℕ) :
    (s.since e o).Pairwise fun p q => q ∉ s.before p.extentID p.offset := by
  have h := (pairwise_placedList hwf.nodup).imp_of_mem
    (S := fun p q => q ∉ s.before p.extentID p.offset) fun {p q} hp _ hnot => by
      rwa [before_eq_beforeList hwf hp]
  exact h.sublist (s.since_sublist e o)

/-- New blocks do not lie before a position the stream had. -/
theorem not_mem_before_of_new (hwf : s.WellFormed) {bs : List LogBlock}
    (hp : p ∈ placedAt s.last.id s.tail bs) : p ∉ s.before e o := by
  intro h
  obtain ⟨x, hx, hpx⟩ := mem_placedList.mp (mem_placed_of_mem_before h)
  have hl : s.last ∈ s.exs := mem_exs.mpr (.inr rfl)
  have hxl : x = s.last := inj_on_of_nodup_map hwf.nodup hx hl
    ((extentID_of_mem_placed hpx).symm.trans (extentID_of_mem_placedAt hp))
  have h1 := offset_of_mem_placed hpx
  have h2 := offset_of_mem_placedAt hp
  rw [hxl] at h1
  rw [tail] at h2
  omega

end LogStream

end Autumn
