import Autumn.StreamClient.LogStream
import Autumn.Lib.SliceSort

/-!
# From a batch to blocks and back

`AppendEntries` sorts the entries of a batch by the length of their values, packs those that are
stored next to their keys into mixed blocks of 4096 bytes and gives each of the others a block of
its own, whose position it writes into the entry.  The requests share the entries and see the
positions in their own order: entries carry the index they had in the batch.
-/

namespace Autumn

open Lib Y List

/-- `MaxMixedBlockSize`. -/
def maxMixedBlockSize : ℕ := 4096

/-- `MaxEntriesInBlock`. -/
def maxEntriesInBlock : ℕ := 100

/-- The loop over the small entries: `cur` is what the open mixed block holds and `tail` its fill.
A block that cannot take the entry is closed and a new one opened. -/
def fillMixed : List Entry → List Entry → ℕ → List LogBlock
  | [], cur, _ => [⟨maxMixedBlockSize, cur⟩]
  | e :: es, cur, tail =>
    if tail + e.size > maxMixedBlockSize ∨ cur.length ≥ maxEntriesInBlock then
      ⟨maxMixedBlockSize, cur⟩ :: fillMixed es [e] e.size
    else fillMixed es (cur ++ [e]) (tail + e.size)

/-- The mixed blocks of the small entries; no block is opened when there are none. -/
def mixedBlocks : List Entry → List LogBlock
  | [] => []
  | e :: es => fillMixed (e :: es) [] 0

/-- The block of an entry whose value is not stored next to its key. -/
def valueBlock (e : Entry) : LogBlock := ⟨ceil (u32 e.size) 512, [e]⟩

/-- The entries before the first one that does not go next to its key. -/
def smallEntries (es : List (ℕ × Entry)) : List (ℕ × Entry) :=
  es.takeWhile fun x => shouldWriteValueToLSM x.2

/-- The entries from the first one on that does not go next to its key. -/
def valueEntries (es : List (ℕ × Entry)) : List (ℕ × Entry) :=
  es.dropWhile fun x => shouldWriteValueToLSM x.2

/-- `entriesToBlocks` behind its sort.  An entry that does not fit into an empty mixed block makes
`Fill` write past the end of the block, which panics. -/
def entriesToBlocks (es : List (ℕ × Entry)) : Option (List LogBlock) :=
  if (smallEntries es).all fun x => x.2.size ≤ maxMixedBlockSize then
    some (mixedBlocks ((smallEntries es).map Prod.snd) ++
      (valueEntries es).map fun x => valueBlock x.2)
  else none

/-- The positions of the blocks of the value entries, the first of them at offset `o`. -/
def valuePositions (id : ℕ) : ℕ → List (ℕ × Entry) → List (ℕ × EntryInfo)
  | _, [] => []
  | o, x :: xs =>
    (x.1, ⟨x.2, id, o, 0⟩) :: valuePositions id (o + (valueBlock x.2).size) xs

/-- The entries after the append at offset `o` of extent `id`: those with a block of their own
know its position. -/
def fillPositions (id o : ℕ) (es : List (ℕ × Entry)) : List (ℕ × EntryInfo) :=
  ((smallEntries es).map fun x => (x.1, ⟨x.2, 0, 0, 0⟩)) ++
    valuePositions id (o + blocksSize (mixedBlocks ((smallEntries es).map Prod.snd)))
      (valueEntries es)

/-- The entries in the order of the batch. -/
def requestOrder (es : List (ℕ × EntryInfo)) : List EntryInfo :=
  (es.insertionSort fun a b => a.1 ≤ b.1).map Prod.snd

theorem mem_requestOrder {es : List (ℕ × EntryInfo)} {ei : EntryInfo} :
    ei ∈ requestOrder es ↔ ∃ x ∈ es, x.2 = ei := by
  rw [requestOrder, mem_map]
  exact exists_congr fun x => and_congr_left fun _ => mem_insertionSort _

/-! ## The blocks hold the batch -/

theorem map_log_placedAt_fillMixed (id : ℕ) :
    ∀ (es cur : List Entry) (tail o : ℕ),
      (placedAt id o (fillMixed es cur tail)).map EntryInfo.log = cur ++ es
  | [], cur, tail, o => by simp [fillMixed, placedAt, Function.comp_def]
  | e :: es, cur, tail, o => by
    rw [fillMixed]
    split_ifs
    · rw [placedAt, map_append, map_log_placedAt_fillMixed id es [e] e.size]
      simp [Function.comp_def]
    · rw [map_log_placedAt_fillMixed id es (cur ++ [e])]
      simp

theorem map_log_placedAt_mixedBlocks (id o : ℕ) (es : List Entry) :
    (placedAt id o (mixedBlocks es)).map EntryInfo.log = es := by
  cases es with
  | nil => rfl
  | cons e es => rw [mixedBlocks, map_log_placedAt_fillMixed, nil_append]

/-- The entry in a block and the entry in its request: the same entry, and the same position if it
has a block of its own. -/
def SameEntry (p : EntryInfo) (q : ℕ × EntryInfo) : Prop :=
  p.log = q.2.log ∧ (shouldWriteValueToLSM p.log = true ∨
    (p.extentID = q.2.extentID ∧ p.offset = q.2.offset))

variable {ps : List EntryInfo}

theorem forall₂_small :
    ∀ {es : List (ℕ × Entry)}, ps.map EntryInfo.log = es.map Prod.snd →
      (∀ x ∈ es, shouldWriteValueToLSM x.2 = true) →
      List.Forall₂ SameEntry ps (es.map fun x => (x.1, (⟨x.2, 0, 0, 0⟩ : EntryInfo))) := by
  induction ps with
  | nil =>
    intro es h _
    rw [map_nil, eq_comm, map_eq_nil_iff] at h
    rw [h]
    exact List.Forall₂.nil
  | cons p ps ih =>
    intro es h hsmall
    cases es with
    | nil => simp at h
    | cons x es =>
      rw [map_cons, map_cons, cons.injEq] at h
      refine List.Forall₂.cons ⟨h.1, .inl ?_⟩
        (ih h.2 fun y hy => hsmall y (.tail _ hy))
      rw [h.1]
      exact hsmall x (.head _)

theorem forall₂_value (id : ℕ) :
    ∀ (es : List (ℕ × Entry)) (o : ℕ),
      List.Forall₂ SameEntry (placedAt id o (es.map fun x => valueBlock x.2))
        (valuePositions id o es)
  | [], _ => List.Forall₂.nil
  | _ :: es, _ => List.Forall₂.cons ⟨rfl, .inr ⟨rfl, rfl⟩⟩ (forall₂_value id es _)

/-- **The blocks hold the batch**: entry by entry, in the sorted order, with the positions that the
requests see. -/
theorem forall₂_placedAt_fillPositions {es : List (ℕ × Entry)} {bs : List LogBlock} (id o : ℕ)
    (h : entriesToBlocks es = some bs) :
    List.Forall₂ SameEntry (placedAt id o bs) (fillPositions id o es) := by
  rw [entriesToBlocks] at h
  split_ifs at h
  cases h
  rw [placedAt_append]
  refine rel_append (forall₂_small ?_ ?_) (forall₂_value id _ _)
  · exact map_log_placedAt_mixedBlocks id o _
  · exact fun x hx => mem_takeWhile_imp (p := fun y : ℕ × Entry => shouldWriteValueToLSM y.2) hx

theorem exists_right_of_mem {α β : Type*} {R : α → β → Prop} {ps : List α} {qs : List β}
    (h : List.Forall₂ R ps qs) {p : α} (hp : p ∈ ps) : ∃ q ∈ qs, R p q := by
  obtain ⟨i, hi, rfl⟩ := mem_iff_getElem.mp hp
  have hi' : i < qs.length := h.length_eq ▸ hi
  exact ⟨qs[i], getElem_mem hi', (forall₂_iff_get.mp h).2 i hi hi'⟩

theorem map_log_valuePositions (id : ℕ) :
    ∀ (es : List (ℕ × Entry)) (o : ℕ),
      (valuePositions id o es).map (fun x => x.2.log) = es.map Prod.snd
  | [], _ => rfl
  | x :: es, o => by
    rw [valuePositions, map_cons, map_cons, map_log_valuePositions id es]

theorem map_log_fillPositions (id o : ℕ) (es : List (ℕ × Entry)) :
    (fillPositions id o es).map (fun x => x.2.log) = es.map Prod.snd := by
  rw [fillPositions, map_append, map_log_valuePositions, map_map]
  conv_rhs => rw [← takeWhile_append_dropWhile (p := fun x => shouldWriteValueToLSM x.2)
    (l := es), map_append]
  rfl

/-! ## Reading back -/

/-- `readBlockEntries` in replay mode, entry by entry: an entry stored next to its key is
delivered whole; of the others only the key and the position are. -/
def replayInfo (p : EntryInfo) : EntryInfo :=
  if shouldWriteValueToLSM p.log then { p with estimatedSize := p.log.size }
  else { p with log := { p.log with
    metaBits := p.log.metaBits ||| bitValuePointer.toUInt32, value := [] } }

@[simp] theorem replayInfo_key (p : EntryInfo) : (replayInfo p).log.key = p.log.key := by
  rw [replayInfo]
  split_ifs <;> rfl

@[simp] theorem replayInfo_extentID (p : EntryInfo) : (replayInfo p).extentID = p.extentID := by
  rw [replayInfo]
  split_ifs <;> rfl

@[simp] theorem replayInfo_offset (p : EntryInfo) : (replayInfo p).offset = p.offset := by
  rw [replayInfo]
  split_ifs <;> rfl

/-- The block at an offset, the first block being at offset `o`. -/
def blockAt : ℕ → List LogBlock → ℕ → Option LogBlock
  | _, [], _ => none
  | o, b :: bs, off => if o = off then some b else blockAt (o + b.size) bs off

theorem blockAt_append {o off : ℕ} {b : LogBlock} :
    ∀ {bs : List LogBlock} (cs : List LogBlock), blockAt o bs off = some b →
      blockAt o (bs ++ cs) off = some b
  | [], _, h => by simp [blockAt] at h
  | c :: bs, cs, h => by
    rw [cons_append, blockAt]
    rw [blockAt] at h
    split_ifs at h ⊢ with ho
    · exact h
    · exact blockAt_append cs h

theorem blockAt_blocksSize (b : LogBlock) (cs : List LogBlock) :
    ∀ (bs : List LogBlock) (o : ℕ), blockAt o (bs ++ b :: cs) (o + blocksSize bs) = some b
  | [], o => by simp [blockAt]
  | c :: bs, o => by
    have hne : o ≠ o + blocksSize (c :: bs) := by
      rw [blocksSize_cons, LogBlock.size]
      omega
    rw [cons_append, blockAt, if_neg hne, blocksSize_cons, ← Nat.add_assoc]
    exact blockAt_blocksSize b cs bs (o + c.size)

namespace LogStream

/-- `Read` of one block. -/
def readBlock (s : LogStream) (e o : ℕ) : Option LogBlock :=
  (s.exs.find? fun x => x.id = e).bind fun x => blockAt 512 x.blocks o

variable {e : ℕ}

theorem find?_append_last (s : LogStream) (bs : List LogBlock) :
    (s.append bs).exs.find? (fun x => x.id = e) =
      ((s.exs.find? fun x => x.id = e).map fun x =>
        if s.front.find? (fun x => x.id = e) = none then
          { x with blocks := x.blocks ++ bs } else x) := by
  rw [exs, exs, find?_append, find?_append]
  cases hf : s.front.find? fun x => x.id = e with
  | some x => simp [append, hf]
  | none =>
    by_cases hl : s.last.id = e
    · simp [append, hf, hl]
    · simp [append, hf, hl]

variable {s : LogStream}

theorem readBlock_append {o : ℕ} {b : LogBlock} (h : s.readBlock e o = some b)
    (bs : List LogBlock) :
    (s.append bs).readBlock e o = some b := by
  rw [readBlock, Option.bind_eq_some_iff] at h
  obtain ⟨x, hx, hb⟩ := h
  rw [readBlock, find?_append_last, hx, Option.map_some, Option.bind_some]
  split_ifs
  · exact blockAt_append bs hb
  · exact hb

theorem readBlock_newExtent {o : ℕ} {b : LogBlock} (h : s.readBlock e o = some b) (id : ℕ) :
    (s.newExtent id).readBlock e o = some b := by
  rw [readBlock, Option.bind_eq_some_iff] at h
  obtain ⟨x, hx, hb⟩ := h
  have hx' : (s.newExtent id).exs.find? (fun x => x.id = e) = some x := by
    have : (s.newExtent id).exs = s.exs ++ [⟨id, []⟩] := rfl
    rw [this, find?_append, hx, Option.some_or]
  rw [readBlock, hx', Option.bind_some, hb]

theorem readBlock_append_self (hwf : s.WellFormed) (bs cs : List LogBlock) (b : LogBlock) :
    (s.append (bs ++ b :: cs)).readBlock s.last.id (s.tail + blocksSize bs) = some b := by
  have hfront : s.front.find? (fun x => x.id = s.last.id) = none := by
    rw [find?_eq_none]
    intro x hx
    have hnd := hwf.nodup
    rw [exs, map_append, nodup_append] at hnd
    have := hnd.2.2 _ (mem_map_of_mem hx) s.last.id (by simp)
    simpa using this
  have hfind : (s.append (bs ++ b :: cs)).exs.find? (fun x => x.id = s.last.id) =
      some (s.append (bs ++ b :: cs)).last := by
    rw [exs, find?_append]
    simp [append, hfront]
  rw [readBlock, hfind, Option.bind_some]
  have hblocks : (s.append (bs ++ b :: cs)).last.blocks = (s.last.blocks ++ bs) ++ b :: cs := by
    simp [append]
  have hoff : s.tail + blocksSize bs = 512 + blocksSize (s.last.blocks ++ bs) := by
    rw [tail, LogExtent.commitLength, blocksSize_append]
    omega
  rw [hblocks, hoff]
  exact blockAt_blocksSize b cs _ 512

end LogStream

end Autumn
