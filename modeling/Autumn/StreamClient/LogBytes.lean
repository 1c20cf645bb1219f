import Autumn.StreamClient.BlockCodec
import Autumn.StreamClient.Iterator

/-!
# The bytes of the log stream

What the blocks of the log stream are on disk: its entries, with their keys as bytes, are those that
a block of bytes packs, and the two have the same length (`Represents`).  An internal key has eight
bytes for its version, so no entry of the log stream is empty.
-/

namespace Autumn
namespace Pb

open Lib Y List EntryInfo

/-- An entry with its key as bytes. -/
def Entry.ofLog (e : Y.Entry) : Entry :=
  ⟨e.key.bytes, e.value, e.metaBits, e.userMeta, UInt64.ofNat e.expiresAt⟩

/-- A block of bytes is the block of the log stream: it has its length and packs its entries. -/
def Represents (C : Codec) (b : Block) (lb : LogBlock) : Prop :=
  b.blockLength.toNat = lb.blockLength ∧ Packs C b (lb.entries.map Entry.ofLog)

variable {e : Y.Entry} {es : List Y.Entry} {lb : LogBlock} {C : Codec}

theorem Entry.size_ofLog (h : e.expiresAt < 2 ^ 64) : (ofLog e).size = e.size := by
  have hexp : (UInt64.ofNat e.expiresAt).toNat = e.expiresAt := by
    rw [UInt64.toNat_ofNat', Nat.mod_eq_of_lt h]
  unfold Entry.size Y.Entry.size ofLog
  rw [hexp, InternalKey.length_bytes]

theorem entriesSize_ofLog (h : ∀ e ∈ es, e.expiresAt < 2 ^ 64) :
    entriesSize (es.map Entry.ofLog) = (es.map Y.Entry.size).sum := by
  rw [entriesSize, map_map]
  congr 1
  exact map_congr_left fun e he => Entry.size_ofLog (h e he)

theorem packGroups_ofLog {cur : List Y.Entry} {tail : ℕ} (h : ∀ e ∈ es, e.expiresAt < 2 ^ 64)
    (hcur : ∀ e ∈ cur, e.expiresAt < 2 ^ 64) (htail : tail = (cur.map Y.Entry.size).sum) :
    packGroups (es.map Entry.ofLog) (cur.map Entry.ofLog) =
      (fillMixed es cur tail).map fun lb => lb.entries.map Entry.ofLog := by
  fun_induction fillMixed es cur tail with
  | case1 => rfl
  | case2 e es cur tail hfull ih =>
    obtain ⟨he, hes⟩ := forall_mem_cons.mp h
    rw [map_cons, packGroups, entriesSize_ofLog hcur, Entry.size_ofLog he, ← htail, length_map,
      if_neg (by omega), map_cons, ← ih hes (by simpa using he) (by simp), map_singleton]
  | case3 e es cur tail hroom ih =>
    obtain ⟨he, hes⟩ := forall_mem_cons.mp h
    rw [map_cons, packGroups, entriesSize_ofLog hcur, Entry.size_ofLog he, ← htail, length_map,
      if_pos (by omega), ← ih hes (forall_mem_concat hcur he) (by simp [htail]), map_append,
      map_singleton]

theorem of_mem_fillMixed {cur : List Y.Entry} {tail : ℕ} (h : lb ∈ fillMixed es cur tail) :
    lb.blockLength = maxMixedBlockSize ∧ lb.entries ⊆ cur ++ es := by
  fun_induction fillMixed es cur tail with
  | case1 cur tail =>
    rw [mem_singleton.mp h]
    exact ⟨rfl, by simp⟩
  | case2 e es cur tail hfull ih =>
    rcases h with _ | ⟨_, h⟩
    · exact ⟨rfl, by simp⟩
    · exact ⟨(ih h).1, fun x hx => mem_append_right _ ((ih h).2 hx)⟩
  | case3 e es cur tail hroom ih => simpa using ih h

theorem mixedGroups_ofLog (h : ∀ e ∈ es, e.expiresAt < 2 ^ 64) :
    mixedGroups (es.map Entry.ofLog) =
        (mixedBlocks es).map (fun lb => lb.entries.map Entry.ofLog) ∧
      ∀ lb ∈ mixedBlocks es, lb.blockLength = maxMixedBlockSize ∧ lb.entries ⊆ es := by
  cases es with
  | nil => exact ⟨rfl, by simp [mixedBlocks]⟩
  | cons e es =>
    exact ⟨@packGroups_ofLog _ [] 0 h (by simp) rfl, fun lb hlb => of_mem_fillMixed hlb⟩

/-- An entry of a batch, before it has a position. -/
def EntryInfo.ofLog (x : ℕ × Y.Entry) : EntryInfo := ⟨Entry.ofLog x.2, 0, 0, 0⟩

theorem map_ofLog_smallEntries (es : List (ℕ × Y.Entry)) :
    smallEntries (es.map ofLog) = (Autumn.smallEntries es).map ofLog := by
  unfold smallEntries Autumn.smallEntries
  rw [takeWhile_map]
  rfl

theorem map_ofLog_valueEntries (es : List (ℕ × Y.Entry)) :
    valueEntries (es.map ofLog) = (Autumn.valueEntries es).map ofLog := by
  unfold valueEntries Autumn.valueEntries
  rw [dropWhile_map]
  rfl

theorem represents_valueBlock (hexp : e.expiresAt < 2 ^ 64) (hle : e.size ≤ 2 ^ 32 - 512) :
    ∃ b, valueBlock C (Entry.ofLog e) = some b ∧ Represents C b (Autumn.valueBlock e) := by
  have hsize := Entry.size_ofLog hexp
  have hpos : 0 < e.size := by
    unfold Y.Entry.size InternalKey.len sizeField
    rw [if_pos (by omega)]
    omega
  obtain ⟨b, hb, hpacks, hlen⟩ := valueBlock_eq (C := C) (e := Entry.ofLog e) (by omega) (by omega)
  refine ⟨b, hb, ?_, hpacks⟩
  rw [hlen, hsize]
  rfl

/-- What a read delivers, with the key as bytes. -/
def EntryInfo.ofInfo (ei : Y.EntryInfo) : EntryInfo :=
  ⟨Entry.ofLog ei.log, ei.extentID, ei.offset, ei.estimatedSize⟩

theorem Represents.wellFormed {b : Block} (h : Represents C b lb) : lb.WellFormed := by
  rcases h.2.alone with hinline | ⟨e, he⟩
  · exact .inl fun e he => hinline _ (mem_map_of_mem he)
  · obtain ⟨a, ha, -⟩ := map_eq_singleton_iff.mp he
    exact .inr ⟨a, ha⟩

theorem ofInfo_replayInfo (hexp : e.expiresAt < 2 ^ 64) (id o n : ℕ) :
    ofInfo (replayInfo ⟨e, id, o, n + 512⟩) = replayed id o n (Entry.ofLog e) := by
  by_cases he : Y.shouldWriteValueToLSM e = true
  · rw [replayInfo, if_pos he, replayed,
      if_pos (show shouldWriteValueToLSM (Entry.ofLog e) = true from he),
      Entry.size_ofLog hexp]
    rfl
  · rw [replayInfo, if_neg he, replayed,
      if_neg (show ¬ shouldWriteValueToLSM (Entry.ofLog e) = true from he)]
    rfl

/-- A block of bytes that `writeBlock` accepts, and from which `readBlockEntries` delivers what it
delivers from the block of the log stream. -/
def ReadsAs (C : Codec) (b : Block) (lb : LogBlock) : Prop :=
  Represents C b lb ∧ ∃ x, writeBlock b = some x ∧ ∀ rest id o,
    ∃ es, Autumn.readBlockEntries id o lb = some es ∧
      readBlockEntries C (x ++ rest) id o true = .ok (es.map EntryInfo.ofInfo, lb.blockLength)

theorem Represents.readsAs {b : Block} (h : Represents C b lb)
    (hexp : ∀ e ∈ lb.entries, e.expiresAt < 2 ^ 64) : ReadsAs C b lb := by
  obtain ⟨x, hx⟩ := h.2.written.2
  refine ⟨h, x, hx, fun rest id o => ⟨_, readBlockEntries_eq h.wellFormed, ?_⟩⟩
  have hat : entriesAt id o [lb] = lb.entries.map fun e => replayInfo ⟨e, id, o, lb.size⟩ := by
    simp [entriesAt, placedAt, Function.comp_def]
  rw [readBlockEntries_packs h.2 hx, hat, h.1, map_map, map_map]
  congr 2
  exact map_congr_left fun e he => (ofInfo_replayInfo (hexp e he) id o lb.blockLength).symm

theorem readsAs_valueBlocks {vs : List (ℕ × Y.Entry)} (hexp : ∀ x ∈ vs, x.2.expiresAt < 2 ^ 64)
    (hle : ∀ x ∈ vs, x.2.size ≤ 2 ^ 32 - 512) :
    ∃ values, (vs.map ofLog).mapM (fun ei => valueBlock C ei.log) = some values ∧
      List.Forall₂ (ReadsAs C) values (vs.map fun x => Autumn.valueBlock x.2) := by
  induction vs with
  | nil => exact ⟨[], rfl, .nil⟩
  | cons x vs ih =>
    rw [forall_mem_cons] at hexp hle
    obtain ⟨values, hvalues, hrep⟩ := ih hexp.2 hle.2
    obtain ⟨b, hb, hrepb⟩ := represents_valueBlock (C := C) hexp.1 hle.1
    refine ⟨b :: values, ?_, .cons (hrepb.readsAs ?_) hrep⟩
    · rw [map_cons, mapM_cons, hvalues]
      simp [ofLog, hb]
    · simpa [Autumn.valueBlock] using hexp.1

/-- The two loops of `entriesToBlocks` make of a batch the bytes of the blocks `lbs`. -/
def Packed (C : Codec) (es : List (ℕ × Y.Entry)) (lbs : List LogBlock) : Prop :=
  ∃ mixed values,
    fillLoop C (es.map EntryInfo.ofLog) none [] =
      some (mixed, valueEntries (es.map EntryInfo.ofLog)) ∧
    (valueEntries (es.map EntryInfo.ofLog)).mapM (fun ei => valueBlock C ei.log) = some values ∧
    List.Forall₂ (ReadsAs C) (mixed ++ values) lbs

/-- **The log stream on bytes**: a batch becomes the bytes of the blocks that the log stream has for
it, and they are read back as these blocks. -/
theorem packed_of_entriesToBlocks (C : Codec) {es : List (ℕ × Y.Entry)} {lbs : List LogBlock}
    (hexp : ∀ x ∈ es, x.2.expiresAt < 2 ^ 64)
    (hle : ∀ x ∈ Autumn.valueEntries es, x.2.size ≤ 2 ^ 32 - 512)
    (h : Autumn.entriesToBlocks es = some lbs) : Packed C es lbs := by
  rw [Autumn.entriesToBlocks] at h
  split_ifs at h with hfit
  cases h
  have hsmallexp : ∀ e ∈ (Autumn.smallEntries es).map Prod.snd, e.expiresAt < 2 ^ 64 := by
    intro e he
    obtain ⟨x, hx, rfl⟩ := mem_map.mp he
    exact hexp x (( takeWhile_prefix _).subset hx)
  have hinline : ∀ x ∈ smallEntries (es.map ofLog), x.log.size ≤ maxMixedBlockSize := by
    intro x hx
    rw [map_ofLog_smallEntries] at hx
    obtain ⟨y, hy, rfl⟩ := mem_map.mp hx
    have := all_eq_true.mp hfit y hy
    rw [ofLog, Entry.size_ofLog (hsmallexp _ (mem_map_of_mem hy))]
    simpa using this
  obtain ⟨mixed, hmixed, hpacks⟩ := fillLoop_eq (C := C) hinline
  have hlogs : (smallEntries (es.map EntryInfo.ofLog)).map EntryInfo.log =
      ((Autumn.smallEntries es).map Prod.snd).map Entry.ofLog := by
    rw [map_ofLog_smallEntries, map_map, map_map]
    rfl
  obtain ⟨hgroups, hmix⟩ := mixedGroups_ofLog hsmallexp
  rw [hlogs, hgroups, forall₂_map_right_iff] at hpacks
  obtain ⟨values, hvalues, hrep⟩ := @readsAs_valueBlocks C (Autumn.valueEntries es)
    (fun x hx => hexp x ((dropWhile_suffix _).subset hx)) hle
  refine ⟨mixed, values, hmixed, by rw [map_ofLog_valueEntries, hvalues], rel_append ?_ hrep⟩
  rw [forall₂_iff_get] at hpacks ⊢
  refine ⟨hpacks.1, fun i hi hi' => ?_⟩
  obtain ⟨hpack, hblock⟩ := hpacks.2 i hi hi'
  obtain ⟨hlen, hsub⟩ := hmix _ (get_mem (mixedBlocks _) ⟨i, hi'⟩)
  refine Represents.readsAs ⟨?_, hpack⟩ fun e he => hsmallexp e (hsub he)
  rw [hblock, hlen]
  rfl

/-- A value next to its key, and one with a block of its own. -/
def smallAndLarge : List (ℕ × Y.Entry) :=
  [(0, { key := ⟨[107], 5⟩, value := [1] }), (1, { key := ⟨[108], 6⟩, value := replicate 2000 0 })]

theorem packed_of_entriesToBlocks_smallAndLarge :
    ∃ lbs, Autumn.entriesToBlocks smallAndLarge = some lbs ∧
    Packed Codec.wire smallAndLarge lbs := by
  obtain ⟨lbs, hlbs⟩ : ∃ lbs, Autumn.entriesToBlocks smallAndLarge = some lbs :=
    Option.isSome_iff_exists.mp (by decide +kernel)
  exact ⟨lbs, hlbs, packed_of_entriesToBlocks Codec.wire (by decide +kernel)
    (by decide +kernel) hlbs⟩

end Pb
end Autumn
