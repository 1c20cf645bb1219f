import Autumn.Pb
import Autumn.Y.Encoding
import Autumn.Extent.RoundTrip
import Autumn.StreamClient.MixBlock

/-!
# Entries in the bytes of a block

A block of the log holds marshalled entries one after the other, and its user data says where each
of them starts and where the last one ends.  `entriesToBlocks` packs the entries that are stored
next to their keys into mixed blocks of 4096 bytes and gives a block to each of the others.

Writer and reader meet in `Packs`: the block is one that `writeBlock` accepts and its user data and
data are those of a list of entries.  The writer's blocks pack their entries (`fillLoop_eq`,
`valueBlock_eq`), and from such a block the readers get these entries (`readBlockEntries_packs`,
`extractLogEntry_packs`).
-/

namespace Autumn
namespace Pb

open Lib Y List Option

/-! ## The code -/

/-- `mixedBlock`. -/
structure MixedBlock where
  offsets : List UInt32
  data : Bytes
  tail : ℕ
  deriving DecidableEq, Repr

/-- `NewMixedBlock`. -/
def newMixedBlock : MixedBlock := ⟨[], List.replicate maxMixedBlockSize 0, 0⟩

/-- `CanFill`. -/
def MixedBlock.canFill (mb : MixedBlock) (entry : Entry) : Bool :=
  !(decide (mb.tail + entry.size > maxMixedBlockSize) ||
    decide (mb.offsets.length ≥ maxEntriesInBlock))

/-- `entry.MarshalTo(data[pos:])`, which panics if there is not enough room. -/
def marshalTo (C : Codec) (data : Bytes) (pos : ℕ) (entry : Entry) : Option Bytes :=
  if data.length < pos + entry.size then none
  else some (data.take pos ++ (C.marshalEntry entry ++ data.drop (pos + entry.size)))

/-- `Fill`. -/
def MixedBlock.fill (C : Codec) (mb : MixedBlock) (entry : Entry) : Option MixedBlock :=
  (marshalTo C mb.data mb.tail entry).map fun data =>
    ⟨mb.offsets ++ [UInt32.ofNat mb.tail], data, mb.tail + entry.size⟩

/-- `ToBlock`. -/
def MixedBlock.toBlock (C : Codec) (mb : MixedBlock) : Block where
  checkSum := adlerCheckSum mb.data
  blockLength := UInt32.ofNat maxMixedBlockSize
  userData := C.marshalMixed (mb.offsets ++ [UInt32.ofNat mb.tail])
  data := mb.data

/-- The first loop of `entriesToBlocks`, with the block that is open and the blocks that are closed.
It ends at the first entry that is not stored next to its key, and closes the last block. -/
def fillLoop (C : Codec) :
    List EntryInfo → Option MixedBlock → List Block → Option (List Block × List EntryInfo)
  | [], mblock, blocks => some (blocks ++ mblock.toList.map (MixedBlock.toBlock C), [])
  | ei :: entries, mblock, blocks =>
    if !shouldWriteValueToLSM ei.log then
      some (blocks ++ mblock.toList.map (MixedBlock.toBlock C), ei :: entries)
    else
      let mb := mblock.getD newMixedBlock
      if !mb.canFill ei.log then
        (newMixedBlock.fill C ei.log).bind fun mb' =>
          fillLoop C entries (some mb') (blocks ++ [mb.toBlock C])
      else (mb.fill C ei.log).bind fun mb' => fillLoop C entries (some mb') blocks

/-- The second loop of `entriesToBlocks`: one entry, one block. -/
def valueBlock (C : Codec) (entry : Entry) : Option Block :=
  let blockLength := UInt32.ofNat (ceil (u32 entry.size) 512)
  (marshalTo C (List.replicate blockLength.toNat 0) 0 entry).map fun data =>
    { checkSum := adlerCheckSum data
      blockLength := blockLength
      userData := C.marshalMixed [0, UInt32.ofNat entry.size]
      data := data }

/-- The order of the sort. -/
def shorter (a b : EntryInfo) : Bool := decide (a.log.value.length < b.log.value.length)

/-- `entriesToBlocks`: the entries as the sort leaves them, the blocks, and the indices of the first
entry and of the first block behind the mixed blocks; `none` is a panic. -/
def entriesToBlocks (C : Codec) (srt : SliceSort EntryInfo shorter) (entries : List EntryInfo) :
    Option (List EntryInfo × List Block × ℕ × ℕ) :=
  if entries = [] then none
  else
    let entries := srt.sort entries
    (fillLoop C entries none []).bind fun (blocks, rest) =>
      (rest.mapM fun ei => valueBlock C ei.log).map fun values =>
        (entries, blocks ++ values, entries.length - rest.length, blocks.length)

/-- What the iterator of the log gets of an entry whose value is not stored next to its key. -/
def Entry.pointer (entry : Entry) : Entry :=
  { entry with metaBits := entry.metaBits ||| bitValuePointer.toUInt32, value := [] }

/-- The loop of `readBlockEntries` over the offsets.  The reader of the garbage collection leaves it
at the first entry; an entry with a block of its own must be the only one. -/
def decodeLoop (C : Codec) (data : Bytes) (extentID offset : ℕ) (replay single : Bool) :
    List UInt32 → List EntryInfo → Except BlockError (List EntryInfo)
  | a :: b :: offsets, ret =>
    match (slice data a.toNat b.toNat).bind C.unmarshalEntry with
    | none => .error .panicked
    | some entry =>
      if shouldWriteValueToLSM entry then
        if replay then
          decodeLoop C data extentID offset replay single (b :: offsets)
            (ret ++ [⟨entry, extentID, offset, entry.size⟩])
        else .ok (ret ++ [⟨⟨[], [], 0, 0, 0⟩, extentID, offset, data.length + 512⟩])
      else if single then .ok (ret ++ [⟨entry.pointer, extentID, offset, data.length + 512⟩])
      else .error .panicked
  | _, ret => .ok ret

/-- `readBlockEntries` of a reader in front of the bytes `r`: the entries and the length of the
block.  It reads the header and the data with the checks of `readBlock`. -/
def readBlockEntries (C : Codec) (r : Bytes) (extentID offset : ℕ) (replay : Bool) :
    Except BlockError (List EntryInfo × ℕ) :=
  match readBlock r with
  | .error x => .error x
  | .ok b =>
    match C.unmarshalMixed b.userData with
    | none => .error .panicked
    | some offsets =>
      (decodeLoop C b.data extentID offset replay (offsets.length == 2) offsets []).map fun ret =>
        (ret, b.data.length)

/-- The loop of `ExtractLogEntry`. -/
def extractLoop (C : Codec) (data : Bytes) : List UInt32 → List Entry → Option (List Entry)
  | a :: b :: offsets, ret =>
    ((slice data a.toNat b.toNat).bind C.unmarshalEntry).bind fun entry =>
      extractLoop C data (b :: offsets) (ret ++ [entry])
  | _, ret => some ret

/-- `ExtractLogEntry`; without offsets the length of the slice it makes is negative. -/
def extractLogEntry (C : Codec) (b : Block) : Option (List Entry) :=
  (C.unmarshalMixed b.userData).bind fun offsets =>
    if offsets = [] then none else extractLoop C b.data offsets []

/-! ## Entries one after the other -/

/-- The bytes of the entries. -/
def marshalled (C : Codec) (es : List Entry) : Bytes := es.flatMap C.marshalEntry

/-- The size of the entries. -/
def entriesSize (es : List Entry) : ℕ := (es.map Entry.size).sum

/-- Where the entries start, the first of them at `p`, and where the last one ends. -/
def bounds : ℕ → List Entry → List UInt32
  | p, [] => [UInt32.ofNat p]
  | p, e :: es => UInt32.ofNat p :: bounds (p + e.size) es

@[simp] theorem marshalled_nil (C : Codec) : marshalled C [] = [] := rfl

@[simp] theorem marshalled_cons (C : Codec) (e : Entry) (es : List Entry) :
    marshalled C (e :: es) = C.marshalEntry e ++ marshalled C es := flatMap_cons

theorem marshalled_append (C : Codec) (as bs : List Entry) :
    marshalled C (as ++ bs) = marshalled C as ++ marshalled C bs := flatMap_append

@[simp] theorem entriesSize_nil : entriesSize [] = 0 := rfl

@[simp] theorem entriesSize_cons (e : Entry) (es : List Entry) :
    entriesSize (e :: es) = e.size + entriesSize es := by
  rw [entriesSize, map_cons, sum_cons, entriesSize]

theorem entriesSize_append (as bs : List Entry) :
    entriesSize (as ++ bs) = entriesSize as + entriesSize bs := by
  rw [entriesSize, map_append, sum_append, entriesSize, entriesSize]

variable {C : Codec}

theorem length_marshalled {es : List Entry} (h : entriesSize es < 2 ^ 63) :
    (marshalled C es).length = entriesSize es := by
  induction es with
  | nil => rfl
  | cons e es ih =>
    rw [entriesSize_cons] at h
    rw [marshalled_cons, length_append, C.length_marshalEntry e (by omega), ih (by omega),
      entriesSize_cons]

theorem bounds_eq_cons (p : ℕ) (es : List Entry) : ∃ os, bounds p es = UInt32.ofNat p :: os := by
  cases es with
  | nil => exact ⟨[], rfl⟩
  | cons e es => exact ⟨_, rfl⟩

theorem length_bounds (p : ℕ) (es : List Entry) : (bounds p es).length = es.length + 1 := by
  induction es generalizing p with
  | nil => rfl
  | cons e es ih => rw [bounds, length_cons, length_cons, ih]

theorem bounds_append (p : ℕ) (es : List Entry) (e : Entry) :
    bounds p (es ++ [e]) = bounds p es ++ [UInt32.ofNat (p + entriesSize es + e.size)] := by
  induction es generalizing p with
  | nil => rfl
  | cons a es ih =>
    rw [cons_append, bounds, bounds, ih, entriesSize_cons, cons_append, ← Nat.add_assoc]

variable {n : ℕ}

theorem le_of_mem_bounds {p : ℕ} {es : List Entry} (hn : p + entriesSize es ≤ n) {o : UInt32}
    (ho : o ∈ bounds p es) : o.toNat ≤ n := by
  induction es generalizing p with
  | nil =>
    rw [bounds, mem_singleton] at ho
    rw [ho, UInt32.toNat_ofNat']
    exact (Nat.mod_le _ _).trans (by simpa using hn)
  | cons e es ih =>
    rw [entriesSize_cons] at hn
    rcases ho with _ | ⟨_, ho⟩
    · rw [UInt32.toNat_ofNat']
      exact (Nat.mod_le _ _).trans (by omega)
    · exact ih (by omega) ho

variable {e : Entry} {data : Bytes}

theorem slice_bounds (pre rest : Bytes) (hdata : data = pre ++ (C.marshalEntry e ++ rest))
    (hlt : pre.length + e.size < 2 ^ 32) :
    (slice data (UInt32.ofNat pre.length).toNat (UInt32.ofNat (pre.length + e.size)).toNat).bind
      C.unmarshalEntry = some e := by
  have hlen : (C.marshalEntry e).length = e.size := C.length_marshalEntry e (by omega)
  have ha : (UInt32.ofNat pre.length).toNat = pre.length := by
    rw [UInt32.toNat_ofNat', Nat.mod_eq_of_lt (by omega)]
  have hb : (UInt32.ofNat (pre.length + e.size)).toNat = pre.length + e.size := by
    rw [UInt32.toNat_ofNat', Nat.mod_eq_of_lt hlt]
  rw [ha, hb, hdata, ← append_assoc, ← hlen, slice_append, bind_some,
    C.unmarshal_marshalEntry e (by omega)]

/-! ## Blocks that pack entries -/

/-- The block passes `writeBlock` and holds the entries; an entry that is not stored next to its key
is the only one. -/
structure Packs (C : Codec) (b : Block) (es : List Entry) : Prop where
  written : b.Written
  userData : C.unmarshalMixed b.userData = some (bounds 0 es)
  data : ∃ pad, b.data = marshalled C es ++ pad
  size : entriesSize es < 2 ^ 32
  alone : (∀ e ∈ es, shouldWriteValueToLSM e = true) ∨ ∃ e, es = [e]

/-- What `readBlockEntries` delivers of an entry in a block of length `n` at offset `offset`. -/
def replayed (extentID offset n : ℕ) (e : Entry) : EntryInfo :=
  if shouldWriteValueToLSM e then ⟨e, extentID, offset, e.size⟩
  else ⟨e.pointer, extentID, offset, n + 512⟩

theorem decodeLoop_bounds (id o : ℕ) (single : Bool) {es : List Entry}
    (hinline : ∀ e ∈ es, shouldWriteValueToLSM e = true) :
    ∀ (pre pad : Bytes) (ret : List EntryInfo), data = pre ++ (marshalled C es ++ pad) →
      pre.length + entriesSize es < 2 ^ 32 →
      decodeLoop C data id o true single (bounds pre.length es) ret =
        .ok (ret ++ es.map (replayed id o data.length)) := by
  induction es with
  | nil =>
    intro pre pad ret _ _
    rw [bounds, decodeLoop, map_nil, append_nil]
    intro a b offsets h
    simp at h
  | cons e es ih =>
    intro pre pad ret hdata hlt
    rw [marshalled_cons, append_assoc] at hdata
    rw [entriesSize_cons] at hlt
    have he : shouldWriteValueToLSM e = true := hinline e (.head _)
    have hlen : (pre ++ C.marshalEntry e).length = pre.length + e.size := by
      rw [length_append, C.length_marshalEntry e (by omega)]
    have hrest := ih (fun x hx => hinline x (.tail _ hx)) (pre ++ C.marshalEntry e) pad
      (ret ++ [⟨e, id, o, e.size⟩]) (by rw [hdata, append_assoc]) (by omega)
    rw [hlen] at hrest
    obtain ⟨os, hos⟩ := bounds_eq_cons (pre.length + e.size) es
    rw [hos] at hrest
    rw [bounds, hos, decodeLoop, slice_bounds pre _ hdata (by omega)]
    dsimp only
    rw [if_pos he, if_pos rfl, hrest, map_cons, replayed, if_pos he, append_assoc, singleton_append]

variable {b : Block}

/-- **Reading a block** in front of anything. -/
theorem readBlockEntries_packs {es : List Entry} (h : Packs C b es) {x : Bytes}
    (hx : writeBlock b = some x) (rest : Bytes) (id o : ℕ) :
    readBlockEntries C (x ++ rest) id o true =
      .ok (es.map (replayed id o b.blockLength.toNat), b.blockLength.toNat) := by
  have hsized : b.data.length = b.blockLength.toNat := h.written.1
  obtain ⟨pad, hpad⟩ := h.data
  rw [readBlockEntries, (Block.segment h.written.1 hx).read]
  dsimp only
  rw [h.userData]
  dsimp only
  by_cases hinline : ∀ e ∈ es, shouldWriteValueToLSM e = true
  · have hloop := decodeLoop_bounds id o ((bounds 0 es).length == 2) hinline [] pad [] hpad
      (by simpa using h.size)
    rw [length_nil] at hloop
    rw [hloop, ← hsized]
    rfl
  · obtain ⟨e, rfl⟩ := h.alone.resolve_left hinline
    have he : ¬ shouldWriteValueToLSM e = true := fun he =>
      hinline fun a ha => by rw [mem_singleton.mp ha, he]
    have hsize : e.size < 2 ^ 32 := by simpa using h.size
    have hslice := slice_bounds [] pad (show b.data = [] ++ (C.marshalEntry e ++ pad) by
      simpa using hpad) (by simpa using hsize)
    rw [length_nil] at hslice
    rw [bounds, bounds, decodeLoop, hslice]
    dsimp only
    rw [if_neg he, hsized, map_singleton, replayed, if_neg he]
    rfl

theorem extractLoop_bounds {es : List Entry} :
    ∀ (pre pad : Bytes) (ret : List Entry), data = pre ++ (marshalled C es ++ pad) →
      pre.length + entriesSize es < 2 ^ 32 →
      extractLoop C data (bounds pre.length es) ret = some (ret ++ es) := by
  induction es with
  | nil =>
    intro pre pad ret _ _
    rw [bounds, extractLoop, append_nil]
    intro a b offsets h
    simp at h
  | cons e es ih =>
    intro pre pad ret hdata hlt
    rw [marshalled_cons, append_assoc] at hdata
    rw [entriesSize_cons] at hlt
    have hlen : (pre ++ C.marshalEntry e).length = pre.length + e.size := by
      rw [length_append, C.length_marshalEntry e (by omega)]
    have hrest := ih (pre ++ C.marshalEntry e) pad (ret ++ [e]) (by rw [hdata, append_assoc])
      (by omega)
    rw [hlen] at hrest
    obtain ⟨os, hos⟩ := bounds_eq_cons (pre.length + e.size) es
    rw [hos] at hrest
    rw [bounds, hos, extractLoop, slice_bounds pre _ hdata (by omega), bind_some, hrest,
      append_assoc, singleton_append]

/-- **Extracting the entries** of a block. -/
theorem extractLogEntry_packs {es : List Entry} (h : Packs C b es) :
    extractLogEntry C b = some es := by
  obtain ⟨pad, hpad⟩ := h.data
  have hloop := extractLoop_bounds [] pad [] hpad (by simpa using h.size)
  have hne : bounds 0 es ≠ [] := by
    obtain ⟨os, hos⟩ := bounds_eq_cons 0 es
    rw [hos]
    exact cons_ne_nil _ _
  rw [extractLogEntry, h.userData, bind_some, if_neg hne]
  simpa using hloop

/-! ## The blocks that are made -/

/-- Short user data leaves nothing for `writeBlock` to object to but the block itself. -/
theorem written_of_checks (hs : b.Sized) (hal : align b.blockLength.toNat = true)
    (hck : b.checkSum = adlerCheckSum b.data) (hu : b.userData.length ≤ 400) : b.Written := by
  refine ⟨hs, ?_⟩
  have hlen := length_putUvarint_le b.blockLength.toNat
  have hulen := length_putUvarint_le b.userData.length
  unfold writeBlock
  rw [if_neg (by simp [hal]), if_neg (not_not.mpr hck)]
  by_cases hnil : b.userData = []
  · rw [if_pos hnil]
    exact ⟨_, rfl⟩
  · have hfit : ¬ 512 < (beBytes 4 b.checkSum.toNat ++ putUvarint b.blockLength.toNat ++
        putUvarint b.userData.length).length + b.userData.length := by
      rw [length_append, length_append, length_beBytes]
      omega
    rw [if_neg hnil, if_neg hfit]
    exact ⟨_, rfl⟩

theorem packedSize_le {os : List UInt32} (hos : ∀ o ∈ os, o.toNat ≤ maxMixedBlockSize) :
    packedSize os ≤ 2 * os.length := by
  unfold packedSize
  induction os with
  | nil => simp
  | cons o os ih =>
    have ho : sizeVarint o.toNat ≤ 1 + 1 := by
      refine sizeVarint_le ?_
      have := hos o (.head _)
      unfold maxMixedBlockSize at this
      omega
    have hrest := ih fun x hx => hos x (.tail _ hx)
    rw [map_cons, sum_cons, length_cons]
    omega

theorem mixedSize_le {os : List UInt32} (h : packedSize os ≤ n) (hn : n < 2 ^ 14) :
    mixedSize os ≤ n + 3 := by
  unfold mixedSize sizeField
  have := sizeVarint_le (n := 1) (show packedSize os < 2 ^ 14 by omega)
  split_ifs <;> omega

/-- An open mixed block and the entries in it. -/
structure MixedBlock.Holds (C : Codec) (mb : MixedBlock) (es : List Entry) : Prop where
  offsets : mb.offsets ++ [UInt32.ofNat mb.tail] = bounds 0 es
  data : mb.data = marshalled C es ++ List.replicate (maxMixedBlockSize - mb.tail) 0
  tail : mb.tail = entriesSize es
  fits : mb.tail ≤ maxMixedBlockSize
  count : es.length ≤ maxEntriesInBlock
  inline : ∀ e ∈ es, shouldWriteValueToLSM e = true

theorem holds_newMixedBlock (C : Codec) : newMixedBlock.Holds C [] where
  offsets := rfl
  data := rfl
  tail := rfl
  fits := Nat.zero_le _
  count := Nat.zero_le _
  inline := by simp

namespace MixedBlock.Holds

variable {mb : MixedBlock} {es : List Entry}

section

variable (h : mb.Holds C es)
include h

theorem length_marshalled : (marshalled C es).length = mb.tail := by
  have hfits := h.fits
  rw [h.tail] at hfits ⊢
  unfold maxMixedBlockSize at hfits
  exact Pb.length_marshalled (by omega)

theorem length_data : mb.data.length = maxMixedBlockSize := by
  have := h.fits
  rw [h.data, length_append, length_replicate, h.length_marshalled]
  omega

theorem length_offsets : mb.offsets.length = es.length := by
  have := congrArg length h.offsets
  rw [length_append, length_bounds, length_singleton] at this
  omega

theorem canFill_iff (e : Entry) :
    mb.canFill e = true ↔ entriesSize es + e.size ≤ maxMixedBlockSize ∧
      es.length < maxEntriesInBlock := by
  unfold canFill
  rw [h.length_offsets, h.tail]
  simp

theorem fill (he : shouldWriteValueToLSM e = true)
    (hfit : entriesSize es + e.size ≤ maxMixedBlockSize) (hcount : es.length < maxEntriesInBlock) :
    ∃ mb', mb.fill C e = some mb' ∧ mb'.Holds C (es ++ [e]) := by
  have htail := h.tail
  have hsmall : e.size < 2 ^ 63 := by
    unfold maxMixedBlockSize at hfit
    omega
  have hroom : ¬ mb.data.length < mb.tail + e.size := by
    rw [h.length_data]
    omega
  -- the zeros that were there make room for the entry
  have hdrop : mb.data.drop (mb.tail + e.size) =
      replicate (maxMixedBlockSize - (mb.tail + e.size)) 0 := by
    rw [h.data, ← drop_drop, ← h.length_marshalled, drop_left, drop_replicate, Nat.sub_sub]
  have htake : mb.data.take mb.tail = marshalled C es := by
    rw [h.data, ← h.length_marshalled, take_left]
  refine ⟨_, by rw [MixedBlock.fill, marshalTo, if_neg hroom, map_some], ?_⟩
  constructor
  · show mb.offsets ++ [UInt32.ofNat mb.tail] ++ [UInt32.ofNat (mb.tail + e.size)] = _
    rw [h.offsets, bounds_append, htail, Nat.zero_add]
  · show mb.data.take mb.tail ++ (C.marshalEntry e ++ mb.data.drop (mb.tail + e.size)) = _
    rw [htake, hdrop, marshalled_append, marshalled_cons, marshalled_nil, append_nil, append_assoc]
  · show mb.tail + e.size = _
    rw [entriesSize_append, htail, entriesSize_cons, entriesSize_nil, Nat.add_zero]
  · show mb.tail + e.size ≤ _
    omega
  · rw [length_append, length_singleton]
    omega
  · exact forall_mem_concat h.inline he

theorem packs : Packs C (mb.toBlock C) es := by
  have hfits := h.fits
  rw [h.tail] at hfits
  have hpacked : packedSize (bounds 0 es) ≤ 202 := by
    have hle := packedSize_le fun o ho => le_of_mem_bounds (by rw [Nat.zero_add]; exact hfits) ho
    have hcount := h.count
    rw [length_bounds] at hle
    unfold maxEntriesInBlock at hcount
    omega
  have hmixed : mixedSize (bounds 0 es) ≤ 205 := mixedSize_le hpacked (by omega)
  have huser : (mb.toBlock C).userData = C.marshalMixed (bounds 0 es) := by
    rw [← h.offsets]
    rfl
  constructor
  · refine written_of_checks ?_ (show align maxMixedBlockSize = true by decide) rfl ?_
    · show mb.data.length = (UInt32.ofNat maxMixedBlockSize).toNat
      rw [h.length_data]
      rfl
    · rw [huser, C.length_marshalMixed _ (by omega)]
      omega
  · rw [huser, C.unmarshal_marshalMixed _ (by omega)]
  · exact ⟨_, h.data⟩
  · unfold maxMixedBlockSize at hfits
    omega
  · exact .inl h.inline

end

end MixedBlock.Holds

/-- The entries of the mixed blocks, `cur` being in the open one. -/
def packGroups : List Entry → List Entry → List (List Entry)
  | [], cur => [cur]
  | e :: es, cur =>
    if entriesSize cur + e.size ≤ maxMixedBlockSize ∧ cur.length < maxEntriesInBlock then
      packGroups es (cur ++ [e])
    else cur :: packGroups es [e]

theorem flatten_packGroups (es cur : List Entry) : (packGroups es cur).flatten = cur ++ es := by
  induction es generalizing cur with
  | nil => simp [packGroups]
  | cons e es ih =>
    rw [packGroups]
    split_ifs
    · rw [ih, append_assoc, singleton_append]
    · rw [flatten_cons, ih, singleton_append]

/-- The entries before the first one that does not go next to its key. -/
def smallEntries (es : List EntryInfo) : List EntryInfo :=
  es.takeWhile fun x => shouldWriteValueToLSM x.log

/-- The entries from the first one on that does not go next to its key. -/
def valueEntries (es : List EntryInfo) : List EntryInfo :=
  es.dropWhile fun x => shouldWriteValueToLSM x.log

section

variable {ei : EntryInfo} {es : List EntryInfo}

theorem smallEntries_cons_of_pos (h : shouldWriteValueToLSM ei.log = true) :
    smallEntries (ei :: es) = ei :: smallEntries es := by
  simp [smallEntries, h]

theorem smallEntries_cons_of_neg (h : ¬ shouldWriteValueToLSM ei.log = true) :
    smallEntries (ei :: es) = [] := by
  simp [smallEntries, h]

theorem valueEntries_cons_of_pos (h : shouldWriteValueToLSM ei.log = true) :
    valueEntries (ei :: es) = valueEntries es := by
  simp [valueEntries, h]

theorem valueEntries_cons_of_neg (h : ¬ shouldWriteValueToLSM ei.log = true) :
    valueEntries (ei :: es) = ei :: es := by
  simp [valueEntries, h]

end

/-- A block of 4096 bytes that packs entries. -/
def PacksMixed (C : Codec) (b : Block) (es : List Entry) : Prop :=
  Packs C b es ∧ b.blockLength = UInt32.ofNat maxMixedBlockSize

theorem MixedBlock.Holds.packsMixed {mb : MixedBlock} {es : List Entry} (h : mb.Holds C es) :
    PacksMixed C (mb.toBlock C) es :=
  ⟨h.packs, rfl⟩

/-- **The first loop** with an open block packs the entries it goes over. -/
theorem fillLoop_some {entries : List EntryInfo} (blocks : List Block)
    (hfit : ∀ x ∈ smallEntries entries, x.log.size ≤ maxMixedBlockSize) {mb : MixedBlock}
    {es : List Entry} (h : mb.Holds C es) :
    ∃ bs, fillLoop C entries (some mb) blocks = some (blocks ++ bs, valueEntries entries) ∧
      List.Forall₂ (PacksMixed C) bs
        (packGroups ((smallEntries entries).map EntryInfo.log) es) := by
  induction entries generalizing blocks mb es with
  | nil => exact ⟨[mb.toBlock C], rfl, List.Forall₂.cons h.packsMixed List.Forall₂.nil⟩
  | cons ei entries ih =>
    rw [fillLoop]
    by_cases hei : shouldWriteValueToLSM ei.log = true
    · rw [smallEntries_cons_of_pos hei] at hfit
      have hrest : ∀ x ∈ smallEntries entries, x.log.size ≤ maxMixedBlockSize := fun x hx =>
        hfit x (.tail _ hx)
      rw [smallEntries_cons_of_pos hei, valueEntries_cons_of_pos hei, map_cons, packGroups,
        if_neg (by simp [hei]), getD_some]
      by_cases hcan : mb.canFill ei.log = true
      · have hroom := (h.canFill_iff ei.log).mp hcan
        obtain ⟨mb', hfill, hmb'⟩ := h.fill hei hroom.1 hroom.2
        obtain ⟨bs, hbs, hpacks⟩ := ih blocks hrest hmb'
        refine ⟨bs, ?_, ?_⟩
        · rw [if_neg (by simp [hcan]), hfill, bind_some, hbs]
        · rwa [if_pos hroom]
      · have hroom := mt (h.canFill_iff ei.log).mpr hcan
        obtain ⟨mb', hfill, hmb'⟩ := (holds_newMixedBlock C).fill hei
          (by simpa using hfit ei (.head _)) (by simp [maxEntriesInBlock])
        obtain ⟨bs, hbs, hpacks⟩ := ih (blocks ++ [mb.toBlock C]) hrest hmb'
        refine ⟨mb.toBlock C :: bs, ?_, ?_⟩
        · rw [if_pos (by simp [hcan]), hfill, bind_some, hbs, append_assoc, singleton_append]
        · rw [if_neg hroom]
          exact List.Forall₂.cons h.packsMixed hpacks
    · rw [smallEntries_cons_of_neg hei, valueEntries_cons_of_neg hei, if_pos (by simp [hei])]
      exact ⟨[mb.toBlock C], rfl, List.Forall₂.cons h.packsMixed List.Forall₂.nil⟩

/-- The entries of the mixed blocks; no block is opened when there are none. -/
def mixedGroups : List Entry → List (List Entry)
  | [] => []
  | e :: es => packGroups (e :: es) []

theorem flatten_mixedGroups (es : List Entry) : (mixedGroups es).flatten = es := by
  cases es with
  | nil => rfl
  | cons e es => rw [mixedGroups, flatten_packGroups, nil_append]

/-- **The first loop** packs the entries in front of the first one that is not stored next to its
key. -/
theorem fillLoop_eq {entries : List EntryInfo}
    (hfit : ∀ x ∈ smallEntries entries, x.log.size ≤ maxMixedBlockSize) :
    ∃ bs, fillLoop C entries none [] = some (bs, valueEntries entries) ∧
      List.Forall₂ (PacksMixed C) bs (mixedGroups ((smallEntries entries).map EntryInfo.log)) := by
  cases entries with
  | nil => exact ⟨[], rfl, List.Forall₂.nil⟩
  | cons ei entries =>
    by_cases hei : shouldWriteValueToLSM ei.log = true
    · -- opening a block changes nothing
      have hopen : fillLoop C (ei :: entries) none [] =
          fillLoop C (ei :: entries) (some newMixedBlock) [] := by
        simp only [fillLoop, getD_none, getD_some, hei, Bool.not_true, Bool.false_eq_true, if_false]
      obtain ⟨bs, hbs, hpacks⟩ := fillLoop_some [] hfit (holds_newMixedBlock C)
      refine ⟨bs, by rw [hopen, hbs, nil_append], ?_⟩
      rw [smallEntries_cons_of_pos hei, map_cons] at hpacks ⊢
      exact hpacks
    · rw [smallEntries_cons_of_neg hei, valueEntries_cons_of_neg hei, fillLoop,
        if_pos (by simp [hei])]
      exact ⟨[], rfl, List.Forall₂.nil⟩

/-- **The second loop** packs an entry into a block of its own. -/
theorem valueBlock_eq (hpos : 0 < e.size) (hle : e.size ≤ 2 ^ 32 - 512) :
    ∃ b, valueBlock C e = some b ∧ Packs C b [e] ∧
      b.blockLength.toNat = ceil (u32 e.size) 512 := by
  have hceil : (UInt32.ofNat (ceil (u32 e.size) 512)).toNat = ceil (u32 e.size) 512 := by
    rw [UInt32.toNat_ofNat', Nat.mod_eq_of_lt (ceil_lt _ _)]
  have hu : u32 e.size = e.size := Nat.mod_eq_of_lt (by omega)
  obtain ⟨hge, -⟩ := @ceil_bounds (u32 e.size) 512 (by decide) (by omega)
  have hmod : ceil (u32 e.size) 512 % 512 = 0 := Nat.mul_mod_left _ _
  have hlen : (C.marshalEntry e).length = e.size := C.length_marshalEntry e (by omega)
  set n := (UInt32.ofNat (ceil (u32 e.size) 512)).toNat with hn
  have hroom : ¬ (replicate n (0 : UInt8)).length < 0 + e.size := by
    rw [length_replicate]
    omega
  refine ⟨_, by rw [valueBlock, marshalTo, if_neg hroom, map_some], ?_, hceil⟩
  have hbounds : [0, UInt32.ofNat e.size] = bounds 0 [e] := by
    rw [bounds, bounds, Nat.zero_add]
    rfl
  have hmixed : mixedSize (bounds 0 [e]) ≤ 6 + 3 := by
    refine mixedSize_le ?_ (by omega)
    have hsize : (UInt32.ofNat e.size).toNat < 2 ^ (7 * (4 + 1)) :=
      (UInt32.toNat_lt _).trans (by omega)
    have := sizeVarint_le hsize
    rw [← hbounds]
    show sizeVarint 0 + (sizeVarint (UInt32.ofNat e.size).toNat + 0) ≤ 6
    have hzero : sizeVarint 0 = 1 := rfl
    omega
  constructor
  · refine written_of_checks ?_ ?_ rfl ?_
    · show (take 0 (replicate n 0) ++ (C.marshalEntry e ++
        drop (0 + e.size) (replicate n 0))).length = n
      rw [length_append, length_append, hlen, length_drop, length_replicate, take_zero, length_nil]
      omega
    · show align n = true
      rw [align, Bool.and_eq_true, bne_iff_ne, beq_iff_eq]
      omega
    · show (C.marshalMixed [0, UInt32.ofNat e.size]).length ≤ 400
      rw [hbounds, C.length_marshalMixed _ (by omega)]
      omega
  · show C.unmarshalMixed (C.marshalMixed [0, UInt32.ofNat e.size]) = some (bounds 0 [e])
    rw [hbounds, C.unmarshal_marshalMixed _ (by omega)]
  · exact ⟨drop (0 + e.size) (replicate n 0), by simp [hn]⟩
  · rw [entriesSize_cons, entriesSize_nil]
    omega
  · exact .inr ⟨e, rfl⟩

end Pb
end Autumn
