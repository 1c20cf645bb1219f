import Autumn.StreamClient.BlockCodec

/-!
# Appending entries to an extent and reading them back

`AppendEntries` makes blocks of a batch, appends them and stores the position of its block into each
entry that has one to itself; entry and block are found by counting from the first of their kind,
`j` and `k`.  `ReadEntries` reads blocks until it has enough, and its caller goes on where it
stopped.
-/

namespace Autumn
namespace Pb

open Lib Y List

/-! ## The code -/

/-- The loop of `AppendEntries` at index `i`, with `n` rounds to go. -/
def storeLoop (extentID j k : ℕ) (offsets : List ℕ) :
    ℕ → ℕ → List EntryInfo → Option (List EntryInfo)
  | 0, _, entries => some entries
  | n + 1, i, entries =>
    (offsets[k + i]?).bind fun o =>
      storeLoop extentID j k offsets n (i + 1)
        (entries.modify (j + i) fun ei => { ei with extentID := extentID, offset := o })

/-- `AppendEntries` into one extent: the entries as it leaves them and the tail it returns; `none`
if it panics or returns an error. -/
def appendEntries (C : Codec) (srt : SliceSort EntryInfo shorter) (e : Extent) (extentID : ℕ)
    (entries : List EntryInfo) (f : Fault) : Option (Extent × List EntryInfo × ℕ) := do
  let (entries, blocks, j, k) ← entriesToBlocks C srt entries
  let (e, offsets) := e.appendBlocks blocks (some e.commitLength) f
  let offsets ← offsets
  let entries ← storeLoop extentID j k offsets (entries.length - j) 0 entries
  let offset ← offsets.getLast?
  let block ← blocks.getLast?
  some (e, entries, (offset + block.blockLength.toNat + 512) % 2 ^ 32)

/-- `sizeOfEntries`. -/
def sizeOfEntries (es : List EntryInfo) : ℕ := (es.map EntryInfo.size).sum

/-- The loop of `ReadEntries`; `none` when the fuel is used up. -/
def readEntriesLoop (C : Codec) (e : Extent) (extentID maxTotalSize : ℕ) (replay : Bool) :
    ℕ → ℕ → ℕ → List EntryInfo →
      Option (Except BlockError (List EntryInfo × ℕ × Extent.ReadEnd))
  | 0, _, _, _ => none
  | n + 1, offset, size, ret =>
    match readBlockEntries C (e.file.drop offset) extentID offset replay with
    | .error .eof => some (.ok (ret, offset, e.readEnd))
    | .error x => some (.error x)
    | .ok (entries, blockLength) =>
      if (size + sizeOfEntries entries) % 2 ^ 32 > maxTotalSize then
        some (.ok (ret ++ entries, (offset + blockLength + 512) % 2 ^ 32, .full))
      else readEntriesLoop C e extentID maxTotalSize replay n
        ((offset + blockLength + 512) % 2 ^ 32)
        (size + sizeOfEntries entries) (ret ++ entries)

/-- `ReadEntries`: the entries, the offset behind them and how the read ends. -/
def readEntries (C : Codec) (e : Extent) (extentID fuel offset maxTotalSize : ℕ) (replay : Bool) :
    Option (Except BlockError (List EntryInfo × ℕ × Extent.ReadEnd)) :=
  if offset = 0 then some (.error .failed)
  else if e.commitLength ≤ offset then some (.ok ([], 0, e.readEnd))
  else readEntriesLoop C e extentID maxTotalSize replay fuel offset 0 []

/-- Reads one after the other, each from where the one before has ended, until the end of the extent
or of the stream is reported; `limit i` is the `maxTotalSize` of read `i`. -/
def readChunks (C : Codec) (e : Extent) (extentID fuel : ℕ) (limit : ℕ → ℕ) :
    ℕ → ℕ → ℕ → Option (Except BlockError (List EntryInfo))
  | 0, _, _ => none
  | n + 1, i, offset =>
    match readEntries C e extentID fuel offset (limit i) true with
    | none => none
    | some (.error x) => some (.error x)
    | some (.ok (entries, endOffset, .full)) =>
      (readChunks C e extentID fuel limit n (i + 1) endOffset).map fun r =>
        r.map fun rest => entries ++ rest
    | some (.ok (entries, _, _)) => some (.ok entries)

/-! ## Reading all blocks -/

/-- What the blocks from offset `o` on deliver. -/
def delivered (extentID : ℕ) : ℕ → List Block → List (List Entry) → List EntryInfo
  | o, b :: bs, g :: gs =>
    g.map (replayed extentID o b.blockLength.toNat) ++ delivered extentID (o + b.size) bs gs
  | _, _, _ => []

variable {C : Codec} {gs : List (List Entry)} {e : Extent} {bs : List Block} {id : ℕ}
  {es : List EntryInfo}

theorem delivered_append (id : ℕ) {as : List Block} (h : List.Forall₂ (Packs C) as gs) (o : ℕ)
    (bs : List Block) (hs : List (List Entry)) :
    delivered id o (as ++ bs) (gs ++ hs) =
      delivered id o as gs ++ delivered id (o + totalSize as) bs hs := by
  induction h generalizing o with
  | nil => simp [delivered]
  | cons _ _ ih =>
    rw [cons_append, cons_append, delivered, delivered, ih, totalSize_cons,
      append_assoc, Nat.add_assoc]

/-- Blocks that are written from an offset on, up to the end of the file. -/
structure Unread (C : Codec) (e : Extent) (o : ℕ) (bs : List Block) (gs : List (List Entry)) :
    Prop where
  packs : List.Forall₂ (Packs C) bs gs
  file : e.file.drop o = encode bs
  commit : e.commitLength = o + totalSize bs
  small : o + totalSize bs < 2 ^ 32

theorem Unread.tail {o : ℕ} {b : Block} {g : List Entry} (h : Unread C e o (b :: bs) (g :: gs)) :
    Unread C e (o + b.size) bs gs := by
  obtain ⟨hb, hbs⟩ := forall₂_cons.mp h.packs
  obtain ⟨x, hx⟩ := hb.written.2
  have hcommit := h.commit
  have hsmall := h.small
  rw [totalSize_cons] at hcommit hsmall
  refine ⟨hbs, ?_, by omega, by omega⟩
  rw [← drop_drop, h.file, encode_cons hx, ← (Block.segment hb.written.1 hx).length, drop_left]

/-- A read ends behind some of the blocks: at the limit, and then it has read one at least, or
behind the last of them. -/
theorem readEntriesLoop_eq (id m : ℕ) :
    ∀ {o n : ℕ} (size : ℕ) (ret : List EntryInfo), Unread C e o bs gs → bs.length < n →
      ∃ as bs' gs' hs r, bs = as ++ bs' ∧ gs = gs' ++ hs ∧ List.Forall₂ (Packs C) as gs' ∧
        Unread C e (o + totalSize as) bs' hs ∧
        readEntriesLoop C e id m true n o size ret =
          some (.ok (ret ++ delivered id o as gs', o + totalSize as, r)) ∧
        (r = .full ∧ as ≠ [] ∨ r = e.readEnd ∧ bs' = []) := by
  induction bs generalizing gs with
  | nil =>
    intro o n size ret h hn
    obtain ⟨n, rfl⟩ : ∃ k, n = k + 1 := ⟨n - 1, by omega⟩
    have hgs : gs = [] := forall₂_nil_left_iff.mp h.packs
    refine ⟨[], [], [], [], e.readEnd, rfl, hgs, .nil, hgs ▸ h, ?_, .inr ⟨rfl, rfl⟩⟩
    have hread : readBlockEntries C (e.file.drop o) id o true = .error .eof := by
      rw [h.file, encode_nil]
      rfl
    rw [readEntriesLoop, hread]
    simp [delivered]
  | cons b bs ih =>
    intro o n size ret h hn
    obtain ⟨n, rfl⟩ : ∃ k, n = k + 1 := ⟨n - 1, by omega⟩
    obtain ⟨g, gs, hb, hbs, rfl⟩ := forall₂_cons_left_iff.mp h.packs
    obtain ⟨x, hx⟩ := hb.written.2
    have hread : readBlockEntries C (e.file.drop o) id o true =
        .ok (g.map (replayed id o b.blockLength.toNat), b.blockLength.toNat) := by
      rw [h.file, encode_cons hx]
      exact readBlockEntries_packs hb hx _ id o
    have hoff : (o + b.blockLength.toNat + 512) % 2 ^ 32 = o + b.size := by
      have := h.small
      rw [totalSize_cons, Block.size] at this
      rw [Block.size, Nat.mod_eq_of_lt (by omega)]
      omega
    have hone : List.Forall₂ (Packs C) [b] [g] := .cons hb .nil
    rw [readEntriesLoop, hread]
    dsimp only
    rw [hoff]
    split_ifs
    · refine ⟨[b], bs, [g], gs, .full, rfl, rfl, hone, ?_, ?_, .inl ⟨rfl, cons_ne_nil _ _⟩⟩
      · rw [totalSize_cons, totalSize_nil, Nat.add_zero]
        exact h.tail
      · simp [delivered]
    · obtain ⟨as, bs', gs', hs, r, rfl, rfl, hpacks, hunread, hloop, hr⟩ := ih
        (size + sizeOfEntries (g.map (replayed id o b.blockLength.toNat)))
        (ret ++ g.map (replayed id o b.blockLength.toNat)) h.tail (n := n)
        (by rw [length_cons] at hn; omega)
      refine ⟨b :: as, bs', g :: gs', hs, r, rfl, rfl, .cons hb hpacks, ?_, ?_, ?_⟩
      · rwa [totalSize_cons, ← Nat.add_assoc]
      · rw [hloop, delivered, totalSize_cons, append_assoc, Nat.add_assoc]
      · exact hr.imp_left fun hr => ⟨hr.1, cons_ne_nil _ _⟩

/-- **Chunks.**  However the reads are limited, together they deliver the entries of all blocks. -/
theorem readChunks_eq {fuel : ℕ} (limit : ℕ → ℕ) :
    ∀ {n i o : ℕ} {bs : List Block} {gs : List (List Entry)}, 0 < o → Unread C e o bs gs →
      bs.length < fuel → bs.length < n →
      readChunks C e id fuel limit n i o = some (.ok (delivered id o bs gs)) := by
  intro n
  induction n with
  | zero =>
    intro i o bs gs _ _ _ hn
    omega
  | succ n ih =>
    intro i o bs gs ho h hfuel hn
    have hcommit := h.commit
    by_cases hend : e.commitLength ≤ o
    · -- nothing is left, and the read says so at once
      have hbs : bs = [] := by
        cases bs with
        | nil => rfl
        | cons b bs =>
          have := b.size_pos
          rw [totalSize_cons] at hcommit
          omega
      subst hbs
      have hgs : gs = [] := forall₂_nil_left_iff.mp h.packs
      have hread : readEntries C e id fuel o (limit i) true = some (.ok ([], 0, e.readEnd)) := by
        rw [readEntries, if_neg (by omega), if_pos hend]
      rw [readChunks, hread, hgs]
      unfold Extent.readEnd
      cases e.isSeal <;> rfl
    · obtain ⟨as, bs', gs', hs, r, rfl, rfl, hpacks, hunread, hloop, hr⟩ :=
        readEntriesLoop_eq id (limit i) 0 [] h hfuel
      have hread : readEntries C e id fuel o (limit i) true =
          some (.ok (delivered id o as gs', o + totalSize as, r)) := by
        rw [readEntries, if_neg (by omega), if_neg hend, hloop, nil_append]
      rw [readChunks, hread, delivered_append id hpacks]
      rcases hr with ⟨rfl, hne⟩ | ⟨rfl, rfl⟩
      · have hpos := length_pos_of_ne_nil hne
        rw [length_append] at hfuel hn
        dsimp only
        rw [ih (by omega) hunread (by omega) (by omega)]
        rfl
      · have hnil : delivered id (o + totalSize as) [] hs = [] := rfl
        rw [hnil, append_nil]
        unfold Extent.readEnd
        cases e.isSeal <;> rfl

/-! ## What is stored and what is delivered -/

/-- Each entry gets the position of its block. -/
def place (extentID : ℕ) (es : List EntryInfo) (offsets : List ℕ) : List EntryInfo :=
  List.zipWith (fun ei o => { ei with extentID := extentID, offset := o }) es offsets

theorem modify_length_append (f : EntryInfo → EntryInfo) (x : EntryInfo)
    (front rest : List EntryInfo) :
    (front ++ x :: rest).modify front.length f = front ++ [f x] ++ rest := by
  induction front with
  | nil => simp
  | cons a front ih => simpa using ih

/-- **The positions** are stored into the entries from `j` on, which are as many as the offsets from
`k` on. -/
theorem storeLoop_eq (id : ℕ) {j : ℕ} (k : ℕ) (offsets : List ℕ) {rest : List EntryInfo} :
    ∀ (i : ℕ) (front : List EntryInfo), front.length = j + i →
      (offsets.drop (k + i)).length = rest.length →
      storeLoop id j k offsets rest.length i (front ++ rest) =
        some (front ++ place id rest (offsets.drop (k + i))) := by
  induction rest with
  | nil =>
    intro i front _ _
    rw [length_nil, storeLoop, place, zipWith_nil_left]
  | cons x rest ih =>
    intro i front hfront hlen
    obtain ⟨o, os, hos⟩ : ∃ o os, offsets.drop (k + i) = o :: os :=
      exists_cons_of_length_pos (by rw [hlen, length_cons]; omega)
    have hget : offsets[k + i]? = some o := by
      rw [← head?_drop, hos, head?_cons]
    have hnext : offsets.drop (k + (i + 1)) = os := by
      rw [← Nat.add_assoc, ← drop_drop, hos, drop_one, tail_cons]
    have hrest := ih (i + 1) (front ++ [{ x with extentID := id, offset := o }])
      (by rw [length_append, hfront, length_singleton, Nat.add_assoc])
      (by rw [hos, length_cons, length_cons] at hlen; rw [hnext]; omega)
    rw [length_cons, storeLoop, hget, Option.bind_some, ← hfront, modify_length_append, hrest,
      hnext, hos, place, place, zipWith_cons_cons, append_assoc, singleton_append]

/-- What a read in replay mode has to deliver for an entry: the entry itself if it is stored next to
its key, else a pointer with the position that `AppendEntries` has stored into the entry. -/
def Delivers (p q : EntryInfo) : Prop :=
  if shouldWriteValueToLSM q.log then p.log = q.log
  else p.log = q.log.pointer ∧ p.extentID = q.extentID ∧ p.offset = q.offset

theorem delivers_replayed {o n : ℕ} {q : EntryInfo}
    (h : shouldWriteValueToLSM q.log = true ∨ q.extentID = id ∧ q.offset = o) :
    Delivers (replayed id o n q.log) q := by
  unfold Delivers replayed
  split_ifs with hq
  · rfl
  · obtain ⟨rfl, rfl⟩ := h.resolve_left hq
    exact ⟨rfl, rfl, rfl⟩

theorem forall₂_delivers_small (h : List.Forall₂ (Packs C) bs gs) :
    ∀ {o : ℕ} {qs : List EntryInfo}, qs.map EntryInfo.log = gs.flatten →
      (∀ q ∈ qs, shouldWriteValueToLSM q.log = true) →
      List.Forall₂ Delivers (delivered id o bs gs) qs := by
  induction h with
  | nil =>
    intro o qs hqs _
    rw [flatten_nil, map_eq_nil_iff] at hqs
    rw [hqs]
    exact List.Forall₂.nil
  | @cons b g bs gs _ _ ih =>
    intro o qs hqs hinline
    rw [flatten_cons, map_eq_append_iff] at hqs
    obtain ⟨qs₁, qs₂, rfl, rfl, hqs₂⟩ := hqs
    rw [delivered]
    refine rel_append ?_ (ih hqs₂ fun q hq => hinline q (mem_append_right _ hq))
    rw [map_map, forall₂_map_left_iff, forall₂_same]
    exact fun q hq => delivers_replayed (.inl (hinline q (mem_append_left _ hq)))

theorem forall₂_delivers_place
    (h : List.Forall₂ (fun b (x : EntryInfo) => Packs C b [x.log]) bs es) :
    ∀ o, List.Forall₂ Delivers (delivered id o bs (es.map fun x => [x.log]))
      (place id es (offsetsFrom o bs)) := by
  induction h with
  | nil => exact fun o => List.Forall₂.nil
  | @cons b x bs es _ _ ih =>
    intro o
    rw [map_cons, delivered, offsetsFrom, place, zipWith_cons_cons]
    refine List.Forall₂.cons ?_ (ih (o + b.size))
    exact delivers_replayed (q := { x with extentID := id, offset := o }) (.inr ⟨rfl, rfl⟩)

theorem map_log_place {offsets : List ℕ} (h : offsets.length = es.length) :
    (place id es offsets).map EntryInfo.log =
      es.map EntryInfo.log := by
  induction es generalizing offsets with
  | nil => simp [place]
  | cons x es ih =>
    obtain ⟨o, os, rfl⟩ := exists_cons_of_length_eq_add_one h
    rw [place, zipWith_cons_cons, map_cons, map_cons]
    exact congrArg (x.log :: ·) (ih (by simpa using h))

theorem readBlocks_place (h : List.Forall₂ (fun b (x : EntryInfo) => Packs C b [x.log]) bs es) :
    ∀ {o : ℕ}, Unread C e o bs (es.map fun x => [x.log]) →
      ∀ q ∈ place id es (offsetsFrom o bs), ∀ m, ∃ b, Packs C b [q.log] ∧
        e.readBlocks q.offset 1 m = .ok ([b], .full) := by
  induction h with
  | nil =>
    intro o _ q hq
    simp [place] at hq
  | @cons b x bs es hb _ ih =>
    intro o hunread q hq m
    rw [offsetsFrom, place, zipWith_cons_cons] at hq
    rcases hq with _ | ⟨_, hq⟩
    · refine ⟨b, hb, ?_⟩
      obtain ⟨y, hy⟩ := hb.written.2
      have hread : readBlock (e.file.drop o) = .ok b := by
        rw [hunread.file, encode_cons hy]
        exact (Block.segment hb.written.1 hy).read _
      have hlt : ¬ e.commitLength ≤ o := by
        have := b.size_pos
        rw [hunread.commit, totalSize_cons]
        omega
      show e.readBlocks o 1 m = _
      rw [Extent.readBlocks, if_neg hlt, Extent.readBlocksLoop, hread]
      dsimp only
      split_ifs <;> rfl
    · exact ih hunread.tail q hq m

theorem mapM_valueBlock (h : ∀ x ∈ es, 0 < x.log.size ∧ x.log.size ≤ 2 ^ 32 - 512) :
    ∃ bs, es.mapM (fun ei => valueBlock C ei.log) = some bs ∧
      List.Forall₂ (fun b (x : EntryInfo) => Packs C b [x.log]) bs es := by
  induction es with
  | nil => exact ⟨[], rfl, List.Forall₂.nil⟩
  | cons x es ih =>
    obtain ⟨bs, hbs, hpacks⟩ := ih fun y hy => h y (.tail _ hy)
    obtain ⟨hpos, hle⟩ := h x (.head _)
    obtain ⟨b, hb, hpack, -⟩ := valueBlock_eq (C := C) hpos hle
    refine ⟨b :: bs, ?_, List.Forall₂.cons hpack hpacks⟩
    rw [mapM_cons, hb, hbs]
    rfl

/-! ## The round trip -/

theorem smallEntries_append_valueEntries (es : List EntryInfo) :
    smallEntries es ++ valueEntries es = es :=
  takeWhile_append_dropWhile

theorem of_mem_smallEntries {x : EntryInfo} (h : x ∈ smallEntries es) :
    shouldWriteValueToLSM x.log = true :=
  mem_takeWhile_imp (p := fun y : EntryInfo => shouldWriteValueToLSM y.log) h

theorem getLast?_offsetsFrom {b : Block} (o : ℕ) :
    (offsetsFrom o (bs ++ [b])).getLast? = some (o + totalSize bs) := by
  rw [offsetsFrom_append, offsetsFrom, offsetsFrom, getLast?_append, getLast?_singleton]
  rfl

/-- **What `AppendEntries` does** with blocks that are written: they are added to the file, the
positions are stored, and the tail is the end of the file. -/
theorem appendEntries_eq {srt : SliceSort EntryInfo shorter} {entries : List EntryInfo}
    {blocks : List Block} {j k : ℕ} (id : ℕ) {small values : List EntryInfo}
    (hblocks : entriesToBlocks C srt entries = some (small ++ values, blocks, j, k))
    (hj : j = small.length) (hk : (blocks.drop k).length = values.length) (hne : blocks ≠ [])
    (hw : ∀ b ∈ blocks, b.Written) (hseal : e.isSeal = false)
    (hcommit : e.commitLength = e.file.length) (hfit : e.file.length + totalSize blocks < 2 ^ 32) :
    ∃ e', appendEntries C srt e id entries .none =
        some (e', small ++ place id values ((offsetsFrom e.file.length blocks).drop k),
          e'.file.length) ∧
      e'.file = e.file ++ encode blocks ∧ e'.commitLength = e'.file.length := by
  have hkept : ∀ i, kept .none i blocks = blocks.length := by
    intro i
    clear hblocks hk hfit hne
    induction blocks generalizing i with
    | nil => rfl
    | cons b bs ih =>
      obtain ⟨x, hx⟩ := (hw b (.head _)).2
      rw [kept, if_pos ⟨by rw [hx]; rfl, rfl⟩, ih (fun c hc => hw c (.tail _ hc)), length_cons]
  have hloop := appendLoop_eq .none 0 blocks e.file [] (fun b hb => (hw b hb).1) hfit
  rw [hkept, take_length, if_pos rfl, nil_append] at hloop
  have happ : ∃ e', e.appendBlocks blocks (some e.commitLength) .none =
      (e', some (offsetsFrom e.file.length blocks)) ∧ e'.file = e.file ++ encode blocks ∧
      e'.commitLength = e'.file.length := by
    rw [Extent.appendBlocks, if_neg (by simp [hseal]), if_neg (by simp), hcommit, hloop]
    exact ⟨_, rfl, rfl, rfl⟩
  obtain ⟨e', happ, hfile, hcommit'⟩ := happ
  refine ⟨e', ?_, hfile, hcommit'⟩
  have hstore := storeLoop_eq id k (offsetsFrom e.file.length blocks) (j := j) 0 small (by omega)
    (show _ = values.length by
      rw [Nat.add_zero, length_drop, length_offsetsFrom, ← hk, length_drop])
  rw [Nat.add_zero] at hstore
  obtain ⟨bs, b, rfl⟩ : ∃ bs b, blocks = bs ++ [b] :=
    ⟨blocks.dropLast, blocks.getLast hne, (dropLast_append_getLast hne).symm⟩
  have htail : (e.file.length + totalSize bs + b.blockLength.toNat + 512) % 2 ^ 32 =
      e'.file.length := by
    rw [totalSize_append, totalSize_cons, totalSize_nil, Block.size] at hfit
    rw [hfile, length_append, length_encode hw, totalSize_append, totalSize_cons, totalSize_nil,
      Block.size, Nat.mod_eq_of_lt (by omega)]
    omega
  have hn : (small ++ values).length - j = values.length := by
    rw [length_append]
    omega
  rw [appendEntries, hblocks]
  simp only [Option.bind_eq_bind, Option.bind_some, happ, hn, hstore, getLast?_offsetsFrom,
    getLast?_append, getLast?_singleton, Option.some_or, htail]

section

variable (C) (srt : SliceSort EntryInfo shorter) {entries : List EntryInfo} (hne : entries ≠ [])
  (hinline : ∀ x ∈ smallEntries (srt.sort entries), x.log.size ≤ maxMixedBlockSize)
  (hvalue : ∀ x ∈ valueEntries (srt.sort entries), 0 < x.log.size ∧ x.log.size ≤ 2 ^ 32 - 512)
include hne hinline hvalue

/-- **What `entriesToBlocks` makes**: blocks that pack the small entries and, behind them, a block
for each of the others. -/
theorem entriesToBlocks_eq :
    ∃ mixed values,
      entriesToBlocks C srt entries = some (srt.sort entries, mixed ++ values,
        (smallEntries (srt.sort entries)).length, mixed.length) ∧
      List.Forall₂ (Packs C) mixed
        (mixedGroups ((smallEntries (srt.sort entries)).map EntryInfo.log)) ∧
      List.Forall₂ (fun b (x : EntryInfo) => Packs C b [x.log]) values
        (valueEntries (srt.sort entries)) := by
  obtain ⟨mixed, hmixed, hpacks⟩ := fillLoop_eq (C := C) hinline
  obtain ⟨values, hvalues, hpack⟩ := mapM_valueBlock (C := C) hvalue
  refine ⟨mixed, values, ?_, hpacks.imp fun _ _ h => h.1, hpack⟩
  have hj : (srt.sort entries).length - (valueEntries (srt.sort entries)).length =
      (smallEntries (srt.sort entries)).length := by
    have := congrArg length (smallEntries_append_valueEntries (srt.sort entries))
    rw [length_append] at this
    omega
  simp only [entriesToBlocks, if_neg hne, hmixed, Option.bind_some, hvalues, Option.map_some, hj]

/-- **Round trip of the log entries.**  Let the entries in mixed blocks have at most 4096 bytes, and
let the others have at least one byte and fit into a block.  Then `writeBlock` accepts the blocks,
and if the extent stays below `2 ^ 32` bytes they are appended, the tail is the end of the last of
them, reading on from the first in chunks of any size delivers every entry once, and the block at
the position stored into an entry holds this entry. -/
theorem entry_round_trip :
    ∃ blocks j k, entriesToBlocks C srt entries = some (srt.sort entries, blocks, j, k) ∧
      (∀ b ∈ blocks, b.Written) ∧
      ∀ (e : Extent) (id : ℕ), e.isSeal = false → 512 ≤ e.file.length →
        e.commitLength = e.file.length → e.file.length + totalSize blocks < 2 ^ 32 →
        ∃ e' filled, appendEntries C srt e id entries .none = some (e', filled, e'.commitLength) ∧
          e'.file = e.file ++ encode blocks ∧ e'.commitLength = e'.file.length ∧
          (filled.map EntryInfo.log).Perm (entries.map EntryInfo.log) ∧
          ∀ e₂, e₂ = e' ∨ (∃ fails, e₂ = (e'.sealExtent e'.commitLength fails).1) →
            (∀ limit fuel, blocks.length < fuel → ∃ infos,
              readChunks C e₂ id fuel limit fuel 0 e.file.length = some (.ok infos) ∧
              List.Forall₂ Delivers infos filled) ∧
            ∀ q ∈ filled, shouldWriteValueToLSM q.log = false → ∀ m, ∃ b,
              e₂.readBlocks q.offset 1 m = .ok ([b], .full) ∧
              extractLogEntry C b = some [q.log] := by
  obtain ⟨mixed, values, hblocks, hmixed, hpack⟩ := entriesToBlocks_eq C srt hne hinline hvalue
  set sorted := srt.sort entries with hsorted
  have hgroups : List.Forall₂ (Packs C) (mixed ++ values)
      (mixedGroups ((smallEntries sorted).map EntryInfo.log) ++
        (valueEntries sorted).map fun x => [x.log]) :=
    rel_append hmixed (forall₂_map_right_iff.mpr hpack)
  have hw : ∀ b ∈ mixed ++ values, b.Written := by
    intro b hb
    obtain ⟨i, hi, rfl⟩ := mem_iff_getElem.mp hb
    exact ((forall₂_iff_get.mp hgroups).2 i hi
      (by rw [← (forall₂_iff_get.mp hgroups).1]; exact hi)).written
  refine ⟨mixed ++ values, _, _, hblocks, hw, fun e id hseal hhead hcommit hfit => ?_⟩
  have hne' : mixed ++ values ≠ [] := by
    intro hnil
    obtain ⟨rfl, rfl⟩ := append_eq_nil_iff.mp hnil
    have hsmall := congrArg flatten (forall₂_nil_left_iff.mp hmixed)
    rw [flatten_mixedGroups, flatten_nil, map_eq_nil_iff] at hsmall
    have hval := forall₂_nil_left_iff.mp hpack
    have hempty := smallEntries_append_valueEntries sorted
    rw [hsmall, hval, append_nil] at hempty
    have hperm := srt.perm entries
    rw [← hsorted, ← hempty] at hperm
    exact hne hperm.nil_eq.symm
  have hdrop : (mixed ++ values).drop mixed.length = values := drop_left
  have hoffsets : (offsetsFrom e.file.length (mixed ++ values)).drop mixed.length =
      offsetsFrom (e.file.length + totalSize mixed) values := by
    rw [offsetsFrom_append, ← length_offsetsFrom e.file.length mixed, drop_left]
  obtain ⟨e', happ, hfile, hcommit'⟩ := appendEntries_eq id
    (by rw [smallEntries_append_valueEntries]; exact hblocks) rfl
    (by rw [hdrop]; exact hpack.length_eq) hne' hw hseal hcommit hfit
  rw [hoffsets] at happ
  refine ⟨e', _, by rw [happ, hcommit'], hfile, hcommit', ?_, fun e₂ he₂ => ?_⟩
  · rw [map_append, map_log_place (by rw [length_offsetsFrom, hpack.length_eq]),
      ← map_append, smallEntries_append_valueEntries]
    exact (srt.perm entries).map EntryInfo.log
  have hsame : e₂.file = e'.file ∧ e₂.commitLength = e'.commitLength := by
    rcases he₂ with rfl | ⟨fails, rfl⟩
    · exact ⟨rfl, rfl⟩
    · exact e'.sealExtent_commitLength fails
  have htotal := totalSize_append mixed values
  have hunread : Unread C e₂ e.file.length (mixed ++ values) _ :=
    { packs := hgroups
      file := by rw [hsame.1, hfile, drop_left]
      commit := by rw [hsame.2, hcommit', hfile, length_append, length_encode hw]
      small := hfit }
  have hrest : Unread C e₂ (e.file.length + totalSize mixed) values
      ((valueEntries sorted).map fun x => [x.log]) :=
    { packs := forall₂_map_right_iff.mpr hpack
      file := by
        rw [← drop_drop, hunread.file, encode_append,
          ← length_encode fun b hb => hw b (mem_append_left _ hb), drop_left]
      commit := by rw [hunread.commit]; omega
      small := by omega }
  refine ⟨fun limit fuel hfuel => ⟨_, readChunks_eq limit (by omega) hunread hfuel hfuel, ?_⟩, ?_⟩
  · rw [delivered_append id hmixed]
    refine rel_append ?_ (forall₂_delivers_place hpack _)
    exact forall₂_delivers_small hmixed (flatten_mixedGroups _).symm fun q hq =>
      of_mem_smallEntries hq
  · intro q hq hbig m
    rcases mem_append.mp hq with hq | hq
    · rw [of_mem_smallEntries hq] at hbig
      cases hbig
    · obtain ⟨b, hb, hread⟩ := readBlocks_place hpack hrest q hq m
      exact ⟨b, hread, extractLogEntry_packs hb⟩

end

/-- A sort by the length of the value that can be run. -/
def byLength : SliceSort EntryInfo shorter :=
  SliceSort.insertion fun x : EntryInfo => x.log.value.length

/-- An entry with a long value in front of one with a short value. -/
def twoEntries : List EntryInfo :=
  [⟨⟨[1, 2, 3], List.replicate 1025 7, 0, 0, 0⟩, 0, 0, 0⟩, ⟨⟨[4], [5, 6], 1, 0, 9⟩, 0, 0, 0⟩]

theorem entry_round_trip_twoEntries :
    (twoEntries ≠ [] ∧
      (∀ x ∈ smallEntries (byLength.sort twoEntries), x.log.size ≤ maxMixedBlockSize) ∧
      ∀ x ∈ valueEntries (byLength.sort twoEntries),
        0 < x.log.size ∧ x.log.size ≤ 2 ^ 32 - 512) ∧
    ∃ blocks j k, entriesToBlocks Codec.wire byLength twoEntries =
        some (byLength.sort twoEntries, blocks, j, k) ∧
      (∀ b ∈ blocks, b.Written) ∧ (createExtent 5).file.length + totalSize blocks < 2 ^ 32 ∧
      ∃ e' filled,
        appendEntries Codec.wire byLength (createExtent 5) 5 twoEntries .none =
          some (e', filled, e'.commitLength) ∧
        (∀ limit fuel, blocks.length < fuel → ∃ infos,
          readChunks Codec.wire e' 5 fuel limit fuel 0 (createExtent 5).file.length =
            some (.ok infos) ∧ List.Forall₂ Delivers infos filled) ∧
        ∀ q ∈ filled, shouldWriteValueToLSM q.log = false → ∀ m, ∃ b,
          e'.readBlocks q.offset 1 m = .ok ([b], .full) ∧
          extractLogEntry Codec.wire b = some [q.log] := by
  have hne : twoEntries ≠ [] := cons_ne_nil _ _
  have hinline : ∀ x ∈ smallEntries (byLength.sort twoEntries), x.log.size ≤ maxMixedBlockSize := by
    decide +kernel
  have hvalue : ∀ x ∈ valueEntries (byLength.sort twoEntries),
      0 < x.log.size ∧ x.log.size ≤ 2 ^ 32 - 512 := by
    decide +kernel
  obtain ⟨blocks, j, k, hblocks, hw, hround⟩ :=
    entry_round_trip Codec.wire byLength hne hinline hvalue
  have hfit : (createExtent 5).file.length + totalSize blocks < 2 ^ 32 := by
    have hall : (entriesToBlocks Codec.wire byLength twoEntries).all (fun x =>
        decide ((createExtent 5).file.length + totalSize x.2.1 < 2 ^ 32)) = true := by
      decide +kernel
    rw [hblocks] at hall
    simpa using hall
  have hhead : 512 ≤ (createExtent 5).file.length := by decide +kernel
  have hcommit : (createExtent 5).commitLength = (createExtent 5).file.length := by decide +kernel
  obtain ⟨e', filled, happ, -, -, -, hread⟩ := hround (createExtent 5) 5 rfl hhead hcommit hfit
  exact ⟨⟨hne, hinline, hvalue⟩, blocks, j, k, hblocks, hw, hfit, e', filled, happ,
    hread e' (.inl rfl)⟩

/-- **Entries without a block.**  Behind an entry that is a pointer an entry of no bytes gets a
block of no bytes, which `writeBlock` refuses; and with a value of `2 ^ 32` bytes the length of the
block wraps around, and the process dies. -/
theorem entry_not_written :
    (∃ entries : List EntryInfo,
      (∀ x ∈ entries, shouldWriteValueToLSM x.log = true → x.log.size ≤ maxMixedBlockSize) ∧
      ∃ sorted blocks j k,
        entriesToBlocks Codec.wire byLength entries = some (sorted, blocks, j, k) ∧
        ∃ b ∈ blocks, writeBlock b = none) ∧
    ∃ e : Entry, shouldWriteValueToLSM e = false ∧
      ∀ C srt, entriesToBlocks C srt [⟨e, 0, 0, 0⟩] = none := by
  constructor
  · refine ⟨[⟨⟨[1], [], 2, 0, 0⟩, 0, 0, 0⟩, ⟨⟨[], [], 0, 0, 0⟩, 0, 0, 0⟩], by decide, ?_⟩
    have hany : (entriesToBlocks Codec.wire byLength
        [⟨⟨[1], [], 2, 0, 0⟩, 0, 0, 0⟩, ⟨⟨[], [], 0, 0, 0⟩, 0, 0, 0⟩]).any
        (fun x => x.2.1.any fun b => (writeBlock b).isNone) = true := by
      decide +kernel
    obtain ⟨⟨sorted, blocks, j, k⟩, hblocks, hnone⟩ := Option.any_eq_true _ _ |>.mp hany
    exact ⟨sorted, blocks, j, k, hblocks, by simpa using hnone⟩
  · obtain ⟨value, hvalue⟩ : ∃ value : Bytes, value.length = 2 ^ 32 :=
      ⟨replicate (2 ^ 32) 0, length_replicate⟩
    have hbig : shouldWriteValueToLSM ⟨[1], value, 0, 0, 0⟩ = false := by
      simp [shouldWriteValueToLSM, hvalue, valueThrottle]
    refine ⟨⟨[1], value, 0, 0, 0⟩, hbig, fun C srt => ?_⟩
    set ei : EntryInfo := ⟨⟨[1], value, 0, 0, 0⟩, 0, 0, 0⟩ with hei
    have hsort : srt.sort [ei] = [ei] := perm_singleton.mp (srt.perm [ei])
    have hsize : 2 ^ 32 ≤ ei.log.size := by
      have := length_le_sizeField value.length
      show 2 ^ 32 ≤ sizeField _ + sizeField value.length + _ + _ + _
      omega
    have hfill : fillLoop C [ei] none [] = some ([], [ei]) := by
      rw [fillLoop, if_pos (by rw [hei, hbig]; rfl)]
      rfl
    have hnone : valueBlock C ei.log = none := by
      have hlt := (UInt32.ofNat (ceil (u32 ei.log.size) 512)).toNat_lt
      rw [valueBlock, marshalTo, if_pos (by rw [length_replicate]; omega)]
      rfl
    have hmap : [ei].mapM (fun x => valueBlock C x.log) = none := by
      rw [mapM_cons, hnone]
      rfl
    simp only [entriesToBlocks, if_neg (cons_ne_nil _ _), hsort, hfill, Option.bind_some, hmap,
      Option.map_none]

end Pb
end Autumn
