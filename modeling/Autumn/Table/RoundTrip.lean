import Autumn.Table.Cursor

/-!
# From the builder through the stream to an open table

The blocks a builder has finished are appended to the stream in groups, and it is noted where each
block has come to lie.  `FinishAll` writes these places, the first keys of the blocks and the bloom
filter of the user keys into one last block, and `OpenTable` starts from it.  Sizes are 32-bit
numbers: a value of four gigabytes is cut off without an error.
-/

namespace Autumn

open Lib Y List Option

namespace Sst

/-! ## The source -/

/-- `pspb.TableIndex`. -/
structure TableIndex where
  offsets : List BlockOffset
  bloomFilter : Bytes
  estimatedSize : ℕ
  deriving DecidableEq, Repr

/-- What comes from libraries: `farm.Fingerprint64`, the bloom filter as it is written and read, and
the message of an index. -/
structure Codec where
  fingerprint : Bytes → ℕ
  newBloom : List ℕ → Bytes
  openBloom : Bytes → Option (ℕ → Bool)
  marshal : TableIndex → Bytes
  unmarshal : Bytes → Option TableIndex

/-- Messages are read back, and a bloom filter has what was put in. -/
structure Codec.Faithful (C : Codec) : Prop where
  unmarshal_marshal : ∀ x, C.unmarshal (C.marshal x) = some x
  openBloom_newBloom : ∀ hs, ∃ has, C.openBloom (C.newBloom hs) = some has ∧ ∀ h ∈ hs, has h = true

/-- The loop of the goroutine: blocks are taken from the channel until they are more than ten
megabytes or none is waiting. -/
def slurp : List (Block × Bytes) → List Bool → List (Block × Bytes) → ℕ →
    List (List (Block × Bytes))
  | [], _, blocks, _ => if blocks.length = 0 then [] else [blocks]
  | w :: rest, more, blocks, size =>
    let blocks := blocks ++ [w]
    let size := u32 (size + w.1.blockLength)
    if size > 10 * 1024 * 1024 ∨ more.headD false = false then
      blocks :: slurp rest more.tail [] 0
    else slurp rest more.tail blocks size

/-- `stream.Append` of a group, with its answer. -/
structure Append where
  group : List (Block × Bytes)
  extentID : ℕ
  offsets : List ℕ

/-- `addBlockToIndex` for the blocks of one append. -/
def Append.index (a : Append) : List BlockOffset :=
  List.zipWith (fun w offset => ⟨w.2, a.extentID, offset⟩) a.group a.offsets

/-- The index of a table. -/
def tableIndex (C : Codec) (b : Builder) (appends : List Append) : TableIndex :=
  { offsets := appends.flatMap Append.index
    bloomFilter := C.newBloom b.keyHashes
    estimatedSize := b.estimatedSize }

/-- `FinishAll` up to its append: the meta block. -/
def finishAll (C : Codec) (index : TableIndex)
    (headExtentID headOffset seqNum : ℕ) : Option Block :=
  let size := (C.marshal index).length
  let sz := ceil (u32 size) 4096
  if size ≤ sz then
    some {
      data := C.marshal index ++ List.replicate (sz - size) 0
      blockLength := sz
      userData := {
        type := .metaBlock
        unCompressedSize := u32 size
        vpExtentID := headExtentID
        vpOffset := headOffset
        seqNum := seqNum } }
  else none

/-- The errors of `OpenTable`. -/
inductive OpenErr where
  | read
  /-- "len of block is not 1" -/
  | blockCount
  /-- "block type error" -/
  | blockType
  | unmarshal
  | bloom
  /-- "failed to initialize biggest for table" -/
  | biggest (err : Err)
  deriving DecidableEq, Repr

/-- `initBiggestAndSmallest`. -/
def initBiggestAndSmallest (t : Table) : Option (Except OpenErr Table) :=
  match t.blockIndex with
  | [] => none
  | bo :: _ =>
    match (TableIterator.newIterator t).bind (TableIterator.seekToLast t) with
    | none => none
    | some it2 =>
      match it2.err with
      | some err => some (.error (.biggest err))
      | none => some (.ok { t with smallest := bo.key, biggest := it2.key })

/-- `OpenTable`. -/
def openTable (C : Codec) (read : ℕ → ℕ → Option (List Block)) (extentID offset : ℕ) :
    Option (Except OpenErr Table) :=
  match read extentID offset with
  | none => some (.error .read)
  | some [block] =>
    if block.userData.type ≠ .metaBlock then some (.error .blockType)
    else
      match slice block.data 0 block.userData.unCompressedSize with
      | none => none
      | some raw =>
        match C.unmarshal raw with
        | none => some (.error .unmarshal)
        | some index =>
          match C.openBloom index.bloomFilter with
          | none => some (.error .bloom)
          | some has => initBiggestAndSmallest {
              read := read
              blockIndex := index.offsets
              estimatedSize := index.estimatedSize
              has := has
              extentID := extentID
              offset := offset
              lastSeq := block.userData.seqNum
              vpExtentID := block.userData.vpExtentID
              vpOffset := block.userData.vpOffset }
  | some _ => some (.error .blockCount)

/-! ## The blocks in the stream -/

/-- However the goroutine makes its groups, every block is in one, in order. -/
theorem flatten_slurp : ∀ (ws : List (Block × Bytes)) (more : List Bool)
    (blocks : List (Block × Bytes)) (size : ℕ), (slurp ws more blocks size).flatten = blocks ++ ws
  | [], _, blocks, _ => by
    rw [slurp, append_nil]
    split_ifs with h
    · rw [length_eq_zero_iff.mp h, flatten_nil]
    · rw [flatten_singleton]
  | w :: ws, more, blocks, size => by
    rw [slurp]
    split_ifs
    · rw [flatten_cons, flatten_slurp ws, nil_append, append_assoc, singleton_append]
    · rw [flatten_slurp ws, append_assoc, singleton_append]

/-- The goroutine has appended the finished blocks, and the stream gives them back. -/
structure Stored (read : ℕ → ℕ → Option (List Block)) (b : Builder)
    (appends : List Append) : Prop where
  groups : ∃ more, appends.map Append.group = slurp b.sent more [] 0
  returned : ∀ a ∈ appends,
    List.Forall₂ (fun w offset => read a.extentID offset = some [w.1]) a.group a.offsets

variable {read : ℕ → ℕ → Option (List Block)} {b : Builder}

theorem Stored.sent_eq {appends : List Append} (h : Stored read b appends) :
    appends.flatMap Append.group = b.sent := by
  obtain ⟨more, hmore⟩ := h.groups
  rw [flatMap_def, hmore, flatten_slurp, nil_append]

/-- One block at the start of extent 1, another block elsewhere. -/
theorem stored_singleton {w : Block × Bytes} (hsent : b.sent = [w]) {block : Block} :
    Stored (fun extentID _ => if extentID = 1 then some [w.1] else some [block]) b
      [⟨b.sent, 1, [0]⟩] := by
  refine ⟨⟨[], ?_⟩, fun a ha => ?_⟩
  · show [b.sent] = _
    rw [hsent, slurp]
    exact (if_pos (.inr rfl)).symm
  · cases mem_singleton.mp ha
    rw [hsent]
    exact .cons rfl .nil

/-- The index leads to the blocks, under their base keys. -/
def Leads (read : ℕ → ℕ → Option (List Block)) (bo : BlockOffset) (w : Block × Bytes) : Prop :=
  bo.key = w.2 ∧ read bo.extentID bo.offset = some [w.1]

variable {e : ℕ} {t : Table} {blocks : List (List KV)} {C : Codec} {fp : Bytes → ℕ}
  {v : ValueStruct} {index : TableIndex} {block : Block}

theorem Append.leads {ws : List (Block × Bytes)} {offs : List ℕ}
    (h : List.Forall₂ (fun w offset => read e offset = some [w.1]) ws offs) :
    List.Forall₂ (Leads read) (Append.index ⟨ws, e, offs⟩) ws := by
  induction h with
  | nil => exact .nil
  | cons hread _ ih => exact .cons ⟨rfl, hread⟩ ih

theorem Stored.leads {appends : List Append} (h : Stored read b appends) :
    List.Forall₂ (Leads read) (appends.flatMap Append.index) b.sent := by
  rw [← h.sent_eq]
  have hall := h.returned
  clear h
  induction appends with
  | nil => exact .nil
  | cons a appends ih =>
    exact rel_append (Append.leads (hall a (.head _)))
      (ih fun x hx => hall x (.tail _ hx))

theorem exists_left {α β : Type*} {R : α → β → Prop} {l : List α} {m : List β}
    (h : List.Forall₂ R l m) {i : ℕ} {y : β} (hy : m[i]? = some y) :
    ∃ x, l[i]? = some x ∧ R x y := by
  obtain ⟨hi, rfl⟩ := List.getElem?_eq_some_iff.mp hy
  have hi' : i < l.length := h.length_eq ▸ hi
  exact ⟨l[i], getElem?_eq_getElem hi', (forall₂_iff_get.mp h).2 i hi' hi⟩

/-- A table whose index leads to the blocks of a list in order has the list laid out in it. -/
theorem laid_of_leads {sent : List (Block × Bytes)}
    (hleads : List.Forall₂ (Leads t.read) t.blockIndex sent)
    (hsent : List.Forall₂ Sends sent blocks) (hfits : ∀ x ∈ blocks.flatten, Fits x)
    (hsorted : blocks.flatten.Pairwise fun x y => Raw.compareKeys x.1 y.1 = .lt)
    (hne : blocks.flatten ≠ []) : Laid t blocks where
  length_eq := hleads.length_eq.trans hsent.length_eq
  block := by
    intro bp es hes
    obtain ⟨w, hw, hsends⟩ := exists_left hsent hes
    obtain ⟨bo, hbo, _, hread⟩ := exists_left hleads hw
    refine ⟨w.1, ?_, hsends.encodes⟩
    rw [Table.block, if_neg (by omega), Int.toNat_natCast, hbo, map_some, hread]
  key := by
    intro bp es hes
    obtain ⟨w, hw, hsends⟩ := exists_left hsent hes
    obtain ⟨bo, hbo, hkey, _⟩ := exists_left hleads hw
    exact ⟨bo, hbo, hkey.trans hsends.base_eq⟩
  ne_nil := by
    intro es hes
    obtain ⟨bp, hbp, rfl⟩ := mem_iff_getElem.mp hes
    obtain ⟨_, _, hsends⟩ := exists_left hsent (getElem?_eq_getElem hbp)
    exact hsends.ne_nil
  fits := hfits
  sorted := by
    refine hsorted.imp_of_mem fun {x y} hx hy hlt => ?_
    rwa [Raw.compareKeys_eq (hfits x hx).key.len_ge (hfits y hy).key.len_ge, cmp_eq_lt_iff] at hlt
  nonempty := by
    rintro rfl
    exact hne flatten_nil

/-! ## The meta block -/

theorem finishAll_spec (hsize : (C.marshal index).length ≤ 2 ^ 32 - 4096) (e o s : ℕ) :
    ∃ block, finishAll C index e o s = some block ∧
      slice block.data 0 block.userData.unCompressedSize = some (C.marshal index) ∧
      block.userData.type = .metaBlock ∧ block.userData.vpExtentID = e ∧
      block.userData.vpOffset = o ∧ block.userData.seqNum = s := by
  have hu : u32 (C.marshal index).length = (C.marshal index).length := Nat.mod_eq_of_lt (by omega)
  have hge : (C.marshal index).length ≤ ceil (u32 (C.marshal index).length) 4096 := by
    rw [hu]
    exact (ceil_bounds (by decide) (by omega)).1
  refine ⟨_, if_pos hge, ?_, rfl, rfl, rfl, rfl⟩
  show slice (_ ++ _) 0 (u32 (C.marshal index).length) = _
  rw [hu, slice, if_pos ⟨Nat.zero_le _, by rw [length_append]; omega⟩, drop_zero, take_left]

theorem initBiggestAndSmallest_spec (h : Laid t blocks) :
    ∃ x y, blocks.flatten.head? = some x ∧ blocks.flatten.getLast? = some y ∧
      initBiggestAndSmallest t = some (.ok { t with smallest := x.1, biggest := y.1 }) := by
  obtain ⟨itr₀, _, hnew, _⟩ := TableIterator.newIterator_spec h
  obtain ⟨itr, y, hseek, hon⟩ := @TableIterator.seekToLast_spec t blocks itr₀ h
  obtain ⟨es, hes⟩ := h.exists_block (h.length_eq ▸ length_pos_of_ne_nil h.nonempty)
  obtain ⟨bo, hbo, hkey⟩ := h.key hes
  obtain ⟨x, _, hx, hbase⟩ := (TableIterator.base_le h hes).1
  have hhead : blocks.flatten[0]? = some x := getElem?_position hes hx
  refine ⟨x, y, by rw [head?_eq_getElem?, hhead], by rw [getLast?_eq_getElem?, hon.get], ?_⟩
  obtain ⟨rest, hindex⟩ : ∃ rest, t.blockIndex = bo :: rest := by
    cases hb : t.blockIndex with
    | nil => rw [hb] at hbo; cases hbo
    | cons b rest =>
      rw [hb] at hbo
      exact ⟨rest, by rw [some.inj hbo]⟩
  rw [initBiggestAndSmallest, hindex]
  simp only [hnew, bind_some, hseek, hon.err_eq, hkey, ← hbase, TableIterator.key, hon.key_eq]

/-! ## The round trip -/

/-- The iterator shows the pair at the cursor, and is invalid if there is none. -/
def Shows (l : List KV) (itr : TableIterator) : Option ℕ → Prop
  | some g => itr.valid = true ∧
      ∃ x, l[g]? = some x ∧ itr.key = x.1 ∧ itr.value = some x.2.decoded
  | none => itr.valid = false

/-- The table holds the list `l`, and the numbers that were given to `FinishAll`. -/
structure Holds (C : Codec) (l : List KV) (e o s : ℕ) (t : Table) : Prop where
  vpExtentID_eq : t.vpExtentID = e
  vpOffset_eq : t.vpOffset = o
  lastSeq_eq : t.lastSeq = s
  smallest_eq : l.head?.map Prod.fst = some t.smallest
  biggest_eq : l.getLast?.map Prod.fst = some t.biggest
  iterates : ∀ (reversed : Bool) (ops : List TableIterator.Op), (∀ op ∈ ops, op.HasVersion) →
    ∃ itr, TableIterator.run t reversed ops = some itr ∧ Shows l itr (Cursor.run l reversed ops)
  filter : ∀ x ∈ l, t.doesNotHave (C.fingerprint (Raw.parseKey x.1)) = false

/-- `FinishAll` returns, and where its block is given back `OpenTable` finds the list. -/
def Reopens (C : Codec) (l : List KV) (read : ℕ → ℕ → Option (List Block)) (index : TableIndex) :
    Prop :=
  ∀ e o s, ∃ block, finishAll C index e o s = some block ∧
    ∀ extentID offset, read extentID offset = some [block] →
      ∃ t, openTable C read extentID offset = some (.ok t) ∧ Holds C l e o s t

theorem shows_of_follows {reversed : Bool} {itr : TableIterator} {c : Option ℕ} (h : Laid t blocks)
    (hc : TableIterator.Follows t blocks reversed itr c) : Shows blocks.flatten itr c := by
  cases c with
  | some g =>
    obtain ⟨e, hon⟩ := hc
    have hfits := h.fits e (mem_of_getElem? hon.get)
    refine ⟨by rw [TableIterator.valid, hon.err_eq]; rfl, e, hon.get, hon.key_eq, ?_⟩
    rw [TableIterator.value, hon.val_eq]
    exact ValueStruct.decode_encode hfits.value.expiresAt_lt
  | none =>
    have herr : itr.err = some .eof := by
      cases reversed with
      | false | true => exact hc.1
    show itr.valid = false
    rw [TableIterator.valid, herr]
    rfl

/-- A table opened on the index of a list that its index leads to. -/
theorem openTable_spec (hC : C.Faithful) {hashes : List ℕ} {sent : List (Block × Bytes)}
    (hfilter : index.bloomFilter = C.newBloom hashes)
    (hleads : List.Forall₂ (Leads read) index.offsets sent)
    (hsent : List.Forall₂ Sends sent blocks) (hfits : ∀ x ∈ blocks.flatten, Fits x)
    (hsorted : blocks.flatten.Pairwise fun x y => Raw.compareKeys x.1 y.1 = .lt)
    (hne : blocks.flatten ≠ [])
    (hhashes : hashes = blocks.flatten.map fun y => C.fingerprint (Raw.parseKey y.1))
    (hsize : (C.marshal index).length ≤ 2 ^ 32 - 4096) : Reopens C blocks.flatten read index := by
  intro e o s
  obtain ⟨block, hfinish, hslice, htype, rfl, rfl, rfl⟩ := finishAll_spec hsize e o s
  obtain ⟨has, hbloom, hhas⟩ := hC.openBloom_newBloom hashes
  refine ⟨block, hfinish, fun extentID offset hread => ?_⟩
  let t : Table :=
    { read := read, blockIndex := index.offsets, estimatedSize := index.estimatedSize, has := has,
      extentID := extentID, offset := offset, lastSeq := block.userData.seqNum,
      vpExtentID := block.userData.vpExtentID, vpOffset := block.userData.vpOffset }
  have hlaid : Laid t blocks := laid_of_leads hleads hsent hfits hsorted hne
  obtain ⟨x, y, hx, hy, hinit⟩ := initBiggestAndSmallest_spec hlaid
  have hopen : openTable C read extentID offset =
      some (.ok { t with smallest := x.1, biggest := y.1 }) := by
    rw [openTable, hread]
    simp only [htype, ne_eq, not_true_eq_false, if_false, hslice, hC.unmarshal_marshal, hfilter,
      hbloom]
    exact hinit
  -- the first and last key do not matter for the blocks
  have hlaid' : Laid { t with smallest := x.1, biggest := y.1 } blocks :=
    laid_of_leads hleads hsent hfits hsorted hne
  refine ⟨_, hopen, rfl, rfl, rfl, by rw [hx]; rfl, by rw [hy]; rfl, fun reversed ops hops => ?_,
    fun z hz => ?_⟩
  · obtain ⟨itr, hrun, hc⟩ := TableIterator.run_follows hlaid' reversed ops hops
    exact ⟨itr, hrun, shows_of_follows hlaid' hc⟩
  · show (!has (C.fingerprint (Raw.parseKey z.1))) = false
    rw [hhas _ (hhashes ▸ mem_map_of_mem hz)]
    rfl

/-- A list of pairs in order goes through the builder, the stream and `OpenTable`: the iterators of
the table are cursors on the list, in both directions. -/
theorem table_roundTrip {C : Codec} (hC : C.Faithful) {l : List KV} (hne : l ≠ [])
    (hsorted : l.Pairwise fun x y => Raw.compareKeys x.1 y.1 = .lt)
    (hkeys : ∀ x ∈ l, KeyFits x.1) (hvalues : ∀ x ∈ l, ValueFits x.2) :
    ∃ b, build C.fingerprint l = some b ∧
      ∀ (read : ℕ → ℕ → Option (List Block)) (appends : List Append), Stored read b appends →
        (C.marshal (tableIndex C b appends)).length ≤ 2 ^ 32 - 4096 →
        Reopens C l read (tableIndex C b appends) := by
  have hfits : ∀ x ∈ l, Fits x := fun x hx => ⟨hkeys x hx, hvalues x hx⟩
  obtain ⟨b, blocks, hbuild, rfl, hsent, hhashes⟩ := @build_spec C.fingerprint l
    (fun x hx => (hfits x hx).buildable) hne
  refine ⟨b, hbuild, fun read appends hstored hsize => ?_⟩
  exact openTable_spec hC rfl hstored.leads hsent hfits hsorted hne hhashes hsize

/-! ## A codec

Numbers are written in unary and byte strings behind their length.  The filter keeps one byte of
each hash. -/

namespace Unary

def nat (n : ℕ) : Bytes := List.replicate n 1 ++ [0]

def readNat : Bytes → Option (ℕ × Bytes)
  | [] => none
  | x :: rest => if x = 0 then some (0, rest) else (readNat rest).map fun r => (r.1 + 1, r.2)

def bytes (b : Bytes) : Bytes := nat b.length ++ b

def readBytes (input : Bytes) : Option (Bytes × Bytes) :=
  (readNat input).map fun r => (r.2.take r.1, r.2.drop r.1)

def entry (bo : BlockOffset) : Bytes := bytes bo.key ++ (nat bo.extentID ++ nat bo.offset)

def readEntry (input : Bytes) : Option (BlockOffset × Bytes) :=
  (readBytes input).bind fun k => (readNat k.2).bind fun e => (readNat e.2).map fun o =>
    (⟨k.1, e.1, o.1⟩, o.2)

def readEntries : ℕ → Bytes → Option (List BlockOffset × Bytes)
  | 0, input => some ([], input)
  | n + 1, input => (readEntry input).bind fun x => (readEntries n x.2).map fun xs =>
      (x.1 :: xs.1, xs.2)

def marshal (index : TableIndex) : Bytes :=
  nat index.offsets.length ++
    (index.offsets.flatMap entry ++ (bytes index.bloomFilter ++ nat index.estimatedSize))

def unmarshal (input : Bytes) : Option TableIndex :=
  (readNat input).bind fun n => (readEntries n.1 n.2).bind fun xs => (readBytes xs.2).bind fun f =>
    (readNat f.2).map fun s => ⟨xs.1, f.1, s.1⟩

theorem readNat_append (rest : Bytes) : ∀ n, readNat (nat n ++ rest) = some (n, rest)
  | 0 => rfl
  | n + 1 => by
    have ih := readNat_append rest n
    rw [nat, append_assoc] at ih
    rw [nat, replicate_succ, cons_append, cons_append, append_assoc, readNat,
      if_neg (by decide), ih, map_some]

theorem readBytes_append (rest b : Bytes) : readBytes (bytes b ++ rest) = some (b, rest) := by
  rw [bytes, append_assoc, readBytes, readNat_append, map_some, take_left, drop_left]

theorem readEntry_append (rest : Bytes) (bo : BlockOffset) :
    readEntry (entry bo ++ rest) = some (bo, rest) := by
  rw [entry, append_assoc, append_assoc, readEntry, readBytes_append, bind_some,
    readNat_append, bind_some, readNat_append, map_some]

theorem readEntries_append (rest : Bytes) : ∀ bos : List BlockOffset,
    readEntries bos.length (bos.flatMap entry ++ rest) = some (bos, rest)
  | [] => rfl
  | bo :: bos => by
    rw [length_cons, flatMap_cons, append_assoc, readEntries, readEntry_append,
      bind_some, readEntries_append rest bos, map_some]

theorem unmarshal_marshal (index : TableIndex) : unmarshal (marshal index) = some index := by
  have htail := readNat_append [] index.estimatedSize
  rw [append_nil] at htail
  rw [marshal, unmarshal, readNat_append, bind_some, readEntries_append, bind_some,
    readBytes_append, bind_some, htail, map_some]

/-- The hash of a key is its length. -/
def codec : Codec where
  fingerprint := List.length
  newBloom := fun hs => hs.map UInt8.ofNat
  openBloom := fun b => some fun h => b.contains (UInt8.ofNat h)
  marshal := marshal
  unmarshal := unmarshal

theorem codec_faithful : codec.Faithful where
  unmarshal_marshal := unmarshal_marshal
  openBloom_newBloom := fun _ => ⟨_, rfl, fun _ hh =>
    contains_iff_mem.mpr (mem_map_of_mem hh)⟩

end Unary

/-- Two pairs, the second without a value. -/
def twoPairs : List KV :=
  [(7 :: List.replicate 8 0, { value := some [1] }),
    (7 :: 1 :: List.replicate 8 0, { userMeta := 3 })]

theorem build_twoPairs : ∃ b block, build Unary.codec.fingerprint twoPairs = some b ∧
    b.sent = [(block, 7 :: replicate 8 0)] ∧ b.keyHashes = [1, 2] ∧ b.estimatedSize = 33 := by
  have hrun : (build Unary.codec.fingerprint twoPairs).map (fun b =>
      (b.sent.map Prod.snd, b.keyHashes, b.estimatedSize)) =
      some ([7 :: replicate 8 0], [1, 2], 33) := by decide +kernel
  obtain ⟨b, hb, heq⟩ := map_eq_some_iff.mp hrun
  obtain ⟨hsent, hhash, hsize⟩ : b.sent.map Prod.snd = [7 :: replicate 8 0] ∧
      b.keyHashes = [1, 2] ∧ b.estimatedSize = 33 := by
    simpa only [Prod.mk.injEq] using heq
  obtain ⟨⟨block, key⟩, hw, rfl⟩ := map_eq_singleton_iff.mp hsent
  exact ⟨b, block, hb, hw, hhash, hsize⟩

/-- The two pairs in one block at the start of extent 1, the meta block at the start of extent 2. -/
theorem table_roundTrip_twoPairs : ∃ b read appends block t,
    build Unary.codec.fingerprint twoPairs = some b ∧ Stored read b appends ∧
      (Unary.codec.marshal (tableIndex Unary.codec b appends)).length ≤ 2 ^ 32 - 4096 ∧
      finishAll Unary.codec (tableIndex Unary.codec b appends) 5 6 7 = some block ∧
      openTable Unary.codec read 2 0 = some (.ok t) ∧ Holds Unary.codec twoPairs 5 6 7 t := by
  obtain ⟨b, hbuild, htrip⟩ := @table_roundTrip Unary.codec Unary.codec_faithful twoPairs
    (by decide)
    (by decide +kernel) (by
      intro x hx
      have hlen : x.1.length = 9 ∨ x.1.length = 10 := by
        rcases hx with _ | ⟨_, hx⟩
        · exact .inl rfl
        · cases mem_singleton.mp hx
          exact .inr rfl
      exact ⟨by omega, by omega⟩) (by
      intro x hx
      rcases hx with _ | ⟨_, hx⟩
      · exact ⟨by decide, by decide⟩
      · cases mem_singleton.mp hx
        exact ⟨by decide, by decide⟩)
  obtain ⟨b', first, hbuild', hsent, hhash, hest⟩ := build_twoPairs
  obtain rfl : b' = b := some.inj (hbuild'.symm.trans hbuild)
  let appends : List Append := [⟨b'.sent, 1, [0]⟩]
  have hindex : tableIndex Unary.codec b' appends =
      { offsets := [⟨7 :: replicate 8 0, 1, 0⟩], bloomFilter := [1, 2], estimatedSize := 33 } := by
    show TableIndex.mk (zipWith _ b'.sent [0] ++ []) (b'.keyHashes.map UInt8.ofNat) _ = _
    rw [hsent, hhash, hest]
    rfl
  have hsize :
      (Unary.codec.marshal (tableIndex Unary.codec b' appends)).length ≤ 2 ^ 32 - 4096 := by
    rw [hindex]
    decide
  obtain ⟨block, hfinish, _⟩ := finishAll_spec hsize 5 6 7
  have hstored := @stored_singleton b' _ hsent block
  obtain ⟨block', hfinish', hopen⟩ := htrip _ appends hstored hsize 5 6 7
  obtain rfl : block' = block := some.inj (hfinish'.symm.trans hfinish)
  obtain ⟨t, ht, hholds⟩ := hopen 2 0 rfl
  exact ⟨b', _, appends, block', t, hbuild, hstored, hsize, hfinish', ht, hholds⟩

/-! ## A value of four gigabytes

Whatever is added, the data of a block is shorter than four gigabytes: its length is a 32-bit
number.  So no iterator gives back a value of that length. -/

theorem length_copyAt {dst src : Bytes} {off : ℕ} (h : off ≤ dst.length) :
    (copyAt dst off src).length = dst.length := by
  rw [copyAt, length_append, length_append, length_take, length_take, length_drop]
  omega

theorem length_ensureRoom (h : block.data.length < 2 ^ 32) (sz n : ℕ) :
    (ensureRoom block sz n).data.length < 2 ^ 32 := by
  rw [ensureRoom]
  split_ifs
  · have hlt := ceil_lt (u32 (block.blockLength + n)) 512
    show (take _ _ ++ replicate _ _).length < 2 ^ 32
    rw [length_append, length_take, length_replicate]
    omega
  · exact h

/-- The blocks of a builder are shorter than four gigabytes. -/
structure Short (b : Builder) : Prop where
  current : ∀ block, b.currentBlock = some block → block.data.length < 2 ^ 32
  sent : ∀ w ∈ b.sent, w.1.data.length < 2 ^ 32

namespace Short

variable {b' : Builder}

theorem append (h : Short b) {data : Bytes} (hrun : b.append data = some b') : Short b' := by
  have hblock : (b.currentBlock.getD newBlock).data.length < 2 ^ 32 := by
    cases hc : b.currentBlock with
    | none =>
      show (replicate 65536 (0 : UInt8)).length < 2 ^ 32
      rw [length_replicate]
      omega
    | some block => exact h.current block hc
  rw [Builder.append] at hrun
  split_ifs at hrun with hle
  cases hrun
  refine ⟨fun block hcur => ?_, h.sent⟩
  cases hcur
  rw [length_copyAt hle]
  exact length_ensureRoom hblock _ _

theorem appendValue (h : Short b) (hrun : b.appendValue v = some b') : Short b' := by
  obtain ⟨block, hcur, hrun⟩ := bind_eq_some_iff.mp hrun
  dsimp only at hrun
  split_ifs at hrun with hle
  cases hrun
  refine ⟨fun block' hcur' => ?_, h.sent⟩
  cases hcur'
  rw [length_copyAt (by omega)]
  exact length_ensureRoom (h.current block hcur) _ _

theorem addHelper (h : Short b) {key : Bytes} (hrun : b.addHelper fp key v = some b') :
    Short b' := by
  rw [Builder.addHelper] at hrun
  split_ifs at hrun with hlt hbase
  all_goals
    obtain ⟨b₁, h₁, hrun⟩ := bind_eq_some_iff.mp hrun
    obtain ⟨b₂, h₂, hrun⟩ := bind_eq_some_iff.mp hrun
    obtain ⟨b₃, h₃, hrun⟩ := bind_eq_some_iff.mp hrun
    cases hrun
    have hb₁ : Short b₁ := by
      refine append ?_ h₁
      exact ⟨h.current, h.sent⟩
    have hb₃ := (hb₁.append h₂).appendValue h₃
    exact ⟨hb₃.current, hb₃.sent⟩

theorem finishBlock (h : Short b) (hrun : b.finishBlock = some b') : Short b' := by
  obtain ⟨b₁, h₁, hrun⟩ := bind_eq_some_iff.mp hrun
  obtain ⟨b₂, h₂, hrun⟩ := bind_eq_some_iff.mp hrun
  obtain ⟨block, hcur, hrun⟩ := bind_eq_some_iff.mp hrun
  cases hrun
  have hb₂ := (h.append h₁).append h₂
  have hblock := hb₂.current block hcur
  refine ⟨fun block' hcur' => ?_, forall_mem_concat hb₂.sent hblock⟩
  cases hcur'
  exact hblock

theorem add (h : Short b) {x : KV} (hrun : b.add fp x = some b') : Short b' := by
  rw [Builder.add] at hrun
  split_ifs at hrun
  · cases hfinish : b.finishBlock with
    | none => rw [hfinish] at hrun; cases hrun
    | some b₁ =>
      rw [hfinish] at hrun
      refine addHelper ?_ hrun
      exact ⟨fun _ hcur => absurd hcur (by simp), (h.finishBlock hfinish).sent⟩
  · exact h.addHelper hrun

theorem addAll : ∀ {l : List KV} {b : Builder}, Short b →
    Builder.addAll fp b l = some b' → Short b'
  | [], _, h, hrun => some.inj hrun ▸ h
  | _ :: _, _, h, hrun => by
    obtain ⟨b₁, hadd, hrest⟩ := bind_eq_some_iff.mp hrun
    exact addAll (h.add hadd) hrest

end Short

theorem short_build {l : List KV} (h : build fp l = some b) : Short b := by
  obtain ⟨b₁, hadd, hfinish⟩ := bind_eq_some_iff.mp h
  have h₀ : Short {} := ⟨fun _ hcur => absurd hcur (by simp), fun _ hw => absurd hw (not_mem_nil)⟩
  exact (h₀.addAll hadd).finishBlock hfinish

theorem short_finishAll {o s : ℕ} (h : finishAll C index e o s = some block) :
    block.data.length < 2 ^ 32 := by
  rw [finishAll] at h
  split_ifs at h with hle
  cases h
  have hlt := ceil_lt (u32 (C.marshal index).length) 4096
  rw [length_append, length_replicate]
  omega

theorem length_slice_le {b r : Bytes} {i j : ℕ} (h : slice b i j = some r) :
    r.length ≤ b.length := by
  rw [slice] at h
  split_ifs at h
  cases h
  rw [length_drop, length_take]
  omega

theorem BlockIterator.val_le_of_setIdx {itr itr' : BlockIterator} {i : ℤ}
    (hval : itr.val.length ≤ itr.data.length) (h : itr.setIdx i = some itr') :
    itr'.val.length ≤ itr.data.length := by
  rw [setIdx] at h
  split_ifs at h
  · cases h
    exact hval
  · obtain ⟨_, _, h⟩ := bind_eq_some_iff.mp h
    obtain ⟨_, _, h⟩ := bind_eq_some_iff.mp h
    obtain ⟨_, _, h⟩ := bind_eq_some_iff.mp h
    obtain ⟨entry, hentry, h⟩ := bind_eq_some_iff.mp h
    obtain ⟨_, _, h⟩ := bind_eq_some_iff.mp h
    obtain ⟨_, _, h⟩ := bind_eq_some_iff.mp h
    obtain ⟨_, _, h⟩ := bind_eq_some_iff.mp h
    obtain ⟨v, hv, h⟩ := bind_eq_some_iff.mp h
    cases h
    exact (length_slice_le hv).trans (length_slice_le hentry)

theorem BlockIterator.setBlock_le {bi : BlockIterator} (h : setBlock block = some bi) :
    bi.data.length ≤ block.data.length ∧ bi.val = [] := by
  rw [setBlock] at h
  simp only [bind_eq_bind, bind_eq_some_iff] at h
  obtain ⟨_, _, _, _, data, hdata, h⟩ := h
  cases h
  exact ⟨length_slice_le hdata, rfl⟩

/-- The first value of a table is no longer than the blocks that can be read. -/
theorem TableIterator.val_lt_of_newIterator {itr : TableIterator} {n : ℕ} (hn : 0 < n)
    (hread : ∀ e o block, t.read e o = some [block] → block.data.length < n)
    (h : newIterator t = some itr) : itr.bi.val.length < n := by
  rw [newIterator, next] at h
  split_ifs at h with hge hlen
  · cases h
    exact hn
  · rw [load] at h
    cases hblock : t.block 0 with
    | none => simp only [hblock] at h; cases h
    | some r =>
      cases r with
      | error err =>
        simp only [hblock, some_inj] at h
        rw [← h]
        exact hn
      | ok block =>
        have hlt : block.data.length < n := by
          obtain ⟨bo, _, hbo⟩ := map_eq_some_iff.mp hblock
          split at hbo
          · next b hb =>
            cases hbo
            exact hread _ _ _ hb
          · cases hbo
        simp only [hblock] at h
        obtain ⟨bi, hset, h⟩ := bind_eq_some_iff.mp h
        obtain ⟨bi', hmove, h⟩ := bind_eq_some_iff.mp h
        obtain ⟨hdata, hval⟩ := BlockIterator.setBlock_le hset
        have := BlockIterator.val_le_of_setIdx (by rw [hval]; exact Nat.zero_le _) hmove
        cases h
        show bi'.val.length < n
        omega
  · exact absurd rfl hlen

theorem initBiggestAndSmallest_ok {t₀ : Table} (h : initBiggestAndSmallest t₀ = some (.ok t)) :
    t.read = t₀.read ∧ t.blockIndex = t₀.blockIndex := by
  rw [initBiggestAndSmallest] at h
  split at h
  · cases h
  · split at h
    · cases h
    · split at h
      · cases h
      · rw [← Except.ok.inj (some.inj h)]
        exact ⟨rfl, rfl⟩

/-- A table that is open has the index of its meta block. -/
theorem openTable_ok {o : ℕ} (h : openTable C read e o = some (.ok t)) :
    ∃ block raw index, read e o = some [block] ∧
      slice block.data 0 block.userData.unCompressedSize = some raw ∧ C.unmarshal raw = some index ∧
      t.read = read ∧ t.blockIndex = index.offsets := by
  rw [openTable] at h
  split at h
  · cases h
  · rename_i block hread
    split_ifs at h
    · cases h
    · split at h
      · cases h
      · rename_i raw hraw
        split at h
        · cases h
        · rename_i index hindex
          split at h
          · cases h
          · exact ⟨block, raw, index, hread, hraw, hindex, initBiggestAndSmallest_ok h⟩
  · cases h

/-- A block of its own for every append: the goroutine never finds another block waiting. -/
theorem slurp_nil : ∀ ws : List (Block × Bytes), slurp ws [] [] 0 = ws.map fun w => [w]
  | [] => rfl
  | w :: ws => by
    rw [slurp, if_pos (.inr rfl), tail_nil, slurp_nil ws]
    rfl

theorem value_length_le {val : Bytes} (h : ValueStruct.decode val = some v) :
    v.valueLen ≤ val.length := by
  match val, h with
  | _ :: _ :: b, h =>
    obtain ⟨x, _, rfl⟩ := map_eq_some_iff.mp h
    show (b.drop x.2).length ≤ _
    rw [length_drop, length_cons, length_cons]
    omega

/-- A pair with a value of four gigabytes. -/
def fourGiB : KV := (List.replicate 8 0, { value := some (List.replicate (2 ^ 32) 0) })

theorem fourGiB_not_reopened : KeyFits fourGiB.1 ∧ fourGiB.2.expiresAt < 2 ^ 64 ∧
    ¬ ∃ b, build Unary.codec.fingerprint [fourGiB] = some b ∧
      ∀ (read : ℕ → ℕ → Option (List Block)) (appends : List Append), Stored read b appends →
        Reopens Unary.codec [fourGiB] read (tableIndex Unary.codec b appends) := by
  refine ⟨⟨by decide, by decide⟩, by decide, ?_⟩
  rintro ⟨b, hbuild, htrip⟩
  let appends : List Append := b.sent.zipIdx.map fun w => ⟨[w.1], 1, [w.2]⟩
  have hstored : ∀ read : ℕ → ℕ → Option (List Block),
      (∀ o, read 1 o = (b.sent[o]?).map fun w => [w.1]) → Stored read b appends := by
    intro read hread
    refine ⟨⟨[], ?_⟩, fun a ha => ?_⟩
    · rw [slurp_nil, List.map_map]
      conv_rhs => rw [← List.zipIdx_map_fst 0 b.sent, List.map_map]
      rfl
    · obtain ⟨w, hw, rfl⟩ := mem_map.mp ha
      refine .cons ?_ .nil
      rw [hread, mk_mem_zipIdx_iff_getElem?.mp hw, map_some]
  -- the meta block does not depend on what the stream gives back
  obtain ⟨block, hfinish, _⟩ := htrip (fun _ o => (b.sent[o]?).map fun w => [w.1]) appends
    (hstored _ fun _ => rfl) 0 0 0
  let read : ℕ → ℕ → Option (List Block) := fun e o =>
    if e = 1 then (b.sent[o]?).map fun w => [w.1] else some [block]
  obtain ⟨block', hfinish', hopen⟩ := htrip read appends (hstored read fun _ => rfl) 0 0 0
  cases hfinish'.symm.trans hfinish
  obtain ⟨t, ht, hholds⟩ := hopen 2 0 rfl
  obtain ⟨itr, hrun, _, x, hx, _, hvalue⟩ :=
    hholds.iterates false [] (fun _ h => absurd h not_mem_nil)
  cases hx
  have hshort : ∀ e o blk, t.read e o = some [blk] → blk.data.length < 2 ^ 32 := by
    intro e o blk hblk
    obtain ⟨_, _, _, _, _, _, htread, _⟩ := openTable_ok ht
    rw [htread] at hblk
    by_cases he : e = 1
    · obtain ⟨w, hw, heq⟩ := map_eq_some_iff.mp ((if_pos he).symm.trans hblk)
      rw [← singleton_inj.mp heq]
      exact (short_build hbuild).sent w (mem_of_getElem? hw)
    · rw [← singleton_inj.mp (some.inj ((if_neg he).symm.trans hblk))]
      exact short_finishAll hfinish
  have hnew : TableIterator.newIterator t = some itr := by
    obtain ⟨itr₀, hnew, heq⟩ := bind_eq_some_iff.mp hrun
    rw [hnew, ← heq]
    rfl
  have hlt := TableIterator.val_lt_of_newIterator (by decide) hshort hnew
  have hle := value_length_le hvalue
  have hlen : fourGiB.2.decoded.valueLen = 2 ^ 32 := length_replicate
  omega

end Sst
end Autumn
