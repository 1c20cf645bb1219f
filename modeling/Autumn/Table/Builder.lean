import Autumn.Y.Encoding
import Mathlib.Data.List.Forall2

/-!
# The table builder

`builder.go`, with the bytes it writes.  A block is a sequence of entries, the offsets of the
entries and their number.  An entry is a header (how many bytes its key shares with the first key of
the block, and how many follow), the rest of the key and the encoded value.  A block is finished
before an entry that would make it longer than 64 KB, or after 1001 entries; the first entry of a
block may be of any size.  Sizes and their sums are 32-bit numbers, and `ValueFits` keeps them from
wrapping round.
-/

namespace Autumn

open Lib Y List Nat

namespace Sst

/-- A key and its value, as they are given to the builder. -/
abbrev KV := Bytes × ValueStruct

/-! ## The source -/

def u16 (x : ℕ) : ℕ := x % 2 ^ 16

/-- `pspb.RawBlockType`. -/
inductive RawBlockType where
  | dataBlock
  | metaBlock
  deriving DecidableEq, Repr

/-- `pspb.RawBlockMeta`. -/
structure RawBlockMeta where
  type : RawBlockType := .dataBlock
  unCompressedSize : ℕ := 0
  vpExtentID : ℕ := 0
  vpOffset : ℕ := 0
  seqNum : ℕ := 0
  deriving DecidableEq, Repr

/-- `pb.Block`; its user data is a `RawBlockMeta`. -/
structure Block where
  data : Bytes
  blockLength : ℕ
  userData : RawBlockMeta := {}
  deriving DecidableEq, Repr

/-- `copy(dst[off:], src)`. -/
def copyAt (dst : Bytes) (off : ℕ) (src : Bytes) : Bytes :=
  dst.take off ++ src.take (dst.length - off) ++ dst.drop (off + src.length)

/-- `Builder`. -/
structure Builder where
  currentBlock : Option Block := none
  sz : ℕ := 0
  baseKey : Bytes := []
  entryOffsets : List ℕ := []
  keyHashes : List ℕ := []
  /-- `tableIndex.EstimatedSize`. -/
  estimatedSize : ℕ := 0
  /-- What has gone to the writer: blocks with their base keys. -/
  sent : List (Block × Bytes) := []

/-- The number of bytes two keys have in common at the front. -/
def overlap : Bytes → Bytes → ℕ
  | a :: newKey, b :: baseKey => if a = b then overlap newKey baseKey + 1 else 0
  | _, _ => 0

/-- `keyDiff`. -/
def keyDiff (baseKey newKey : Bytes) : Bytes := newKey.drop (overlap newKey baseKey)

/-- `header.Encode`. -/
def encodeHeader (overlap diff : ℕ) : Bytes := leBytes 2 overlap ++ leBytes 2 diff

/-- `blockGrow`. -/
def blockGrow (block : Block) (n : ℕ) : Block :=
  let newSize := ceil (u32 (block.blockLength + n)) 512
  { block with
    data := block.data.take newSize ++ List.replicate (newSize - block.data.length) 0
    blockLength := newSize }

/-- Grow the block unless it has room for `n` bytes behind the first `sz`. -/
def ensureRoom (block : Block) (sz n : ℕ) : Block :=
  if block.blockLength < u32 (sz + n) then blockGrow block n else block

/-- A new block of 64 KB. -/
def newBlock : Block := { data := List.replicate 65536 0, blockLength := 65536 }

namespace Builder

/-- `append`. -/
def append (b : Builder) (data : Bytes) : Option Builder :=
  let block := ensureRoom (b.currentBlock.getD newBlock) b.sz (u32 data.length)
  if b.sz ≤ block.data.length then
    some { b with
      currentBlock := some { block with data := copyAt block.data b.sz data }
      sz := u32 (b.sz + u32 data.length) }
  else none

/-- The end of `addHelper`: the value is encoded into the block.  `Encode` copies as much of the
value as there is room for. -/
def appendValue (b : Builder) (v : ValueStruct) : Option Builder := do
  let block ← b.currentBlock
  let block := ensureRoom block b.sz (u32 v.encodedSize)
  if b.sz + (2 + (putUvarint v.expiresAt).length) ≤ block.data.length then
    let written := v.encode.take (block.data.length - b.sz)
    some { b with
      currentBlock := some { block with data := copyAt block.data b.sz written }
      sz := u32 (b.sz + u32 written.length) }
  else none

/-- `addHelper`; `fp` is the fingerprint of a user key. -/
def addHelper (fp : Bytes → ℕ) (b : Builder) (key : Bytes) (v : ValueStruct) : Option Builder := do
  let diffKey := if b.baseKey.length = 0 then key else keyDiff b.baseKey key
  if b.sz < 2 ^ 32 - 1 then
    let b := { b with
      keyHashes := b.keyHashes ++ [fp (Raw.parseKey key)]
      baseKey := if b.baseKey.length = 0 then key else b.baseKey
      entryOffsets := b.entryOffsets ++ [b.sz] }
    let b ← b.append (encodeHeader (u16 (key.length - diffKey.length)) (u16 diffKey.length))
    let b ← b.append diffKey
    let b ← b.appendValue v
    some { b with estimatedSize :=
      (b.estimatedSize + u32 (4 + u32 diffKey.length + u32 v.encodedSize)) % 2 ^ 64 }
  else none

/-- `FinishBlock`. -/
def finishBlock (b : Builder) : Option Builder := do
  let b ← b.append (b.entryOffsets.flatMap (leBytes 4))
  let b ← b.append (beBytes 4 (u32 b.entryOffsets.length))
  let block ← b.currentBlock
  let block := { block with userData := { unCompressedSize := b.sz } }
  some { b with currentBlock := some block, sent := b.sent ++ [(block, b.baseKey)] }

/-- `shouldFinishBlock`. -/
def shouldFinishBlock (b : Builder) (key : Bytes) (v : ValueStruct) : Bool :=
  if b.entryOffsets.length ≤ 0 then false
  else
    let entriesOffsetsSize := u32 (b.entryOffsets.length * 4 + 4)
    let estimatedSize :=
      u32 (b.sz + 4 + u32 key.length + u32 v.encodedSize + entriesOffsetsSize)
    decide (estimatedSize > 64 * 1024) || decide (b.entryOffsets.length > 1000)

/-- `Add`. -/
def add (fp : Bytes → ℕ) (b : Builder) (x : KV) : Option Builder :=
  if b.shouldFinishBlock x.1 x.2 then
    match b.finishBlock with
    | none => none
    | some b =>
      addHelper fp { b with
        baseKey := [], currentBlock := none, sz := 0, entryOffsets := [] } x.1 x.2
  else addHelper fp b x.1 x.2

/-- `Add` of each pair. -/
def addAll (fp : Bytes → ℕ) : Builder → List KV → Option Builder
  | b, [] => some b
  | b, x :: l => (b.add fp x).bind fun b => addAll fp b l

end Builder

/-- `Add` of each pair to a new builder, and `FinishBlock`. -/
def build (fp : Bytes → ℕ) (l : List KV) : Option Builder :=
  (Builder.addAll fp {} l).bind Builder.finishBlock

/-! ## The bytes of a block -/

/-- The bytes of an entry whose key shares `ov` bytes with the base key. -/
def entryBytes (ov : ℕ) (e : KV) : Bytes :=
  encodeHeader ov (e.1.length - ov) ++ e.1.drop ov ++ e.2.encode

/-- The bytes of each entry of a block. -/
def cells : List KV → List Bytes
  | [] => []
  | e :: es => entryBytes 0 e :: es.map fun x => entryBytes (overlap x.1 e.1) x

/-- The entries of a block. -/
def body (es : List KV) : Bytes := (cells es).flatten

/-- Where the entries start. -/
def offsets (es : List KV) : List ℕ :=
  (List.range es.length).map fun i => ((cells es).take i).flatten.length

/-- The bytes of a block. -/
def content (es : List KV) : Bytes :=
  body es ++ (offsets es).flatMap (leBytes 4) ++ beBytes 4 es.length

/-- The base key of a block: its first key. -/
def baseOf : List KV → Bytes
  | [] => []
  | e :: _ => e.1

/-- Keys of eight bytes or more that leave room for the header in sixteen bits. -/
structure KeyFits (key : Bytes) : Prop where
  len_ge : 8 ≤ key.length
  len_le : key.length ≤ 65531

/-- The encoded size up to which no sum of sizes wraps round. -/
def maxValueSize : ℕ := 2 ^ 31 - 2 ^ 17

/-- A value with a 64-bit expiry time whose encoding is just below two gigabytes at most. -/
structure ValueFits (v : ValueStruct) : Prop where
  expiresAt_lt : v.expiresAt < 2 ^ 64
  size_le : v.encodedSize ≤ maxValueSize

/-- A pair that fits a block. -/
structure Fits (x : KV) : Prop where
  key : KeyFits x.1
  value : ValueFits x.2

/-- A pair with which the builder can deal: the lengths in the header are right.  An iterator cannot
show all of them. -/
structure Buildable (x : KV) : Prop where
  len_ge : 8 ≤ x.1.length
  len_le : x.1.length ≤ 65535
  value : ValueFits x.2

theorem Fits.buildable {x : KV} (h : Fits x) : Buildable x :=
  ⟨h.key.len_ge, h.key.len_le.trans (by omega), h.value⟩

/-- A block holds the pairs `es`. -/
structure Encodes (blk : Block) (es : List KV) : Prop where
  size : blk.userData.unCompressedSize = (content es).length
  content_isPrefix : content es <+: blk.data
  size_lt : (content es).length < 2 ^ 32

/-- What the builder sends for the pairs `ds`.  A key for which the header has no room is the first
of its block: behind another pair there is no room for it. -/
structure Sends (w : Block × Bytes) (ds : List KV) : Prop where
  encodes : Encodes w.1 ds
  base_eq : w.2 = baseOf ds
  ne_nil : ds ≠ []
  tail_le : ∀ x ∈ ds.tail, x.1.length ≤ 65531

theorem length_encodeHeader (ov diff : ℕ) : (encodeHeader ov diff).length = 4 := by
  rw [encodeHeader, length_append, length_leBytes, length_leBytes]

theorem overlap_le : ∀ a b : Bytes, overlap a b ≤ a.length ∧ overlap a b ≤ b.length
  | [], _ => ⟨zero_le _, zero_le _⟩
  | _ :: _, [] => ⟨zero_le _, zero_le _⟩
  | x :: a, y :: b => by
    have := overlap_le a b
    rw [overlap, length_cons, length_cons]
    split_ifs <;> omega

theorem take_overlap : ∀ a b : Bytes, a.take (overlap a b) = b.take (overlap a b)
  | [], _ => by simp [overlap]
  | _ :: _, [] => by simp [overlap]
  | x :: a, y :: b => by
    rw [overlap]
    split_ifs with h
    · rw [take_succ_cons, take_succ_cons, take_overlap a b, h]
    · rw [take_zero, take_zero]

theorem length_cells : ∀ es : List KV, (cells es).length = es.length
  | [] => rfl
  | _ :: es => by rw [cells, length_cons, length_map, length_cons]

/-! ## Writing into a block -/

/-- The block begins with the bytes `c`. -/
structure Written (blk : Block) (c : Bytes) : Prop where
  length_eq : blk.data.length = blk.blockLength
  isPrefix : c <+: blk.data

theorem Written.length_le {blk : Block} {c : Bytes} (h : Written blk c) :
    c.length ≤ blk.blockLength :=
  h.length_eq ▸ h.isPrefix.length_le

theorem written_newBlock : Written newBlock [] := by
  refine ⟨?_, nil_prefix⟩
  show (replicate 65536 (0 : UInt8)).length = 65536
  rw [length_replicate]

theorem Written.copyAt {blk : Block} {c data : Bytes} (h : Written blk c)
    (hfit : c.length + data.length ≤ blk.blockLength) :
    Written { blk with data := copyAt blk.data c.length data } (c ++ data) := by
  have hlen := h.length_eq
  have htake : blk.data.take c.length = c := (prefix_iff_eq_take.mp h.isPrefix).symm
  have hall : data.take (blk.data.length - c.length) = data := take_of_length_le (by omega)
  refine ⟨?_, ?_⟩
  · show (Sst.copyAt blk.data c.length data).length = blk.blockLength
    rw [Sst.copyAt, htake, hall, length_append, length_append, length_drop]
    omega
  · show c ++ data <+: Sst.copyAt blk.data c.length data
    rw [Sst.copyAt, htake, hall]
    exact prefix_append _ _

theorem Written.blockGrow {blk : Block} {c : Bytes} {n : ℕ} (h : Written blk c)
    (hn : blk.blockLength + n + 511 < 2 ^ 32) :
    Written (Sst.blockGrow blk n) c ∧ blk.blockLength + n ≤ (Sst.blockGrow blk n).blockLength ∧
      (Sst.blockGrow blk n).blockLength ≤ blk.blockLength + n + 511 := by
  have hu : u32 (blk.blockLength + n) = blk.blockLength + n := mod_eq_of_lt (by omega)
  have hb : (Sst.blockGrow blk n).blockLength = ceil (blk.blockLength + n) 512 := by
    rw [Sst.blockGrow, hu]
  obtain ⟨hge, hle⟩ := @ceil_bounds _ 512 (by decide) hn
  have hlen := h.length_eq
  have hdata : (Sst.blockGrow blk n).data =
      blk.data ++ replicate (ceil (blk.blockLength + n) 512 - blk.data.length) 0 := by
    rw [Sst.blockGrow, hu]
    show blk.data.take (ceil (blk.blockLength + n) 512) ++ _ = _
    rw [take_of_length_le (by omega)]
  refine ⟨⟨?_, ?_⟩, hb ▸ hge, hb ▸ hle⟩
  · rw [hdata, hb, length_append, length_replicate]
    omega
  · rw [hdata]
    exact h.isPrefix.trans (prefix_append _ _)

/-- The block `blk'` is `blk`, which begins with `c`, with `data` written behind `c`. -/
structure Appended (blk : Block) (c data : Bytes) (blk' : Block) : Prop where
  written : Written blk' (c ++ data)
  ge : blk.blockLength ≤ blk'.blockLength
  le : blk'.blockLength ≤ blk.blockLength + data.length + 511
  eq_of_fits : c.length + data.length ≤ blk.blockLength → blk'.blockLength = blk.blockLength

theorem Written.append {blk : Block} {c data : Bytes} (h : Written blk c)
    (hn : blk.blockLength + data.length + 511 < 2 ^ 32) :
    let room := ensureRoom blk c.length data.length
    c.length + data.length ≤ room.data.length ∧
      Appended blk c data { room with data := Sst.copyAt room.data c.length data } := by
  have hc := h.length_le
  have hu : u32 (c.length + data.length) = c.length + data.length := mod_eq_of_lt (by omega)
  intro room
  have hroom : Written room c ∧ c.length + data.length ≤ room.blockLength ∧
      blk.blockLength ≤ room.blockLength ∧ room.blockLength ≤ blk.blockLength + data.length + 511 ∧
      (c.length + data.length ≤ blk.blockLength → room.blockLength = blk.blockLength) := by
    by_cases hlt : blk.blockLength < c.length + data.length
    · have hroom : room = Sst.blockGrow blk data.length := if_pos (hu.symm ▸ hlt)
      obtain ⟨hw, hge, hle⟩ := h.blockGrow hn
      rw [hroom]
      exact ⟨hw, by omega, by omega, hle, fun hfits => by omega⟩
    · have hroom : room = blk := if_neg (hu.symm ▸ hlt)
      rw [hroom]
      exact ⟨h, by omega, le_rfl, by omega, fun _ => rfl⟩
  obtain ⟨hw, hfit, hge, hle, heq⟩ := hroom
  exact ⟨hw.length_eq ▸ hfit, hw.copyAt hfit, hge, hle, heq⟩

namespace Builder

variable {b : Builder} {c : Bytes}

/-- `append` writes its bytes behind the ones that are there and changes nothing else. -/
theorem append_spec {data : Bytes} (hw : Written (b.currentBlock.getD newBlock) c)
    (hsz : b.sz = c.length)
    (hn : (b.currentBlock.getD newBlock).blockLength + data.length + 511 < 2 ^ 32) :
    ∃ blk, b.append data = some { b with currentBlock := some blk, sz := (c ++ data).length } ∧
      Appended (b.currentBlock.getD newBlock) c data blk := by
  have hc := hw.length_le
  have hu : u32 data.length = data.length := mod_eq_of_lt (by omega)
  have hsum : u32 (c.length + data.length) = (c ++ data).length := by
    rw [length_append]
    exact mod_eq_of_lt (by omega)
  obtain ⟨hfit, happ⟩ := hw.append hn
  refine ⟨_, ?_, happ⟩
  rw [append, hsz, hu, if_pos (by omega), hsum]

theorem appendValue_spec {v : ValueStruct} {blk : Block} (hv : v.expiresAt < 2 ^ 64)
    (hb : b.currentBlock = some blk) (hw : Written blk c) (hsz : b.sz = c.length)
    (hn : blk.blockLength + v.encodedSize + 511 < 2 ^ 32) :
    ∃ blk', b.appendValue v =
        some { b with currentBlock := some blk', sz := (c ++ v.encode).length } ∧
      Appended blk c v.encode blk' := by
  have hc := hw.length_le
  have hlen : v.encode.length = v.encodedSize := ValueStruct.length_encode hv
  have hu : u32 v.encodedSize = v.encode.length := by
    rw [hlen]
    exact mod_eq_of_lt (by omega)
  have hsum : u32 (c.length + u32 v.encode.length) = (c ++ v.encode).length := by
    rw [length_append, hlen, show u32 v.encodedSize = v.encodedSize from hu.trans hlen]
    exact mod_eq_of_lt (by omega)
  obtain ⟨hfit, happ⟩ := hw.append (by rw [hlen]; exact hn)
  have hhead : c.length + (2 + (putUvarint v.expiresAt).length) ≤
      (ensureRoom blk c.length v.encode.length).data.length := by
    have : 2 + (putUvarint v.expiresAt).length ≤ v.encode.length := by
      rw [ValueStruct.encode, length_cons, length_cons, length_append]
      omega
    omega
  have htake : v.encode.take ((ensureRoom blk c.length v.encode.length).data.length - c.length) =
      v.encode := take_of_length_le (by omega)
  refine ⟨_, ?_, happ⟩
  rw [appendValue, hb]
  show (if b.sz + _ ≤ (ensureRoom blk b.sz (u32 v.encodedSize)).data.length then _ else _) = _
  rw [hsz, hu, if_pos hhead, htake, hsum]

/-- The three writes of `addHelper`.  If the header and the rest of the key fit, only the value can
make the block grow. -/
theorem appendEntry_spec {header diffKey : Bytes} {v : ValueStruct}
    (hw : Written (b.currentBlock.getD newBlock) c) (hsz : b.sz = c.length)
    (hv : v.expiresAt < 2 ^ 64)
    (hsum : (b.currentBlock.getD newBlock).blockLength + header.length + diffKey.length +
      v.encodedSize + 1533 < 2 ^ 32) :
    ∃ b₁ b₂ old blk, b.append header = some b₁ ∧ b₁.append diffKey = some b₂ ∧
      b₂.appendValue v = some { b with
        currentBlock := some blk
        sz := (c ++ header ++ diffKey ++ v.encode).length } ∧
      (b.currentBlock.getD newBlock).blockLength ≤ old.blockLength ∧
      old.blockLength ≤
        (b.currentBlock.getD newBlock).blockLength + header.length + diffKey.length + 1022 ∧
      (c.length + header.length + diffKey.length ≤ (b.currentBlock.getD newBlock).blockLength →
        old.blockLength = (b.currentBlock.getD newBlock).blockLength) ∧
      Appended old (c ++ header ++ diffKey) v.encode blk := by
  obtain ⟨blk₁, h₁, a₁⟩ := @append_spec b c header hw hsz (by omega)
  have ge₁ := a₁.ge
  have le₁ := a₁.le
  obtain ⟨blk₂, h₂, a₂⟩ := @append_spec { b with
      currentBlock := some blk₁
      sz := (c ++ header).length } _ diffKey a₁.written rfl
    (by show blk₁.blockLength + _ + 511 < 2 ^ 32; omega)
  have ge₂ : blk₁.blockLength ≤ blk₂.blockLength := a₂.ge
  have le₂ : blk₂.blockLength ≤ blk₁.blockLength + diffKey.length + 511 := a₂.le
  have heq (hfits : c.length + header.length + diffKey.length ≤
      (b.currentBlock.getD newBlock).blockLength) :
      blk₂.blockLength = (b.currentBlock.getD newBlock).blockLength := by
    have e₁ := a₁.eq_of_fits (by omega)
    refine (a₂.eq_of_fits ?_).trans e₁
    show _ ≤ blk₁.blockLength
    rw [length_append]
    omega
  obtain ⟨blk₃, h₃, a₃⟩ := @appendValue_spec { b with
      currentBlock := some blk₂
      sz := (c ++ header ++ diffKey).length } _ v blk₂ hv rfl a₂.written rfl (by omega)
  exact ⟨_, _, blk₂, blk₃, h₁, h₂, h₃, by omega, by omega, heq, a₃⟩

end Builder

/-! ## One more pair -/

/-- The bytes a key shares with the base key; nothing if it becomes the base key. -/
def overlapWith (base key : Bytes) : ℕ := if base.length = 0 then 0 else overlap key base

theorem overlapWith_le (base key : Bytes) : overlapWith base key ≤ key.length := by
  rw [overlapWith]
  split_ifs
  · exact zero_le _
  · exact (overlap_le key base).1

section

variable {es : List KV} (h : ∀ x ∈ es, Buildable x)
include h

theorem baseOf_length (hne : es ≠ []) : (baseOf es).length ≠ 0 := by
  cases es with
  | nil => exact absurd rfl hne
  | cons e es =>
    have := (h e (.head _)).len_ge
    show e.1.length ≠ 0
    omega

theorem cells_concat (x : KV) :
    cells (es ++ [x]) = cells es ++ [entryBytes (overlapWith (baseOf es) x.1) x] := by
  cases es with
  | nil => rfl
  | cons e es =>
    have hbase : e.1.length ≠ 0 := baseOf_length h (cons_ne_nil e es)
    rw [overlapWith, baseOf, if_neg hbase, cons_append, cells, cells, map_append,
      map_singleton, cons_append]

theorem body_concat (x : KV) :
    body (es ++ [x]) = body es ++ entryBytes (overlapWith (baseOf es) x.1) x := by
  rw [body, cells_concat h, flatten_append, flatten_singleton, body]

theorem offsets_concat (x : KV) : offsets (es ++ [x]) = offsets es ++ [(body es).length] := by
  have hlen := length_cells es
  rw [offsets, offsets, length_append, length_singleton, range_succ, map_append,
    map_singleton, cells_concat h]
  congr 1
  · apply map_congr_left
    intro i hi
    have := mem_range.mp hi
    rw [take_append_of_le_length (by omega)]
  · rw [take_append_of_le_length (by omega), take_of_length_le (by omega), body]

end

/-- The builder has the pairs `es` in its current block. -/
structure Filling (b : Builder) (es : List KV) : Prop where
  fits : ∀ x ∈ es, Buildable x
  base : b.baseKey = baseOf es
  offs : b.entryOffsets = offsets es
  sz_eq : b.sz = (body es).length
  fresh : es = [] → b.currentBlock = none
  written : Written (b.currentBlock.getD newBlock) (body es)
  len_ge : 65536 ≤ (b.currentBlock.getD newBlock).blockLength
  len_le : (b.currentBlock.getD newBlock).blockLength ≤ 133120 + maxValueSize
  count : es.length ≤ 1001
  tail_le : ∀ x ∈ es.tail, x.1.length ≤ 65531

theorem filling_nil {b : Builder} (hblock : b.currentBlock = none) (hsz : b.sz = 0)
    (hbase : b.baseKey = []) (hoffs : b.entryOffsets = []) : Filling b [] := by
  have hnew : b.currentBlock.getD newBlock = newBlock := by rw [hblock]; rfl
  refine ⟨fun _ hx => absurd hx not_mem_nil, hbase, hoffs, hsz, fun _ => hblock, ?_, ?_, ?_,
    zero_le _, fun _ hx => absurd hx not_mem_nil⟩
  · rw [hnew]
    exact written_newBlock
  · rw [hnew]
    exact le_rfl
  · rw [hnew]
    show 65536 ≤ 133120 + maxValueSize
    omega

namespace Builder

variable {b : Builder} {es : List KV} {x : KV} {fp : Bytes → ℕ}

/-- `addHelper` on a block that is empty or has room. -/
theorem addHelper_spec (h : Filling b es) (hx : Buildable x)
    (hroom : es = [] ∨ (body es).length + 4 + x.1.length + x.2.encodedSize ≤ 65536)
    (hcount : es.length ≤ 1000) :
    ∃ b', b.addHelper fp x.1 x.2 = some b' ∧ Filling b' (es ++ [x]) ∧ b'.sent = b.sent ∧
      b'.keyHashes = b.keyHashes ++ [fp (Raw.parseKey x.1)] := by
  have hM : maxValueSize = 2 ^ 31 - 2 ^ 17 := rfl
  have hk := hx.len_le
  have hv := hx.value.size_le
  have hge := h.len_ge
  have hle := h.len_le
  have hwl := h.written.length_le
  have hov := overlapWith_le (baseOf es) x.1
  generalize hovdef : overlapWith (baseOf es) x.1 = ov at hov
  have hdiff : (if b.baseKey.length = 0 then x.1 else keyDiff b.baseKey x.1) = x.1.drop ov := by
    rw [h.base, ← hovdef, overlapWith]
    split_ifs
    · rw [drop_zero]
    · rfl
  have hdl : (x.1.drop ov).length = x.1.length - ov := length_drop
  have hheader : encodeHeader (u16 (x.1.length - (x.1.drop ov).length)) (u16 (x.1.drop ov).length) =
      encodeHeader ov (x.1.length - ov) := by
    rw [hdl, u16, u16, mod_eq_of_lt (by omega), mod_eq_of_lt (by omega)]
    congr 1
    omega
  have h4 := length_encodeHeader ov (x.1.length - ov)
  let b₀ : Builder := { b with
    keyHashes := b.keyHashes ++ [fp (Raw.parseKey x.1)]
    baseKey := if b.baseKey.length = 0 then x.1 else b.baseKey
    entryOffsets := b.entryOffsets ++ [b.sz] }
  obtain ⟨b₁, b₂, old, blk, h₁, h₂, h₃, hge', hle', heq', happ⟩ := @appendEntry_spec b₀ (body es)
    (encodeHeader ov (x.1.length - ov)) (x.1.drop ov) x.2 h.written h.sz_eq hx.value.expiresAt_lt
    (by show (b.currentBlock.getD newBlock).blockLength + _ + _ + _ + 1533 < _; omega)
  have hge' : (b.currentBlock.getD newBlock).blockLength ≤ old.blockLength := hge'
  have hle' : old.blockLength ≤ (b.currentBlock.getD newBlock).blockLength + _ + _ + 1022 := hle'
  have hbody : body es ++ encodeHeader ov (x.1.length - ov) ++ x.1.drop ov ++ x.2.encode =
      body (es ++ [x]) := by
    rw [body_concat h.fits, entryBytes, hovdef, append_assoc, append_assoc, append_assoc]
  have hadd : b.addHelper fp x.1 x.2 = some { b₀ with
      currentBlock := some blk
      sz := (body es ++ encodeHeader ov (x.1.length - ov) ++ x.1.drop ov ++ x.2.encode).length
      estimatedSize :=
        (b.estimatedSize + u32 (4 + u32 (x.1.drop ov).length + u32 x.2.encodedSize)) %
          2 ^ 64 } := by
    rw [addHelper, hdiff, hheader]
    show (if b.sz < 2 ^ 32 - 1 then (b₀.append _).bind _ else none) = _
    rw [if_pos (by have := h.sz_eq; omega), h₁]
    show (b₁.append _).bind _ = _
    rw [h₂]
    show (b₂.appendValue _).bind _ = _
    rw [h₃]
    rfl
  rw [hbody] at hadd
  refine ⟨_, hadd, ⟨?_, ?_, ?_, rfl, ?_, hbody ▸ happ.written, ?_, ?_, ?_, ?_⟩, rfl, rfl⟩
  · exact forall_mem_concat h.fits hx
  · show (if b.baseKey.length = 0 then x.1 else b.baseKey) = _
    rw [h.base]
    cases es with
    | nil => rfl
    | cons e es => exact if_neg (baseOf_length h.fits (cons_ne_nil e es))
  · show b.entryOffsets ++ [b.sz] = _
    rw [offsets_concat h.fits, h.offs, h.sz_eq]
  · exact fun hnil => absurd hnil (by simp)
  · show 65536 ≤ blk.blockLength
    have := happ.ge
    omega
  · show blk.blockLength ≤ 133120 + maxValueSize
    have henc := ValueStruct.length_encode hx.value.expiresAt_lt
    rcases hroom with rfl | hroom
    · have hbl : (b.currentBlock.getD newBlock).blockLength = 65536 := by
        rw [h.fresh rfl]
        rfl
      have := happ.le
      omega
    · -- There is room in the block, so it does not grow.
      have hold : old.blockLength = (b.currentBlock.getD newBlock).blockLength := heq' (by
        show _ ≤ (b.currentBlock.getD newBlock).blockLength
        omega)
      rw [happ.eq_of_fits ?_]
      · omega
      · rw [length_append, length_append]
        omega
  · rw [length_append, length_singleton]
    omega
  · cases es with
    | nil => exact fun _ hy => absurd hy not_mem_nil
    | cons e es =>
      have hroom := hroom.resolve_left (cons_ne_nil e es)
      have hcell : 4 ≤ (body (e :: es)).length := by
        rw [body, cells, flatten_cons, length_append, entryBytes, length_append, length_append,
          length_encodeHeader]
        omega
      exact forall_mem_concat h.tail_le (by omega)

theorem length_flatMap_leBytes : ∀ l : List ℕ, (l.flatMap (leBytes 4)).length = 4 * l.length
  | [] => rfl
  | a :: l => by
    rw [flatMap_cons, length_append, length_leBytes, length_flatMap_leBytes l, length_cons]
    omega

/-- `FinishBlock` sends a block that holds the pairs. -/
theorem finishBlock_spec (h : Filling b es) (hne : es ≠ []) :
    ∃ b' w, b.finishBlock = some b' ∧ Sends w es ∧ b'.sent = b.sent ++ [w] ∧
      b'.keyHashes = b.keyHashes := by
  have hM : maxValueSize = 2 ^ 31 - 2 ^ 17 := rfl
  have hle := h.len_le
  have hcount := h.count
  have hn : b.entryOffsets.length = es.length := by
    rw [h.offs, offsets, length_map, length_range]
  have hoffs : (b.entryOffsets.flatMap (leBytes 4)).length = 4 * es.length := by
    rw [length_flatMap_leBytes, hn]
  have hfour : (beBytes 4 (u32 b.entryOffsets.length)).length = 4 := length_beBytes 4 _
  obtain ⟨blk₁, h₁, a₁⟩ := @append_spec b (body es) (b.entryOffsets.flatMap (leBytes 4)) h.written
    h.sz_eq (by omega)
  have l₁ := a₁.le
  obtain ⟨blk₂, h₂, a₂⟩ := @append_spec { b with
      currentBlock := some blk₁, sz := (body es ++ b.entryOffsets.flatMap (leBytes 4)).length } _
    (beBytes 4 (u32 b.entryOffsets.length)) a₁.written rfl
    (by show blk₁.blockLength + _ + 511 < 2 ^ 32; omega)
  have l₂ : blk₂.blockLength ≤ blk₁.blockLength + _ + 511 := a₂.le
  have hu : u32 b.entryOffsets.length = es.length := by
    rw [hn]
    exact mod_eq_of_lt (by omega)
  have hcontent : body es ++ b.entryOffsets.flatMap (leBytes 4) ++
      beBytes 4 (u32 b.entryOffsets.length) = content es := by
    rw [content, hu, h.offs]
  have hw := a₂.written
  rw [hcontent] at hw
  have hlt := hw.length_le
  let blk : Block := { blk₂ with userData := { unCompressedSize := (content es).length } }
  have hfinish : b.finishBlock = some { b with
      currentBlock := some blk, sz := (content es).length,
      sent := b.sent ++ [(blk, b.baseKey)] } := by
    rw [finishBlock, h₁]
    show (append _ (beBytes 4 (u32 b.entryOffsets.length))).bind _ = _
    rw [h₂, hcontent]
    rfl
  exact ⟨_, _, hfinish, ⟨⟨rfl, hw.isPrefix, by omega⟩, h.base, hne, h.tail_le⟩, rfl, rfl⟩

/-- Whether the block is finished before a pair: if not, there is room for the pair. -/
theorem room_of_not_shouldFinishBlock (h : Filling b es) (hx : Buildable x)
    (hnot : b.shouldFinishBlock x.1 x.2 = false) :
    (es = [] ∨ (body es).length + 4 + x.1.length + x.2.encodedSize ≤ 65536) ∧ es.length ≤ 1000 := by
  have hM : maxValueSize = 2 ^ 31 - 2 ^ 17 := rfl
  have hk := hx.len_le
  have hv := hx.value.size_le
  have hle := h.len_le
  have hwl := h.written.length_le
  have hcount := h.count
  have hn : b.entryOffsets.length = es.length := by
    rw [h.offs, offsets, length_map, length_range]
  cases es with
  | nil => exact ⟨.inl rfl, zero_le _⟩
  | cons e es =>
    have hpos : ¬ b.entryOffsets.length ≤ 0 := by
      rw [hn, length_cons]
      omega
    rw [shouldFinishBlock, if_neg hpos] at hnot
    obtain ⟨hest, hlen⟩ := Bool.or_eq_false_iff.mp hnot
    have hest := of_decide_eq_false hest
    have hlen := of_decide_eq_false hlen
    rw [u32, u32, u32, u32, hn, h.sz_eq, mod_eq_of_lt (by omega : x.1.length < 2 ^ 32),
      mod_eq_of_lt (by omega : x.2.encodedSize < 2 ^ 32),
      mod_eq_of_lt (by omega : (e :: es).length * 4 + 4 < 2 ^ 32),
      mod_eq_of_lt (by omega)] at hest
    exact ⟨.inr (by omega), by omega⟩

/-- The blocks `done` have been sent, and the pairs `es` are in the current block. -/
structure Building (fp : Bytes → ℕ) (b : Builder) (done : List (List KV))
    (es : List KV) : Prop where
  filling : Filling b es
  sent : List.Forall₂ Sends b.sent done
  hashes : b.keyHashes = (done.flatten ++ es).map fun y => fp (Raw.parseKey y.1)

theorem Building.addHelper {done : List (List KV)} (h : Building fp b done es) (hx : Buildable x)
    (hroom : es = [] ∨ (body es).length + 4 + x.1.length + x.2.encodedSize ≤ 65536)
    (hcount : es.length ≤ 1000) :
    ∃ b', b.addHelper fp x.1 x.2 = some b' ∧ Building fp b' done (es ++ [x]) := by
  obtain ⟨b', hadd, hfill, hsent, hhash⟩ := @addHelper_spec b es x fp h.filling hx hroom hcount
  refine ⟨b', hadd, hfill, hsent ▸ h.sent, ?_⟩
  rw [hhash, h.hashes, ← append_assoc, @List.map_append _ _ _ (done.flatten ++ es) [x],
    map_singleton]

/-- A pair goes to the current block or, after that one is sent, to a new one. -/
theorem Building.add {done : List (List KV)} (h : Building fp b done es) (hx : Buildable x) :
    ∃ b' done' es', b.add fp x = some b' ∧ Building fp b' done' es' ∧ es' ≠ [] ∧
      done'.flatten ++ es' = done.flatten ++ es ++ [x] := by
  rw [Builder.add]
  cases hfin : b.shouldFinishBlock x.1 x.2 with
  | false =>
    obtain ⟨hroom, hcount⟩ := room_of_not_shouldFinishBlock h.filling hx hfin
    obtain ⟨b', hadd, h'⟩ := h.addHelper hx hroom hcount
    exact ⟨b', done, es ++ [x], hadd, h', by simp, (append_assoc ..).symm⟩
  | true =>
    have hne : es ≠ [] := by
      rintro rfl
      have : b.entryOffsets.length ≤ 0 := by
        rw [h.filling.offs]
        exact le_rfl
      rw [shouldFinishBlock, if_pos this] at hfin
      exact Bool.false_ne_true hfin
    obtain ⟨b₁, w, hfinish, hw, hsent, hhash⟩ := finishBlock_spec h.filling hne
    let b₂ : Builder := { b₁ with baseKey := [], currentBlock := none, sz := 0, entryOffsets := [] }
    have h₂ : Building fp b₂ (done ++ [es]) [] := by
      refine ⟨filling_nil rfl rfl rfl rfl, ?_, ?_⟩
      · show List.Forall₂ _ b₁.sent _
        rw [hsent]
        exact rel_append h.sent (List.Forall₂.cons hw List.Forall₂.nil)
      · show b₁.keyHashes = _
        rw [hhash, h.hashes, flatten_append, flatten_singleton, append_nil]
    obtain ⟨b', hadd, h'⟩ := h₂.addHelper hx (.inl rfl) (zero_le _)
    refine ⟨b', done ++ [es], [x], ?_, h', cons_ne_nil _ _, ?_⟩
    · rw [if_pos rfl, hfinish]
      exact hadd
    · rw [flatten_append, flatten_singleton]

theorem Building.addAll : ∀ {l : List KV} {b : Builder} {done : List (List KV)} {es : List KV},
    Building fp b done es → (∀ x ∈ l, Buildable x) →
    ∃ b' done' es', b.addAll fp l = some b' ∧ Building fp b' done' es' ∧
      done'.flatten ++ es' = done.flatten ++ es ++ l ∧ (es ≠ [] ∨ l ≠ [] → es' ≠ [])
  | [], b, done, es, h, _ =>
    ⟨b, done, es, rfl, h, (append_nil _).symm, fun hne => hne.resolve_right fun hl => hl rfl⟩
  | x :: l, b, _, _, h, hl => by
    obtain ⟨b₁, done₁, es₁, hadd, h₁, hne₁, heq₁⟩ := h.add (hl x (.head _))
    obtain ⟨b', done', es', hall, h', heq, hne⟩ :=
      Building.addAll h₁ fun y hy => hl y (.tail _ hy)
    refine ⟨b', done', es', ?_, h', ?_, fun _ => hne (.inl hne₁)⟩
    · rw [Builder.addAll, hadd]
      exact hall
    · rw [heq, heq₁, append_assoc, singleton_append]

end Builder

/-- The builder cuts the pairs into blocks and sends these. -/
theorem build_spec {fp : Bytes → ℕ} {l : List KV} (hl : ∀ x ∈ l, Buildable x) (hne : l ≠ []) :
    ∃ b blocks, build fp l = some b ∧ blocks.flatten = l ∧
      List.Forall₂ Sends b.sent blocks ∧
      b.keyHashes = l.map fun y => fp (Raw.parseKey y.1) := by
  have h₀ : Builder.Building fp {} [] [] :=
    ⟨filling_nil rfl rfl rfl rfl, List.Forall₂.nil, rfl⟩
  obtain ⟨b₁, done, es, hall, h₁, heq, hes⟩ := h₀.addAll hl
  obtain ⟨b, w, hfinish, hw, hsent, hhash⟩ := Builder.finishBlock_spec h₁.filling (hes (.inr hne))
  have heq : done.flatten ++ es = l := heq
  refine ⟨b, done ++ [es], ?_, ?_, ?_, ?_⟩
  · rw [build, hall]
    exact hfinish
  · rw [flatten_append, flatten_singleton, heq]
  · rw [hsent]
    exact rel_append h₁.sent (List.Forall₂.cons hw List.Forall₂.nil)
  · rw [hhash, h₁.hashes, heq]

end Sst
end Autumn
