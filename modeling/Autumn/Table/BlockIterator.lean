import Autumn.Table.Builder
import Autumn.Lib.BinarySearch

/-!
# The iterator over a block

`blockIterator`.  The key at an index is the start of the base key followed by the rest that the
entry holds.  The iterator keeps the key it had and replaces only what the overlap of the new entry
asks for; `prevOverlap` is the number of bytes at the front of `key` that are known to be those of
the base key.  The binary search moves through the entries in no order, so what makes this right is
an invariant (`Over.take_eq`).  Slices out of bounds are `none`; that they do not occur is part of
each statement.

* `setBlock_spec`, `setIdx_spec`, `setIdx_of_out`, `seek_spec`: on a block that holds the pairs `es`
  the entry at an index is the pair at that index, and `seek` finds the first key not below the
  target.
-/

namespace Autumn

open Lib Y List Option Nat InternalKey

namespace Sst

/-! ## The source -/

/-- `header.Decode`: overlap and diff. -/
def decodeHeader (buf : Bytes) : Option (ℕ × ℕ) :=
  if 4 ≤ buf.length then some (leVal (buf.take 2), leVal ((buf.drop 2).take 2)) else none

/-- `BytesToU32Slice`. -/
def bytesToU32Slice : Bytes → List ℕ
  | a :: b :: c :: d :: rest => leVal [a, b, c, d] :: bytesToU32Slice rest
  | _ => []

/-- `blockIterator`; `eof` is an `err` that is not `nil`. -/
structure BlockIterator where
  data : Bytes := []
  idx : ℤ := 0
  eof : Bool := false
  baseKey : Bytes := []
  key : Bytes := []
  val : Bytes := []
  entryOffsets : List ℕ := []
  prevOverlap : ℕ := 0

/-- Where a seek starts. -/
inductive Whence where
  | origin
  | current
  deriving DecidableEq

namespace BlockIterator

/-- Where the offsets start in a block of `sz` bytes. -/
def entriesIndexStart (sz numEntries : ℕ) : ℕ := sub32 (sub32 sz 4) (u32 (numEntries * 4))

/-- `setBlock`, which sets every field. -/
def setBlock (b : Block) : Option BlockIterator := do
  let count ← slice b.data (sub32 b.userData.unCompressedSize 4) b.userData.unCompressedSize
  let offs ← slice b.data (entriesIndexStart b.userData.unCompressedSize (beVal count))
    (sub32 b.userData.unCompressedSize 4)
  let data ← slice b.data 0 (entriesIndexStart b.userData.unCompressedSize (beVal count))
  some { data := data, entryOffsets := bytesToU32Slice offs }

/-- The base key, read from the first entry unless it is there. -/
def loadBase (itr : BlockIterator) : Option Bytes :=
  if itr.baseKey.length = 0 then do
    let h ← decodeHeader itr.data
    slice itr.data 4 (u16 (4 + h.2))
  else some itr.baseKey

/-- `key` after the part of the base key that is not yet in it has been copied. -/
def extendKey (itr : BlockIterator) (baseKey : Bytes) (overlap : ℕ) : Option Bytes :=
  if overlap > itr.prevOverlap then do
    let kept ← slice itr.key 0 itr.prevOverlap
    let more ← slice baseKey itr.prevOverlap overlap
    some (kept ++ more)
  else some itr.key

/-- The key of an entry with its overlap and the rest of its key. -/
def makeKey (itr : BlockIterator) (baseKey : Bytes) (overlap : ℕ) (diffKey : Bytes) :
    Option Bytes := do
  let key ← itr.extendKey baseKey overlap
  let front ← slice key 0 overlap
  some (front ++ diffKey)

/-- The end of an entry: where the next one starts, or the end of the entries. -/
def endOffset (itr : BlockIterator) (i : ℤ) : Option ℕ :=
  if i + 1 = itr.entryOffsets.length then some itr.data.length else itr.entryOffsets[i.toNat + 1]?

/-- `setIdx`. -/
def setIdx (itr : BlockIterator) (i : ℤ) : Option BlockIterator :=
  if i ≥ itr.entryOffsets.length ∨ i < 0 then some { itr with idx := i, eof := true }
  else do
    let startOffset ← itr.entryOffsets[i.toNat]?
    let baseKey ← itr.loadBase
    let endOffset ← itr.endOffset i
    let entryData ← slice itr.data startOffset endOffset
    let h ← decodeHeader entryData
    let diffKey ← slice entryData 4 (u16 (4 + h.2))
    let key ← itr.makeKey baseKey h.1 diffKey
    let val ← slice entryData (u16 (4 + h.2)) entryData.length
    some { itr with
      idx := i, eof := false, baseKey := baseKey, key := key, val := val, prevOverlap := h.1 }

/-- The test of the binary search in `seek`, which moves the iterator. -/
def seekTest (key : Bytes) (startIndex : ℤ) (idx : ℕ) (itr : BlockIterator) :
    Option (Bool × BlockIterator) :=
  if (idx : ℤ) < startIndex then some (false, itr)
  else (itr.setIdx idx).map fun itr => (decide (Raw.compareKeys itr.key key ≠ .lt), itr)

/-- `seek`. -/
def seek (itr : BlockIterator) (key : Bytes) (whence : Whence) : Option BlockIterator := do
  let r ← search (seekTest key (if whence = .current then itr.idx else 0))
    itr.entryOffsets.length itr
  r.2.setIdx r.1

/-- `seekToFirst`. -/
def seekToFirst (itr : BlockIterator) : Option BlockIterator := itr.setIdx 0

/-- `seekToLast`. -/
def seekToLast (itr : BlockIterator) : Option BlockIterator :=
  itr.setIdx ((itr.entryOffsets.length : ℤ) - 1)

/-- `next`. -/
def next (itr : BlockIterator) : Option BlockIterator := itr.setIdx (itr.idx + 1)

/-- `prev`. -/
def prev (itr : BlockIterator) : Option BlockIterator := itr.setIdx (itr.idx - 1)

end BlockIterator

/-! ## Slices of what was written -/

variable {i : ℕ}

theorem slice_eq_of_le {a b : Bytes} (h : a <+: b) {j : ℕ} (hj : j ≤ a.length) :
    slice b i j = slice a i j := by
  obtain ⟨c, rfl⟩ := h
  have hlen : j ≤ (a ++ c).length := by
    rw [length_append]
    omega
  rw [slice, slice, take_append_of_le_length hj]
  exact if_congr (by tauto) rfl rfl

variable {ov : ℕ}

theorem decodeHeader_encodeHeader {diff : ℕ} (hov : ov < 2 ^ 16) (hdiff : diff < 2 ^ 16)
    (rest : Bytes) : decodeHeader (encodeHeader ov diff ++ rest) = some (ov, diff) := by
  have h2 : (leBytes 2 ov).length = 2 := length_leBytes 2 ov
  have h2' : (leBytes 2 diff).length = 2 := length_leBytes 2 diff
  have hlen : 4 ≤ (encodeHeader ov diff ++ rest).length := by
    rw [length_append, length_encodeHeader]
    omega
  have htake : (encodeHeader ov diff ++ rest).take 2 = leBytes 2 ov := by
    rw [encodeHeader, append_assoc, take_append_of_le_length (by omega),
      take_of_length_le (by omega)]
  have hdrop : (encodeHeader ov diff ++ rest).drop 2 = leBytes 2 diff ++ rest := by
    rw [encodeHeader, append_assoc, drop_append_of_le_length (by omega),
      drop_of_length_le (by omega), nil_append]
  rw [decodeHeader, if_pos hlen, htake, hdrop, take_append_of_le_length (by omega),
    take_of_length_le (by omega), leVal_leBytes_of_lt (by omega), leVal_leBytes_of_lt (by omega)]

theorem bytesToU32Slice_flatMap : ∀ l : List ℕ, (∀ x ∈ l, x < 2 ^ 32) →
    bytesToU32Slice (l.flatMap (leBytes 4)) = l
  | [], _ => rfl
  | x :: l, h => by
    have hx : leVal (leBytes 4 x) = x := leVal_leBytes_of_lt (by have := h x (.head _); omega)
    rw [flatMap_cons]
    show leVal (leBytes 4 x) :: bytesToU32Slice (l.flatMap (leBytes 4)) = _
    rw [hx, bytesToU32Slice_flatMap l fun y hy => h y (.tail _ hy)]

/-! ## The entries of a block -/

variable {es : List KV} {e : KV}

/-- The cell of a pair: its overlap with the base key is one. -/
theorem exists_cell (he : es[i]? = some e) :
    ∃ ov, (cells es)[i]? = some (entryBytes ov e) ∧ ov ≤ e.1.length ∧ ov ≤ (baseOf es).length ∧
      e.1.take ov = (baseOf es).take ov := by
  cases es with
  | nil => simp at he
  | cons b es =>
    cases i with
    | zero =>
      obtain rfl : b = e := by simpa using he
      exact ⟨0, rfl, zero_le _, zero_le _, rfl⟩
    | succ i =>
      have he' : es[i]? = some e := by simpa using he
      refine ⟨overlap e.1 b.1, ?_, (overlap_le e.1 b.1).1, (overlap_le e.1 b.1).2,
        take_overlap e.1 b.1⟩
      rw [cells, getElem?_cons_succ, getElem?_map, he']
      rfl

theorem slice_flatten {cs : List Bytes} {c : Bytes} (h : cs[i]? = some c) :
    slice cs.flatten (cs.take i).flatten.length ((cs.take i).flatten.length + c.length) =
    some c := by
  obtain ⟨hi, rfl⟩ := List.getElem?_eq_some_iff.mp h
  have hsplit : cs.flatten = (cs.take i).flatten ++ cs[i] ++ (cs.drop (i + 1)).flatten := by
    conv_lhs => rw [← take_append_drop i cs, drop_eq_getElem_cons hi]
    rw [flatten_append, flatten_cons, append_assoc]
  conv_lhs => rw [hsplit]
  exact slice_append _ _ _

theorem length_take_succ_flatten {cs : List Bytes} {c : Bytes} (h : cs[i]? = some c) :
    (cs.take (i + 1)).flatten.length = (cs.take i).flatten.length + c.length := by
  rw [take_add_one, h, flatten_append, length_append]
  simp

theorem getElem?_offsets (hi : i < es.length) :
    (offsets es)[i]? = some ((cells es).take i).flatten.length := by
  rw [offsets, getElem?_map, getElem?_range hi]
  rfl

theorem length_offsets (es : List KV) : (offsets es).length = es.length := by
  rw [offsets, length_map, length_range]

theorem body_eq_base (hne : es ≠ []) :
    ∃ rest, body es = encodeHeader 0 (baseOf es).length ++ (baseOf es ++ rest) := by
  cases es with
  | nil => exact absurd rfl hne
  | cons e es =>
    refine ⟨e.2.encode ++ (es.map fun x => entryBytes (overlap x.1 e.1) x).flatten, ?_⟩
    rw [body, cells, flatten_cons, entryBytes, Nat.sub_zero, drop_zero]
    simp only [append_assoc, baseOf]

/-! ## The iterator on a block -/

/-- The iterator is over the block of the pairs `es`. -/
structure Over (itr : BlockIterator) (es : List KV) : Prop where
  data_eq : itr.data = body es
  offsets_eq : itr.entryOffsets = offsets es
  base : itr.baseKey = [] ∨ itr.baseKey = baseOf es
  overlap_le : itr.prevOverlap ≤ itr.key.length
  overlap_le_base : itr.prevOverlap ≤ (baseOf es).length
  /-- The front of the key is that of the base key. -/
  take_eq : itr.key.take itr.prevOverlap = (baseOf es).take itr.prevOverlap
  /-- The key is that of some pair once the iterator has moved. -/
  key_mem : itr.key = [] ∨ ∃ e ∈ es, itr.key = e.1

/-- The iterator is at the pair with index `i`. -/
structure AtEntry (itr : BlockIterator) (es : List KV) (i : ℕ) (e : KV) : Prop where
  of_block : Over itr es
  idx_eq : itr.idx = i
  not_eof : itr.eof = false
  get : es[i]? = some e
  key_eq : itr.key = e.1
  val_eq : itr.val = e.2.encode

theorem slice_self (b : Bytes) {j : ℕ} (h : j ≤ b.length) : slice b 0 j = some (b.take j) := by
  rw [slice, if_pos ⟨zero_le _, h⟩, drop_zero]

theorem length_offset_le {x : ℕ} (hx : x ∈ offsets es) : x ≤ (body es).length := by
  obtain ⟨i, _, rfl⟩ := mem_map.mp hx
  have hsplit := congrArg flatten (take_append_drop i (cells es))
  rw [flatten_append] at hsplit
  rw [body, ← hsplit, length_append]
  exact Nat.le_add_right ..

namespace BlockIterator

variable {itr : BlockIterator}

/-- A block that holds the pairs is taken apart into its entries and offsets. -/
theorem setBlock_spec {blk : Block} (h : Encodes blk es) :
    ∃ itr, setBlock blk = some itr ∧ Over itr es := by
  have hlt := h.size_lt
  have hoffs : ((offsets es).flatMap (leBytes 4)).length = 4 * es.length := by
    rw [Builder.length_flatMap_leBytes, length_offsets]
  have hcount : (beBytes 4 es.length).length = 4 := length_beBytes 4 _
  have hlen : (content es).length = (body es).length + 4 * es.length + 4 := by
    rw [content, length_append, length_append, hoffs, hcount]
  have hval : beVal (beBytes 4 es.length) = es.length := beVal_beBytes_of_lt (by omega)
  have h4 : sub32 (content es).length 4 = (body es).length + 4 * es.length := by
    rw [sub32]
    omega
  have hstart : entriesIndexStart (content es).length es.length = (body es).length := by
    rw [entriesIndexStart, h4, sub32, u32]
    omega
  -- The three parts of the content.
  have hs₁ : slice blk.data ((body es).length + 4 * es.length) (content es).length =
      some (beBytes 4 es.length) := by
    rw [slice_eq_of_le h.content_isPrefix le_rfl]
    have := slice_append (body es ++ (offsets es).flatMap (leBytes 4)) (beBytes 4 es.length) []
    rw [append_nil, length_append, hoffs, hcount] at this
    rw [hlen]
    exact this
  have hs₂ : slice blk.data (body es).length ((body es).length + 4 * es.length) =
      some ((offsets es).flatMap (leBytes 4)) := by
    rw [slice_eq_of_le h.content_isPrefix (by omega)]
    have := slice_append (body es) ((offsets es).flatMap (leBytes 4)) (beBytes 4 es.length)
    rwa [hoffs] at this
  have hs₃ : slice blk.data 0 (body es).length = some (body es) := by
    rw [slice_eq_of_le h.content_isPrefix (by omega), content, append_assoc]
    have := slice_append [] (body es) ((offsets es).flatMap (leBytes 4) ++ beBytes 4 es.length)
    rwa [nil_append, length_nil, zero_add] at this
  have hu32 : bytesToU32Slice ((offsets es).flatMap (leBytes 4)) = offsets es :=
    bytesToU32Slice_flatMap _ fun x hx => by
      have := length_offset_le hx
      omega
  refine ⟨{ data := body es, entryOffsets := offsets es }, ?_, rfl, rfl, .inl rfl, zero_le _,
    zero_le _, rfl, .inl rfl⟩
  rw [setBlock, h.size, h4, hs₁, bind_eq_bind, bind_some, hval, hstart, hs₂,
    bind_some, hs₃, bind_some, hu32]

theorem loadBase_eq (h : Over itr es) (hfits : ∀ x ∈ es, Fits x) (hne : es ≠ []) :
    itr.loadBase = some (baseOf es) := by
  have hlen : (baseOf es).length ≤ 65531 := by
    cases es with
    | nil => exact absurd rfl hne
    | cons e es => exact (hfits e (.head _)).key.len_le
  rw [loadBase]
  rcases h.base with hb | hb
  · obtain ⟨rest, hbody⟩ := body_eq_base hne
    have hu : u16 (4 + (baseOf es).length) = 4 + (baseOf es).length := mod_eq_of_lt (by omega)
    have hslice := slice_append (encodeHeader 0 (baseOf es).length) (baseOf es) rest
    rw [length_encodeHeader, append_assoc] at hslice
    rw [hb, if_pos length_nil, h.data_eq, hbody,
      decodeHeader_encodeHeader (by omega) (by omega), bind_eq_bind, bind_some, hu, hslice]
  · rw [hb, if_neg (baseOf_length (fun x hx => (hfits x hx).buildable) hne)]

/-- The front of the base key, whichever part of it the iterator has. -/
theorem makeKey_eq (h : Over itr es) (hov : ov ≤ (baseOf es).length) (diffKey : Bytes) :
    itr.makeKey (baseOf es) ov diffKey = some ((baseOf es).take ov ++ diffKey) := by
  have hprev := h.overlap_le
  have hext : ∃ key, itr.extendKey (baseOf es) ov = some key ∧ ov ≤ key.length ∧
      key.take ov = (baseOf es).take ov := by
    rw [extendKey]
    by_cases hgt : ov > itr.prevOverlap
    · have hmore : slice (baseOf es) itr.prevOverlap ov =
          some (((baseOf es).take ov).drop itr.prevOverlap) := if_pos ⟨hgt.le, hov⟩
      have hjoin : (baseOf es).take itr.prevOverlap ++ ((baseOf es).take ov).drop itr.prevOverlap =
          (baseOf es).take ov := by
        have := take_append_drop itr.prevOverlap ((baseOf es).take ov)
        rwa [take_take, min_eq_left hgt.le] at this
      refine ⟨(baseOf es).take ov, ?_, by rw [length_take]; omega, ?_⟩
      · rw [if_pos hgt, slice_self _ hprev, hmore, h.take_eq, bind_eq_bind, bind_some,
          bind_some, hjoin]
      · rw [take_take, min_self]
    · have hle : ov ≤ itr.prevOverlap := not_lt.mp hgt
      refine ⟨itr.key, if_neg hgt, hle.trans hprev, ?_⟩
      have := congrArg (take ov) h.take_eq
      rwa [take_take, take_take, min_eq_left hle] at this
  obtain ⟨key, hkey, hlen, htake⟩ := hext
  rw [makeKey, hkey, bind_eq_bind, bind_some, slice_self _ hlen, bind_some, htake]

theorem setIdx_of_out (h : Over itr es) {i : ℤ} (hi : i ≥ es.length ∨ i < 0) :
    itr.setIdx i = some { itr with idx := i, eof := true } := by
  rw [setIdx, h.offsets_eq, length_offsets, if_pos hi]

/-- The bytes of an entry are found, between its offset and the next one or the end of the
entries. -/
theorem exists_entryData (h : Over itr es) (he : es[i]? = some e) :
    ∃ ov start stop, itr.entryOffsets[i]? = some start ∧ itr.endOffset i = some stop ∧
      slice itr.data start stop = some (entryBytes ov e) ∧ ov ≤ e.1.length ∧
      ov ≤ (baseOf es).length ∧ e.1.take ov = (baseOf es).take ov := by
  have hi := (List.getElem?_eq_some_iff.mp he).1
  obtain ⟨ov, hcell, hov, hovb, htake⟩ := exists_cell he
  have hcl : ((cells es).take i).flatten.length + (entryBytes ov e).length =
      ((cells es).take (i + 1)).flatten.length := (length_take_succ_flatten hcell).symm
  refine ⟨ov, ((cells es).take i).flatten.length,
    ((cells es).take (i + 1)).flatten.length, ?_, ?_, ?_,
    hov, hovb, htake⟩
  · rw [h.offsets_eq, getElem?_offsets hi]
  · rw [endOffset, h.offsets_eq, h.data_eq, length_offsets, Int.toNat_natCast]
    by_cases hlast : i + 1 = es.length
    · rw [if_pos (by omega), take_of_length_le (by rw [length_cells]; omega), body]
    · rw [if_neg (by omega), getElem?_offsets (by omega)]
  · rw [← hcl, h.data_eq]
    exact slice_flatten hcell

theorem decodeHeader_entryBytes (hov : ov ≤ e.1.length) (hlen : e.1.length < 2 ^ 16) :
    decodeHeader (entryBytes ov e) = some (ov, e.1.length - ov) := by
  rw [entryBytes, append_assoc]
  exact decodeHeader_encodeHeader (by omega) (by omega) _

theorem slice_entryBytes (ov : ℕ) (e : KV) :
    slice (entryBytes ov e) 4 (4 + (e.1.length - ov)) = some (e.1.drop ov) ∧
      slice (entryBytes ov e) (4 + (e.1.length - ov)) (entryBytes ov e).length =
      some e.2.encode := by
  have hdl : (e.1.drop ov).length = e.1.length - ov := length_drop ..
  constructor
  · have := slice_append (encodeHeader ov (e.1.length - ov)) (e.1.drop ov) e.2.encode
    rwa [length_encodeHeader, hdl] at this
  · have := slice_append (encodeHeader ov (e.1.length - ov) ++ e.1.drop ov) e.2.encode []
    rw [append_nil, length_append, length_encodeHeader, hdl] at this
    have hlen : (entryBytes ov e).length = 4 + (e.1.length - ov) + e.2.encode.length := by
      rw [entryBytes, length_append, length_append, length_encodeHeader, hdl]
    rw [hlen]
    exact this

theorem setIdx_spec (h : Over itr es) (hfits : ∀ x ∈ es, Fits x) (he : es[i]? = some e) :
    ∃ itr', itr.setIdx i = some itr' ∧ AtEntry itr' es i e := by
  obtain ⟨hi, hei⟩ := List.getElem?_eq_some_iff.mp he
  have hmem : e ∈ es := hei ▸ getElem_mem hi
  have hne : es ≠ [] := ne_nil_of_mem hmem
  have hk := (hfits e hmem).key.len_le
  obtain ⟨ov, start, stop, hstart, hstop, hentry, hov, hovb, htake⟩ := exists_entryData h he
  obtain ⟨hdiff, hval⟩ := slice_entryBytes ov e
  have hu : u16 (4 + (e.1.length - ov)) = 4 + (e.1.length - ov) := mod_eq_of_lt (by omega)
  have hkey : (baseOf es).take ov ++ e.1.drop ov = e.1 := by
    rw [← htake, take_append_drop]
  have hin : ¬ ((i : ℤ) ≥ itr.entryOffsets.length ∨ (i : ℤ) < 0) := by
    rw [h.offsets_eq, length_offsets]
    omega
  refine ⟨{ itr with
    idx := i, eof := false, baseKey := baseOf es, key := e.1, val := e.2.encode,
    prevOverlap := ov },
    ?_, ⟨h.data_eq, h.offsets_eq, .inr rfl, hov, hovb, htake, .inr ⟨e, hmem, rfl⟩⟩, rfl, rfl, he,
      rfl, rfl⟩
  rw [setIdx, if_neg hin]
  simp only [bind_eq_bind, Int.toNat_natCast, hstart, loadBase_eq h hfits hne, hstop,
    bind_some, hentry, decodeHeader_entryBytes hov (show e.1.length < 2 ^ 16 by omega), hu, hdiff,
    makeKey_eq h hovb, hval, hkey]

/-- The iterator of a block has moved to index `r`, which may be the one behind the last pair. -/
structure AtIndex (itr : BlockIterator) (es : List KV) (r : ℕ) : Prop where
  of_block : Over itr es
  idx_eq : itr.idx = r
  entry : ∀ e, es[r]? = some e → AtEntry itr es r e
  eof : es.length ≤ r → itr.eof = true

theorem setIdx_nat (h : Over itr es) (hfits : ∀ x ∈ es, Fits x) (r : ℕ) :
    ∃ itr', itr.setIdx r = some itr' ∧ AtIndex itr' es r := by
  cases hr : es[r]? with
  | some e =>
    obtain ⟨itr', hset, hat⟩ := setIdx_spec h hfits hr
    have hlt : r < es.length := (List.getElem?_eq_some_iff.mp hr).1
    refine ⟨itr', hset, hat.of_block, hat.idx_eq, fun e' he' => ?_, fun hle =>
      absurd hlt (not_lt.mpr hle)⟩
    cases hr.symm.trans he'
    exact hat
  | none =>
    have hle : es.length ≤ r := getElem?_eq_none_iff.mp hr
    refine ⟨_, setIdx_of_out h (.inl (by omega)), ?_, rfl, fun e he => ?_, fun _ => rfl⟩
    · exact { h with data_eq := h.data_eq }
    · rw [hr] at he
      cases he

/-- The pair with index `i` exists and is not below the key. -/
def NotBelow (t : Bytes) (es : List KV) (i : ℕ) : Prop :=
  ∃ e, es[i]? = some e ∧ InternalKey.ofBytes t ≤ InternalKey.ofBytes e.1

theorem NotBelow.mono {t : Bytes}
    (hsorted : es.Pairwise fun x y => ofBytes x.1 < ofBytes y.1) (a b : ℕ)
    (hab : a ≤ b) (hb : b < es.length) (h : NotBelow t es a) : NotBelow t es b := by
  obtain ⟨e, he, hle⟩ := h
  rcases hab.lt_or_eq with hlt | rfl
  · obtain ⟨ha, rfl⟩ := List.getElem?_eq_some_iff.mp he
    refine ⟨es[b], getElem?_eq_getElem hb, hle.trans ?_⟩
    exact (pairwise_iff_getElem.mp hsorted a b ha hb hlt).le
  · exact ⟨e, he, hle⟩

/-- `seek` stops at the first pair that is not below the target, or behind the last one. -/
theorem seek_spec (h : Over itr es) (hfits : ∀ x ∈ es, Fits x)
    (hsorted : es.Pairwise fun x y => ofBytes x.1 < ofBytes y.1) {t : Bytes} (ht : 8 ≤ t.length) :
    ∃ itr' r, itr.seek t .origin = some itr' ∧ AtIndex itr' es r ∧
      IsFirst (NotBelow t es) es.length r := by
  have htest : ∀ (i : ℕ) (itr : BlockIterator), i < es.length → Over itr es →
      ∃ b itr', seekTest t 0 i itr = some (b, itr') ∧ Over itr' es ∧
        (b = true ↔ NotBelow t es i) := by
    intro i itr hi hitr
    have he : es[i]? = some es[i] := getElem?_eq_getElem hi
    obtain ⟨itr', hset, hat⟩ := setIdx_spec hitr hfits he
    refine ⟨decide (Raw.compareKeys itr'.key t ≠ .lt), itr', ?_, hat.of_block, ?_⟩
    · rw [seekTest, if_neg (by omega), hset]
      rfl
    · rw [decide_eq_true_iff, hat.key_eq,
        Raw.compareKeys_eq (hfits _ (getElem_mem hi)).key.len_ge ht, ne_eq, cmp_eq_lt_iff, not_lt]
      constructor
      · exact fun hle => ⟨_, he, hle⟩
      · rintro ⟨e, he', hle⟩
        cases he.symm.trans he'
        exact hle
  obtain ⟨r, itr₁, hsearch, h₁, hfirst⟩ := search_spec (NotBelow.mono hsorted) htest h
  obtain ⟨itr', hset, hat⟩ := setIdx_nat h₁ hfits r
  refine ⟨itr', r, ?_, hat, hfirst⟩
  rw [seek, h.offsets_eq, length_offsets, if_neg (by decide), hsearch]
  exact hset

end BlockIterator
end Sst
end Autumn
