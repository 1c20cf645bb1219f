import Autumn.Table.BlockIterator

/-!
# The iterator over a table

`Iterator`: a position is a block and an index in it.  Going forward or backward it leaves a block
at its end and enters the next one; a seek looks for the block by the first keys of the blocks, and
then in that block, and goes on to the next block if everything in the block is below the target.
-/

namespace Autumn

open Lib Y List Option InternalKey

namespace Sst

/-! ## The source -/

/-- `pspb.BlockOffset`. -/
structure BlockOffset where
  key : Bytes
  extentID : ℕ
  offset : ℕ
  deriving DecidableEq, Repr

/-- The errors of an iterator: the end, or a block that cannot be read. -/
inductive Err where
  | eof
  | read
  deriving DecidableEq, Repr

/-- `Table`.  `read` is `stream.Read` of one block, `has` is the bloom filter. -/
structure Table where
  read : ℕ → ℕ → Option (List Block)
  blockIndex : List BlockOffset
  smallest : Bytes := []
  biggest : Bytes := []
  estimatedSize : ℕ
  has : ℕ → Bool
  extentID : ℕ
  offset : ℕ
  lastSeq : ℕ
  vpExtentID : ℕ
  vpOffset : ℕ

/-- `block`; an index out of range is `none`. -/
def Table.block (t : Table) (idx : ℤ) : Option (Except Err Block) :=
  if idx < 0 then none
  else (t.blockIndex[idx.toNat]?).map fun bo =>
    match t.read bo.extentID bo.offset with
    | some [b] => .ok b
    | _ => .error .read

/-- `DoesNotHave`. -/
def Table.doesNotHave (t : Table) (hash : ℕ) : Bool := !t.has hash

/-- `Iterator`. -/
structure TableIterator where
  bpos : ℤ := 0
  bi : BlockIterator := {}
  err : Option Err := none

/-- `blockIterator.Error`. -/
def BlockIterator.error (bi : BlockIterator) : Option Err := if bi.eof then some .eof else none

namespace TableIterator

/-- Read a block and move to a place in it. -/
def load (t : Table) (itr : TableIterator) (bpos : ℤ)
    (move : BlockIterator → Option BlockIterator) : Option TableIterator :=
  match t.block bpos with
  | none => none
  | some (.error e) => some { itr with bpos := bpos, err := some e }
  | some (.ok b) => do
    let bi ← BlockIterator.setBlock b
    let bi ← move bi
    some { bpos := bpos, bi := bi, err := bi.error }

/-- `seekToFirst`. -/
def seekToFirst (t : Table) (itr : TableIterator) : Option TableIterator :=
  if t.blockIndex.length = 0 then some { itr with err := some .eof }
  else load t itr 0 BlockIterator.seekToFirst

/-- `seekToLast`. -/
def seekToLast (t : Table) (itr : TableIterator) : Option TableIterator :=
  if t.blockIndex.length = 0 then some { itr with err := some .eof }
  else load t itr ((t.blockIndex.length : ℤ) - 1) BlockIterator.seekToLast

/-- `seekHelper`. -/
def seekHelper (t : Table) (itr : TableIterator) (blockIdx : ℤ) (key : Bytes) :
    Option TableIterator :=
  load t itr blockIdx fun bi => bi.seek key .origin

/-- The number of blocks whose first key is not above the key, by binary search. -/
def searchBlocks (t : Table) (key : Bytes) : Option ℕ :=
  (search (fun idx (_ : Unit) => (t.blockIndex[idx]?).map fun ko =>
    (decide (Raw.compareKeys ko.key key = .gt), ())) t.blockIndex.length ()).map Prod.fst

/-- `seekFrom` with `origin`. -/
def seekFrom (t : Table) (itr : TableIterator) (key : Bytes) : Option TableIterator :=
  if key.length < 8 then none
  else
    match searchBlocks t key with
    | none => none
    | some 0 => seekHelper t { itr with bpos := 0, err := none } 0 key
    | some (idx + 1) =>
      match seekHelper t { itr with bpos := 0, err := none } idx key with
      | none => none
      | some itr =>
        if itr.err = some .eof then
          if idx + 1 = t.blockIndex.length then some itr else seekHelper t itr ((idx : ℤ) + 1) key
        else some itr

/-- `next`.  The recursion is one deep: the second call finds no block loaded. -/
def next (t : Table) : ℕ → TableIterator → Option TableIterator
  | 0, _ => none
  | fuel + 1, itr =>
    if itr.bpos ≥ t.blockIndex.length then some { itr with err := some .eof }
    else if itr.bi.data.length = 0 then load t itr itr.bpos BlockIterator.seekToFirst
    else
      match itr.bi.next with
      | none => none
      | some bi =>
        if bi.eof then
          next t fuel { bpos := itr.bpos + 1, bi := { bi with data := [] }, err := none }
        else some { itr with bi := bi, err := none }

/-- `prev`. -/
def prev (t : Table) : ℕ → TableIterator → Option TableIterator
  | 0, _ => none
  | fuel + 1, itr =>
    if itr.bpos < 0 then some { itr with err := some .eof }
    else if itr.bi.data.length = 0 then load t itr itr.bpos BlockIterator.seekToLast
    else
      match itr.bi.prev with
      | none => none
      | some bi =>
        if bi.eof then
          prev t fuel { bpos := itr.bpos - 1, bi := { bi with data := [] }, err := none }
        else some { itr with bi := bi, err := none }

/-- `seekForPrev`. -/
def seekForPrev (t : Table) (itr : TableIterator) (key : Bytes) : Option TableIterator :=
  match seekFrom t itr key with
  | none => none
  | some itr => if itr.bi.key ≠ key then prev t 2 itr else some itr

/-- `NewIterator`, in either direction. -/
def newIterator (t : Table) : Option TableIterator := next t 2 {}

/-- `Valid`. -/
def valid (itr : TableIterator) : Bool := itr.err.isNone

/-- `Key`. -/
def key (itr : TableIterator) : Bytes := itr.bi.key

/-- `Value`. -/
def value (itr : TableIterator) : Option ValueStruct := ValueStruct.decode itr.bi.val

/-- A call of one of the methods that move an iterator. -/
inductive Op where
  | rewind
  | seek (key : Bytes)
  | next

/-- `Rewind`, `Seek` and `Next`. -/
def step (t : Table) (reversed : Bool) (itr : TableIterator) : Op → Option TableIterator
  | .rewind => if reversed then seekToLast t itr else seekToFirst t itr
  | .seek key => if reversed then seekForPrev t itr key else seekFrom t itr key
  | .next => if reversed then prev t 2 itr else next t 2 itr

/-- A sequence of calls on a new iterator. -/
def run (t : Table) (reversed : Bool) (ops : List Op) : Option TableIterator :=
  (newIterator t).bind fun itr => ops.foldlM (step t reversed) itr

end TableIterator

/-! ## A list cut into blocks -/

/-- The index in the whole list of index `i` in block `bp`. -/
def position (blocks : List (List KV)) (bp i : ℕ) : ℕ := (blocks.take bp).flatten.length + i

variable {bp : ℕ} {es : List KV}

theorem position_succ_block {blocks : List (List KV)} (h : blocks[bp]? = some es) :
    position blocks (bp + 1) 0 = position blocks bp es.length := by
  rw [position, position, take_add_one, h, flatten_append, length_append]
  simp

theorem flatten_split {blocks : List (List KV)} (h : blocks[bp]? = some es) :
    blocks.flatten = (blocks.take bp).flatten ++ (es ++ (blocks.drop (bp + 1)).flatten) := by
  obtain ⟨hbp, rfl⟩ := List.getElem?_eq_some_iff.mp h
  conv_lhs => rw [← take_append_drop bp blocks, drop_eq_getElem_cons hbp]
  rw [flatten_append, flatten_cons]

theorem getElem?_position {blocks : List (List KV)} {i : ℕ} {e : KV} (h : blocks[bp]? = some es)
    (he : es[i]? = some e) : blocks.flatten[position blocks bp i]? = some e := by
  have hi : i < es.length := (List.getElem?_eq_some_iff.mp he).1
  rw [flatten_split h, position, getElem?_append_right (Nat.le_add_right ..),
    Nat.add_sub_cancel_left, getElem?_append_left hi, he]

theorem position_last {blocks : List (List KV)} (h : blocks[bp]? = some es)
    (hlast : bp + 1 = blocks.length) : position blocks bp es.length = blocks.flatten.length := by
  rw [← position_succ_block h, position, take_of_length_le hlast.ge, Nat.add_zero]

/-- The pairs of a table: a list in order, cut into blocks that are not empty and that the index
leads to. -/
structure Laid (t : Table) (blocks : List (List KV)) : Prop where
  length_eq : t.blockIndex.length = blocks.length
  block : ∀ {bp : ℕ} {es : List KV}, blocks[bp]? = some es →
    ∃ blk, t.block bp = some (.ok blk) ∧ Encodes blk es
  key : ∀ {bp : ℕ} {es : List KV}, blocks[bp]? = some es →
    ∃ bo, t.blockIndex[bp]? = some bo ∧ bo.key = baseOf es
  ne_nil : ∀ es ∈ blocks, es ≠ []
  fits : ∀ x ∈ blocks.flatten, Fits x
  sorted : blocks.flatten.Pairwise fun x y => InternalKey.ofBytes x.1 < InternalKey.ofBytes y.1
  nonempty : blocks ≠ []

namespace Laid

variable {t : Table} {blocks : List (List KV)}

variable {bp : ℕ} {es : List KV}

theorem mem_flatten (h : blocks[bp]? = some es) {x : KV} (hx : x ∈ es) : x ∈ blocks.flatten :=
  List.mem_flatten.mpr ⟨es, List.mem_of_getElem? h, hx⟩

section

variable (h : Laid t blocks)
include h

theorem fits_block (hes : blocks[bp]? = some es) : ∀ x ∈ es, Fits x :=
  fun x hx => h.fits x (mem_flatten hes hx)

theorem sorted_block (hes : blocks[bp]? = some es) :
    es.Pairwise fun x y => ofBytes x.1 < ofBytes y.1 :=
  h.sorted.sublist (sublist_flatten_of_mem (mem_of_getElem? hes))

theorem length_pos (hes : blocks[bp]? = some es) : 0 < es.length :=
  length_pos_of_ne_nil (h.ne_nil es (mem_of_getElem? hes))

theorem exists_block (hbp : bp < t.blockIndex.length) : ∃ es, blocks[bp]? = some es :=
  ⟨_, getElem?_eq_getElem (h.length_eq ▸ hbp)⟩

theorem lt_length (hes : blocks[bp]? = some es) : bp < t.blockIndex.length :=
  h.length_eq ▸ (List.getElem?_eq_some_iff.mp hes).1

theorem index_pos : 0 < t.blockIndex.length :=
  h.length_eq ▸ length_pos_of_ne_nil h.nonempty

theorem flatten_pos : 0 < blocks.flatten.length := by
  obtain ⟨es, hes⟩ := exists_mem_of_ne_nil _ h.nonempty
  obtain ⟨x, hx⟩ := exists_mem_of_ne_nil _ (h.ne_nil es hes)
  exact List.length_pos_of_mem (List.mem_flatten.mpr ⟨es, hes, hx⟩)

end

end Laid

/-! ## Where the iterator is -/

/-- The iterator is in block `bp` at index `i`, which may be the one behind the last. -/
structure InBlock (blocks : List (List KV)) (itr : TableIterator) (bp : ℕ) (es : List KV) (i : ℕ) :
    Prop where
  bpos_eq : itr.bpos = bp
  get : blocks[bp]? = some es
  at_index : BlockIterator.AtIndex itr.bi es i
  le : i ≤ es.length

/-- The iterator is valid and at the pair with index `g` in the whole list. -/
structure OnPair (blocks : List (List KV)) (itr : TableIterator) (g : ℕ) (e : KV) : Prop where
  err_eq : itr.err = none
  get : blocks.flatten[g]? = some e
  key_eq : itr.bi.key = e.1
  val_eq : itr.bi.val = e.2.encode
  in_block : ∃ bp es i, InBlock blocks itr bp es i ∧ i < es.length ∧ g = position blocks bp i

/-- Past the last pair. -/
def PastEnd (t : Table) (blocks : List (List KV)) (itr : TableIterator) : Prop :=
  itr.err = some .eof ∧ (itr.bpos ≥ t.blockIndex.length ∨
    ∃ bp es, InBlock blocks itr bp es es.length ∧ bp + 1 = blocks.length)

/-- Before the first pair. -/
def BeforeFirst (itr : TableIterator) : Prop := itr.err = some .eof ∧ itr.bpos < 0

namespace TableIterator

variable {t : Table} {blocks : List (List KV)} {itr : TableIterator}

variable {bp i : ℕ} {es : List KV}

theorem onPair_of_inBlock (h : InBlock blocks itr bp es i) (hi : i < es.length)
    (herr : itr.err = none) :
    ∃ e, es[i]? = some e ∧ OnPair blocks itr (position blocks bp i) e := by
  have he := getElem?_eq_getElem hi
  have hat := h.at_index.entry _ he
  exact ⟨_, he, herr, getElem?_position h.get he, hat.key_eq, hat.val_eq, bp, es, i, h, hi, rfl⟩

theorem error_eq {bi : BlockIterator} (hat : BlockIterator.AtIndex bi es i) :
    bi.error = if i < es.length then none else some .eof := by
  rw [BlockIterator.error]
  by_cases hlt : i < es.length
  · rw [if_pos hlt, (hat.entry _ (getElem?_eq_getElem hlt)).not_eof]
    rfl
  · rw [if_neg hlt, hat.eof (not_lt.mp hlt)]
    rfl

section

variable (h : Laid t blocks) {bp : ℕ} {es : List KV} (hes : blocks[bp]? = some es)
include h hes

theorem load_spec {move : BlockIterator → Option BlockIterator} {P : ℕ → Prop}
    (hmove : ∀ bi, Over bi es → ∃ bi' i, move bi = some bi' ∧ BlockIterator.AtIndex bi' es i ∧ P i)
    (hP : ∀ i, P i → i ≤ es.length) :
    ∃ itr' i, load t itr bp move = some itr' ∧ InBlock blocks itr' bp es i ∧ P i ∧
      itr'.err = if i < es.length then none else some .eof := by
  obtain ⟨blk, hblk, henc⟩ := h.block hes
  obtain ⟨bi, hset, hover⟩ := BlockIterator.setBlock_spec henc
  obtain ⟨bi', i, hmv, hat, hi⟩ := hmove bi hover
  refine ⟨{ bpos := bp, bi := bi', err := bi'.error }, i, ?_, ⟨rfl, hes, hat, hP i hi⟩, hi,
    error_eq hat⟩
  rw [load, hblk]
  simp only [bind_eq_bind, hset, bind_some, hmv]

theorem load_at {j : ℕ} (hj : j < es.length) {move : BlockIterator → Option BlockIterator}
    (hmove : ∀ bi, Over bi es → move bi = bi.setIdx j) :
    ∃ itr' e, load t itr bp move = some itr' ∧ OnPair blocks itr' (position blocks bp j) e := by
  obtain ⟨itr', i, hload, hin, rfl, herr⟩ := @load_spec t blocks itr h bp es hes move (· = j)
    (fun bi hover => by
      obtain ⟨bi', hset, hat⟩ := BlockIterator.setIdx_nat hover (h.fits_block hes) j
      exact ⟨bi', j, (hmove bi hover).trans hset, hat, rfl⟩)
    (fun i hi => hi.trans_le hj.le)
  obtain ⟨e, _, hon⟩ := onPair_of_inBlock hin hj (herr.trans (if_pos hj))
  exact ⟨itr', e, hload, hon⟩

theorem load_first : ∃ itr' e, load t itr bp BlockIterator.seekToFirst = some itr' ∧
      OnPair blocks itr' (position blocks bp 0) e :=
  load_at h hes (h.length_pos hes) fun _ _ => rfl

theorem load_last : ∃ itr' e, load t itr bp BlockIterator.seekToLast = some itr' ∧
      OnPair blocks itr' (position blocks bp (es.length - 1)) e := by
  have hpos := h.length_pos hes
  refine load_at h hes (Nat.sub_lt hpos Nat.one_pos) fun bi hover => ?_
  rw [BlockIterator.seekToLast, hover.offsets_eq, length_offsets]
  congr 1
  omega

end

theorem data_ne_nil (h : Laid t blocks) (hin : InBlock blocks itr bp es i) :
    itr.bi.data.length ≠ 0 := by
  obtain ⟨rest, hbody⟩ := body_eq_base (h.ne_nil es (mem_of_getElem? hin.get))
  rw [hin.at_index.of_block.data_eq, hbody, length_append, length_encodeHeader]
  omega

/-- What `next` does in a block: a step in the block, or the load of the next one.  Only the index
of the table matters. -/
theorem exists_next_eq (h : Laid t blocks) (hin : InBlock blocks itr bp es i) :
    ∃ bi itr', BlockIterator.AtIndex bi es (i + 1) ∧ itr'.bpos = ((bp + 1 : ℕ) : ℤ) ∧
      ∀ t' : Table, t'.blockIndex = t.blockIndex → next t' 2 itr =
        if i + 1 < es.length then some { itr with bi := bi, err := none }
        else if bp + 1 < t.blockIndex.length then
          load t' itr' ((bp + 1 : ℕ) : ℤ) BlockIterator.seekToFirst
        else some { itr' with err := some .eof } := by
  have hlt := h.lt_length hin.get
  obtain ⟨bi', hset, hat⟩ :=
    BlockIterator.setIdx_nat hin.at_index.of_block (h.fits_block hin.get) (i + 1)
  have hnext : itr.bi.next = some bi' := by
    rw [BlockIterator.next, hin.at_index.idx_eq]
    exact hset
  refine ⟨bi', { bpos := ((bp + 1 : ℕ) : ℤ), bi := { bi' with data := [] }, err := none }, hat,
    rfl, ?_⟩
  intro t' hindex
  have hbp : ¬ itr.bpos ≥ t'.blockIndex.length := by
    rw [hin.bpos_eq, hindex]
    omega
  have hcast : (itr.bpos + 1 : ℤ) = ((bp + 1 : ℕ) : ℤ) := by
    rw [hin.bpos_eq]
    omega
  rw [next, if_neg hbp, if_neg (data_ne_nil h hin), hnext]
  dsimp only
  by_cases hi : i + 1 < es.length
  · have heof := (hat.entry _ (getElem?_eq_getElem hi)).not_eof
    rw [if_pos hi, if_neg (by rw [heof]; exact Bool.false_ne_true)]
  · rw [if_neg hi, if_pos (hat.eof (not_lt.mp hi)), hcast, next, hindex]
    by_cases hlast : bp + 1 < t.blockIndex.length
    · have hge : ¬ ((bp + 1 : ℕ) : ℤ) ≥ t.blockIndex.length := by omega
      rw [if_pos hlast, if_neg hge, if_pos length_nil]
    · have hge : ((bp + 1 : ℕ) : ℤ) ≥ t.blockIndex.length := by omega
      rw [if_neg hlast, if_pos hge]

/-- Behind the last pair of a block is the first place of the next. -/
theorem position_add_one (hes : blocks[bp]? = some es) (hi : i < es.length)
    (hi' : ¬ i + 1 < es.length) :
    position blocks bp i + 1 = position blocks (bp + 1) 0 := by
  rw [position_succ_block hes, position, position]
  omega

theorem onPair_succ (hin : InBlock blocks itr bp es i) (hi : i + 1 < es.length) {bi : BlockIterator}
    (hat : BlockIterator.AtIndex bi es (i + 1)) :
    ∃ e, OnPair blocks { itr with bi := bi, err := none } (position blocks bp i + 1) e := by
  have hin' : InBlock blocks { itr with bi := bi, err := none } bp es (i + 1) :=
    ⟨hin.bpos_eq, hin.get, hat, hi.le⟩
  obtain ⟨e, _, hon⟩ := onPair_of_inBlock hin' hi rfl
  exact ⟨e, hon⟩

/-- `next` in a block: the next pair of the block, the first of the next block, or the end. -/
theorem next_spec (h : Laid t blocks) {g : ℕ} {e : KV} (hon : OnPair blocks itr g e) :
    ∃ itr', next t 2 itr = some itr' ∧
      ((∃ e', OnPair blocks itr' (g + 1) e') ∨
        (g + 1 = blocks.flatten.length ∧ PastEnd t blocks itr')) := by
  obtain ⟨bp, es, i, hin, hi, rfl⟩ := hon.in_block
  obtain ⟨bi, itr', hat, hbpos, hnext⟩ := exists_next_eq h hin
  rw [hnext t rfl]
  split_ifs with hi' hlast
  · exact ⟨_, rfl, .inl (onPair_succ hin hi' hat)⟩
  · -- The block is left.
    rw [position_add_one hin.get hi hi']
    obtain ⟨es', hes'⟩ := h.exists_block hlast
    obtain ⟨itr'', e', hload, hon'⟩ := @load_first t blocks itr' h (bp + 1) es' hes'
    exact ⟨itr'', hload, .inl ⟨e', hon'⟩⟩
  · refine ⟨_, rfl, .inr ⟨?_, rfl, .inl ?_⟩⟩
    · rw [position_add_one hin.get hi hi', position_succ_block hin.get]
      exact position_last hin.get (by have := h.length_eq; have := h.lt_length hin.get; omega)
    · show itr'.bpos ≥ _
      omega

theorem next_of_pastEnd (h : Laid t blocks) (hend : PastEnd t blocks itr) :
    ∃ itr', next t 2 itr = some itr' ∧ PastEnd t blocks itr' := by
  by_cases hge : itr.bpos ≥ t.blockIndex.length
  · exact ⟨_, if_pos hge, rfl, .inl hge⟩
  · obtain ⟨bp, es, hin, hlast⟩ := hend.2.resolve_left hge
    obtain ⟨bi, itr', -, hbpos, hnext⟩ := exists_next_eq h hin
    have hlen := h.length_eq
    rw [hnext t rfl, if_neg (by omega), if_neg (by omega)]
    refine ⟨_, rfl, rfl, .inl ?_⟩
    show itr'.bpos ≥ _
    omega

/-- `prev` from a place in a block, also from the one behind its last pair. -/
theorem prev_of_inBlock (h : Laid t blocks) (hin : InBlock blocks itr bp es i) :
    ∃ itr', prev t 2 itr = some itr' ∧
      ((∃ g e, position blocks bp i = g + 1 ∧ OnPair blocks itr' g e) ∨
        (position blocks bp i = 0 ∧ BeforeFirst itr')) := by
  have hbp : ¬ itr.bpos < 0 := by
    rw [hin.bpos_eq]
    omega
  rw [prev, if_neg hbp, if_neg (data_ne_nil h hin)]
  have hle := hin.le
  cases i with
  | succ i =>
    have hi : i < es.length := by omega
    obtain ⟨bi', hset, hat⟩ := BlockIterator.setIdx_nat hin.at_index.of_block
      (h.fits_block hin.get) i
    have hprev : itr.bi.prev = some bi' := by
      rw [BlockIterator.prev, hin.at_index.idx_eq, Nat.cast_add, Nat.cast_one, add_sub_cancel_right]
      exact hset
    have heof := (hat.entry _ (getElem?_eq_getElem hi)).not_eof
    have hin' : InBlock blocks { itr with bi := bi', err := none } bp es i :=
      ⟨hin.bpos_eq, hin.get, hat, hi.le⟩
    obtain ⟨e', _, hon'⟩ := onPair_of_inBlock hin' hi rfl
    rw [hprev]
    exact ⟨_, if_neg (by rw [heof]; exact Bool.false_ne_true), .inl ⟨_, e', rfl, hon'⟩⟩
  | zero =>
    have hprev : itr.bi.prev = some { itr.bi with idx := -1, eof := true } := by
      rw [BlockIterator.prev, hin.at_index.idx_eq]
      exact BlockIterator.setIdx_of_out hin.at_index.of_block (.inr (by omega))
    rw [hprev]
    show ∃ itr', prev t 1 _ = some itr' ∧ _
    rw [prev, hin.bpos_eq]
    cases bp with
    | zero => exact ⟨_, if_pos (by show ((0 : ℕ) : ℤ) - 1 < 0; omega), .inr ⟨rfl, rfl, by
        show ((0 : ℕ) : ℤ) - 1 < 0
        omega⟩⟩
    | succ bp =>
      obtain ⟨es', hes'⟩ := h.exists_block
        (by have := h.lt_length hin.get; omega : bp < t.blockIndex.length)
      have hlen := h.length_pos hes'
      obtain ⟨itr', e', hload, hon'⟩ := @load_last t blocks
        { bpos := ((bp + 1 : ℕ) : ℤ) - 1, bi := { itr.bi with idx := -1, eof := true, data := [] },
          err := none } h bp es' hes'
      refine ⟨itr', ?_, .inl ⟨_, e', ?_, hon'⟩⟩
      · rw [if_neg (by show ¬ ((bp + 1 : ℕ) : ℤ) - 1 < 0; omega), if_pos length_nil]
        show load t _ (((bp + 1 : ℕ) : ℤ) - 1) _ = _
        rw [show ((bp + 1 : ℕ) : ℤ) - 1 = (bp : ℤ) by omega] at hload ⊢
        exact hload
      · rw [position_succ_block hes', position, position]
        omega

theorem prev_of_beforeFirst (hend : BeforeFirst itr) :
    ∃ itr', prev t 2 itr = some itr' ∧ BeforeFirst itr' :=
  ⟨_, if_pos hend.2, rfl, hend.2⟩

/-! ## Seeking -/

theorem lt_of_block_lt (h : Laid t blocks) {bp' : ℕ} {es' : List KV} (hes : blocks[bp]? = some es)
    (hes' : blocks[bp']? = some es') (hlt : bp < bp') {x y : KV} (hx : x ∈ es) (hy : y ∈ es') :
    ofBytes x.1 < ofBytes y.1 := by
  obtain ⟨hbp, rfl⟩ := List.getElem?_eq_some_iff.mp hes
  obtain ⟨hbp', rfl⟩ := List.getElem?_eq_some_iff.mp hes'
  exact pairwise_iff_getElem.mp (pairwise_flatten.mp h.sorted).2 bp bp' hbp hbp' hlt x hx y hy

theorem base_le (h : Laid t blocks) (hes : blocks[bp]? = some es) :
    (∃ x ∈ es, es[0]? = some x ∧ x.1 = baseOf es) ∧
      ∀ x ∈ es, ofBytes (baseOf es) ≤ ofBytes x.1 := by
  have hsorted := h.sorted_block hes
  cases es with
  | nil => exact absurd rfl (h.ne_nil [] (mem_of_getElem? hes))
  | cons e es =>
    refine ⟨⟨e, (.head _) .., rfl, rfl⟩, fun x hx => ?_⟩
    rcases hx with _ | ⟨_, hx⟩
    · exact le_rfl
    · exact ((pairwise_cons.mp hsorted).1 x hx).le

/-- The binary search over the index. -/
theorem searchBlocks_spec (h : Laid t blocks) {key : Bytes} (hkey : 8 ≤ key.length) :
    ∃ r, searchBlocks t key = some r ∧ IsFirst (fun bp => ∃ es, blocks[bp]? = some es ∧
      ofBytes key < ofBytes (baseOf es)) t.blockIndex.length r := by
  have hmono : ∀ a b, a ≤ b → b < t.blockIndex.length →
      (∃ es, blocks[a]? = some es ∧ ofBytes key < ofBytes (baseOf es)) →
      ∃ es, blocks[b]? = some es ∧ ofBytes key < ofBytes (baseOf es) := by
    rintro a b hab hb ⟨es, hes, hlt⟩
    obtain ⟨es', hes'⟩ := h.exists_block hb
    rcases hab.lt_or_eq with hlt' | rfl
    · obtain ⟨x, hx, _, hxb⟩ := (base_le h hes).1
      obtain ⟨y, hy, _, hyb⟩ := (base_le h hes').1
      refine ⟨es', hes', hlt.trans ?_⟩
      rw [← hxb, ← hyb]
      exact lt_of_block_lt h hes hes' hlt' hx hy
    · exact ⟨es, hes, hlt⟩
  have htest : ∀ (bp : ℕ) (s : Unit), bp < t.blockIndex.length → True →
      ∃ b s', (t.blockIndex[bp]?).map (fun ko =>
          (decide (Raw.compareKeys ko.key key = .gt), ())) = some (b, s') ∧ True ∧
        (b = true ↔ ∃ es, blocks[bp]? = some es ∧ ofBytes key < ofBytes (baseOf es)) := by
    intro bp _ hbp _
    obtain ⟨es, hes⟩ := h.exists_block hbp
    obtain ⟨bo, hbo, hbase⟩ := h.key hes
    obtain ⟨x, hx, _, hxb⟩ := (base_le h hes).1
    have hlen : 8 ≤ bo.key.length := by
      rw [hbase, ← hxb]
      exact (h.fits_block hes x hx).key.len_ge
    refine ⟨decide (Raw.compareKeys bo.key key = .gt), (), by rw [hbo]; rfl, trivial, ?_⟩
    rw [decide_eq_true_iff, Raw.compareKeys_eq hlen hkey, cmp_eq_gt_iff, hbase]
    constructor
    · exact fun hlt => ⟨es, hes, hlt⟩
    · rintro ⟨es', hes', hlt⟩
      cases hes.symm.trans hes'
      exact hlt
  obtain ⟨r, s', hsearch, _, hfirst⟩ := @search_spec Unit _ _ (fun _ => True) _ hmono htest
    () trivial
  exact ⟨r, by rw [searchBlocks, hsearch]; rfl, hfirst⟩

theorem seekHelper_spec (h : Laid t blocks) {key : Bytes} (hkey : 8 ≤ key.length) {bp : ℕ}
    {es : List KV} (hes : blocks[bp]? = some es) :
    ∃ itr' r, seekHelper t itr bp key = some itr' ∧ InBlock blocks itr' bp es r ∧
      IsFirst (BlockIterator.NotBelow key es) es.length r ∧
      itr'.err = if r < es.length then none else some .eof :=
  load_spec h hes
    (fun _ hover => BlockIterator.seek_spec hover (h.fits_block hes) (h.sorted_block hes) hkey)
    fun _ hfirst => hfirst.le

/-- Everything before a block is below a key that is not below its first key. -/
theorem below_of_base_le (h : Laid t blocks) {k : InternalKey} (hes : blocks[bp]? = some es)
    (hle : ofBytes (baseOf es) ≤ k) :
    ∀ x ∈ (blocks.take bp).flatten, ofBytes x.1 < k := by
  intro x hx
  obtain ⟨es', hmem, hx'⟩ := mem_flatten.mp hx
  obtain ⟨bp', hbp', rfl⟩ := mem_take_iff_getElem.mp hmem
  obtain ⟨y, hy, _, hyb⟩ := (base_le h hes).1
  refine lt_of_lt_of_le ?_ hle
  rw [← hyb]
  exact lt_of_block_lt h (getElem?_eq_getElem _) hes (by omega) hx' hy

/-- The first place in a block is the first place in the list, if everything before the block is
below the key, and the place is in the block or the block is the last. -/
theorem isFirst_position {key : Bytes} {r : ℕ} (hes : blocks[bp]? = some es)
    (hfirst : IsFirst (BlockIterator.NotBelow key es) es.length r)
    (hbefore : ∀ x ∈ (blocks.take bp).flatten, ofBytes x.1 < ofBytes key)
    (hend : r < es.length ∨ bp + 1 = blocks.length) :
    IsFirst (BlockIterator.NotBelow key blocks.flatten) blocks.flatten.length
      (position blocks bp r) := by
  have hsplit := flatten_split hes
  have hlen : blocks.flatten.length =
      (blocks.take bp).flatten.length + (es.length + (blocks.drop (bp + 1)).flatten.length) := by
    rw [hsplit, length_append, length_append]
  have hle := hfirst.le
  refine ⟨by rw [position, hlen]; omega, fun a ha => ?_, fun hlt => ?_⟩
  · rintro ⟨e, he, hge⟩
    by_cases hin : a < (blocks.take bp).flatten.length
    · rw [hsplit, getElem?_append_left hin] at he
      exact absurd (hbefore e (mem_of_getElem? he)) (not_lt.mpr hge)
    · have hlt : a - (blocks.take bp).flatten.length < r := by
        rw [position] at ha
        omega
      rw [hsplit, getElem?_append_right (not_lt.mp hin),
        getElem?_append_left (hlt.trans_le hle)] at he
      exact hfirst.below _ hlt ⟨e, he, hge⟩
  · have hr : r < es.length := by
      rcases hend with hr | hlast
      · exact hr
      · have := position_last hes hlast
        rw [position] at this hlt
        omega
    obtain ⟨e, he, hge⟩ := hfirst.at_lt hr
    exact ⟨e, getElem?_position hes he, hge⟩

/-- A key below the first key of a block is found at its first pair. -/
theorem isFirst_zero (h : Laid t blocks) {key : Bytes} {r : ℕ} (hes : blocks[bp]? = some es)
    (hlt : ofBytes key < ofBytes (baseOf es))
    (hfirst : IsFirst (BlockIterator.NotBelow key es) es.length r) : r < es.length := by
  obtain ⟨x, _, hx, hxb⟩ := (base_le h hes).1
  have hzero : r = 0 := by
    by_contra hne
    exact hfirst.below 0 (Nat.pos_of_ne_zero hne) ⟨x, hx, hxb ▸ hlt.le⟩
  rw [hzero]
  exact h.length_pos hes

/-- The iterator after a seek: at the first pair that is not below the key, or behind the last. -/
structure Sought (blocks : List (List KV)) (itr : TableIterator) (key : Bytes) (bp : ℕ)
    (es : List KV) (i : ℕ) : Prop where
  in_block : InBlock blocks itr bp es i
  first : IsFirst (BlockIterator.NotBelow key blocks.flatten) blocks.flatten.length
    (position blocks bp i)
  err_eq : itr.err = if i < es.length then none else some .eof
  last : i < es.length ∨ bp + 1 = blocks.length

theorem seekFrom_spec (h : Laid t blocks) {key : Bytes} (hkey : 8 ≤ key.length) :
    ∃ itr' bp es i, seekFrom t itr key = some itr' ∧ Sought blocks itr' key bp es i := by
  obtain ⟨idx, hsearch, hidx⟩ := searchBlocks_spec h hkey
  rw [seekFrom, if_neg (not_lt.mpr hkey), hsearch]
  cases idx with
  | zero =>
    obtain ⟨es, hes, hlt⟩ := hidx.at_lt h.index_pos
    obtain ⟨itr', r, hseek, hin, hfirst, herr⟩ :=
      @seekHelper_spec t blocks { itr with bpos := 0, err := none } h key hkey 0 es hes
    have hr := isFirst_zero h hes hlt hfirst
    have hbefore : ∀ x ∈ (blocks.take 0).flatten,
        ofBytes x.1 < ofBytes key := fun x hx => absurd hx (by simp)
    exact ⟨itr', 0, es, r, hseek, hin, isFirst_position hes hfirst hbefore (.inl hr), herr, .inl hr⟩
  | succ idx =>
    obtain ⟨es, hes⟩ := h.exists_block (Nat.lt_of_succ_le hidx.le)
    have hbase : ofBytes (baseOf es) ≤ ofBytes key :=
      not_lt.mp fun hlt => hidx.below idx (Nat.lt_succ_self _) ⟨es, hes, hlt⟩
    have hbefore := below_of_base_le h hes hbase
    obtain ⟨itr₁, r, hseek, hin, hfirst, herr⟩ :=
      @seekHelper_spec t blocks { itr with bpos := 0, err := none } h key hkey idx es hes
    simp only [hseek]
    by_cases hr : r < es.length
    · rw [if_pos hr] at herr
      refine ⟨itr₁, idx, es, r, if_neg (by simp [herr]), hin,
        isFirst_position hes hfirst hbefore (.inl hr), ?_, .inl hr⟩
      rw [herr, if_pos hr]
    · have herr' : itr₁.err = some .eof := herr.trans (if_neg hr)
      rw [if_pos herr']
      by_cases hlast : idx + 1 = t.blockIndex.length
      · have hlast' : idx + 1 = blocks.length := hlast.trans h.length_eq
        exact ⟨itr₁, idx, es, r, if_pos hlast, hin,
          isFirst_position hes hfirst hbefore (.inr hlast'), herr, .inr hlast'⟩
      · -- the whole block is below the key: it is the first pair of the next block
        obtain ⟨es', hes', hlt⟩ := hidx.at_lt (lt_of_le_of_ne hidx.le hlast)
        obtain ⟨itr₂, r', hseek', hin', hfirst', herr₂⟩ :=
          @seekHelper_spec t blocks itr₁ h key hkey (idx + 1) es' hes'
        have hr' := isFirst_zero h hes' hlt hfirst'
        have hbefore' : ∀ x ∈ (blocks.take (idx + 1)).flatten,
            ofBytes x.1 < ofBytes key := by
          intro x hx
          rw [take_add_one, hes, flatten_append] at hx
          rcases mem_append.mp hx with hx | hx
          · exact hbefore x hx
          · obtain ⟨i, hi, rfl⟩ := mem_iff_getElem.mp (by simpa using hx : x ∈ es)
            refine not_le.mp fun hge => hfirst.below i (by omega) ⟨_, getElem?_eq_getElem hi, hge⟩
        refine ⟨itr₂, idx + 1, es', r', ?_, hin',
          isFirst_position hes' hfirst' hbefore' (.inl hr'), herr₂, .inl hr'⟩
        rw [if_neg hlast]
        exact hseek'

/-- A seek that leaves the iterator on the key has found it. -/
theorem Sought.lt_of_key_eq {key : Bytes} (hkey : 8 ≤ key.length)
    (hs : Sought blocks itr key bp es i) (heq : itr.bi.key = key) : i < es.length := by
  by_contra hge
  have hpos : position blocks bp i = blocks.flatten.length := by
    have hle := hs.in_block.le
    rw [show i = es.length by omega]
    exact position_last hs.in_block.get (hs.last.resolve_left hge)
  rcases hs.in_block.at_index.of_block.key_mem with hnil | ⟨e, he, hek⟩
  · rw [← heq, hnil] at hkey
    exact absurd hkey (by decide)
  · obtain ⟨a, ha, hae⟩ := mem_iff_getElem.mp (Laid.mem_flatten hs.in_block.get he)
    refine hs.first.below a (hpos ▸ ha) ⟨e, hae ▸ getElem?_eq_getElem ha, ?_⟩
    rw [← heq, hek]

/-- If a seek has not found the key, everything from its place on is above the key. -/
theorem Sought.above (h : Laid t blocks) {key : Bytes} {bp i : ℕ} {es : List KV}
    (hkey : 8 ≤ key.length) (hs : Sought blocks itr key bp es i) (hne : itr.bi.key ≠ key) (a : ℕ)
    (x : KV) (hle : position blocks bp i ≤ a) (hx : blocks.flatten[a]? = some x) :
    ofBytes key < ofBytes x.1 := by
  obtain ⟨ha, hae⟩ := List.getElem?_eq_some_iff.mp hx
  have hpos := hle.trans_lt ha
  have hi : i < es.length := by
    rcases hs.last with hi | hlast
    · exact hi
    · have := position_last hs.in_block.get hlast
      rw [position] at this hpos
      omega
  obtain ⟨e, he, hon⟩ := onPair_of_inBlock hs.in_block hi (hs.err_eq.trans (if_pos hi))
  obtain ⟨x', hx', hge⟩ := BlockIterator.NotBelow.mono h.sorted _ a hle ha (hs.first.at_lt hpos)
  cases hx.symm.trans hx'
  refine lt_of_le_of_ne hge fun hinj => ?_
  have hkx : x.1 = key :=
    (ofBytes_inj hkey (h.fits x (mem_of_getElem? hx)).key.len_ge hinj).symm
  obtain ⟨hg, hge'⟩ := List.getElem?_eq_some_iff.mp hon.get
  rcases hle.lt_or_eq with hlt | rfl
  · -- a pair strictly between the key and itself
    have hsorted := pairwise_iff_getElem.mp h.sorted _ a hg ha hlt
    obtain ⟨e', he', hle'⟩ := hs.first.at_lt hpos
    cases hon.get.symm.trans he'
    rw [hge', hae, ← hinj] at hsorted
    exact absurd hsorted (not_lt.mpr hle')
  · obtain rfl : e = x := hge'.symm.trans hae
    exact hne (hon.key_eq.trans hkx)

/-- `seekForPrev` goes to the last pair that is not above the key. -/
theorem seekForPrev_spec (h : Laid t blocks) {key : Bytes} (hkey : 8 ≤ key.length) :
    ∃ itr', seekForPrev t itr key = some itr' ∧
      ((∃ g e, OnPair blocks itr' g e ∧ ofBytes e.1 ≤ ofBytes key ∧
          ∀ (a : ℕ) (x : KV), g < a → blocks.flatten[a]? = some x →
            ofBytes key < ofBytes x.1) ∨
        (BeforeFirst itr' ∧ ∀ (a : ℕ) (x : KV), blocks.flatten[a]? = some x →
          ofBytes key < ofBytes x.1)) := by
  obtain ⟨itr₁, bp, es, i, hseek, hs⟩ := @seekFrom_spec t blocks itr h key hkey
  rw [seekForPrev, hseek]
  by_cases heq : itr₁.bi.key = key
  · have hi := hs.lt_of_key_eq hkey heq
    obtain ⟨e, he, hon⟩ := onPair_of_inBlock hs.in_block hi (hs.err_eq.trans (if_pos hi))
    have hek : e.1 = key := hon.key_eq.symm.trans heq
    refine ⟨itr₁, if_neg (not_not.mpr heq), .inl ⟨_, e, hon, hek ▸ le_rfl, fun a x hlt hx => ?_⟩⟩
    obtain ⟨hg, hge⟩ := List.getElem?_eq_some_iff.mp hon.get
    obtain ⟨ha, hae⟩ := List.getElem?_eq_some_iff.mp hx
    have hsorted := pairwise_iff_getElem.mp h.sorted _ a hg ha hlt
    rw [hge, hae, hek] at hsorted
    exact hsorted
  · have habove := @Sought.above t blocks itr₁ h key bp i es hkey hs heq
    obtain ⟨itr', hprev, hcase⟩ := prev_of_inBlock h hs.in_block
    refine ⟨itr', by rw [← hprev]; exact if_pos heq, ?_⟩
    rcases hcase with ⟨g, e, hg, hon⟩ | ⟨hg, hbefore⟩
    · refine .inl ⟨g, e, hon, ?_, fun a x hlt hx => habove a x (by omega) hx⟩
      exact (not_le.mp fun hge => hs.first.below g (by omega) ⟨e, hon.get, hge⟩).le
    · exact .inr ⟨hbefore, fun a x hx => habove a x (by omega) hx⟩

/-! ## The ends -/

theorem seekToFirst_spec (h : Laid t blocks) :
    ∃ itr' e, seekToFirst t itr = some itr' ∧ OnPair blocks itr' 0 e := by
  obtain ⟨es, hes⟩ := h.exists_block h.index_pos
  rw [seekToFirst, if_neg h.index_pos.ne']
  exact load_first h hes

theorem seekToLast_spec (h : Laid t blocks) :
    ∃ itr' e, seekToLast t itr = some itr' ∧ OnPair blocks itr' (blocks.flatten.length - 1) e := by
  have hpos := h.index_pos
  obtain ⟨es, hes⟩ := h.exists_block (Nat.sub_lt hpos Nat.one_pos)
  obtain ⟨itr', e, hload, hon⟩ := @load_last t blocks itr h _ es hes
  have hlen := h.length_pos hes
  have hlast :
      position blocks (t.blockIndex.length - 1) (es.length - 1) = blocks.flatten.length - 1 := by
    have hlen' := position_last hes (by have := h.length_eq; omega)
    rw [position] at hlen' ⊢
    omega
  rw [hlast] at hon
  refine ⟨itr', e, ?_, hon⟩
  rw [seekToLast, if_neg hpos.ne', show (t.blockIndex.length : ℤ) - 1 =
    ((t.blockIndex.length - 1 : ℕ) : ℤ) by omega]
  exact hload

theorem newIterator_eq (hpos : 0 < t.blockIndex.length) :
    newIterator t = load t {} 0 BlockIterator.seekToFirst := by
  rw [newIterator, next, if_neg (by show ¬ (0 : ℤ) ≥ t.blockIndex.length; omega)]
  rfl

theorem newIterator_spec (h : Laid t blocks) :
    ∃ itr' e, newIterator t = some itr' ∧ OnPair blocks itr' 0 e := by
  obtain ⟨es, hes⟩ := h.exists_block h.index_pos
  rw [newIterator_eq h.index_pos]
  exact load_first h hes

end TableIterator

end Sst
end Autumn
