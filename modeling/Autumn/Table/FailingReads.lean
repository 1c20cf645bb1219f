import Autumn.Lib.Iterator
import Autumn.Table.Cursor
import Autumn.Table

/-!
# Table iterators and block reads that fail

A table iterator whose read of a block fails keeps the error and is not valid; `Valid` is the only
thing its callers ask for, and it does not tell a failed read from the end of the table.  `F` says
at which positions of the row stream reads fail.
-/

namespace Autumn

open Lib Y List InternalKey

namespace Sst

/-- The table while the reads at the positions in `F` fail. -/
def Table.failing (t : Table) (F : ℕ → ℕ → Bool) : Table :=
  { t with
    read := fun extentID offset => if F extentID offset then none else t.read extentID offset }

/-- The read of a block fails. -/
def Table.unreadable (t : Table) (F : ℕ → ℕ → Bool) (bp : ℕ) : Bool :=
  (t.blockIndex[bp]?).any fun bo => F bo.extentID bo.offset

theorem Table.block_failing (t : Table) (F : ℕ → ℕ → Bool) (bp : ℕ) :
    (t.failing F).block bp =
      if t.unreadable F bp then some (.error .read) else t.block bp := by
  have hneg : ¬ (bp : ℤ) < 0 := by omega
  rw [block, block, if_neg hneg, if_neg hneg, unreadable]
  show (t.blockIndex[bp]?).map _ = _
  rw [Int.toNat_natCast]
  cases t.blockIndex[bp]? with
  | none => rfl
  | some bo =>
    simp only [failing, Option.map_some, Option.any_some]
    split_ifs with h
    · rfl
    · rfl

namespace TableIterator

variable {t : Table} {F : ℕ → ℕ → Bool} {itr : TableIterator}

/-- Entering an unreadable block leaves the iterator where it is, with an error. -/
theorem load_failing (bp : ℕ) (move : BlockIterator → Option BlockIterator) :
    load (t.failing F) itr bp move =
      if t.unreadable F bp then some { itr with bpos := bp, err := some .read }
      else load t itr bp move := by
  rw [load, load, Table.block_failing]
  split_ifs <;> rfl

theorem seekHelper_failing (bp : ℕ) (key : Bytes) :
    seekHelper (t.failing F) itr bp key =
      if t.unreadable F bp then some { itr with bpos := bp, err := some .read }
      else seekHelper t itr bp key :=
  load_failing bp _

/-- `NewIterator` returns an iterator also if it cannot read the first block. -/
theorem exists_newIterator_failing {blocks : List (List KV)} (h : Laid t blocks)
    (F : ℕ → ℕ → Bool) : ∃ itr, newIterator (t.failing F) = some itr := by
  obtain ⟨es, hes⟩ := h.exists_block h.index_pos
  obtain ⟨itr', _, hload, _⟩ := @load_first t blocks {} h 0 es hes
  have hpos : 0 < (t.failing F).blockIndex.length := h.index_pos
  rw [newIterator_eq hpos]
  show ∃ itr, load (t.failing F) {} ((0 : ℕ) : ℤ) _ = some itr
  rw [load_failing, hload]
  split_ifs
  · exact ⟨_, rfl⟩
  · exact ⟨_, rfl⟩

end TableIterator

/-- Some pair of the block is not below the key. -/
def reachedIn (blocks : List (List KV)) (key : Bytes) (bp : ℕ) : Bool :=
  (blocks[bp]?).any fun es =>
    es.any fun x => decide (InternalKey.ofBytes key ≤ InternalKey.ofBytes x.1)

/-- The blocks that a seek reads if they can be read: the last one that does not start above the
key, or the first one, and the next one if everything in it is below the key. -/
def seekReads (t : Table) (blocks : List (List KV)) (key : Bytes) : List ℕ :=
  match TableIterator.searchBlocks t key with
  | none => []
  | some 0 => [0]
  | some (idx + 1) =>
    if reachedIn blocks key idx = true ∨ idx + 1 = t.blockIndex.length then [idx]
    else [idx, idx + 1]

namespace TableIterator

variable {t : Table} {F : ℕ → ℕ → Bool} {itr : TableIterator} {blocks : List (List KV)}
    {key : Bytes}

/-- In one block, the end is reached just if all its pairs are below the key. -/
theorem seekHelper_err (h : Laid t blocks) (hkey : 8 ≤ key.length) {bp : ℕ} {es : List KV}
    (hes : blocks[bp]? = some es) :
    ∃ itr', seekHelper t itr bp key = some itr' ∧
      itr'.err = if reachedIn blocks key bp then none else some .eof := by
  obtain ⟨itr', r, hseek, _, hfirst, herr⟩ := @seekHelper_spec t blocks itr h key hkey bp es hes
  have hiff : r < es.length ↔ reachedIn blocks key bp = true := by
    rw [reachedIn, hes, Option.any_some, any_eq_true]
    constructor
    · intro hr
      obtain ⟨e, he, hle⟩ := hfirst.at_lt hr
      exact ⟨e, mem_of_getElem? he, decide_eq_true hle⟩
    · rintro ⟨x, hx, hle⟩
      obtain ⟨i, hi, rfl⟩ := mem_iff_getElem.mp hx
      by_contra hr
      exact hfirst.below i (by omega) ⟨_, getElem?_eq_getElem hi, of_decide_eq_true hle⟩
  exact ⟨itr', hseek, herr.trans (if_congr hiff rfl rfl)⟩

/-- **A seek whose blocks can be read is not affected**, and one that meets an unreadable block ends
with an error. -/
theorem seekFrom_failing (h : Laid t blocks) (hkey : 8 ≤ key.length) (F : ℕ → ℕ → Bool)
    (itr : TableIterator) :
    (∀ bp ∈ seekReads t blocks key, t.unreadable F bp = false) ∧
        seekFrom (t.failing F) itr key = seekFrom t itr key ∨
      (∃ bp ∈ seekReads t blocks key, t.unreadable F bp = true) ∧
        ∃ itr', seekFrom (t.failing F) itr key = some itr' ∧ itr'.err = some .read := by
  obtain ⟨idx, hsearch, hidx⟩ := searchBlocks_spec h hkey
  have hsearch' : searchBlocks (t.failing F) key = some idx := hsearch
  rw [seekReads, hsearch, seekFrom, seekFrom, if_neg (not_lt.mpr hkey), if_neg (not_lt.mpr hkey),
    hsearch, hsearch']
  cases idx with
  | zero =>
    have hzero := @seekHelper_failing t F { itr with bpos := 0, err := none } 0 key
    cases hread : t.unreadable F 0 with
    | true => exact .inr ⟨⟨0, .head _, hread⟩, _, hzero.trans (if_pos hread), rfl⟩
    | false =>
      refine .inl ⟨by simpa using hread, hzero.trans (if_neg ?_)⟩
      exact ne_true_of_eq_false hread
  | succ idx =>
    obtain ⟨es, hes⟩ := h.exists_block (Nat.lt_of_succ_le hidx.le)
    obtain ⟨itr₁, hseek, herr⟩ :=
      @seekHelper_err t { itr with bpos := 0, err := none } blocks key h hkey idx es hes
    have hfirst := @seekHelper_failing t F { itr with bpos := 0, err := none } idx key
    dsimp only
    rw [hfirst, hseek]
    cases hread : t.unreadable F idx with
    | true => exact .inr ⟨⟨idx, by split_ifs <;> simp, hread⟩, _, rfl, rfl⟩
    | false =>
      rw [if_neg Bool.false_ne_true]
      dsimp only
      rw [herr]
      by_cases hstay : reachedIn blocks key idx = true ∨ idx + 1 = t.blockIndex.length
      · -- The seek ends in this block.
        refine .inl ⟨by simpa [hstay] using hread, ?_⟩
        rcases hstay with habove | hlast
        · rw [if_pos habove, if_neg (by simp), if_neg (by simp)]
        · exact if_congr Iff.rfl ((if_pos hlast).trans (if_pos hlast).symm) rfl
      · obtain ⟨habove, hlast⟩ := not_or.mp hstay
        have hnext := @seekHelper_failing t F itr₁ (idx + 1) key
        have hlast' : ¬ idx + 1 = (t.failing F).blockIndex.length := hlast
        rw [if_neg hstay, if_neg habove, if_pos rfl, if_pos rfl, if_neg hlast, if_neg hlast']
        cases hread' : t.unreadable F (idx + 1) with
        | true => exact .inr ⟨⟨idx + 1, by simp, hread'⟩, _, hnext.trans (if_pos hread'), rfl⟩
        | false =>
          refine .inl ⟨by simp [hread, hread'], hnext.trans (if_neg ?_)⟩
          exact ne_true_of_eq_false hread'

end TableIterator

/-! ## From the start on -/

/-- The iterator over a table as a merge iterator uses it. -/
def tableIterator (t : Table) : Iterator InternalKey ValueStruct where
  State := TableIterator
  init := {}
  valid := TableIterator.valid
  key := fun itr => some (InternalKey.ofBytes itr.key)
  value := TableIterator.value
  next := TableIterator.next t 2
  rewind := TableIterator.seekToFirst t
  seek := fun k itr => TableIterator.seekFrom t itr k.bytes

/-- The first block that cannot be read, or the number of blocks. -/
def Table.firstUnreadable (t : Table) (F : ℕ → ℕ → Bool) : ℕ :=
  (List.range t.blockIndex.length).findIdx (t.unreadable F)

theorem Table.isFirst_firstUnreadable (t : Table) (F : ℕ → ℕ → Bool) :
    IsFirst (fun bp => t.unreadable F bp = true) t.blockIndex.length (t.firstUnreadable F) := by
  have hlen : (List.range t.blockIndex.length).length = t.blockIndex.length := length_range
  refine ⟨hlen ▸ findIdx_le_length, fun a ha htrue => ?_, fun hlt => ?_⟩
  · have hnot := not_of_lt_findIdx ha
    rw [getElem_range] at hnot
    exact Bool.false_ne_true (hnot.symm.trans htrue)
  · have hlt' : (List.range t.blockIndex.length).findIdx (t.unreadable F) <
        (List.range t.blockIndex.length).length := hlen.symm ▸ hlt
    have hat : t.unreadable F ((List.range t.blockIndex.length).get ⟨_, hlt'⟩) = true :=
      findIdx_getElem
    rwa [get_eq_getElem, getElem_range] at hat

/-- The pairs of the blocks in front of the first one that cannot be read. -/
def delivered (t : Table) (F : ℕ → ℕ → Bool) (blocks : List (List KV)) : List KV :=
  (blocks.take (t.firstUnreadable F)).flatten

theorem length_delivered (t : Table) (F : ℕ → ℕ → Bool) (blocks : List (List KV)) :
    (delivered t F blocks).length = position blocks (t.firstUnreadable F) 0 := by
  rw [delivered, position, Nat.add_zero]

theorem delivered_eq_take (t : Table) (F : ℕ → ℕ → Bool) (blocks : List (List KV)) :
    delivered t F blocks = blocks.flatten.take (delivered t F blocks).length := by
  have hsplit : blocks.flatten =
      delivered t F blocks ++ (blocks.drop (t.firstUnreadable F)).flatten := by
    rw [delivered, ← flatten_append, take_append_drop]
  conv_rhs => rw [hsplit, take_left]

theorem position_zero_mono {blocks : List (List KV)} {bp bp' : ℕ} (h : bp ≤ bp') :
    position blocks bp 0 ≤ position blocks bp' 0 := by
  obtain ⟨d, rfl⟩ := Nat.exists_eq_add_of_le h
  rw [position, position, take_add, flatten_append, length_append]
  omega

namespace TableIterator

variable {t : Table} {F : ℕ → ℕ → Bool} {itr : TableIterator} {blocks : List (List KV)}

/-- Where the iterator is in an iteration from the start: at one of the pairs that can be delivered,
or invalid behind them. -/
def InFront (t : Table) (F : ℕ → ℕ → Bool) (blocks : List (List KV)) (itr : TableIterator) (g : ℕ) :
    Prop :=
  (g < (delivered t F blocks).length ∧ ∃ e, OnPair blocks itr g e) ∨
    (g = (delivered t F blocks).length ∧ itr.err ≠ none)

/-- A block in front of the first unreadable one is delivered. -/
theorem position_lt_delivered (h : Laid t blocks) {bp : ℕ} (hbp : bp < t.firstUnreadable F) :
    position blocks bp 0 < (delivered t F blocks).length ∧
      position blocks (bp + 1) 0 ≤ (delivered t F blocks).length := by
  obtain ⟨es, hes⟩ := h.exists_block (hbp.trans_le (t.isFirst_firstUnreadable F).le)
  have hsucc := position_succ_block hes
  have hmono : position blocks (bp + 1) 0 ≤ position blocks (t.firstUnreadable F) 0 :=
    position_zero_mono hbp
  have hlen := h.length_pos hes
  have hlt : position blocks bp 0 < position blocks bp es.length := Nat.add_lt_add_left hlen _
  rw [length_delivered]
  omega

/-- Entering a block that no unreadable one lies in front of. -/
theorem inFront_load (h : Laid t blocks) {bp : ℕ} (hle : bp ≤ t.firstUnreadable F)
    (hbp : bp < t.blockIndex.length) (itr : TableIterator) :
    ∃ itr', load (t.failing F) itr bp BlockIterator.seekToFirst = some itr' ∧
      InFront t F blocks itr' (position blocks bp 0) := by
  have hfirst := t.isFirst_firstUnreadable F
  rw [load_failing]
  rcases hle.lt_or_eq with hlt | rfl
  · obtain ⟨es, hes⟩ := h.exists_block hbp
    obtain ⟨itr', e, hload, hon⟩ := @load_first t blocks itr h bp es hes
    rw [if_neg (hfirst.below bp hlt)]
    exact ⟨itr', hload, .inl ⟨(position_lt_delivered h hlt).1, e, hon⟩⟩
  · exact ⟨_, if_pos (hfirst.at_lt hbp), .inr ⟨(length_delivered t F blocks).symm, by simp⟩⟩

theorem inFront_rewind (h : Laid t blocks) (F : ℕ → ℕ → Bool) (itr : TableIterator) :
    ∃ itr', seekToFirst (t.failing F) itr = some itr' ∧ InFront t F blocks itr' 0 := by
  have hne : ¬ (t.failing F).blockIndex.length = 0 := h.index_pos.ne'
  rw [seekToFirst, if_neg hne]
  exact inFront_load h (Nat.zero_le _) h.index_pos itr

theorem InFront.next (h : Laid t blocks) {g : ℕ} (hlt : g < (delivered t F blocks).length)
    (hin : InFront t F blocks itr g) :
    ∃ itr', next (t.failing F) 2 itr = some itr' ∧ InFront t F blocks itr' (g + 1) := by
  obtain ⟨_, e, hon⟩ := hin.resolve_right fun hend => hlt.ne hend.1
  obtain ⟨bp, es, i, hblock, hi, rfl⟩ := hon.in_block
  -- The block lies in front of the first unreadable one.
  have hbp : bp < t.firstUnreadable F := by
    by_contra hge
    have hmono := @position_zero_mono blocks _ _ (not_lt.mp hge)
    rw [length_delivered] at hlt
    rw [position] at hmono hlt
    rw [position] at hmono
    rw [position] at hlt
    omega
  obtain ⟨bi, itr', hat, -, hnext⟩ := exists_next_eq h hblock
  rw [hnext (t.failing F) rfl]
  split_ifs with hi' hlast
  · refine ⟨_, rfl, .inl ⟨lt_of_lt_of_le ?_ (position_lt_delivered h hbp).2,
      onPair_succ hblock hi' hat⟩⟩
    rw [position_succ_block hblock.get, position, position]
    omega
  · rw [position_add_one hblock.get hi hi']
    exact inFront_load h hbp hlast itr'
  · refine ⟨_, rfl, .inr ⟨?_, by simp⟩⟩
    have hle := (t.isFirst_firstUnreadable F).le
    rw [position_add_one hblock.get hi hi', length_delivered,
      show t.firstUnreadable F = bp + 1 by omega]

end TableIterator

/-! ## Open tables -/

/-- The pair that an entry of a block stands for. -/
def pairOf (x : KV) : Pair := (InternalKey.ofBytes x.1, x.2.decoded)

/-- An open table: its blocks hold pairs in order, its range is theirs, and its bloom filter has the
hashes of their user keys. -/
structure OpenTable (fingerprint : Bytes → ℕ) extends Table where
  blocks : List (List KV)
  laid : Laid toTable blocks
  smallest_eq : blocks.flatten.head?.map Prod.fst = some toTable.smallest
  biggest_eq : blocks.flatten.getLast?.map Prod.fst = some toTable.biggest
  filter : ∀ x ∈ blocks.flatten, toTable.doesNotHave (fingerprint (Raw.parseKey x.1)) = false

theorem pairwise_map_pairOf {l : List KV} (h : l.Pairwise fun x y => ofBytes x.1 < ofBytes y.1) :
    (l.map pairOf).Pairwise fun x y => x.1 < y.1 :=
  pairwise_map.mpr h

namespace OpenTable

variable {fingerprint : Bytes → ℕ}

/-- The sorted run that an open table stands for. -/
def run (T : OpenTable fingerprint) : Autumn.Table where
  data := ⟨T.blocks.flatten.map pairOf, pairwise_map_pairOf T.laid.sorted⟩
  puts := T.blocks.flatten.map pairOf
  mem_puts := fun _ hx => hx
  exists_key := fun x hx => ⟨x, hx, rfl⟩
  decoded_eq := by
    intro x hx
    obtain ⟨y, _, rfl⟩ := List.mem_map.mp hx
    rfl
  lastSeq := T.lastSeq
  vpExtentID := T.vpExtentID
  vpOffset := T.vpOffset
  entries_ne_nil := fun h =>
    absurd (List.map_eq_nil_iff.mp h) (List.ne_nil_of_length_pos T.laid.flatten_pos)

theorem mem_run {T : OpenTable fingerprint} {x : Pair} :
    x ∈ T.run.toSortedRun ↔ ∃ y ∈ T.blocks.flatten, pairOf y = x :=
  mem_map

/-- The pairs an iteration from the start delivers. -/
def front (T : OpenTable fingerprint) (F : ℕ → ℕ → Bool) : List KV := delivered T.toTable F T.blocks

/-- **An iteration over a table ends at the first block that cannot be read**, as if the table ended
there. -/
theorem runs_failing (T : OpenTable fingerprint) (F : ℕ → ℕ → Bool) :
    Runs (tableIterator (T.failing F)) ((T.front F).map pairOf) fun itr l =>
      ∃ g, TableIterator.InFront T.toTable F T.blocks itr g ∧
        l = ((T.front F).drop g).map pairOf := by
  -- In front of a pair, the iterator is on it.
  have hcons : ∀ {itr : TableIterator} {g : ℕ} {x : Pair} {l : List Pair},
      TableIterator.InFront T.toTable F T.blocks itr g → x :: l = ((T.front F).drop g).map pairOf →
      g < (T.front F).length ∧ l = ((T.front F).drop (g + 1)).map pairOf ∧
        ∃ e, OnPair T.blocks itr g e ∧ x = pairOf e := by
    intro itr g x l hin hl
    have hlt : g < (T.front F).length := by
      by_contra hge
      rw [drop_eq_nil_of_le (not_lt.mp hge)] at hl
      exact cons_ne_nil _ _ hl
    rw [drop_eq_getElem_cons hlt, map_cons, cons.injEq] at hl
    obtain ⟨hlt', e, hon⟩ := hin.resolve_right fun hend => hlt.ne hend.1
    have hget : (T.front F)[g]? = some e := by
      rw [front, delivered_eq_take, getElem?_take_of_lt hlt', hon.get]
    rw [getElem?_eq_getElem hlt, Option.some_inj] at hget
    exact ⟨hlt, hl.2, e, hon, hget ▸ hl.1⟩
  refine ⟨?_, ?_, ?_, ?_, fun itr => ?_⟩
  · rintro itr l ⟨g, ⟨hlt, e, hon⟩ | ⟨rfl, herr⟩, rfl⟩
    · have hne : ((T.front F).drop g).map pairOf ≠ [] := by
        rw [Ne, map_eq_nil_iff, drop_eq_nil_iff]
        exact not_le.mpr hlt
      show itr.err.isNone = _
      rw [hon.err_eq]
      simpa using hne
    · show itr.err.isNone = _
      have hnil : (T.front F).drop (delivered T.toTable F T.blocks).length = [] :=
        drop_eq_nil_of_le le_rfl
      rw [hnil]
      cases heq : itr.err with
      | none => exact absurd heq herr
      | some _ => rfl
  · rintro itr x l ⟨g, hin, hl⟩
    obtain ⟨_, _, e, hon, rfl⟩ := hcons hin hl
    show some (ofBytes itr.bi.key) = _
    rw [hon.key_eq]
    rfl
  · rintro itr x l ⟨g, hin, hl⟩
    obtain ⟨_, _, e, hon, rfl⟩ := hcons hin hl
    show ValueStruct.decode itr.bi.val = _
    rw [hon.val_eq]
    exact ValueStruct.decode_encode (T.laid.fits e (mem_of_getElem? hon.get)).value.expiresAt_lt
  · rintro itr x l ⟨g, hin, hl⟩
    obtain ⟨hlt, hl, _⟩ := hcons hin hl
    obtain ⟨itr', hnext, hin'⟩ := hin.next T.laid hlt
    exact ⟨itr', hnext, g + 1, hin', hl⟩
  · obtain ⟨itr', hrewind, hin⟩ := TableIterator.inFront_rewind T.laid F itr
    exact ⟨itr', hrewind, 0, hin, rfl⟩

/-- A block that holds the pairs and nothing else. -/
def blockOf (es : List KV) : Block where
  data := content es
  blockLength := (content es).length
  userData := { unCompressedSize := (content es).length }

/-- A table of one pair, in a block of its own at the start of an extent.  Its filter excludes
nothing. -/
def single (x : KV) (hx : Fits x) (hlen : (content [x]).length < 2 ^ 32) (extentID lastSeq : ℕ) :
    OpenTable fingerprint where
  read := fun _ _ => some [blockOf [x]]
  blockIndex := [⟨x.1, extentID, 0⟩]
  smallest := x.1
  biggest := x.1
  estimatedSize := 0
  has := fun _ => true
  extentID := extentID
  offset := 0
  lastSeq := lastSeq
  vpExtentID := 0
  vpOffset := 0
  blocks := [[x]]
  laid := by
    have hzero : ∀ {bp : ℕ} {es : List KV}, [[x]][bp]? = some es → bp = 0 ∧ es = [x] := by
      intro bp es h
      obtain ⟨hbp, rfl⟩ := List.getElem?_eq_some_iff.mp h
      obtain rfl : bp = 0 := Nat.lt_one_iff.mp hbp
      exact ⟨rfl, rfl⟩
    refine ⟨rfl, ?_, ?_, by simp, by simpa using hx, by simp, by simp⟩
    · intro bp es h
      obtain ⟨rfl, rfl⟩ := hzero h
      exact ⟨blockOf [x], rfl, rfl, List.prefix_rfl, hlen⟩
    · intro bp es h
      obtain ⟨rfl, rfl⟩ := hzero h
      exact ⟨_, rfl, rfl⟩
  smallest_eq := rfl
  biggest_eq := rfl
  filter := fun _ _ => rfl

end OpenTable

end Sst

end Autumn
