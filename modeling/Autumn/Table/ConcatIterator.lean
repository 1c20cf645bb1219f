import Autumn.Table.ShownPairs
import Mathlib.Data.List.TakeWhile

/-!
# The iterator over tables with ascending ranges

`ConcatIterator` goes through tables whose key ranges are disjoint and ascending, in either
direction.  The iterators of its tables are made when they are entered for the first time and are
used again afterwards, wherever they stand.  `concat_yields`: on tables that were built, the
iterations are complete exactly if no key has more than 65531 bytes.
-/

namespace Autumn

open Lib Y List Option Function InternalKey

namespace Sst

/-! ## The source -/

/-- `ConcatIterator`.  There is a place for the iterator of each table, `none` until it is
needed. -/
structure ConcatIterator where
  idx : ℤ := -1
  iters : ℕ → Option TableIterator := fun _ => none

namespace ConcatIterator

variable (tables : List Table) (reversed : Bool)

/-- The index is one of a table. -/
def InRange (idx : ℤ) : Prop := 0 ≤ idx ∧ idx < tables.length

instance (idx : ℤ) : Decidable (InRange tables idx) := inferInstanceAs (Decidable (_ ∧ _))

/-- `cur`: the iterator with the index `idx`, `nil` if that is out of range. -/
def cur (s : ConcatIterator) : Option TableIterator :=
  if InRange tables s.idx then s.iters s.idx.toNat else none

/-- `Valid`. -/
def valid (s : ConcatIterator) : Bool := (s.cur tables).any TableIterator.valid

/-- `Key`. -/
def key (s : ConcatIterator) : Option Bytes := (s.cur tables).map TableIterator.key

/-- `Value`. -/
def value (s : ConcatIterator) : Option ValueStruct := (s.cur tables).bind TableIterator.value

/-- `setIdx`. -/
def setIdx (s : ConcatIterator) (idx : ℤ) : Option ConcatIterator :=
  if InRange tables idx ∧ s.iters idx.toNat = none then
    ((tables[idx.toNat]?).bind TableIterator.newIterator).map fun itr =>
      ⟨idx, Function.update s.iters idx.toNat (some itr)⟩
  else some { s with idx := idx }

/-- A call of a method of `cur`; `none` if that is `nil`. -/
def call (s : ConcatIterator) (op : TableIterator.Op) : Option ConcatIterator := do
  let itr ← s.cur tables
  let t ← tables[s.idx.toNat]?
  let itr ← TableIterator.step t reversed itr op
  some { s with iters := Function.update s.iters s.idx.toNat (some itr) }

/-- `Rewind`. -/
def rewind (s : ConcatIterator) : Option ConcatIterator :=
  if tables.length = 0 then some s
  else do
    let s ← setIdx tables s (if reversed then (tables.length : ℤ) - 1 else 0)
    call tables reversed s .rewind

/-- `CompareKeys`, which dies at slices of fewer than eight bytes. -/
def compareKeys (key1 key2 : Bytes) : Option Ordering :=
  if 8 ≤ key1.length ∧ 8 ≤ key2.length then some (Raw.compareKeys key1 key2) else none

/-- The index of the table to look in, by binary search. -/
def searchTables (key : Bytes) : Option ℤ :=
  let n := tables.length
  if reversed then
    (search (fun i (_ : Unit) => (tables[n - 1 - i]?).bind fun t =>
      (compareKeys t.smallest key).map fun o => (decide (o ≠ .gt), ())) n ()).map fun r =>
        (n : ℤ) - 1 - r.1
  else
    (search (fun i (_ : Unit) => (tables[i]?).bind fun t =>
      (compareKeys t.biggest key).map fun o => (decide (o ≠ .lt), ())) n ()).map fun r => (r.1 : ℤ)

/-- `Seek`. -/
def seek (key : Bytes) (s : ConcatIterator) : Option ConcatIterator := do
  let idx ← searchTables tables reversed key
  if InRange tables idx then do
    let s ← setIdx tables s idx
    call tables reversed s (.seek key)
  else setIdx tables s (-1)

/-- The loop of `Next`: on to the next table that is not empty. -/
def nextLoop : ℕ → ConcatIterator → Option ConcatIterator
  | 0, _ => none
  | fuel + 1, s => do
    let s ← setIdx tables s (if reversed then s.idx - 1 else s.idx + 1)
    if (s.cur tables).isNone then some s
    else do
      let s ← call tables reversed s .rewind
      if s.valid tables then some s else nextLoop fuel s

/-- `Next`. -/
def next (s : ConcatIterator) : Option ConcatIterator := do
  let s ← call tables reversed s .next
  if s.valid tables then some s else nextLoop tables reversed (tables.length + 1) s

/-- The iterator as its callers use it. -/
def iterator : Iterator InternalKey ValueStruct where
  State := ConcatIterator
  init := {}
  valid := valid tables
  key := fun s => (s.key tables).map InternalKey.ofBytes
  value := value tables
  next := next tables reversed
  rewind := rewind tables reversed
  seek := fun k => seek tables reversed k.bytes

end ConcatIterator

/-! ## What is left of a list -/

namespace Cursor

/-- The pairs that come from a cursor on. -/
def rest (l : List KV) (reversed : Bool) : Option ℕ → List KV
  | none => []
  | some g => (visiting reversed l).drop (place reversed l.length g)

variable {l : List KV} {reversed : Bool}

theorem visits_eq : visits l reversed = (List.range l.length).map (place reversed l.length) := by
  cases reversed with
  | false => exact (map_id _).symm
  | true =>
    refine ext_getElem (by simp [visits]) fun i hi _ => ?_
    simp [visits, place]

theorem rest_rewind (c : Option ℕ) :
    rest l reversed (step l reversed c .rewind) = visiting reversed l := by
  show rest l reversed (visits l reversed).head? = _
  rw [visits_eq, head?_map, head?_range]
  split_ifs with h
  · rw [length_eq_zero_iff.mp h]
    cases reversed <;> rfl
  · show (visiting reversed l).drop (place reversed l.length (place reversed l.length 0)) = _
    rw [place_place (Nat.pos_of_ne_zero h), drop_zero]

theorem rest_find (q : KV → Bool) :
    rest l reversed ((visits l reversed).find? fun i => (l[i]?).any q) =
      (visiting reversed l).dropWhile fun x => !q x := by
  have hlen := @length_visiting _ reversed l
  rw [visits_eq, find?_map, ← hlen, find?_range_of_any (q := q) fun k hk => by
    rw [comp_apply, hlen, getElem?_place (hlen ▸ hk)], dropWhile_eq_drop_findIdx_not]
  simp only [Bool.not_not]
  split_ifs with h
  · rw [hlen] at h ⊢
    exact congrArg (drop · _) (place_place h)
  · exact (drop_of_length_le (not_lt.mp h)).symm

theorem rest_next {g : ℕ} (hg : g < l.length) :
    rest l reversed (step l reversed (some g) .next) = (rest l reversed (some g)).tail := by
  show rest l reversed (if reversed then _ else _) = _
  rw [rest, tail_drop]
  cases reversed with
  | false =>
    simp only [Bool.false_eq_true, if_false, place]
    split_ifs with h
    · rfl
    · exact (drop_of_length_le (not_lt.mp h)).symm
  | true =>
    simp only [if_true, place]
    split_ifs with h
    · refine (drop_of_length_le ?_).symm
      rw [length_visiting]
      omega
    · show (visiting true l).drop (l.length - 1 - (g - 1)) = _
      congr 1
      omega

end Cursor

/-! ## One table -/

namespace OpenTable

variable {fingerprint : Bytes → ℕ} {T : OpenTable fingerprint} {reversed : Bool}
    {itr : TableIterator}

/-- The pairs of a table. -/
def pairs (T : OpenTable fingerprint) : List Pair := T.blocks.flatten.map pairOf

/-- The iterator stands in front of the pairs `r`. -/
def Facing (T : OpenTable fingerprint) (reversed : Bool) (itr : TableIterator)
    (r : List Pair) : Prop :=
  ∃ c, TableIterator.Follows T.toTable T.blocks reversed itr c ∧
    r = (Cursor.rest T.blocks.flatten reversed c).map pairOf

theorem Facing.cases {r : List Pair} (h : T.Facing reversed itr r) :
    (r = [] ∧ itr.valid = false) ∨ ∃ x r', r = x :: r' ∧ itr.valid = true ∧
      8 ≤ itr.key.length ∧ ofBytes itr.key = x.1 ∧ itr.value = some x.2 ∧
      ∃ itr', TableIterator.step T.toTable reversed itr .next = some itr' ∧
        T.Facing reversed itr' r' := by
  obtain ⟨c, hc, rfl⟩ := h
  have hshows := shows_of_follows T.laid hc
  cases c with
  | none => exact .inl ⟨rfl, hshows⟩
  | some g =>
    obtain ⟨hvalid, x, hx, hkey, hvalue⟩ := hshows
    have hg := (List.getElem?_eq_some_iff.mp hx).1
    have hlen := (T.laid.fits x (mem_of_getElem? hx)).key.len_ge
    obtain ⟨itr', hnext, hc'⟩ := TableIterator.next_follows T.laid reversed hc
    rw [← @place_place reversed _ _ hg, getElem?_place (place_lt hg)] at hx
    obtain ⟨hlt, hx⟩ := List.getElem?_eq_some_iff.mp hx
    have hrest : Cursor.rest T.blocks.flatten reversed (some g) =
        x :: (Cursor.rest T.blocks.flatten reversed (some g)).tail := by
      rw [Cursor.rest, drop_eq_getElem_cons hlt, hx, tail_cons]
    refine .inr ⟨pairOf x, _, by rw [hrest, map_cons], hvalid, hkey ▸ hlen, congrArg _ hkey,
      hvalue, itr', hnext, _, hc', by rw [Cursor.rest_next hg]⟩

theorem facing_rewind (T : OpenTable fingerprint) (reversed : Bool) (itr : TableIterator) :
    ∃ itr', TableIterator.step T.toTable reversed itr .rewind = some itr' ∧
      T.Facing reversed itr' (visiting reversed T.pairs) := by
  refine (TableIterator.rewind_follows T.laid reversed none).imp fun itr' h => ⟨h.1, _, h.2, ?_⟩
  rw [Cursor.rest_rewind, pairs, visiting_map]

theorem facing_seek (T : OpenTable fingerprint) (reversed : Bool) {target : Bytes}
    (ht : 8 ≤ target.length) (itr : TableIterator) :
    ∃ itr', TableIterator.step T.toTable reversed itr (.seek target) = some itr' ∧
      T.Facing reversed itr'
        (fromKey reversed (ofBytes target) (visiting reversed T.pairs)) := by
  refine (TableIterator.seek_follows T.laid reversed ht none).imp fun itr' h => ⟨h.1, _, h.2, ?_⟩
  rw [pairs, visiting_map, fromKey, dropWhile_map]
  refine congrArg _ (.trans (dropWhile_congr_mem fun x hx => ?_) (Cursor.rest_find _).symm)
  rw [Bool.eq_iff_iff, Raw.compareKeys_eq (T.laid.fits x (mem_visiting.mp hx)).key.len_ge ht,
    comp_apply, decide_eq_true_iff, Bool.not_eq_true', decide_eq_false_iff_not, not_not]
  cases reversed with
  | false => exact (cmp_eq_lt_iff _ _).symm
  | true => exact (cmp_eq_gt_iff _ _).symm

theorem run_seek (T : OpenTable fingerprint) (k : InternalKey) :
    T.run.data.seek k = (fromKey false k (visiting false T.pairs)).head? := by
  rw [fromKey, ← find?_not_eq_head?_dropWhile]
  exact congrArg (find? · T.pairs) (funext fun x => by simp [← not_lt])

/-- The key behind which there is no other one in the direction of the iteration. -/
def ending (T : OpenTable fingerprint) (reversed : Bool) : Bytes :=
  if reversed then T.smallest else T.biggest

theorem inOrder_visiting (T : OpenTable fingerprint) (reversed : Bool) :
    InOrder reversed (visiting reversed T.pairs) :=
  inOrder_directed (pairwise_map_pairOf T.laid.sorted)

theorem ending_spec (T : OpenTable fingerprint) (reversed : Bool) :
    ∃ e ∈ T.blocks.flatten, e.1 = T.ending reversed ∧ ∀ x ∈ T.pairs,
      x.1 = ofBytes (T.ending reversed) ∨
        Before reversed x.1 (ofBytes (T.ending reversed)) := by
  have hlast :
      (visiting reversed T.blocks.flatten).getLast?.map Prod.fst = some (T.ending reversed) := by
    cases reversed with
    | false => exact T.biggest_eq
    | true =>
      rw [visiting, if_pos rfl, getLast?_reverse]
      exact T.smallest_eq
  obtain ⟨e, he, hkey⟩ := map_eq_some_iff.mp hlast
  obtain ⟨init, hl⟩ := getLast?_eq_some_iff.mp he
  have hmem : e ∈ T.blocks.flatten := mem_visiting.mp (hl ▸ mem_concat_self)
  refine ⟨e, hmem, hkey, fun x hx => ?_⟩
  have horder := T.inOrder_visiting reversed
  have hvisit : visiting reversed T.pairs = init.map pairOf ++ [pairOf e] := by
    rw [pairs, visiting_map, hl, map_append, map_singleton]
  rw [← @mem_visiting _ reversed, hvisit, mem_append, mem_singleton] at hx
  rw [hvisit] at horder
  rw [← hkey]
  rcases hx with hx | rfl
  · exact .inr ((pairwise_append.mp horder).2.2 x hx _ (.head _))
  · exact .inl rfl

theorem ending_length (T : OpenTable fingerprint) (reversed : Bool) :
    8 ≤ (T.ending reversed).length := by
  obtain ⟨e, he, hkey, _⟩ := T.ending_spec reversed
  exact hkey ▸ (T.laid.fits e he).key.len_ge

end OpenTable

/-! ## The tables together -/

namespace ConcatIterator

variable {fingerprint : Bytes → ℕ} {ts : List (OpenTable fingerprint)} {T : OpenTable fingerprint}
  {reversed : Bool} {s : ConcatIterator} {itr : TableIterator} {k : ℕ} {op : TableIterator.Op}

/-- The tables as the iterator has them. -/
def tablesOf (ts : List (OpenTable fingerprint)) : List Table := ts.map OpenTable.toTable

/-- The pairs of the tables from the one on that comes at `k`. -/
def pairsFrom (ts : List (OpenTable fingerprint)) (reversed : Bool) (k : ℕ) : List Pair :=
  ((visiting reversed ts).drop k).flatMap fun T => visiting reversed T.pairs

/-- The index of the table that comes at `k`, out of range behind the last one. -/
def idxAt (ts : List (OpenTable fingerprint)) (reversed : Bool) (k : ℕ) : ℤ :=
  if reversed then (ts.length : ℤ) - 1 - k else k

theorem pairsFrom_eq (h : (visiting reversed ts)[k]? = some T) :
    pairsFrom ts reversed k = visiting reversed T.pairs ++ pairsFrom ts reversed (k + 1) := by
  obtain ⟨hk, rfl⟩ := List.getElem?_eq_some_iff.mp h
  rw [pairsFrom, drop_eq_getElem_cons hk, flatMap_cons, pairsFrom]

theorem pairsFrom_of_le (hk : ts.length ≤ k) : pairsFrom ts reversed k = [] := by
  rw [pairsFrom, drop_of_length_le (length_visiting.trans_le hk), flatMap_nil]

theorem exists_table (reversed : Bool) (hk : k < ts.length) :
    ∃ T, (visiting reversed ts)[k]? = some T :=
  ⟨_, getElem?_eq_getElem (hk.trans_eq length_visiting.symm)⟩

theorem lt_length (h : (visiting reversed ts)[k]? = some T) : k < ts.length :=
  length_visiting ▸ (List.getElem?_eq_some_iff.mp h).1

theorem inRange_idxAt : InRange (tablesOf ts) (idxAt ts reversed k) ↔ k < ts.length := by
  rw [InRange, tablesOf, length_map, idxAt]
  split_ifs <;> omega

theorem getElem?_tablesOf (h : (visiting reversed ts)[k]? = some T) :
    (tablesOf ts)[(idxAt ts reversed k).toNat]? = some T.toTable := by
  have hidx : (idxAt ts reversed k).toNat = place reversed ts.length k := by
    rw [idxAt, place]
    split_ifs <;> omega
  rw [hidx, tablesOf, getElem?_map, getElem?_place (lt_length h), h, map_some]

theorem idxAt_succ : (if reversed then idxAt ts reversed k - 1 else idxAt ts reversed k + 1) =
    idxAt ts reversed (k + 1) := by
  unfold idxAt
  split_ifs <;> omega

/-- The iterator is in the table that comes at `k`. -/
structure Inside (ts : List (OpenTable fingerprint)) (reversed : Bool) (s : ConcatIterator) (k : ℕ)
    (T : OpenTable fingerprint) (itr : TableIterator) : Prop where
  get : (visiting reversed ts)[k]? = some T
  idx_eq : s.idx = idxAt ts reversed k
  iters_eq : s.iters s.idx.toNat = some itr

theorem Inside.cur_eq (h : Inside ts reversed s k T itr) : s.cur (tablesOf ts) = some itr := by
  rw [cur, h.iters_eq, if_pos (h.idx_eq ▸ inRange_idxAt.mpr (lt_length h.get))]

theorem Inside.valid_eq (h : Inside ts reversed s k T itr) : s.valid (tablesOf ts) = itr.valid := by
  rw [valid, h.cur_eq, any_some]

/-- The iterator stands in front of the pairs `rest`. -/
def Facing (ts : List (OpenTable fingerprint)) (reversed : Bool) (s : ConcatIterator)
    (rest : List Pair) : Prop :=
  s.cur (tablesOf ts) = none ∧ rest = [] ∨
    ∃ k T itr r, Inside ts reversed s k T itr ∧ T.Facing reversed itr r ∧ r ≠ [] ∧
      rest = r ++ pairsFrom ts reversed (k + 1)

/-- A table is entered with the iterator that it has, or with a new one. -/
theorem setIdx_spec (s : ConcatIterator) (h : (visiting reversed ts)[k]? = some T) :
    ∃ s' itr, setIdx (tablesOf ts) s (idxAt ts reversed k) = some s' ∧
    Inside ts reversed s' k T itr := by
  rw [setIdx]
  cases hcur : s.iters (idxAt ts reversed k).toNat with
  | some itr => exact ⟨_, itr, if_neg (by simp), h, rfl, hcur⟩
  | none =>
    obtain ⟨itr, _, hnew, _⟩ := TableIterator.newIterator_spec T.laid
    rw [if_pos ⟨inRange_idxAt.mpr (lt_length h), rfl⟩, getElem?_tablesOf h, bind_some, hnew]
    exact ⟨_, itr, rfl, h, rfl, update_self ..⟩

theorem setIdx_out (s : ConcatIterator) {idx : ℤ} (hidx : ¬ InRange (tablesOf ts) idx) :
    ∃ s', setIdx (tablesOf ts) s idx = some s' ∧ s'.cur (tablesOf ts) = none :=
  ⟨_, if_neg fun h => hidx h.1, if_neg hidx⟩

theorem call_eq {tables : List Table} {t : Table} (hcur : s.cur tables = some itr)
    (hget : tables[s.idx.toNat]? = some t) :
    call tables reversed s op = (TableIterator.step t reversed itr op).map fun itr =>
      { s with iters := update s.iters s.idx.toNat (some itr) } := by
  simp only [call, hcur, hget, bind_eq_bind, bind_some, map_eq_bind]
  rfl

theorem call_spec (h : Inside ts reversed s k T itr) {itr' : TableIterator}
    (hstep : TableIterator.step T.toTable reversed itr op = some itr') :
    ∃ s', call (tablesOf ts) reversed s op = some s' ∧ Inside ts reversed s' k T itr' := by
  rw [call_eq h.cur_eq (h.idx_eq ▸ getElem?_tablesOf h.get), hstep]
  exact ⟨_, rfl, h.get, h.idx_eq, update_self ..⟩

theorem facing_enter (s : ConcatIterator) (h : (visiting reversed ts)[k]? = some T) {r : List Pair}
    (hr : r ≠ []) (hop : ∀ itr, ∃ itr', TableIterator.step T.toTable reversed itr op = some itr' ∧
      T.Facing reversed itr' r) :
    ∃ s₁ s₂, setIdx (tablesOf ts) s (idxAt ts reversed k) = some s₁ ∧
      (s₁.cur (tablesOf ts)).isNone = false ∧ call (tablesOf ts) reversed s₁ op = some s₂ ∧
      s₂.valid (tablesOf ts) = true ∧
      Facing ts reversed s₂ (r ++ pairsFrom ts reversed (k + 1)) := by
  obtain ⟨s₁, itr₁, hset, hin₁⟩ := setIdx_spec s h
  obtain ⟨itr₂, hstep, hfacing⟩ := hop itr₁
  obtain ⟨s₂, hcall, hin₂⟩ := call_spec hin₁ hstep
  refine ⟨s₁, s₂, hset, by rw [hin₁.cur_eq]; rfl, hcall, ?_,
    .inr ⟨k, T, itr₂, r, hin₂, hfacing, hr, rfl⟩⟩
  obtain ⟨rfl, -⟩ | ⟨_, _, _, hvalid, -⟩ := hfacing.cases
  · exact absurd rfl hr
  · exact hin₂.valid_eq.trans hvalid

theorem pairs_ne_nil (T : OpenTable fingerprint) : visiting reversed T.pairs ≠ [] := by
  obtain ⟨e, he, _⟩ := T.ending_spec reversed
  exact ne_nil_of_mem (mem_visiting.mpr (mem_map_of_mem he))

/-- From a table to the pairs of the tables behind it. -/
theorem leave (h : Inside ts reversed s k T itr) (n : ℕ) :
    ∃ s', nextLoop (tablesOf ts) reversed (n + 1) s = some s' ∧
      Facing ts reversed s' (pairsFrom ts reversed (k + 1)) := by
  rw [nextLoop, h.idx_eq, idxAt_succ]
  by_cases hk : k + 1 < ts.length
  · obtain ⟨T', hT'⟩ := exists_table reversed hk
    obtain ⟨s₁, s₂, hset, hcur, hcall, hvalid, hfacing⟩ := facing_enter s hT' (pairs_ne_nil T')
      (T'.facing_rewind reversed)
    refine ⟨s₂, ?_, pairsFrom_eq hT' ▸ hfacing⟩
    simp only [hset, bind_eq_bind, bind_some, hcur, Bool.false_eq_true, if_false, hcall,
      hvalid, if_true]
  · obtain ⟨s', hset, hcur⟩ := setIdx_out s (mt inRange_idxAt.mp hk)
    refine ⟨s', ?_, .inl ⟨hcur, pairsFrom_of_le (not_lt.mp hk)⟩⟩
    rw [hset, bind_eq_bind, bind_some, hcur]
    rfl

theorem Facing.next {x : Pair} {rest : List Pair} (h : Facing ts reversed s (x :: rest)) :
    ∃ s', next (tablesOf ts) reversed s = some s' ∧ Facing ts reversed s' rest := by
  obtain ⟨_, hnil⟩ | ⟨k, T, itr, r, hin, hfacing, hne, hrest⟩ := h
  · cases hnil
  · obtain ⟨rfl, -⟩ | ⟨y, r', rfl, -, -, -, -, itr', hstep, hfacing'⟩ := hfacing.cases
    · exact absurd rfl hne
    · obtain ⟨rfl, rfl⟩ := cons.inj hrest
      obtain ⟨s₁, hcall, hin₁⟩ := call_spec hin hstep
      rw [ConcatIterator.next, hcall, bind_eq_bind, bind_some, hin₁.valid_eq]
      obtain ⟨rfl, hvalid⟩ | ⟨y, r'', rfl, hvalid, -⟩ := hfacing'.cases
      · rw [hvalid, if_neg Bool.false_ne_true]
        exact leave hin₁ _
      · rw [hvalid, if_pos rfl]
        exact ⟨s₁, rfl, .inr ⟨k, T, itr', _, hin₁, hfacing', cons_ne_nil _ _, rfl⟩⟩

theorem facing_rewind (ts : List (OpenTable fingerprint)) (reversed : Bool) (s : ConcatIterator) :
    ∃ s', rewind (tablesOf ts) reversed s = some s' ∧
    Facing ts reversed s' (pairsFrom ts reversed 0) := by
  have hidx : (if reversed then ((tablesOf ts).length : ℤ) - 1 else 0) = idxAt ts reversed 0 := by
    rw [tablesOf, length_map, idxAt]
    split_ifs <;> omega
  rw [rewind, hidx]
  by_cases hk : 0 < ts.length
  · obtain ⟨T, hT⟩ := exists_table reversed hk
    obtain ⟨s₁, s₂, hset, -, hcall, -, hfacing⟩ := facing_enter s hT (pairs_ne_nil T)
      (T.facing_rewind reversed)
    refine ⟨s₂, ?_, pairsFrom_eq hT ▸ hfacing⟩
    rw [if_neg (by rw [tablesOf, length_map]; omega), hset]
    exact hcall
  · have hzero : (tablesOf ts).length = 0 := by
      rw [tablesOf, length_map]
      omega
    refine ⟨s, if_pos hzero, .inl ⟨if_neg fun h => ?_, pairsFrom_of_le (not_lt.mp hk)⟩⟩
    have := h.1
    have := h.2
    omega

/-- The ranges of the tables are disjoint and ascending. -/
def Ascending (ts : List (OpenTable fingerprint)) : Prop :=
  ts.Pairwise fun T T' => Raw.compareKeys T.biggest T'.smallest = .lt

theorem Ascending.before (h : Ascending ts) (reversed : Bool) :
    (visiting reversed ts).Pairwise fun T T' =>
      ∀ x ∈ visiting reversed T.pairs, ∀ y ∈ visiting reversed T'.pairs,
        Before reversed x.1 y.1 := by
  have hlt : ts.Pairwise fun T T' => ∀ x ∈ T.pairs, ∀ y ∈ T'.pairs, x.1 < y.1 := by
    refine h.imp fun {T T'} hcmp x hx y hy => ?_
    have hcmp : Raw.compareKeys (T.ending false) (T'.ending true) = .lt := hcmp
    rw [Raw.compareKeys_eq (T.ending_length false) (T'.ending_length true), cmp_eq_lt_iff] at hcmp
    obtain ⟨_, _, _, hbig⟩ := T.ending_spec false
    obtain ⟨_, _, _, hsmall⟩ := T'.ending_spec true
    have hle : x.1 ≤ ofBytes (T.ending false) := (hbig x hx).elim Eq.le fun h => le_of_lt h
    have hge : ofBytes (T'.ending true) ≤ y.1 := (hsmall y hy).elim Eq.ge fun h => le_of_lt h
    exact lt_of_le_of_lt hle (lt_of_lt_of_le hcmp hge)
  simp only [mem_visiting]
  cases reversed with
  | false => exact hlt
  | true => exact pairwise_reverse.mpr (hlt.imp fun h x hx y hy => h y hy x hx)

/-- The table at `k` has a pair that does not come before the target. -/
def Reaches (ts : List (OpenTable fingerprint)) (reversed : Bool) (target : Bytes) (k : ℕ) : Prop :=
  ∃ T, (visiting reversed ts)[k]? = some T ∧
    ¬ Before reversed (InternalKey.ofBytes (T.ending reversed)) (InternalKey.ofBytes target)

variable {target : Bytes}

theorem Reaches.mono (h : Ascending ts) {a b : ℕ} (hab : a ≤ b) (hb : b < ts.length)
    (ha : Reaches ts reversed target a) : Reaches ts reversed target b := by
  obtain ⟨T, hT, hreach⟩ := ha
  rcases hab.eq_or_lt with rfl | hlt
  · exact ⟨T, hT, hreach⟩
  · obtain ⟨T', hT'⟩ := exists_table reversed hb
    refine ⟨T', hT', fun hbefore => hreach (Before.trans ?_ hbefore)⟩
    obtain ⟨e, he, hkey, _⟩ := T.ending_spec reversed
    obtain ⟨e', he', hkey', _⟩ := T'.ending_spec reversed
    obtain ⟨ha, rfl⟩ := List.getElem?_eq_some_iff.mp hT
    obtain ⟨hb, rfl⟩ := List.getElem?_eq_some_iff.mp hT'
    rw [← hkey, ← hkey']
    exact pairwise_iff_getElem.mp (h.before reversed) a b ha hb hlt (pairOf e)
      (mem_visiting.mpr (mem_map_of_mem he)) (pairOf e') (mem_visiting.mpr (mem_map_of_mem he'))

/-- The test of the search in either direction. -/
theorem test_spec (reversed : Bool) (ht : 8 ≤ target.length) (hk : k < ts.length) :
    ∃ b, (((tablesOf ts)[place reversed ts.length k]?).bind fun t =>
      (compareKeys (if reversed then t.smallest else t.biggest) target).map fun o =>
        (decide (o ≠ if reversed then .gt else .lt), ())) = some (b, ()) ∧
      (b = true ↔ Reaches ts reversed target k) := by
  obtain ⟨T, hT⟩ := exists_table reversed hk
  have hlen := T.ending_length reversed
  have hcmp : compareKeys (T.ending reversed) target =
      some (cmp (ofBytes (T.ending reversed)) (ofBytes target)) := by
    rw [compareKeys, if_pos ⟨hlen, ht⟩, Raw.compareKeys_eq hlen ht]
  rw [tablesOf, getElem?_map, getElem?_place hk, hT, map_some, bind_some]
  refine ⟨_, congrArg (Option.map _) hcmp, decide_eq_true_iff.trans ?_⟩
  have hreach : Reaches ts reversed target k ↔ ¬ Before reversed
      (ofBytes (T.ending reversed)) (ofBytes target) :=
    ⟨fun ⟨T', hget, h⟩ => some.inj (hget.symm.trans hT) ▸ h, fun h => ⟨T, hT, h⟩⟩
  rw [hreach]
  refine not_congr ?_
  cases reversed with
  | false => exact cmp_eq_lt_iff _ _
  | true => exact cmp_eq_gt_iff _ _

/-- The search finds the first table that reaches the target. -/
theorem searchTables_spec (reversed : Bool) (h : Ascending ts) (ht : 8 ≤ target.length) :
    ∃ g, IsFirst (Reaches ts reversed target) ts.length g ∧
      searchTables (tablesOf ts) reversed target = some (idxAt ts reversed g) := by
  have hlen : (tablesOf ts).length = ts.length := length_map ..
  obtain ⟨g, _, hsearch, -, hfirst⟩ := search_spec (I := fun _ : Unit => True)
    (fun _ _ hab hb ha => Reaches.mono h hab hb ha)
    (fun i _ hi _ => (test_spec reversed ht hi).imp fun b hb => ⟨(), hb.1, trivial, hb.2⟩)
    (s := ()) trivial
  refine ⟨g, hfirst, ?_⟩
  rw [searchTables, hlen]
  cases reversed with
  | false => exact congrArg (Option.map _) hsearch
  | true => exact congrArg (Option.map _) hsearch

/-- The pairs of the tables in front of one that is the first to reach the target are left out. -/
theorem fromKey_pairsFrom {g : ℕ} (hg : ∀ a < g, ¬ Reaches ts reversed target a)
    (hle : g ≤ ts.length) :
    fromKey reversed (ofBytes target) (pairsFrom ts reversed 0) =
      fromKey reversed (ofBytes target) (pairsFrom ts reversed g) := by
  induction g with
  | zero => rfl
  | succ g ih =>
    obtain ⟨T, hT⟩ := exists_table reversed hle
    rw [ih (fun a ha => hg a (Nat.lt_succ_of_lt ha)) (Nat.le_of_succ_le hle), pairsFrom_eq hT,
      fromKey]
    refine dropWhile_append_of_pos fun x hx => decide_eq_true_iff.mpr ?_
    have hbefore := not_not.mp fun hnot => hg g (Nat.lt_succ_self g) ⟨T, hT, hnot⟩
    obtain ⟨_, _, _, hend⟩ := T.ending_spec reversed
    rcases hend x (mem_visiting.mp hx) with heq | hlt
    · exact heq ▸ hbefore
    · exact hlt.trans hbefore

theorem facing_seek (reversed : Bool) (h : Ascending ts) (ht : 8 ≤ target.length)
    (s : ConcatIterator) :
    ∃ s', seek (tablesOf ts) reversed target s = some s' ∧ Facing ts reversed s'
      (fromKey reversed (ofBytes target) (pairsFrom ts reversed 0)) := by
  obtain ⟨g, hfirst, hsearch⟩ := searchTables_spec reversed h ht
  rw [seek, hsearch, bind_eq_bind, bind_some, fromKey_pairsFrom hfirst.below hfirst.le]
  by_cases hg : g < ts.length
  · obtain ⟨T, hT, hreach⟩ := hfirst.at_lt hg
    have hne : fromKey reversed (ofBytes target) (visiting reversed T.pairs) ≠ [] := by
      obtain ⟨e, he, hkey, _⟩ := T.ending_spec reversed
      intro hnil
      have := dropWhile_eq_nil_iff.mp hnil (pairOf e) (mem_visiting.mpr (mem_map_of_mem he))
      rw [decide_eq_true_iff] at this
      exact hreach (hkey ▸ this)
    obtain ⟨s₁, s₂, hset, -, hcall, -, hfacing⟩ := facing_enter s hT hne (T.facing_seek reversed ht)
    refine ⟨s₂, ?_, ?_⟩
    · rw [if_pos (inRange_idxAt.mpr hg), hset]
      exact hcall
    · rw [pairsFrom_eq hT, fromKey, dropWhile_append, if_neg (by simpa [fromKey] using hne)]
      exact hfacing
  · obtain ⟨s', hset, hcur⟩ := @setIdx_out _ ts s (-1) fun h => absurd h.1 (by decide)
    refine ⟨s', by rw [if_neg (mt inRange_idxAt.mp hg), hset], .inl ⟨hcur, ?_⟩⟩
    rw [pairsFrom_of_le (not_lt.mp hg)]
    rfl

theorem runs (ts : List (OpenTable fingerprint)) (reversed : Bool) :
    Runs (iterator (tablesOf ts) reversed) (pairsFrom ts reversed 0) (Facing ts reversed) := by
  have hcons : ∀ {s x l}, Facing ts reversed s (x :: l) → ∃ itr, s.cur (tablesOf ts) = some itr ∧
      itr.valid = true ∧ ofBytes itr.key = x.1 ∧ itr.value = some x.2 := by
    rintro s x l (⟨_, hnil⟩ | ⟨k, T, itr, r, hin, hfacing, hne, hrest⟩)
    · cases hnil
    · obtain ⟨rfl, -⟩ | ⟨y, r', rfl, hvalid, -, hkey, hvalue, -⟩ := hfacing.cases
      · exact absurd rfl hne
      · obtain ⟨rfl, -⟩ := cons.inj hrest
        exact ⟨itr, hin.cur_eq, hvalid, hkey, hvalue⟩
  refine ⟨fun {s l} h => ?_, fun {s x l} h => ?_, fun {s x l} h => ?_, fun h => h.next,
    facing_rewind ts reversed⟩
  · show (s.cur (tablesOf ts)).any _ = _
    cases l with
    | nil =>
      obtain ⟨hcur, -⟩ | ⟨_, _, _, _, -, -, hne, hnil⟩ := h
      · rw [hcur]
        rfl
      · exact absurd (append_eq_nil_iff.mp hnil.symm).1 hne
    | cons x l =>
      obtain ⟨itr, hcur, hvalid, -⟩ := hcons h
      rw [hcur]
      exact hvalid
  · obtain ⟨itr, hcur, -, hkey, -⟩ := hcons h
    show ((s.cur (tablesOf ts)).map _).map _ = _
    rw [hcur]
    exact congrArg some hkey
  · obtain ⟨itr, hcur, -, -, hvalue⟩ := hcons h
    show (s.cur (tablesOf ts)).bind _ = _
    rw [hcur]
    exact hvalue

/-- From any state, whatever the iterators of the tables are and wherever they stand, `Rewind`
starts an iteration over the pairs `l`, and `Seek` one over those that do not come before the
target. -/
def IteratesOver (tables : List Table) (reversed : Bool) (l : List Pair) : Prop :=
  ∀ s, (∃ s', rewind tables reversed s = some s' ∧
      Yields (iterator tables reversed) s' (directed reversed l)) ∧
    ∀ target : Bytes, 8 ≤ target.length → ∃ s', seek tables reversed target s = some s' ∧
      Yields (iterator tables reversed) s' ((directed reversed l).filter fun x =>
        ¬ Before reversed x.1 (InternalKey.ofBytes target))

theorem Ascending.iteratesOver (hts : Ascending ts) (reversed : Bool) :
    IteratesOver (tablesOf ts) reversed (ts.flatMap OpenTable.pairs) := by
  intro s
  have hall : directed reversed (ts.flatMap OpenTable.pairs) = pairsFrom ts reversed 0 :=
    visiting_flatMap OpenTable.pairs
  rw [hall]
  constructor
  · obtain ⟨s', hs', hfacing⟩ := facing_rewind ts reversed s
    exact ⟨s', hs', (runs ts reversed).yields hfacing⟩
  · intro target ht
    obtain ⟨s', hs', hfacing⟩ := facing_seek reversed hts ht s
    have horder : InOrder reversed (pairsFrom ts reversed 0) :=
      pairwise_flatMap.mpr ⟨fun T _ => T.inOrder_visiting reversed, hts.before reversed⟩
    rw [fromKey_eq_filter horder] at hfacing
    exact ⟨s', hs', (runs ts reversed).yields hfacing⟩

/-! ## What an iteration shows -/

section

variable {P : KV → Prop} {tables : List Table} {s' : ConcatIterator}

/-- The iterators of the tables are sound. -/
def AllSound (P : KV → Prop) (s : ConcatIterator) : Prop :=
  ∀ i itr, s.iters i = some itr → TableIterator.Sound P itr

theorem AllSound.update (h : AllSound P s) (hitr : TableIterator.Sound P itr) (idx : ℤ) (i : ℕ) :
    AllSound P ⟨idx, update s.iters i (some itr)⟩ := by
  intro j itr' hj
  dsimp only at hj
  rw [update_apply] at hj
  split_ifs at hj
  · exact some.inj hj ▸ hitr
  · exact h j itr' hj

theorem AllSound.cur (h : AllSound P s) (hcur : s.cur tables = some itr) :
    TableIterator.Sound P itr := by
  rw [ConcatIterator.cur] at hcur
  split_ifs at hcur
  exact h _ itr hcur

variable (ht : ∀ t ∈ tables, BlocksHold t P)
include ht

theorem AllSound.setIdx (h : AllSound P s) {idx : ℤ} (hs : setIdx tables s idx = some s') :
    AllSound P s' := by
  rw [ConcatIterator.setIdx] at hs
  split_ifs at hs
  · obtain ⟨itr, hnew, rfl⟩ := map_eq_some_iff.mp hs
    obtain ⟨t, hget, hnew⟩ := bind_eq_some_iff.mp hnew
    exact h.update (TableIterator.next_keeps (ht t (mem_of_getElem? hget)) (.inl rfl) hnew) _ _
  · exact some.inj hs ▸ h

theorem AllSound.call (h : AllSound P s) (hs : call tables reversed s op = some s') :
    AllSound P s' := by
  obtain ⟨itr, hcur, hs⟩ := bind_eq_some_iff.mp hs
  obtain ⟨t, hget, hs⟩ := bind_eq_some_iff.mp hs
  obtain ⟨itr', hstep, hs⟩ := bind_eq_some_iff.mp hs
  cases hs
  exact h.update (TableIterator.step_keeps (ht t (mem_of_getElem? hget))
    (h.cur hcur).loaded hstep) _ _

theorem AllSound.nextLoop (h : AllSound P s) {fuel : ℕ}
    (hs : nextLoop tables reversed fuel s = some s') : AllSound P s' := by
  induction fuel generalizing s with
  | zero => simp [ConcatIterator.nextLoop] at hs
  | succ fuel ih =>
    obtain ⟨s₁, hset, hs⟩ := bind_eq_some_iff.mp hs
    have h₁ := h.setIdx ht hset
    split_ifs at hs
    · exact some.inj hs ▸ h₁
    · obtain ⟨s₂, hcall, hs⟩ := bind_eq_some_iff.mp hs
      have h₂ := h₁.call ht hcall
      split_ifs at hs
      · exact some.inj hs ▸ h₂
      · exact ih h₂ hs

theorem AllSound.next (h : AllSound P s) (hs : next tables reversed s = some s') :
    AllSound P s' := by
  obtain ⟨s₁, hcall, hs⟩ := bind_eq_some_iff.mp hs
  have h₁ := h.call ht hcall
  split_ifs at hs
  · exact some.inj hs ▸ h₁
  · exact h₁.nextLoop ht hs

theorem AllSound.rewind (h : AllSound P s) (hs : rewind tables reversed s = some s') :
    AllSound P s' := by
  rw [ConcatIterator.rewind] at hs
  split_ifs at hs
  · exact some.inj hs ▸ h
  all_goals
    obtain ⟨s₁, hset, hs⟩ := bind_eq_some_iff.mp hs
    exact (h.setIdx ht hset).call ht hs

theorem AllSound.of_yields {s : (iterator tables reversed).State} {l : List Pair} (h : AllSound P s)
    (hl : Yields (iterator tables reversed) s l) : ∀ y ∈ l, ∃ x, P x ∧ ofBytes x.1 = y.1 := by
  induction hl with
  | nil => exact fun _ hy => absurd hy not_mem_nil
  | @cons s s' y l hvalid hkey _ hnext _ ih =>
    refine forall_mem_cons.mpr ⟨?_, ih (h.next ht hnext)⟩
    obtain ⟨itr, hcur, hitr⟩ := (any_eq_true _ _).mp hvalid
    obtain ⟨x, hx, hitrkey, -⟩ := (h.cur hcur).shows (isNone_iff_eq_none.mp hitr)
    have hkey : ((ConcatIterator.cur tables s).map TableIterator.key).map ofBytes = some y.1 := hkey
    rw [hcur, map_some, map_some, some_inj] at hkey
    exact ⟨x, hx, hitrkey ▸ hkey⟩

end

theorem exists_openTables {C : Codec} (hC : C.Faithful) {ls : List (List KV)} {tables : List Table}
    (h : List.Forall₂ (Opened C) ls tables) (hls : ∀ l ∈ ls, l ≠ [] ∧
      l.Pairwise (fun x y => Raw.compareKeys x.1 y.1 = .lt) ∧ ∀ x ∈ l, Fits x) :
    ∃ ts : List (OpenTable C.fingerprint),
      tablesOf ts = tables ∧ ts.map (fun T => T.blocks.flatten) = ls := by
  induction h with
  | nil => exact ⟨[], rfl, rfl⟩
  | cons h _ ih =>
    obtain ⟨⟨hne, hsorted, hfits⟩, hrest⟩ := forall_mem_cons.mp hls
    obtain ⟨_, _, _, T, rfl, rfl, -⟩ := (opens hC hne hsorted hfits).of_opened h
    obtain ⟨ts, rfl, rfl⟩ := ih hrest
    exact ⟨T :: ts, rfl, rfl⟩

/-- What an iteration has to show cannot have a longer key. -/
theorem IteratesOver.key_le {tables : List Table} {l : List KV}
    (h : IteratesOver tables reversed (l.map pairOf)) (hl : ∀ x ∈ l, 8 ≤ x.1.length)
    (ht : ∀ t ∈ tables, BlocksHold t fun x => x ∈ l ∧ x.1.length ≤ 65531) :
    ∀ x ∈ l, x.1.length ≤ 65531 := by
  intro x hx
  obtain ⟨⟨s, hs, hyields⟩, -⟩ := h {}
  have hsound := AllSound.rewind ht (fun _ _ hnone => by cases hnone) hs
  obtain ⟨y, ⟨hy, hle⟩, heq⟩ := hsound.of_yields ht hyields (pairOf x)
    (mem_visiting.mpr (mem_map_of_mem hx))
  exact ofBytes_inj (hl y hy) (hl x hx) heq ▸ hle

end ConcatIterator

/-- **The concatenation of tables** that were built, stored and opened, with disjoint and ascending
ranges, in both directions: the iterations are complete from every state if no key has more than
65531 bytes, and only then. -/
theorem concat_yields {C : Codec} (hC : C.Faithful) {ls : List (List KV)} {tables : List Table}
    (hopen : List.Forall₂ (Opened C) ls tables) (hne : ∀ l ∈ ls, l ≠ [])
    (hl : ∀ x ∈ ls.flatten, Buildable x)
    (hsorted : ls.flatten.Pairwise fun x y => Raw.compareKeys x.1 y.1 = .lt) (reversed : Bool) :
    ConcatIterator.IteratesOver tables reversed (ls.flatten.map pairOf) ↔
      ∀ x ∈ ls.flatten, x.1.length ≤ 65531 := by
  constructor
  · intro h
    refine h.key_le (fun x hx => (hl x hx).len_ge) fun t ht => ?_
    obtain ⟨i, hi, rfl⟩ := mem_iff_getElem.mp ht
    obtain ⟨l, hget, hopen⟩ := exists_left hopen (getElem?_eq_getElem hi)
    have hmem := mem_of_getElem? hget
    have hsub : ∀ x ∈ l, x ∈ ls.flatten := fun x hx => mem_flatten.mpr ⟨l, hmem, hx⟩
    exact hopen.blocksHold hC (fun x hx => hl x (hsub x hx)) (fun x hx hle => ⟨hsub x hx, hle⟩)
      (hne l hmem)
  · intro hle s
    obtain ⟨hsorted, hasc⟩ := pairwise_flatten.mp hsorted
    have hfits : ∀ l ∈ ls, ∀ x ∈ l, Fits x := by
      intro l hmem x hx
      have hx : x ∈ ls.flatten := mem_flatten.mpr ⟨l, hmem, hx⟩
      exact ⟨⟨(hl x hx).len_ge, hle x hx⟩, (hl x hx).value⟩
    obtain ⟨ts, rfl, rfl⟩ := ConcatIterator.exists_openTables hC hopen fun l hmem =>
      ⟨hne l hmem, hsorted l hmem, hfits l hmem⟩
    have hts : ConcatIterator.Ascending ts := by
      refine (pairwise_map.mp hasc).imp fun {T T'} h => ?_
      obtain ⟨e, he, hkey, -⟩ := T.ending_spec false
      obtain ⟨e', he', hkey', -⟩ := T'.ending_spec true
      have := h e he e' he'
      rwa [hkey, hkey'] at this
    have hpairs :
        ((ts.map fun T => T.blocks.flatten).flatten).map pairOf = ts.flatMap OpenTable.pairs := by
      rw [map_flatten, List.map_map, flatMap_def]
      rfl
    rw [hpairs]
    exact hts.iteratesOver reversed s

/-- A pair with a short key. -/
def shortPair (b : UInt8) : KV := (b :: List.replicate 8 0, {})

theorem fits_shortPair (b : UInt8) : Fits (shortPair b) :=
  ⟨⟨Nat.le_add_left 8 1, (by decide : 9 ≤ 65531)⟩, (⟨by decide, by decide⟩ : ValueFits {})⟩

/-- Two tables, of one and of two pairs. -/
def twoLists : List (List KV) := [[shortPair 0], twoPairs]

theorem fits_twoLists : ∀ x ∈ twoLists.flatten, Fits x :=
  forall_mem_cons.mpr ⟨fits_shortPair 0, forall_mem_cons.mpr
    ⟨⟨⟨by decide, by decide⟩, ⟨by decide, by decide⟩⟩, forall_mem_singleton.mpr
      ⟨⟨by decide, by decide⟩, ⟨by decide, by decide⟩⟩⟩⟩

theorem opened_twoLists : ∃ tables, List.Forall₂ (Opened Unary.codec) twoLists tables := by
  have hbuild : ∀ l ∈ twoLists, l ≠ [] ∧ (l.Pairwise fun x y => Raw.compareKeys x.1 y.1 = .lt) ∧
      (build Unary.codec.fingerprint l).any fun b => decide (b.sent.length = 1 ∧
        (Unary.codec.marshal (tableIndex Unary.codec b [⟨b.sent, 1, [0]⟩])).length ≤ 1000) := by
    decide +kernel
  have hopened : ∀ l ∈ twoLists, ∃ t, Opened Unary.codec l t := by
    intro l hl
    obtain ⟨hne, hsorted, hany⟩ := hbuild l hl
    obtain ⟨b, hb, hdec⟩ := (any_eq_true _ _).mp hany
    obtain ⟨hlen, hsize⟩ := of_decide_eq_true hdec
    obtain ⟨w, hw⟩ := length_eq_one_iff.mp hlen
    have hopens := opens Unary.codec_faithful hne hsorted fun x hx =>
      fits_twoLists x (mem_flatten.mpr ⟨l, hl, hx⟩)
    exact hopens.exists_opened hb hw (hsize.trans (by decide))
  obtain ⟨t₁, h₁⟩ := hopened [shortPair 0] (.head _)
  obtain ⟨t₂, h₂⟩ := hopened twoPairs (.tail _ (.head _))
  exact ⟨[t₁, t₂], .cons h₁ (.cons h₂ .nil)⟩

theorem concat_yields_twoLists : Unary.codec.Faithful ∧ ∃ tables,
    List.Forall₂ (Opened Unary.codec) twoLists tables ∧
    ConcatIterator.IteratesOver tables true (twoLists.flatten.map pairOf) := by
  obtain ⟨tables, hopen⟩ := opened_twoLists
  exact ⟨Unary.codec_faithful, tables, hopen, (concat_yields Unary.codec_faithful hopen (by decide)
    (fun x hx => (fits_twoLists x hx).buildable) (by decide +kernel) true).mpr
    fun x hx => (fits_twoLists x hx).key.len_le⟩

/-! ## A key that is too long for the header -/

/-- Three pairs, of which the second one has the given key. -/
def threePairs (key : Bytes) : List KV := [shortPair 0, (key, {}), shortPair 2]

/-- A table of these pairs, with a block for each of them. -/
def longTable (key : Bytes) : Table where
  read := fun _ o => ((threePairs key)[o]?).map fun x => [OpenTable.blockOf [x]]
  blockIndex := [⟨(shortPair 0).1, 1, 0⟩, ⟨key, 1, 1⟩, ⟨(shortPair 2).1, 1, 2⟩]
  smallest := (shortPair 0).1
  biggest := (shortPair 2).1
  estimatedSize := 0
  has := fun _ => true
  extentID := 1
  offset := 3
  lastSeq := 0
  vpExtentID := 0
  vpOffset := 0

theorem encodes_blockOf {key : Bytes} (hkey : key.length < 2 ^ 16) :
    Encodes (OpenTable.blockOf [(key, {})]) [(key, {})] := by
  refine ⟨rfl, prefix_rfl, ?_⟩
  have hvarint : (putUvarint 0).length = 1 := by decide
  simp [content, body, cells, entryBytes, length_encodeHeader, ValueStruct.encode, offsets,
    length_leBytes, length_beBytes, hvarint]
  omega

theorem blocksHold_longTable {key : Bytes} (hkey : key.length < 2 ^ 16) :
    BlocksHold (longTable key) fun x => x ∈ threePairs key ∧ x.1.length ≤ 65531 := by
  intro bp b hb
  rw [Table.block] at hb
  split_ifs at hb
  obtain ⟨bo, hbo, hread⟩ := map_eq_some_iff.mp hb
  have hmem : bo ∈ [⟨(shortPair 0).1, 1, 0⟩, ⟨key, 1, 1⟩, ⟨(shortPair 2).1, 1, 2⟩] :=
    mem_of_getElem? hbo
  obtain ⟨k, hk, hlen, rfl⟩ : ∃ k : Bytes, (k, {}) ∈ threePairs key ∧ k.length < 2 ^ 16 ∧
      OpenTable.blockOf [(k, {})] = b := by
    simp only [mem_cons, not_mem_nil, or_false] at hmem
    rcases hmem with rfl | rfl | rfl
    · exact ⟨_, .head _, by decide, Except.ok.inj hread⟩
    · exact ⟨_, .tail _ (.head _), hkey, Except.ok.inj hread⟩
    · exact ⟨_, .tail _ (.tail _ (.head _)), by decide, Except.ok.inj hread⟩
  exact ⟨_, encodes_blockOf hlen, forall_mem_singleton.mpr ⟨hlen, fun hle => ⟨hk, hle⟩⟩⟩

/-- **A key that cannot be shown.**  `OpenTable` accepts the table, since the first and the last key
are short, but there is no complete iteration over it. -/
theorem longKey_dies : ∃ key : Bytes, key.length = 65532 ∧
    Raw.compareKeys (shortPair 0).1 key = .lt ∧ Raw.compareKeys key (shortPair 2).1 = .lt ∧
    initBiggestAndSmallest (longTable key) = some (.ok (longTable key)) ∧
    ¬ ConcatIterator.IteratesOver [longTable key] false ((threePairs key).map pairOf) := by
  obtain ⟨rest, hrest⟩ : ∃ rest : Bytes, rest.length = 65531 :=
    ⟨replicate 65531 0, length_replicate⟩
  have hkey : (1 :: rest).length = 65532 := by rw [length_cons, hrest]
  have hparse : Raw.parseKey (1 :: rest) = 1 :: rest.take (rest.length - 8) := by
    rw [Raw.parseKey, length_cons, Nat.sub_add_comm (by omega), take_succ_cons]
  have hgt : Raw.parseKey (shortPair 0).1 < 1 :: rest.take (rest.length - 8) := .rel (by decide)
  have hlt : 1 :: rest.take (rest.length - 8) < Raw.parseKey (shortPair 2).1 := .rel (by decide)
  refine ⟨1 :: rest, hkey, ?_, ?_, rfl, fun h => ?_⟩
  · rw [Raw.compareKeys, hparse, Raw.compare, (cmp_eq_lt_iff _ _).mpr hgt]
    rfl
  · rw [Raw.compareKeys, hparse, Raw.compare, (cmp_eq_lt_iff _ _).mpr hlt]
    rfl
  · have hlen : ∀ x ∈ threePairs (1 :: rest), 8 ≤ x.1.length :=
      forall_mem_cons.mpr ⟨by decide, forall_mem_cons.mpr
        ⟨hkey.symm ▸ by decide, forall_mem_singleton.mpr (by decide)⟩⟩
    have hle := h.key_le hlen (forall_mem_singleton.mpr (blocksHold_longTable (by omega)))
      (1 :: rest, {})
      (.tail _ (.head _))
    exact absurd (hkey.symm.trans_le hle) (by decide)

end Sst
end Autumn
