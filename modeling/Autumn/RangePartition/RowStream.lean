import Autumn.Manager.Commit
import Autumn.RangePartition.Sane

/-!
# Where the tables are

A table is in the row stream: some blocks of pairs, and a block with the index at the end, each in
the extent that was the last one when the block was appended.  The partition manager has the
locations of the index blocks.  When an extent is gone that one of these names, `OpenTable` tries
again for ever.

A compaction makes new tables at the end of the stream, and then cuts off all extents in front of
the one in which the index of its last table is.  Only afterwards the locations of the new tables
replace the old ones in the partition manager.  In between the manager names tables that are not
there (`stored_but_cut`), unless all of the old tables lie behind the cut.  And if nothing is left
of the old tables, nothing is replaced, because `updateTableLocs` does not store an empty list.

These are the only ways to get there (`stored_tables_readable`), for all interleavings of the
flusher, a compaction and the writers, with a crash at any time.
-/

namespace Autumn
namespace Rows

open Lib Y Manager List Option Lsm

/-! ## The row stream -/

structure RowLocation where
  extentID : ℕ
  offset : ℕ
  deriving DecidableEq, Repr

/-- Where a table is: `Loc`, the place of its index, and the locations in its index. -/
structure Place where
  loc : RowLocation
  blocks : List RowLocation
  deriving DecidableEq, Repr

def Place.locations (p : Place) : List RowLocation := p.loc :: p.blocks

/-- What an `Append` of a block meets: the offset it gets, and the extent that is allocated if the
last one is full then. -/
structure Append where
  offset : ℕ
  newExtent : Option ℕ
  deriving DecidableEq, Repr

/-- `Append`: the location of the block, and the extents of the stream afterwards. -/
def append (exs : List ℕ) (a : Append) : Option (RowLocation × List ℕ) :=
  exs.getLast?.bind fun last =>
    match a.newExtent with
    | none => some (⟨last, a.offset⟩, exs)
    | some id => if id ∈ exs then none else some (⟨last, a.offset⟩, exs ++ [id])

def appendAll (exs : List ℕ) : List Append → Option (List RowLocation × List ℕ)
  | [] => some ([], exs)
  | a :: as => (append exs a).bind fun x => (appendAll x.2 as).map fun y => (x.1 :: y.1, y.2)

/-- `Truncate` of the stream: it keeps what is left if the extent is the first one. -/
def truncate (exs : List ℕ) (extentID : ℕ) : List ℕ := exs.drop (truncateIndex extentID exs)

/-! ## The machine -/

/-- A partition with its row stream and its entry in the partition manager. -/
structure RowStore where
  /-- The extents of the row stream. -/
  exs : List ℕ
  /-- The tables in the partition manager. -/
  stored : List (Table × Place)
  /-- The memtables and tables, while the process lives. -/
  lsm : Option Lsm
  /-- The places of the tables. -/
  places : List Place
  /-- The compaction has truncated the stream. -/
  truncated : Bool

inductive RowAction where
  /-- A step that has nothing to do with the row stream or the partition manager. -/
  | op (op : LsmOp)
  /-- `handleFlushTask`, with the blocks of the table and the index. -/
  | build (blocks : List Append) (index : Append)
  /-- A block of a table that is not finished: `handleFlushTask` begins again. -/
  | garbage (a : Append)
  /-- The flusher calls `updateTableLocs`. -/
  | store
  /-- The end of `doCompact`. -/
  | truncate
  /-- `OpenRangePartition` replaces the tables. -/
  | compactFinish
  | openPartition
  | crash

/-- The operation is a step of its own here. -/
def isRowOp : LsmOp → Bool
  | .build | .saved | .compactFinish => true
  | _ => false

/-- `updateTableLocs`: nothing is stored for an empty list. -/
def updateTableLocs (stored tables : List (Table × Place)) : List (Table × Place) :=
  if tables = [] then stored else tables

namespace RowStore

/-- The number of tables that a compaction has taken. -/
def taken (r : RowStore) : ℕ :=
  (r.lsm.bind Lsm.compaction).elim 0 fun c => c.tbls.length

/-- The places of the tables that a compaction has taken; they are at the front. -/
def inputs (r : RowStore) : List Place := r.places.take r.taken

/-- The places of the tables that came later. -/
def outputs (r : RowStore) : List Place := r.places.drop r.taken

/-- The stream after the `Truncate` of the compaction. -/
def cut (r : RowStore) : Option (List ℕ) :=
  r.inputs.getLast?.map fun last => Rows.truncate r.exs last.loc.extentID

/-- Every location in the partition manager, and every location in the indexes there, is in the
stream. -/
def Readable (r : RowStore) : Prop :=
  ∀ x ∈ r.stored, ∀ l ∈ x.2.locations, l.extentID ∈ r.exs

instance (r : RowStore) : Decidable r.Readable := inferInstanceAs (Decidable (∀ x ∈ r.stored, _))

end RowStore

/-- The steps; `none` if a step cannot be taken, or if it does not end. -/
def rowStep (r : RowStore) : RowAction → Option RowStore
  | .op op =>
    if isRowOp op then none
    else r.lsm.bind fun s => (s.apply op).map fun s' => { r with lsm := some s' }
  | .build blocks index => r.lsm.bind fun s => s.build.bind fun s' =>
    if s'.tables.length = s.tables.length then
      -- The memtable was empty.
      some { r with lsm := some s' }
    else
      (appendAll r.exs blocks).bind fun x => (append x.2 index).map fun y =>
        { r with lsm := some s', exs := y.2, places := r.places ++ [⟨y.1, x.1⟩] }
  | .garbage a => (append r.exs a).map fun x => { r with exs := x.2 }
  | .store => r.lsm.bind fun s => s.saved.map fun s' =>
    { r with lsm := some s', stored := updateTableLocs r.stored (s.tables.zip r.places) }
  | .truncate => r.lsm.bind fun s => s.compaction.bind fun c =>
    if c.todo.isEmpty ∧ c.results = c.numBuilds ∧ r.truncated = false then
      r.cut.map fun exs => { r with exs := exs, truncated := true }
    else none
  | .compactFinish => r.lsm.bind fun s =>
    if r.truncated then
      s.compactFinish.map fun s' =>
        { r with
          lsm := some s'
          places := r.outputs
          stored := updateTableLocs r.stored (s'.tables.zip r.outputs)
          truncated := false }
    else none
  -- `OpenTable` is tried until it succeeds.
  | .openPartition =>
    if r.lsm.isNone ∧ r.Readable then
      some { r with
        lsm := some (Lsm.opened (r.stored.map Prod.fst))
        places := r.stored.map Prod.snd
        truncated := false }
    else none
  | .crash => some { r with lsm := none }

/-- Before the partition is opened. -/
def RowStore.start (exs : List ℕ) (stored : List (Table × Place)) : RowStore where
  exs := exs
  stored := stored
  lsm := none
  places := []
  truncated := false

/-- The extent `e'` stands in the stream at the first place of the extent `e`, or behind it. -/
def NotInFront (exs : List ℕ) (e e' : ℕ) : Prop :=
  ∃ j < exs.length, exs.idxOf e ≤ j ∧ exs[j]? = some e'

/-- The condition: of the tables that a compaction has taken, no block is in an extent in front of
the one with the index of the last, and a compaction leaves a table. -/
def Careful (r : RowStore) : RowAction → Prop
  | .truncate => ∀ last ∈ r.inputs.getLast?, ∀ p ∈ r.inputs, ∀ l ∈ p.locations,
    NotInFront r.exs last.loc.extentID l.extentID
  | .compactFinish => r.outputs ≠ []
  | _ => True

instance (r : RowStore) (a : RowAction) : Decidable (Careful r a) :=
  match a with
  | .truncate => inferInstanceAs (Decidable (∀ last ∈ r.inputs.getLast?, ∀ p ∈ r.inputs,
      ∀ l ∈ p.locations, ∃ j < r.exs.length, r.exs.idxOf last.loc.extentID ≤ j ∧ _))
  | .compactFinish => inferInstanceAs (Decidable (r.outputs ≠ []))
  | .op _ | .build _ _ | .garbage _ | .store | .openPartition | .crash => isTrue trivial

/-! ## What happens to the stream -/

variable {exs front rest : List ℕ} {a : Append} {l : RowLocation}

/-- A block goes to the last extent, so it is in every part of the stream that reaches to its
end. -/
theorem append_spec {exs' : List ℕ} (hexs : exs = front ++ rest) (hrest : rest ≠ [])
    (h : append exs a = some (l, exs')) : ∃ more, exs' = exs ++ more ∧ l.extentID ∈ rest := by
  obtain ⟨last, hlast, h⟩ := bind_eq_some_iff.mp h
  have hmem : last ∈ rest := by
    rw [hexs, getLast?_append_of_ne_nil _ hrest] at hlast
    exact mem_of_getLast? hlast
  cases hnew : a.newExtent with
  | none =>
    rw [hnew] at h
    cases h
    exact ⟨[], (append_nil _).symm, hmem⟩
  | some id =>
    rw [hnew] at h
    obtain ⟨-, h⟩ := ite_none_left_eq_some.mp h
    cases h
    exact ⟨[id], rfl, hmem⟩

variable {as : List Append}

theorem appendAll_spec :
    ∀ {exs rest exs' : List ℕ} {ls : List RowLocation}, exs = front ++ rest → rest ≠ [] →
      appendAll exs as = some (ls, exs') →
      ∃ more, exs' = exs ++ more ∧ ∀ l ∈ ls, l.extentID ∈ rest ++ more := by
  induction as with
  | nil =>
    intro exs rest exs' ls hexs hrest h
    cases h
    exact ⟨[], (append_nil _).symm, by simp⟩
  | cons a as ih =>
    intro exs rest exs' ls hexs hrest h
    obtain ⟨⟨l, exs₁⟩, ha, h⟩ := bind_eq_some_iff.mp h
    obtain ⟨⟨ls', exs₂⟩, has, h⟩ := map_eq_some_iff.mp h
    cases h
    obtain ⟨more, rfl, hl⟩ := append_spec hexs hrest ha
    have hexs₁ : exs ++ more = front ++ (rest ++ more) := by rw [hexs, append_assoc]
    obtain ⟨more', rfl, hls⟩ := ih hexs₁ (by simp [hrest]) has
    refine ⟨more ++ more', append_assoc .., fun l' hl' => ?_⟩
    rw [← append_assoc]
    rcases hl' with _ | ⟨_, hl'⟩
    · exact mem_append_left _ (mem_append_left _ hl)
    · exact hls l' hl'

/-- A table is built at the end of the stream. -/
theorem build_spec {exs₁ exs₂ : List ℕ} {ls : List RowLocation} (hexs : exs = front ++ rest)
    (hrest : rest ≠ []) (has : appendAll exs as = some (ls, exs₁))
    (ha : append exs₁ a = some (l, exs₂)) :
    ∃ more, exs₂ = exs ++ more ∧
      ∀ l' ∈ (Place.mk l ls).locations, l'.extentID ∈ rest ++ more := by
  obtain ⟨more, rfl, hls⟩ := appendAll_spec hexs hrest has
  have hexs₁ : exs ++ more = front ++ (rest ++ more) := by rw [hexs, append_assoc]
  obtain ⟨more', rfl, hl⟩ := append_spec hexs₁ (by simp [hrest]) ha
  refine ⟨more ++ more', append_assoc .., fun l' hl' => ?_⟩
  rw [← append_assoc]
  rcases hl' with _ | ⟨_, hl'⟩
  · exact mem_append_left _ hl
  · exact mem_append_left _ (hls l' hl')

/-- The loop of `Truncate` stops at the first extent with the number. -/
theorem truncate_append {e : ℕ} (he : e ∉ front) : truncate (front ++ e :: rest) e = e :: rest := by
  rw [truncate, truncateIndex_append he, drop_left]

theorem mem_truncate_iff {e e' : ℕ} (he : e ∈ exs) :
    e' ∈ truncate exs e ↔ NotInFront exs e e' := by
  have hlt := idxOf_lt_length_of_mem he
  have hindex : truncateIndex e exs = exs.idxOf e := by
    rw [truncateIndex_eq]
    omega
  rw [truncate, hindex, mem_iff_getElem?]
  simp only [getElem?_drop]
  constructor
  · rintro ⟨i, hi⟩
    exact ⟨_, (List.getElem?_eq_some_iff.mp hi).1, Nat.le_add_right _ _, hi⟩
  · rintro ⟨j, -, hle, hj⟩
    exact ⟨j - exs.idxOf e, by rwa [Nat.add_sub_cancel' hle]⟩

/-! ## The invariant -/

/-- The flusher has no table that it has not stored. -/
def Settled : Flusher → Prop
  | .built _ | .saving _ => False
  | _ => True

instance (f : Flusher) : Decidable (Settled f) :=
  match f with
  | .built _ | .saving _ => isFalse id
  | .idle | .building _ | .notifying => isTrue trivial

/-- A compaction in progress. -/
structure InProgress (exs : List ℕ) (stored : List (Table × Place)) (flusher : Flusher)
    (places : List Place) (truncated : Bool) (c : Compaction) : Prop where
  two : 1 < c.tbls.length
  started : c.todo ≠ [] ∨ 1 ≤ c.numBuilds
  /-- After its first result the tables it has taken are stored. -/
  listed : 1 ≤ c.results ∨ flusher = .notifying → c.tbls.length ≤ stored.length
  /-- Later tables are not in front of the cut. -/
  behind : truncated = false → ∃ front last rest, exs = front ++ last.loc.extentID :: rest ∧
    last.loc.extentID ∉ front ∧ (places.take c.tbls.length).getLast? = some last ∧
    ∀ p ∈ places.drop c.tbls.length, ∀ l ∈ p.locations, l.extentID ∈ last.loc.extentID :: rest

/-- The tables of an open partition and their places. -/
structure Placed (exs : List ℕ) (stored : List (Table × Place)) (s : Lsm) (places : List Place)
    (truncated : Bool) : Prop where
  sane : s.Sane
  length_eq : places.length = s.tables.length
  readable : ∀ p ∈ places, ∀ l ∈ p.locations, l.extentID ∈ exs
  listed : stored <+: s.tables.zip places
  settled : Settled s.flusher → stored = s.tables.zip places
  no_compaction : s.compaction = none → truncated = false
  compaction : ∀ c, s.compaction = some c → InProgress exs stored s.flusher places truncated c

section Placed

variable {stored : List (Table × Place)} {s s' : Lsm} {places : List Place}
  {truncated : Bool}

variable {c : Compaction}

theorem InProgress.of_flusher {flusher flusher' : Flusher}
    (h : InProgress exs stored flusher places truncated c)
    (hf : flusher' = .notifying → flusher = .notifying) :
    InProgress exs stored flusher' places truncated c :=
  ⟨h.two, h.started, fun hc => h.listed (hc.imp id hf), h.behind⟩

theorem todo_start_ne_nil {ts : List Table} (hts : ts ≠ []) : (Compaction.start ts).todo ≠ [] := by
  obtain ⟨t, ts', rfl⟩ := exists_cons_of_ne_nil hts
  obtain ⟨x, xs, hx⟩ := exists_cons_of_ne_nil t.entries_ne_nil
  have hmem : x ∈ t.toSortedRun := by
    show x ∈ t.data.entries
    rw [hx]
    exact (.head _)
  have ht : t ∈ t :: ts' := (.head _)
  obtain ⟨y, hy, -⟩ := exists_key_mem_mergeIterators ht hmem
  exact ne_nil_of_mem hy

theorem updateTableLocs_eq {tables : List (Table × Place)} (h : stored <+: tables) :
    updateTableLocs stored tables = tables := by
  rw [updateTableLocs]
  split_ifs with hnil
  · rw [hnil] at h ⊢
    exact prefix_nil.mp h
  · rfl

section

variable (h : Placed exs stored s places truncated)
include h

/-- A step of the flusher or of a writer that leaves the tables and the compaction alone. -/
theorem Placed.of_same (hsane : s'.Sane) (htables : s'.tables = s.tables)
    (hcomp : s'.compaction = s.compaction) (hsettled : Settled s'.flusher → Settled s.flusher)
    (hf : s'.flusher = .notifying → s.flusher = .notifying) :
    Placed exs stored s' places truncated where
  sane := hsane
  length_eq := htables ▸ h.length_eq
  readable := h.readable
  listed := htables ▸ h.listed
  settled hs := htables ▸ h.settled (hsettled hs)
  no_compaction hn := h.no_compaction (hcomp ▸ hn)
  compaction c hc := (h.compaction c (hcomp ▸ hc)).of_flusher hf

theorem Placed.length_zip : (s.tables.zip places).length = places.length := by
  rw [List.length_zip, h.length_eq, min_self]

theorem Placed.taken_le (hc : s.compaction = some c) : c.tbls.length ≤ places.length := by
  obtain ⟨rest, hrest⟩ := (h.sane.compaction c hc).tables_eq
  rw [h.length_eq, hrest, length_append]
  omega

/-- The stored tables are in the stream, if all tables are. -/
theorem Placed.readable_stored : ∀ x ∈ stored, ∀ l ∈ x.2.locations, l.extentID ∈ exs := by
  intro x hx
  exact h.readable x.2 (of_mem_zip (h.listed.subset hx)).2

theorem Placed.compactStart (hs : LsmStep s .compactStart s') :
    Placed exs stored s' places truncated := by
  have hsane := h.sane.step hs
  cases hs with
  | compactStart hc hlen =>
    have htrunc := h.no_compaction hc
    refine { h with sane := hsane, no_compaction := by simp, compaction := ?_ }
    rintro c ⟨rfl⟩
    have hne : s.tables ≠ [] := by
      rintro hnil
      simp [hnil] at hlen
    refine ⟨hlen, .inl (todo_start_ne_nil hne), ?_, fun _ => ?_⟩
    · rintro (hres | hnot)
      · cases hres
      · have hst := h.settled (by rw [show s.flusher = .notifying from hnot]; trivial)
        rw [hst, h.length_zip, h.length_eq]
        rfl
    · have hall : places.take s.tables.length = places :=
        take_of_length_le h.length_eq.le
      have hplaces : places ≠ [] := by
        rintro hnil
        rw [hnil] at h
        exact hne (length_eq_zero_iff.mp h.length_eq.symm)
      have hin := h.readable _ (getLast_mem hplaces) _ (.head _)
      obtain ⟨front, rest, hexs, hnotin⟩ := eq_append_cons_of_mem hin
      refine ⟨front, _, rest, hexs, hnotin, ?_, ?_⟩
      · show (places.take s.tables.length).getLast? = _
        rw [hall]
        exact getLast?_eq_some_getLast hplaces
      · show ∀ p ∈ places.drop s.tables.length, _
        rw [drop_of_length_le h.length_eq.le]
        exact fun p hp => absurd hp not_mem_nil

/-- The steps of the writers, the flusher and a compaction that neither build a table nor replace
one. -/
theorem Placed.op {op : LsmOp} (hop : isRowOp op = false) (hs : LsmStep s op s') :
    Placed exs stored s' places truncated := by
  have hsane := h.sane.step hs
  cases hs with
  | put | rotate => exact h.of_same hsane rfl rfl id id
  | receive hf hc => exact h.of_same hsane rfl rfl (fun _ => hf ▸ trivial) (by simp)
  | popCompact hf hc | popImm hf hc hi => exact h.of_same hsane rfl rfl False.elim (by simp)
  | build | saved | compactFinish => cases hop
  | compactStart hc hlen => exact h.compactStart (.compactStart hc hlen)
  | notify hf hc ht =>
    have hst := h.settled (hf ▸ trivial)
    obtain ⟨two, started, listed, behind⟩ := h.compaction _ hc
    exact { h with
      sane := hsane
      settled := fun _ => hst
      no_compaction := by simp
      compaction := forall_of_some ⟨two, started, fun _ => listed (.inr hf), behind⟩ }
  | compactSend hc ht room =>
    obtain ⟨two, started, listed, behind⟩ := h.compaction _ hc
    exact { h with
      sane := hsane
      no_compaction := by simp
      compaction := forall_of_some ⟨two, .inr (Nat.le_add_left 1 _), listed, behind⟩ }

theorem Placed.append (more : List ℕ) : Placed (exs ++ more) stored s places truncated :=
  { h with
    readable p hp l hl := mem_append_left more (h.readable p hp l hl)
    compaction c hc := by
      obtain ⟨two, started, listed, behind⟩ := h.compaction c hc
      refine ⟨two, started, listed, fun ht => ?_⟩
      obtain ⟨front, last, rest, rfl, hlast, htake, hdrop⟩ := behind ht
      refine ⟨front, last, rest ++ more, by simp, hlast, htake, fun p hp l hl => ?_⟩
      exact mem_append_left more (hdrop p hp l hl) }

theorem Placed.build {ft : FlushTask} {t : Table} {exs₁ exs₂ : List ℕ} {ls : List RowLocation}
    (hne : exs ≠ []) (hf : s.flusher = .building ft) (ht : ft.table = some t)
    (has : appendAll exs as = some (ls, exs₁)) (ha : Rows.append exs₁ a = some (l, exs₂)) :
    Placed exs₂ stored { s with flusher := .built ft, tables := s.tables ++ [t] }
      (places ++ [⟨l, ls⟩]) truncated := by
  have hsane := h.sane.step (LsmStep.build hf)
  rw [ht, toList_some] at hsane
  obtain ⟨more, rfl, hnew⟩ := build_spec (nil_append exs).symm hne has ha
  have hold := h.append more
  refine ⟨hsane, by simp [h.length_eq], ?_, ?_, False.elim, h.no_compaction, ?_⟩
  · exact forall_mem_concat hold.readable hnew
  · rw [zip_append h.length_eq.symm]
    exact h.listed.trans (prefix_append _ _)
  · intro c hc
    obtain ⟨two, started, listed, behind⟩ := h.compaction c hc
    refine ⟨two, started, fun hr => listed (hr.imp id (by simp)), fun htr => ?_⟩
    obtain ⟨front, last, rest, hexs, hlast, htake, hdrop⟩ := behind htr
    obtain ⟨more', hmore, hlater⟩ := build_spec hexs (by simp) has ha
    obtain rfl := append_cancel_left hmore
    refine ⟨front, last, rest ++ more, by simp [hexs], hlast, ?_, ?_⟩
    · rw [take_append_of_le_length (h.taken_le hc)]
      exact htake
    · rw [drop_append_of_le_length (h.taken_le hc)]
      exact forall_mem_concat
        (fun p hp l' hl' => mem_append_left more (hdrop p hp l' hl')) hlater

theorem Placed.store {ft : FlushTask} (hf : s.flusher = .saving ft) :
    Placed exs (updateTableLocs stored (s.tables.zip places))
      { s with flusher := if ft.isCompact then .notifying else .idle } places truncated := by
  rw [updateTableLocs_eq h.listed]
  refine ⟨h.sane.step (.saved hf), h.length_eq, h.readable, prefix_rfl, fun _ => rfl,
    h.no_compaction, fun c hc => ?_⟩
  obtain ⟨two, started, -, behind⟩ := h.compaction c hc
  refine ⟨two, started, fun _ => ?_, behind⟩
  rw [h.length_zip]
  exact h.taken_le hc

/-- When the results of a compaction are in, the tables it has taken are stored. -/
theorem Placed.taken_stored (hc : s.compaction = some c)
    (htodo : c.todo = []) (hres : c.results = c.numBuilds) :
    1 < c.tbls.length ∧ c.tbls.length ≤ stored.length := by
  obtain ⟨two, started, listed, -⟩ := h.compaction c hc
  have hbuilds : 1 ≤ c.numBuilds := started.resolve_left (absurd htodo)
  exact ⟨two, listed (.inl (hres ▸ hbuilds))⟩

theorem Placed.map_snd_stored : stored.map Prod.snd = places.take stored.length := by
  have htake : stored = (s.tables.zip places).take stored.length := prefix_iff_eq_take.mp h.listed
  have hsnd : (s.tables.zip places).map Prod.snd = places := map_snd_zip h.length_eq.le
  calc stored.map Prod.snd
    _ = ((s.tables.zip places).take stored.length).map Prod.snd := by rw [← htake]
    _ = places.take stored.length := by rw [map_take, hsnd]

theorem Placed.mem_stored_of_mem_take (hc : s.compaction = some c) (htodo : c.todo = [])
    (hres : c.results = c.numBuilds) {p : Place} (hp : p ∈ places.take c.tbls.length) :
    ∃ x ∈ stored, x.2 = p := by
  have hle := (h.taken_stored hc htodo hres).2
  have hmem : p ∈ stored.map Prod.snd := by
    rw [h.map_snd_stored]
    exact (take_prefix_take_left hle).subset hp
  exact mem_map.mp hmem

theorem Placed.length_drop (hc : s.compaction = some c) :
    (places.drop c.tbls.length).length = (replaceTables c.tbls s.tables).length := by
  obtain ⟨rest, hrest⟩ := (h.sane.compaction c hc).tables_eq
  rw [List.length_drop, h.length_eq, hrest, replaceTables_append, List.length_append]
  omega

/-- If a table is left, the list of them is stored. -/
theorem Placed.stored_outputs
    (hc : s.compaction = some c) (hsome : places.drop c.tbls.length ≠ []) :
    updateTableLocs stored ((replaceTables c.tbls s.tables).zip (places.drop c.tbls.length)) =
      (replaceTables c.tbls s.tables).zip (places.drop c.tbls.length) := by
  rw [updateTableLocs, if_neg]
  intro hnil
  rcases zip_eq_nil_iff.mp hnil with hnil | hnil
  · have hlen := h.length_drop hc
    rw [hnil] at hlen
    exact hsome (length_eq_zero_iff.mp hlen)
  · exact hsome hnil

theorem Placed.compactFinish {c : Compaction} (hc : s.compaction = some c) (htodo : c.todo = [])
    (hres : c.results = c.numBuilds) (hsome : places.drop c.tbls.length ≠ []) :
    Placed exs (updateTableLocs stored
        ((replaceTables c.tbls s.tables).zip (places.drop c.tbls.length)))
      { s with tables := replaceTables c.tbls s.tables, compaction := none }
      (places.drop c.tbls.length) false := by
  rw [h.stored_outputs hc hsome]
  refine ⟨h.sane.step (.compactFinish hc htodo hres), h.length_drop hc, ?_, prefix_rfl,
    fun _ => rfl, fun _ => rfl, by simp⟩
  exact fun p hp => h.readable p (mem_of_mem_drop hp)

end

/-- The cut leaves the later tables. -/
theorem Placed.truncate {last : Place} (h : Placed exs stored s places false)
    (hc : s.compaction = some c) (hlast : (places.take c.tbls.length).getLast? = some last)
    (hkept : ∀ p ∈ places.take c.tbls.length, ∀ l ∈ p.locations,
      l.extentID ∈ Rows.truncate exs last.loc.extentID) :
    Rows.truncate exs last.loc.extentID ≠ [] ∧
      Placed (Rows.truncate exs last.loc.extentID) stored s places true := by
  obtain ⟨two, started, listed, behind⟩ := h.compaction c hc
  obtain ⟨front, last', rest, rfl, hnotin, hlast', hdrop⟩ := behind rfl
  cases hlast.symm.trans hlast'
  rw [truncate_append hnotin] at hkept ⊢
  refine ⟨by simp, h.sane, h.length_eq, ?_, h.listed, h.settled, by simp [hc], ?_⟩
  · intro p hp
    rw [← take_append_drop c.tbls.length places] at hp
    exact (mem_append.mp hp).elim (hkept p) (hdrop p)
  · intro c' hc'
    cases hc.symm.trans hc'
    exact ⟨two, started, listed, by simp⟩

theorem placed_opened (h : ∀ x ∈ stored, ∀ l ∈ x.2.locations, l.extentID ∈ exs) :
    Placed exs stored (opened (stored.map Prod.fst)) (stored.map Prod.snd) false := by
  have hzip : stored = (stored.map Prod.fst).zip (stored.map Prod.snd) := zip_of_prod rfl rfl
  refine ⟨sane_opened _, by simp [opened], ?_, ?_, fun _ => hzip, fun _ => rfl, ?_⟩
  · intro p hp
    obtain ⟨x, hx, rfl⟩ := mem_map.mp hp
    exact h x hx
  · show stored <+: (stored.map Prod.fst).zip (stored.map Prod.snd)
    rw [← hzip]
  · simp [opened]

end Placed

/-! ## Whole runs -/

namespace RowStore

/-- What holds after every step of a run that meets the condition. -/
structure Inv (r : RowStore) : Prop where
  ne_nil : r.exs ≠ []
  readable : r.Readable
  placed : ∀ s, r.lsm = some s → Placed r.exs r.stored s r.places r.truncated

variable {r r' : RowStore}

theorem Inv.of_placed {s : Lsm} (hne : r.exs ≠ []) (hs : r.lsm = some s)
    (h : Placed r.exs r.stored s r.places r.truncated) : r.Inv where
  ne_nil := hne
  readable := h.readable_stored
  placed s' hs' := by
    cases hs.symm.trans hs'
    exact h

theorem taken_eq {s : Lsm} {c : Compaction} (hs : r.lsm = some s) (hc : s.compaction = some c) :
    r.taken = c.tbls.length := by
  rw [taken, hs, bind_some, hc]
  rfl

theorem truncate_cases (h : rowStep r .truncate = some r') :
    ∃ s c last, r.lsm = some s ∧ s.compaction = some c ∧ c.todo = [] ∧ c.results = c.numBuilds ∧
      r.truncated = false ∧ r.inputs = r.places.take c.tbls.length ∧ r.inputs.getLast? = some last ∧
      r' = { r with exs := Rows.truncate r.exs last.loc.extentID, truncated := true } := by
  obtain ⟨s, hs, h⟩ := bind_eq_some_iff.mp h
  obtain ⟨c, hc, h⟩ := bind_eq_some_iff.mp h
  obtain ⟨⟨htodo, hres, htrunc⟩, h⟩ := ite_none_right_eq_some.mp h
  obtain ⟨exs, hcut, rfl⟩ := map_eq_some_iff.mp h
  obtain ⟨last, hlast, rfl⟩ := map_eq_some_iff.mp hcut
  have hinputs : r.inputs = r.places.take c.tbls.length := by rw [inputs, taken_eq hs hc]
  exact ⟨s, c, last, hs, hc, isEmpty_iff.mp htodo, hres, htrunc, hinputs, hlast, rfl⟩

theorem compactFinish_cases (h : rowStep r .compactFinish = some r') :
    ∃ s c, r.lsm = some s ∧ s.compaction = some c ∧ c.todo = [] ∧ c.results = c.numBuilds ∧
      r.outputs = r.places.drop c.tbls.length ∧
      r' = { r with
        lsm := some { s with tables := replaceTables c.tbls s.tables, compaction := none }
        places := r.outputs
        stored := updateTableLocs r.stored ((replaceTables c.tbls s.tables).zip r.outputs)
        truncated := false } := by
  obtain ⟨s, hs, h⟩ := bind_eq_some_iff.mp h
  obtain ⟨-, h⟩ := ite_none_right_eq_some.mp h
  obtain ⟨s', hs', rfl⟩ := map_eq_some_iff.mp h
  have hstep : LsmStep s .compactFinish s' := step_of_apply hs'
  cases hstep with
  | compactFinish hc htodo hres =>
    exact ⟨s, _, hs, hc, htodo, hres, by rw [outputs, taken_eq hs hc], rfl⟩

/-- A cut leaves the stored tables readable exactly if it leaves the blocks of the tables that the
compaction has taken. -/
theorem Inv.truncate (h : r.Inv) (hr : rowStep r .truncate = some r') :
    (Careful r .truncate → r'.Inv) ∧ (r'.Readable → Careful r .truncate) := by
  obtain ⟨s, c, last, hs, hc, htodo, hres, htrunc, hinputs, hlast, rfl⟩ := truncate_cases hr
  have hp := h.placed s hs
  have hmem : last.loc.extentID ∈ r.exs :=
    hp.readable last (mem_of_mem_take (mem_of_getLast? hlast)) _ mem_cons_self
  constructor
  · intro hcareful
    have hkept := fun p hp l hl => (mem_truncate_iff hmem).mpr (hcareful last hlast p hp l hl)
    rw [htrunc] at hp
    rw [hinputs] at hkept hlast
    obtain ⟨hne, hp'⟩ := hp.truncate hc hlast hkept
    exact .of_placed hne hs hp'
  · intro hreadable last' hlast' p hp' l hl
    cases hlast.symm.trans hlast'
    rw [hinputs] at hp'
    obtain ⟨x, hx, rfl⟩ := hp.mem_stored_of_mem_take hc htodo hres hp'
    exact (mem_truncate_iff hmem).mp (hreadable x hx l hl)

/-- A compaction leaves the list of its tables in the partition manager exactly if it leaves a
table. -/
theorem Inv.compactFinish {r r' : RowStore} (h : r.Inv) (hr : rowStep r .compactFinish = some r') :
    r'.places = r.outputs ∧ (r.outputs ≠ [] → r'.Inv) ∧
      ∃ s', r'.lsm = some s' ∧ (r'.stored = s'.tables.zip r'.places ↔ r.outputs ≠ []) := by
  obtain ⟨s, c, hs, hc, htodo, hres, houtputs, rfl⟩ := compactFinish_cases hr
  have hp := h.placed s hs
  refine ⟨rfl, fun hne => ?_, _, rfl, fun heq hnil => ?_, fun hne => ?_⟩
  · rw [houtputs] at hne ⊢
    exact .of_placed h.ne_nil rfl (hp.compactFinish hc htodo hres hne)
  · -- An empty list is not stored, and the old one is not empty.
    obtain ⟨htwo, hle⟩ := hp.taken_stored hc htodo hres
    dsimp only at heq
    rw [hnil, zip_nil_right, updateTableLocs, if_pos rfl] at heq
    rw [heq, length_nil] at hle
    omega
  · rw [houtputs] at hne ⊢
    exact hp.stored_outputs hc hne

theorem Inv.build {r r' : RowStore} {blocks : List Append} {index : Append} (h : r.Inv)
    (hr : rowStep r (.build blocks index) = some r') : r'.Inv := by
  obtain ⟨s, hs, hr⟩ := bind_eq_some_iff.mp hr
  obtain ⟨s', hs', hr⟩ := bind_eq_some_iff.mp hr
  have hp := h.placed s hs
  have hstep : LsmStep s .build s' := step_of_apply hs'
  have hsane := hp.sane.step hstep
  cases hstep with
  | @build ft hf =>
    cases ht : ft.table with
    | none =>
      rw [ht, toList_none, append_nil] at hr hsane
      rw [if_pos rfl] at hr
      cases hr
      exact .of_placed h.ne_nil rfl (hp.of_same hsane rfl rfl False.elim (by simp))
    | some t =>
      rw [ht, toList_some, if_neg (by simp)] at hr
      obtain ⟨⟨ls, exs₁⟩, has, hr⟩ := bind_eq_some_iff.mp hr
      obtain ⟨⟨l, exs₂⟩, ha, rfl⟩ := map_eq_some_iff.mp hr
      have hplaced := hp.build h.ne_nil hf ht has ha
      obtain ⟨more, hmore, -⟩ := build_spec (nil_append r.exs).symm h.ne_nil has ha
      refine .of_placed ?_ rfl hplaced
      show exs₂ ≠ []
      rw [hmore]
      exact append_ne_nil_of_left_ne_nil h.ne_nil more

theorem Inv.garbage (h : r.Inv) (hr : rowStep r (.garbage a) = some r') : r'.Inv := by
  obtain ⟨⟨l, exs'⟩, ha, rfl⟩ := map_eq_some_iff.mp hr
  obtain ⟨more, rfl, -⟩ := append_spec (nil_append r.exs).symm h.ne_nil ha
  refine ⟨append_ne_nil_of_left_ne_nil h.ne_nil more, fun x hx l hl => ?_, fun s hs => ?_⟩
  · exact mem_append_left more (h.readable x hx l hl)
  · exact (h.placed s hs).append more

theorem Inv.step {a : RowAction} (h : r.Inv) (hg : Careful r a) (hr : rowStep r a = some r') :
    r'.Inv := by
  cases a with
  | op op =>
    obtain ⟨hop, hr⟩ := ite_none_left_eq_some.mp hr
    obtain ⟨s, hs, hr⟩ := bind_eq_some_iff.mp hr
    obtain ⟨s', hs', rfl⟩ := map_eq_some_iff.mp hr
    have hstep := step_of_apply hs'
    exact .of_placed h.ne_nil rfl ((h.placed s hs).op (by simpa using hop) hstep)
  | build blocks index => exact h.build hr
  | garbage a => exact h.garbage hr
  | store =>
    obtain ⟨s, hs, hr⟩ := bind_eq_some_iff.mp hr
    obtain ⟨s', hs', rfl⟩ := map_eq_some_iff.mp hr
    have hstep : LsmStep s .saved s' := step_of_apply hs'
    cases hstep with
    | saved hf => exact .of_placed h.ne_nil rfl ((h.placed s hs).store hf)
  | truncate => exact (h.truncate hr).1 hg
  | compactFinish => exact (h.compactFinish hr).2.1 hg
  | openPartition =>
    obtain ⟨⟨-, hreadable⟩, hr⟩ := ite_none_right_eq_some.mp hr
    cases hr
    exact .of_placed h.ne_nil rfl (placed_opened hreadable)
  | crash =>
    cases hr
    exact ⟨h.ne_nil, h.readable, by simp⟩

theorem inv_start {stored : List (Table × Place)} (hne : exs ≠ [])
    (hreadable : (start exs stored).Readable) : (start exs stored).Inv :=
  ⟨hne, hreadable, by simp [start]⟩

end RowStore

/-- The tables in the partition manager are in the stream, and once the flusher has stored all its
tables they are those of the partition, as long as no compaction cuts off its own tables and none
ends without a table.  Each of the two breaks it at once. -/
theorem stored_tables_readable {exs : List ℕ} {stored : List (Table × Place)} {as : List RowAction}
    {r : RowStore} (hne : exs ≠ []) (hreadable : (RowStore.start exs stored).Readable)
    (hrun : exec rowStep (RowStore.start exs stored) as = some r)
    (hg : Guarded rowStep Careful (RowStore.start exs stored) as) :
    (r.Readable ∧ ∀ s, r.lsm = some s → Settled s.flusher → r.stored = s.tables.zip r.places) ∧
    (∀ r', rowStep r .truncate = some r' → (r'.Readable ↔ Careful r .truncate)) ∧
    (∀ r', rowStep r .compactFinish = some r' → ∃ s', r'.lsm = some s' ∧
      (r'.stored = s'.tables.zip r'.places ↔ r'.places ≠ [])) := by
  have hinv : r.Inv :=
    exec_invariant (fun _ _ _ => RowStore.Inv.step) (RowStore.inv_start hne hreadable) hg hrun
  refine ⟨⟨hinv.readable, fun s hs hset => (hinv.placed s hs).settled hset⟩, fun r' hr => ?_,
    fun r' hr => ?_⟩
  · obtain ⟨hinv', hcareful⟩ := hinv.truncate hr
    exact ⟨hcareful, fun hc => (hinv' hc).readable⟩
  · obtain ⟨hplaces, -, hstored⟩ := hinv.compactFinish hr
    rw [← hplaces] at hstored
    exact hstored

/-- Two tables, each with a version of one key and in an extent of its own choice. -/
def twoTables (value₁ value₂ : ValueStruct) (extentID₁ extentID₂ : ℕ) : List (Table × Place) :=
  [(.single ⟨[107], 5⟩ value₁ 5, ⟨⟨extentID₁, 1⟩, [⟨extentID₁, 0⟩]⟩),
    (.single ⟨[107], 6⟩ value₂ 6, ⟨⟨extentID₂, 3⟩, [⟨extentID₂, 2⟩]⟩)]

/-- A partition opens and compacts its tables, up to the last result. -/
def compacting : List RowAction :=
  [.openPartition, .op .compactStart, .op (.compactSend 0 []), .op .receive,
    .build [⟨4, none⟩] ⟨5, some 3⟩, .op .popImm, .store, .op .notify]

/-- Two tables in one extent become one. -/
theorem stored_tables_readable_oneExtent : ∃ r s,
    exec rowStep
      (RowStore.start [1, 2] (twoTables { value := some [97] } { value := some [98] } 2 2))
      (compacting ++ [.truncate, .compactFinish]) = some r ∧
    r.lsm = some s ∧ s.tables.length = 1 ∧ r.exs = [2, 3] ∧ r.Readable ∧
    r.stored = s.tables.zip r.places := by
  let start := RowStore.start [1, 2] (twoTables { value := some [97] } { value := some [98] } 2 2)
  have hg : Guarded rowStep Careful start (compacting ++ [.truncate, .compactFinish]) := by
    decide +kernel
  obtain ⟨r, hr, hexs, s, hs, hlen, hsettled⟩ :
      ∃ r ∈ exec rowStep start (compacting ++ [.truncate, .compactFinish]), r.exs = [2, 3] ∧
        ∃ s ∈ r.lsm, s.tables.length = 1 ∧ Settled s.flusher := by decide +kernel
  obtain ⟨⟨hreadable, hstored⟩, -⟩ := stored_tables_readable (by decide) (by decide +kernel) hr hg
  exact ⟨r, s, hr, hs, hlen, hexs, hreadable, hstored s hs hsettled⟩

/-- Two tables in two extents: after the cut the first one is gone, and a partition that crashes
here does not open again.  Two tables of deleted keys: the partition has no table, and both are
stored. -/
theorem stored_but_cut :
    (∃ r, exec rowStep
        (RowStore.start [1, 2] (twoTables { value := some [97] } { value := some [98] } 1 2))
        (compacting ++ [.truncate]) = some r ∧
      ¬ r.Readable ∧ exec rowStep r [.crash, .openPartition] = none) ∧
    (∃ r s, exec rowStep
        (RowStore.start [1] (twoTables { metaBits := bitDelete } { metaBits := bitDelete } 1 1))
        (compacting ++ [.truncate, .compactFinish]) = some r ∧
      r.lsm = some s ∧ Settled s.flusher ∧ s.tables = [] ∧ r.stored.length = 2) := by
  refine ⟨by decide +kernel, ?_⟩
  obtain ⟨r, hr, s, hs, hends⟩ : ∃ r ∈ exec rowStep
      (RowStore.start [1] (twoTables { metaBits := bitDelete } { metaBits := bitDelete } 1 1))
      (compacting ++ [.truncate, .compactFinish]),
      ∃ s ∈ r.lsm, Settled s.flusher ∧ s.tables = [] ∧ r.stored.length = 2 := by decide +kernel
  exact ⟨r, s, hr, hs, hends⟩

end Rows
end Autumn
