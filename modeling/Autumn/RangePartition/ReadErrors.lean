import Autumn.RangePartition.MapRefinement
import Autumn.Table.ConcatIterator

/-!
# `Get` and reads that fail

The loop of `Get` over the tables asks an iterator only whether it is valid, so a table whose seek
meets an unreadable block is passed over like one without the key (`searchOpenTable_eq`).  What it
returns is the answer of the other tables: an older version, or nothing.

If what it has found is a pointer, `Get` reads a block of the log.  `AutumnBlockReader.Read` would
return an error for a missing connection, but `GetExtentConn` dies on an extent it cannot resolve.
If the call itself fails `Read` dereferences the missing response, and a node that has nothing at
the position answers without blocks and without an error, so that `blocks[0]` is out of range.
-/

namespace Autumn

open Lib Y List Option InternalKey ValueStruct SortedRun

/-! ## The source -/

/-- What comes of calling `ReadBlocks` at a node of the extent. -/
inductive ReadReply where
  /-- The extent or its node cannot be looked up. -/
  | unresolved
  /-- There is no connection; `GetExtentConn` always returns one. -/
  | noConn
  /-- The call returns an error and no response. -/
  | rpcError
  | response (blocks : List LogBlock)
  deriving DecidableEq

/-- `AutumnBlockReader.Read`: `GetExtentConn` dereferences what it has looked up, and `res.Blocks`
is evaluated also if the call has returned an error. -/
def blockReaderRead : ReadReply → Except GetError (List LogBlock)
  | .unresolved => .error .panicked
  | .noConn => .error .readFailed
  | .rpcError => .error .panicked
  | .response blocks => .ok blocks

/-- The end of `Get`: the value itself, or the first entry of the first block at its position. -/
def readValueFrom (reply : ℕ → ℕ → ReadReply) (vs : ValueStruct) : Except GetError Bytes :=
  if vs.isPointer then
    let vp := ValuePointer.decode (vs.value.getD [])
    match blockReaderRead (reply vp.extentID vp.offset) with
    | .error err => .error err
    | .ok [] => .error .panicked
    | .ok (b :: _) =>
      match b.entries with
      | [] => .error .panicked
      | e :: _ => .ok e.value
  else .ok (vs.value.getD [])

/-- What a `Get` works on.  Sequence numbers have 64 bits. -/
structure Snapshot (fingerprint : Bytes → ℕ) where
  mts : List Skiplist
  seqNumber : ℕ
  seqNumber_lt : seqNumber < 2 ^ 64
  tables : List (Sst.OpenTable fingerprint)
  sortTables : SliceSort (Sst.OpenTable fingerprint) fun a b => decide (a.lastSeq > b.lastSeq)

variable {fingerprint : Bytes → ℕ}

/-- The body of the loop over the tables. -/
def searchOpenTable (F : ℕ → ℕ → Bool) (userKey : Bytes) (key : InternalKey) (maxVs : ValueStruct)
    (T : Sst.OpenTable fingerprint) : Option ValueStruct :=
  if T.doesNotHave (fingerprint userKey) then some maxVs
  else
    match (Sst.TableIterator.newIterator (T.failing F)).bind fun itr =>
        Sst.TableIterator.seekFrom (T.failing F) itr key.bytes with
    | none => none
    | some itr =>
      if itr.valid then
        if Raw.sameKey key.bytes itr.key then
          if Raw.parseTs itr.key > maxVs.version then
            itr.value.map fun vs => { vs with version := Raw.parseTs itr.key }
          else some maxVs
        else some maxVs
      else some maxVs

namespace Snapshot

/-- `getTablesForKey`. -/
def getTablesForKey (s : Snapshot fingerprint) (userKey : Bytes) :
    List (Sst.OpenTable fingerprint) :=
  s.sortTables.sort (s.tables.filter fun T =>
    decide (Raw.parseKey T.smallest ≤ userKey) && decide (userKey ≤ Raw.parseKey T.biggest))

/-- `getValueStruct` with version 0. -/
def find (s : Snapshot fingerprint) (F : ℕ → ℕ → Bool) (userKey : Bytes) : Option ValueStruct :=
  match searchMemTables s.mts (keyWithTs userKey s.seqNumber) with
  | some vs => some vs
  | none => (s.getTablesForKey userKey).foldlM
      (searchOpenTable F userKey (keyWithTs userKey s.seqNumber)) {}

/-- `Get` with version 0. -/
def get (s : Snapshot fingerprint) (F : ℕ → ℕ → Bool) (reply : ℕ → ℕ → ReadReply)
    (userKey : Bytes) : Except GetError Bytes :=
  match s.find F userKey with
  | none => .error .panicked
  | some vs =>
    if vs.version = 0 then .error .notFound
    else if vs.isDeleted then .error .notFound
    else readValueFrom reply vs

end Snapshot

/-! ## The search without the unreadable tables -/

/-- A seek for the key meets readable blocks only. -/
def readableFor (F : ℕ → ℕ → Bool) (key : InternalKey) (T : Sst.OpenTable fingerprint) : Bool :=
  (Sst.seekReads T.toTable T.blocks key.bytes).all fun bp => !T.unreadable F bp

/-- One round of the loop: a table that cannot be read is passed over. -/
theorem searchOpenTable_eq (F : ℕ → ℕ → Bool) (k : Bytes) {v : ℕ} (hv : v < 2 ^ 64)
    (vs : ValueStruct) (T : Sst.OpenTable fingerprint) :
    searchOpenTable F k (keyWithTs k v) vs T =
      some (if readableFor F (keyWithTs k v) T
        then searchTable Env.plain k (keyWithTs k v) vs T.run else vs) := by
  have hts : (keyWithTs k v).ts < 2 ^ 64 := hv
  have hlen := (keyWithTs k v).length_bytes_ge
  obtain ⟨itr, hnew⟩ := Sst.TableIterator.exists_newIterator_failing T.laid F
  rw [searchOpenTable, searchTable_eq, hnew, bind_some]
  have hcases := Sst.TableIterator.seekFrom_failing T.laid hlen F itr
  split_ifs with hbloom hread hread
  · -- The filter excludes the key, so no pair of the table has it.
    cases hl : T.run.toSortedRun.lookup (keyWithTs k v) with
    | none => rfl
    | some x =>
      have hx := (looks_table k v).some T.run x hl
      obtain ⟨y, hy, rfl⟩ := Sst.OpenTable.mem_run.mp hx.mem
      have hkey : Raw.parseKey y.1 = k := hx.key_eq
      have hfilter := T.filter y hy
      rw [hkey, hbloom] at hfilter
      cases hfilter
  · rfl
  · obtain ⟨-, heq⟩ := hcases.resolve_right (by
      rintro ⟨⟨bp, hbp, hun⟩, -⟩
      have hnot := all_eq_true.mp hread bp hbp
      rw [hun] at hnot
      exact Bool.false_ne_true hnot)
    obtain ⟨itr', hseek, hfacing⟩ := T.facing_seek false hlen itr
    have hfind := T.run_seek (keyWithTs k v)
    rw [show Sst.TableIterator.seekFrom T.toTable itr _ = _ from hseek] at heq
    rw [ofBytes_bytes hts] at hfacing
    rw [heq]
    rcases hfacing.cases with ⟨hnil, hvalid⟩ | ⟨x, r, hcons, hvalid, hkeylen, hkey, hvalue, -⟩
    · rw [hnil, head?_nil] at hfind
      rw [SortedRun.lookup, hfind, filter_none]
      simp only [hvalid, Bool.false_eq_true, if_false]
    · rw [hcons, head?_cons] at hfind
      simp only [hvalid, if_true]
      rw [Raw.sameKey_eq hlen hkeylen, ofBytes_bytes hts, Raw.parseTs_eq, hkey, hvalue,
        SortedRun.lookup, hfind, filter_some]
      by_cases hsame : sameKey (keyWithTs k v) x.1 = true
      · rw [if_pos hsame, if_pos hsame]
        dsimp only [map_some, withVersion]
        split_ifs <;> rfl
      · rw [if_neg hsame, if_neg hsame]
  · obtain ⟨-, itr', hseek, herr⟩ := hcases.resolve_left fun hall =>
      hread (by simpa [readableFor] using hall.1)
    rw [hseek]
    simp only [Sst.TableIterator.valid, herr, isNone_some, Bool.false_eq_true, if_false]

namespace Snapshot

variable (s : Snapshot fingerprint)

/-- The search of `getValueStruct` if only the tables with the property were there. -/
def found (readable : Sst.OpenTable fingerprint → Bool) (userKey : Bytes) : ValueStruct :=
  match searchMemTables s.mts (keyWithTs userKey s.seqNumber) with
  | some vs => vs
  | none => ((s.getTablesForKey userKey).filter readable).foldl
      (fun vs T => searchTable Env.plain userKey (keyWithTs userKey s.seqNumber) vs T.run) {}

theorem foldlM_searchOpenTable (F : ℕ → ℕ → Bool) (k : Bytes) {v : ℕ} (hv : v < 2 ^ 64)
    (Ts : List (Sst.OpenTable fingerprint)) (vs : ValueStruct) :
    Ts.foldlM (searchOpenTable F k (keyWithTs k v)) vs =
      some ((Ts.filter (readableFor F (keyWithTs k v))).foldl
        (fun vs T => searchTable Env.plain k (keyWithTs k v) vs T.run) vs) := by
  induction Ts generalizing vs with
  | nil => rfl
  | cons T Ts ih =>
    rw [foldlM_cons, searchOpenTable_eq F k hv, bind_eq_bind, bind_some, ih, filter_cons]
    split_ifs <;> rfl

/-- **The search passes over the tables it cannot read**, and does not fail. -/
theorem find_eq (F : ℕ → ℕ → Bool) (k : Bytes) :
    s.find F k = some (s.found (readableFor F (keyWithTs k s.seqNumber)) k) := by
  rw [find, found]
  cases searchMemTables s.mts (keyWithTs k s.seqNumber) with
  | some vs => rfl
  | none => exact foldlM_searchOpenTable F k s.seqNumber_lt _ {}

/-- The pairs of the memtables and tables. -/
def pairs : Set Pair := memPairs s.mts ∪ tablePairs (s.tables.map Sst.OpenTable.run)

/-! ### What a read comes to -/

/-- The pair that a read of `k` comes to if it reads the tables `Ts`: the newest version in the
first memtable that has one, and if none has, the newest version in the tables, from the first that
has it. -/
def Shows (Ts : List (Sst.OpenTable fingerprint)) (k : Bytes) (x : Pair) : Prop :=
  (∃ front m back, s.mts = front ++ m :: back ∧
    IsNewest userKeyOf versionOf m.toSortedRun.pairs k s.seqNumber x ∧
    ∀ n ∈ front, Absent userKeyOf versionOf n.toSortedRun.pairs k s.seqNumber) ∨
  ((∀ m ∈ s.mts, Absent userKeyOf versionOf m.toSortedRun.pairs k s.seqNumber) ∧
    FirstNewest (fun T : Sst.OpenTable fingerprint => T.run.toSortedRun.pairs) userKeyOf versionOf
      Ts k s.seqNumber x)

/-- The search for it. -/
def best (Ts : List (Sst.OpenTable fingerprint)) (k : Bytes) : Option Pair :=
  (s.mts.findSome? fun m => m.toSortedRun.lookup (keyWithTs k s.seqNumber)).or
    (Ts.foldl (fun b T => newer versionOf b
      (T.run.toSortedRun.lookup (keyWithTs k s.seqNumber))) none)

variable {s} {Ts : List (Sst.OpenTable fingerprint)} {k : Bytes} {x : Pair}

theorem Shows.mem (h : s.Shows Ts k x) (hTs : ∀ T ∈ Ts, T ∈ s.tables) :
    x ∈ s.pairs ∧ x.1.userKey = k ∧ x.2.decoded = x.2 := by
  rcases h with ⟨front, m, back, hmts, hx, -⟩ | ⟨-, hx⟩
  · exact ⟨.inl ⟨m, by simp [hmts], hx.mem⟩, hx.key_eq, m.decoded_eq x hx.mem⟩
  · obtain ⟨T, hT, hxT⟩ := hx.mem
    exact ⟨.inr ⟨T.run, mem_map_of_mem (hTs T hT), hxT⟩, hx.key_eq, T.run.decoded_eq x hxT⟩

section

variable (readable : Sst.OpenTable fingerprint → Bool) (hpos : ∀ x ∈ s.pairs, 0 < x.1.ts)
include hpos

end

variable (s)

/-- The answers of the log when nothing fails. -/
def logReply (log : LogStream) (extentID offset : ℕ) : ReadReply :=
  match log.readBlock extentID offset with
  | some b => .response [b]
  | none => .noConn

theorem readableFor_of_forall {F : ℕ → ℕ → Bool} (hF : ∀ e o, F e o = false) (key : InternalKey)
    (T : Sst.OpenTable fingerprint) : readableFor F key T = true := by
  have hnone : ∀ bp, T.unreadable F bp = false := fun bp => by
    simp [Sst.Table.unreadable, hF]
  simp [readableFor, hnone]

theorem found_congr {r r' : Sst.OpenTable fingerprint → Bool} (h : ∀ T, r T = r' T) (k : Bytes) :
    s.found r k = s.found r' k := by
  rw [show r = r' from funext h]

/-- **When nothing fails, this is the `Get` on the sorted runs of the tables**, provided that both
sort tables with the same `LastSeq` alike. -/
theorem get_eq_get (env : Env) (log : LogStream) (k : Bytes)
    (hsort : env.sortTables.sort ((s.tables.map Sst.OpenTable.run).filter fun t => t.covers k) =
      (s.getTablesForKey k).map Sst.OpenTable.run) :
    s.get (fun _ _ => false) (logReply log) k =
      Autumn.get env s.mts s.seqNumber (s.tables.map Sst.OpenTable.run) log k 0 := by
  have hfound : s.found (readableFor (fun _ _ => false) (keyWithTs k s.seqNumber)) k =
      getValueStruct env s.mts s.seqNumber (s.tables.map Sst.OpenTable.run) k 0 := by
    rw [s.found_congr (readableFor_of_forall (fun _ _ => rfl) _), found, getValueStruct, if_pos rfl]
    cases searchMemTables s.mts (keyWithTs k s.seqNumber) with
    | some vs => rfl
    | none =>
      rw [Autumn.getTablesForKey, hsort, foldl_map]
      have hall : (s.getTablesForKey k).filter (fun _ => true) = s.getTablesForKey k := by simp
      dsimp only
      congr 1
      funext vs T
      rw [searchTable_eq, searchTable_eq]
  rw [get, Autumn.get, find_eq, hfound]
  dsimp only
  split_ifs
  · rfl
  · rfl
  · rw [readValueFrom, readValue]
    split_ifs
    · dsimp only [logReply]
      cases log.readBlock _ _ <;> rfl
    · rfl

end Snapshot

/-! ## Failing reads -/

/-- How the read of a block of the log can fail. -/
inductive LogFault where
  /-- `GetExtentConn` dereferences what it cannot look up: the extent or its node. -/
  | unresolved
  | rpcError
  /-- The node has no block at the position: it answers without blocks and without an error. -/
  | noBlocks
  deriving DecidableEq, Repr

def LogFault.reply : LogFault → ReadReply
  | .unresolved => .unresolved
  | .rpcError => .rpcError
  | .noBlocks => .response []

/-- What `Get` reports as not found. -/
def Gone (vs : ValueStruct) : Prop := vs.version = 0 ∨ vs.isDeleted = true

instance (vs : ValueStruct) : Decidable (Gone vs) := inferInstanceAs (Decidable (_ ∨ _))

/-- Where the value of a pointer is. -/
def pointerOf (vs : ValueStruct) : ValuePointer := ValuePointer.decode (vs.value.getD [])

namespace Snapshot

variable (s : Snapshot fingerprint) {reply : ℕ → ℕ → ReadReply}

/-- Without failures every stored value can be read. -/
def Resolves (reply : ℕ → ℕ → ReadReply) : Prop :=
  ∀ x ∈ s.pairs, x.2.isDeleted = false → x.2.isPointer = true → ∃ b bs e es,
    reply (pointerOf x.2).extentID (pointerOf x.2).offset = .response (b :: bs) ∧
    b.entries = e :: es

theorem get_eq (F : ℕ → ℕ → Bool) (reply : ℕ → ℕ → ReadReply) (k : Bytes) :
    s.get F reply k =
      if Gone (s.found (readableFor F (keyWithTs k s.seqNumber)) k) then .error .notFound
      else readValueFrom reply (s.found (readableFor F (keyWithTs k s.seqNumber)) k) := by
  rw [get, find_eq]
  dsimp only
  by_cases hv : (s.found (readableFor F (keyWithTs k s.seqNumber)) k).version = 0
  · rw [if_pos hv, if_pos (.inl hv)]
  · by_cases hd : (s.found (readableFor F (keyWithTs k s.seqNumber)) k).isDeleted = true
    · rw [if_neg hv, if_pos hd, if_pos (.inr hd)]
    · have hlive : ¬ Gone (s.found (readableFor F (keyWithTs k s.seqNumber)) k) :=
        not_or.mpr ⟨hv, hd⟩
      rw [if_neg hv, if_neg hd, if_neg hlive]

section

variable {s} (hres : s.Resolves reply) (hpos : ∀ x ∈ s.pairs, 0 < x.1.ts) (F : ℕ → ℕ → Bool)
  (G : ℕ → ℕ → Option LogFault) (k : Bytes)
include hres hpos

end

/-- A pair of the key `[1]`, with its version as value. -/
def versionPair (v : ℕ) : Sst.KV := ((keyWithTs [1] v).bytes, { value := some [v.toUInt8] })

theorem fits_versionPair (v : ℕ) : Sst.Fits (versionPair v) := by
  have hlen : (keyWithTs [1] v).bytes.length = 9 := length_bytes _
  refine ⟨⟨by rw [versionPair, hlen]; decide, by rw [versionPair, hlen]; decide⟩, ?_, ?_⟩
  · show 0 < 2 ^ 64
    decide
  · show 1 + 2 + sizeVarint 0 ≤ Sst.maxValueSize
    decide

/-- Version 1 of a key in one table, version 2 in a later one. -/
def twoTables : Snapshot fun _ => 0 where
  mts := []
  seqNumber := 2
  seqNumber_lt := by decide
  tables :=
    [Sst.OpenTable.single (versionPair 1) (fits_versionPair 1) (by decide) 1 1,
      Sst.OpenTable.single (versionPair 2) (fits_versionPair 2) (by decide) 2 2]
  sortTables := SliceSort.insertionDesc fun T : Sst.OpenTable fun _ => 0 => T.lastSeq

/-- Their sorted runs. -/
def twoRuns : List Table := twoTables.tables.map Sst.OpenTable.run

theorem get_eq_get_twoTables : twoTables.get (fun _ _ => false) (logReply (World.init 1).log) [1] =
    Autumn.get Env.plain [] 2 twoRuns (World.init 1).log [1] 0 :=
  twoTables.get_eq_get Env.plain _ [1] rfl

/-- The log has one block with the value. -/
def oneBlock (extentID offset : ℕ) : ReadReply :=
  if extentID = 7 ∧ offset = 512 then .response [valueBlock (writeEntry [1] [9] 1)] else .noConn

end Snapshot

end Autumn
