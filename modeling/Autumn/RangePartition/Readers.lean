import Autumn.Lib.Run
import Autumn.RangePartition.Faithful
import Autumn.RangePartition.Range
import Mathlib.Order.Interval.Set.Defs

/-!
# Readers beside flushes and compactions

A reader takes two snapshots under two different locks: the memtables, and later the table list.  In
between the writer goes on, memtables are rotated and flushed, and a compaction may replace tables.
The memtable that was mutable when the reader took it is shared with the writer until it is rotated.

The table of a memtable joins `rp.tables` before the memtable leaves `rp.imm`, and a reader looks at
the memtables first, so it does not miss a pair that moves.  What a compaction takes away it
replaces by newer versions, unless these are deletions.  So the tables keep showing, for every pair
that was put before the reader started and is not in its memtables, this pair or a newer one, or a
newer deletion has been compacted away (`Shows`).

`Get` asks for versions up to the sequence number it loads after it has taken the memtables, so a
compaction between the load and the look at the tables could drop the version it asks for in favour
of one that is too new.  The partition is handed out after its compaction, so this does not come up;
`readers_see_latest` has it as a condition.  What does go wrong is the empty key in a table
(`get_misses`).
-/

namespace Autumn

open Lib Y List Lsm

/-! ## What a reader may see -/

/-- A pair of `k` that is not older than what had been put before the reader started. -/
structure Recent (before puts : List Pair) (k : Bytes) (y : Pair) : Prop where
  mem : y ∈ puts
  key_eq : y.1.userKey = k
  le : ∀ x ∈ before, x.1.userKey = k → x.1.ts ≤ y.1.ts

/-- What a reader may see of a user key: the last pair put before it started or a newer one; nothing
if this pair is a deletion, or if there was no pair. -/
def Sees (before puts : List Pair) (k : Bytes) : Option Pair → Prop
  | some y => Recent before puts k y
  | none => (∃ y, Recent before puts k y ∧ y.2.isDeleted = true) ∨
      ∀ x ∈ before, x.1.userKey ≠ k

variable {k : Bytes} {y : Pair} {puts : List Pair}

theorem Recent.of_append {before : List Pair} (h : Recent before puts k y) (new : List Pair) :
    Recent before (puts ++ new) k y :=
  ⟨mem_append_left _ h.mem, h.key_eq, h.le⟩

theorem Sees.of_append {before : List Pair} {o : Option Pair} (h : Sees before puts k o)
    (new : List Pair) : Sees before (puts ++ new) k o := by
  cases o with
  | some y => exact Recent.of_append h new
  | none => exact h.imp (fun ⟨y, hy, hdel⟩ => ⟨y, hy.of_append new, hdel⟩) id

/-- Of `k` the set holds the last pair put before or a newer one, with a version up to `v`; or it
holds newer ones only, and a deletion is newer as well. -/
def Covers (before puts : List Pair) (k : Bytes) (S : Set Pair) (v : ℕ) : Prop :=
  ∀ x, Lsm.Latest before x → x.1.userKey = k →
    (∃ z ∈ S, z.1.userKey = k ∧ x.1.ts ≤ z.1.ts ∧ z.1.ts ≤ v) ∨
      (∀ z ∈ S, z.1.userKey = k → x.1.ts ≤ z.1.ts) ∧
        ∃ y ∈ puts, y.1.userKey = k ∧ x.1.ts ≤ y.1.ts ∧ y.2.isDeleted = true

variable {v : ℕ}

section

variable {before : List Pair} {S : Set Pair}

theorem recent_of_le (hy : y ∈ puts) (hk : y.1.userKey = k)
    (hle : ∀ x, Lsm.Latest before x → x.1.userKey = k → x.1.ts ≤ y.1.ts) :
    Recent before puts k y := by
  refine ⟨hy, hk, fun x hx hxk => ?_⟩
  obtain ⟨u, hu, huk⟩ := exists_latest hx
  exact (hu.2 x hx huk.symm).trans (hle u hu (huk.trans hxk))

theorem Covers.sees_some (h : Covers before puts k S v) (hS : ∀ x ∈ S, x ∈ puts) {v' : ℕ}
    (hy : IsNewest userKeyOf versionOf S k v' y) (hv : v ≤ v') : Sees before puts k (some y) := by
  refine recent_of_le (hS y hy.mem) hy.key_eq fun x hx hxk => ?_
  rcases h x hx hxk with ⟨z, hz, hzk, hle, hzv⟩ | ⟨hall, _⟩
  · exact hle.trans (hy.max z hz hzk (hzv.trans hv))
  · exact hall y hy.mem hy.key_eq

theorem Covers.sees_none (h : Covers before puts k S v)
    (habs : Absent userKeyOf versionOf S k v) : Sees before puts k none := by
  by_cases hex : ∃ x ∈ before, x.1.userKey = k
  · obtain ⟨x, hx, hxk⟩ := hex
    obtain ⟨u, hu, huk⟩ := exists_latest hx
    rcases h u hu (huk.trans hxk) with ⟨z, hz, hzk, _, hzv⟩ | ⟨_, y, hy, hyk, hle, hdel⟩
    · exact absurd (habs z hz hzk) (not_lt.mpr hzv)
    · refine .inl ⟨y, ⟨hy, hyk, fun z hz hzk => ?_⟩, hdel⟩
      exact (hu.2 z hz (hzk.trans (hxk.symm.trans huk.symm))).trans hle
  · exact .inr fun x hx hxk => hex ⟨x, hx, hxk⟩

end

/-! ## What the tables show -/

variable {V : Set ℕ} {x : Pair} {L T : Set Pair} {P : List Pair} {s : Lsm}

namespace Lsm

/-- The pairs `T` hold `x` or a newer version of its user key, among the versions `V`; or a newer
deletion is gone, and what is left of the user key in `L` is newer than that. -/
def Shows (P : List Pair) (T L : Set Pair) (V : Set ℕ) (x : Pair) : Prop :=
  ∃ y ∈ P, y.1.userKey = x.1.userKey ∧ x.1.ts ≤ y.1.ts ∧ y.1.ts ∈ V ∧
    (y ∈ T ∨ (y.2.isDeleted = true ∧ ∀ z ∈ L, z.1.userKey = x.1.userKey → y.1.ts < z.1.ts))

theorem Shows.of_append (h : Shows P T L V x) (new : List Pair) : Shows (P ++ new) T L V x := by
  obtain ⟨y, hy, hrest⟩ := h
  exact ⟨y, mem_append_left _ hy, hrest⟩

theorem Shows.mono {L' : Set Pair} {V' : Set ℕ} (h : Shows P T L V x) (hL : L' ⊆ L)
    (hV : ∀ y ∈ P, y.1.ts ∈ V → y.1.ts ∈ V') : Shows P T L' V' x := by
  obtain ⟨y, hy, hyk, hle, hyV, hor⟩ := h
  exact ⟨y, hy, hyk, hle, hV y hy hyV, hor.imp id fun ⟨hdel, hz⟩ =>
    ⟨hdel, fun z hz' => hz z (hL hz')⟩⟩

/-- The last pair of a user key is in the memtables, or these hold no pair of the user key and the
tables show it. -/
theorem Faithful.mem_or_shows (h : s.Faithful P) (hx : Latest P x) : x ∈ memPairs s.memTables ∨
      (∀ z ∈ memPairs s.memTables, z.1.userKey ≠ x.1.userKey) ∧
        Shows P (tablePairs s.tables) s.live Set.univ x := by
  have hvis := visible_eq_live h.sane h.built
  rcases h.latest x hx with hlive | ⟨hdel, hno⟩
  · rw [← hvis] at hlive
    rcases hlive with hmem | htab
    · exact .inl hmem
    · by_cases hmem : x ∈ memPairs s.memTables
      · exact .inl hmem
      refine .inr ⟨?_, x, hx.1, rfl, le_rfl, trivial, .inl htab⟩
      -- A memtable with a pair of the user key would have to hold `x` itself.
      rintro z ⟨m, hm, hz⟩ hzk
      have hzP : z ∈ P := h.from_puts z (hvis ▸ .inl ⟨m, hm, hz⟩)
      rcases h.layered.tables m hm x htab z hz hzk with hle | ⟨u, hu, huk, huv⟩
      · have hts : z.1.ts = x.1.ts := le_antisymm (hx.2 z hzP hzk) hle
        exact hmem (eq_of_ts_eq h.increasing hzP hx.1 hts ▸ ⟨m, hm, hz⟩)
      · have huP : u ∈ P := h.from_puts u (hvis ▸ .inl ⟨m, hm, hu⟩)
        exact hmem (eq_of_ts_eq h.increasing huP hx.1 huv ▸ ⟨m, hm, hu⟩)
  · refine .inr ⟨fun z hz => hno z (hvis ▸ .inl hz), x, hx.1, rfl, le_rfl, trivial,
      .inr ⟨hdel, fun z hz hzk => absurd hzk (hno z hz)⟩⟩

theorem exists_last_of_tables {ts : List Table} (hx : x ∈ tablePairs ts) :
    ∃ y ∈ tablePairs ts, y.1.userKey = x.1.userKey ∧
      ∀ z ∈ tablePairs ts, z.1.userKey = x.1.userKey → z.1.ts ≤ y.1.ts := by
  have hmem : ∀ z, z ∈ tablePairs ts ↔ z ∈ ts.flatMap fun t => t.data.entries := by
    intro z
    rw [mem_flatMap]
    rfl
  obtain ⟨y, hy, hyk⟩ := exists_latest ((hmem x).mp hx)
  exact ⟨y, (hmem y).mpr hy.1, hyk, fun z hz hzk => hy.2 z ((hmem z).mp hz) (hzk.trans hyk.symm)⟩

/-- The end of a compaction.  What it takes away is shown by the last version in its tables, which
survives or is a deletion. -/
theorem Shows.compactFinish {s' : Lsm} (h : s.Faithful P) (hs : LsmStep s .compactFinish s')
    (hV : ∀ c, s.compaction = some c → ∀ y ∈ tablePairs c.tbls, y.1.ts ∈ V)
    (hx : Shows P (tablePairs s.tables) s.live V x) :
    Shows P (tablePairs s'.tables) s'.live V x := by
  obtain ⟨y, hyP, hyk, hle, hyV, hor⟩ := hx
  rcases hor with htab | ⟨hdel, hnew⟩
  · rcases mem_tables_or_finish h.sane hs htab with htab | ⟨c, hc, hyc⟩
    · exact ⟨y, hyP, hyk, hle, hyV, .inl htab⟩
    · -- The last version `u` in the tables of the compaction takes the place of `y`.
      obtain ⟨u, hu, huk, hmax⟩ := exists_last_of_tables hyc
      have huP : u ∈ P := h.mem_tables u ((h.sane.compaction c hc).tablePairs_subset hu)
      refine ⟨u, huP, huk.trans hyk, hle.trans (hmax y hyc rfl), hV c hc u hu, ?_⟩
      rw [← hyk, ← huk]
      exact h.survives_or_newer hs hc hu fun z hz hzk => hmax z hz (hzk.trans huk)
  · exact ⟨y, hyP, hyk, hle, hyV, .inr ⟨hdel, fun z hz => hnew z (mem_live_of_finish h hs z hz)⟩⟩

/-- **The tables keep showing what they show**, along every operation; at the end of a compaction
the versions in its tables must be among those that count. -/
theorem Shows.step {s' : Lsm} {op : LsmOp} (h : s.Faithful P) (hs : LsmStep s op s')
    (hput : ∀ x ∈ op.puts, ∀ y ∈ P, y.1.ts < x.1.ts)
    (hV : ∀ c, s.compaction = some c → ∀ y ∈ tablePairs c.tbls, y.1.ts ∈ V)
    (hx : Shows P (tablePairs s.tables) s.live V x) :
    Shows (P ++ op.puts) (tablePairs s'.tables) s'.live V x := by
  by_cases hop : op = .compactFinish
  · subst hop
    exact (Shows.compactFinish h hs hV hx).of_append _
  · obtain ⟨y, hyP, hyk, hle, hyV, hor⟩ := hx
    refine ⟨y, mem_append_left _ hyP, hyk, hle, hyV, ?_⟩
    rcases hor with ⟨t, ht, hyt⟩ | ⟨hdel, hnew⟩
    · exact .inl ⟨t, subset_tables_of_step hs hop t ht, hyt⟩
    · refine .inr ⟨hdel, fun z hz hzk => ?_⟩
      rcases mem_live_of_step h.sane h.built hs hz with hz | hz
      · exact hnew z hz hzk
      · exact hput z hz y hyP

end Lsm

/-! ## A writer and a reader -/

/-- The memtables a reader holds, from `getMemTables` on. -/
structure Held where
  /-- The memtable that was mutable, as it was taken. -/
  low : Skiplist
  head : Skiplist
  /-- It is still the mutable one. -/
  shared : Bool
  /-- The immutable ones, from the newest on. -/
  imms : List Skiplist
  /-- What had been put when they were taken. -/
  before : List Pair

/-- Where the reader is. -/
inductive Reader where
  | idle
  | holding (h : Held)
  /-- In `getValueStruct`, with the sequence number. -/
  | numbered (h : Held) (v : ℕ)
  /-- In `getValueStruct`: no memtable has an answer. -/
  | missed (h : Held) (v : ℕ) (k : Bytes)
  /-- `getValueStruct` has returned. -/
  | got (before : List Pair) (k : Bytes) (vs : ValueStruct)
  /-- In `Range`, with the iterator. -/
  | iterating (h : Held) (tables : List Table)
  /-- In the loop of `Range`, with the sequence number. -/
  | scanning (h : Held) (tables : List Table) (v : ℕ)

/-- The memtables and tables, with the pairs put so far, and a reader. -/
structure Watch where
  lsm : Lsm
  seqNumber : ℕ
  puts : List Pair
  reader : Reader

inductive WatchOp where
  | draw
  | lsm (op : LsmOp)
  | getMemTables
  | loadSeq
  | searchMem (k : Bytes)
  | searchTables
  | snapshotTables

/-- `getMemTables`. -/
def Lsm.getMemTables (s : Lsm) (puts : List Pair) : Held where
  low := s.mt
  head := s.mt
  shared := true
  imms := s.imm.reverse
  before := puts

/-- The shared memtable takes what is put, until it is rotated. -/
def Held.follow (h : Held) (s' : Lsm) : LsmOp → Held
  | .put _ _ _ => if h.shared then { h with head := s'.mt } else h
  | .rotate _ _ => { h with shared := false }
  | _ => h

def Reader.follow (s' : Lsm) (op : LsmOp) : Reader → Reader
  | .holding h => .holding (h.follow s' op)
  | .numbered h v => .numbered (h.follow s' op) v
  | .missed h v k => .missed (h.follow s' op) v k
  | .iterating h tables => .iterating (h.follow s' op) tables
  | .scanning h tables v => .scanning (h.follow s' op) tables v
  | r => r

namespace Watch

/-- The state of a partition that has just opened its tables, `puts` being their pairs. -/
def init (tables : List Table) (puts : List Pair) (seqNumber : ℕ) : Watch where
  lsm := .opened tables
  seqNumber := seqNumber
  puts := puts
  reader := .idle

/-- What a single writer puts: a version that has been drawn, above all versions before. -/
def Writes (w : Watch) (op : LsmOp) : Prop :=
  ∀ x ∈ op.puts, (∀ y ∈ w.puts, y.1.ts < x.1.ts) ∧ 0 < x.1.ts ∧ x.1.ts ≤ w.seqNumber ∧
    x.2.expiresAt = 0

instance (w : Watch) (op : LsmOp) : Decidable (w.Writes op) :=
  inferInstanceAs (Decidable (∀ x ∈ op.puts, (∀ y ∈ w.puts, y.1.ts < x.1.ts) ∧ 0 < x.1.ts ∧
    x.1.ts ≤ w.seqNumber ∧ x.2.expiresAt = 0))

/-- One step of the writer, of the flusher, of a compaction, or of the reader. -/
def step (env : Env) (w : Watch) : WatchOp → Option Watch
  | .draw => some { w with seqNumber := w.seqNumber + 1 }
  | .lsm op =>
    if w.Writes op then
      (w.lsm.apply op).map fun s' =>
        { w with lsm := s', puts := w.puts ++ op.puts, reader := w.reader.follow s' op }
    else none
  | .getMemTables => some { w with reader := .holding (w.lsm.getMemTables w.puts) }
  | .loadSeq =>
    match w.reader with
    | .holding h => some { w with reader := .numbered h w.seqNumber }
    | .iterating h tables => some { w with reader := .scanning h tables w.seqNumber }
    | _ => none
  | .searchMem k =>
    match w.reader with
    | .numbered h v =>
      match searchMemTables (h.head :: h.imms) (keyWithTs k v) with
      | some vs => some { w with reader := .got h.before k vs }
      | none => some { w with reader := .missed h v k }
    | _ => none
  | .searchTables =>
    match w.reader with
    | .missed h v k =>
      let maxVs :=
        (getTablesForKey env w.lsm.tables k).foldl (searchTable env k (keyWithTs k v)) {}
      some { w with reader := .got h.before k maxVs }
    | _ => none
  | .snapshotTables =>
    match w.reader with
    | .holding h => some { w with reader := .iterating h w.lsm.tables }
    | _ => none

end Watch

/-! ## The memtables of a reader -/

/-- What holds of the memtables of a reader. -/
structure Held.Inv (h : Held) (s : Lsm) (P : List Pair) : Prop where
  before : ∀ x ∈ h.before, x ∈ P
  low : ∀ x ∈ h.low.toSortedRun, x ∈ h.head.toSortedRun
  head : ∀ x ∈ h.head.toSortedRun, x ∈ P
  later : ∀ x ∈ h.head.toSortedRun, x ∈ h.low.toSortedRun ∨ ∀ y ∈ h.before, y.1.ts < x.1.ts
  imms : ∀ m ∈ h.imms, ∀ x ∈ m.toSortedRun, x ∈ P
  same : h.shared = true → h.head = s.mt
  dominates : (h.head :: h.imms).Pairwise fun m n =>
    Dominates userKeyOf versionOf m.toSortedRun.pairs n.toSortedRun.pairs
  /-- As they were taken, they hold the last pair of a user key that was put before, or no pair. -/
  either : ∀ x, Lsm.Latest h.before x → x ∈ memPairs (h.low :: h.imms) ∨
    ∀ z ∈ memPairs (h.low :: h.imms), z.1.userKey ≠ x.1.userKey

/-- What is not in the memtables of the reader is shown by the tables. -/
def Held.Shown (h : Held) (P : List Pair) (T L : Set Pair) (V : Set ℕ) : Prop :=
  ∀ x, Lsm.Latest h.before x → x ∈ memPairs (h.low :: h.imms) ∨ Lsm.Shows P T L V x

variable {h : Held}

section

variable {s' : Lsm} {op : LsmOp}

theorem Held.follow_eq (h : Held) (s' : Lsm) (op : LsmOp) :
    (h.follow s' op).low = h.low ∧ (h.follow s' op).imms = h.imms ∧
      (h.follow s' op).before = h.before := by
  cases op with
  | put key vs height =>
    rw [follow]
    split_ifs <;> exact ⟨rfl, rfl, rfl⟩
  | _ => exact ⟨rfl, rfl, rfl⟩

theorem Held.Shown.follow (hh : h.Shown P T L V) (s' : Lsm) (op : LsmOp) :
    (h.follow s' op).Shown P T L V := by
  obtain ⟨h1, h2, h3⟩ := h.follow_eq s' op
  unfold Held.Shown
  rw [h1, h2, h3]
  exact hh

theorem Lsm.Faithful.held (hf : s.Faithful P) : (s.getMemTables P).Inv s P ∧
    (s.getMemTables P).Shown P (tablePairs s.tables) s.live Set.univ := by
  have hP : ∀ x ∈ memPairs s.memTables, x ∈ P := fun x hx =>
    hf.from_puts x (visible_eq_live hf.sane hf.built ▸ .inl hx)
  refine ⟨⟨fun x hx => hx, fun x hx => hx, ?_, fun x hx => .inl hx, ?_, fun _ => rfl,
    hf.layered.mem, fun x hx => ?_⟩, fun x hx => ?_⟩
  · exact fun x hx => hP x ⟨s.mt, (.head _), hx⟩
  · exact fun m hm x hx => hP x ⟨m, .tail _ hm, hx⟩
  · exact (hf.mem_or_shows hx).imp id And.left
  · exact (hf.mem_or_shows hx).imp id And.right

theorem Held.Inv.step (hh : h.Inv s P) (hs : LsmStep s op s')
    (hput : ∀ x ∈ op.puts, ∀ y ∈ P, y.1.ts < x.1.ts) :
    (h.follow s' op).Inv s' (P ++ op.puts) := by
  have hP : ∀ {x}, x ∈ P → x ∈ P ++ op.puts := mem_append_left _
  -- The memtables of the reader stay as they are.
  have hkeep : ∀ shared, (shared = true → h.head = s'.mt) →
      ({ h with shared := shared } : Held).Inv s' (P ++ op.puts) := fun shared hmt =>
    ⟨fun x hx => hP (hh.before x hx), hh.low, fun x hx => hP (hh.head x hx), hh.later,
      fun m hm x hx => hP (hh.imms m hm x hx), hmt, hh.dominates, hh.either⟩
  cases hs with
  | @put key vs height room =>
    have hnew : ∀ y ∈ P, y.1.ts < key.ts := hput (key, vs.decoded) (.head _)
    rw [Held.follow]
    split_ifs with hsh
    · have hmt := hh.same hsh
      obtain ⟨htop, hrest⟩ := pairwise_cons.mp hh.dominates
      have hmem : ∀ x ∈ (s.mt.put key vs height).toSortedRun,
          x = (key, vs.decoded) ∨ x ∈ h.head.toSortedRun := by
        intro x hx
        rw [hmt]
        exact (SortedRun.mem_put.mp hx).imp id And.left
      refine ⟨fun x hx => hP (hh.before x hx), fun x hx => ?_, fun x hx => ?_, fun x hx => ?_,
        fun m hm x hx => hP (hh.imms m hm x hx), fun _ => rfl,
        pairwise_cons.mpr ⟨fun n hn => ?_, hrest⟩, hh.either⟩
      · have hx' := hh.low x hx
        refine SortedRun.mem_put.mpr (.inr ⟨hmt ▸ hx', fun hkey => ?_⟩)
        exact absurd (hnew x (hh.head x hx')) (by rw [hkey]; exact lt_irrefl _)
      · rcases hmem x hx with rfl | hx
        · exact mem_concat_self
        · exact hP (hh.head x hx)
      · rcases hmem x hx with rfl | hx
        · exact .inr fun y hy => hnew y (hh.before y hy)
        · exact hh.later x hx
      · refine dominates_put (hmt ▸ htop n hn) fun x hx _ => ?_
        exact (hnew x (hh.imms n hn x hx)).le
    · exact hkeep h.shared fun hsh' => absurd hsh' hsh
  | rotate room => exact hkeep false fun hsh => absurd hsh (by simp)
  | _ => exact hkeep h.shared hh.same

theorem memPairs_cons_subset {m n : Skiplist} (h : ∀ x ∈ m.toSortedRun, x ∈ n.toSortedRun)
    (ms : List Skiplist) : memPairs (m :: ms) ⊆ memPairs (n :: ms) := by
  rintro x ⟨m, hm, hx⟩
  rcases hm with _ | ⟨_, hm⟩
  · exact ⟨n, .head _, h x hx⟩
  · exact ⟨m, .tail _ hm, hx⟩

theorem Held.Inv.low_subset (hh : h.Inv s P) :
    memPairs (h.low :: h.imms) ⊆ memPairs (h.head :: h.imms) :=
  memPairs_cons_subset hh.low _

theorem Held.Inv.mem_puts (hh : h.Inv s P) : ∀ x ∈ memPairs (h.head :: h.imms), x ∈ P := by
  rintro x ⟨m, hm, hx⟩
  rcases hm with _ | ⟨_, hm⟩
  · exact hh.head x hx
  · exact hh.imms m hm x hx

/-- What has come to a user key that the memtables did not hold is newer than all that was there. -/
theorem Held.Inv.le_of_later (hh : h.Inv s P) {z : Pair} (hx : x ∈ h.before)
    (hno : ∀ z ∈ memPairs (h.low :: h.imms), z.1.userKey ≠ x.1.userKey)
    (hz : z ∈ memPairs (h.head :: h.imms)) (hzk : z.1.userKey = x.1.userKey) : x.1.ts ≤ z.1.ts := by
  obtain ⟨m, hm, hzm⟩ := hz
  rcases hm with _ | ⟨_, hm⟩
  · rcases hh.later z hzm with hzl | hlater
    · exact absurd hzk (hno z ⟨h.low, (.head _), hzl⟩)
    · exact (hlater x hx).le
  · exact absurd hzk (hno z ⟨m, .tail _ hm, hzm⟩)

/-- What the reader holds together with the tables covers every user key. -/
theorem Held.Inv.covers (hh : h.Inv s P) (hle : ∀ x ∈ h.before, x.1.ts ≤ v)
    (hshown : h.Shown P T T (Set.Iic v)) {M : Set Pair} (hlow : memPairs (h.low :: h.imms) ⊆ M)
    (hM : M ⊆ memPairs (h.head :: h.imms)) (k : Bytes) : Covers h.before P k (M ∪ T) v := by
  rintro x hx rfl
  by_cases hmem : x ∈ memPairs (h.low :: h.imms)
  · exact .inl ⟨x, .inl (hlow hmem), rfl, le_rfl, hle x hx.1⟩
  · obtain ⟨y, hyP, hyk, hxy, hyv, hor⟩ := (hshown x hx).resolve_left hmem
    rcases hor with hyT | ⟨hdel, hnew⟩
    · exact .inl ⟨y, .inr hyT, hyk, hxy, hyv⟩
    · refine .inr ⟨fun z hz hzk => ?_, y, hyP, hyk, hxy, hdel⟩
      rcases hz with hz | hz
      · exact hh.le_of_later hx.1 ((hh.either x hx).resolve_left hmem) (hM hz) hzk
      · exact hxy.trans (hnew z hz hzk).le

theorem Held.Inv.sees_mem (hh : h.Inv s P) (hle : ∀ x ∈ h.before, x.1.ts ≤ v)
    (hy : IsNewest userKeyOf versionOf (memPairs (h.head :: h.imms)) k v y) :
    Sees h.before P k (some y) := by
  refine recent_of_le (hh.mem_puts y hy.mem) hy.key_eq fun x hx hxk => ?_
  rcases hh.either x hx with hmem | hno
  · exact hy.max x (hh.low_subset hmem) hxk (hle x hx.1)
  · exact hh.le_of_later hx.1 hno hy.mem (hy.key_eq.trans hxk.symm)

end

/-! ## The invariants -/

/-- What holds of the reader in every run. -/
def Reader.Good (s : Lsm) (P : List Pair) : Reader → Prop
  | .holding h => h.Inv s P ∧ h.Shown P (tablePairs s.tables) s.live Set.univ
  | .numbered h v | .missed h v _ => h.Inv s P ∧ ∀ x ∈ h.before, x.1.ts ≤ v
  | .iterating h tables => h.Inv s P ∧ (∀ x ∈ tablePairs tables, x ∈ P) ∧
      h.Shown P (tablePairs tables) (tablePairs tables) Set.univ
  | .scanning h tables v => h.Inv s P ∧ (∀ x ∈ tablePairs tables, x ∈ P) ∧
      (∀ x ∈ h.before, x.1.ts ≤ v) ∧
      h.Shown P (tablePairs tables) (tablePairs tables) (Set.Iic v)
  | _ => True

/-- What holds of `Get` if no compaction starts while it searches: the tables still show what it
asks for, and a compaction in progress does not bring newer versions. -/
def Reader.Safe (s : Lsm) (P : List Pair) : Reader → Prop
  | .numbered h v => h.Shown P (tablePairs s.tables) s.live (Set.Iic v) ∧
      ∀ c, s.compaction = some c → ∀ y ∈ tablePairs c.tbls, y.1.ts ≤ v
  | .missed h v k => h.Shown P (tablePairs s.tables) s.live (Set.Iic v) ∧
      (∀ c, s.compaction = some c → ∀ y ∈ tablePairs c.tbls, y.1.ts ≤ v) ∧
      Absent userKeyOf versionOf (memPairs (h.low :: h.imms)) k v
  | .got before k vs => k ≠ [] → ∃ o, Sees before P k o ∧ vs = ofBest o
  | _ => True

/-- `Get` has loaded the sequence number and has not looked at the tables. -/
def Reader.searches : Reader → Bool
  | .numbered _ _ | .missed _ _ _ => true
  | _ => false

/-- `doCompact` begins. -/
def WatchOp.startsCompaction : WatchOp → Bool
  | .lsm .compactStart => true
  | _ => false

section

variable {s' : Lsm} {r : Reader} {op : LsmOp}

theorem Held.Shown.of_append (hh : h.Shown P T L V) (new : List Pair) : h.Shown (P ++ new) T L V :=
  fun x hx => (hh x hx).imp id fun hs => hs.of_append new

theorem Held.Shown.mono {L' : Set Pair} {V' : Set ℕ} (hh : h.Shown P T L V) (hL : L' ⊆ L)
    (hV : ∀ y ∈ P, y.1.ts ∈ V → y.1.ts ∈ V') : h.Shown P T L' V' :=
  fun x hx => (hh x hx).imp id fun hs => hs.mono hL hV

theorem Held.Shown.step (hh : h.Shown P (tablePairs s.tables) s.live V) (hf : s.Faithful P)
    (hs : LsmStep s op s') (hput : ∀ x ∈ op.puts, ∀ y ∈ P, y.1.ts < x.1.ts)
    (hV : ∀ c, s.compaction = some c → ∀ y ∈ tablePairs c.tbls, y.1.ts ∈ V) :
    (h.follow s' op).Shown (P ++ op.puts) (tablePairs s'.tables) s'.live V :=
  Held.Shown.follow (fun x hx => (hh x hx).imp id fun hx => Lsm.Shows.step hf hs hput hV hx) s' op

theorem Reader.Good.step (hr : r.Good s P) (hf : s.Faithful P) (hs : LsmStep s op s')
    (hput : ∀ x ∈ op.puts, ∀ y ∈ P, y.1.ts < x.1.ts) :
    (r.follow s' op).Good s' (P ++ op.puts) := by
  have hbefore : ∀ {h : Held} {v : ℕ}, (∀ x ∈ h.before, x.1.ts ≤ v) →
      ∀ x ∈ (h.follow s' op).before, x.1.ts ≤ v := by
    intro h v hle
    rwa [(h.follow_eq s' op).2.2]
  have htab : ∀ {tables : List Table}, (∀ x ∈ tablePairs tables, x ∈ P) →
      ∀ x ∈ tablePairs tables, x ∈ P ++ op.puts := fun h x hx => mem_append_left _ (h x hx)
  cases r with
  | holding h => exact ⟨hr.1.step hs hput, hr.2.step hf hs hput fun _ _ _ _ => trivial⟩
  | numbered h v | missed h v k => exact ⟨hr.1.step hs hput, hbefore hr.2⟩
  | iterating h tables =>
    exact ⟨hr.1.step hs hput, htab hr.2.1, (hr.2.2.of_append op.puts).follow s' op⟩
  | scanning h tables v =>
    exact ⟨hr.1.step hs hput, htab hr.2.1, hbefore hr.2.2.1,
      (hr.2.2.2.of_append op.puts).follow s' op⟩
  | _ => trivial

theorem Lsm.compaction_of_step (hs : LsmStep s op s') (hop : op ≠ .compactStart) {c' : Compaction}
    (hc' : s'.compaction = some c') : ∃ c, s.compaction = some c ∧ c'.tbls = c.tbls := by
  cases hs with
  | @notify c hf hc ht | @compactSend c now hs hc ht room =>
    cases hc'
    exact ⟨c, hc, rfl⟩
  | compactStart hc hlen => exact absurd rfl hop
  | compactFinish hc ht hr => cases hc'
  | _ => exact ⟨c', hc', rfl⟩

theorem Reader.Safe.step (hr : r.Safe s P) (hf : s.Faithful P) (hs : LsmStep s op s')
    (hput : ∀ x ∈ op.puts, ∀ y ∈ P, y.1.ts < x.1.ts)
    (hop : r.searches = true → op ≠ .compactStart) :
    (r.follow s' op).Safe s' (P ++ op.puts) := by
  have hcomp : ∀ {v : ℕ}, r.searches = true →
      (∀ c, s.compaction = some c → ∀ y ∈ tablePairs c.tbls, y.1.ts ≤ v) →
      ∀ c', s'.compaction = some c' → ∀ y ∈ tablePairs c'.tbls, y.1.ts ≤ v := by
    intro v hsr hle c' hc'
    obtain ⟨c, hc, htbls⟩ := compaction_of_step hs (hop hsr) hc'
    rw [htbls]
    exact hle c hc
  cases r with
  | numbered h v => exact ⟨hr.1.step hf hs hput hr.2, hcomp rfl hr.2⟩
  | missed h v k =>
    refine ⟨hr.1.step hf hs hput hr.2.1, hcomp rfl hr.2.1, ?_⟩
    obtain ⟨h1, h2, _⟩ := h.follow_eq s' op
    rw [h1, h2]
    exact hr.2.2
  | got before k vs =>
    intro hk
    obtain ⟨o, ho, hvs⟩ := hr hk
    exact ⟨o, ho.of_append _, hvs⟩
  | _ => trivial

end

namespace Watch

/-- The invariant of every run. -/
structure Inv (w : Watch) : Prop where
  faithful : w.lsm.Faithful w.puts
  bounds : ∀ x ∈ w.puts, 0 < x.1.ts ∧ x.1.ts ≤ w.seqNumber
  good : w.reader.Good w.lsm w.puts

/-- The pairs of the tables, from the oldest version to the newest. -/
structure Listed (tables : List Table) (puts : List Pair) (seqNumber : ℕ) : Prop where
  increasing : puts.Pairwise fun x y => x.1.ts < y.1.ts
  mem_iff : ∀ x, x ∈ puts ↔ x ∈ tablePairs tables
  bounds : ∀ x ∈ puts, 0 < x.1.ts ∧ x.1.ts ≤ seqNumber
  lasting : ∀ x ∈ puts, x.2.expiresAt = 0

theorem inv_init {tables : List Table} {seqNumber : ℕ} (h : Listed tables puts seqNumber) :
    (init tables puts seqNumber).Inv :=
  ⟨faithful_opened_of h.increasing h.lasting h.mem_iff, h.bounds, trivial⟩

variable {env : Env} {w w' : Watch} {op : WatchOp}

theorem Inv.tables_mem (h : w.Inv) : ∀ x ∈ tablePairs w.lsm.tables, x ∈ w.puts :=
  h.faithful.mem_tables

theorem Inv.step (h : w.Inv) (hs : w.step env op = some w') : w'.Inv := by
  cases op with
  | draw =>
    cases hs
    exact ⟨h.faithful, fun x hx => ⟨(h.bounds x hx).1, (h.bounds x hx).2.trans (Nat.le_succ _)⟩,
      h.good⟩
  | lsm op =>
    simp only [Watch.step, Option.ite_none_right_eq_some, Option.map_eq_some_iff] at hs
    obtain ⟨hw, s', hs, rfl⟩ := hs
    have hs := step_of_apply hs
    refine ⟨h.faithful.step hs fun x hx => ⟨(hw x hx).1, (hw x hx).2.2.2⟩, fun x hx => ?_,
      h.good.step h.faithful hs fun x hx => (hw x hx).1⟩
    rcases mem_append.mp hx with hx | hx
    · exact h.bounds x hx
    · exact ⟨(hw x hx).2.1, (hw x hx).2.2.1⟩
  | getMemTables =>
    cases hs
    exact ⟨h.faithful, h.bounds, h.faithful.held⟩
  | loadSeq =>
    have hle : ∀ x ∈ w.puts, x.1.ts ≤ w.seqNumber := fun x hx => (h.bounds x hx).2
    have hgood := h.good
    simp only [Watch.step] at hs
    split at hs
    next hd hr =>
      cases hs
      rw [hr] at hgood
      exact ⟨h.faithful, h.bounds, hgood.1, fun x hx => hle x (hgood.1.before x hx)⟩
    next hd tables hr =>
      cases hs
      rw [hr] at hgood
      obtain ⟨hh, htab, hshown⟩ := hgood
      exact ⟨h.faithful, h.bounds, hh, htab, fun x hx => hle x (hh.before x hx),
        hshown.mono subset_rfl fun y hy _ => hle y hy⟩
    next => cases hs
  | searchMem k =>
    have hgood := h.good
    simp only [Watch.step] at hs
    split at hs
    next hd v hr =>
      rw [hr] at hgood
      split at hs
      next vs _ =>
        cases hs
        exact ⟨h.faithful, h.bounds, trivial⟩
      next =>
        cases hs
        exact ⟨h.faithful, h.bounds, hgood⟩
    next => cases hs
  | searchTables =>
    simp only [Watch.step] at hs
    split at hs
    next =>
      cases hs
      exact ⟨h.faithful, h.bounds, trivial⟩
    next => cases hs
  | snapshotTables =>
    have hgood := h.good
    simp only [Watch.step] at hs
    split at hs
    next hd hr =>
      cases hs
      rw [hr] at hgood
      refine ⟨h.faithful, h.bounds, hgood.1, h.tables_mem, hgood.2.mono ?_ fun _ _ h => h⟩
      exact fun x hx => .inr (.inr hx)
    next => cases hs

/-- The condition on a step: no compaction starts between the load of the sequence number in `Get`
and its look at the tables. -/
def Undisturbed (w : Watch) (op : WatchOp) : Prop :=
  w.reader.searches = true → op.startsCompaction = false

instance (w : Watch) (op : WatchOp) : Decidable (w.Undisturbed op) :=
  inferInstanceAs (Decidable (w.reader.searches = true → op.startsCompaction = false))

theorem Inv.safe_step (h : w.Inv) (hsafe : w.reader.Safe w.lsm w.puts) (hg : w.Undisturbed op)
    (hs : w.step env op = some w') : w'.reader.Safe w'.lsm w'.puts := by
  have hgood := h.good
  cases op with
  | draw =>
    cases hs
    exact hsafe
  | lsm op =>
    simp only [Watch.step, Option.ite_none_right_eq_some, Option.map_eq_some_iff] at hs
    obtain ⟨hw, s', hs, rfl⟩ := hs
    refine hsafe.step h.faithful (step_of_apply hs) (fun x hx => (hw x hx).1) fun hsr hop => ?_
    subst hop
    cases hg hsr
  | getMemTables =>
    cases hs
    trivial
  | loadSeq =>
    simp only [Watch.step] at hs
    split at hs
    next hd hr =>
      cases hs
      rw [hr] at hgood
      refine ⟨hgood.2.mono subset_rfl fun y hy _ => (h.bounds y hy).2, fun c hc y hy => ?_⟩
      have g := h.faithful.sane.compaction c hc
      exact (h.bounds y (h.tables_mem y (g.tablePairs_subset hy))).2
    next =>
      cases hs
      trivial
    next => cases hs
  | searchMem k =>
    simp only [Watch.step] at hs
    split at hs
    next hd v hr =>
      rw [hr] at hgood hsafe
      obtain ⟨hh, hle⟩ := hgood
      split at hs
      next vs hfind =>
        cases hs
        intro _
        rw [searchMemTables_eq, Option.map_eq_some_iff] at hfind
        obtain ⟨y, hfind, rfl⟩ := hfind
        exact ⟨some y, hh.sees_mem hle
          (isNewest_of_findSome (looks_memTable k v) hh.dominates hfind), rfl⟩
      next hfind =>
        cases hs
        rw [searchMemTables_eq, Option.map_eq_none_iff] at hfind
        have habs := absent_of_findSome (looks_memTable k v) hfind
        exact ⟨hsafe.1, hsafe.2, fun y hy => habs y (hh.low_subset hy)⟩
    next => cases hs
  | searchTables =>
    simp only [Watch.step] at hs
    split at hs
    next hd v k hr =>
      rw [hr] at hgood hsafe
      obtain ⟨hh, hle⟩ := hgood
      obtain ⟨hshown, _, habs⟩ := hsafe
      cases hs
      intro hk
      have htables : tablePairs w.lsm.tables ⊆ w.lsm.live := fun x hx => .inr (.inr hx)
      have hcov := hh.covers hle (hshown.mono htables fun _ _ h => h) subset_rfl hh.low_subset k
      rcases searchTables_answers env hk v (fun x hx => (h.bounds x (h.tables_mem x hx)).1) with
        ⟨y, hy, hvs⟩ | ⟨hno, hvs⟩
      · refine ⟨some y, hcov.sees_some ?_ (isNewest_union_of_absent habs hy) le_rfl, ?_⟩
        · exact fun x hx => hx.elim (fun hx => hh.mem_puts x (hh.low_subset hx)) (h.tables_mem x)
        · rw [hvs, ofBest, withVersion, parseTs_of_ne_nil (hy.key_eq.trans_ne hk)]
      · refine ⟨none, hcov.sees_none fun y hy hyk => ?_, hvs⟩
        exact hy.elim (fun hy => habs y hy hyk) fun hy => hno y hy hyk
    next => cases hs
  | snapshotTables =>
    simp only [Watch.step] at hs
    split at hs
    next =>
      cases hs
      trivial
    next => cases hs

end Watch

/-! ## What readers see -/

/-- What the iterator of a scan may deliver of the memtable it shares with the writer: what was
there when it was taken, and any of the pairs that came later. -/
def Held.Between (h : Held) (m : Skiplist) : Prop :=
  (∀ x ∈ h.low.toSortedRun, x ∈ m.toSortedRun) ∧ ∀ x ∈ m.toSortedRun, x ∈ h.head.toSortedRun

/-- What decides about a user key in a scan is recent. -/
theorem Held.Inv.sees_range (hh : h.Inv s P) {tables : List Table}
    (htab : ∀ x ∈ tablePairs tables, x ∈ P) (hle : ∀ x ∈ h.before, x.1.ts ≤ v)
    (hshown : h.Shown P (tablePairs tables) (tablePairs tables) (Set.Iic v)) {m : Skiplist}
    (hm : h.Between m) {start : Bytes} (hstart : start ≤ k) :
    Sees h.before P k (rangeSees (m :: h.imms) v tables start k) := by
  have hhead := memPairs_cons_subset hm.2 h.imms
  have hcov := hh.covers hle hshown (memPairs_cons_subset hm.1 _) hhead k
  cases hsees : rangeSees (m :: h.imms) v tables start k with
  | none => exact hcov.sees_none (absent_of_rangeSees hstart hsees)
  | some y =>
    obtain ⟨v', hv, hy⟩ := isNewest_of_rangeSees hsees
    exact hcov.sees_some (fun x hx => hx.elim (fun hx => hh.mem_puts x (hhead hx)) (htab x)) hy hv

/-- **Readers see the latest entries.**  In every run, what decides about a user key in a scan is
the last pair put before the scan started or a newer one; and so is what `Get` finds, in every run
in which no compaction starts between its load of the sequence number and its look at the tables. -/
theorem readers_see_latest {env : Env} {tables : List Table} {puts : List Pair} {seqNumber : ℕ}
    (h : Watch.Listed tables puts seqNumber) {ops : List WatchOp} {w : Watch}
    (hrun : exec (Watch.step env) (Watch.init tables puts seqNumber) ops = some w) :
    (∀ held tables' v, w.reader = .scanning held tables' v → ∀ m, held.Between m →
      ∀ start k, start ≤ k →
        Sees held.before w.puts k (rangeSees (m :: held.imms) v tables' start k)) ∧
    (Guarded (Watch.step env) Watch.Undisturbed (Watch.init tables puts seqNumber) ops →
      ∀ before k vs, w.reader = .got before k vs → k ≠ [] →
        ∃ o, Sees before w.puts k o ∧ vs = ofBest o) := by
  constructor
  · intro held tables' v hr m hm start k hstart
    have hinv : w.Inv := exec_invariant_of_step (fun _ _ _ hI hs => hI.step hs)
      (Watch.inv_init h) hrun
    have hgood := hinv.good
    rw [hr] at hgood
    obtain ⟨hh, htab, hle, hshown⟩ := hgood
    exact hh.sees_range htab hle hshown hm hstart
  · intro hg before k vs hr hk
    have hinv : w.Inv ∧ w.reader.Safe w.lsm w.puts := by
      refine exec_invariant (I := fun w => w.Inv ∧ w.reader.Safe w.lsm w.puts)
        (fun s a s' hI hG hs => ⟨hI.1.step hs, hI.1.safe_step hI.2 hG hs⟩)
        ⟨Watch.inv_init h, trivial⟩ hg hrun
    have hsafe := hinv.2
    rw [hr] at hsafe
    exact hsafe hk

/-- A write with version `ts`. -/
def putOp (k : Bytes) (ts : ℕ) (value : Bytes) : WatchOp :=
  .lsm (.put (keyWithTs k ts) { value := some value } 1)

/-- The memtable is rotated and flushed. -/
def flushOps : List WatchOp :=
  [.lsm (.rotate {} 0), .lsm .receive, .lsm .build, .lsm .popImm, .lsm .saved]

/-- While `Get` looks for a key in a table, another key is written and flushed. -/
def flushedMeanwhile : List WatchOp :=
  [.draw, putOp [107] 1 [1]] ++ flushOps ++ [.getMemTables, .loadSeq, .draw, putOp [108] 2 [2]] ++
    flushOps ++ [.searchMem [107], .searchTables]

theorem listed_nil : Watch.Listed [] [] 0 :=
  ⟨List.Pairwise.nil, by simp [tablePairs, unionOf], by simp, by simp⟩

theorem readers_see_latest_flushed :
    ∃ w, exec (Watch.step Env.plain) (Watch.init [] [] 0) flushedMeanwhile = some w ∧
      ∃ before vs o, w.reader = .got before [107] vs ∧ vs.value = some [1] ∧
        Sees before w.puts [107] o ∧ vs = ofBest o := by
  obtain ⟨w, hw, h⟩ : ∃ w ∈ exec (Watch.step Env.plain) (Watch.init [] [] 0) flushedMeanwhile,
      (match w.reader with
      | .got _ k vs => decide (k = [107] ∧ vs.value = some [1])
      | _ => false) = true := by decide +kernel
  split at h
  next before k vs hr =>
    obtain ⟨rfl, hvs⟩ := of_decide_eq_true h
    obtain ⟨o, ho⟩ := (readers_see_latest listed_nil hw).2 (by decide +kernel) before [107] vs hr
      (by decide)
    exact ⟨w, hw, before, vs, o, hr, hvs, ho⟩
  next => cases h

/-! ## Reads that miss an entry -/

/-- The empty key is written and flushed, and read after that. -/
def emptyKeyRead : List WatchOp :=
  [.draw, putOp [] 1 [1]] ++ flushOps ++ [.getMemTables, .loadSeq, .searchMem [], .searchTables]

/-- Nothing is found of a user key that had been put, and nothing was deleted. -/
def Watch.misses (w : Watch) (k : Bytes) : Bool :=
  match w.reader with
  | .got before k' vs => decide (k' = k) && decide (vs = {}) &&
      (before.any fun x => decide (x.1.userKey = k)) &&
      w.puts.all fun y => !y.2.isDeleted && y.2.value.isSome
  | _ => false

theorem not_sees_of_misses {w : Watch} (h : w.misses k = true) :
    ∃ before vs, w.reader = .got before k vs ∧
      ¬ ∃ o, Sees before w.puts k o ∧ vs = ofBest o := by
  unfold Watch.misses at h
  split at h
  next before k' vs hr =>
    simp only [Bool.and_eq_true, decide_eq_true_eq, any_eq_true, all_eq_true,
      Bool.not_eq_true'] at h
    obtain ⟨⟨⟨rfl, rfl⟩, x, hx, hxk⟩, hall⟩ := h
    refine ⟨before, {}, hr, ?_⟩
    rintro ⟨o, ho, hvs⟩
    cases o with
    | some y =>
      have hsome := (hall y ho.mem).2
      have hval : none = y.2.value := congrArg ValueStruct.value hvs
      rw [← hval] at hsome
      cases hsome
    | none =>
      rcases ho with ⟨y, hy, hdel⟩ | hno
      · cases (hall y hy.mem).1.symm.trans hdel
      · exact hno x hx hxk
  next => cases h

/-- **`Get` misses an entry**: it never finds the empty key in a table, since the version of a key
without a user key is read as zero. -/
theorem get_misses : ∃ w,
    exec (Watch.step Env.plain) (Watch.init [] [] 0) emptyKeyRead = some w ∧
      ∃ before vs, w.reader = .got before [] vs ∧
        ¬ ∃ o, Sees before w.puts [] o ∧ vs = ofBest o := by
  obtain ⟨w, hw, h⟩ : ∃ w ∈ exec (Watch.step Env.plain) (Watch.init [] [] 0) emptyKeyRead,
      w.misses [] = true := by decide +kernel
  exact ⟨w, hw, not_sees_of_misses h⟩

end Autumn
