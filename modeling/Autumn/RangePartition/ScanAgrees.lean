import Autumn.RangePartition.Range
import Autumn.RangePartition.Versions
import Autumn.RangePartition.Newest

/-!
# Point reads and scans

`Get` stops at the first memtable with a version of the key; `Range` merges all memtables and
tables.  They find the same version when the memtables dominate what lies behind them, which is what
`PutsOnTop` asks of a run (`Layered.getValueStruct_answers`, `isNewest_of_rangeSees`), maybe in
different places.  That it is a deletion in both or in none follows from `World.Authentic`.

`Range` stops at the first pair without the prefix, so it returns a key only if all pairs from the
start key up to it have the prefix (`Lsm.Reaches`).  This is so when the start key has the prefix,
and the RPC does not ask for it.
-/

namespace Autumn

open Lib Y List InternalKey Lsm World

/-! ## What a read finds -/

theorem readValue_ne_notFound (log : LogStream) (vs : ValueStruct) :
    readValue log vs ≠ .error .notFound := by
  unfold readValue
  split_ifs
  · dsimp only
    split
    · simp
    · split <;> simp
  · simp

variable {seqNumber v : ℕ} {k pre start : Bytes} {S : Set Pair} {s : Lsm} {w : World}

theorem get_ne_notFound_iff {env : Env} {mts : List Skiplist} {tables : List Table}
    {log : LogStream} {version : ℕ} :
    get env mts seqNumber tables log k version ≠ .error .notFound ↔
      (getValueStruct env mts seqNumber tables k version).version ≠ 0 ∧
        (getValueStruct env mts seqNumber tables k version).isDeleted = false := by
  rw [get]
  by_cases hv : (getValueStruct env mts seqNumber tables k version).version = 0
  · simp [hv]
  · cases hd : (getValueStruct env mts seqNumber tables k version).isDeleted with
    | true => simp [hv]
    | false => simp [hv, readValue_ne_notFound]

/-- The pairs of one internal key agree on whether they are deletions. -/
def Agreeing (S : Set Pair) : Prop :=
  ∀ x ∈ S, ∀ y ∈ S, x.1 = y.1 → x.2.isDeleted = y.2.isDeleted

theorem Agreeing.of_newest (h : Agreeing S) {x y : Pair} (hx : IsNewest userKeyOf versionOf S k v x)
    (hy : IsNewest userKeyOf versionOf S k v y) : x.2.isDeleted = y.2.isDeleted :=
  h x hx.mem y hy.mem (InternalKey.ext (hx.key_eq.trans hy.key_eq.symm) (hx.ver_eq hy))

/-- The newest version of a key is not a deletion. -/
def Alive (S : Set Pair) (k : Bytes) (v : ℕ) : Prop :=
  ∃ x, IsNewest userKeyOf versionOf S k v x ∧ x.2.isDeleted = false

/-- A read that answers finds the keys whose newest version is not a deletion. -/
theorem Answers.found_iff {vs : ValueStruct} (h : Answers S k v vs) (hpos : ∀ x ∈ S, 0 < x.1.ts)
    (hdel : Agreeing S) : (vs.version ≠ 0 ∧ vs.isDeleted = false) ↔ Alive S k v := by
  rcases h with ⟨x, hx, rfl⟩ | ⟨habs, rfl⟩
  · constructor
    · rintro ⟨_, hlive⟩
      exact ⟨x, hx, hlive⟩
    · rintro ⟨y, hy, hlive⟩
      exact ⟨(hpos x hx.mem).ne', (hdel.of_newest hx hy).trans hlive⟩
  · constructor
    · rintro ⟨hne, _⟩
      exact absurd rfl hne
    · rintro ⟨x, hx, _⟩
      exact absurd hx.le (not_le.mpr (habs x hx.mem hx.key_eq))

/-! ## Where a scan ends -/

/-- All pairs from the start key up to `k` have the prefix. -/
def Lsm.Reaches (s : Lsm) (pre start k : Bytes) : Prop :=
  ∀ y ∈ s.visible, start ≤ y.1.userKey → y.1.userKey < k → hasPrefix y.1 pre = true

theorem hasPrefix_of_isPrefix {key : InternalKey} (h : pre <+: key.userKey) :
    hasPrefix key pre = true :=
  isPrefixOf_iff_prefix.mpr (h.trans (prefix_append _ _))

/-- A scan from a start key with the prefix reaches every key with the prefix. -/
theorem Lsm.reaches_of_isPrefix (hstart : pre <+: start) (hk : pre <+: k) : s.Reaches pre start k :=
  fun _ _ hle hlt => hasPrefix_of_isPrefix (isPrefix_of_between hstart hk hle hlt.le)

/-- The pairs up to the newest version of a key have the prefix if those of the keys in front have
it. -/
theorem Lsm.reaches_iff (hseq : ∀ x ∈ s.visible, x.1.ts ≤ seqNumber) (hk : pre <+: k) {x : Pair}
    (hxk : x.1.userKey = k) :
    (∀ y ∈ fromKey false (keyWithTs start seqNumber) (newIterator s.memTables s.tables).entries,
        y.1 ≤ x.1 → hasPrefix y.1 pre = true) ↔ s.Reaches pre start k := by
  constructor
  · intro h y hy hstart hlt
    obtain ⟨z, hz, hzy⟩ := exists_key_mem_newIterator hy
    rw [← hzy] at hstart hlt ⊢
    refine h z (mem_fromKey_start.mpr ⟨hz, hstart.lt_or_eq.imp_right fun heq => ⟨heq, ?_⟩⟩)
      (le_iff.mpr (.inl (hxk ▸ hlt)))
    exact hseq z (mem_of_mem_newIterator hz)
  · intro h y hy hyx
    obtain ⟨hmem, hfrom⟩ := mem_fromKey_start.mp hy
    rcases le_iff.mp hyx with hlt | ⟨heq, _⟩
    · exact h y (mem_of_mem_newIterator hmem) (hfrom.elim le_of_lt fun h => h.1.le) (hxk ▸ hlt)
    · exact hasPrefix_of_isPrefix (heq ▸ hxk ▸ hk)

/-! ## What a scan returns -/

/-- What a scan returns, when no version is above its sequence number. -/
theorem Lsm.mem_range_iff_alive (hseq : ∀ x ∈ s.visible, x.1.ts ≤ seqNumber)
    (hexp : ∀ x ∈ s.visible, x.2.expiresAt = 0) (hdel : Agreeing s.visible) {now : ℕ} {limit : ℕ}
    (hlimit : (newIterator s.memTables s.tables).entries.length ≤ limit) (hstart : start ≤ k)
    (hk : pre <+: k) :
    k ∈ range s.memTables seqNumber s.tables now pre start limit ↔
      Alive s.visible k seqNumber ∧ s.Reaches pre start k := by
  -- The pair that decides is the newest one a read with this sequence number can find.
  have hnewest : ∀ x, rangeSees s.memTables seqNumber s.tables start k = some x →
      IsNewest userKeyOf versionOf s.visible k seqNumber x := by
    intro x hx
    obtain ⟨v, hv, hnew⟩ := isNewest_of_rangeSees hx
    exact ⟨hnew.mem, hnew.key_eq, hseq x hnew.mem, fun y hy hyk hyv =>
      hnew.max y hy hyk (hyv.trans hv)⟩
  rw [mem_range_iff (fun x hx => hexp x (mem_of_mem_newIterator hx)) hlimit]
  constructor
  · rintro ⟨x, hx, hlive, hpre⟩
    have hnew := hnewest x hx
    exact ⟨⟨x, hnew, hlive⟩, (reaches_iff hseq hk hnew.key_eq).mp hpre⟩
  · rintro ⟨⟨y, hy, hlive⟩, hreach⟩
    cases hx : rangeSees s.memTables seqNumber s.tables start k with
    | none =>
      have habs := absent_of_rangeSees hstart hx y hy.mem hy.key_eq
      exact absurd hy.le (not_le.mpr habs)
    | some x =>
      have hnew := hnewest x hx
      exact ⟨x, rfl, (hdel.of_newest hnew hy).trans hlive,
        (reaches_iff hseq hk hnew.key_eq).mpr hreach⟩

/-! ## The sorted list of the live keys -/

/-- The version of a key that is the greatest in all memtables and tables is not a deletion. -/
def Live (S : Set Pair) (k : Bytes) : Prop :=
  ∃ x ∈ S, x.1.userKey = k ∧ (∀ y ∈ S, y.1.userKey = k → y.1.ts ≤ x.1.ts) ∧ x.2.isDeleted = false

theorem alive_iff_live (hseq : ∀ x ∈ S, x.1.ts ≤ v) (k : Bytes) : Alive S k v ↔ Live S k := by
  constructor
  · rintro ⟨x, hx, hlive⟩
    exact ⟨x, hx.mem, hx.key_eq, fun y hy hyk => hx.max y hy hyk (hseq y hy), hlive⟩
  · rintro ⟨x, hx, hxk, hmax, hlive⟩
    exact ⟨x, ⟨hx, hxk, hseq x hx, fun y hy hyk _ => hmax y hy hyk⟩, hlive⟩

/-- Behind a start key with the prefix, the version does not help a key to the prefix: such a key
would be a proper prefix of the start key and stand in front of it. -/
theorem isPrefix_of_hasPrefix {key : InternalKey} (hstart : pre <+: start)
    (hle : start ≤ key.userKey) (h : hasPrefix key pre = true) : pre <+: key.userKey := by
  rcases prefix_or_prefix_of_prefix ( isPrefixOf_iff_prefix.mp h)
    (prefix_append key.userKey _) with hpre | hkey
  · exact hpre
  · have hnlt : ¬ start < key.userKey := (hkey.trans hstart).le
    exact le_antisymm hle (not_lt.mp hnlt) ▸ hstart

/-- **A scan is the sorted list of the live keys, cut at the limit**, when the start key has the
prefix.  `I` is the tree of merges that the code builds. -/
theorem range_sorted_live (s : Lsm) (hseq : ∀ x ∈ s.visible, x.1.ts ≤ seqNumber)
    (hexp : ∀ x ∈ s.visible, x.2.expiresAt = 0) (hdel : Agreeing s.visible) (now : ℕ)
    {start : Bytes} (hstart : pre <+: start) (limit rounds : ℕ) :
    ∃ all : List Bytes, all.Pairwise (· < ·) ∧
      (∀ k, k ∈ all ↔ start ≤ k ∧ pre <+: k ∧ Live s.visible k) ∧
      range s.memTables seqNumber s.tables now pre start limit = all.take limit ∧
      ∃ I, newMergeIterator (rounds + 1) false
          (s.memTables.map (fun m => mapIterator false m.data) ++
            s.tables.reverse.map fun t => mapIterator false t.data) = some I ∧
        ∀ st : I.State, ∃ st', I.seek (keyWithTs start seqNumber) st = some st' ∧
          ∀ fuel, (newIterator s.memTables s.tables).entries.length < fuel →
            rangeIter I pre limit now fuel (none, []) st' = some (all.take limit) := by
  have hsub := dropWhile_sublist (l := (newIterator s.memTables s.tables).entries)
    fun x => decide (Before false x.1 (keyWithTs start seqNumber))
  have hlong : (newIterator s.memTables s.tables).entries.length ≤
      limit + (newIterator s.memTables s.tables).entries.length := Nat.le_add_left _ _
  have htake : range s.memTables seqNumber s.tables now pre start limit =
      (range s.memTables seqNumber s.tables now pre start
        (limit + (newIterator s.memTables s.tables).entries.length)).take limit :=
    rangeLoop_eq_take (Nat.le_add_right _ _) _ (Nat.zero_le _)
  refine ⟨_, pairwise_rangeLoop ((newIterator s.memTables s.tables).sorted.sublist hsub)
    (by simp [Behind]) (by simp) List.Pairwise.nil, fun k => ?_, htake, ?_⟩
  · rw [← alive_iff_live hseq]
    constructor
    · intro hk
      -- The scan starts at the start key, and what it returns has the prefix.
      obtain ⟨x, hx, -, hpre⟩ :=
        (mem_range_iff (fun x hx => hexp x (mem_of_mem_newIterator hx)) hlong).mp hk
      obtain rfl : x.1.userKey = k := of_decide_eq_true (find?_some hx :)
      have hfrom := mem_of_find?_eq_some hx
      have hle : start ≤ x.1.userKey := (mem_fromKey_start.mp hfrom).2.elim le_of_lt fun h => h.1.le
      have hxpre := isPrefix_of_hasPrefix hstart hle (hpre x hfrom le_rfl)
      exact ⟨hle, hxpre, ((mem_range_iff_alive hseq hexp hdel hlong hle hxpre).mp hk).1⟩
    · rintro ⟨hle, hpre, halive⟩
      exact (mem_range_iff_alive hseq hexp hdel hlong hle hpre).mpr
        ⟨halive, reaches_of_isPrefix hstart hpre⟩
  · obtain ⟨I, hI, hscan⟩ := rangeIter_newIterator s.memTables s.tables (cons_ne_nil _ _) rounds
      seqNumber now pre start limit
    rw [htake] at hscan
    exact ⟨I, hI, hscan⟩

theorem World.Authentic.agreeing {rp : RangePartition} (ha : w.Authentic) (hb : w.Base)
    (hrp : w.rp = some rp) : Agreeing rp.toLsm.visible := fun x hx y hy hxy =>
  ha.isDeleted_eq hb ((hb.rp rp hrp).visible_traced x hx) ((hb.rp rp hrp).visible_traced y hy) hxy

/-- The scan for the prefix `[98]` in a partition with the keys `[97]` and `[98, 1]`. -/
theorem range_sorted_live_twoKeys :
    ∃ w rp, exec (step Env.plain) (World.init 1)
        (openReplayed ++ writeKey [97] [1] ++ writeKey [98, 1] [2]) = some w ∧ w.rp = some rp ∧
      ∃ all : List Bytes, all.Pairwise (· < ·) ∧
        (∀ k, k ∈ all ↔ [98] ≤ k ∧ [98] <+: k ∧ Live rp.toLsm.visible k) ∧
        range rp.memTables rp.seqNumber rp.tables 0 [98] [98] 2 = all.take 2 := by
  obtain ⟨w, hw, rp, hrp, -⟩ : ∃ w ∈ exec (step Env.plain) (init 1)
      (openReplayed ++ writeKey [97] [1] ++ writeKey [98, 1] [2]), ∃ rp ∈ w.rp, True := by
    decide +kernel
  obtain ⟨⟨hb, _⟩, hn, ha⟩ := authentic_of_exec (by decide) hw (by decide +kernel)
  obtain ⟨all, hall, hmem, htake, -⟩ := range_sorted_live rp.toLsm (hn.rp rp hrp).visible
    (fun x hx => hb.expiresAt_eq ((hb.rp rp hrp).visible_traced x hx)) (ha.agreeing hb hrp) 0
    (prefix_refl [98]) 2 0
  exact ⟨w, rp, hw, hrp, all, hall, hmem, htake⟩

section Runs

variable {env : Env} {id : ℕ} {as : List Action} {w : World} {rp : RangePartition}

/-- What a scan returns, in every run whose replays keep up with the versions they deliver. -/
theorem mem_range_iff_alive (hid : id ≠ 0) (hrun : exec (step env) (init id) as = some w)
    (hg : Guarded (step env) DeliversNext (init id) as) (hrp : w.rp = some rp) {now : ℕ}
    {pre k : Bytes} {limit : ℕ}
    (hlimit : (newIterator rp.memTables rp.tables).entries.length ≤ limit) (hstart : start ≤ k)
    (hk : pre <+: k) :
    k ∈ range rp.memTables rp.seqNumber rp.tables now pre start limit ↔
      Alive rp.toLsm.visible k rp.seqNumber ∧ rp.toLsm.Reaches pre start k := by
  obtain ⟨⟨hb, _⟩, hn, ha⟩ := authentic_of_exec hid hrun hg
  exact Lsm.mem_range_iff_alive (hn.rp rp hrp).visible
    (fun x hx => hb.expiresAt_eq ((hb.rp rp hrp).visible_traced x hx)) (ha.agreeing hb hrp) hlimit
    hstart hk

/-- **A scan returns the keys that a read finds and that the scan reaches**, in every run that puts
on top and whose replays keep up with the versions they deliver. -/
theorem mem_range_iff_get (hid : id ≠ 0) (hrun : exec (step env) (World.init id) as = some w)
    (hg : Guarded (step env) (fun w a => PutsOnTop w a ∧ DeliversNext w a) (World.init id) as)
    (hrp : w.rp = some rp) {now : ℕ} {pre start k : Bytes} {limit : ℕ} (hne : k ≠ [])
    (hlimit : (newIterator rp.memTables rp.tables).entries.length ≤ limit) (hstart : start ≤ k)
    (hk : pre <+: k) :
    (k ∈ range rp.memTables rp.seqNumber rp.tables now pre start limit ↔
      get env rp.memTables rp.seqNumber rp.tables w.log k 0 ≠ .error .notFound ∧
        rp.toLsm.Reaches pre start k) ∧
    (pre <+: start → (k ∈ range rp.memTables rp.seqNumber rp.tables now pre start limit ↔
      get env rp.memTables rp.seqNumber rp.tables w.log k 0 ≠ .error .notFound)) := by
  have hnext := hg.mono fun _ _ h => h.2
  have hread : get env rp.memTables rp.seqNumber rp.tables w.log k 0 ≠ .error .notFound ↔
      Alive rp.toLsm.visible k rp.seqNumber := by
    obtain ⟨hb, hl⟩ := layered_of_exec hid hrun (hg.mono fun _ _ h => h.1)
    have ha := (authentic_of_exec hid hrun hnext).2.2
    have hans := (hl rp hrp).getValueStruct_answers env hne rp.seqNumber 0 (hb.visible_pos hrp)
    rw [if_pos rfl] at hans
    rw [get_ne_notFound_iff, hans.found_iff (hb.visible_pos hrp) (ha.agreeing hb hrp)]
  have hscan : k ∈ range rp.memTables rp.seqNumber rp.tables now pre start limit ↔ _ :=
    mem_range_iff_alive hid hrun hnext hrp hlimit hstart hk
  rw [hread]
  exact ⟨hscan, fun hpre => hscan.trans (and_iff_left (reaches_of_isPrefix hpre hk))⟩

end Runs

/-- A scan of a key in a table, in a partition with another key in the memtable. -/
theorem mem_range_iff_get_compactedAndCrashed :
    ∃ w rp, exec (step Env.plain) (World.init 1) compactedAndCrashed = some w ∧ w.rp = some rp ∧
      ([107] ∈ range rp.memTables rp.seqNumber rp.tables 0 [107] [107] 3 ↔
        get Env.plain rp.memTables rp.seqNumber rp.tables w.log [107] 0 ≠ .error .notFound) := by
  obtain ⟨w, hw, rp, hrp, hlen⟩ : ∃ w ∈ exec (step Env.plain) (init 1) compactedAndCrashed,
      ∃ rp ∈ w.rp, (newIterator rp.memTables rp.tables).entries.length ≤ 3 := by decide +kernel
  exact ⟨w, rp, hw, hrp, (mem_range_iff_get (by decide) hw (by decide +kernel) hrp (by decide)
    hlen (by decide) (by decide)).2 (by decide)⟩

/-! ## Scans and reads that disagree -/

/-- A key is written, a second write to it draws its version and is held up, and the key is deleted
with the version after that. -/
def deletedMeanwhile : List Action :=
  openReplayed ++ writeKey [107] [1] ++
    [.loc (.write [107] [2]), .loc (.deleteMem [107]), .loc (.deleteTables 0),
      .loc (.deleteDraw [107]), .loc (.enqueue 1), .loc .collect, .loc .startBatch, .appendOk,
      .loc .ensureRoom, .loc (.put 1), .finish]

/-- What this leaves: the deletion is the newest version in the memtable. -/
@[mk_iff]
structure DeletedMeanwhile (w : World) (rp : RangePartition) : Prop where
  overdue : Overdue w rp 2 2
  seqNumber : rp.seqNumber = 3
  imm : rp.imm.length = 0
  tables : rp.tables.length = 0
  deletion : ∃ y ∈ rp.mt.data.entries, y.1 = keyWithTs [107] 3
  deleted : ∀ y ∈ rp.mt.data.entries, 3 ≤ y.1.ts → y.2.isDeleted = true

instance (w : World) (rp : RangePartition) : Decidable (DeletedMeanwhile w rp) :=
  decidable_of_iff' _ (deletedMeanwhile_iff w rp)

theorem exists_deletedMeanwhile :
    ∃ w rp, exec (step Env.plain) (init 1) deletedMeanwhile = some w ∧ w.rp = some rp ∧
      DeletedMeanwhile w rp := by
  obtain ⟨w, hw, rp, hrp, h⟩ : ∃ w ∈ exec (step Env.plain) (init 1) deletedMeanwhile,
      ∃ rp ∈ w.rp, DeletedMeanwhile w rp := by decide +kernel
  exact ⟨w, rp, hw, hrp, h⟩

theorem deliversNext_lateBatch :
    Guarded (step Env.plain) DeliversNext w (deletedMeanwhile ++ lateBatch) := by
  refine Guarded.of_mem w fun a ha => deliversNext_of_ne ?_
  rintro rfl
  simp [deletedMeanwhile, openReplayed, writeKey, lateBatch, gather, batchActions] at ha

/-- The deletion decides about the key once the late write is in the memtable in front of it. -/
theorem DeletedMeanwhile.not_alive {rp rp' : RangePartition} (h : DeletedMeanwhile w rp)
    {infos : List EntryInfo} (hperm : (infos.map EntryInfo.log).Perm (drawnFrom rp.seqNumber
      longKeys ++ [writeEntry [107] [2] 2])) (hmt : rp'.mt = putAll Skiplist.new infos)
    (himm : rp'.imm = rp.imm ++ [rp.mt]) (htables : rp'.tables = rp.tables)
    (hseq : 3 ≤ rp'.seqNumber) : ¬ Alive rp'.toLsm.visible [107] rp'.seqNumber := by
  rintro ⟨x, hx, hlive⟩
  have himm' : rp'.imm = [rp.mt] := by
    rw [himm, eq_nil_of_length_eq_zero h.imm, nil_append]
  obtain ⟨y, hy, hyk⟩ := h.deletion
  have hvis : y ∈ rp'.toLsm.visible :=
    mem_visible.mpr (.inr (.inl ⟨rp.mt, himm' ▸ .head _, hy⟩))
  have hle : y.1.ts ≤ x.1.ts := hx.max y hvis (congrArg _ hyk) (by
    rw [versionOf, hyk]
    exact hseq)
  rw [hyk] at hle
  rcases mem_visible.mp hx.mem with hmem | ⟨m, hm, hmem⟩ | ⟨t, ht, _⟩
  · obtain ⟨ei, hei, rfl⟩ := eq_late_of_mem hperm (hmt ▸ hmem) hx.key_eq
    have hts : (lsmPair ei).1.ts = 2 := congrArg (fun e : Entry => e.key.ts) hei
    rw [hts] at hle
    exact absurd hle (by decide)
  · rw [himm', mem_singleton] at hm
    subst hm
    cases (h.deleted x hmem hle).symm.trans hlive
  · rw [htables, eq_nil_of_length_eq_zero h.tables] at ht
    cases ht

/-- **Reads and scans disagree.**  A scan from `[97]` for the prefix `[98]` ends at the key `[97]`
and does not return `[98, 1]`.  And a read finds the second write to `[107]`, which has version 2,
in the memtable, while a scan finds the deletion with version 3 behind it. -/
theorem scan_disagrees :
    (∃ w rp, exec (step Env.plain) (World.init 1)
        (openReplayed ++ writeKey [97] [1] ++ writeKey [98, 1] [2]) = some w ∧ w.rp = some rp ∧
      get Env.plain rp.memTables rp.seqNumber rp.tables w.log [98, 1] 0 = .ok [2] ∧
      ∀ now limit, (newIterator rp.memTables rp.tables).entries.length ≤ limit →
        [98, 1] ∉ range rp.memTables rp.seqNumber rp.tables now [98] [97] limit) ∧
    ∃ w rp, exec (step Env.plain) (World.init 1) (deletedMeanwhile ++ lateBatch) = some w ∧
      w.rp = some rp ∧
      get Env.plain rp.memTables rp.seqNumber rp.tables w.log [107] 0 = .ok [2] ∧
      ∀ now limit, (newIterator rp.memTables rp.tables).entries.length ≤ limit →
        [107] ∉ range rp.memTables rp.seqNumber rp.tables now [107] [107] limit := by
  constructor
  · obtain ⟨w, hw, rp, hrp, hget, y, hy, hyk⟩ : ∃ w ∈ exec (step Env.plain) (init 1)
        (openReplayed ++ writeKey [97] [1] ++ writeKey [98, 1] [2]), ∃ rp ∈ w.rp,
        get Env.plain rp.memTables rp.seqNumber rp.tables w.log [98, 1] 0 = .ok [2] ∧
          ∃ y ∈ rp.mt.data.entries, y.1 = keyWithTs [97] 1 := by decide +kernel
    refine ⟨w, rp, hw, hrp, hget, fun now limit hlimit hmem => ?_⟩
    have hreach := ((mem_range_iff_alive (by decide) hw (by decide +kernel) hrp hlimit (by decide)
      (by decide)).mp hmem).2 y (mem_visible.mpr (.inl hy))
    rw [hyk] at hreach
    cases hreach (by decide) (by decide)
  · obtain ⟨w, rp, hw, hrp, h⟩ := exists_deletedMeanwhile
    obtain ⟨infos, w', rp', hexec, hrp', hperm, hmt, himm, htables, hseq⟩ :=
      h.overdue.exists_exec hrp
    have hrun : exec (step Env.plain) (init 1) (deletedMeanwhile ++ lateBatch) = some w' := by
      rw [exec_append, hw, Option.bind_some, hexec]
    have hle : 3 ≤ rp'.seqNumber := by rw [hseq, h.seqNumber]; decide
    refine ⟨w', rp', hrun, hrp', ?_, fun now limit hlimit hmem => ?_⟩
    · obtain ⟨ei, hei, hvs⟩ := getValueStruct_late hperm hmt (Nat.le_of_succ_le hle)
      have hs : shouldWriteValueToLSM ei.log = true := by
        rw [hei]
        rfl
      rw [get, hvs, withVersion, lsmPair, lsmValue, if_pos hs, hei]
      rfl
    · exact h.not_alive hperm hmt himm htables hle
        ((mem_range_iff_alive (by decide) hrun deliversNext_lateBatch hrp' hlimit le_rfl
          (prefix_refl _)).mp hmem).1

end Autumn
