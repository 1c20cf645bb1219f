import Autumn.RangePartition.Origin
import Autumn.RangePartition.Faithful

/-!
# A range partition is a map

Callers that write and delete one after the other see a map: a read returns the value written last,
or `errNotFound` if there is none or it was deleted.  Rotations, flushes and compactions go on in
the meantime, also while a read is under way, and none of them shows.

The abstract map is `mapOf`, an update for each call.  The partition is related to it by the list
`P` of the pairs put so far: the memtables and tables hold the latest of these pairs
(`Lsm.Faithful`), and the pairs of `P` are those of the calls, one for one, where following a value
pointer leads to the value of the call (`Means`).  A call starts only when no other is under way, so
versions increase along `P`.
-/

namespace Autumn

open Lib Y List

/-! ## `Get` -/

/-- How a `Get` can fail. -/
inductive GetError where
  | notFound
  /-- The error of the block reader. -/
  | readFailed
  /-- A block without entries: `entries[0]` panics. -/
  | panicked
  deriving DecidableEq, Repr

/-- The end of `Get`: the value itself, or the first entry of the block it points to. -/
def readValue (log : LogStream) (vs : ValueStruct) : Except GetError Bytes :=
  if vs.isPointer then
    let vp := ValuePointer.decode (vs.value.getD [])
    match log.readBlock vp.extentID vp.offset with
    | none => .error .readFailed
    | some b =>
      match b.entries with
      | [] => .error .panicked
      | e :: _ => .ok e.value
  else .ok (vs.value.getD [])

/-- `Get`, given the memtables and the sequence number it loads, the tables it finds when the
memtables had no answer, and the log when it follows a pointer. -/
def get (env : Env) (mts : List Skiplist) (seqNumber : ℕ) (tables : List Table) (log : LogStream)
    (userKey : Bytes) (version : ℕ) : Except GetError Bytes :=
  let vs := getValueStruct env mts seqNumber tables userKey version
  if vs.version = 0 then .error .notFound
  else if vs.isDeleted then .error .notFound
  else readValue log vs

/-! ## The abstract map -/

/-- A call that changes the map: a write of a value, or a deletion. -/
abbrev Call := Bytes × Option Bytes

/-- The effect of a call. -/
def Call.apply (m : Bytes → Option Bytes) (c : Call) : Bytes → Option Bytes :=
  Function.update m c.1 c.2

/-- The map after some calls. -/
def mapOf (calls : List Call) : Bytes → Option Bytes := calls.foldl Call.apply fun _ => none

/-- The call an action belongs to: `Write`, or a `Delete` that has found its key. -/
def Action.call : Action → Option Call
  | .loc (.write key value) => some (key, some value)
  | .loc (.deleteDraw key) => some (key, none)
  | _ => none

/-- The calls of a run. -/
def callsOf (as : List Action) : List Call := as.filterMap Action.call

theorem callsOf_append (as bs : List Action) : callsOf (as ++ bs) = callsOf as ++ callsOf bs :=
  filterMap_append

/-! ## Pairs and calls -/

/-- The call an entry was made for. -/
def Entry.call (e : Entry) : Call :=
  (e.key.userKey, if e.metaBits = 0 then some e.value else none)

/-- The position of an entry with a block of its own leads to the entry. -/
def Readable (log : LogStream) (ei : EntryInfo) : Prop :=
  shouldWriteValueToLSM ei.log = false → ei.extentID < 2 ^ 64 ∧ ei.offset < 2 ^ 32 ∧
    ∃ b, log.readBlock ei.extentID ei.offset = some b ∧ b.entries = [ei.log]

/-- The pair stands for the call: a deletion, or a value that can be read. -/
def Means (log : LogStream) (x : Pair) (c : Call) : Prop :=
  x.1.userKey = c.1 ∧ ((x.2.isDeleted = true ∧ c.2 = none) ∨
    (x.2.isDeleted = false ∧ ∃ value, c.2 = some value ∧ readValue log x.2 = .ok value))

/-- What can be read from `log` can be read from `log'`. -/
def LogStream.Keeps (log log' : LogStream) : Prop :=
  ∀ e o b, log.readBlock e o = some b → log'.readBlock e o = some b

variable {log log' : LogStream}

theorem readValue_of_keeps (h : log.Keeps log') {vs : ValueStruct} {value : Bytes}
    (hv : readValue log vs = .ok value) : readValue log' vs = .ok value := by
  rw [readValue] at hv ⊢
  split_ifs at hv ⊢ with hp
  · dsimp only at hv ⊢
    cases hb : log.readBlock (ValuePointer.decode (vs.value.getD [])).extentID
        (ValuePointer.decode (vs.value.getD [])).offset with
    | none => simp [hb] at hv
    | some b =>
      rw [hb] at hv
      rwa [h _ _ b hb]
  · exact hv

theorem Means.of_keeps (h : log.Keeps log') {x : Pair} {c : Call} (hm : Means log x c) :
    Means log' x c := by
  refine ⟨hm.1, hm.2.imp id ?_⟩
  rintro ⟨hdel, value, hc, hv⟩
  exact ⟨hdel, value, hc, readValue_of_keeps h hv⟩

variable {ei : EntryInfo}

theorem Readable.of_keeps (h : log.Keeps log') (hr : Readable log ei) : Readable log' ei := by
  intro hs
  obtain ⟨hid, hoff, b, hb, hbe⟩ := hr hs
  exact ⟨hid, hoff, b, h _ _ b hb, hbe⟩

theorem means_lsmPair (hp : Plain ei.log) (hr : Readable log ei) :
    Means log (lsmPair ei) (Entry.call ei.log) := by
  refine ⟨rfl, ?_⟩
  rw [isDeleted_lsmPair_eq, Entry.call]
  rcases hp.metaBits_eq with hmeta | hmeta
  · rw [hmeta]
    refine .inr ⟨rfl, ei.log.value, rfl, ?_⟩
    cases hs : shouldWriteValueToLSM ei.log with
    | true =>
      simp [lsmPair, lsmValue, hs, hmeta, ValueStruct.decoded, readValue, ValueStruct.isPointer]
    | false =>
      obtain ⟨hid, hoff, b, hb, hbe⟩ := hr hs
      have hpos := ValuePointer.decode_encode
        (p := ⟨ei.extentID, ei.offset, ei.log.value.length⟩) hid hoff
      simp [lsmPair, lsmValue, hs, hmeta, ValueStruct.decoded, readValue, ValueStruct.isPointer,
        bitValuePointer, hpos, hb, hbe]
  · rw [hmeta]
    exact .inl ⟨by decide, rfl⟩

/-! ### The map and the latest pair -/

variable {calls : List Call} {P : List Pair}

theorem foldl_apply_of_forall_ne (h : List.Forall₂ (Means log) P calls) {k : Bytes}
    (hk : ∀ x ∈ P, x.1.userKey ≠ k) (m : Bytes → Option Bytes) :
    calls.foldl Call.apply m k = m k := by
  induction h generalizing m with
  | nil => rfl
  | @cons x c P calls hxc _ ih =>
    rw [foldl_cons, ih fun y hy => hk y (.tail _ hy), Call.apply]
    exact Function.update_of_ne (fun h => hk x (.head _) (hxc.1.trans h.symm)) _ _

theorem foldl_apply_of_latest (h : List.Forall₂ (Means log) P calls)
    (hinc : P.Pairwise fun x y => x.1.ts < y.1.ts) {x : Pair} (hx : Lsm.Latest P x)
    (m : Bytes → Option Bytes) :
    ∃ c, Means log x c ∧ calls.foldl Call.apply m x.1.userKey = c.2 := by
  induction h generalizing m with
  | nil => exact absurd hx.1 not_mem_nil
  | @cons y c P calls hyc hrest ih =>
    obtain ⟨hy, hinc⟩ := pairwise_cons.mp hinc
    have hmax : ∀ z ∈ P, z.1.userKey = x.1.userKey → z.1.ts ≤ x.1.ts := fun z hz =>
      hx.2 z (.tail _ hz)
    rcases mem_cons.mp hx.1 with rfl | hmem
    · refine ⟨c, hyc, ?_⟩
      have hne : ∀ z ∈ P, z.1.userKey ≠ x.1.userKey := fun z hz heq =>
        absurd (hy z hz) (not_lt.mpr (hmax z hz heq))
      rw [foldl_cons, foldl_apply_of_forall_ne hrest hne, Call.apply, hyc.1]
      exact Function.update_self _ _ _
    · exact ih hinc ⟨hmem, hmax⟩ (Call.apply m c)

/-! ### The positions after an append -/

/-- The block of a value entry lies at the position written into the entry. -/
theorem exists_block_of_valuePositions {id : ℕ} {x : ℕ × EntryInfo} :
    ∀ {o : ℕ} {es : List (ℕ × Entry)}, x ∈ valuePositions id o es →
      ∃ pre post, (es.map fun y => valueBlock y.2) = pre ++ valueBlock x.2.log :: post ∧
        x.2.extentID = id ∧ x.2.offset = o + blocksSize pre
  | _, [], h => by simp [valuePositions] at h
  | o, y :: es, h => by
    rw [valuePositions, mem_cons] at h
    rcases h with rfl | h
    · exact ⟨[], _, rfl, rfl, by simp⟩
    · obtain ⟨pre, post, heq, hid, hoff⟩ := exists_block_of_valuePositions h
      refine ⟨valueBlock y.2 :: pre, post, by rw [map_cons, heq, cons_append], hid, ?_⟩
      rw [hoff, blocksSize_cons, Nat.add_assoc]

/-- After an append the requests know where their values are. -/
theorem readable_requestOrder (hwf : log.WellFormed) (hid : log.last.id < 2 ^ 64)
    {es : List (ℕ × Entry)} {bs : List LogBlock} (hb : entriesToBlocks es = some bs)
    (hlen : log.tail + blocksSize bs < 2 ^ 32)
    (hei : ei ∈ requestOrder (fillPositions log.last.id log.tail es)) :
    Readable (log.append bs) ei := by
  intro hs
  obtain ⟨x, hx, rfl⟩ := mem_requestOrder.mp hei
  rw [entriesToBlocks] at hb
  split_ifs at hb
  cases hb
  rw [fillPositions, mem_append, mem_map] at hx
  rcases hx with ⟨y, hy, rfl⟩ | hx
  · have : shouldWriteValueToLSM y.2 = true :=
      mem_takeWhile_imp (p := fun y : ℕ × Entry => shouldWriteValueToLSM y.2) hy
    cases hs.symm.trans this
  · obtain ⟨pre, post, heq, hxid, hoff⟩ := exists_block_of_valuePositions hx
    rw [heq] at hlen ⊢
    rw [← append_assoc]
    have hread := LogStream.readBlock_append_self hwf
      (mixedBlocks ((smallEntries es).map Prod.snd) ++ pre) post (valueBlock x.2.log)
    simp only [blocksSize_append, blocksSize_cons] at hlen hread
    rw [hxid, hoff, Nat.add_assoc]
    exact ⟨hid, by omega, _, hread, rfl⟩

/-! ## Calls one after the other -/

/-- No call is under way. -/
@[mk_iff]
structure RangePartition.Quiet (rp : RangePartition) : Prop where
  mode : rp.mode = .running
  deletes : rp.deletes = []
  checked : rp.checked = []
  drawn : rp.drawn = []
  writeCh : rp.writeCh = []
  reqs : rp.reqs = []
  writer : rp.writer = .idle

/-- The key of the call an action starts. -/
def Action.starts : Action → Option Bytes
  | .loc (.write key _) | .loc (.deleteMem key) => some key
  | _ => none

/-- A batch fails, or the partition is closed or lost. -/
def Action.fails : Action → Bool
  | .loc .appendErr | .loc .closeStart | .crash => true
  | _ => false

/-- The condition on a step: nothing fails, and a call starts only when no other is under way, with
a key that is not empty and fits the length fields of the memtable and the table. -/
def Sequential (w : World) (a : Action) : Prop :=
  a.fails = false ∧ ∀ key, a.starts = some key →
    key ≠ [] ∧ key.length + 8 < 2 ^ 16 ∧ ∀ rp, w.rp = some rp → rp.Quiet

/-- The entries that have a version and are not put yet. -/
def RangePartition.outstanding (rp : RangePartition) : List Entry :=
  rp.inFlight ++ rp.writer.infos.map EntryInfo.log

variable {rp : RangePartition}

theorem RangePartition.Quiet.outstanding_eq_nil (h : rp.Quiet) : rp.outstanding = [] := by
  simp [outstanding, inFlight, h.drawn, h.writeCh, h.reqs, h.writer, Writer.pending, Writer.infos]

/-- How a partition stands to the calls so far, `P` being the pairs put: at most one call is under
way, and what has been put together with what is under way are the calls. -/
structure RangePartition.Tracks (rp : RangePartition) (log : LogStream) (calls : List Call)
    (P : List Pair) : Prop where
  faithful : rp.toLsm.Faithful P
  mode : rp.mode = .replaying [] ∨ rp.mode = .running
  single : rp.deletes.length + rp.checked.length + rp.outstanding.length ≤ 1
  plain : ∀ e ∈ rp.outstanding, Plain e
  newer : ∀ e ∈ rp.outstanding, ∀ x ∈ P, x.1.ts < e.key.ts
  bounds : ∀ e ∈ rp.outstanding, 0 < e.key.ts ∧ e.key.ts ≤ rp.seqNumber
  put_bounds : ∀ x ∈ P, 0 < x.1.ts ∧ x.1.ts ≤ rp.seqNumber
  readable : ∀ ei ∈ rp.writer.infos, Readable log ei
  means : ∃ done, calls = done ++ rp.outstanding.map Entry.call ∧
    List.Forall₂ (Means log) P done

/-- The relation of a state to the calls so far. -/
structure World.Refines (w : World) (calls : List Call) : Prop where
  ids_lt : ∀ x ∈ w.log.exs, x.id < 2 ^ 64
  unopened : w.rp = none → calls = [] ∧ w.stored = [] ∧ w.log.placed = []
  rp : ∀ rp, w.rp = some rp → ∃ P, rp.Tracks w.log calls P

variable {op : LsmOp}

theorem puts_of_isBackground (h : op.isBackground = true) : op.puts = [] := by
  cases op <;> first | rfl | simp [LsmOp.isBackground] at h

variable {a : LocalAction}

theorem call_of_background (ha : a ∈ [.receive, .build, .popImm, .notify, .compactStart] ∨ ∃ now hs,
      a = .compactSend now hs) : Action.call (.loc a) = none := by
  rcases ha with ha | ⟨_, _, rfl⟩
  · simp only [mem_cons, not_mem_nil, or_false] at ha
    rcases ha with rfl | rfl | rfl | rfl | rfl <;> rfl
  · rfl

variable {env : Env}

namespace RangePartition

variable {rp' : RangePartition}

section

variable (h : rp.Tracks log calls P)
include h

theorem Tracks.of_keeps (hk : log.Keeps log') : rp.Tracks log' calls P :=
  { h with
    readable := fun ei hei => (h.readable ei hei).of_keeps hk
    means := by
      obtain ⟨done, hcalls, hdone⟩ := h.means
      exact ⟨done, hcalls, hdone.imp fun _ _ hm => hm.of_keeps hk⟩ }

/-- A step that starts no call and puts nothing: what is under way moves on. -/
theorem Tracks.of_moved (hf : rp'.toLsm.Faithful P)
    (hmode : rp'.mode = .replaying [] ∨ rp'.mode = .running)
    (hsearch : rp'.deletes.length + rp'.checked.length ≤ rp.deletes.length + rp.checked.length)
    (hout : rp'.outstanding.Perm rp.outstanding) (hread : ∀ ei ∈ rp'.writer.infos, Readable log ei)
    (hseq : rp.seqNumber ≤ rp'.seqNumber) : rp'.Tracks log calls P where
  faithful := hf
  mode := hmode
  single := by
    have := h.single
    have := hout.length_eq
    omega
  plain := fun e he => h.plain e (hout.mem_iff.mp he)
  newer := fun e he => h.newer e (hout.mem_iff.mp he)
  bounds := fun e he => (h.bounds e (hout.mem_iff.mp he)).imp id hseq.trans'
  put_bounds := fun x hx => (h.put_bounds x hx).imp id hseq.trans'
  readable := hread
  means := by
    -- At most one entry is outstanding, so the order does not matter.
    have heq : rp'.outstanding = rp.outstanding := by
      have hlen := h.single
      rcases hro : rp.outstanding with _ | ⟨e, _ | ⟨f, es⟩⟩
      · rw [hro] at hout
        exact hout.eq_nil
      · rw [hro] at hout
        exact perm_singleton.mp hout
      · rw [hro, length_cons, length_cons] at hlen
        omega
    rw [heq]
    exact h.means

/-- A call draws its version when nothing else is under way. -/
theorem Tracks.draw {e : Entry} (hnone : rp.outstanding = []) (hplain : Plain e)
    (hts : e.key.ts = rp.seqNumber + 1) (hlsm : rp'.toLsm = rp.toLsm) (hmode : rp'.mode = rp.mode)
    (hsearch : rp'.deletes.length + rp'.checked.length = 0) (hout : rp'.outstanding = [e])
    (hwriter : rp'.writer = rp.writer) (hseq : rp'.seqNumber = rp.seqNumber + 1) :
    rp'.Tracks log (calls ++ [Entry.call e]) P where
  faithful := hlsm ▸ h.faithful
  mode := hmode ▸ h.mode
  single := by
    rw [hout, length_singleton]
    omega
  plain := by
    rw [hout]
    exact forall_mem_singleton.mpr hplain
  newer := by
    rw [hout, forall_mem_singleton, hts]
    exact fun x hx => Nat.lt_succ_of_le (h.put_bounds x hx).2
  bounds := by
    rw [hout, hseq, forall_mem_singleton, hts]
    omega
  put_bounds := by
    intro x hx
    have := h.put_bounds x hx
    rw [hseq]
    omega
  readable := hwriter ▸ h.readable
  means := by
    obtain ⟨done, hcalls, hdone⟩ := h.means
    rw [hnone, map_nil, append_nil] at hcalls
    exact ⟨done, by rw [hcalls, hout]; rfl, hdone⟩

theorem Tracks.put {todo placed : List EntryInfo} {head : ValuePointer} {height : ℕ} {lsm : Lsm}
    (hw : rp.writer = .putting (ei :: todo) head placed)
    (hs : LsmStep rp.toLsm (.put ei.log.key (lsmValue ei) height) lsm) :
    ({ rp with toLsm := lsm, writer := .putting todo head placed } : RangePartition).Tracks log
      calls (P ++ [lsmPair ei]) := by
  have hout : rp.outstanding = rp.inFlight ++ ei.log :: todo.map EntryInfo.log := by
    rw [outstanding, hw]
    rfl
  have hei : ei.log ∈ rp.outstanding := by simp [hout]
  obtain ⟨hfl, htodo⟩ : rp.inFlight = [] ∧ todo = [] := by
    have := h.single
    rw [hout, length_append, length_cons, length_map] at this
    exact ⟨length_eq_zero_iff.mp (by omega), length_eq_zero_iff.mp (by omega)⟩
  have hnone : ({ rp with toLsm := lsm, writer := .putting todo head placed } :
      RangePartition).outstanding = [] := by
    rw [inFlight, hw] at hfl
    rw [outstanding, inFlight, htodo]
    simpa [Writer.infos, Writer.pending] using hfl
  refine ⟨?_, h.mode, ?_, by simp [hnone], by simp [hnone], by simp [hnone], ?_, ?_, ?_⟩
  · refine h.faithful.step hs (forall_mem_singleton.mpr ⟨h.newer _ hei, ?_⟩)
    exact (expiresAt_lsmPair ei).trans (h.plain _ hei).expiresAt_eq
  · have := h.single
    rw [hnone]
    simp only [length_nil]
    omega
  · exact forall_mem_concat h.put_bounds (h.bounds _ hei)
  · simp [htodo, Writer.infos]
  · obtain ⟨done, hcalls, hdone⟩ := h.means
    refine ⟨done ++ [Entry.call ei.log], ?_, ?_⟩
    · rw [hnone, hcalls, hout, hfl, htodo]
      simp
    · refine rel_append hdone (List.Forall₂.cons ?_ List.Forall₂.nil)
      exact means_lsmPair (h.plain _ hei) (h.readable ei (by simp [hw, Writer.infos]))

theorem Tracks.lsm {lsm : Lsm} (hs : LsmStep rp.toLsm op lsm) (hop : op.puts = []) :
    lsm.Faithful P := by
  have := h.faithful.step hs (by simp [hop])
  rwa [hop, append_nil] at this

theorem Tracks.step (hfails : Action.fails (.loc a) = false)
    (hstarts : ∀ key, Action.starts (.loc a) = some key → rp.Quiet) (hs : LocalStep env rp a rp') :
    ∃ P', rp'.Tracks log (calls ++ (Action.call (.loc a)).toList) P' := by
  have hmode : ∀ m : Mode, rp.mode = m → m = .replaying [] ∨ m = .running :=
    fun m hm => hm ▸ h.mode
  have stays (hcall : Action.call (.loc a) = none) (ht : rp'.Tracks log calls P) :
      ∃ P', rp'.Tracks log (calls ++ (Action.call (.loc a)).toList) P' :=
    ⟨P, by rwa [hcall, Option.toList_none, append_nil]⟩
  cases hs with
  | @write key value ho =>
    have hquiet := hstarts key rfl
    refine ⟨P, h.draw (e := writeEntry key value (rp.seqNumber + 1)) hquiet.outstanding_eq_nil
      (.inl ⟨key, value, _, rfl⟩) rfl rfl rfl ?_ ?_ rfl rfl⟩
    · simp [hquiet.deletes, hquiet.checked]
    · simp [outstanding, inFlight, hquiet.drawn, hquiet.writeCh, hquiet.reqs, hquiet.writer,
        Writer.pending, Writer.infos]
  | @deleteMem key ho =>
    have hquiet := hstarts key rfl
    refine stays rfl { h with single := ?_ }
    have hout : ({ rp with deletes := rp.deletes ++ [⟨key, rp.memTables, rp.seqNumber⟩] } :
        RangePartition).outstanding = [] := hquiet.outstanding_eq_nil
    rw [hout]
    simp [hquiet.deletes, hquiet.checked]
  | @deleteMiss i d hd =>
    refine stays rfl (h.of_moved h.faithful h.mode ?_ (List.Perm.refl _) h.readable le_rfl)
    have := length_eraseIdx_le rp.deletes i
    dsimp only
    omega
  | @deleteHit i d hd =>
    refine stays rfl (h.of_moved h.faithful h.mode ?_ (List.Perm.refl _) h.readable le_rfl)
    have hi : i < rp.deletes.length := (List.getElem?_eq_some_iff.mp hd).1
    rw [length_eraseIdx_of_lt hi, length_append, length_singleton]
    omega
  | @deleteDraw key hk =>
    have hpos := length_pos_of_mem hk
    have hsingle := h.single
    have hnone : rp.outstanding = [] := length_eq_zero_iff.mp (by omega)
    refine ⟨P, h.draw (e := deleteEntry key (rp.seqNumber + 1)) hnone (.inr ⟨key, _, rfl⟩) rfl
      rfl rfl ?_ ?_ rfl rfl⟩
    · dsimp only
      rw [length_erase_of_mem hk]
      omega
    · simp only [outstanding, inFlight, append_eq_nil_iff] at hnone
      simp [outstanding, inFlight, hnone]
  | @enqueue i e he hm =>
    refine stays rfl (h.of_moved h.faithful h.mode le_rfl ?_ h.readable le_rfl)
    obtain ⟨hi, rfl⟩ := List.getElem?_eq_some_iff.mp he
    have hperm := getElem_cons_eraseIdx_perm hi
    refine List.Perm.append_right _ (perm_iff_count.mpr fun f => ?_)
    have hcount := hperm.count_eq f
    simp only [inFlight, count_append, count_cons, count_nil] at hcount ⊢
    omega
  | reject hm =>
    rcases hm with hm | hm
    · exact absurd (hmode _ hm) (by simp)
    · exact absurd (hmode _ hm) (by simp)
  | @collect e rest hc hm =>
    refine stays rfl (h.of_moved h.faithful h.mode le_rfl ?_ h.readable le_rfl)
    refine List.Perm.append_right _ (perm_iff_count.mpr fun f => ?_)
    simp only [inFlight, hc, count_append, count_cons, count_nil]
    omega
  | startBatch hw hm hr =>
    refine stays rfl (h.of_moved h.faithful h.mode le_rfl (List.Perm.of_eq ?_)
      (by simp [Writer.infos]) le_rfl)
    simp [outstanding, inFlight, hw, Writer.pending, Writer.infos]
  | appendErr hw | closeStart hm hc => cases hfails
  | roomFits hw =>
    refine stays rfl (h.of_moved h.faithful h.mode le_rfl (List.Perm.of_eq ?_)
      (fun ei hei => h.readable ei (by rwa [hw])) le_rfl)
    simp [outstanding, inFlight, hw, Writer.pending, Writer.infos]
  | roomRotate hw hs =>
    refine stays rfl (h.of_moved (h.lsm hs rfl) h.mode le_rfl (List.Perm.of_eq ?_)
      (fun ei hei => h.readable ei (by rwa [hw])) (Nat.le_succ _))
    simp [outstanding, inFlight, hw, Writer.pending, Writer.infos]
  | roomFull hw =>
    exact stays rfl (h.of_moved h.faithful h.mode le_rfl (List.Perm.refl _) h.readable
      (Nat.le_succ _))
  | @put ei todo placed head height lsm hw hs =>
    simp only [Action.call, Option.toList_none, append_nil]
    exact ⟨_, h.put hw hs⟩
  | @background a op lsm hop hs ha =>
    exact stays (call_of_background ha) (h.of_moved (h.lsm hs (puts_of_isBackground hop)) h.mode
      le_rfl (List.Perm.refl _) h.readable le_rfl)
  | replayNext hm | replayFits hm | replayRotate hm hs | replayFull hm | replayPut hm hs
  | closeEmpty hm hw hmt | closePush hm hw hs => exact absurd (hmode _ hm) (by simp)
  | replayEnd hm =>
    exact stays rfl (h.of_moved h.faithful (.inr rfl) le_rfl (List.Perm.refl _) h.readable le_rfl)

end

end RangePartition

theorem keeps_append (log : LogStream) (bs : List LogBlock) : log.Keeps (log.append bs) :=
  fun _ _ _ h => LogStream.readBlock_append h bs

theorem keeps_newExtent (log : LogStream) (id : ℕ) : log.Keeps (log.newExtent id) :=
  fun _ _ _ h => LogStream.readBlock_newExtent h id

variable {w : World}

namespace World

variable {w' : World}

theorem refines_init {id : ℕ} (hid : id < 2 ^ 64) : (World.init id).Refines [] where
  ids_lt := by simpa [World.init, LogStream.exs] using hid
  unopened := fun _ => ⟨rfl, rfl, placed_init id⟩
  rp := by simp [World.init]

theorem Refines.of_rp (h : w.Refines calls) {calls' : List Call} (hlog : w'.log = w.log)
    {rp' : RangePartition} (hrp' : w'.rp = some rp')
    (ht : ∃ P, rp'.Tracks w.log calls' P) : w'.Refines calls' where
  ids_lt := hlog ▸ h.ids_lt
  unopened := fun hn => by cases hrp'.symm.trans hn
  rp := by
    intro rp'' hrp''
    cases hrp'.symm.trans hrp''
    rwa [hlog]

theorem ids_lt_append (h : ∀ x ∈ log.exs, x.id < 2 ^ 64) (bs : List LogBlock) :
    ∀ x ∈ (log.append bs).exs, x.id < 2 ^ 64 := by
  intro x hx
  have hid : x.id ∈ (log.append bs).exs.map LogExtent.id := mem_map_of_mem hx
  rw [LogStream.ids_append] at hid
  obtain ⟨y, hy, hyx⟩ := mem_map.mp hid
  exact hyx ▸ h y hy

/-- **One step of the refinement**: a step keeps the relation to the map, with its call added to
the calls. -/
theorem Refines.step {a : Action} (hb : w.Base) (h : w.Refines calls) (hg : Sequential w a)
    (hs : WorldStep env w a w') : w'.Refines (calls ++ a.call.toList) := by
  have stays (hcall : a.call = none) (hw : w'.Refines calls) :
      w'.Refines (calls ++ a.call.toList) := by
    rwa [hcall, Option.toList_none, append_nil]
  cases hs with
  | @loc a rp rp' hrp hs =>
    obtain ⟨P, hP⟩ := h.rp rp hrp
    exact h.of_rp rfl rfl (hP.step hg.1 (fun key hkey => (hg.2 key hkey).2.2 rp hrp) hs)
  | @newExtent id hid h0 hlt =>
    refine stays rfl ⟨fun x hx => ?_, fun hn => ?_, fun rp hrp => ?_⟩
    · rcases LogStream.mem_exs.mp hx with hx | rfl
      · exact h.ids_lt x hx
      · exact hlt
    · obtain ⟨hc, hst, hpl⟩ := h.unopened hn
      exact ⟨hc, hst, by rw [LogStream.placed_newExtent, hpl]⟩
    · obtain ⟨P, hP⟩ := h.rp rp hrp
      exact ⟨P, hP.of_keeps (keeps_newExtent _ _)⟩
  | @appendGarbage n rp reqs bs hrp hw hbs hlen =>
    refine stays rfl ⟨ids_lt_append h.ids_lt _, fun hn => (by cases hrp.symm.trans hn),
      fun rp hrp => ?_⟩
    obtain ⟨P, hP⟩ := h.rp rp hrp
    exact ⟨P, hP.of_keeps (keeps_append _ _)⟩
  | @appendOk rp reqs bs hrp hw hbs hlen =>
    obtain ⟨P, hP⟩ := h.rp rp hrp
    have hP' := hP.of_keeps (keeps_append w.log bs)
    refine stays rfl ⟨ids_lt_append h.ids_lt _, by simp, forall_of_some ⟨P,
      hP'.of_moved hP'.faithful hP'.mode le_rfl ?_ (fun ei hei => ?_) le_rfl⟩⟩
    · -- The batch moves from the requests to the entries that know their positions.
      have hperm := map_log_requestOrder_perm env w.log.last.id w.log.tail reqs
      simp only [RangePartition.outstanding, RangePartition.inFlight, afterAppend, hw,
        Writer.pending, Writer.infos, map_nil, append_nil, append_assoc]
      exact ((hperm.append_left _).append_left _).append_left _
    · exact readable_requestOrder hb.log_wf (h.ids_lt _ (LogStream.mem_exs.mpr (.inr rfl))) hbs hlen
        hei
  | @finish rp head placed hrp hw =>
    obtain ⟨P, hP⟩ := h.rp rp hrp
    refine stays rfl (h.of_rp rfl rfl ⟨P, hP.of_moved hP.faithful hP.mode le_rfl
      (List.Perm.of_eq ?_) (by simp [Writer.infos]) le_rfl⟩)
    simp [RangePartition.outstanding, RangePartition.inFlight, hw, Writer.pending, Writer.infos]
  | @store rp lsm hrp hs | @compactFinish rp c lsm hrp hc hs =>
    obtain ⟨P, hP⟩ := h.rp rp hrp
    exact stays rfl (h.of_rp rfl rfl ⟨P, hP.of_moved (hP.lsm hs rfl) hP.mode le_rfl
      (List.Perm.refl _) hP.readable le_rfl⟩)
  | openPartition hrp =>
    obtain ⟨rfl, hst, hpl⟩ := h.unopened hrp
    have hopen : openRangePartition w.log w.stored = { openRangePartition w.log [] with
        mode := .replaying [] } := by
      rw [hst, openRangePartition, show compactHead [] = ({}, 0) from rfl, LogStream.since,
        if_pos ⟨rfl, rfl⟩, hpl]
    refine stays rfl (h.of_rp rfl rfl ⟨[], ?_⟩)
    rw [hopen]
    exact ⟨Lsm.faithful_opened, .inl rfl, Nat.zero_le _, forall_mem_nil _,
      forall_mem_nil _, forall_mem_nil _, by simp, forall_mem_nil _, [], rfl, .nil⟩
  | @closeEnd rp hrp hm =>
    obtain ⟨P, hP⟩ := h.rp rp hrp
    exact absurd (hm ▸ hP.mode) (by simp)
  | crash => cases hg.1

end World

/-! ## A read while the partition works on -/

/-- The condition on a step during a read: nothing fails, and no call starts. -/
def Calm (_ : World) (a : Action) : Prop := a.fails = false ∧ a.starts = none

theorem Calm.sequential {a : Action} (h : Calm w a) : Sequential w a :=
  ⟨h.1, by simp [h.2]⟩

theorem memPairs_subset_of_step {s s' : Lsm} (hs : LsmStep s op s') (hop : op.puts = []) :
    memPairs s'.memTables ⊆ memPairs s.memTables := by
  rintro x ⟨m, hm, hx⟩
  cases hs with
  | put room => cases hop
  | rotate room =>
    rw [Lsm.memTables, reverse_append, mem_cons] at hm
    rcases hm with rfl | hm
    · cases hx
    · exact ⟨m, hm, hx⟩
  | @popImm ft n imm hf hc hi =>
    refine ⟨m, ?_, hx⟩
    rw [Lsm.memTables, hi, reverse_cons]
    rcases hm with _ | ⟨_, hm⟩
    · exact (.head _)
    · exact .tail _ (mem_append_left _ hm)
  | _ => exact ⟨m, hm, hx⟩

/-- A partition at rest stays at rest as long as no call starts. -/
theorem RangePartition.Quiet.step {rp' : RangePartition} (h : rp.Quiet)
    (hfails : Action.fails (.loc a) = false) (hstarts : Action.starts (.loc a) = none)
    (hs : LocalStep env rp a rp') :
    rp'.Quiet ∧ memPairs rp'.memTables ⊆ memPairs rp.memTables ∧ rp'.seqNumber = rp.seqNumber ∧
      Action.call (.loc a) = none := by
  cases hs with
  | write ho | deleteMem ho => cases hstarts
  | deleteMiss hd | deleteHit hd => simp [h.deletes] at hd
  | deleteDraw hk => simp [h.checked] at hk
  | enqueue he hm => simp [h.drawn] at he
  | reject hm | replayNext hm | replayFits hm | replayRotate hm hs | replayFull hm
  | replayPut hm hs | replayEnd hm | closeEmpty hm hw hmt | closePush hm hw hs =>
    simp [h.mode] at hm
  | collect hc hm => simp [h.writeCh] at hc
  | startBatch hw hm hr => exact absurd h.reqs hr
  | appendErr hw | closeStart hm hc => cases hfails
  | roomFits hw | roomRotate hw hs | roomFull hw | put hw hs => simp [h.writer] at hw
  | @background a op lsm hop hs ha =>
    exact ⟨{ h with mode := h.mode },
      memPairs_subset_of_step hs (puts_of_isBackground hop), rfl, call_of_background ha⟩

/-- What a read may rely on in the states `w'` that follow the state `w` it started in. -/
structure ReadView (w : World) (rp : RangePartition) (calls : List Call) (w' : World) : Prop where
  base : w'.Base
  refines : w'.Refines calls
  keeps : w.log.Keeps w'.log
  rp : ∃ rp', w'.rp = some rp' ∧ rp'.Quiet ∧ memPairs rp'.memTables ⊆ memPairs rp.memTables ∧
    rp'.seqNumber = rp.seqNumber

theorem ReadView.step {w₁ w₂ : World} {a : Action} (h : ReadView w rp calls w₁) (hg : Calm w₁ a)
    (hs : WorldStep env w₁ a w₂) : ReadView w rp calls w₂ := by
  obtain ⟨rp₁, hrp₁, hq, hmem, hseq⟩ := h.rp
  have hb := h.base.step hs
  have hr := h.refines.step h.base hg.sequential hs
  -- The call of a step that is taken at rest is none.
  have hcall : a.call = none ∧ w₁.log.Keeps w₂.log ∧ ∃ rp₂, w₂.rp = some rp₂ ∧ rp₂.Quiet ∧
      memPairs rp₂.memTables ⊆ memPairs rp₁.memTables ∧ rp₂.seqNumber = rp₁.seqNumber := by
    cases hs with
    | @loc a rp₀ rp₂ hrp hs =>
      cases hrp₁.symm.trans hrp
      obtain ⟨h1, h2, h3, h4⟩ := hq.step hg.1 hg.2 hs
      exact ⟨h4, fun _ _ _ hb => hb, rp₂, rfl, h1, h2, h3⟩
    | newExtent hid h0 hlt => exact ⟨rfl, keeps_newExtent _ _, rp₁, hrp₁, hq, subset_rfl, rfl⟩
    | @appendGarbage n rp₀ reqs bs hrp hw hbs hlen =>
      exact ⟨rfl, keeps_append _ _, rp₁, hrp₁, hq, subset_rfl, rfl⟩
    | @appendOk rp₀ reqs bs hrp hw hbs hlen | @finish rp₀ head placed hrp hw =>
      cases hrp₁.symm.trans hrp
      cases hq.writer.symm.trans hw
    | @store rp₀ lsm hrp hs | @compactFinish rp₀ c lsm hrp hc hs =>
      cases hrp₁.symm.trans hrp
      exact ⟨rfl, fun _ _ _ hb => hb, _, rfl, { hq with mode := hq.mode },
        memPairs_subset_of_step hs rfl, rfl⟩
    | openPartition hrp => cases hrp₁.symm.trans hrp
    | @closeEnd rp₀ hrp hm =>
      cases hrp₁.symm.trans hrp
      cases hq.mode.symm.trans hm
    | crash => cases hg.1
  obtain ⟨hnone, hkeeps, rp₂, hrp₂, hq₂, hmem₂, hseq₂⟩ := hcall
  rw [hnone, Option.toList_none, append_nil] at hr
  exact ⟨hb, hr, fun e o b hb => hkeeps e o b (h.keeps e o b hb), rp₂, hrp₂, hq₂,
    hmem₂.trans hmem, hseq₂.trans hseq⟩

theorem ReadView.run {w₁ w₂ : World} {as : List Action} (h : ReadView w rp calls w₁)
    (hg : Guarded (Autumn.step env) Calm w₁ as) (hs : exec (Autumn.step env) w₁ as = some w₂) :
    ReadView w rp calls w₂ :=
  exec_invariant (I := ReadView w rp calls) (fun _ _ _ h hg hs => h.step hg (step_cases hs)) h hg hs

/-- What `Get` returns for an entry of the map. -/
def answer : Option Bytes → Except GetError Bytes
  | some value => .ok value
  | none => .error .notFound

/-- A value struct that reads the latest of the pairs gives the answer of the map. -/
theorem answer_of_reads (h : rp.Tracks log calls P) (hq : rp.Quiet) (hk : log.Keeps log')
    {k : Bytes} {vs : ValueStruct} (hvs : Lsm.Reads P k vs) :
    (if vs.version = 0 then .error .notFound
      else if vs.isDeleted then .error .notFound
      else readValue log' vs) = answer (mapOf calls k) := by
  obtain ⟨done, hcalls, hdone⟩ := h.means
  rw [hq.outstanding_eq_nil, map_nil, append_nil] at hcalls
  rw [hcalls, mapOf]
  rcases hvs with ⟨x, hx, rfl, hvs⟩ | ⟨hno, rfl⟩
  · obtain ⟨c, ⟨_, hc⟩, hmap⟩ := foldl_apply_of_latest hdone h.faithful.increasing hx fun _ => none
    have hpos := (h.put_bounds x hx.1).1
    rw [hmap]
    rcases hvs with rfl | ⟨hdel, rfl⟩
    · rw [if_neg hpos.ne', show ({ x.2 with version := x.1.ts } : ValueStruct).isDeleted =
        x.2.isDeleted from rfl]
      rcases hc with ⟨hdel, hc⟩ | ⟨hdel, value, hc, hval⟩
      · rw [if_pos hdel, hc]
        rfl
      · rw [hdel, hc]
        exact readValue_of_keeps hk hval
    · rcases hc with ⟨_, hc⟩ | ⟨hdel', _⟩
      · rw [if_pos rfl, hc]
        rfl
      · cases hdel.symm.trans hdel'
  · rw [if_pos rfl, foldl_apply_of_forall_ne hdone hno]
    rfl

/-- **A range partition is a map.**  After any calls one after the other, `Get` returns what the map
of the calls holds, whatever the partition does meanwhile: it loads the memtables in state `w₁`,
looks at the tables in a later state `w₂` and follows a pointer in a still later state `w₃`. -/
theorem get_eq_mapOf {env : Env} {id : ℕ} (hid : id ≠ 0) (hid' : id < 2 ^ 64)
    {as bs cs : List Action} {w₁ w₂ w₃ : World} {rp₁ rp₂ : RangePartition}
    (h₁ : exec (step env) (World.init id) as = some w₁)
    (hg₁ : Guarded (step env) Sequential (World.init id) as) (h₂ : exec (step env) w₁ bs = some w₂)
    (hg₂ : Guarded (step env) Calm w₁ bs) (h₃ : exec (step env) w₂ cs = some w₃)
    (hg₃ : Guarded (step env) Calm w₂ cs) (hrp₁ : w₁.rp = some rp₁) (hrp₂ : w₂.rp = some rp₂)
    (hq : rp₁.Quiet) {k : Bytes} (hk : k ≠ []) :
    get env rp₁.memTables rp₁.seqNumber rp₂.tables w₃.log k 0 = answer (mapOf (callsOf as) k) := by
  have hinit : w₁.Base ∧ w₁.Refines (callsOf as) := by
    have := exec_trace (I := fun p w => w.Base ∧ w.Refines (callsOf p)) (p := [])
      (fun p s a s' hI hG hs => ⟨hI.1.step (step_cases hs), ?_⟩)
      ⟨base_init hid, World.refines_init hid'⟩ hg₁ h₁
    · simpa using this
    · have hcall : callsOf [a] = a.call.toList := by
        cases hc : a.call <;> simp [callsOf, hc]
      rw [callsOf_append, hcall]
      exact hI.2.step hI.1 hG (step_cases hs)
  have hview₁ : ReadView w₁ rp₁ (callsOf as) w₁ :=
    ⟨hinit.1, hinit.2, fun _ _ _ hb => hb, rp₁, hrp₁, hq, subset_rfl, rfl⟩
  have hview₂ := hview₁.run hg₂ h₂
  obtain ⟨rp', hrp', hq₂, hmem, hseq⟩ := hview₂.rp
  cases hrp₂.symm.trans hrp'
  have hkeeps₁ := (hview₂.run hg₃ h₃).keeps
  have hkeeps₂ : w₂.log.Keeps w₃.log := by
    have hview : ReadView w₂ rp₂ (callsOf as) w₂ :=
      ⟨hview₂.base, hview₂.refines, fun _ _ _ hb => hb, rp₂, hrp₂, hq₂, subset_rfl, rfl⟩
    exact (hview.run hg₃ h₃).keeps
  obtain ⟨P₁, hP₁⟩ := hinit.2.rp rp₁ hrp₁
  obtain ⟨P₂, hP₂⟩ := hview₂.refines.rp rp₂ hrp₂
  -- The search answers for the pairs visible in `w₁` or for those visible in `w₂`.
  have hans := hP₁.faithful.layered.getValueStruct_later env hk rp₁.seqNumber 0
    (hinit.1.visible_pos hrp₁) (hview₂.base.visible_pos hrp₂) hmem
  rw [if_pos rfl] at hans
  rcases hans with hans | hans
  · exact answer_of_reads hP₁ hq hkeeps₁
      (hP₁.faithful.reads (fun x hx => (hP₁.put_bounds x hx).2) hans)
  · refine answer_of_reads hP₂ hq₂ hkeeps₂ (hP₂.faithful.reads (fun x hx => ?_) hans)
    exact hseq ▸ (hP₂.put_bounds x hx).2

instance (rp : RangePartition) : Decidable rp.Quiet := decidable_of_iff' _ rp.quiet_iff

instance (w : World) (a : Action) : Decidable (Sequential w a) :=
  decidable_of_iff (a.fails = false ∧ ∀ key ∈ a.starts,
    key ≠ [] ∧ key.length + 8 < 2 ^ 16 ∧ ∀ rp ∈ w.rp, rp.Quiet) Iff.rfl

/-- The rest of a call that has drawn its version, up to its acknowledgement. -/
def commitOne : List Action :=
  [.loc (.enqueue 0), .loc .collect, .loc .startBatch, .appendOk, .loc .ensureRoom, .loc (.put 1),
    .finish]

/-- Two writes, the second with a value behind a pointer, and the deletion of the first key. -/
def writesAndDelete : List Action :=
  [.openPartition, .loc .replayEnd, .loc (.write [107] [1])] ++ commitOne ++
    .loc (.write [108] (List.replicate 1025 7)) :: commitOne ++
    [.loc (.deleteMem [107]), .loc (.deleteTables 0), .loc (.deleteDraw [107])] ++ commitOne

theorem get_eq_mapOf_writesAndDelete :
    ∃ w₁ w₂ rp, exec (step Env.plain) (World.init 1) writesAndDelete = some w₁ ∧
      exec (step Env.plain) w₁ [.newExtent 2] = some w₂ ∧ w₁.rp = some rp ∧
      get Env.plain rp.memTables rp.seqNumber rp.tables w₂.log [107] 0 = .error .notFound ∧
      get Env.plain rp.memTables rp.seqNumber rp.tables w₂.log [108] 0 =
        .ok (List.replicate 1025 7) := by
  obtain ⟨w₁, hw₁, rp, hrp, hq, w₂, hw₂, -⟩ : ∃ w ∈ exec (step Env.plain) (World.init 1)
      writesAndDelete, ∃ rp ∈ w.rp, rp.Quiet ∧
      ∃ w₂ ∈ exec (step Env.plain) w [.newExtent 2], True := by
    decide +kernel
  have hg : Guarded (step Env.plain) Sequential (World.init 1) writesAndDelete := by decide +kernel
  have hnil : exec (step Env.plain) w₁ [] = some w₁ := rfl
  have hcalm : Guarded (step Env.plain) Calm w₁ [.newExtent 2] :=
    ⟨⟨rfl, rfl⟩, fun _ _ => trivial⟩
  refine ⟨w₁, w₂, rp, hw₁, hw₂, hrp, ?_, ?_⟩
  · exact get_eq_mapOf (by decide) (by decide) hw₁ hg hnil trivial hw₂ hcalm hrp hrp hq
      (by decide)
  · exact get_eq_mapOf (by decide) (by decide) hw₁ hg hnil trivial hw₂ hcalm hrp hrp hq
      (by decide)

end Autumn
