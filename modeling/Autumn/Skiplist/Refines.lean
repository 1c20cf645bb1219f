import Autumn.Skiplist.Skl
import Autumn.Lib.Run

/-!
# The skiplist is a sorted map

A sequence of `Put` calls, with any heights drawn for the new nodes, makes the skiplist the sorted
map of the last values put (`skiplist_refines_sortedMap`), as long as the bytes it takes fit the
arena.  `Refines.put` does the work for one call.
-/

namespace Autumn
namespace Skl

open Lib Y List Option InternalKey Raw SortedMap SortedRun Skiplist

/-- A call of `Put` and the height that is drawn if it makes a node. -/
structure PutOp where
  key : Bytes
  value : ValueStruct
  height : ℕ
  deriving DecidableEq

/-- Keys are of eight to 65535 bytes, heights are between one and twenty, and the expiry time is a
64-bit number. -/
@[mk_iff]
structure PutOp.Valid (op : PutOp) : Prop where
  len_ge : 8 ≤ op.key.length
  len_le : op.key.length ≤ 65535
  height_ge : 1 ≤ op.height
  height_le : op.height ≤ 20
  expiresAt_lt : op.value.expiresAt < 2 ^ 64

instance (op : PutOp) : Decidable op.Valid := decidable_of_iff' _ op.valid_iff

/-- One call. -/
def step (s : Skl) (op : PutOp) : Option Skl := s.put op.key op.value op.height

/-- The same call on the sorted map. -/
def stepMap (m : Skiplist) (op : PutOp) : Skiplist :=
  m.put (InternalKey.ofBytes op.key) op.value op.height

/-- The sorted map after the calls; its `memSize` is the number of arena bytes they take. -/
def sortedMap (ops : List PutOp) : Skiplist := ops.foldl stepMap Skiplist.new

/-- The value of the last `Put` of a key, as it is read back: a `nil` slice comes back empty. -/
def lastPut (ops : List PutOp) (key : Bytes) : Option ValueStruct :=
  (ops.reverse.find? fun op => op.key == key).map fun op => op.value.decoded

/-- The pairs after the calls. -/
def putPairs (ops : List PutOp) : Set Pair :=
  {x | ∃ key v, lastPut ops key = some v ∧ x = (InternalKey.ofBytes key, v)}

/-! ## The calls -/

theorem memSize_le_foldl : ∀ (ops : List PutOp) (m : Skiplist),
    m.memSize ≤ (ops.foldl stepMap m).memSize
  | [], _ => le_rfl
  | op :: ops, m => by
    have hput : m.memSize ≤ (stepMap m op).memSize := by
      unfold stepMap Skiplist.put
      dsimp only
      split_ifs <;> omega
    exact hput.trans (memSize_le_foldl ops (stepMap m op))

variable {s : Skl} {m : Skiplist} {L : ℕ → List ℕ} {ops : List PutOp} {key : Bytes}
  {v : ValueStruct}

theorem Refines.exec : ∀ {ops : List PutOp} {s : Skl} {m : Skiplist} {L : ℕ → List ℕ},
    s.Refines m L → (∀ op ∈ ops, op.Valid) → (ops.foldl stepMap m).memSize ≤ s.arena.len →
    ∃ s' L', Lib.exec step s ops = some s' ∧ s'.Refines (ops.foldl stepMap m) L'
  | [], s, _, L, h, _, _ => ⟨s, L, rfl, h⟩
  | op :: ops, s, m, _, h, hops, hfit => by
    have hop := hops op (.head _)
    have hfit₁ : (stepMap m op).memSize ≤ s.arena.len := (memSize_le_foldl ops _).trans hfit
    obtain ⟨s₁, L₁, hput, hlen, h₁⟩ := h.put hop.len_ge (Nat.lt_succ_of_le hop.len_le)
      hop.expiresAt_lt hop.height_ge hop.height_le hfit₁
    obtain ⟨s', L', hexec, h'⟩ := Refines.exec h₁ (fun o ho => hops o (.tail _ ho))
      (by rw [hlen]; exact hfit)
    exact ⟨s', L', (exec_cons_of_step hput ops).trans hexec, h'⟩

theorem lastPut_append (ops : List PutOp) (op : PutOp) (key : Bytes) :
    lastPut (ops ++ [op]) key =
      if op.key = key then some op.value.decoded else lastPut ops key := by
  rw [lastPut, reverse_append, reverse_singleton, singleton_append, find?_cons]
  by_cases h : op.key = key
  · rw [if_pos h, beq_iff_eq.mpr h]
    rfl
  · rw [if_neg h, beq_eq_false_iff_ne.mpr h]
    rfl

theorem mem_sortedMap_iff (hkey : 8 ≤ key.length) (ops : List PutOp) :
    (∀ op ∈ ops, op.Valid) →
      ((ofBytes key, v) ∈ (sortedMap ops).data ↔ lastPut ops key = some v) := by
  induction ops using reverseRecOn with
  | nil => exact fun _ => iff_of_false (SortedMap.not_mem_empty _) (Option.some_ne_none v).symm
  | append_singleton ops op ih =>
    intro hops
    have hop := hops op (mem_concat_self)
    have hinj : ofBytes key = ofBytes op.key ↔ op.key = key :=
      ⟨fun h => (ofBytes_inj hkey hop.len_ge h).symm, fun h => congrArg _ h.symm⟩
    have hmap : sortedMap (ops ++ [op]) = stepMap (sortedMap ops) op := foldl_append ..
    rw [hmap, lastPut_append]
    show _ ∈ (sortedMap ops).data.insert _ _ ↔ _
    rw [mem_insert, Prod.mk.injEq, hinj, ih fun o ho => hops o (mem_append_left _ ho)]
    by_cases h : op.key = key
    · rw [if_pos h, some_inj]
      exact ⟨fun hor => hor.elim (fun hl => hl.2.symm) fun hr => absurd (hinj.mpr h) hr.2,
        fun hv => .inl ⟨h, hv.symm⟩⟩
    · rw [if_neg h]
      exact ⟨fun hor => hor.elim (fun hl => absurd hl.1 h) And.left,
        fun hl => .inr ⟨hl, fun hk => h (hinj.mp hk)⟩⟩

theorem exists_of_lastPut (h : lastPut ops key = some v) :
    ∃ op ∈ ops, op.key = key ∧ op.value.decoded = v := by
  obtain ⟨op, hfind, hv⟩ := map_eq_some_iff.mp h
  have hmem := mem_reverse.mp (mem_of_find?_eq_some hfind)
  exact ⟨op, hmem, by simpa using find?_some hfind, hv⟩

theorem len_ge_of_lastPut (hops : ∀ op ∈ ops, op.Valid) (h : lastPut ops key = some v) :
    8 ≤ key.length := by
  obtain ⟨op, hmem, rfl, -⟩ := exists_of_lastPut h
  exact (hops op hmem).len_ge

/-! ## What the functions return -/

theorem Refines.get_eq (h : s.Refines m L) (hkey : 8 ≤ key.length) :
    s.get key = some (m.get (ofBytes key)) := by
  obtain ⟨⟨n, b⟩, hfind, hnear⟩ := h.findNear_spec hkey false true
  have hget : s.get key = if n = 0 then some {} else
      if !sameKey key (s.arena.keyOf n) then some {} else (s.arena.valueOf n).bind fun vs =>
        some { vs with version := parseTs (s.arena.keyOf n) } := by
    rw [get, hfind]
    rfl
  rw [hget, Skiplist.get, SortedRun.lookup]
  by_cases hn : n = 0
  · have hseek : m.data.seek (ofBytes key) = none := by
      refine seek_eq_none_iff.mpr fun x hx => ?_
      obtain ⟨y, hy, rfl⟩ := h.mem_iff.mp hx
      exact not_le.mp (hnear.none hn y hy)
    rw [if_pos hn, hseek]
    rfl
  · obtain ⟨hmem, hle, hmin⟩ := hnear.some hn
    have hseek : m.data.seek (ofBytes key) = some (s.pair n) := by
      refine seek_eq_some_iff.mpr ⟨h.mem_iff.mpr ⟨n, hmem, rfl⟩, hle, fun x hx hkx => ?_⟩
      obtain ⟨y, hy, rfl⟩ := h.mem_iff.mp hx
      exact hmin y hy hkx
    have hst := h.stored n hmem
    have hlookup : (m.data.seek (ofBytes key)).filter (fun x =>
        Y.sameKey (ofBytes key) x.1) =
          if Y.sameKey (ofBytes key) (s.key n) then some (s.pair n) else none := by
      rw [hseek, filter_some]
      rfl
    have hsame : sameKey key (s.arena.keyOf n) = Y.sameKey (ofBytes key) (s.key n) :=
      sameKey_eq hkey hst.key_len
    rw [if_neg hn, hlookup, hsame, hst.value_eq, parseTs_eq]
    cases Y.sameKey (ofBytes key) (s.key n) with
    | true => rfl
    | false => rfl

theorem Refines.findNear_eq (h : s.Refines m L) (hkey : 8 ≤ key.length) (less allowEqual : Bool) :
    (s.findNear key less allowEqual).map Prod.fst =
      some (((if less then (L 0).reverse else L 0).find? fun y =>
        Towers.Wanted s.key (ofBytes key) less allowEqual y).getD 0) := by
  obtain ⟨r, hfind, hnear⟩ := h.findNear_spec hkey less allowEqual
  rw [hfind, map_some, hnear.eq_find? (h.levels.sorted 0)]

theorem Refines.seekToLast_eq (h : s.Refines m L) :
    s.seekToLast = some ((L 0).getLast?.getD 0) := by
  obtain ⟨r, hlast, h0, hr⟩ :=
    h.levels.findLast_spec s.fuel s.head (s.height - 1) (.inl rfl) (h.fuel_gt s.head)
  rw [seekToLast, findLast, ← Towers.eq_getLast? (h.levels.sorted 0) h0 hr]
  exact hlast

theorem Refines.next_eq (h : s.Refines m L) {a b : List ℕ} {y : ℕ} (hsplit : L 0 = a ++ y :: b) :
    s.next y = some (b.head?.getD 0) := by
  have hy : y ∈ L 0 := hsplit ▸ mem_append_right _ (.head _)
  have hchain := h.levels.chain 0
  rw [hsplit] at hchain
  rw [next, if_neg (h.levels.ne_zero hy)]
  exact congrArg some hchain.behind.next

theorem Refines.prev_eq (h : s.Refines m L) {a b : List ℕ} {y : ℕ} (hsplit : L 0 = a ++ y :: b) :
    s.prev y = some (a.getLast?.getD 0) := by
  have hy : y ∈ L 0 := hsplit ▸ mem_append_right _ (.head _)
  have hsorted := h.levels.sorted 0
  rw [prev, if_neg (h.levels.ne_zero hy), h.findNear_eq (h.stored y hy).key_len, if_pos rfl, hsplit]
  rw [hsplit] at hsorted
  exact congrArg (fun o => some (Option.getD o 0)) (Towers.find?_below_key hsorted)

/-! ## The refinement -/

/-- The skiplist `s`, with the nodes `L l` on level `l`, is the sorted map of the calls `ops`. -/
structure IsSortedMap (s : Skl) (L : ℕ → List ℕ) (ops : List PutOp) : Prop where
  /-- Each level is a chain of pointers from the head. -/
  chain : ∀ l, s.towers.Chain l s.head (L l)
  sublist : ∀ l, (L (l + 1)).Sublist (L l)
  /-- A node on a level has a word for it in its tower. -/
  tall : ∀ l, ∀ y ∈ L l, l < (s.arena.nodes y).height
  ascending : (L 0).Pairwise fun x y =>
    Raw.compareKeys (s.arena.keyOf x) (s.arena.keyOf y) = .lt
  contents : ∀ key v,
    (∃ y ∈ L 0, s.arena.keyOf y = key ∧ s.arena.valueOf y = some v) ↔ lastPut ops key = some v
  findNear : ∀ key less allowEqual, 8 ≤ key.length → ∃ r, s.findNear key less allowEqual = some r ∧
    Towers.Near s.key (L 0) (InternalKey.ofBytes key) less allowEqual r
  /-- `Get` of a user key and a version: the newest version not above it. -/
  get : ∀ k t, t < 2 ^ 64 →
    (∃ x, IsNewest userKeyOf versionOf (putPairs ops) k t x ∧
      s.get (keyWithTs k t).bytes = some { x.2 with version := parseTs x.1 }) ∨
    (Absent userKeyOf versionOf (putPairs ops) k t ∧ s.get (keyWithTs k t).bytes = some {})
  seekToFirst : s.seekToFirst = some ((L 0).head?.getD 0)
  seekToLast : s.seekToLast = some ((L 0).getLast?.getD 0)
  seek : ∀ target, 8 ≤ target.length → s.seek target =
    some (((L 0).find? fun y => InternalKey.ofBytes target ≤ s.key y).getD 0)
  seekForPrev : ∀ target, 8 ≤ target.length → s.seekForPrev target =
    some (((L 0).reverse.find? fun y => s.key y ≤ InternalKey.ofBytes target).getD 0)
  next : ∀ a y b, L 0 = a ++ y :: b → s.next y = some (b.head?.getD 0)
  prev : ∀ a y b, L 0 = a ++ y :: b → s.prev y = some (a.getLast?.getD 0)

section

variable (h : s.Refines (sortedMap ops) L) (hops : ∀ op ∈ ops, op.Valid)
include h hops

theorem Refines.contents_iff (key : Bytes) (v : ValueStruct) :
    (∃ y ∈ L 0, s.arena.keyOf y = key ∧ s.arena.valueOf y = some v) ↔ lastPut ops key = some v := by
  constructor
  · rintro ⟨y, hy, rfl, hval⟩
    have hst := h.stored y hy
    have hv : s.value y = v := some.inj (hst.value_eq.symm.trans hval)
    exact (mem_sortedMap_iff hst.key_len ops hops).mp
      (h.mem_iff.mpr ⟨y, hy, Prod.ext rfl hv⟩)
  · intro hlast
    have hkey := len_ge_of_lastPut hops hlast
    obtain ⟨y, hy, hpair⟩ := h.mem_iff.mp ((mem_sortedMap_iff hkey ops hops).mpr hlast)
    have hst := h.stored y hy
    refine ⟨y, hy, ofBytes_inj hst.key_len hkey (congrArg Prod.fst hpair), ?_⟩
    rw [hst.value_eq]
    exact congrArg some (congrArg Prod.snd hpair)

/-- The pairs of the sorted map in terms of the calls. -/
theorem Refines.pairs_eq : (sortedMap ops).toSortedRun.pairs = putPairs ops := by
  ext x
  constructor
  · intro hx
    obtain ⟨y, hy, rfl⟩ := h.mem_iff.mp hx
    exact ⟨s.arena.keyOf y, s.value y,
      (h.contents_iff hops _ _).mp ⟨y, hy, rfl, (h.stored y hy).value_eq⟩, rfl⟩
  · rintro ⟨key, v, hlast, rfl⟩
    exact (mem_sortedMap_iff (len_ge_of_lastPut hops hlast) ops hops).mpr hlast

theorem Refines.get_spec {k : Bytes} {t : ℕ} (ht : t < 2 ^ 64) :
    (∃ x, IsNewest userKeyOf versionOf (putPairs ops) k t x ∧
      s.get (keyWithTs k t).bytes = some { x.2 with version := parseTs x.1 }) ∨
    (Absent userKeyOf versionOf (putPairs ops) k t ∧ s.get (keyWithTs k t).bytes = some {}) := by
  rw [h.get_eq (InternalKey.length_bytes_ge _), InternalKey.ofBytes_bytes ht, Skiplist.get,
    ← h.pairs_eq hops]
  cases hl : (sortedMap ops).toSortedRun.lookup (keyWithTs k t) with
  | some x => exact .inl ⟨x, lookup_eq_some_iff.mp hl, rfl⟩
  | none => exact .inr ⟨lookup_eq_none_iff.mp hl, rfl⟩

end

/-- Every sequence of `Put` calls that fits the arena goes through without a failed assertion and
makes the skiplist the sorted map of the last values put, whatever heights are drawn. -/
theorem skiplist_refines_sortedMap {arenaSize : ℕ} {ops : List PutOp} (hsize : arenaSize < 2 ^ 32)
    (hops : ∀ op ∈ ops, op.Valid) (hfit : (sortedMap ops).memSize ≤ arenaSize) :
    ∃ s L, (newSkiplist arenaSize).bind (fun s => Lib.exec step s ops) = some s ∧
      IsSortedMap s L ops := by
  obtain ⟨s₀, hnew, hlen, h₀⟩ := Refines.new hsize ((memSize_le_foldl ops new).trans hfit)
  obtain ⟨s, L, hexec, h⟩ := Refines.exec h₀ hops (by rw [hlen]; exact hfit)
  refine ⟨s, L, by rw [hnew, bind_some, hexec], ?_⟩
  have hchain := h.levels.chain
  refine ⟨hchain, h.levels.sublist, h.tall, ?_, h.contents_iff hops, ?_, ?_, ?_,
    h.seekToLast_eq, ?_, ?_, fun a y b => h.next_eq, fun a y b => h.prev_eq⟩
  · refine (h.levels.sorted 0).imp_of_mem fun hx hy hlt => ?_
    rw [compareKeys_eq (h.stored _ hx).key_len (h.stored _ hy).key_len]
    exact (cmp_eq_lt_iff _ _).mpr hlt
  · exact fun key less allowEqual hkey => h.findNear_spec hkey less allowEqual
  · exact fun k t ht => h.get_spec hops ht
  · exact congrArg some (hchain 0).next
  · exact fun target htarget => h.findNear_eq htarget false true
  · exact fun target htarget => h.findNear_eq htarget true true

/-- Two versions of a user key, the older one put twice. -/
def threePuts : List PutOp :=
  [⟨(keyWithTs [97] 1).bytes, { value := some [1] }, 1⟩,
    ⟨(keyWithTs [97] 2).bytes, { value := some [2] }, 3⟩,
    ⟨(keyWithTs [97] 1).bytes, { value := some [3], expiresAt := 300 }, 2⟩]

theorem skiplist_refines_sortedMap_threePuts :
    (∀ op ∈ threePuts, op.Valid) ∧ (sortedMap threePuts).memSize ≤ 1024 ∧
      ∃ s L, (newSkiplist 1024).bind (fun s => Lib.exec step s threePuts) = some s ∧
        IsSortedMap s L threePuts :=
  ⟨by decide +kernel, by decide +kernel,
    skiplist_refines_sortedMap (by decide) (by decide +kernel) (by decide +kernel)⟩

end Skl
end Autumn
