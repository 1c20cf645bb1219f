import Autumn.Lib.Decimal
import Autumn.Lib.Run
import Autumn.Lib.SortedMap
import Autumn.Pspb

/-!
# The metadata of the partitions, and how it is loaded

A partition manager keeps the metadata of every partition in a map, `partMeta`, and field by field
in etcd, under keys such as `PART/17/logStream`.  When it is elected it reads all keys with prefix
`PART` in ascending order and builds the map again with `parseParts`.

`parseParts` begins a new record whenever the number in a key is not the one in the key before.  So
the keys of a partition have to stand next to each other, although numbers are compared as text.
They do (`partKey_contiguous`): what stands between two keys with prefix `PART/17/` has this prefix
too, and the separator is not a digit.

`parseParts_etcdRange` is about every sequence of `Bootstrap` and `SetRowStreamTables`, with other
keys written to etcd and with elections: `parseParts` gives back the map as it is.  Values are bytes
in the format of the generated code; a slice without bytes is the same as none.
-/

namespace Autumn
namespace Manager

open Lib Pspb Option Function SortedMap

/-- The bytes of a string. -/
def bytesOf (s : String) : Bytes := s.toUTF8.data.toList

/-! ## Metadata -/

/-- `pspb.PartitionMeta`. -/
@[ext]
structure PartitionMeta where
  blobs : Option (List UInt64) := none
  logStream : UInt64 := 0
  rowStream : UInt64 := 0
  locs : Option (List Location) := none
  parent : UInt64 := 0
  discard : Bytes := []
  rg : Option Range := none
  partID : UInt64
  deriving DecidableEq, Repr

/-- The map `partMeta`. -/
abbrev Parts := UInt64 → Option PartitionMeta

/-- What the keys of a partition end with. -/
inductive PartField where
  | blobStreams
  | logStream
  | rowStream
  | tables
  | discard
  | parent
  | range
  deriving DecidableEq, Repr

def PartField.name : PartField → Bytes
  | .blobStreams => bytesOf "blobStreams"
  | .logStream => bytesOf "logStream"
  | .rowStream => bytesOf "rowStream"
  | .tables => bytesOf "tables"
  | .discard => bytesOf "discard"
  | .parent => bytesOf "parent"
  | .range => bytesOf "range"

/-- The cases of the switch in `parseParts`. -/
def PartField.ofName (suffix : Bytes) : Option PartField :=
  if suffix = bytesOf "blobStreams" then some .blobStreams
  else if suffix = bytesOf "logStream" then some .logStream
  else if suffix = bytesOf "rowStream" then some .rowStream
  else if suffix = bytesOf "tables" then some .tables
  else if suffix = bytesOf "discard" then some .discard
  else if suffix = bytesOf "parent" then some .parent
  else if suffix = bytesOf "range" then some .range
  else none

theorem PartField.ofName_name (f : PartField) : PartField.ofName f.name = some f := by
  cases f <;> decide

/-- The separator, `/`. -/
def slash : UInt8 := 47

def partPrefix : Bytes := bytesOf "PART"

/-- The key of a field: `PART/%d/` and the name of the field. -/
def partKey (id : UInt64) (f : PartField) : Bytes :=
  [slash].intercalate [partPrefix, decimal id.toNat, f.name]

/-- `uint64ToBig`. -/
def uint64ToBig (x : UInt64) : Bytes := beBytes 8 x.toNat

/-- `binary.BigEndian.Uint64`, which panics when there are not eight bytes. -/
def bigEndianUint64 (b : Bytes) : Option UInt64 :=
  if b.length < 8 then none else some (UInt64.ofNat (beVal (b.take 8)))

theorem bigEndianUint64_uint64ToBig (x : UInt64) : bigEndianUint64 (uint64ToBig x) = some x := by
  have hlen : (uint64ToBig x).length = 8 := length_beBytes 8 x.toNat
  have hback : beVal (uint64ToBig x) = x.toNat :=
    beVal_beBytes_of_lt (show x.toNat < 256 ^ 8 from x.toNat_lt)
  rw [bigEndianUint64, if_neg (by omega), List.take_of_length_le (by omega), hback,
    UInt64.ofNat_toNat]

/-! ## Loading -/

/-- The partition and the field in a key: `parse` in `parseParts`. -/
def parse (s : Bytes) : Option (UInt64 × Bytes) :=
  match s.splitOn slash with
  | [_, id, suffix] => (parseUint (2 ^ 64) id).map fun n => (UInt64.ofNat n, suffix)
  | _ => none

/-- What `parseParts` does to a record for a field with this value: `none` if it panics, `some none`
if it only logs that the value cannot be decoded. -/
def PartField.read : PartField → Bytes → Option (Option (PartitionMeta → PartitionMeta))
  | .blobStreams, v => some ((unmarshalBlobs v).map fun blobs m => { m with blobs := some blobs })
  | .logStream, v => (bigEndianUint64 v).map fun x => some fun m => { m with logStream := x }
  | .rowStream, v => (bigEndianUint64 v).map fun x => some fun m => { m with rowStream := x }
  | .tables, v => some ((unmarshalLocs v).map fun locs m => { m with locs := some locs })
  | .discard, v => some (some fun m => { m with discard := v })
  | .parent, v => (bigEndianUint64 v).map fun x => some fun m => { m with parent := x }
  | .range, v => some ((Range.unmarshal v).map fun rg m => { m with rg := some rg })

/-- One round of the loop of `parseParts`, with `lastPartID` and the map so far; `none` if it
panics, because a number is too short or because there is no record. -/
def parsePart (st : UInt64 × Parts) (kv : Bytes × Bytes) : Option (UInt64 × Parts) :=
  match parse kv.1 with
  | none => some st
  | some (partID, suffix) =>
    let ret : Parts :=
      if partID ≠ st.1 then Function.update st.2 partID (some { partID := partID }) else st.2
    match PartField.ofName suffix with
    | none => some (partID, ret)
    | some f =>
      match f.read kv.2 with
      | none => none
      | some none => some (partID, ret)
      | some (some set) =>
        (ret partID).map fun m => (partID, Function.update ret partID (some (set m)))

def parseParts (kvs : List (Bytes × Bytes)) : Option Parts :=
  (kvs.foldlM parsePart (0, fun _ => none)).map Prod.snd

/-- `EtcdRange`: the keys with a prefix, in ascending order. -/
def etcdRange (etcd : SortedMap Bytes Bytes) (pre : Bytes) : List (Bytes × Bytes) :=
  etcd.entries.filter fun kv => pre.isPrefixOf kv.1

/-! ## Requests -/

structure PartitionManager where
  etcd : SortedMap Bytes Bytes
  partMeta : Parts

namespace PartitionManager

/-- `Bootstrap`, with the number it gets and a transaction that succeeds. -/
def bootstrap (pm : PartitionManager) (partID logID rowID parent : UInt64) : PartitionManager :=
  let rg : Range := ⟨[], []⟩
  { etcd := (((pm.etcd.insert (partKey partID .logStream) (uint64ToBig logID)).insert
      (partKey partID .rowStream) (uint64ToBig rowID)).insert
      (partKey partID .parent) (uint64ToBig parent)).insert
      (partKey partID .range) rg.marshal
    partMeta := Function.update pm.partMeta partID (some
      { logStream := logID
        rowStream := rowID
        parent := parent
        rg := some rg
        partID := partID }) }

/-- `SetRowStreamTables` with a transaction that succeeds.  It refuses an empty list and the number
zero; for a partition that does not exist it follows a nil pointer. -/
def setRowStreamTables (pm : PartitionManager) (partitionID : UInt64) (locs : List Location) :
    Option PartitionManager :=
  if locs = [] ∨ partitionID = 0 then some pm
  else (pm.partMeta partitionID).map fun m =>
    { etcd := pm.etcd.insert (partKey partitionID .tables) (marshalLocs locs)
      partMeta := Function.update pm.partMeta partitionID (some { m with locs := some locs }) }

/-- What `runAsLeader` does about the partitions. -/
def runAsLeader (pm : PartitionManager) : Option PartitionManager :=
  (parseParts (etcdRange pm.etcd partPrefix)).map fun partMeta => { pm with partMeta := partMeta }

/-- What happens at the partition managers. -/
inductive Event where
  | bootstrap (partID logID rowID parent : UInt64)
  | setRowStreamTables (partitionID : UInt64) (locs : List Location)
  | put (key value : Bytes)
  | elect
  deriving DecidableEq, Repr

/-- `Bootstrap` gets a number that is not zero and was not used before; nothing else writes keys
with prefix `PART`. -/
def step (pm : PartitionManager) : Event → Option PartitionManager
  | .bootstrap partID logID rowID parent =>
    if partID ≠ 0 ∧ pm.partMeta partID = none then some (pm.bootstrap partID logID rowID parent)
    else none
  | .setRowStreamTables partitionID locs => pm.setRowStreamTables partitionID locs
  | .put key value =>
    if partPrefix <+: key then none else some { pm with etcd := pm.etcd.insert key value }
  | .elect => pm.runAsLeader

/-- Before the first request. -/
def init : PartitionManager := ⟨SortedMap.empty, fun _ => none⟩

end PartitionManager

/-! ## Keys -/

theorem slash_notMem_name (f : PartField) : slash ∉ f.name := by
  cases f <;> decide

theorem slash_notMem_decimal (n : ℕ) : slash ∉ decimal n := by
  intro h
  have := (mem_decimal h).1
  exact absurd this (by decide)

theorem splitOn_partKey (id : UInt64) (f : PartField) :
    (partKey id f).splitOn slash = [partPrefix, decimal id.toNat, f.name] := by
  refine List.splitOn_intercalate slash (fun l hl => ?_) (List.cons_ne_nil _ _)
  rcases hl with _ | ⟨_, hl⟩
  · decide
  · rcases hl with _ | ⟨_, hl⟩
    · exact slash_notMem_decimal id.toNat
    · exact List.mem_singleton.mp hl ▸ slash_notMem_name f

theorem parse_partKey (id : UInt64) (f : PartField) : parse (partKey id f) = some (id, f.name) := by
  rw [parse, splitOn_partKey]
  show (parseUint (2 ^ 64) (decimal id.toNat)).map (fun n => (UInt64.ofNat n, f.name)) = _
  rw [parseUint_decimal id.toNat_lt, map_some, UInt64.ofNat_toNat]

variable {id id' : UInt64} {f : PartField} {m : PartitionMeta} {parts : Parts}

theorem partKey_inj {f' : PartField} : partKey id f = partKey id' f' ↔ id = id' ∧ f = f' := by
  constructor
  · intro h
    have hparse := parse_partKey id f
    rw [h, parse_partKey id' f', some_inj, Prod.mk.injEq] at hparse
    obtain ⟨hid, hname⟩ := hparse
    have hf := PartField.ofName_name f
    rw [← hname, PartField.ofName_name f', some_inj] at hf
    exact ⟨hid.symm, hf.symm⟩
  · rintro ⟨rfl, rfl⟩
    rfl

theorem partKey_eq (id : UInt64) (f : PartField) :
    partKey id f = partPrefix ++ slash :: (decimal id.toNat ++ slash :: f.name) := by
  simp [partKey, List.intercalate]

theorem partPrefix_isPrefix (id : UInt64) (f : PartField) : partPrefix <+: partKey id f :=
  ⟨_, (partKey_eq id f).symm⟩

/-- **The keys of a partition stand next to each other**: what is between two of them is one of
them. -/
theorem partKey_contiguous {f' g : PartField} (hlow : partKey id f ≤ partKey id' g)
    (hhigh : partKey id' g ≤ partKey id f') : id' = id := by
  -- the part that all keys of partition `id` begin with
  have hbegin : ∀ h : PartField,
      partPrefix ++ slash :: (decimal id.toNat ++ [slash]) <+: partKey id h := by
    intro h
    refine ⟨h.name, ?_⟩
    rw [partKey_eq, List.append_assoc, List.cons_append, List.append_assoc, List.singleton_append]
  have hbetween := isPrefix_of_between (hbegin f) (hbegin f') hlow hhigh
  rw [partKey_eq, List.prefix_append_right_inj, List.cons_prefix_cons] at hbetween
  have hnum := eq_of_append_isPrefix (slash_notMem_decimal id.toNat)
    (slash_notMem_decimal id'.toNat)
    hbetween.2
  exact (UInt64.toNat_inj.mp (decimal_injective hnum)).symm

/-! ## Records -/

/-- What is stored for a field of a record, if anything is. -/
def PartitionMeta.stored (m : PartitionMeta) : PartField → Option Bytes
  | .blobStreams => m.blobs.map marshalBlobs
  | .logStream => some (uint64ToBig m.logStream)
  | .rowStream => some (uint64ToBig m.rowStream)
  | .tables => m.locs.map marshalLocs
  | .discard => if m.discard = [] then none else some m.discard
  | .parent => some (uint64ToBig m.parent)
  | .range => m.rg.map Range.marshal

/-- The record with the fields in `S` only. -/
def PartitionMeta.restrict (m : PartitionMeta) (S : PartField → Prop) [DecidablePred S] :
    PartitionMeta where
  blobs := if S .blobStreams then m.blobs else none
  logStream := if S .logStream then m.logStream else 0
  rowStream := if S .rowStream then m.rowStream else 0
  locs := if S .tables then m.locs else none
  parent := if S .parent then m.parent else 0
  discard := if S .discard then m.discard else []
  rg := if S .range then m.rg else none
  partID := m.partID

/-- The slices of a record have the lengths of slices. -/
structure PartitionMeta.Fits (m : PartitionMeta) : Prop where
  blobs : ∀ blobs, m.blobs = some blobs → (packedBlobs blobs).length < 2 ^ 64
  rg : ∀ rg, m.rg = some rg → rg.Fits

/-- Nothing is lost by leaving out the fields for which nothing is stored. -/
theorem PartitionMeta.restrict_eq_self {S : PartField → Prop} [DecidablePred S]
    (hS : ∀ f, m.stored f ≠ none → S f) : m.restrict S = m := by
  have hlog : S .logStream := hS .logStream (by simp [stored])
  have hrow : S .rowStream := hS .rowStream (by simp [stored])
  have hparent : S .parent := hS .parent (by simp [stored])
  ext1
  · show (if S .blobStreams then m.blobs else none) = m.blobs
    split_ifs with h
    · rfl
    · exact (map_eq_none_iff.mp (not_not.mp fun hne => h (hS _ hne))).symm
  · exact if_pos hlog
  · exact if_pos hrow
  · show (if S .tables then m.locs else none) = m.locs
    split_ifs with h
    · rfl
    · exact (map_eq_none_iff.mp (not_not.mp fun hne => h (hS _ hne))).symm
  · exact if_pos hparent
  · show (if S .discard then m.discard else []) = m.discard
    split_ifs with h
    · rfl
    · have hnone : m.stored .discard = none := not_not.mp fun hne => h (hS _ hne)
      by_contra hne
      simp [stored, Ne.symm hne] at hnone
  · show (if S .range then m.rg else none) = m.rg
    split_ifs with h
    · rfl
    · exact (map_eq_none_iff.mp (not_not.mp fun hne => h (hS _ hne))).symm
  · rfl

theorem PartitionMeta.read_stored (hm : m.Fits) {v : Bytes} (hv : m.stored f = some v)
    (S S' : PartField → Prop) [DecidablePred S] [DecidablePred S'] (hS : ∀ g, S' g ↔ S g ∨ g = f) :
    ∃ set, f.read v = some (some set) ∧ set (m.restrict S) = m.restrict S' := by
  cases f with
  | blobStreams =>
    obtain ⟨blobs, hblobs, rfl⟩ := map_eq_some_iff.mp hv
    refine ⟨fun r => { r with blobs := some blobs }, ?_, ?_⟩
    · rw [PartField.read, unmarshalBlobs_marshalBlobs (hm.blobs blobs hblobs), map_some]
    · simp [restrict, hS, hblobs]
  | logStream =>
    cases hv
    refine ⟨fun r => { r with logStream := m.logStream }, ?_, by simp [restrict, hS]⟩
    rw [PartField.read, bigEndianUint64_uint64ToBig, map_some]
  | rowStream =>
    cases hv
    refine ⟨fun r => { r with rowStream := m.rowStream }, ?_, by simp [restrict, hS]⟩
    rw [PartField.read, bigEndianUint64_uint64ToBig, map_some]
  | tables =>
    obtain ⟨locs, hlocs, rfl⟩ := map_eq_some_iff.mp hv
    refine ⟨fun r => { r with locs := some locs }, ?_, by simp [restrict, hS, hlocs]⟩
    rw [PartField.read, unmarshalLocs_marshalLocs, map_some]
  | discard =>
    have hdiscard : m.discard = v := by
      simp only [stored] at hv
      split_ifs at hv
      exact some.inj hv
    exact ⟨fun r => { r with discard := v }, rfl, by simp [restrict, hS, hdiscard]⟩
  | parent =>
    cases hv
    refine ⟨fun r => { r with parent := m.parent }, ?_, by simp [restrict, hS]⟩
    rw [PartField.read, bigEndianUint64_uint64ToBig, map_some]
  | range =>
    obtain ⟨rg, hrg, rfl⟩ := map_eq_some_iff.mp hv
    refine ⟨fun r => { r with rg := some rg }, ?_, by simp [restrict, hS, hrg]⟩
    rw [PartField.read, Range.unmarshal_marshal (hm.rg rg hrg), map_some]

/-! ## The loop -/

/-- What holds of the records in the map. -/
structure Parts.Sane (parts : Parts) : Prop where
  ne_zero : ∀ {id m}, parts id = some m → id ≠ 0
  partID : ∀ {id m}, parts id = some m → m.partID = id
  fits : ∀ {id m}, parts id = some m → m.Fits

/-- The pair is stored for a field of some partition. -/
def Parts.Stores (parts : Parts) (kv : Bytes × Bytes) : Prop :=
  ∃ id m f, parts id = some m ∧ kv.1 = partKey id f ∧ m.stored f = some kv.2

open Classical in
/-- The map as far as it is stored under the given keys. -/
noncomputable def Parts.upTo (parts : Parts) (keys : List Bytes) : Parts := fun id =>
  if ∃ f, partKey id f ∈ keys then
    (parts id).map fun m => m.restrict fun f => partKey id f ∈ keys
  else none

theorem Parts.upTo_nil (parts : Parts) : parts.upTo [] = fun _ => none := by
  funext id
  exact if_neg (by simp)

theorem Parts.upTo_concat_of_ne (parts : Parts) (keys : List Bytes) (hne : id' ≠ id)
    (f : PartField) :
    parts.upTo (keys ++ [partKey id f]) id' = parts.upTo keys id' := by
  have hmem : ∀ g, partKey id' g ∈ keys ++ [partKey id f] ↔ partKey id' g ∈ keys := by
    intro g
    simp [partKey_inj, hne]
  by_cases hany : ∃ g, partKey id' g ∈ keys
  · rw [upTo, upTo, if_pos hany, if_pos ((exists_congr hmem).mpr hany)]
    simp only [hmem]
  · rw [upTo, upTo, if_neg hany, if_neg (mt (exists_congr hmem).mp hany)]

/-- A round of the loop, if the record of the partition is there exactly when the key before was one
of its keys. -/
theorem parsePart_upTo (hsane : parts.Sane) {keys : List Bytes} {last : UInt64} {v : Bytes}
    (hm : parts id = some m) (hv : m.stored f = some v)
    (hlast : id = last ↔ ∃ g, partKey id g ∈ keys) :
    parsePart (last, parts.upTo keys) (partKey id f, v) =
      some (id, parts.upTo (keys ++ [partKey id f])) := by
  obtain ⟨set, hread, hset⟩ := m.read_stored (hsane.fits hm) hv (fun g => partKey id g ∈ keys)
    (fun g => partKey id g ∈ keys ++ [partKey id f]) (by simp [partKey_inj])
  let ret : Parts :=
    if id ≠ last then update (parts.upTo keys) id (some { partID := id })
    else parts.upTo keys
  have hret : ret id = some (m.restrict fun g => partKey id g ∈ keys) := by
    by_cases h : id = last
    · show (if id ≠ last then _ else _ : Parts) id = _
      rw [if_neg (not_not.mpr h), Parts.upTo, if_pos (hlast.mp h), hm, map_some]
    · have hnone : ∀ g, partKey id g ∉ keys := fun g hg => h (hlast.mpr ⟨g, hg⟩)
      show (if id ≠ last then _ else _ : Parts) id = _
      rw [if_pos h, update_self, some_inj]
      ext1 <;> simp [PartitionMeta.restrict, hnone, hsane.partID hm]
  have hother : ∀ id' ≠ id, ret id' = parts.upTo keys id' := by
    intro id' hne
    show (if id ≠ last then _ else _ : Parts) id' = _
    split_ifs
    · exact update_of_ne hne _ _
    · rfl
  have hstep : parsePart (last, parts.upTo keys) (partKey id f, v) =
      (ret id).map fun r => (id, update ret id (some (set r))) := by
    simp only [parsePart, parse_partKey, PartField.ofName_name, hread, ret]
  rw [hstep, hret, map_some, hset]
  congr 2
  funext id'
  by_cases hid : id' = id
  · subst hid
    rw [update_self, Parts.upTo, if_pos ⟨f, by simp⟩, hm, map_some]
  · rw [update_of_ne hid, hother id' hid, parts.upTo_concat_of_ne keys hid]

/-- The loop over keys in ascending order, with the partition of the last key. -/
theorem foldlM_parsePart (hsane : parts.Sane) {kvs : List (Bytes × Bytes)}
    (hsorted : kvs.Pairwise fun x y => x.1 < y.1) (hstores : ∀ kv ∈ kvs, parts.Stores kv) :
    ∃ last, kvs.foldlM parsePart (0, fun _ => none) =
        some (last, parts.upTo (kvs.map Prod.fst)) ∧
      (kvs = [] ∧ last = 0 ∨ ∃ before f v, kvs = before ++ [(partKey last f, v)]) := by
  induction kvs using List.reverseRecOn with
  | nil => exact ⟨0, by rw [List.map_nil, parts.upTo_nil]; rfl, .inl ⟨rfl, rfl⟩⟩
  | append_singleton kvs kv ih =>
    obtain ⟨hsorted', -, hbelow⟩ := List.pairwise_append.mp hsorted
    obtain ⟨last, hloop, hend⟩ := ih hsorted' fun x hx => hstores x (List.mem_append_left _ hx)
    obtain ⟨id, m, f, hm, hkey, hv⟩ := hstores kv (List.mem_concat_self)
    obtain ⟨k, v⟩ := kv
    obtain rfl : k = partKey id f := hkey
    refine ⟨id, ?_, .inr ⟨kvs, f, v, rfl⟩⟩
    have hlast : id = last ↔ ∃ g, partKey id g ∈ kvs.map Prod.fst := by
      rcases hend with ⟨rfl, rfl⟩ | ⟨before, f', v', rfl⟩
      · simp [hsane.ne_zero hm]
      · constructor
        · rintro rfl
          exact ⟨f', by simp⟩
        · rintro ⟨g, hg⟩
          -- between a key of the partition and this one stands the last key
          have hlow : partKey id g ≤ partKey last f' := by
            rw [List.map_append, List.map_singleton, List.mem_append, List.mem_singleton] at hg
            rcases hg with hg | hg
            · obtain ⟨x, hx, hxg⟩ := List.mem_map.mp hg
              have hlt := (List.pairwise_append.mp hsorted').2.2 x hx _ (List.mem_singleton_self _)
              exact hxg ▸ hlt.le
            · exact hg.le
          have hhigh : partKey last f' ≤ partKey id f :=
            (hbelow (partKey last f', v') (by simp) _ (List.mem_singleton_self _)).le
          exact (partKey_contiguous hlow hhigh).symm
    rw [List.foldlM_append, hloop, bind_eq_bind, bind_some, List.foldlM_cons,
      parsePart_upTo hsane hm hv hlast, List.map_append, List.map_singleton]
    rfl

/-- **`parseParts` gives back the map** from what is stored for it, in ascending order. -/
theorem parseParts_of_stores (hsane : parts.Sane) {kvs : List (Bytes × Bytes)}
    (hsorted : kvs.Pairwise fun x y => x.1 < y.1) (hstores : ∀ kv, kv ∈ kvs ↔ parts.Stores kv) :
    parseParts kvs = some parts := by
  obtain ⟨last, hloop, -⟩ := foldlM_parsePart hsane hsorted fun kv => (hstores kv).mp
  rw [parseParts, hloop, map_some, some_inj]
  funext id
  show parts.upTo (kvs.map Prod.fst) id = parts id
  cases hm : parts id with
  | none => rw [Parts.upTo, hm, map_none, ite_self]
  | some m =>
    have hkey : ∀ f, m.stored f ≠ none → partKey id f ∈ kvs.map Prod.fst := by
      intro f hf
      obtain ⟨v, hv⟩ := ne_none_iff_exists'.mp hf
      exact List.mem_map.mpr ⟨(partKey id f, v), (hstores _).mpr ⟨id, m, f, hm, rfl, hv⟩, rfl⟩
    have hany : ∃ f, partKey id f ∈ kvs.map Prod.fst :=
      ⟨.logStream, hkey .logStream (by simp [PartitionMeta.stored])⟩
    rw [Parts.upTo, if_pos hany, hm, map_some, PartitionMeta.restrict_eq_self hkey]

/-! ## The invariant -/

theorem Parts.stores_update {kv : Bytes × Bytes} :
    Parts.Stores (update parts id (some m)) kv ↔
      (∃ f, kv.1 = partKey id f ∧ m.stored f = some kv.2) ∨
        (∀ f, kv.1 ≠ partKey id f) ∧ parts.Stores kv := by
  constructor
  · rintro ⟨id', m', f, hm', hkey, hv⟩
    by_cases hid : id' = id
    · subst hid
      rw [update_self, some_inj] at hm'
      exact .inl ⟨f, hkey, hm' ▸ hv⟩
    · rw [update_of_ne hid] at hm'
      refine .inr ⟨fun g hg => ?_, id', m', f, hm', hkey, hv⟩
      exact hid (partKey_inj.mp (hkey.symm.trans hg)).1
  · rintro (⟨f, hkey, hv⟩ | ⟨hother, id', m', f, hm', hkey, hv⟩)
    · exact ⟨id, m, f, update_self .., hkey, hv⟩
    · refine ⟨id', m', f, ?_, hkey, hv⟩
      have hid : id' ≠ id := by
        rintro rfl
        exact hother f hkey
      rwa [update_of_ne hid]

theorem Parts.Sane.update (h : parts.Sane) (hid : id ≠ 0) (hpart : m.partID = id) (hfits : m.Fits) :
    Parts.Sane (update parts id (some m)) := by
  have hcases : ∀ {id' m'}, Function.update parts id (some m) id' = some m' →
      id' = id ∧ m' = m ∨ parts id' = some m' := by
    intro id' m' hm'
    by_cases heq : id' = id
    · subst heq
      rw [update_self, some_inj] at hm'
      exact .inl ⟨rfl, hm'.symm⟩
    · rw [update_of_ne heq] at hm'
      exact .inr hm'
  refine ⟨fun hm' => ?_, fun hm' => ?_, fun hm' => ?_⟩
  · rcases hcases hm' with ⟨rfl, rfl⟩ | hold
    · exact hid
    · exact h.ne_zero hold
  · rcases hcases hm' with ⟨rfl, rfl⟩ | hold
    · exact hpart
    · exact h.partID hold
  · rcases hcases hm' with ⟨rfl, rfl⟩ | hold
    · exact hfits
    · exact h.fits hold

namespace PartitionManager

/-- What is in etcd with prefix `PART` is what is stored for the map. -/
structure Mirrors (pm : PartitionManager) : Prop where
  sane : pm.partMeta.Sane
  mem : ∀ kv : Bytes × Bytes, partPrefix <+: kv.1 → (kv ∈ pm.etcd ↔ pm.partMeta.Stores kv)

theorem Mirrors.parseParts {pm : PartitionManager} (h : pm.Mirrors) :
    parseParts (etcdRange pm.etcd partPrefix) = some pm.partMeta := by
  refine parseParts_of_stores h.sane (pm.etcd.sorted.filter _) fun kv => ?_
  rw [etcdRange, List.mem_filter, List.isPrefixOf_iff_prefix]
  constructor
  · rintro ⟨hmem, hpre⟩
    exact (h.mem kv hpre).mp hmem
  · intro hst
    obtain ⟨id, m, f, -, hkey, -⟩ := id hst
    have hpre : partPrefix <+: kv.1 := hkey ▸ partPrefix_isPrefix id f
    exact ⟨(h.mem kv hpre).mpr hst, hpre⟩

variable {pm : PartitionManager}

theorem Mirrors.bootstrap (h : pm.Mirrors) {partID : UInt64} (hid : partID ≠ 0)
    (hnew : pm.partMeta partID = none) (logID rowID parent : UInt64) :
    (pm.bootstrap partID logID rowID parent).Mirrors := by
  refine ⟨h.sane.update hid rfl ⟨?_, ?_⟩, fun kv hpre => ?_⟩
  · rintro blobs ⟨⟩
  · rintro rg ⟨⟩
    exact ⟨by simp, by simp⟩
  · have hother : pm.partMeta.Stores kv → ∀ f, kv.1 ≠ partKey partID f := by
      rintro ⟨id, m, f, hm, hkey, -⟩ g hg
      obtain ⟨rfl, -⟩ := partKey_inj.mp (hkey.symm.trans hg)
      simp [hnew] at hm
    simp only [PartitionManager.bootstrap, mem_insert, Parts.stores_update]
    constructor
    · rintro (rfl | ⟨rfl | ⟨rfl | ⟨rfl | ⟨hold, -⟩, -⟩, -⟩, -⟩)
      · exact .inl ⟨.range, rfl, rfl⟩
      · exact .inl ⟨.parent, rfl, rfl⟩
      · exact .inl ⟨.rowStream, rfl, rfl⟩
      · exact .inl ⟨.logStream, rfl, rfl⟩
      · have hst := (h.mem kv hpre).mp hold
        exact .inr ⟨hother hst, hst⟩
    · rintro (⟨f, hkey, hv⟩ | ⟨hne, hst⟩)
      · obtain ⟨k, v⟩ := kv
        obtain rfl : k = partKey partID f := hkey
        cases f <;> simp_all [PartitionMeta.stored, partKey_inj]
      · exact .inr ⟨.inr ⟨.inr ⟨.inr ⟨(h.mem kv hpre).mpr hst, hne _⟩, hne _⟩, hne _⟩, hne _⟩

theorem Mirrors.setRowStreamTables {pm' : PartitionManager} (h : pm.Mirrors) {partitionID : UInt64}
    {locs : List Location} (hset : pm.setRowStreamTables partitionID locs = some pm') :
    pm'.Mirrors := by
  unfold PartitionManager.setRowStreamTables at hset
  split_ifs at hset with hreq
  · exact some.inj hset ▸ h
  · obtain ⟨m, hm, rfl⟩ := map_eq_some_iff.mp hset
    have hpart : m.partID = partitionID := h.sane.partID hm
    have hfits : m.Fits := h.sane.fits hm
    refine ⟨h.sane.update (h.sane.ne_zero hm) hpart ⟨hfits.blobs, hfits.rg⟩, fun kv hpre => ?_⟩
    rw [mem_insert, Parts.stores_update, h.mem kv hpre]
    constructor
    · rintro (rfl | ⟨hst, hne⟩)
      · exact .inl ⟨.tables, rfl, rfl⟩
      · obtain ⟨id, m', f, hm', hkey, hv⟩ := id hst
        by_cases hid : id = partitionID
        · -- another field of the same record
          subst hid
          cases hm'.symm.trans hm
          refine .inl ⟨f, hkey, ?_⟩
          cases f with
          | tables => exact absurd hkey hne
          | _ => exact hv
        · exact .inr ⟨fun g hg => hid (partKey_inj.mp (hkey.symm.trans hg)).1, hst⟩
    · rintro (⟨f, hkey, hv⟩ | ⟨hne, hst⟩)
      · by_cases hf : f = .tables
        · subst hf
          exact .inl (Prod.ext hkey (some.inj hv).symm)
        · have hv' : m.stored f = some kv.2 := by
            cases f with
            | tables => exact absurd rfl hf
            | _ => exact hv
          refine .inr ⟨⟨partitionID, m, f, hm, hkey, hv'⟩, fun heq => ?_⟩
          exact hf (partKey_inj.mp (hkey.symm.trans heq)).2
      · exact .inr ⟨hst, hne .tables⟩

theorem Mirrors.step {pm' : PartitionManager} (h : pm.Mirrors) {e : Event}
    (hstep : pm.step e = some pm') : pm'.Mirrors := by
  cases e with
  | bootstrap partID logID rowID parent =>
    obtain ⟨⟨hid, hnew⟩, hpm⟩ := ite_none_right_eq_some.mp hstep
    exact some.inj hpm ▸ h.bootstrap hid hnew logID rowID parent
  | setRowStreamTables partitionID locs => exact h.setRowStreamTables hstep
  | put key value =>
    obtain ⟨hkey, hpm⟩ := ite_none_left_eq_some.mp hstep
    cases hpm
    refine ⟨h.sane, fun kv hpre => ?_⟩
    rw [mem_insert, ← h.mem kv hpre]
    have hne : kv.1 ≠ key := fun heq => hkey (heq ▸ hpre)
    constructor
    · rintro (rfl | ⟨hold, -⟩)
      · exact absurd rfl hne
      · exact hold
    · exact fun hold => .inr ⟨hold, hne⟩
  | elect =>
    obtain ⟨partMeta, hload, rfl⟩ := map_eq_some_iff.mp hstep
    cases h.parseParts.symm.trans hload
    exact h

theorem Mirrors.init : PartitionManager.init.Mirrors := by
  refine ⟨⟨?_, ?_, ?_⟩, fun kv _ => ?_⟩
  · rintro id m ⟨⟩
  · rintro id m ⟨⟩
  · rintro id m ⟨⟩
  · refine ⟨fun hmem => absurd hmem (not_mem_empty kv), ?_⟩
    rintro ⟨id, m, f, ⟨⟩, -⟩

end PartitionManager

/-- **A newly elected leader loads the metadata as it was**, after every sequence of `Bootstrap` and
`SetRowStreamTables`, with anything else written to etcd and with elections in between. -/
theorem parseParts_etcdRange {events : List PartitionManager.Event} {pm : PartitionManager}
    (hrun : exec PartitionManager.step PartitionManager.init events = some pm) :
    parseParts (etcdRange pm.etcd partPrefix) = some pm.partMeta ∧ pm.runAsLeader = some pm := by
  have hmirrors : pm.Mirrors :=
    exec_invariant_of_step (fun _ _ _ h hstep => PartitionManager.Mirrors.step h hstep)
      PartitionManager.Mirrors.init hrun
  refine ⟨hmirrors.parseParts, ?_⟩
  rw [PartitionManager.runAsLeader, hmirrors.parseParts, map_some]

/-- Partitions whose numbers are not in the order of their keys. -/
def fourPartitions : List PartitionManager.Event :=
  [.bootstrap 2 5 6 1, .bootstrap 10 7 8 1, .setRowStreamTables 2 [⟨9, 512⟩, ⟨11, 0⟩],
    .put (bytesOf "PSSERVER/1") [], .bootstrap 100 12 13 3, .elect,
    .bootstrap 18446744073709551615 14 15 3, .setRowStreamTables 10 [⟨16, 4096⟩]]

theorem parseParts_etcdRange_fourPartitions :
    ∃ pm, exec PartitionManager.step PartitionManager.init fourPartitions = some pm ∧
      parseParts (etcdRange pm.etcd partPrefix) = some pm.partMeta ∧ pm.runAsLeader = some pm := by
  obtain ⟨pm, hpm, -⟩ : ∃ pm ∈ exec PartitionManager.step PartitionManager.init fourPartitions,
      True := by decide +kernel
  exact ⟨pm, hpm, parseParts_etcdRange hpm⟩

end Manager
end Autumn
