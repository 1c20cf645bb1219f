import Autumn.Lib.Bytes
import Autumn.Lib.SortedMap
import Mathlib.Data.Prod.Lex

/-!
# Keys, entries and value structs

The data of packages `y` and `pb`.  An internal key is a user key with a version: `KeyWithTs`
appends eight bytes holding `MaxUint64 - ts`, so that `CompareKeys` orders by user key and, within
one user key, from the newest version to the oldest.  The model keeps the two parts apart and
carries that order as its `LinearOrder`; the byte form only shows in `ParseTs`, which reads the
version of an empty user key as zero because the key is not longer than eight bytes.

* `InternalKey`, `InternalKey.lt_iff`, `sameKey`, `parseTs`.
* `Entry`, `EntryInfo` and their encoded sizes.
* `ValueStruct`, where `value = none` is Go's `nil` slice: the memtable search tells "not found"
  from "found" by it.
-/

namespace Autumn
namespace Y

/-! ## Internal keys -/

/-- A user key and the version written behind it. -/
@[ext]
structure InternalKey where
  userKey : Bytes
  ts : ℕ
  deriving DecidableEq, Repr, Inhabited

/-- User keys increase; the versions of one user key decrease. -/
instance : LinearOrder InternalKey :=
  LinearOrder.lift' (fun k => toLex (k.userKey, OrderDual.toDual k.ts)) (by
    intro a b h
    cases a
    cases b
    simpa using h)

variable {a b : InternalKey}

theorem InternalKey.lt_iff :
    a < b ↔ a.userKey < b.userKey ∨ (a.userKey = b.userKey ∧ b.ts < a.ts) := by
  have h : a < b ↔ toLex (a.userKey, OrderDual.toDual a.ts) <
      toLex (b.userKey, OrderDual.toDual b.ts) := Iff.rfl
  rw [h, Prod.Lex.toLex_lt_toLex]
  rfl

theorem InternalKey.le_iff :
    a ≤ b ↔ a.userKey < b.userKey ∨ (a.userKey = b.userKey ∧ b.ts ≤ a.ts) := by
  have h : a ≤ b ↔ toLex (a.userKey, OrderDual.toDual a.ts) ≤
      toLex (b.userKey, OrderDual.toDual b.ts) := Iff.rfl
  rw [h, Prod.Lex.toLex_le_toLex]
  rfl

/-- Among keys of one user key the order is the reverse order of the versions. -/
theorem InternalKey.le_iff_of_userKey_eq (h : a.userKey = b.userKey) : a ≤ b ↔ b.ts ≤ a.ts := by
  rw [InternalKey.le_iff]
  constructor
  · rintro (hlt | ⟨_, hts⟩)
    · exact absurd h hlt.ne
    · exact hts
  · exact fun hts => .inr ⟨h, hts⟩

/-- `KeyWithTs`. -/
def keyWithTs (key : Bytes) (ts : ℕ) : InternalKey := ⟨key, ts⟩

/-- `ParseKey`. -/
def parseKey (key : InternalKey) : Bytes := key.userKey

/-- `ParseTs`: a key of at most eight bytes, one whose user key is empty, has version zero. -/
def parseTs (key : InternalKey) : ℕ := if key.userKey = [] then 0 else key.ts

theorem parseTs_of_ne_nil {key : InternalKey} (h : key.userKey ≠ []) : parseTs key = key.ts :=
  if_neg h

theorem parseTs_le (key : InternalKey) : parseTs key ≤ key.ts := by
  rw [parseTs]
  split_ifs <;> omega

/-- `SameKey`: equal user keys. -/
def sameKey (src dst : InternalKey) : Bool := parseKey src == parseKey dst

@[simp] theorem sameKey_iff {src dst : InternalKey} :
    sameKey src dst = true ↔ src.userKey = dst.userKey := by
  simp [sameKey, parseKey]

/-- The length of the byte form of a key: the user key and eight bytes for the version. -/
def InternalKey.len (key : InternalKey) : ℕ := key.userKey.length + 8

/-! ## Entries -/

/-- `BitDelete`: set if the key has been deleted. -/
def bitDelete : UInt8 := 1

/-- `BitValuePointer`: set if the value is not stored next to the key. -/
def bitValuePointer : UInt8 := 2

/-- `ValueThrottle`: the longest value that is stored next to its key. -/
def valueThrottle : ℕ := 1024

/-- `SizeVarint` and `sovPb`: the number of seven-bit groups of `x`, at least one. -/
def sizeVarint (x : ℕ) : ℕ := Nat.log2 x / 7 + 1

/-- `pb.Entry`: what the log stores. -/
structure Entry where
  key : InternalKey
  /-- The value; empty for a deletion. -/
  value : Bytes
  metaBits : UInt32 := 0
  userMeta : UInt32 := 0
  /-- The expiry time, zero for none. -/
  expiresAt : ℕ := 0
  deriving DecidableEq, Repr, Inhabited

/-- The encoded size of a length-delimited field. -/
def sizeField (l : ℕ) : ℕ := if l > 0 then 1 + l + sizeVarint l else 0

/-- The encoded size of a varint field, absent when zero. -/
def sizeVarintField (x : ℕ) : ℕ := if x ≠ 0 then 1 + sizeVarint x else 0

/-- `Entry.Size`. -/
def Entry.size (e : Entry) : ℕ :=
  sizeField e.key.len + sizeField e.value.length + sizeVarintField e.metaBits.toNat +
    sizeVarintField e.userMeta.toNat + sizeVarintField e.expiresAt

/-- `y.ShouldWriteValueToLSM`: the value goes next to the key. -/
def shouldWriteValueToLSM (e : Entry) : Bool :=
  e.metaBits &&& bitValuePointer.toUInt32 == 0 && decide (e.value.length ≤ valueThrottle)

/-- `pb.EntryInfo`: an entry and where its block is. -/
structure EntryInfo where
  log : Entry
  extentID : ℕ := 0
  offset : ℕ := 0
  /-- The size of the entry, set by reads. -/
  estimatedSize : ℕ := 0
  deriving DecidableEq, Repr, Inhabited

/-- `EntryInfo.Size`. -/
def EntryInfo.size (ei : EntryInfo) : ℕ :=
  (1 + ei.log.size + sizeVarint ei.log.size) + sizeVarintField ei.extentID +
    sizeVarintField ei.offset + sizeVarintField ei.estimatedSize

/-! ## Value structs -/

/-- `y.ValueStruct`; `value = none` is a `nil` slice. -/
structure ValueStruct where
  metaBits : UInt8 := 0
  userMeta : UInt8 := 0
  /-- The expiry time, zero for none. -/
  expiresAt : ℕ := 0
  value : Option Bytes := none
  /-- The version, set by reads only. -/
  version : ℕ := 0
  deriving DecidableEq, Repr, Inhabited

/-- The length of the value; a `nil` slice has length zero. -/
def ValueStruct.valueLen (vs : ValueStruct) : ℕ := (vs.value.getD []).length

/-- `ValueStruct.EncodedSize`. -/
def ValueStruct.encodedSize (vs : ValueStruct) : ℕ := vs.valueLen + 2 + sizeVarint vs.expiresAt

/-- What `Decode` reads from the bytes `Encode` wrote: the version is not stored and the value is
never `nil`. -/
def ValueStruct.decoded (vs : ValueStruct) : ValueStruct :=
  { vs with value := some (vs.value.getD []), version := 0 }

/-- The deletion bit is set. -/
def ValueStruct.isDeleted (vs : ValueStruct) : Bool := vs.metaBits &&& bitDelete > 0

/-- The value is a value pointer. -/
def ValueStruct.isPointer (vs : ValueStruct) : Bool := vs.metaBits &&& bitValuePointer > 0

end Y
end Autumn
