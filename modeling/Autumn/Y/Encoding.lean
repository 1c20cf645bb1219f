import Autumn.Y
import Mathlib.Order.Compare

/-!
# The byte forms of keys and value structs

What the arena of a memtable and the blocks of a table hold are bytes.  A key of at least eight
bytes is a user key followed by the big-endian number `MaxUint64 - ts`.
-/

namespace Autumn
namespace Y

open Lib List InternalKey

/-- `math.MaxUint64`. -/
def maxUint64 : ℕ := 2 ^ 64 - 1

/-! ## Keys -/

/-- The bytes of `KeyWithTs`. -/
def InternalKey.bytes (k : InternalKey) : Bytes := k.userKey ++ beBytes 8 (maxUint64 - k.ts)

namespace Raw

/-- `ParseKey`. -/
def parseKey (key : Bytes) : Bytes := key.take (key.length - 8)

/-- The eight bytes of the version. -/
def suffix (key : Bytes) : Bytes := key.drop (key.length - 8)

/-- `bytes.Compare`. -/
def compare : Bytes → Bytes → Ordering := @cmp Bytes _ LinearOrder.toDecidableLT

/-- `CompareKeys`. -/
def compareKeys (key1 key2 : Bytes) : Ordering :=
  (compare (parseKey key1) (parseKey key2)).then (compare (suffix key1) (suffix key2))

/-- `SameKey`. -/
def sameKey (src dst : Bytes) : Bool :=
  if src.length ≠ dst.length then false else parseKey src == parseKey dst

/-- `ParseTs`. -/
def parseTs (key : Bytes) : ℕ := if key.length ≤ 8 then 0 else maxUint64 - beVal (suffix key)

end Raw

/-- The internal key that bytes stand for. -/
def InternalKey.ofBytes (b : Bytes) : InternalKey :=
  ⟨Raw.parseKey b, maxUint64 - beVal (Raw.suffix b)⟩

theorem Raw.length_parseKey (b : Bytes) : (parseKey b).length = b.length - 8 := by
  rw [parseKey, length_take]
  omega

variable {b : Bytes}

theorem Raw.length_suffix (hb : 8 ≤ b.length) : (suffix b).length = 8 := by
  rw [suffix, length_drop]
  omega

theorem Raw.beVal_suffix_le (hb : 8 ≤ b.length) : beVal (suffix b) ≤ maxUint64 := by
  have h := beVal_lt (suffix b)
  rw [length_suffix hb] at h
  rw [maxUint64]
  omega

theorem InternalKey.len_ofBytes (hb : 8 ≤ b.length) : (ofBytes b).len = b.length := by
  rw [len, ofBytes, Raw.length_parseKey]
  omega

theorem InternalKey.length_bytes (k : InternalKey) : k.bytes.length = k.len := by
  rw [bytes, length_append, length_beBytes, len]

theorem InternalKey.length_bytes_ge (k : InternalKey) : 8 ≤ k.bytes.length :=
  k.length_bytes ▸ Nat.le_add_left ..

theorem InternalKey.ofBytes_bytes {k : InternalKey} (hk : k.ts < 2 ^ 64) : ofBytes k.bytes = k := by
  have hlen : k.bytes.length - 8 = k.userKey.length := by
    rw [length_bytes, len, Nat.add_sub_cancel]
  have hpre : Raw.parseKey k.bytes = k.userKey := by
    rw [Raw.parseKey, hlen, bytes, take_left]
  have hsuf : Raw.suffix k.bytes = beBytes 8 (maxUint64 - k.ts) := by
    rw [Raw.suffix, hlen, bytes, drop_left]
  have hval : beVal (beBytes 8 (maxUint64 - k.ts)) = maxUint64 - k.ts := by
    apply beVal_beBytes_of_lt
    rw [maxUint64]
    omega
  ext1
  · exact hpre
  · show maxUint64 - beVal (Raw.suffix k.bytes) = k.ts
    rw [hsuf, hval]
    unfold maxUint64
    omega

variable {a : Bytes}

theorem Raw.compareKeys_eq (ha : 8 ≤ a.length) (hb : 8 ≤ b.length) :
    compareKeys a b = cmp (ofBytes a) (ofBytes b) := by
  have hav := beVal_suffix_le ha
  have hbv := beVal_suffix_le hb
  have hlen : (suffix a).length = (suffix b).length := by rw [length_suffix ha, length_suffix hb]
  -- The versions count down in the suffixes.
  have hts : (ofBytes b).ts < (ofBytes a).ts ↔ suffix a < suffix b := by
    rw [← beVal_lt_beVal_iff hlen]
    show maxUint64 - beVal (suffix b) < maxUint64 - beVal (suffix a) ↔ _
    omega
  have hts' : (ofBytes a).ts < (ofBytes b).ts ↔ suffix b < suffix a := by
    rw [← beVal_lt_beVal_iff hlen.symm]
    show maxUint64 - beVal (suffix a) < maxUint64 - beVal (suffix b) ↔ _
    omega
  unfold compareKeys compare
  rcases lt_trichotomy (parseKey a) (parseKey b) with h | h | h
  · rw [cmp_eq_lt_iff _ _ |>.mpr h, Ordering.lt_then, eq_comm, cmp_eq_lt_iff, lt_iff]
    exact .inl h
  · rw [(cmp_eq_eq_iff _ _).mpr h, Ordering.eq_then]
    rcases lt_trichotomy (suffix a) (suffix b) with h' | h' | h'
    · rw [(cmp_eq_lt_iff _ _).mpr h', eq_comm, cmp_eq_lt_iff, lt_iff]
      exact .inr ⟨h, hts.mpr h'⟩
    · rw [(cmp_eq_eq_iff _ _).mpr h', eq_comm, cmp_eq_eq_iff]
      exact InternalKey.ext h (by rw [InternalKey.ofBytes, InternalKey.ofBytes, h'])
    · rw [(cmp_eq_gt_iff _ _).mpr h', eq_comm, cmp_eq_gt_iff, lt_iff]
      exact .inr ⟨h.symm, hts'.mpr h'⟩
  · rw [(cmp_eq_gt_iff _ _).mpr h, Ordering.gt_then, eq_comm, cmp_eq_gt_iff, lt_iff]
    exact .inl h

theorem InternalKey.ofBytes_inj (ha : 8 ≤ a.length) (hb : 8 ≤ b.length)
    (h : ofBytes a = ofBytes b) :
    a = b := by
  have hcmp : Raw.compareKeys a b = .eq := by
    rw [Raw.compareKeys_eq ha hb, cmp_eq_eq_iff]
    exact h
  obtain ⟨hpre, hsuf⟩ := Ordering.then_eq_eq.mp hcmp
  have hpre' : Raw.parseKey a = Raw.parseKey b := (cmp_eq_eq_iff _ _).mp hpre
  have hsuf' : Raw.suffix a = Raw.suffix b := (cmp_eq_eq_iff _ _).mp hsuf
  rw [← take_append_drop (a.length - 8) a, ← take_append_drop (b.length - 8) b]
  exact congrArg₂ (· ++ ·) hpre' hsuf'

theorem Raw.sameKey_eq (ha : 8 ≤ a.length) (hb : 8 ≤ b.length) :
    sameKey a b = Y.sameKey (ofBytes a) (ofBytes b) := by
  rw [sameKey]
  split_ifs with h
  · rw [eq_comm, ← Bool.not_eq_true, Y.sameKey_iff]
    intro hkey
    have := congrArg length hkey
    rw [ofBytes, ofBytes, length_parseKey, length_parseKey] at this
    omega
  · rfl

theorem Raw.parseTs_eq (b : Bytes) : parseTs b = Y.parseTs (ofBytes b) := by
  have h : (ofBytes b).userKey = [] ↔ b.length ≤ 8 := by
    rw [← length_eq_zero_iff]
    show (parseKey b).length = 0 ↔ _
    rw [length_parseKey]
    omega
  rw [parseTs, Y.parseTs]
  exact if_congr h.symm rfl rfl

/-- **The byte form is an inverse and keeps the order**: user keys ascend and versions descend.  The
version comes back if the user key is not empty: the length test of `ParseTs` takes the eight bytes
of a version for a key without one. -/
theorem keyWithTs_faithful (a b : Bytes) (s t : UInt64) :
    Raw.parseKey (InternalKey.bytes ⟨a, s.toNat⟩) = a ∧
    (Raw.parseTs (InternalKey.bytes ⟨a, s.toNat⟩) = s.toNat ↔ a ≠ [] ∨ s = 0) ∧
    (Raw.sameKey (InternalKey.bytes ⟨a, s.toNat⟩) (InternalKey.bytes ⟨b, t.toNat⟩) = true ↔ a = b) ∧
    (Raw.compareKeys (InternalKey.bytes ⟨a, s.toNat⟩) (InternalKey.bytes ⟨b, t.toNat⟩) = .lt ↔
      a < b ∨ a = b ∧ t < s) ∧
    (Raw.compareKeys (InternalKey.bytes ⟨a, s.toNat⟩) (InternalKey.bytes ⟨b, t.toNat⟩) = .eq ↔
      a = b ∧ s = t) ∧
    (Raw.compareKeys (InternalKey.bytes ⟨a, s.toNat⟩) (InternalKey.bytes ⟨b, t.toNat⟩) = .gt ↔
      b < a ∨ b = a ∧ s < t) := by
  have hs := ofBytes_bytes (k := ⟨a, s.toNat⟩) s.toNat_lt
  have ht := ofBytes_bytes (k := ⟨b, t.toNat⟩) t.toNat_lt
  have hlen : ∀ k : InternalKey, 8 ≤ k.bytes.length := fun k => by
    rw [length_bytes, len]
    omega
  rw [Raw.sameKey_eq (hlen _) (hlen _), Raw.compareKeys_eq (hlen _) (hlen _), Raw.parseTs_eq, hs,
    ht, Y.sameKey_iff, cmp_eq_lt_iff, cmp_eq_eq_iff, cmp_eq_gt_iff, lt_iff, lt_iff,
    mk.injEq, UInt64.toNat_inj]
  refine ⟨congrArg userKey hs, ?_, Iff.rfl, Iff.rfl, Iff.rfl, Iff.rfl⟩
  rw [Y.parseTs]
  by_cases ha : a = []
  · simp [ha, ← UInt64.toNat_inj, eq_comm]
  · simp [ha]

/-- The first version of the empty key comes back as zero, which `Get` takes for "not found". -/
theorem parseTs_emptyKey : Raw.parseTs (InternalKey.bytes ⟨[], 1⟩) = 0 := by decide

/-! ## Value structs -/

/-- `ValueStruct.Encode`. -/
def ValueStruct.encode (v : ValueStruct) : Bytes :=
  v.metaBits :: v.userMeta :: (putUvarint v.expiresAt ++ v.value.getD [])

/-- `ValueStruct.Decode`; `none` for bytes without a readable expiry time. -/
def ValueStruct.decode : Bytes → Option ValueStruct
  | m :: u :: b => (uvarint b).map fun x =>
      { metaBits := m, userMeta := u, expiresAt := x.1, value := some (b.drop x.2) }
  | _ => none

theorem sizeVarint_le {x n : ℕ} (h : x < 2 ^ (7 * (n + 1))) : sizeVarint x ≤ n + 1 := by
  unfold sizeVarint
  rcases Nat.eq_zero_or_pos x with rfl | hpos
  · simp
  · have hlog : Nat.log2 x < 7 * (n + 1) := (Nat.log2_lt hpos.ne').mpr h
    omega

theorem ValueStruct.length_encode {v : ValueStruct} (hv : v.expiresAt < 2 ^ 64) :
    v.encode.length = v.encodedSize := by
  rw [encode, length_cons, length_cons, length_append, length_putUvarint hv,
    encodedSize, valueLen, sizeVarint]
  omega

/-- What was encoded is read back, without the version and never as a `nil` slice. -/
theorem ValueStruct.decode_encode {v : ValueStruct} (hv : v.expiresAt < 2 ^ 64) :
    decode v.encode = some v.decoded := by
  rw [encode, decode, uvarint_putUvarint hv, Option.map_some, drop_left]
  rfl

end Y
end Autumn
