import Autumn.Y
import Autumn.Lib.Protobuf

/-!
# Messages on the wire

The entries of package `pb` with the key as bytes, and `pspb.MixedLog`, the list of offsets in the
header of a block of entries.  `Codec` is any marshalling in which a message is read back and takes
the number of bytes `Size` says.  `Codec.wire` is the one of the generated code: fields that are
zero or empty are left out, offsets are packed.
-/

namespace Autumn
namespace Pb

open Lib Lib.Protobuf Y List Entry

/-- `pb.Entry`. -/
structure Entry where
  key : Bytes
  value : Bytes
  metaBits : UInt32 := 0
  userMeta : UInt32 := 0
  expiresAt : UInt64 := 0
  deriving DecidableEq, Repr

/-- `Entry.Size`. -/
def Entry.size (e : Entry) : ℕ :=
  sizeField e.key.length + sizeField e.value.length + sizeVarintField e.metaBits.toNat +
    sizeVarintField e.userMeta.toNat + sizeVarintField e.expiresAt.toNat

/-- `y.ShouldWriteValueToLSM`. -/
def shouldWriteValueToLSM (e : Entry) : Bool :=
  e.metaBits &&& bitValuePointer.toUInt32 == 0 && decide (e.value.length ≤ valueThrottle)

/-- `pb.EntryInfo`. -/
@[ext]
structure EntryInfo where
  log : Entry
  extentID : ℕ := 0
  offset : ℕ := 0
  estimatedSize : ℕ := 0
  deriving DecidableEq, Repr

/-- `EntryInfo.Size`. -/
def EntryInfo.size (ei : EntryInfo) : ℕ :=
  (1 + ei.log.size + sizeVarint ei.log.size) + sizeVarintField ei.extentID +
    sizeVarintField ei.offset + sizeVarintField ei.estimatedSize

/-- The bytes of the packed offsets. -/
def packedSize (offsets : List UInt32) : ℕ := (offsets.map fun o => sizeVarint o.toNat).sum

/-- `MixedLog.Size`. -/
def mixedSize (offsets : List UInt32) : ℕ := sizeField (packedSize offsets)

/-- A marshalling of entries and of lists of offsets.  No slice has `2 ^ 63` bytes. -/
structure Codec where
  marshalEntry : Entry → Bytes
  unmarshalEntry : Bytes → Option Entry
  marshalMixed : List UInt32 → Bytes
  unmarshalMixed : Bytes → Option (List UInt32)
  length_marshalEntry : ∀ e, e.size < 2 ^ 63 → (marshalEntry e).length = e.size
  unmarshal_marshalEntry : ∀ e, e.size < 2 ^ 63 → unmarshalEntry (marshalEntry e) = some e
  length_marshalMixed : ∀ os, mixedSize os < 2 ^ 63 → (marshalMixed os).length = mixedSize os
  unmarshal_marshalMixed : ∀ os, mixedSize os < 2 ^ 63 →
    unmarshalMixed (marshalMixed os) = some os

/-! ## The wire format -/

/-- The fields of an entry. -/
def Entry.fields (e : Entry) : List Field :=
  bytesField 1 e.key ++ bytesField 2 e.value ++ varintField 3 e.metaBits.toNat ++
    varintField 4 e.userMeta.toNat ++ varintField 5 e.expiresAt.toNat

/-- One round of the loop of `Entry.Unmarshal`: fields of other numbers are skipped, and a known
field of the wrong kind is an error. -/
def Entry.set (e : Entry) : Field → Option Entry
  | (1, .len b) => some { e with key := b }
  | (2, .len b) => some { e with value := b }
  | (3, .varint x) => some { e with metaBits := UInt32.ofNat x }
  | (4, .varint x) => some { e with userMeta := UInt32.ofNat x }
  | (5, .varint x) => some { e with expiresAt := UInt64.ofNat x }
  | (i, _) => if 1 ≤ i ∧ i ≤ 5 ∨ i = 0 then none else some e

/-- One round of the loop of `MixedLog.Unmarshal`. -/
def setOffsets (os : List UInt32) : Field → Option (List UInt32)
  | (1, .varint x) => some (os ++ [UInt32.ofNat x])
  | (1, .len b) => (unpack b).map fun xs => os ++ xs.map UInt32.ofNat
  | (i, _) => if i = 0 then none else some os

/-- `Entry.Marshal`. -/
def Entry.marshal (e : Entry) : Bytes := encodeFields e.fields

/-- `Entry.Unmarshal` into a new entry. -/
def Entry.unmarshal (b : Bytes) : Option Entry :=
  (Protobuf.fields b).bind fun fs => fs.foldlM Entry.set ⟨[], [], 0, 0, 0⟩

/-- `MixedLog.Marshal`. -/
def marshalOffsets (os : List UInt32) : Bytes :=
  encodeFields (bytesField 1 (packed (os.map UInt32.toNat)))

/-- `MixedLog.Unmarshal` into a new message. -/
def unmarshalOffsets (b : Bytes) : Option (List UInt32) :=
  (Protobuf.fields b).bind fun fs => fs.foldlM setOffsets []

theorem length_bytesField {i : ℕ} (hi : i < 16) {b : Bytes} (hb : b.length < 2 ^ 64) :
    (encodeFields (bytesField i b)).length = sizeField b.length := by
  unfold bytesField sizeField
  split_ifs with hnil hpos hpos
  · simp [hnil] at hpos
  · rfl
  · rw [encodeFields, flatMap_singleton, encodeField, length_append, length_append,
      length_putUvarint_of_lt (by omega), length_putUvarint hb, sizeVarint]
    omega
  · exact absurd (length_pos_of_ne_nil hnil) hpos

theorem length_varintField {i : ℕ} (hi : i < 16) {x : ℕ} (hx : x < 2 ^ 64) :
    (encodeFields (varintField i x)).length = sizeVarintField x := by
  unfold varintField sizeVarintField
  by_cases hzero : x = 0
  · rw [if_pos hzero, if_neg (not_not.mpr hzero)]
    rfl
  · rw [if_neg hzero, if_pos hzero]
    rw [encodeFields, flatMap_singleton, encodeField, length_append,
      length_putUvarint_of_lt (by omega), length_putUvarint hx, sizeVarint]

theorem length_le_sizeField (l : ℕ) : l ≤ sizeField l := by
  unfold sizeField
  split_ifs <;> omega

variable {e : Entry}

/-- The bytes of a slice of a Go program. -/
theorem Entry.length_lt (he : e.size < 2 ^ 63) :
    e.key.length < 2 ^ 64 ∧ e.value.length < 2 ^ 64 := by
  have hk := length_le_sizeField e.key.length
  have hv := length_le_sizeField e.value.length
  unfold size at he
  omega

theorem toNat_lt_two_pow_64 (x : UInt32) : x.toNat < 2 ^ 64 := by
  have := x.toNat_lt
  omega

theorem Entry.length_marshal (he : e.size < 2 ^ 63) : (marshal e).length = e.size := by
  obtain ⟨hk, hv⟩ := length_lt he
  unfold marshal fields size
  simp only [encodeFields_append, length_append]
  rw [length_bytesField (by omega) hk, length_bytesField (by omega) hv,
    length_varintField (by omega) (toNat_lt_two_pow_64 _),
    length_varintField (by omega) (toNat_lt_two_pow_64 _),
    length_varintField (by omega) e.expiresAt.toNat_lt]

theorem Entry.fits_fields (he : e.size < 2 ^ 63) : ∀ f ∈ e.fields, f.Fits := by
  obtain ⟨hk, hv⟩ := length_lt he
  intro f hf
  simp only [fields, mem_append] at hf
  rcases hf with (((hf | hf) | hf) | hf) | hf
  · exact fits_bytesField (by omega) hk f hf
  · exact fits_bytesField (by omega) hv f hf
  · exact fits_varintField (by omega) (toNat_lt_two_pow_64 _) f hf
  · exact fits_varintField (by omega) (toNat_lt_two_pow_64 _) f hf
  · exact fits_varintField (by omega) e.expiresAt.toNat_lt f hf

/-- Setting the fields of an entry one after the other gives the entry: what is left out is what a
new entry has. -/
theorem Entry.foldlM_set (e : Entry) :
    e.fields.foldlM set ⟨[], [], 0, 0, 0⟩ = some e := by
  have hkey : (bytesField 1 e.key).foldlM set ⟨[], [], 0, 0, 0⟩ =
      some ⟨e.key, [], 0, 0, 0⟩ :=
    foldlM_bytesField rfl fun h => by rw [h]
  have hvalue : (bytesField 2 e.value).foldlM set ⟨e.key, [], 0, 0, 0⟩ =
      some ⟨e.key, e.value, 0, 0, 0⟩ :=
    foldlM_bytesField rfl fun h => by rw [h]
  have hmeta : (varintField 3 e.metaBits.toNat).foldlM set ⟨e.key, e.value, 0, 0, 0⟩ =
      some ⟨e.key, e.value, e.metaBits, 0, 0⟩ :=
    foldlM_varintField (by simp [set]) fun h => by
      rw [show e.metaBits = 0 from UInt32.toNat_inj.mp h]
  have huser : (varintField 4 e.userMeta.toNat).foldlM set
      ⟨e.key, e.value, e.metaBits, 0, 0⟩ = some ⟨e.key, e.value, e.metaBits, e.userMeta, 0⟩ :=
    foldlM_varintField (by simp [set]) fun h => by
      rw [show e.userMeta = 0 from UInt32.toNat_inj.mp h]
  have hexpires : (varintField 5 e.expiresAt.toNat).foldlM set
      ⟨e.key, e.value, e.metaBits, e.userMeta, 0⟩ = some e :=
    foldlM_varintField (by simp [set]) fun h => by
      rw [← show e.expiresAt = 0 from UInt64.toNat_inj.mp h]
  unfold fields
  simp only [foldlM_append, Option.bind_eq_bind]
  rw [hkey, Option.bind_some, hvalue, Option.bind_some, hmeta, Option.bind_some, huser,
    Option.bind_some, hexpires]

theorem Entry.unmarshal_marshal (he : e.size < 2 ^ 63) :
    unmarshal (marshal e) = some e := by
  rw [unmarshal, marshal, fields_encodeFields (fits_fields he), Option.bind_some, foldlM_set]

theorem length_packed_offsets (os : List UInt32) :
    (packed (os.map UInt32.toNat)).length = packedSize os := by
  rw [length_packed, packedSize, map_map]
  congr 1
  refine map_congr_left fun o _ => ?_
  exact length_putUvarint (toNat_lt_two_pow_64 o)

variable {os : List UInt32}

theorem packedSize_lt (hos : mixedSize os < 2 ^ 63) :
    (packed (os.map UInt32.toNat)).length < 2 ^ 64 := by
  have := length_le_sizeField (packedSize os)
  rw [length_packed_offsets]
  unfold mixedSize at hos
  omega

theorem length_marshalOffsets (hos : mixedSize os < 2 ^ 63) :
    (marshalOffsets os).length = mixedSize os := by
  rw [marshalOffsets, length_bytesField (by omega) (packedSize_lt hos), length_packed_offsets,
    mixedSize]

theorem unmarshalOffsets_marshalOffsets (hos : mixedSize os < 2 ^ 63) :
    unmarshalOffsets (marshalOffsets os) = some os := by
  have hunpack : unpack (packed (os.map UInt32.toNat)) = some (os.map UInt32.toNat) := by
    refine unpack_packed fun x hx => ?_
    obtain ⟨o, -, rfl⟩ := mem_map.mp hx
    exact toNat_lt_two_pow_64 o
  have hback : (os.map UInt32.toNat).map UInt32.ofNat = os := by
    rw [map_map]
    exact map_id'' (fun o => UInt32.ofNat_toNat) os
  have hfits := fits_bytesField (i := 1) (by omega) (packedSize_lt hos)
  rw [unmarshalOffsets, marshalOffsets, fields_encodeFields hfits, Option.bind_some]
  refine foldlM_bytesField (by simp [setOffsets, hunpack, hback]) fun hnil => ?_
  -- nothing is written for no offsets
  rw [hnil] at hunpack
  have hempty : os.map UInt32.toNat = [] := (Option.some.inj hunpack).symm
  exact (map_eq_nil_iff.mp hempty).symm

/-- The marshalling of the generated code. -/
def Codec.wire : Codec where
  marshalEntry := Entry.marshal
  unmarshalEntry := Entry.unmarshal
  marshalMixed := marshalOffsets
  unmarshalMixed := unmarshalOffsets
  length_marshalEntry _ := Entry.length_marshal
  unmarshal_marshalEntry _ := Entry.unmarshal_marshal
  length_marshalMixed _ := length_marshalOffsets
  unmarshal_marshalMixed _ := unmarshalOffsets_marshalOffsets

end Pb
end Autumn
