import Autumn.Lib.Protobuf

/-!
# The messages of a partition's metadata on the wire

The messages of package `pspb` that a partition manager keeps in etcd, with the fields of the
generated code: what is zero or empty is left out, numbers are packed, and every location is a
message of its own.  Each of them is read back; lengths are those of slices, so below `2 ^ 64`.
-/

namespace Autumn
namespace Pspb

open Lib Lib.Protobuf List

/-- `pspb.Range`; no end key means no bound. -/
structure Range where
  startKey : Bytes
  endKey : Bytes
  deriving DecidableEq, Repr

/-- `pspb.Location`. -/
structure Location where
  extentID : UInt64
  offset : UInt32
  deriving DecidableEq, Repr

/-! ## Ranges -/

/-- `Range.Marshal`. -/
def Range.marshal (rg : Range) : Bytes :=
  encodeFields (bytesField 1 rg.startKey ++ bytesField 2 rg.endKey)

/-- One round of the loop of `Range.Unmarshal`. -/
def Range.set (rg : Range) : Field → Option Range
  | (1, .len b) => some { rg with startKey := b }
  | (2, .len b) => some { rg with endKey := b }
  | (i, _) => if i ≤ 2 then none else some rg

/-- `Range.Unmarshal` into a new message. -/
def Range.unmarshal (b : Bytes) : Option Range :=
  (fields b).bind fun fs => fs.foldlM Range.set ⟨[], []⟩

/-- The keys are slices. -/
def Range.Fits (rg : Range) : Prop := rg.startKey.length < 2 ^ 64 ∧ rg.endKey.length < 2 ^ 64

theorem Range.unmarshal_marshal {rg : Range} (h : rg.Fits) :
    Range.unmarshal rg.marshal = some rg := by
  have hfits : ∀ f ∈ bytesField 1 rg.startKey ++ bytesField 2 rg.endKey, f.Fits := by
    intro f hf
    rcases mem_append.mp hf with hf | hf
    · exact fits_bytesField (by omega) h.1 f hf
    · exact fits_bytesField (by omega) h.2 f hf
  have hstart : (bytesField 1 rg.startKey).foldlM Range.set ⟨[], []⟩ = some ⟨rg.startKey, []⟩ :=
    foldlM_bytesField rfl fun hnil => by rw [hnil]
  have hend : (bytesField 2 rg.endKey).foldlM Range.set ⟨rg.startKey, []⟩ = some rg :=
    foldlM_bytesField rfl fun hnil => by rw [← hnil]
  rw [Range.unmarshal, Range.marshal, fields_encodeFields hfits, Option.bind_some,
    foldlM_append, hstart, Option.bind_eq_bind, Option.bind_some, hend]

/-! ## Locations -/

/-- `Location.Marshal`. -/
def Location.marshal (loc : Location) : Bytes :=
  encodeFields (varintField 1 loc.extentID.toNat ++ varintField 2 loc.offset.toNat)

/-- One round of the loop of `Location.Unmarshal`. -/
def Location.set (loc : Location) : Field → Option Location
  | (1, .varint x) => some { loc with extentID := UInt64.ofNat x }
  | (2, .varint x) => some { loc with offset := UInt32.ofNat x }
  | (i, _) => if i ≤ 2 then none else some loc

/-- `Location.Unmarshal` into a new message. -/
def Location.unmarshal (b : Bytes) : Option Location :=
  (fields b).bind fun fs => fs.foldlM Location.set ⟨0, 0⟩

theorem Location.unmarshal_marshal (loc : Location) :
    Location.unmarshal loc.marshal = some loc := by
  have hoffset : loc.offset.toNat < 2 ^ 64 := loc.offset.toNat_lt.trans (by decide)
  have hfits : ∀ f ∈ varintField 1 loc.extentID.toNat ++ varintField 2 loc.offset.toNat,
      f.Fits := by
    intro f hf
    rcases mem_append.mp hf with hf | hf
    · exact fits_varintField (by omega) loc.extentID.toNat_lt f hf
    · exact fits_varintField (by omega) hoffset f hf
  have hid : (varintField 1 loc.extentID.toNat).foldlM Location.set ⟨0, 0⟩ =
      some ⟨loc.extentID, 0⟩ :=
    foldlM_varintField (by simp [Location.set]) fun hzero => by
      rw [show loc.extentID = 0 from UInt64.toNat_inj.mp hzero]
  have hoff : (varintField 2 loc.offset.toNat).foldlM Location.set ⟨loc.extentID, 0⟩ = some loc :=
    foldlM_varintField (by simp [Location.set]) fun hzero => by
      rw [← show loc.offset = 0 from UInt32.toNat_inj.mp hzero]
  rw [Location.unmarshal, Location.marshal, fields_encodeFields hfits, Option.bind_some,
    foldlM_append, hid, Option.bind_eq_bind, Option.bind_some, hoff]

theorem length_encodeFields_varintField_le {i : ℕ} (x : ℕ) :
    (encodeFields (varintField i x)).length ≤ 20 := by
  unfold varintField
  split_ifs with hx
  · exact Nat.zero_le _
  · have htag := length_putUvarint_le (i * 8)
    have hval := length_putUvarint_le x
    rw [encodeFields, flatMap_singleton, encodeField, length_append]
    omega

theorem Location.length_marshal_le (loc : Location) : loc.marshal.length ≤ 40 := by
  have hid := length_encodeFields_varintField_le (i := 1) loc.extentID.toNat
  have hoff := length_encodeFields_varintField_le (i := 2) loc.offset.toNat
  rw [Location.marshal, encodeFields_append, length_append]
  omega

/-- The fields of a `TableLocations`: one for every location, also for one that has no bytes. -/
def locFields (locs : List Location) : List Field := locs.map fun loc => (1, .len loc.marshal)

/-- `TableLocations.Marshal`. -/
def marshalLocs (locs : List Location) : Bytes := encodeFields (locFields locs)

/-- One round of the loop of `TableLocations.Unmarshal`. -/
def setLocs (locs : List Location) : Field → Option (List Location)
  | (1, .len b) => (Location.unmarshal b).map fun loc => locs ++ [loc]
  | (i, _) => if i ≤ 1 then none else some locs

/-- `TableLocations.Unmarshal` into a new message. -/
def unmarshalLocs (b : Bytes) : Option (List Location) :=
  (fields b).bind fun fs => fs.foldlM setLocs []

theorem foldlM_setLocs (done locs : List Location) :
    (locFields locs).foldlM setLocs done = some (done ++ locs) := by
  induction locs generalizing done with
  | nil => simp [locFields]
  | cons loc locs ih =>
    have hstep : setLocs done (1, .len loc.marshal) = some (done ++ [loc]) := by
      rw [setLocs, Location.unmarshal_marshal, Option.map_some]
    rw [locFields, map_cons, foldlM_cons, hstep, Option.bind_eq_bind, Option.bind_some, ← locFields,
      ih, append_assoc, singleton_append]

theorem unmarshalLocs_marshalLocs (locs : List Location) :
    unmarshalLocs (marshalLocs locs) = some locs := by
  have hfits : ∀ f ∈ locFields locs, f.Fits := by
    intro f hf
    obtain ⟨loc, -, rfl⟩ := mem_map.mp hf
    exact ⟨by omega, loc.length_marshal_le.trans_lt (by omega)⟩
  rw [unmarshalLocs, marshalLocs, fields_encodeFields hfits, Option.bind_some, foldlM_setLocs,
    nil_append]

/-! ## Blob streams -/

/-- The numbers of a `BlobStreams` in one payload. -/
def packedBlobs (blobs : List UInt64) : Bytes := packed (blobs.map UInt64.toNat)

/-- `BlobStreams.Marshal`. -/
def marshalBlobs (blobs : List UInt64) : Bytes := encodeFields (bytesField 1 (packedBlobs blobs))

/-- One round of the loop of `BlobStreams.Unmarshal`. -/
def setBlobs (blobs : List UInt64) : Field → Option (List UInt64)
  | (1, .varint x) => some (blobs ++ [UInt64.ofNat x])
  | (1, .len b) => (unpack b).map fun xs => blobs ++ xs.map UInt64.ofNat
  | (i, _) => if i = 0 then none else some blobs

/-- `BlobStreams.Unmarshal` into a new message. -/
def unmarshalBlobs (b : Bytes) : Option (List UInt64) :=
  (fields b).bind fun fs => fs.foldlM setBlobs []

theorem unmarshalBlobs_marshalBlobs {blobs : List UInt64}
    (h : (packedBlobs blobs).length < 2 ^ 64) :
    unmarshalBlobs (marshalBlobs blobs) = some blobs := by
  have hunpack : unpack (packedBlobs blobs) = some (blobs.map UInt64.toNat) := by
    refine unpack_packed fun x hx => ?_
    obtain ⟨b, -, rfl⟩ := mem_map.mp hx
    exact b.toNat_lt
  have hback : (blobs.map UInt64.toNat).map UInt64.ofNat = blobs := by
    rw [map_map]
    exact map_id'' (fun b => UInt64.ofNat_toNat) blobs
  rw [unmarshalBlobs, marshalBlobs, fields_encodeFields (fits_bytesField (by omega) h),
    Option.bind_some]
  refine foldlM_bytesField (by simp [setBlobs, hunpack, hback]) fun hnil => ?_
  rw [hnil] at hunpack
  exact (map_eq_nil_iff.mp (Option.some.inj hunpack).symm).symm

end Pspb
end Autumn
