import Autumn.Lib.Bytes

/-!
# The blocks of an extent file

A block on disk is a header of 512 bytes (checksum, length of the data, user data) followed by the
data.

The writer does not compare the length it notes with the data it writes, so the round trip needs
`Block.Sized`.  What the reader accepts is a piece of the file that it accepts with anything behind
it (`Segment`): a block that was written (`Block.segment`), or one that was found after a crash
(`segment_of_readBlock`).
-/

namespace Autumn

open Lib List Option

/-- `pb.Block`. -/
structure Block where
  checkSum : UInt32
  blockLength : UInt32
  userData : Bytes
  data : Bytes
  deriving DecidableEq, Repr

/-- A block length must be a positive number of sectors. -/
def align (n : ℕ) : Bool := n != 0 && n % 512 == 0

/-- `AdlerCheckSum`. -/
def adlerCheckSum (data : Bytes) : UInt32 :=
  let s := data.foldl
    (fun s x => ((s.1 + x.toNat) % 65521, (s.2 + (s.1 + x.toNat) % 65521) % 65521)) (1, 0)
  UInt32.ofNat (s.2 * 65536 + s.1)

/-- The bytes in an array of 512 that starts out with zeros. -/
def sector (b : Bytes) : Bytes := b ++ List.replicate (512 - b.length) 0

/-- The bytes `writeBlock` writes, if its checks let the block through. -/
def writeBlock (b : Block) : Option Bytes :=
  if !align b.blockLength.toNat then none
  else if b.checkSum ≠ adlerCheckSum b.data then none
  else
    let buf := beBytes 4 b.checkSum.toNat ++ putUvarint b.blockLength.toNat
    if b.userData = [] then some (sector buf ++ b.data)
    else
      let buf := buf ++ putUvarint b.userData.length
      if 512 < buf.length + b.userData.length then none
      else some (sector (buf ++ b.userData) ++ b.data)

/-- How reading a block goes wrong: nothing is left to read, an error is returned, or the process
dies. -/
inductive BlockError where
  | eof
  | failed
  | panicked
  deriving DecidableEq, Repr

/-- What the 512 bytes in front of the data say. -/
structure BlockHeader where
  checkSum : UInt32
  blockLength : ℕ
  userData : Bytes
  deriving DecidableEq, Repr

/-- The header as `readBlock` takes it apart.  A first varint that does not end makes the index
negative, and slicing with it panics; a second one that does not end counts as no user data. -/
def readHeader (buf : Bytes) : Except BlockError BlockHeader :=
  match uvarint (buf.drop 4) with
  | none => .error .panicked
  | some (blockLength, n) =>
    let (len, m) := (uvarint (buf.drop (4 + n))).getD (0, 0)
    let index := 4 + n + m
    -- `int(len)+index` wraps around, and the slice expression gets a negative bound
    if 2 ^ 63 ≤ len + index then .error .panicked
    else if 512 < len + index then .error .failed
    -- `make` refuses what no address space holds
    else if 2 ^ 48 < blockLength then .error .panicked
    else .ok ⟨UInt32.ofNat (beVal (buf.take 4)), blockLength, (buf.drop index).take len⟩

/-- `readBlock` of a reader in front of the bytes `r`. -/
def readBlock (r : Bytes) : Except BlockError Block :=
  if r = [] then .error .eof
  else if r.length < 512 then .error .failed
  else match readHeader (r.take 512) with
    | .error e => .error e
    | .ok h =>
      let data := (r.drop 512).take h.blockLength
      if data.length < h.blockLength then .error .failed
      else if adlerCheckSum data ≠ h.checkSum then .error .failed
      else if !align h.blockLength then .error .failed
      else .ok ⟨h.checkSum, UInt32.ofNat h.blockLength, h.userData, data⟩

/-! ## Reading back what was written -/

/-- `len(Data) = BlockLength`. -/
def Block.Sized (b : Block) : Prop := b.data.length = b.blockLength.toNat

instance : DecidablePred Block.Sized := fun b =>
  inferInstanceAs (Decidable (b.data.length = b.blockLength.toNat))

/-- The bytes the block takes on disk. -/
def Block.size (b : Block) : ℕ := 512 + b.blockLength.toNat

theorem Block.size_pos (b : Block) : 0 < b.size := by
  unfold Block.size
  omega

theorem length_sector {b : Bytes} (h : b.length ≤ 512) : (sector b).length = 512 := by
  rw [sector, length_append, length_replicate]
  omega

variable {b : Block}

theorem writeBlock_eq_some {x : Bytes} (h : writeBlock b = some x) :
    ∃ u : Bytes, align b.blockLength.toNat = true ∧ b.checkSum = adlerCheckSum b.data ∧
      (u = [] ∧ b.userData = [] ∨ u = putUvarint b.userData.length ++ b.userData ∧
        4 + (putUvarint b.blockLength.toNat).length + u.length ≤ 512 ∧ b.userData ≠ []) ∧
      x = sector (beBytes 4 b.checkSum.toNat ++ (putUvarint b.blockLength.toNat ++ u)) ++
        b.data := by
  unfold writeBlock at h
  simp only [length_append, length_beBytes] at h
  split_ifs at h with hal hck hu hbig
  · exact ⟨[], by simpa using hal, not_not.mp hck, .inl ⟨rfl, hu⟩,
      by rw [← some.inj h, append_nil]⟩
  · refine ⟨putUvarint b.userData.length ++ b.userData, by simpa using hal, not_not.mp hck,
      .inr ⟨rfl, ?_, hu⟩, ?_⟩
    · rw [length_append]
      omega
    · rw [← some.inj h]
      simp only [append_assoc]

theorem length_writeBlock {x : Bytes} (h : writeBlock b = some x) :
    x.length = 512 + b.data.length := by
  obtain ⟨u, -, -, hu, rfl⟩ := writeBlock_eq_some h
  have hlen := length_putUvarint_le b.blockLength.toNat
  rw [length_append, length_sector]
  rcases hu with ⟨rfl, -⟩ | ⟨-, hu, -⟩ <;>
    simp only [length_append, length_beBytes, length_nil] <;> omega

theorem readHeader_sector {c len : ℕ} {u userData : Bytes} (hc : c < 2 ^ 32) (hlen : len < 2 ^ 32)
    (hu : u = [] ∧ userData = [] ∨ u = putUvarint userData.length ++ userData ∧
      4 + (putUvarint len).length + u.length ≤ 512 ∧ userData ≠ []) :
    readHeader (sector (beBytes 4 c ++ (putUvarint len ++ u))) =
      .ok ⟨UInt32.ofNat c, len, userData⟩ := by
  set p := putUvarint len with hp
  have hplen : p.length ≤ 10 := length_putUvarint_le len
  set z := replicate (512 - (beBytes 4 c ++ (p ++ u)).length) (0 : UInt8) with hz
  have hbuf : sector (beBytes 4 c ++ (p ++ u)) = beBytes 4 c ++ (p ++ (u ++ z)) := by
    rw [sector, ← hz]
    simp only [append_assoc]
  have htake : (beBytes 4 c ++ (p ++ (u ++ z))).take 4 = beBytes 4 c :=
    take_left' (length_beBytes 4 c)
  have hdrop : (beBytes 4 c ++ (p ++ (u ++ z))).drop 4 = p ++ (u ++ z) :=
    drop_left' (length_beBytes 4 c)
  have hdrop2 : (beBytes 4 c ++ (p ++ (u ++ z))).drop (4 + p.length) = u ++ z := by
    rw [← drop_drop, hdrop, drop_left]
  have hval : beVal (beBytes 4 c) = c := beVal_beBytes_of_lt (by omega)
  have hread : uvarint (p ++ (u ++ z)) = some (len, p.length) :=
    uvarint_putUvarint (by omega) (u ++ z)
  rw [hbuf, readHeader, hdrop, hread]
  simp only [hdrop2, htake, hval]
  rcases hu with ⟨rfl, rfl⟩ | ⟨hu, hfit, hne⟩
  · -- without user data the next byte is a zero, which reads as an empty length
    obtain ⟨m, hm⟩ : ∃ m, z = 0 :: replicate m 0 := by
      refine ⟨511 - (beBytes 4 c ++ (p ++ ([] : Bytes))).length, ?_⟩
      rw [hz, ← replicate_succ]
      congr 1
      simp only [length_append, length_beBytes, length_nil]
      omega
    have hzero : uvarint ([] ++ z) = some (0, 1) := by
      rw [hm]
      rfl
    rw [hzero]
    simp only [getD_some]
    rw [if_neg (by omega), if_neg (by omega), if_neg (by omega), take_zero]
  · have hulen : u.length = (putUvarint userData.length).length + userData.length := by
      rw [hu, length_append]
    have hread2 :
        uvarint (u ++ z) = some (userData.length, (putUvarint userData.length).length) := by
      rw [hu, append_assoc]
      exact uvarint_putUvarint (by omega) _
    have hdata : ((beBytes 4 c ++ (p ++ (u ++ z))).drop
        (4 + p.length + (putUvarint userData.length).length)).take userData.length = userData := by
      rw [← drop_drop, hdrop2, hu, append_assoc, drop_left, take_left]
    rw [hread2]
    simp only [getD_some, hdata]
    rw [if_neg (by omega), if_neg (by omega), if_neg (by omega)]

/-- A piece of a file that the reader takes for the block `b`, whatever stands behind it. -/
structure Segment (s : Bytes) (b : Block) : Prop where
  length : s.length = b.size
  read : ∀ rest, readBlock (s ++ rest) = .ok b

/-- **Round trip.**  A block whose length is that of its data is read back as it was written. -/
theorem Block.segment {x : Bytes} (hs : b.Sized) (h : writeBlock b = some x) : Segment x b := by
  have hlen := length_writeBlock h
  obtain ⟨u, hal, hck, hu, rfl⟩ := writeBlock_eq_some h
  have hlt : b.blockLength.toNat < 2 ^ 32 := b.blockLength.toNat_lt
  set hd := sector (beBytes 4 b.checkSum.toNat ++ (putUvarint b.blockLength.toNat ++ u)) with hhd
  replace hlen : hd.length = 512 := by simpa using hlen
  refine ⟨by rw [length_append, hlen, hs, Block.size], fun rest => ?_⟩
  have htake : (hd ++ b.data ++ rest).take 512 = hd := by
    rw [append_assoc]
    exact take_left' hlen
  have hdrop : ((hd ++ b.data ++ rest).drop 512).take b.blockLength.toNat = b.data := by
    rw [append_assoc, drop_left' hlen]
    exact take_left' hs
  have hne : hd ++ b.data ++ rest ≠ [] := by
    intro hnil
    have := congrArg length hnil
    simp only [length_append, hlen, length_nil] at this
    omega
  have hhead : readHeader hd = .ok ⟨b.checkSum, b.blockLength.toNat, b.userData⟩ := by
    rw [hhd, readHeader_sector b.checkSum.toNat_lt hlt hu, UInt32.ofNat_toNat]
  rw [readBlock, if_neg hne, if_neg (by simp only [length_append, hlen]; omega), htake, hhead]
  simp only [hdrop, UInt32.ofNat_toNat]
  rw [if_neg (by rw [hs]; omega), if_neg (not_not.mpr hck.symm), if_neg (by simp [hal])]

theorem readBlock_eq_ok {r : Bytes} (h : readBlock r = .ok b) :
    512 ≤ r.length ∧ ∃ hd, readHeader (r.take 512) = .ok hd ∧
      hd.blockLength ≤ (r.drop 512).length ∧
      adlerCheckSum ((r.drop 512).take hd.blockLength) = hd.checkSum ∧
      align hd.blockLength = true ∧
      b = ⟨hd.checkSum, UInt32.ofNat hd.blockLength, hd.userData,
        (r.drop 512).take hd.blockLength⟩ := by
  unfold readBlock at h
  split_ifs at h with hnil hshort
  refine ⟨by omega, ?_⟩
  split at h
  · cases h
  · rename_i hd hhd
    simp only [length_take] at h
    split_ifs at h with hlen hck hal
    refine ⟨hd, hhd, by omega, not_not.mp hck, by simpa using hal, ?_⟩
    exact (Except.ok.inj h).symm

/-- **What is accepted is a segment.**  The reader looks at no byte behind the block it returns. -/
theorem segment_of_readBlock {r : Bytes} (hlt : r.length < 2 ^ 32) (h : readBlock r = .ok b) :
    b.size ≤ r.length ∧ Segment (r.take b.size) b := by
  obtain ⟨hlen, hd, hhd, hle, hck, hal, rfl⟩ := readBlock_eq_ok h
  have hdrop := length_drop (i := 512) (l := r)
  have hnat : (UInt32.ofNat hd.blockLength).toNat = hd.blockLength := by
    rw [UInt32.toNat_ofNat']
    omega
  simp only [Block.size, hnat]
  refine ⟨by omega, ?_, fun rest => ?_⟩
  · rw [length_take, Block.size, hnat]
    omega
  · set s := r.take (512 + hd.blockLength) with hs
    have hslen : s.length = 512 + hd.blockLength := by
      rw [hs, length_take]
      omega
    have htake : (s ++ rest).take 512 = r.take 512 := by
      rw [take_append_of_le_length (by omega), hs, take_take]
      congr 1
      omega
    have hdata : ((s ++ rest).drop 512).take hd.blockLength = (r.drop 512).take hd.blockLength := by
      rw [drop_append_of_le_length (by omega),
        take_append_of_le_length (by rw [length_drop]; omega), hs, drop_take,
        take_take]
      congr 1
      omega
    have hne : s ++ rest ≠ [] := by
      intro hnil
      have := congrArg length hnil
      simp only [length_append, hslen, length_nil] at this
      omega
    rw [readBlock, if_neg hne, if_neg (by simp only [length_append, hslen]; omega), htake, hhd]
    simp only [hdata, length_take]
    rw [if_neg (by omega), if_neg (not_not.mpr hck), if_neg (by simp [hal])]

end Autumn
