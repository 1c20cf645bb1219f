import Autumn.Extent.Durable
import Autumn.StreamClient.BlockCodec

/-!
# Blocks that are not what they say

`writeBlock` and `readBlock` are inverse to each other on blocks whose `BlockLength` is the length
of their data.  This module is about the rest, in both directions.

## 1.  What the encoder lets through

`writeBlock` writes `len(Data)` bytes, notes `BlockLength`, and never compares the two.  A block is
read back exactly if they agree (`writeBlock_round_trip_iff`).  Otherwise the reader takes the
header of the next block for data (`unsized_block_accepted`).

## 2.  What the decoder survives

The header holds two varints that nobody vouches for.  `Deadly` lists the three ways in which
`readBlock` dies of them: the first does not end, so that the index is negative; the second is so
large that `int(len)+index` wraps around; the length of the data is more than `make` can allocate.
With any other header it returns a block or an error (`readBlock_panicked_iff`), and asks `make` for
no more than is there (`asked_le`).  If no header that `OpenExtent` comes to is deadly, it cuts the
file to the longest prefix that is a header and a chain of blocks (`decoding_survives`).
-/

namespace Autumn

open Lib List

/-! ## 1.  What the encoder lets through -/

/-- **The encoder and the decoder.**  A written block takes the bytes it announces, and is read back
in front of anything, exactly if the data has the announced length. -/
theorem writeBlock_round_trip_iff (b : Block) (x : Bytes) (h : writeBlock b = some x) :
    (x.length = b.blockLength.toNat + 512 ∧ ∀ rest, readBlock (x ++ rest) = .ok b) ↔
      b.data.length = b.blockLength.toNat := by
  constructor
  · rintro ⟨hlen, -⟩
    rw [length_writeBlock h] at hlen
    omega
  · intro hs
    have hseg : Segment x b := Block.segment hs h
    refine ⟨?_, hseg.read⟩
    rw [hseg.length, Block.size, Nat.add_comm]

theorem writeBlock_round_trip_iff_filled :
    ∃ x, writeBlock (filled 7 [1, 2]) = some x ∧
      x.length = (filled 7 [1, 2]).blockLength.toNat + 512 ∧
      ∀ rest, readBlock (x ++ rest) = .ok (filled 7 [1, 2]) := by
  obtain ⟨x, hx, -⟩ : ∃ x ∈ writeBlock (filled 7 [1, 2]), True := by decide +kernel
  exact ⟨x, hx, (writeBlock_round_trip_iff (filled 7 [1, 2]) x hx).mpr (by decide +kernel)⟩

/-- A block that announces 512 bytes and has none. -/
def emptyData : Block := ⟨1, 512, [], []⟩

/-- **What the checks miss.**  512 bytes are written where 1024 are announced, and neither this
block nor the one behind it can be read from where it should be. -/
theorem unsized_block_accepted :
    ∃ x y, writeBlock emptyData = some x ∧ writeBlock (filled 7 []) = some y ∧
      x.length = 512 ∧ emptyData.blockLength.toNat + 512 = 1024 ∧
      readBlock (x ++ y) = .error .failed ∧
      readBlock ((x ++ y).drop (emptyData.blockLength.toNat + 512)) = .error .failed := by
  refine ⟨(writeBlock emptyData).getD [], (writeBlock (filled 7 [])).getD [], ?_⟩
  decide +kernel

/-! ## 2.  What the decoder survives -/

/-- The two varints of a header and the index behind them: the lengths of the data and of the user
data, and where the user data starts; nothing if the first varint does not end. -/
def headerLengths (buf : Bytes) : Option (ℕ × ℕ × ℕ) :=
  (uvarint (buf.drop 4)).map fun (blockLength, n) =>
    let (len, m) := (uvarint (buf.drop (4 + n))).getD (0, 0)
    (blockLength, len, 4 + n + m)

/-- The headers of which `readBlock` dies where `make` can allocate `memory` bytes. -/
inductive Deadly (memory : ℕ) (buf : Bytes) : Prop where
  /-- The first varint overflows, and `buf[index:]` has a negative index. -/
  | index (h : headerLengths buf = none)
  /-- `int(len)+index` is negative, or smaller than `index`. -/
  | slice {blockLength len index : ℕ} (h : headerLengths buf = some (blockLength, len, index))
      (hlen : 2 ^ 63 ≤ len + index)
  /-- `make([]byte, blockLength, blockLength)` asks for too much. -/
  | make {blockLength len index : ℕ} (h : headerLengths buf = some (blockLength, len, index))
      (hlen : len + index ≤ 512) (hmem : memory < blockLength)

variable {buf : Bytes}

theorem Deadly.anti {m n : ℕ} (h : Deadly n buf) (hmn : m ≤ n) : Deadly m buf := by
  cases h with
  | index h => exact .index h
  | slice h hlen => exact .slice h hlen
  | make h hlen hmem => exact .make h hlen (by omega)

/-- The header, told by its lengths. -/
theorem readHeader_eq (buf : Bytes) :
    readHeader buf = match headerLengths buf with
      | none => .error .panicked
      | some (blockLength, len, index) =>
        if 2 ^ 63 ≤ len + index then .error .panicked
        else if 512 < len + index then .error .failed
        else if 2 ^ 48 < blockLength then .error .panicked
        else .ok ⟨UInt32.ofNat (beVal (buf.take 4)), blockLength, (buf.drop index).take len⟩ := by
  unfold readHeader headerLengths
  cases uvarint (buf.drop 4) with
  | none => rfl
  | some x => rfl

variable {memory : ℕ}

theorem deadly_iff {blockLength len index : ℕ}
    (hl : headerLengths buf = some (blockLength, len, index)) :
    Deadly memory buf ↔ 2 ^ 63 ≤ len + index ∨ len + index ≤ 512 ∧ memory < blockLength := by
  constructor
  · intro h
    cases h with
    | index h => simp [hl] at h
    | slice h hlen =>
      obtain ⟨rfl, rfl, rfl⟩ : blockLength = _ ∧ len = _ ∧ index = _ := by simpa [hl] using h
      exact Or.inl hlen
    | make h hlen hmem =>
      obtain ⟨rfl, rfl, rfl⟩ : blockLength = _ ∧ len = _ ∧ index = _ := by simpa [hl] using h
      exact Or.inr ⟨hlen, hmem⟩
  · rintro (hlen | ⟨hlen, hmem⟩)
    · exact .slice hl hlen
    · exact .make hl hlen hmem

/-- No address space holds more than `2 ^ 48` bytes. -/
theorem readHeader_panicked_iff : readHeader buf = .error .panicked ↔ Deadly (2 ^ 48) buf := by
  rw [readHeader_eq]
  cases hl : headerLengths buf with
  | none => exact ⟨fun _ => .index hl, fun _ => rfl⟩
  | some x =>
    obtain ⟨blockLength, len, index⟩ := x
    rw [deadly_iff hl]
    dsimp only
    split_ifs with hneg hbig hmake
    · exact ⟨fun _ => Or.inl hneg, fun _ => rfl⟩
    · exact ⟨fun h => absurd h (by simp), fun h => by omega⟩
    · exact ⟨fun _ => Or.inr ⟨by omega, hmake⟩, fun _ => rfl⟩
    · exact ⟨fun h => absurd h (by simp), fun h => by omega⟩

theorem readBlock_panicked_iff {r : Bytes} :
    readBlock r = .error .panicked ↔ 512 ≤ r.length ∧ Deadly (2 ^ 48) (r.take 512) := by
  rw [← readHeader_panicked_iff, readBlock]
  by_cases hnil : r = []
  · rw [if_pos hnil, hnil]
    simp
  by_cases hshort : r.length < 512
  · rw [if_neg hnil, if_pos hshort]
    refine ⟨fun h => absurd h (by simp), fun h => ?_⟩
    omega
  rw [if_neg hnil, if_neg hshort]
  cases hh : readHeader (r.take 512) with
  | error x => simp [show 512 ≤ r.length by omega]
  | ok hd =>
    dsimp only
    split_ifs <;> simp

/-- The size that `readBlock` asks `make` for, if it comes to it. -/
def asked (r : Bytes) : Option ℕ :=
  if r.length < 512 then none
  else (headerLengths (r.take 512)).bind fun x => if x.2.1 + x.2.2 ≤ 512 then some x.1 else none

theorem asked_le {n : ℕ} {r : Bytes} (h : 512 ≤ r.length → ¬ Deadly memory (r.take 512))
    (hn : asked r = some n) : n ≤ memory := by
  unfold asked at hn
  split_ifs at hn with hshort
  obtain ⟨⟨blockLength, len, index⟩, hl, hx⟩ := Option.bind_eq_some_iff.mp hn
  dsimp only at hx
  split_ifs at hx with hfit
  cases hx
  by_contra hlt
  exact h (by omega) (.make hl hfit (by omega))

/-- A prefix of the file that is a header and a chain of blocks. -/
def Decodable (file p : Bytes) : Prop :=
  p <+: file ∧ ∃ ts, Segments ts ∧ p = file.take 512 ++ ts.flatten

/-- A chain that ends where no block can be read is the longest one. -/
theorem flatten_isPrefix_of_stuck {ts us : List Bytes} {rest more : Bytes}
    (hno : ∀ b, readBlock rest ≠ .ok b) (hts : Segments ts) (hus : Segments us)
    (heq : us.flatten ++ more = ts.flatten ++ rest) : us.flatten <+: ts.flatten := by
  induction us generalizing ts with
  | nil => exact nil_prefix
  | cons u us ih =>
    obtain ⟨c, hc⟩ := hus u (.head _)
    rw [flatten_cons, append_assoc] at heq
    cases ts with
    | nil =>
      rw [flatten_nil, nil_append] at heq
      exact absurd (heq ▸ hc.read _) (hno c)
    | cons t ts =>
      obtain ⟨b, hb⟩ := hts t (.head _)
      rw [flatten_cons, append_assoc] at heq
      have hbc : c = b := by
        have hread : readBlock (u ++ (us.flatten ++ more)) = .ok b := heq ▸ hb.read _
        exact Except.ok.inj ((hc.read _).symm.trans hread)
      have hlen : u.length = t.length := by rw [hc.length, hb.length, hbc]
      obtain ⟨rfl, htail⟩ := append_inj heq hlen
      rw [flatten_cons, flatten_cons, prefix_append_right_inj]
      exact ih (fun s hs => hts s (.tail _ hs))
        (fun s hs => hus s (.tail _ hs)) htail

/-- **What is opened is the longest chain.**  A file whose headers are not deadly is cut to the
longest prefix that is a header and a chain of blocks. -/
theorem openExtent_longest (hmem : memory ≤ 2 ^ 48) {file : Bytes} (synced : ℕ)
    (hok : headerOk file = true) (hsmall : file.length < 2 ^ 32) (hsafe : ∀ ts rest, Segments ts →
      file = file.take 512 ++ (ts.flatten ++ rest) → 512 ≤ rest.length → ¬ Deadly memory (rest.take
      512)) :
    ∃ e, openExtent file synced false = some e ∧ e.isSeal = false ∧
      e.commitLength = e.file.length ∧ Decodable file e.file ∧
      ∀ p, Decodable file p → p <+: e.file := by
  have h512 : 512 ≤ file.length := by
    unfold headerOk at hok
    simp only [Bool.and_eq_true, decide_eq_true_eq] at hok
    exact hok.1
  have hhead : (file.take 512).length = 512 := by
    rw [length_take]
    omega
  have hdrop : (file.drop 512).length = file.length - 512 := length_drop
  have hfile : ∀ {x : Bytes}, file.drop 512 = x → file = file.take 512 ++ x := by
    rintro x rfl
    exact (take_append_drop 512 file).symm
  have hlongest :
      ∀ {ts : List Bytes} {rest : Bytes}, Segments ts → file.drop 512 = ts.flatten ++ rest →
      (∀ b, readBlock rest ≠ .ok b) → ∀ p, Decodable file p →
        p <+: file.take 512 ++ ts.flatten := by
    rintro ts rest hts hr hno p ⟨⟨more, hmore⟩, us, hus, rfl⟩
    rw [prefix_append_right_inj]
    have heq : file.take 512 ++ (us.flatten ++ more) = file.take 512 ++ (ts.flatten ++ rest) := by
      rw [← append_assoc, hmore]
      exact hfile hr
    exact flatten_isPrefix_of_stuck hno hts hus (append_cancel_left heq)
  rw [openExtent, if_neg (by simp), if_neg (by simp [hok]), Nat.mod_eq_of_lt hsmall]
  obtain ⟨ts, rest, hts, hr, ⟨rfl, heq⟩ | ⟨hno, heq⟩ | ⟨hdead, heq⟩⟩ :=
    @scan_cases _ (file.length + 1) 512 (file.drop 512) hsmall (by omega) (by omega)
  · rw [heq]
    have hmax := hlongest hts hr fun b hb => absurd hb (by simp [readBlock])
    rw [append_nil] at hr
    refine ⟨_, rfl, rfl, rfl, ⟨prefix_refl _, ts, hts, hfile hr⟩, ?_⟩
    rwa [← hfile hr] at hmax
  · rw [heq]
    have hlen : (file.take 512 ++ ts.flatten).length = 512 + ts.flatten.length := by
      rw [length_append, hhead]
    have hcut : truncateFile (512 + ts.flatten.length) file = file.take 512 ++ ts.flatten := by
      have hsplit : file = file.take 512 ++ ts.flatten ++ rest := by
        rw [append_assoc]
        exact hfile hr
      have := truncateFile_append (file.take 512 ++ ts.flatten) rest
      rwa [hlen, ← hsplit] at this
    refine ⟨_, rfl, rfl, ?_, ⟨?_, ts, hts, hcut⟩, ?_⟩
    · show 512 + ts.flatten.length = (truncateFile _ file).length
      rw [hcut, hlen]
    · show truncateFile _ file <+: file
      rw [hcut]
      refine ⟨rest, ?_⟩
      rw [append_assoc]
      exact (hfile hr).symm
    · intro p hp
      show p <+: truncateFile _ file
      rw [hcut]
      exact hlongest hts hr hno p hp
  · obtain ⟨hlen, hd⟩ := readBlock_panicked_iff.mp hdead
    exact absurd (hd.anti hmem) (hsafe ts rest hts (hfile hr) hlen)

/-- **The decoder on corrupt input.**  Let `make` be able to allocate `memory` bytes.  With a header
that is not deadly `readBlock` and `readBlockEntries` return, and allocate no more than that; an
unsealed file in which the scan meets no deadly header is opened, cut to its longest chain of
blocks. -/
theorem decoding_survives {memory : ℕ} (hmem : memory ≤ 2 ^ 48) :
    (∀ r : Bytes, (512 ≤ r.length → ¬ Deadly memory (r.take 512)) →
      readBlock r ≠ .error .panicked ∧ (∀ n, asked r = some n → n ≤ memory) ∧
      ∀ C id o replay, Pb.readBlockEntries C r id o replay = .error .panicked →
        ∃ b, readBlock r = .ok b) ∧
    (∀ (file : Bytes) (synced : ℕ), headerOk file = true → file.length < 2 ^ 32 →
      (∀ ts rest, Segments ts → file = file.take 512 ++ (ts.flatten ++ rest) →
        512 ≤ rest.length → ¬ Deadly memory (rest.take 512)) →
      ∃ e, openExtent file synced false = some e ∧ e.isSeal = false ∧
        e.commitLength = e.file.length ∧ Decodable file e.file ∧
        ∀ p, Decodable file p → p <+: e.file) := by
  refine ⟨fun r hr => ?_, fun file synced hok hsmall hsafe =>
    openExtent_longest hmem synced hok hsmall hsafe⟩
  have halive : readBlock r ≠ .error .panicked := by
    intro hdead
    obtain ⟨hlen, hd⟩ := readBlock_panicked_iff.mp hdead
    exact hr hlen (hd.anti hmem)
  refine ⟨halive, fun n hn => asked_le hr hn, fun C id o replay h => ?_⟩
  unfold Pb.readBlockEntries at h
  cases hread : readBlock r with
  | error x =>
    rw [hread] at h
    obtain rfl : x = .panicked := by simpa using h
    exact absurd hread halive
  | ok b => exact ⟨b, rfl⟩

/-- A sector of zeros behind the header, as a crash may leave it. -/
theorem decoding_survives_zeros :
    headerOk (extentHeader 1 ++ List.replicate 512 0) = true ∧
      readBlock (List.replicate 512 0) ≠ .error .panicked ∧
      ∃ e, openExtent (extentHeader 1 ++ List.replicate 512 0) 512 false = some e ∧
        e.isSeal = false ∧ e.commitLength = e.file.length ∧
        Decodable (extentHeader 1 ++ List.replicate 512 0) e.file ∧
        ∀ p, Decodable (extentHeader 1 ++ List.replicate 512 0) p → p <+: e.file := by
  set zeros : Bytes := replicate 512 0 with hzeros
  have hok : headerOk (extentHeader 1 ++ zeros) = true := by decide +kernel
  have hlengths : headerLengths (zeros.take 512) = some (0, 0, 6) := by decide +kernel
  have hfail : readBlock zeros = .error .failed := by decide +kernel
  have halive : ¬ Deadly (2 ^ 30) (zeros.take 512) := by
    rw [deadly_iff hlengths]
    decide
  have htake : (extentHeader 1 ++ zeros).take 512 = extentHeader 1 :=
    take_left' (by decide +kernel)
  refine ⟨hok, ((@decoding_survives (2 ^ 30) (by decide)).1 zeros fun _ => halive).1,
    (@decoding_survives (2 ^ 30) (by decide)).2 _ 512 hok (by decide +kernel) ?_⟩
  intro ts rest hts heq hlen
  rw [htake] at heq
  have heq' : zeros = ts.flatten ++ rest := append_cancel_left heq
  cases ts with
  | nil =>
    rw [flatten_nil, nil_append] at heq'
    rwa [← heq']
  | cons t ts =>
    -- no block can be read from the zeros
    obtain ⟨b, hb⟩ := hts t (.head _)
    rw [flatten_cons, append_assoc] at heq'
    rw [heq', hb.read] at hfail
    cases hfail

/-- A first varint of ten bytes that overflows. -/
def overflowingLength : Bytes := sector ([0, 0, 0, 1] ++ List.replicate 9 255 ++ [2])

/-- 512 bytes of data, and user data of `2 ^ 64 - 1` bytes. -/
def wrappingUserData : Bytes := sector ([0, 0, 0, 1] ++ [128, 4] ++ List.replicate 9 255 ++ [1])

/-- `2 ^ 64 - 1` bytes of data. -/
def unallocatableData : Bytes := sector ([0, 0, 0, 1] ++ List.replicate 9 255 ++ [1])

/-- `2 ^ 47` bytes of data, which `make` tries to find. -/
def hugeData : Bytes := sector ([0, 0, 0, 1] ++ List.replicate 6 128 ++ [32])

/-- **Headers that kill the node.**  Three make `readBlock` panic, and a file with one of them is
not opened; the fourth makes it ask for 128 terabytes. -/
theorem corrupt_header_kills :
    readBlock overflowingLength = .error .panicked ∧
      readBlock wrappingUserData = .error .panicked ∧
      readBlock unallocatableData = .error .panicked ∧ asked hugeData = some (2 ^ 47) ∧
      headerOk (extentHeader 1 ++ overflowingLength) = true ∧
      scan 1024 1025 overflowingLength 512 = .panicked ∧
      openExtent (extentHeader 1 ++ overflowingLength) 512 false = none := by
  decide +kernel

end Autumn
