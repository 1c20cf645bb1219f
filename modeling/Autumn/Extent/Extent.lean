import Autumn.Extent.Block

/-!
# One replica of an extent

The file of an extent is a header of 512 bytes followed by blocks, and `commitLength` is its length
as far as the node knows.

What the disk does is an input.  A `Fault` says which write of an `AppendBlocks` fails, with what of
the block already in the file, and whether `Sync` fails.  A crash cannot take away the first
`Extent.synced` bytes, and a restart (`Extent.restart`) finds them with arbitrary bytes behind.

A failing append truncates the file to the length it had after the last block that was written, so
the file gains the encoding of some first blocks (`kept`, `appendBlocks_cases`).  Lengths are 32-bit
numbers that nothing keeps from wrapping around, hence the hypothesis that the file stays below
`2 ^ 32` bytes.
-/

namespace Autumn

open Lib List Option

/-- What goes wrong during one `AppendBlocks`, as far as it notices.  `writeBlock` drops the error
of the `Write` of a header; that this one fails and the next ones succeed is not a case here. -/
structure Fault where
  /-- The number of the block whose write fails, and the bytes of it that reach the file. -/
  write : Option (ℕ × Bytes)
  /-- `Sync` returns an error, which `AppendBlocks` does not look at. -/
  sync : Bool
  deriving DecidableEq, Repr

namespace Fault

/-- Nothing goes wrong. -/
def none : Fault := ⟨.none, false⟩

/-- What of block `i` reaches the file, if its write fails. -/
def failsAt (f : Fault) (i : ℕ) : Option Bytes :=
  f.write.bind fun x => if x.1 = i then some x.2 else .none

end Fault

/-- An open extent and what is on its disk. -/
structure Extent where
  file : Bytes
  /-- The length of the part of the file that survives a crash. -/
  synced : ℕ
  commitLength : ℕ
  isSeal : Bool
  /-- The attribute `seal` of the file. -/
  sealAttr : Bool
  deriving DecidableEq, Repr

/-- `extentMagicNumber`, the bytes of `EXTENTXX`. -/
def extentMagicNumber : Bytes := [69, 88, 84, 69, 78, 84, 88, 88]

/-- The bytes `extentHeader.Marshal` writes. -/
def extentHeader (id : ℕ) : Bytes := sector (extentMagicNumber ++ beBytes 8 id)

/-- The checks of `extentHeader.Unmarshal`. -/
def headerOk (file : Bytes) : Bool := decide (512 ≤ file.length) && file.take 8 == extentMagicNumber

/-- `CreateExtent`. -/
def createExtent (id : ℕ) : Extent := ⟨extentHeader id, 512, 512, false, false⟩

/-- `file.Truncate(n)`. -/
def truncateFile (n : ℕ) (file : Bytes) : Bytes := file.take n ++ List.replicate (n - file.length) 0

/-- The loop of `AppendBlocks` at block `i`: the file, `currentLength` and the offsets, or no
offsets after an error and the truncation that it causes. -/
def appendLoop (f : Fault) : ℕ → List Block → Bytes → ℕ → List ℕ → Bytes × ℕ × Option (List ℕ)
  | _, [], file, currentLength, ret => (file, currentLength, some ret)
  | i, b :: bs, file, currentLength, ret =>
    match writeBlock b, f.failsAt i with
    | none, _ => (truncateFile currentLength file, currentLength, none)
    | some _, some part => (truncateFile currentLength (file ++ part), currentLength, none)
    | some x, none =>
      appendLoop f (i + 1) bs (file ++ x) ((currentLength + b.size) % 2 ^ 32)
        (ret ++ [currentLength])

namespace Extent

/-- `AppendBlocks`; the result is the list of offsets, or an error. -/
def appendBlocks (e : Extent) (blocks : List Block) (lastCommit : Option ℕ) (f : Fault) :
    Extent × Option (List ℕ) :=
  if e.isSeal then (e, none)
  else if lastCommit.any (fun c => c != e.commitLength) then (e, none)
  else
    match appendLoop f 0 blocks e.file e.commitLength [] with
    | (file, currentLength, none) =>
      ({ e with file := file, synced := min e.synced currentLength, commitLength := currentLength },
        none)
    | (file, currentLength, some ret) =>
      ({ e with
          file := file
          synced := if f.sync then e.synced else file.length
          commitLength := currentLength },
        some ret)

/-- `Seal`; the result says whether it returned without an error.  `commitLength` stays as it is. -/
def sealExtent (e : Extent) (commit : ℕ) (setAttrFails : Bool) : Extent × Bool :=
  let e := { e with isSeal := true }
  if e.commitLength < commit then (e, false)
  else
    let e := if commit < e.commitLength then
      { e with file := truncateFile commit e.file, synced := min e.synced commit } else e
    if setAttrFails then (e, false) else ({ e with sealAttr := true }, true)

/-- How a read ends: with all that was asked for, or at the end of the extent or of the stream. -/
inductive ReadEnd where
  | full
  | endOfExtent
  | endOfStream
  deriving DecidableEq, Repr

/-- The end that lies behind the last block. -/
def readEnd (e : Extent) : ReadEnd := if e.isSeal then .endOfExtent else .endOfStream

/-- The loop of `ReadBlocks`. -/
def readBlocksLoop (e : Extent) (maxTotalSize : ℕ) :
    ℕ → ℕ → ℕ → List Block → Except BlockError (List Block × ReadEnd)
  | 0, _, _, ret => .ok (ret, .full)
  | n + 1, offset, size, ret =>
    match readBlock (e.file.drop offset) with
    | .error .eof => .ok (ret, e.readEnd)
    | .error x => .error x
    | .ok b =>
      if (size + b.size) % 2 ^ 32 > maxTotalSize then .ok (ret ++ [b], .full)
      else readBlocksLoop e maxTotalSize n ((offset + b.size) % 2 ^ 32) ((size + b.size) % 2 ^ 32)
        (ret ++ [b])

/-- `ReadBlocks`. -/
def readBlocks (e : Extent) (offset maxNumOfBlocks maxTotalSize : ℕ) :
    Except BlockError (List Block × ReadEnd) :=
  if e.commitLength ≤ offset then .ok ([], e.readEnd)
  else readBlocksLoop e maxTotalSize maxNumOfBlocks offset 0 []

end Extent

/-- How the scan of `OpenExtent` ends: behind the last block, at an offset where no block can be
read, or with the process dead. -/
inductive Scan where
  | complete (offset : ℕ)
  | torn (offset : ℕ)
  | panicked
  deriving DecidableEq, Repr

/-- The loop of `OpenExtent` with `r` unread.  Every block takes at least its header, so the length
of the file is enough fuel. -/
def scan (currentSize : ℕ) : ℕ → Bytes → ℕ → Scan
  | 0, _, offset => .complete offset
  | n + 1, r, offset =>
    if currentSize ≤ offset then .complete offset
    else match readBlock r with
      | .error .panicked => .panicked
      | .error _ => .torn offset
      | .ok b => scan currentSize n (r.drop (512 + b.data.length)) ((offset + b.size) % 2 ^ 32)

/-- `OpenExtent` on a file, of which a crash leaves the first `synced` bytes; `none` when the extent
is not opened, because of an error or because the process dies. -/
def openExtent (file : Bytes) (synced : ℕ) (sealAttr : Bool) : Option Extent :=
  if sealAttr then
    if 2 ^ 32 ≤ file.length then none
    else if !headerOk file then none
    else some ⟨file, synced, file.length, true, true⟩
  else if !headerOk file then none
  else match scan (file.length % 2 ^ 32) (file.length + 1) (file.drop 512) 512 with
    | .panicked => none
    | .complete offset => some ⟨file, synced, offset, false, false⟩
    | .torn offset => some ⟨truncateFile offset file, offset, offset, false, false⟩

/-- The node crashes and opens the extent again.  The synced part of the file is still there, with
any bytes `tail` behind it. -/
def Extent.restart (e : Extent) (tail : Bytes) : Option Extent :=
  openExtent (e.file.take e.synced ++ tail) e.synced e.sealAttr

/-! ## What an append adds to the file -/

/-- The bytes of the blocks, one after the other. -/
def encode (bs : List Block) : Bytes := bs.flatMap fun b => (writeBlock b).getD []

/-- The bytes the blocks take according to their headers. -/
def totalSize (bs : List Block) : ℕ := (bs.map Block.size).sum

/-- The offsets of blocks written from `o` on. -/
def offsetsFrom : ℕ → List Block → List ℕ
  | _, [] => []
  | o, b :: bs => o :: offsetsFrom (o + b.size) bs

/-- How many of the blocks are written before the first one that `writeBlock` refuses or whose write
fails; the first of them is block `i`. -/
def kept (f : Fault) : ℕ → List Block → ℕ
  | _, [] => 0
  | i, b :: bs => if (writeBlock b).isSome ∧ f.failsAt i = none then kept f (i + 1) bs + 1 else 0

@[simp] theorem totalSize_nil : totalSize [] = 0 := rfl

@[simp] theorem totalSize_cons (b : Block) (bs : List Block) :
    totalSize (b :: bs) = b.size + totalSize bs := by
  rw [totalSize, map_cons, sum_cons, totalSize]

theorem totalSize_take_le : ∀ (n : ℕ) (bs : List Block), totalSize (bs.take n) ≤ totalSize bs
  | 0, _ => Nat.zero_le _
  | _ + 1, [] => le_rfl
  | n + 1, b :: bs => by
    rw [take_succ_cons, totalSize_cons, totalSize_cons]
    have := totalSize_take_le n bs
    omega

@[simp] theorem encode_nil : encode [] = [] := rfl

theorem encode_cons {b : Block} {x : Bytes} (h : writeBlock b = some x) (bs : List Block) :
    encode (b :: bs) = x ++ encode bs := by
  rw [encode, flatMap_cons, h, getD_some, encode]

theorem encode_append (as bs : List Block) : encode (as ++ bs) = encode as ++ encode bs := by
  rw [encode, flatMap_append, encode, encode]

theorem isSome_of_mem_take_kept {f : Fault} {b : Block} :
    ∀ {i : ℕ} {bs : List Block}, b ∈ bs.take (kept f i bs) → ∃ x, writeBlock b = some x
  | _, [], h => by simp at h
  | i, c :: bs, h => by
    rw [kept] at h
    split_ifs at h with hc
    · rw [take_succ_cons, mem_cons] at h
      rcases h with rfl | h
      · exact isSome_iff_exists.mp hc.1
      · exact isSome_of_mem_take_kept h
    · simp at h

theorem truncateFile_append (file part : Bytes) :
    truncateFile file.length (file ++ part) = file := by
  rw [truncateFile, take_left, length_append]
  simp

/-- The loop writes the blocks that are kept, and nothing else stays in the file. -/
theorem appendLoop_eq (f : Fault) :
    ∀ (i : ℕ) (bs : List Block) (file : Bytes) (ret : List ℕ), (∀ b ∈ bs, b.Sized) →
      file.length + totalSize bs < 2 ^ 32 →
      appendLoop f i bs file file.length ret =
        (file ++ encode (bs.take (kept f i bs)), (file ++ encode (bs.take (kept f i bs))).length,
          if kept f i bs = bs.length then some (ret ++ offsetsFrom file.length bs) else none)
  | i, [], file, ret, _, _ => by
    simp [appendLoop, kept, offsetsFrom]
  | i, b :: bs, file, ret, hs, hfit => by
    rw [totalSize_cons] at hfit
    have htrunc : truncateFile file.length file = file := by
      have := truncateFile_append file []
      rwa [append_nil] at this
    rw [appendLoop, kept]
    cases hw : writeBlock b with
    | none => simp [htrunc]
    | some x =>
      cases hf : f.failsAt i with
      | some part => simp [truncateFile_append]
      | none =>
        dsimp only
        have hx : x.length = b.size := (Block.segment (hs b (.head _)) hw).length
        have hlen : (file ++ x).length = file.length + b.size := by rw [length_append, hx]
        have ih := appendLoop_eq f (i + 1) bs (file ++ x) (ret ++ [file.length])
          (fun c hc => hs c (.tail _ hc)) (by omega)
        have hmod : (file.length + b.size) % 2 ^ 32 = (file ++ x).length := by
          rw [hlen, Nat.mod_eq_of_lt (by omega)]
        rw [hmod, ih, offsetsFrom, ← hlen]
        simp only [isSome_some, true_and, if_true, take_succ_cons, encode_cons hw,
          append_assoc, length_cons, add_left_inj, singleton_append]

/-- **What an append does.**  It is refused and changes nothing, or it adds the blocks it keeps and
returns the offsets if these are all of them. -/
theorem Extent.appendBlocks_cases {e : Extent} {blocks : List Block} {c : ℕ} (f : Fault)
    (hlen : e.commitLength = e.file.length) (hs : ∀ b ∈ blocks, b.Sized)
    (hfit : c + totalSize blocks < 2 ^ 32) :
    (e.isSeal = true ∨ c ≠ e.commitLength) ∧ e.appendBlocks blocks (some c) f = (e, none) ∨
    e.isSeal = false ∧ c = e.commitLength ∧
      e.appendBlocks blocks (some c) f =
        ({ e with
            file := e.file ++ encode (blocks.take (kept f 0 blocks))
            synced :=
              if kept f 0 blocks = blocks.length then
                if f.sync then e.synced else (e.file ++ encode blocks).length
              else min e.synced (e.file ++ encode (blocks.take (kept f 0 blocks))).length
            commitLength := (e.file ++ encode (blocks.take (kept f 0 blocks))).length },
          if kept f 0 blocks = blocks.length then some (offsetsFrom c blocks) else none) := by
  unfold appendBlocks
  by_cases hseal : e.isSeal = true
  · exact Or.inl ⟨Or.inl hseal, by rw [if_pos hseal]⟩
  by_cases hc : c = e.commitLength
  · refine Or.inr ⟨by simpa using hseal, hc, ?_⟩
    have hloop := appendLoop_eq f 0 blocks e.file [] hs (by omega)
    rw [if_neg hseal, if_neg (by simp [hc]), hlen, hloop, hc, hlen]
    by_cases hk : kept f 0 blocks = blocks.length
    · simp [hk]
    · simp [hk]
  · exact Or.inl ⟨Or.inr hc, by rw [if_neg hseal, if_pos (by simp [hc])]⟩

/-- The number of blocks an `AppendBlocks` with `*lastCommit = c` keeps. -/
def Extent.keeps (e : Extent) (blocks : List Block) (c : ℕ) (f : Fault) : ℕ :=
  if e.isSeal ∨ c ≠ e.commitLength then 0 else kept f 0 blocks

theorem length_encode :
    ∀ {bs : List Block}, (∀ b ∈ bs, b.Sized ∧ ∃ x, writeBlock b = some x) →
      (encode bs).length = totalSize bs
  | [], _ => rfl
  | b :: bs, h => by
    obtain ⟨hs, x, hx⟩ := h b (.head _)
    rw [encode_cons hx, length_append, (Block.segment hs hx).length, totalSize_cons,
      length_encode fun c hc => h c (.tail _ hc)]

/-- What an append does to the file, told by the number of blocks it keeps. -/
structure Extent.Added (e : Extent) (blocks : List Block) (c : ℕ) (f : Fault) (e' : Extent)
    (r : Option (List ℕ)) : Prop where
  file : e'.file = e.file ++ encode (blocks.take (e.keeps blocks c f))
  commit : e'.commitLength = e'.file.length
  /-- Blocks are added only where the sender expects them. -/
  place : e.keeps blocks c f ≠ 0 → c = e.file.length
  ok : ∀ offsets, r = some offsets →
    offsets = offsetsFrom c blocks ∧ e'.file.length = c + totalSize blocks

theorem Extent.added {e : Extent} {blocks : List Block} {c : ℕ} (f : Fault)
    (hlen : e.commitLength = e.file.length) (hs : ∀ b ∈ blocks, b.Sized)
    (hfit : c + totalSize blocks < 2 ^ 32) :
    e.Added blocks c f (e.appendBlocks blocks (some c) f).1
      (e.appendBlocks blocks (some c) f).2 := by
  rcases Extent.appendBlocks_cases f hlen hs hfit with ⟨hno, heq⟩ | ⟨hseal, hc, heq⟩
  · have hk : e.keeps blocks c f = 0 := by rw [keeps, if_pos hno]
    rw [heq]
    refine ⟨?_, hlen, fun h => absurd hk h, fun offsets h => absurd h (by simp)⟩
    rw [hk, take_zero, encode_nil, append_nil]
  · have hk : e.keeps blocks c f = kept f 0 blocks := by
      rw [keeps, if_neg (by simp [hseal, hc])]
    rw [heq]
    refine ⟨by rw [hk], rfl, fun _ => hc.trans hlen, fun offsets h => ?_⟩
    simp only at h
    split_ifs at h with hall
    refine ⟨(some.inj h).symm, ?_⟩
    have hw : ∀ b ∈ blocks, b.Sized ∧ ∃ x, writeBlock b = some x := by
      intro b hb
      have hb' : b ∈ blocks.take (kept f 0 blocks) := by rwa [hall, take_length]
      exact ⟨hs b hb, isSome_of_mem_take_kept hb'⟩
    rw [hall, take_length, length_append, length_encode hw, hc, hlen]

end Autumn
