import Autumn.StreamClient.EntryRoundTrip

/-!
# Appends and seals that stop halfway

`AppendBlocks` and `Seal` change an extent in several places, and both can return an error after the
first change.

## 1.  A failing append

The closure that takes a failing append back truncates the file to `currentLength`, which the loop
has moved on with every block written.  So the blocks before the failing one stay
(`appendLoop_of_none`).  The extent is as before exactly if the request was refused before the loop,
or the length was that of the file and the blocks written are a multiple of `2 ^ 32` bytes long: for
a request of a sane size, the first block has failed (`failed_append_unchanged_iff`).

## 2.  A seal

`Seal` sets the flag, then compares the lengths, then truncates, then sets the attribute of the
file, and never touches `commitLength`.  It does what it should exactly if there is nothing to
truncate and the attribute can be set (`seal_exact_iff`).
-/

namespace Autumn

open Lib List

/-! ## 1.  A failing append -/

theorem length_truncateFile (n : ℕ) (file : Bytes) : (truncateFile n file).length = n := by
  rw [truncateFile, length_append, length_take, length_replicate]
  omega

/-- What the loop leaves when it fails: the blocks before the failing one, cut to the running
length. -/
theorem appendLoop_of_none {f : Fault} {i : ℕ} {bs : List Block} {file file' : Bytes} {len len' : ℕ}
    {ret : List ℕ} (hlen : len < 2 ^ 32)
    (h : appendLoop f i bs file len ret = (file', len', none)) :
    len' = (len + totalSize (bs.take (kept f i bs))) % 2 ^ 32 ∧
      ∃ part, file' = truncateFile len' (file ++ (encode (bs.take (kept f i bs)) ++ part)) := by
  fun_induction appendLoop f i bs file len ret with
  | case1 => simp at h
  | case2 i b bs file len ret hw =>
    obtain ⟨rfl, rfl⟩ : truncateFile len file = file' ∧ len = len' := by simpa using h
    simp only [kept, hw]
    exact ⟨by simpa using (Nat.mod_eq_of_lt hlen).symm, [], by simp⟩
  | case3 i b bs file len ret x part hf hw =>
    obtain ⟨rfl, rfl⟩ : truncateFile len (file ++ part) = file' ∧ len = len' := by simpa using h
    simp only [kept, hf]
    exact ⟨by simpa using (Nat.mod_eq_of_lt hlen).symm, part, by simp⟩
  | case4 i b bs file len ret x hf hw ih =>
    obtain ⟨hlen', part, rfl⟩ := ih (Nat.mod_lt _ (by decide)) h
    simp only [kept, hf, hw, Option.isSome_some, true_and, if_true, take_succ_cons, totalSize_cons,
      encode_cons hw, append_assoc]
    exact ⟨by omega, part, rfl⟩

/-- **A failing append.**  Commit length and file are as before exactly if the request was refused
before anything was written, or the commit length was that of the file and the blocks in front of
the failing one have a length that is zero as a 32-bit number. -/
theorem failed_append_unchanged_iff (e : Extent) (blocks : List Block) (lastCommit : Option ℕ)
    (f : Fault) (hlen : e.commitLength < 2 ^ 32)
    (hfail : (e.appendBlocks blocks lastCommit f).2 = none) :
    ((e.appendBlocks blocks lastCommit f).1.commitLength = e.commitLength ∧
      (e.appendBlocks blocks lastCommit f).1.file = e.file) ↔
    e.isSeal = true ∨ (∃ c, lastCommit = some c ∧ c ≠ e.commitLength) ∨
      e.commitLength = e.file.length ∧
        totalSize (blocks.take (kept f 0 blocks)) % 2 ^ 32 = 0 := by
  unfold Extent.appendBlocks at hfail ⊢
  by_cases hseal : e.isSeal = true
  · simp [hseal]
  rw [if_neg hseal] at hfail ⊢
  by_cases hc : lastCommit.any (fun c => c != e.commitLength) = true
  · rw [if_pos hc]
    obtain ⟨c, hlc, hne⟩ : ∃ c, lastCommit = some c ∧ c ≠ e.commitLength := by
      simpa [Option.any_eq_true] using hc
    exact ⟨fun _ => Or.inr (Or.inl ⟨c, hlc, hne⟩), fun _ => ⟨rfl, rfl⟩⟩
  have hmatch : ¬ ∃ c, lastCommit = some c ∧ c ≠ e.commitLength := by
    rintro ⟨c, rfl, hne⟩
    exact hc (by simp [hne])
  rw [if_neg hc] at hfail ⊢
  obtain ⟨file', len', r, hloop⟩ : ∃ file' len' r,
      appendLoop f 0 blocks e.file e.commitLength [] = (file', len', r) := ⟨_, _, _, rfl⟩
  rw [hloop] at hfail ⊢
  cases r with
  | some ret => cases hfail
  | none =>
    obtain ⟨hlen', part, hfile'⟩ := appendLoop_of_none hlen hloop
    simp only [hseal, hmatch, Bool.false_eq_true, false_or]
    constructor
    · rintro ⟨hsame, hfile⟩
      refine ⟨?_, by omega⟩
      rw [← hfile, hfile', length_truncateFile, hsame]
    · rintro ⟨hcommit, hzero⟩
      have hsame : len' = e.commitLength := by omega
      refine ⟨hsame, ?_⟩
      rw [hfile', hsame, hcommit, truncateFile_append]

/-- A request that is refused because its only block is misaligned. -/
theorem failed_append_unchanged_iff_misaligned :
    ((createExtent 1).appendBlocks [⟨1, 3, [], []⟩] none .none).2 = none ∧
      ((createExtent 1).appendBlocks [⟨1, 3, [], []⟩] none .none).1.commitLength =
        (createExtent 1).commitLength ∧
      ((createExtent 1).appendBlocks [⟨1, 3, [], []⟩] none .none).1.file =
        (createExtent 1).file := by
  have hfail : ((createExtent 1).appendBlocks [⟨1, 3, [], []⟩] none .none).2 = none := by
    decide +kernel
  refine ⟨hfail, (failed_append_unchanged_iff _ _ none .none (by decide +kernel) hfail).mpr ?_⟩
  exact Or.inr (Or.inr (by decide +kernel))

/-- **Half an append stays.**  Of two blocks the second one is misaligned.  The request is refused,
and its first block is in the file, counted in the commit length, and read. -/
theorem failed_append_keeps_block :
    ((createExtent 1).appendBlocks [filled 7 [], ⟨1, 3, [], []⟩] none .none).2 = none ∧
      (createExtent 1).commitLength = 512 ∧
      ((createExtent 1).appendBlocks [filled 7 [], ⟨1, 3, [], []⟩] none .none).1.commitLength =
        1536 ∧
      ((createExtent 1).appendBlocks [filled 7 [], ⟨1, 3, [], []⟩] none .none).1.file ≠
        (createExtent 1).file ∧
      ((createExtent 1).appendBlocks [filled 7 [], ⟨1, 3, [], []⟩] none .none).1.readBlocks
        512 1 4096 =
        .ok ([filled 7 []], .full) := by
  decide +kernel

/-! ## 2.  A seal -/

namespace Extent

/-- `Seal`, of which the truncation may fail as well; nobody looks at that error. -/
def sealWith (e : Extent) (commit : ℕ) (truncateFails setAttrFails : Bool) : Extent × Bool :=
  let e := { e with isSeal := true }
  if e.commitLength < commit then (e, false)
  else
    let e := if commit < e.commitLength ∧ truncateFails = false then
      { e with file := truncateFile commit e.file, synced := min e.synced commit } else e
    if setAttrFails then (e, false) else ({ e with sealAttr := true }, true)

/-- The extents that come from `CreateExtent` and calls of `AppendBlocks`. -/
inductive Reached : Extent → Prop where
  | create (id : ℕ) : Reached (createExtent id)
  | append {e : Extent} (h : Reached e) (blocks : List Block) (lastCommit : Option ℕ) (f : Fault) :
      Reached (e.appendBlocks blocks lastCommit f).1

theorem appendLoop_lt {f : Fault} {i : ℕ} {bs : List Block} {file : Bytes} {len : ℕ} {ret : List ℕ}
    (hlen : len < 2 ^ 32) : (appendLoop f i bs file len ret).2.1 < 2 ^ 32 := by
  induction bs generalizing i file len ret with
  | nil => exact hlen
  | cons b bs ih =>
    rw [appendLoop]
    split
    · exact hlen
    · exact hlen
    · exact ih (Nat.mod_lt _ (by decide))

theorem appendBlocks_fst (e : Extent) (blocks : List Block) (lastCommit : Option ℕ) (f : Fault) :
    (e.appendBlocks blocks lastCommit f).1.isSeal = e.isSeal ∧
      ((e.appendBlocks blocks lastCommit f).1.commitLength = e.commitLength ∨
        (e.appendBlocks blocks lastCommit f).1.commitLength =
          (appendLoop f 0 blocks e.file e.commitLength []).2.1) := by
  unfold appendBlocks
  by_cases hseal : e.isSeal = true
  · rw [if_pos hseal]
    exact ⟨rfl, Or.inl rfl⟩
  by_cases hc : lastCommit.any (fun c => c != e.commitLength) = true
  · rw [if_neg hseal, if_pos hc]
    exact ⟨rfl, Or.inl rfl⟩
  rw [if_neg hseal, if_neg hc]
  rcases appendLoop f 0 blocks e.file e.commitLength [] with ⟨file, len, - | ret⟩
  · exact ⟨rfl, Or.inr rfl⟩
  · exact ⟨rfl, Or.inr rfl⟩

variable {e : Extent}

theorem Reached.unsealed (h : e.Reached) : e.isSeal = false := by
  induction h with
  | create id => rfl
  | append _ blocks lastCommit f ih => exact (appendBlocks_fst _ blocks lastCommit f).1.trans ih

theorem Reached.small (h : e.Reached) : e.commitLength < 2 ^ 32 := by
  induction h with
  | create id => exact (by decide : 512 < 2 ^ 32)
  | append _ blocks lastCommit f ih =>
    rcases (appendBlocks_fst _ blocks lastCommit f).2 with hlen | hlen
    · rwa [hlen]
    · rw [hlen]
      exact appendLoop_lt ih

/-- What a seal that returned without an error should have done to the extent. -/
structure SealedAt (e : Extent) (commit : ℕ) : Prop where
  commitLength : e.commitLength = commit
  length : e.file.length = commit
  /-- Appends are rejected. -/
  append : ∀ blocks lastCommit f, e.appendBlocks blocks lastCommit f = (e, none)
  /-- Reads behind the end report it. -/
  blocks : ∀ offset, commit ≤ offset → ∀ n m, e.readBlocks offset n m = .ok ([], .endOfExtent)
  entries : ∀ offset, commit ≤ offset → ∀ C id fuel m replay,
    Pb.readEntries C e id fuel offset m replay = some (.ok ([], 0, .endOfExtent))
  /-- The file is opened again with the same length and content. -/
  reopen : ∃ e', openExtent e.file e.synced e.sealAttr = some e' ∧
    e'.commitLength = e.commitLength ∧ e'.file = e.file

/-- The extent `e` after a seal with its result: sealed at `commit`, or as before. -/
structure SealExact (e : Extent) (commit : ℕ) (r : Extent × Bool) : Prop where
  ok : r.2 = true → r.1.SealedAt commit
  error : r.2 = false →
    r.1.isSeal = e.isSeal ∧ r.1.commitLength = e.commitLength ∧ r.1.file = e.file

/-- **A seal with nothing to truncate** leaves the extent sealed at its length. -/
theorem sealedAt_commitLength (hsmall : e.commitLength < 2 ^ 32)
    (hlen : e.commitLength = e.file.length) (hok : headerOk e.file = true) :
    ({ e with isSeal := true, sealAttr := true } : Extent).SealedAt e.commitLength := by
  have h512 : 512 ≤ e.file.length := by
    unfold headerOk at hok
    simp only [Bool.and_eq_true, decide_eq_true_eq] at hok
    exact hok.1
  refine ⟨rfl, hlen.symm, fun blocks lastCommit f => ?_, fun offset ho n m => ?_,
    fun offset ho C id fuel m replay => ?_, ?_⟩
  · rw [appendBlocks, if_pos rfl]
  · rw [readBlocks, if_pos ho]
    rfl
  · rw [Pb.readEntries, if_neg (by omega), if_pos ho]
    rfl
  · refine ⟨⟨e.file, e.synced, e.file.length, true, true⟩, ?_, hlen.symm, rfl⟩
    show openExtent e.file e.synced true = _
    rw [openExtent, if_pos rfl, if_neg (by omega), if_neg (by simp [hok])]

/-- **When a seal is exact.**  For an extent that has only seen appends: if and only if it is called
with the commit length, this is the length of a file with its header, and the attribute can be
set. -/
theorem seal_exact_iff {e : Extent} (h : e.Reached) (commit : ℕ)
    (truncateFails setAttrFails : Bool) :
    e.SealExact commit (e.sealWith commit truncateFails setAttrFails) ↔
      commit = e.commitLength ∧ e.commitLength = e.file.length ∧ headerOk e.file = true ∧
        setAttrFails = false := by
  constructor
  · intro hex
    -- an error is never harmless, since the flag is set first
    have hok : (e.sealWith commit truncateFails setAttrFails).2 = true := by
      by_contra hne
      have hflag := (hex.error (by simpa using hne)).1
      rw [h.unsealed] at hflag
      have hset : (e.sealWith commit truncateFails setAttrFails).1.isSeal = true := by
        unfold sealWith
        dsimp only
        split_ifs <;> rfl
      cases hset.symm.trans hflag
    have hs := hex.ok hok
    unfold sealWith at hok hs
    dsimp only at hok hs
    by_cases hlt : e.commitLength < commit
    · rw [if_pos hlt] at hok
      cases hok
    rw [if_neg hlt] at hok hs
    have hattr : setAttrFails = false := by
      by_contra hne
      rw [if_pos (by simpa using hne)] at hok
      cases hok
    rw [hattr, if_neg (by simp)] at hs
    have hcommit : commit = e.commitLength := by
      have hc := hs.commitLength
      split_ifs at hc <;> exact hc.symm
    subst hcommit
    rw [if_neg (by simp)] at hs
    refine ⟨rfl, hs.length.symm, ?_, hattr⟩
    obtain ⟨e', hopen, -, -⟩ := hs.reopen
    by_contra hhead
    dsimp only at hopen
    rw [openExtent, if_pos rfl] at hopen
    simp [hhead] at hopen
  · rintro ⟨rfl, hlen, hhead, rfl⟩
    have hseal : e.sealWith e.commitLength truncateFails false =
        ({ e with isSeal := true, sealAttr := true }, true) := by
      simp [sealWith]
    rw [hseal]
    exact ⟨fun _ => sealedAt_commitLength h.small hlen hhead, fun hf => absurd hf (by simp)⟩

/-- An extent with one block. -/
def oneBlock : Extent := ((createExtent 1).appendBlocks [filled 7 []] none .none).1

theorem seal_exact_iff_oneBlock :
    oneBlock.Reached ∧ oneBlock.SealExact 1536 (oneBlock.sealWith 1536 false false) := by
  have h : oneBlock.Reached := (Reached.create 1).append _ none .none
  exact ⟨h, (seal_exact_iff h 1536 false false).mpr (by decide +kernel)⟩

/-- **Seals that are not exact.**  A commit that is too large is refused, and the extent takes no
more blocks.  A smaller one succeeds and leaves the commit length of 1536 above the end of the file
at 512.  If the attribute cannot be set there is an error, and the block is gone. -/
theorem seal_not_exact :
    oneBlock.isSeal = false ∧ oneBlock.commitLength = 1536 ∧ oneBlock.file.length = 1536 ∧
    ((oneBlock.sealWith 2048 false false).2 = false ∧
      (oneBlock.sealWith 2048 false false).1.isSeal = true ∧
      ((oneBlock.sealWith 2048 false false).1.appendBlocks [filled 8 []] none .none).2 = none) ∧
    ((oneBlock.sealWith 512 false false).2 = true ∧
      (oneBlock.sealWith 512 false false).1.commitLength = 1536 ∧
      (oneBlock.sealWith 512 false false).1.file.length = 512 ∧
      (openExtent (oneBlock.sealWith 512 false false).1.file 512 true).any
        (fun e => e.commitLength == 512) = true) ∧
    (oneBlock.sealWith 512 false true).2 = false ∧
      (oneBlock.sealWith 512 false true).1.isSeal = true ∧
      (oneBlock.sealWith 512 false true).1.file.length = 512 := by
  decide +kernel

end Extent

end Autumn
