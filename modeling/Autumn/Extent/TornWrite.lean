import Autumn.Extent.RoundTrip
import Autumn.Extent.Durable

/-!
# Opening a file that was cut off

A crash can leave any beginning of the file of an extent.  `OpenExtent` truncates it where a block
cannot be read, so it has to find the greatest block boundary: whole blocks are segments, which it
walks over (`scan_segments`), and of a block that is not whole it reads too few bytes for the
header, or a header that asks for more data than there is (`readBlock_of_lt`).
-/

namespace Autumn

open Lib List Option

/-! ## Whole blocks -/

/-- How many of the blocks fit into `n` bytes. -/
def wholeBlocks : ℕ → List Block → ℕ
  | _, [] => 0
  | n, b :: bs => if b.size ≤ n then wholeBlocks (n - b.size) bs + 1 else 0

theorem wholeBlocks_le (n : ℕ) (bs : List Block) : wholeBlocks n bs ≤ bs.length := by
  induction bs generalizing n with
  | nil => exact le_rfl
  | cons b bs ih =>
    rw [wholeBlocks, length_cons]
    split_ifs
    · exact Nat.succ_le_succ (ih _)
    · exact Nat.zero_le _

theorem totalSize_wholeBlocks (n : ℕ) (bs : List Block) :
    totalSize (bs.take (wholeBlocks n bs)) ≤ n := by
  induction bs generalizing n with
  | nil => simp [wholeBlocks]
  | cons b bs ih =>
    rw [wholeBlocks]
    split_ifs with h
    · have := ih (n - b.size)
      rw [take_succ_cons, totalSize_cons]
      omega
    · simp

variable {bs : List Block}

theorem le_wholeBlocks {n k : ℕ} (hk : k ≤ bs.length) (h : totalSize (bs.take k) ≤ n) :
    k ≤ wholeBlocks n bs := by
  induction bs generalizing n k with
  | nil => exact hk
  | cons b bs ih =>
    cases k with
    | zero => exact Nat.zero_le _
    | succ k =>
      rw [take_succ_cons, totalSize_cons] at h
      rw [wholeBlocks, if_pos (by omega)]
      exact Nat.succ_le_succ (ih (by simpa using hk) (by omega))

/-- The beginning of written blocks is the whole ones and a part of the next. -/
theorem take_encode {n : ℕ} (hw : ∀ b ∈ bs, b.Written) :
    ∃ r, (encode bs).take n = encode (bs.take (wholeBlocks n bs)) ++ r ∧
      (r = [] ∨ ∃ b x, b.Sized ∧ writeBlock b = some x ∧ r <+: x ∧ r.length < x.length) := by
  induction bs generalizing n with
  | nil => exact ⟨[], by simp [wholeBlocks], .inl rfl⟩
  | cons b bs ih =>
    obtain ⟨hs, x, hx⟩ := hw b (.head _)
    have hlen := (Block.segment hs hx).length
    rw [encode_cons hx, wholeBlocks]
    split_ifs with h
    · obtain ⟨r, hr, hpart⟩ := ih (n := n - b.size) fun c hc => hw c (.tail _ hc)
      refine ⟨r, ?_, hpart⟩
      rw [take_append, hlen, hr, take_of_length_le (by omega), take_succ_cons,
        encode_cons hx, append_assoc]
    · refine ⟨x.take n, ?_, .inr ⟨b, x, hs, hx, take_prefix n x, ?_⟩⟩
      · rw [take_append_of_le_length (by omega)]
        rfl
      · rw [length_take]
        omega

/-! ## A block that is not whole -/

/-- A beginning of a written block is not read: the header is too short, or the data. -/
theorem readBlock_of_lt {b : Block} {x r : Bytes} (hs : b.Sized) (hx : writeBlock b = some x)
    (hr : r <+: x) (hlt : r.length < x.length) (hne : r ≠ []) : readBlock r = .error .failed := by
  have hseg := Block.segment hs hx
  have hread := hseg.read []
  rw [append_nil] at hread
  obtain ⟨-, hd, hhd, hle, -, -, hb⟩ := readBlock_eq_ok hread
  have hlen : x.length = 512 + hd.blockLength := by
    have h1 := hseg.length
    rw [hb, Block.size, UInt32.toNat_ofNat'] at h1
    rw [length_drop] at hle
    omega
  rw [readBlock, if_neg hne]
  by_cases hshort : r.length < 512
  · rw [if_pos hshort]
  · have htake : r.take 512 = x.take 512 := by
      obtain ⟨t, rfl⟩ := hr
      rw [take_append_of_le_length (by omega)]
    have hdata : ((r.drop 512).take hd.blockLength).length < hd.blockLength := by
      rw [length_take, length_drop]
      omega
    rw [if_neg hshort, htake, hhd]
    dsimp only
    rw [if_pos hdata]

/-! ## Opening -/

theorem length_extentHeader (id : ℕ) : (extentHeader id).length = 512 := by
  rw [extentHeader, length_sector (by simp [extentMagicNumber])]

/-- The identifier `extentHeader.Unmarshal` takes from the file. -/
def headerID (file : Bytes) : ℕ := beVal ((file.drop 8).take 8)

theorem headerID_append {id : ℕ} (hid : id < 2 ^ 64) (rest : Bytes) :
    headerID (extentHeader id ++ rest) = id := by
  have hmagic : extentMagicNumber.length = 8 := rfl
  have hdrop : ((extentHeader id ++ rest).drop 8).take 8 = beBytes 8 id := by
    rw [extentHeader, sector, append_assoc, append_assoc, drop_left' hmagic,
      take_left' (length_beBytes 8 id)]
  rw [headerID, hdrop, beVal_beBytes_of_lt (by omega)]

theorem headerOk_append (id : ℕ) (rest : Bytes) : headerOk (extentHeader id ++ rest) = true := by
  have hmagic : (extentHeader id ++ rest).take 8 = extentMagicNumber := by
    rw [extentHeader, sector, append_assoc, append_assoc]
    exact take_left' rfl
  rw [headerOk, hmagic, length_append, length_extentHeader]
  simp

/-- **The scan of a file that was cut off** ends behind the whole blocks. -/
theorem openExtent_take {id c : ℕ} (synced : ℕ) (hw : ∀ b ∈ bs, b.Written) (h512 : 512 ≤ c)
    (hsmall : c < 2 ^ 32) (hc : c ≤ (extentHeader id ++ encode bs).length) :
    ∃ s, openExtent ((extentHeader id ++ encode bs).take c) synced false =
      some ⟨extentHeader id ++ encode (bs.take (wholeBlocks (c - 512) bs)), s,
        512 + totalSize (bs.take (wholeBlocks (c - 512) bs)), false, false⟩ := by
  obtain ⟨r, hr, hpart⟩ := take_encode (n := c - 512) hw
  set whole := bs.take (wholeBlocks (c - 512) bs) with hwhole
  have hww : ∀ b ∈ whole, b.Written := fun b hb => hw b (mem_of_mem_take hb)
  have hhead := length_extentHeader id
  have hfile : (extentHeader id ++ encode bs).take c = extentHeader id ++ (encode whole ++ r) := by
    rw [take_append, hhead, hr, take_of_length_le (by omega)]
  have hlen : 512 + (encode whole ++ r).length = c := by
    have h := congrArg length hfile
    rw [length_take, Nat.min_eq_left hc, length_append, hhead] at h
    exact h.symm
  have hlen' : (extentHeader id ++ (encode whole ++ r)).length = c := by
    rw [length_append, hhead]
    exact hlen
  have hsegs := segments_of_blocks hww
  have hflat := flatten_map_writeBlock whole
  set ss := whole.map fun b => (writeBlock b).getD [] with hss
  obtain ⟨m, hm, hscan⟩ := scan_segments hsmall (o := 512) (n := c + 1) (r := r) hsegs
    (by rw [hflat]; exact hlen) (by rw [hflat]; omega)
  rw [hflat, length_encode hww] at hscan
  have hmod : c % 2 ^ 32 = c := Nat.mod_eq_of_lt hsmall
  rw [hfile, openExtent, if_neg Bool.false_ne_true, headerOk_append, if_neg (by simp), hlen', hmod,
    drop_left' hhead, hscan]
  rw [length_append, length_encode hww] at hlen
  cases m with
  | zero => exact absurd hm (Nat.not_lt_zero _)
  | succ m =>
    by_cases hnil : r = []
    · subst hnil
      refine ⟨synced, ?_⟩
      rw [scan, if_pos (by rw [length_nil] at hlen; omega), append_nil]
    · obtain hnil' | ⟨b, x, hs, hx, hle, hlt⟩ := hpart
      · exact absurd hnil' hnil
      have hpos : 0 < r.length := length_pos_iff.mpr hnil
      refine ⟨512 + totalSize whole, ?_⟩
      rw [scan, if_neg (by omega), readBlock_of_lt hs hx hle hlt hnil]
      have htrunc : truncateFile (512 + totalSize whole) (extentHeader id ++ (encode whole ++ r)) =
          extentHeader id ++ encode whole := by
        have hl : (extentHeader id ++ encode whole).length = 512 + totalSize whole := by
          rw [length_append, hhead, length_encode hww]
        rw [← hl, ← append_assoc, truncateFile_append]
      dsimp only
      rw [htrunc]

/-! ## Calls and answers -/

/-- A call on an open extent. -/
inductive BlockCall where
  | append (a : Append)
  | read (offset maxNumOfBlocks maxTotalSize : ℕ)

/-- What it returns. -/
inductive BlockReply where
  | offsets (r : Option (List ℕ))
  | blocks (r : Except BlockError (List Block × Extent.ReadEnd))

/-- One call. -/
def Extent.reply (e : Extent) : BlockCall → Extent × BlockReply
  | .append a =>
    let x := e.appendBlocks a.blocks a.lastCommit a.fault
    (x.1, .offsets x.2)
  | .read o n m => (e, .blocks (e.readBlocks o n m))

/-- What the extent answers to the calls, one after the other. -/
def answers : Extent → List BlockCall → List BlockReply
  | _, [] => []
  | e, c :: cs => (e.reply c).2 :: answers (e.reply c).1 cs

/-- Two extents that differ at most in what of the file is synced. -/
structure Extent.Alike (e e' : Extent) : Prop where
  file : e.file = e'.file
  commitLength : e.commitLength = e'.commitLength
  isSeal : e.isSeal = e'.isSeal

variable {e e' : Extent}

theorem Extent.Alike.reply (h : e.Alike e') (c : BlockCall) :
    (e.reply c).2 = (e'.reply c).2 ∧ (e.reply c).1.Alike (e'.reply c).1 := by
  obtain ⟨hfile, hcommit, hseal⟩ := h
  cases c with
  | append a =>
    simp only [Extent.reply, appendBlocks, hfile, hcommit, hseal]
    by_cases h1 : e'.isSeal = true
    · rw [if_pos h1, if_pos h1]
      exact ⟨rfl, hfile, hcommit, hseal⟩
    by_cases h2 : a.lastCommit.any (fun c => c != e'.commitLength) = true
    · rw [if_neg h1, if_pos h2, if_neg h1, if_pos h2]
      exact ⟨rfl, hfile, hcommit, hseal⟩
    rw [if_neg h1, if_neg h2, if_neg h1, if_neg h2]
    generalize appendLoop a.fault 0 a.blocks e'.file e'.commitLength [] = x
    obtain ⟨file, len, r⟩ := x
    cases r with
    | none | some ret => exact ⟨rfl, rfl, rfl, rfl⟩
  | read o n m =>
    refine ⟨?_, hfile, hcommit, hseal⟩
    have hend : e.readEnd = e'.readEnd := by rw [readEnd, readEnd, hseal]
    have hloop : ∀ n o size ret,
        e.readBlocksLoop m n o size ret = e'.readBlocksLoop m n o size ret := by
      intro n
      induction n with
      | zero => intros; rfl
      | succ n ih =>
        intro o size ret
        simp only [readBlocksLoop, hfile, hend, ih]
    simp only [Extent.reply, readBlocks, hcommit, hend, hloop]

theorem answers_congr (h : e.Alike e') (cs : List BlockCall) : answers e cs = answers e' cs := by
  induction cs generalizing e e' with
  | nil => rfl
  | cons c cs ih =>
    obtain ⟨hr, hnext⟩ := h.reply c
    rw [answers, answers, hr, ih hnext]

/-! ## Recovery -/

/-- The file of a successful append, whatever becomes of the 32-bit length. -/
theorem file_of_appendLoop {f : Fault} {i len len' : ℕ} {file file' : Bytes} {ret ret' : List ℕ}
    (h : appendLoop f i bs file len ret = (file', len', some ret')) :
    file' = file ++ encode bs ∧ ∀ b ∈ bs, ∃ x, writeBlock b = some x := by
  induction bs generalizing i len file ret with
  | nil =>
    simp only [appendLoop, Prod.mk.injEq] at h
    exact ⟨by rw [← h.1, encode_nil, append_nil], by simp⟩
  | cons b bs ih =>
    rw [appendLoop] at h
    cases hx : writeBlock b with
    | none => simp [hx] at h
    | some x =>
      cases hf : f.failsAt i with
      | some part => simp [hx, hf] at h
      | none =>
        simp only [hx, hf] at h
        obtain ⟨hfile, hw⟩ := ih h
        refine ⟨by rw [hfile, encode_cons hx, append_assoc], fun c hc => ?_⟩
        obtain rfl | hc := mem_cons.mp hc
        · exact ⟨x, hx⟩
        · exact hw c hc

theorem file_of_appendRun {as : List Append} {offsets : List ℕ}
    (h : appendRun e as = some (e', offsets)) :
    e'.file = e.file ++ encode (appended as) ∧ ∀ b ∈ appended as, ∃ x, writeBlock b = some x := by
  induction as generalizing e offsets with
  | nil =>
    cases h
    simp [appended]
  | cons a as ih =>
    have hcons : appended (a :: as) = a.blocks ++ appended as := flatMap_cons
    unfold appendRun at h
    split at h
    · cases h
    · rename_i e₁ offsets₁ happ
      obtain ⟨⟨e₂, offsets₂⟩, hrest, heq⟩ := map_eq_some_iff.mp h
      cases heq
      have hfirst : e₁.file = e.file ++ encode a.blocks ∧
          ∀ b ∈ a.blocks, ∃ x, writeBlock b = some x := by
        unfold Extent.appendBlocks at happ
        by_cases hseal : e.isSeal = true
        · rw [if_pos hseal] at happ
          cases congrArg Prod.snd happ
        by_cases hlast : a.lastCommit.any (fun c => c != e.commitLength) = true
        · rw [if_neg hseal, if_pos hlast] at happ
          cases congrArg Prod.snd happ
        rw [if_neg hseal, if_neg hlast] at happ
        split at happ
        · cases congrArg Prod.snd happ
        · rename_i file len ret hloop
          cases happ
          exact file_of_appendLoop hloop
      obtain ⟨hfile, hw⟩ := ih hrest
      refine ⟨by rw [hfile, hfirst.1, hcons, encode_append, append_assoc], fun b hb => ?_⟩
      rw [hcons] at hb
      exact (mem_append.mp hb).elim (hfirst.2 b) (hw b)

/-- **Recovery from a torn write.**  Of the file of a new extent with appended blocks the first `c`
bytes are left.  `OpenExtent` ends the file at the greatest block boundary below `c`, and the extent
answers all later calls like one that has only ever received the blocks before the boundary. -/
theorem torn_write_recovery {id c : ℕ} {as : List Append} {e : Extent} {offsets : List ℕ}
    (h : appendRun (createExtent id) as = some (e, offsets)) (hid : id < 2 ^ 64)
    (hs : ∀ b ∈ appended as, b.Sized) (h512 : 512 ≤ c) (hc : c ≤ e.file.length)
    (hsmall : c < 2 ^ 32) (synced : ℕ) :
    ∃ e' k, openExtent (e.file.take c) synced false = some e' ∧ headerID (e.file.take c) = id ∧
      e'.isSeal = false ∧ e'.commitLength = e'.file.length ∧
      e'.file.length = 512 + totalSize ((appended as).take k) ∧ k ≤ (appended as).length ∧
      e'.file.length ≤ c ∧
      (∀ j ≤ (appended as).length, 512 + totalSize ((appended as).take j) ≤ c →
        512 + totalSize ((appended as).take j) ≤ e'.file.length) ∧
      ∀ as₀ e₀ offsets₀, appendRun (createExtent id) as₀ = some (e₀, offsets₀) →
        appended as₀ = (appended as).take k → ∀ cs, answers e' cs = answers e₀ cs := by
  obtain ⟨hfile, hx⟩ := file_of_appendRun h
  have hw : ∀ b ∈ appended as, b.Written := fun b hb => ⟨hs b hb, hx b hb⟩
  have hhead := length_extentHeader id
  change e.file = extentHeader id ++ encode (appended as) at hfile
  rw [hfile] at hc ⊢
  obtain ⟨s, hopen⟩ := openExtent_take synced hw h512 hsmall hc
  set k := wholeBlocks (c - 512) (appended as) with hk
  have hww : ∀ b ∈ (appended as).take k, b.Written := fun b hb => hw b (mem_of_mem_take hb)
  have hfit : 512 + totalSize ((appended as).take k) ≤ c := by
    have := totalSize_wholeBlocks (c - 512) (appended as)
    rw [← hk] at this
    omega
  have hlen : (extentHeader id ++ encode ((appended as).take k)).length =
      512 + totalSize ((appended as).take k) := by
    rw [length_append, hhead, length_encode hww]
  refine ⟨_, k, hopen, ?_, rfl, hlen.symm, hlen, wholeBlocks_le _ _, hlen.trans_le hfit, ?_, ?_⟩
  · rw [take_append, hhead, take_of_length_le (by omega)]
    exact headerID_append hid _
  · intro j hj hle
    have hjk : j ≤ k := le_wholeBlocks hj (by omega)
    have hmono := totalSize_take_le j ((appended as).take k)
    rw [take_take, Nat.min_eq_left hjk] at hmono
    exact (Nat.add_le_add_left hmono 512).trans hlen.ge
  · intro as₀ e₀ offsets₀ h₀ heq cs
    have hs₀ : ∀ b ∈ appended as₀, b.Sized := fun b hb => (hww b (heq ▸ hb)).1
    have hfit₀ : (createExtent id).file.length + totalSize (appended as₀) < 2 ^ 32 := by
      show (extentHeader id).length + totalSize (appended as₀) < 2 ^ 32
      rw [hhead, heq]
      exact hfit.trans_lt hsmall
    obtain ⟨hfile₀, hcommit₀, hseal₀, -⟩ := file_eq_of_appendRun hhead.symm hs₀ hfit₀ h₀
    change e₀.file = extentHeader id ++ encode (appended as₀) at hfile₀
    change e₀.isSeal = false at hseal₀
    rw [heq] at hfile₀
    refine answers_congr ⟨hfile₀.symm, ?_, hseal₀.symm⟩ cs
    rw [hcommit₀, hfile₀]
    exact hlen.symm

/-- The file of two appends, cut in the data of the second block. -/
theorem torn_write_recovery_secondBlock :
    ∃ e offsets, (appendRun (createExtent 5) twoAppends = some (e, offsets) ∧
      2100 ≤ e.file.length) ∧
      ∃ e', openExtent (e.file.take 2100) 2100 false = some e' ∧ e'.commitLength = 1536 ∧
        headerID (e.file.take 2100) = 5 ∧ e'.commitLength = e'.file.length ∧
        ∀ e₀ offsets₀, appendRun (createExtent 5) [⟨[filled 1 []], none, .none⟩] =
          some (e₀, offsets₀) →
          ∀ cs, answers e' cs = answers e₀ cs := by
  obtain ⟨⟨e, offsets⟩, he, hc⟩ : ∃ x ∈ appendRun (createExtent 5) twoAppends,
      2100 ≤ x.1.file.length := by decide +kernel
  have hs : ∀ b ∈ appended twoAppends, b.Sized := by decide +kernel
  refine ⟨e, offsets, ⟨he, hc⟩, ?_⟩
  obtain ⟨e', k, hopen, hid, -, hcommit, hfile, hk, hle, hgreatest, hans⟩ :=
    torn_write_recovery he (by decide) hs (by decide : 512 ≤ 2100) hc (by decide) 2100
  -- The boundary is behind the first block: the second one ends at 2560.
  have hk1 : k = 1 := by
    have h1 := hgreatest 1 (by decide +kernel) (by decide +kernel)
    have hsizes : ∀ j ≤ 3, (j = 0 → totalSize ((appended twoAppends).take j) = 0) ∧
        (2 ≤ j → 2048 ≤ totalSize ((appended twoAppends).take j)) := by decide +kernel
    have hone : totalSize ((appended twoAppends).take 1) = 1024 := by decide +kernel
    have hk3 : k ≤ 3 := hk
    obtain ⟨h0, h2⟩ := hsizes k hk3
    rw [hfile] at hle h1
    by_contra hne
    omega
  subst hk1
  have hone : totalSize ((appended twoAppends).take 1) = 1024 := by decide +kernel
  refine ⟨e', hopen, by omega, hid, hcommit, fun e₀ offsets₀ h₀ => hans _ e₀ offsets₀ h₀ ?_⟩
  decide +kernel

/-! ## Four gigabytes -/

/-- **A length of more than 32 bits.**  One block of almost four gigabytes brings the file to
`2 ^ 32 + 512` bytes.  `OpenExtent` takes the length for 512 and does not look at the block. -/
theorem fourGiB_not_recovered :
    ∃ b e offsets e', b.Sized ∧
      appendRun (createExtent 5) [⟨[b], none, .none⟩] = some (e, offsets) ∧
      e.file.length = 2 ^ 32 + 512 ∧
      openExtent (e.file.take e.file.length) e.file.length false = some e' ∧
      e'.commitLength = 512 ∧ e'.file.length = 2 ^ 32 + 512 := by
  obtain ⟨data, hdata⟩ : ∃ data : Bytes, data.length = 2 ^ 32 - 512 :=
    ⟨replicate (2 ^ 32 - 512) 0, length_replicate⟩
  obtain ⟨b, hb⟩ : ∃ b : Block, b = ⟨adlerCheckSum data, UInt32.ofNat (2 ^ 32 - 512), [], data⟩ :=
    ⟨_, rfl⟩
  have hbl : b.blockLength.toNat = 2 ^ 32 - 512 := by
    rw [hb, UInt32.toNat_ofNat']
    norm_num
  have hs : b.Sized := by
    rw [Block.Sized, hbl, hb]
    exact hdata
  have hck : b.checkSum = adlerCheckSum b.data := by rw [hb]
  have hal : align b.blockLength.toNat = true := by
    rw [hbl]
    decide
  obtain ⟨x, hx⟩ : ∃ x, writeBlock b = some x := by
    refine isSome_iff_exists.mp ?_
    rw [writeBlock, hal, if_neg (by simp), if_neg (not_not.mpr hck), if_pos (by rw [hb]),
      isSome_some]
  have hlen : x.length = 2 ^ 32 := by
    rw [(Block.segment hs hx).length, Block.size, hbl]
    norm_num
  have hfile : (extentHeader 5 ++ x).length = 2 ^ 32 + 512 := by
    rw [length_append, length_extentHeader, hlen, Nat.add_comm]
  refine ⟨b, ⟨extentHeader 5 ++ x, (extentHeader 5 ++ x).length, (512 + b.size) % 2 ^ 32, false,
    false⟩, [512], ⟨extentHeader 5 ++ x, (extentHeader 5 ++ x).length, 512, false, false⟩, hs, ?_,
    hfile, ?_, rfl, hfile⟩
  · simp only [appendRun, Extent.appendBlocks, createExtent, appendLoop, hx, Fault.failsAt,
      Fault.none, any_none, bind_none, Bool.false_eq_true, if_false, map_some,
      append_nil, nil_append]
  · show openExtent ((extentHeader 5 ++ x).take (extentHeader 5 ++ x).length)
      (extentHeader 5 ++ x).length false = _
    rw [take_length, openExtent, if_neg Bool.false_ne_true, headerOk_append, if_neg (by simp),
      hfile, scan, if_pos (by norm_num)]

end Autumn
