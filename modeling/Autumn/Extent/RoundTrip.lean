import Autumn.Extent.Extent

/-!
# Appending to an extent and reading from it

After successful `AppendBlocks` the file is the header of the extent and the blocks one after the
other (`file_eq_of_appendRun`), and the offsets returned say where each begins (`offsetsFrom`).
`ReadBlocks` at such an offset walks over the blocks from there on (`readBlocksLoop_eq`).

It stops when it has the number of blocks asked for, when their size exceeds the limit, or when
there are no more blocks (`StopsAt`).  Only the third reason is reported, and only if it is the only
one.
-/

namespace Autumn

open Lib List Option

/-! ## Offsets -/

theorem totalSize_append (as bs : List Block) :
    totalSize (as ++ bs) = totalSize as + totalSize bs := by
  unfold totalSize
  rw [map_append, sum_append]

theorem length_offsetsFrom (o : ℕ) (bs : List Block) : (offsetsFrom o bs).length = bs.length := by
  induction bs generalizing o with
  | nil => rfl
  | cons b bs ih => rw [offsetsFrom, length_cons, length_cons, ih]

theorem offsetsFrom_append (o : ℕ) (as bs : List Block) :
    offsetsFrom o (as ++ bs) = offsetsFrom o as ++ offsetsFrom (o + totalSize as) bs := by
  induction as generalizing o with
  | nil => rfl
  | cons a as ih =>
    rw [cons_append, offsetsFrom, offsetsFrom, ih, totalSize_cons, cons_append, Nat.add_assoc]

variable {bs : List Block}

theorem getElem?_offsetsFrom {o i x : ℕ} (h : (offsetsFrom o bs)[i]? = some x) :
    x = o + totalSize (bs.take i) ∧ i < bs.length := by
  induction bs generalizing o i with
  | nil => cases h
  | cons b bs ih =>
    cases i with
    | zero =>
      rw [offsetsFrom, getElem?_cons_zero, some_inj] at h
      exact ⟨by simp [h], by simp⟩
    | succ i =>
      rw [offsetsFrom, getElem?_cons_succ] at h
      obtain ⟨hx, hi⟩ := ih h
      rw [take_succ_cons, totalSize_cons, length_cons]
      omega

theorem le_of_mem_offsetsFrom {o x : ℕ} (h : x ∈ offsetsFrom o bs) : o ≤ x := by
  obtain ⟨i, hi⟩ := mem_iff_getElem?.mp h
  obtain ⟨hx, -⟩ := getElem?_offsetsFrom hi
  omega

theorem pairwise_offsetsFrom (o : ℕ) (bs : List Block) : (offsetsFrom o bs).Pairwise (· < ·) := by
  induction bs generalizing o with
  | nil => exact List.Pairwise.nil
  | cons b bs ih =>
    rw [offsetsFrom]
    refine List.Pairwise.cons (fun x hx => ?_) (ih _)
    have hle := le_of_mem_offsetsFrom hx
    have hpos := b.size_pos
    omega

/-! ## A run of appends -/

/-- One call of `AppendBlocks` and what the disk does meanwhile. -/
structure Append where
  blocks : List Block
  lastCommit : Option ℕ
  fault : Fault
  deriving DecidableEq, Repr

/-- Calls of `AppendBlocks` one after the other, all of them successful: the extent and the offsets
that were returned. -/
def appendRun : Extent → List Append → Option (Extent × List ℕ)
  | e, [] => some (e, [])
  | e, a :: as =>
    match e.appendBlocks a.blocks a.lastCommit a.fault with
    | (_, none) => none
    | (e', some offsets) => (appendRun e' as).map fun x => (x.1, offsets ++ x.2)

/-- The blocks of the calls. -/
def appended (as : List Append) : List Block := as.flatMap Append.blocks

/-- The block passes the checks of `writeBlock` and has the length it notes. -/
def Block.Written (b : Block) : Prop := b.Sized ∧ ∃ x, writeBlock b = some x

variable {e : Extent}

namespace Extent

/-- **What a successful append does.**  All blocks are written behind the end of the file. -/
theorem appendBlocks_eq_some {e' : Extent} {a : Append} {offsets : List ℕ}
    (hlen : e.commitLength = e.file.length) (hs : ∀ b ∈ a.blocks, b.Sized)
    (hfit : e.file.length + totalSize a.blocks < 2 ^ 32)
    (h : e.appendBlocks a.blocks a.lastCommit a.fault = (e', some offsets)) :
    e'.file = e.file ++ encode a.blocks ∧ e'.commitLength = e'.file.length ∧
      e'.isSeal = e.isSeal ∧ offsets = offsetsFrom e.file.length a.blocks ∧
      ∀ b ∈ a.blocks, b.Written := by
  unfold appendBlocks at h
  by_cases hseal : e.isSeal = true
  · rw [if_pos hseal] at h
    cases congrArg Prod.snd h
  by_cases hc : a.lastCommit.any (fun c => c != e.commitLength) = true
  · rw [if_neg hseal, if_pos hc] at h
    cases congrArg Prod.snd h
  rw [if_neg hseal, if_neg hc, hlen, appendLoop_eq a.fault 0 a.blocks e.file [] hs hfit] at h
  by_cases hall : kept a.fault 0 a.blocks = a.blocks.length
  · simp only [hall, if_true, take_length, nil_append, Prod.mk.injEq, some_inj] at h
    obtain ⟨rfl, rfl⟩ := h
    refine ⟨rfl, rfl, rfl, rfl, fun b hb => ⟨hs b hb, ?_⟩⟩
    have hb' : b ∈ a.blocks.take (kept a.fault 0 a.blocks) := by rwa [hall, take_length]
    exact isSome_of_mem_take_kept hb'
  · simp only [hall, if_false] at h
    cases congrArg Prod.snd h

end Extent

theorem file_eq_of_appendRun {e' : Extent} {as : List Append} {offsets : List ℕ}
    (hlen : e.commitLength = e.file.length) (hs : ∀ b ∈ appended as, b.Sized)
    (hfit : e.file.length + totalSize (appended as) < 2 ^ 32)
    (h : appendRun e as = some (e', offsets)) :
    e'.file = e.file ++ encode (appended as) ∧ e'.commitLength = e'.file.length ∧
      e'.isSeal = e.isSeal ∧ offsets = offsetsFrom e.file.length (appended as) ∧
      ∀ b ∈ appended as, b.Written := by
  induction as generalizing e offsets with
  | nil =>
    cases h
    exact ⟨by simp [appended], hlen, rfl, rfl, by simp [appended]⟩
  | cons a as ih =>
    have hcons : appended (a :: as) = a.blocks ++ appended as := flatMap_cons
    rw [hcons] at hs hfit
    rw [totalSize_append] at hfit
    unfold appendRun at h
    split at h
    · cases h
    · rename_i e₁ offsets₁ happ
      obtain ⟨⟨e₂, offsets₂⟩, hrest, heq⟩ := map_eq_some_iff.mp h
      cases heq
      obtain ⟨hfile, hcommit, hseal, hoff, hw⟩ := Extent.appendBlocks_eq_some hlen
        (fun b hb => hs b (mem_append_left _ hb)) (by omega) happ
      have hlen₁ : e₁.file.length = e.file.length + totalSize a.blocks := by
        rw [hfile, length_append, length_encode hw]
      obtain ⟨hfile', hcommit', hseal', hoff', hw'⟩ := ih hcommit
        (fun b hb => hs b (mem_append_right _ hb)) (by omega) hrest
      refine ⟨?_, hcommit', hseal'.trans hseal, ?_, fun b hb => ?_⟩
      · rw [hfile', hfile, hcons, encode_append, append_assoc]
      · rw [hoff, hoff', hcons, offsetsFrom_append, hlen₁]
      · rw [hcons] at hb
        exact (mem_append.mp hb).elim (hw b) (hw' b)

/-! ## A read -/

/-- A read of at most `n` blocks with limit `m` stops after `k` of the blocks `bs`. -/
def StopsAt (n m : ℕ) (bs : List Block) (k : ℕ) : Prop :=
  k = n ∨ m < totalSize (bs.take k) ∨ k = bs.length

/-- The same in the middle of a read, with `size` bytes read. -/
structure FirstStop (n m size : ℕ) (bs : List Block) (k : ℕ) : Prop where
  stops : k = n ∨ m < size + totalSize (bs.take k) ∨ k = bs.length
  first : ∀ i < k, ¬ (i = n ∨ m < size + totalSize (bs.take i) ∨ i = bs.length)

variable {m : ℕ}

theorem FirstStop.zero {n size : ℕ} (h : 0 = n ∨ m < size + totalSize (bs.take 0) ∨ 0 = bs.length) :
    FirstStop n m size bs 0 :=
  ⟨h, fun _ hi => absurd hi (Nat.not_lt_zero _)⟩

theorem FirstStop.cons {n size k : ℕ} {b : Block} (hm : size ≤ m)
    (h : FirstStop n m (size + b.size) bs k) : FirstStop (n + 1) m size (b :: bs) (k + 1) := by
  have htake :
      ∀ i, totalSize ((b :: bs).take (i + 1)) = b.size + totalSize (bs.take i) := fun i => by
    rw [take_succ_cons, totalSize_cons]
  refine ⟨?_, fun i hi => ?_⟩
  · have := h.stops
    rw [htake, length_cons]
    omega
  · cases i with
    | zero =>
      simp only [take_zero, totalSize_nil, length_cons]
      omega
    | succ i =>
      have := h.first i (by omega)
      rw [htake, length_cons]
      omega

namespace Extent

/-- The end of a read that has stopped after `k` blocks. -/
def endAfter (e : Extent) (n m size : ℕ) (bs : List Block) (k : ℕ) : ReadEnd :=
  if k = n ∨ m < size + totalSize (bs.take k) then .full else e.readEnd

/-- **The loop of `ReadBlocks`** in front of written blocks. -/
theorem readBlocksLoop_eq (hw : ∀ b ∈ bs, b.Written) :
    ∀ (n o size : ℕ) (ret : List Block), e.file.drop o = encode bs →
      o + totalSize bs < 2 ^ 32 → size + totalSize bs < 2 ^ 32 → size ≤ m →
      ∃ k, FirstStop n m size bs k ∧
        e.readBlocksLoop m n o size ret = .ok (ret ++ bs.take k, e.endAfter n m size bs k) := by
  induction bs with
  | nil =>
    intro n o size ret hfile _ _ hm
    refine ⟨0, .zero (.inr (.inr rfl)), ?_⟩
    cases n with
    | zero => simp [readBlocksLoop, endAfter]
    | succ n =>
      rw [readBlocksLoop, hfile, encode_nil]
      have hend : e.endAfter (n + 1) m size [] 0 = e.readEnd := by
        unfold endAfter
        rw [if_neg]
        simp only [take_nil, totalSize_nil]
        omega
      rw [hend, take_nil, append_nil]
      rfl
  | cons b bs ih =>
    intro n o size ret hfile ho hsize hm
    rw [totalSize_cons] at ho hsize
    cases n with
    | zero => exact ⟨0, .zero (.inl rfl), by simp [readBlocksLoop, endAfter]⟩
    | succ n =>
      obtain ⟨hs, x, hx⟩ := hw b (.head _)
      have hseg := Block.segment hs hx
      have hdrop : e.file.drop (o + b.size) = encode bs := by
        rw [← drop_drop, hfile, encode_cons hx, ← hseg.length, drop_left]
      rw [readBlocksLoop, hfile, encode_cons hx, hseg.read]
      dsimp only
      rw [Nat.mod_eq_of_lt (by omega : size + b.size < 2 ^ 32),
        Nat.mod_eq_of_lt (by omega : o + b.size < 2 ^ 32)]
      by_cases hbig : size + b.size > m
      · rw [if_pos hbig]
        refine ⟨1, ⟨?_, fun i hi => ?_⟩, ?_⟩
        · exact .inr (.inl (by simpa using hbig))
        · obtain rfl : i = 0 := by omega
          simp only [take_zero, totalSize_nil, length_cons]
          omega
        · unfold endAfter
          rw [if_pos (.inr (by simpa using hbig))]
          rfl
      · rw [if_neg hbig]
        obtain ⟨k, hk, heq⟩ := ih (fun c hc => hw c (.tail _ hc)) n (o + b.size)
          (size + b.size) (ret ++ [b]) hdrop (by omega) (by omega) (by omega)
        refine ⟨k + 1, hk.cons hm, ?_⟩
        have hend : e.endAfter (n + 1) m size (b :: bs) (k + 1) =
            e.endAfter n m (size + b.size) bs k := by
          unfold endAfter
          rw [take_succ_cons, totalSize_cons, Nat.add_assoc]
          simp only [add_left_inj]
        rw [heq, hend, take_succ_cons, append_assoc, singleton_append]

theorem sealExtent_commitLength (e : Extent) (fails : Bool) :
    (e.sealExtent e.commitLength fails).1.file = e.file ∧
      (e.sealExtent e.commitLength fails).1.commitLength = e.commitLength := by
  unfold sealExtent
  cases fails <;> simp

end Extent

/-- **Round trip.**  After successful appends to a new extent the returned offsets increase and
`commitLength` is the length of the file.  A read at the offset of block `i`, sealed or not, returns
the blocks from there up to the first place where it has to stop, and says that they have ended only
if this alone made it stop. -/
theorem append_read_round_trip {id : ℕ} {as : List Append} {e : Extent} {offsets : List ℕ}
    (h : appendRun (createExtent id) as = some (e, offsets)) (hs : ∀ b ∈ appended as, b.Sized)
    (hfit : 512 + totalSize (appended as) < 2 ^ 32) :
    offsets.length = (appended as).length ∧ offsets.Pairwise (· < ·) ∧
      e.commitLength = e.file.length ∧
      ∀ e', e' = e ∨ (∃ fails, e' = (e.sealExtent e.commitLength fails).1) →
        ∀ i o, offsets[i]? = some o → ∀ n m, ∃ k,
          StopsAt n m ((appended as).drop i) k ∧
          (∀ j < k, ¬ StopsAt n m ((appended as).drop i) j) ∧
          e'.readBlocks o n m = .ok (((appended as).drop i).take k,
            if k = n ∨ m < totalSize (((appended as).drop i).take k) then .full
            else if e'.isSeal then .endOfExtent else .endOfStream) := by
  have hhead : (createExtent id).file.length = 512 := by
    show (extentHeader id).length = 512
    rw [extentHeader, length_sector (by simp [extentMagicNumber])]
  obtain ⟨hfile, hcommit, -, rfl, hw⟩ := file_eq_of_appendRun hhead.symm hs (by omega) h
  rw [hhead]
  refine ⟨length_offsetsFrom .., pairwise_offsetsFrom .., hcommit, fun e' he' i o ho n m => ?_⟩
  have hsame : e'.file = e.file ∧ e'.commitLength = e.commitLength := by
    rcases he' with rfl | ⟨fails, rfl⟩
    · exact ⟨rfl, rfl⟩
    · exact e.sealExtent_commitLength fails
  obtain ⟨rfl, hi⟩ := getElem?_offsetsFrom ho
  set front := (appended as).take i with hfront
  set rest := (appended as).drop i with hrest
  have hsplit : appended as = front ++ rest := (take_append_drop i _).symm
  have hwfront : ∀ b ∈ front, b.Written := fun b hb => hw b (mem_of_mem_take hb)
  have hwrest : ∀ b ∈ rest, b.Written := fun b hb => hw b (mem_of_mem_drop hb)
  have hdrop : e'.file.drop (512 + totalSize front) = encode rest := by
    have hlen : ((createExtent id).file ++ encode front).length = 512 + totalSize front := by
      rw [length_append, hhead, length_encode hwfront]
    rw [hsame.1, hfile, hsplit, encode_append, ← append_assoc, ← hlen, drop_left]
  have htotal : totalSize (appended as) = totalSize front + totalSize rest := by
    rw [hsplit, totalSize_append]
  -- Block `i` is there, so the read is in front of the commit length.
  have hlt : ¬ e'.commitLength ≤ 512 + totalSize front := by
    obtain ⟨b, bs, hcons⟩ : ∃ b bs, rest = b :: bs := by
      cases hcases : rest with
      | nil => exact absurd (drop_eq_nil_iff.mp hcases) (by omega)
      | cons b bs => exact ⟨b, bs, rfl⟩
    have hpos := b.size_pos
    rw [hcons, totalSize_cons] at htotal
    rw [hsame.2, hcommit, hfile, length_append, hhead, length_encode hw]
    omega
  obtain ⟨k, hk, heq⟩ := Extent.readBlocksLoop_eq hwrest n (512 + totalSize front) 0 [] hdrop
    (by omega) (by omega) (Nat.zero_le m)
  refine ⟨k, ?_, fun j hj => ?_, ?_⟩
  · have := hk.stops
    rwa [Nat.zero_add] at this
  · have := hk.first j hj
    rwa [Nat.zero_add] at this
  · rw [Extent.readBlocks, if_neg hlt, heq, Extent.endAfter, Nat.zero_add, nil_append]
    rfl

/-- A block of one sector. -/
def filled (x : UInt8) (userData : Bytes) : Block :=
  ⟨adlerCheckSum (List.replicate 512 x), 512, userData, List.replicate 512 x⟩

/-- Two calls; at the second one `Sync` fails, which nobody notices. -/
def twoAppends : List Append :=
  [⟨[filled 1 [], filled 2 [7, 8, 9]], none, .none⟩, ⟨[filled 3 []], some 2560, ⟨none, true⟩⟩]

theorem append_read_round_trip_twoAppends :
    ∃ e offsets, (appendRun (createExtent 5) twoAppends = some (e, offsets) ∧
        (∀ b ∈ appended twoAppends, b.Sized) ∧ 512 + totalSize (appended twoAppends) < 2 ^ 32) ∧
      offsets.length = (appended twoAppends).length ∧ offsets.Pairwise (· < ·) ∧
        e.commitLength = e.file.length ∧
        ∀ e', e' = e ∨ (∃ fails, e' = (e.sealExtent e.commitLength fails).1) →
          ∀ i o, offsets[i]? = some o → ∀ n m, ∃ k,
            StopsAt n m ((appended twoAppends).drop i) k ∧
            (∀ j < k, ¬ StopsAt n m ((appended twoAppends).drop i) j) ∧
            e'.readBlocks o n m = .ok (((appended twoAppends).drop i).take k,
              if k = n ∨ m < totalSize (((appended twoAppends).drop i).take k) then .full
              else if e'.isSeal then .endOfExtent else .endOfStream) := by
  obtain ⟨⟨e, offsets⟩, he, -⟩ : ∃ x ∈ appendRun (createExtent 5) twoAppends, True := by
    decide +kernel
  have hs : ∀ b ∈ appended twoAppends, b.Sized := by decide +kernel
  have hfit : 512 + totalSize (appended twoAppends) < 2 ^ 32 := by decide +kernel
  exact ⟨e, offsets, ⟨he, hs, hfit⟩, append_read_round_trip he hs hfit⟩

end Autumn
