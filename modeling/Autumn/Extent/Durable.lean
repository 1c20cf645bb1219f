import Autumn.Extent.Extent

/-!
# What an extent keeps

The file of an extent is a header and a chain of segments, pieces that `readBlock` accepts.

* `Extent.Sound`: the whole file is such a chain, its synced part ends between two segments, and
  `commitLength` is the length of the file.  So a failing append, which truncates to the length
  noted before, takes nothing away.
* `Extent.durable`: the synced part of the file.  It only grows (`Sound.append`, `Sound.restart`):
  `OpenExtent` walks over its segments whatever a crash has left behind them (`scan_segments`).

So a block at an offset of the synced part (`Extent.Holds`) stays there, and `ReadBlocks` returns it
(`Extent.Holds.readBlocks_eq`).
-/

namespace Autumn

open Lib List Option

/-- Pieces that `readBlock` accepts. -/
def Segments (ss : List Bytes) : Prop := ∀ s ∈ ss, ∃ b, Segment s b

theorem Segments.append {ss ts : List Bytes} (hs : Segments ss) (ht : Segments ts) :
    Segments (ss ++ ts) :=
  fun s h => (mem_append.mp h).elim (hs s) (ht s)

theorem segments_of_blocks {bs : List Block} (h : ∀ b ∈ bs, b.Sized ∧ ∃ x, writeBlock b = some x) :
    Segments (bs.map fun b => (writeBlock b).getD []) := by
  intro s hs
  obtain ⟨b, hb, rfl⟩ := mem_map.mp hs
  obtain ⟨hsz, x, hx⟩ := h b hb
  exact ⟨b, by rw [hx]; exact Block.segment hsz hx⟩

theorem flatten_map_writeBlock (bs : List Block) :
    (bs.map fun b => (writeBlock b).getD []).flatten = encode bs :=
  (flatMap_def ..).symm

variable {b : Block}

theorem Segment.sized {s : Bytes} (h : Segment s b) : b.Sized := by
  have hread := h.read []
  rw [append_nil] at hread
  obtain ⟨-, hd, -, hle, -, -, hb⟩ := readBlock_eq_ok hread
  have hlen := h.length
  have hnat : b.blockLength.toNat = hd.blockLength % 2 ^ 32 := by rw [hb, UInt32.toNat_ofNat']
  have hdata : b.data.length = min hd.blockLength (s.drop 512).length := by
    rw [hb, length_take]
  rw [length_drop] at hle hdata
  unfold Block.size at hlen
  unfold Block.Sized
  omega

theorem Segment.ne_nil {s : Bytes} (h : Segment s b) : 0 < s.length := by
  rw [h.length]
  exact b.size_pos

/-! ## The scan of `OpenExtent` -/

/-- The scan walks over segments, whatever is behind them. -/
theorem scan_segments {size : ℕ} (hsize : size < 2 ^ 32) :
    ∀ {ss : List Bytes} {r : Bytes} {o n : ℕ}, Segments ss →
      o + (ss.flatten ++ r).length = size → (ss.flatten ++ r).length < n →
      ∃ m, r.length < m ∧ scan size n (ss.flatten ++ r) o = scan size m r (o + ss.flatten.length)
  | [], r, o, n, _, _, hn => ⟨n, by simpa using hn, by simp⟩
  | s :: ss, r, o, 0, _, _, hn => absurd hn (Nat.not_lt_zero _)
  | s :: ss, r, o, n + 1, hss, hlen, hn => by
    obtain ⟨b, hb⟩ := hss s (.head _)
    have hpos := hb.ne_nil
    rw [flatten_cons, append_assoc, length_append] at hlen hn
    have hdata : 512 + b.data.length = s.length := by rw [hb.sized, hb.length, Block.size]
    have hstep : scan size (n + 1) (s ++ (ss.flatten ++ r)) o =
        scan size n (ss.flatten ++ r) (o + s.length) := by
      rw [scan, if_neg (by omega), hb.read]
      dsimp only
      rw [hdata, drop_left, ← hb.length, Nat.mod_eq_of_lt (by omega)]
    obtain ⟨m, hm, heq⟩ := scan_segments hsize (r := r) (o := o + s.length) (n := n)
      (fun t ht => hss t (.tail _ ht)) (by omega) (by omega)
    refine ⟨m, hm, ?_⟩
    rw [flatten_cons, append_assoc, hstep, heq, length_append, Nat.add_assoc]

/-- How a scan with enough fuel ends: at the end of a chain, or in front of what cannot be read, or
in front of what the process dies of. -/
theorem scan_cases {size n o : ℕ} {r : Bytes} (hsize : size < 2 ^ 32) (hlen : o + r.length = size)
    (hn : r.length < n) :
    ∃ ts rest, Segments ts ∧ r = ts.flatten ++ rest ∧
      (rest = [] ∧ scan size n r o = .complete size ∨
        (∀ b, readBlock rest ≠ .ok b) ∧ scan size n r o = .torn (o + ts.flatten.length) ∨
        readBlock rest = .error .panicked ∧ scan size n r o = .panicked) := by
  have hnil : Segments [] := by simp [Segments]
  fun_induction scan size n r o with
  | case1 => exact absurd hn (Nat.not_lt_zero _)
  | case2 n r o hend =>
    have ho : o = size := by omega
    exact ⟨[], r, hnil, rfl, .inl ⟨length_eq_zero_iff.mp (by omega), congrArg _ ho⟩⟩
  | case3 n r o hend hread => exact ⟨[], r, hnil, rfl, .inr (.inr ⟨hread, rfl⟩)⟩
  | case4 n r o hend x hx hread =>
    exact ⟨[], r, hnil, rfl, .inr (.inl ⟨fun b hb => absurd (hread.symm.trans hb) (by simp), rfl⟩)⟩
  | case5 n r o hend b hread ih =>
    obtain ⟨hle, hseg⟩ := segment_of_readBlock (by omega) hread
    have hdata : 512 + b.data.length = b.size := by rw [hseg.sized, Block.size]
    have hmod : (o + b.size) % 2 ^ 32 = o + b.size := Nat.mod_eq_of_lt (by omega)
    have hpos := b.size_pos
    have htake : (r.take b.size).length = b.size := hseg.length
    rw [hdata, hmod, length_drop] at ih
    rw [hdata, hmod]
    obtain ⟨ts, rest, hts, hr, hcases⟩ := ih (by omega) (by omega)
    refine ⟨r.take b.size :: ts, rest, forall_mem_cons.mpr ⟨⟨b, hseg⟩, hts⟩, ?_, ?_⟩
    · rw [flatten_cons, append_assoc, ← hr, take_append_drop]
    · rwa [flatten_cons, length_append, htake, ← Nat.add_assoc]

/-! ## Sound extents -/

namespace Extent

/-- The part of the file that survives a crash. -/
def durable (e : Extent) : Bytes := e.file.take e.synced

/-- The block `b` is at offset `o` of the synced part. -/
def Holds (e : Extent) (o : ℕ) (b : Block) : Prop := ∃ s, Segment s b ∧ s <+: e.durable.drop o

/-- The blocks are in the synced part one after the other, from offset `c` on. -/
def HoldsAll (e : Extent) (c : ℕ) (bs : List Block) : Prop :=
  ∀ (k : ℕ) (b : Block) (o : ℕ), bs[k]? = some b → (offsetsFrom c bs)[k]? = some o → e.Holds o b

/-- The file is a chain of segments, the first of them synced, and ends at `commitLength`. -/
structure Sound (e : Extent) : Prop where
  unsealed : e.isSeal = false
  noAttr : e.sealAttr = false
  commit : e.commitLength = e.file.length
  small : e.file.length < 2 ^ 32
  chain : ∃ head ss ts, head.length = 512 ∧ Segments ss ∧ Segments ts ∧
    e.file = head ++ ss.flatten ++ ts.flatten ∧ e.synced = (head ++ ss.flatten).length

variable {e e' : Extent}

theorem Holds.mono {o : ℕ} (hpre : e.durable <+: e'.durable) (h : e.Holds o b) : e'.Holds o b := by
  obtain ⟨s, hs, hsd⟩ := h
  exact ⟨s, hs, hsd.trans (hpre.drop o)⟩

theorem HoldsAll.mono {c : ℕ} {bs : List Block} (hpre : e.durable <+: e'.durable)
    (h : e.HoldsAll c bs) : e'.HoldsAll c bs :=
  fun k b o hb ho => (h k b o hb ho).mono hpre

/-- **A block that is held is read.** -/
theorem Holds.readBlocks_eq {o : ℕ} (h : e.Holds o b) (hs : e.Sound) (maxTotalSize : ℕ) :
    e.readBlocks o 1 maxTotalSize = .ok ([b], .full) := by
  obtain ⟨s, hseg, hsd⟩ := h
  have hpre : s <+: e.file.drop o := hsd.trans (( take_prefix e.synced e.file).drop o)
  have hlen := hpre.length_le
  have hpos := hseg.ne_nil
  rw [length_drop] at hlen
  obtain ⟨rest, hrest⟩ := hpre
  have hcommit := hs.commit
  rw [readBlocks, if_neg (by omega), readBlocksLoop, ← hrest, hseg.read]
  dsimp only
  split_ifs
  · rfl
  · rfl

theorem sound_createExtent (id : ℕ) : (createExtent id).Sound := by
  have hlen : (extentHeader id).length = 512 := by
    rw [extentHeader, length_sector (by simp [extentMagicNumber])]
  refine ⟨rfl, rfl, hlen.symm, ?_, extentHeader id, [], [], hlen, ?_, ?_, ?_, ?_⟩
  · show (extentHeader id).length < 2 ^ 32
    omega
  · simp [Segments]
  · simp [Segments]
  · simp [createExtent]
  · simp [createExtent, hlen]

theorem Sound.synced_le (h : e.Sound) : e.synced ≤ e.file.length := by
  obtain ⟨head, ss, ts, -, -, -, hfile, hsync⟩ := h.chain
  rw [hfile, hsync]
  exact (prefix_append _ _).length_le

theorem exists_segment_at :
    ∀ {bs : List Block} {file : Bytes} {k : ℕ} {b : Block} {o : ℕ},
      (∀ b ∈ bs, b.Sized ∧ ∃ x, writeBlock b = some x) → bs[k]? = some b →
      (offsetsFrom file.length bs)[k]? = some o →
      ∃ s, Segment s b ∧ s <+: (file ++ encode bs).drop o
  | [], _, k, _, _, _, hb, _ => absurd hb (by simp)
  | a :: bs, file, 0, b, o, h, hb, ho => by
    obtain ⟨hs, x, hx⟩ := h a (.head _)
    rw [getElem?_cons_zero, some_inj] at hb
    rw [offsetsFrom, getElem?_cons_zero, some_inj] at ho
    subst hb ho
    refine ⟨x, Block.segment hs hx, ?_⟩
    rw [drop_left, encode_cons hx]
    exact prefix_append _ _
  | a :: bs, file, k + 1, b, o, h, hb, ho => by
    obtain ⟨hs, x, hx⟩ := h a (.head _)
    rw [getElem?_cons_succ] at hb
    rw [offsetsFrom, getElem?_cons_succ, ← (Block.segment hs hx).length, ← length_append] at ho
    rw [encode_cons hx, ← append_assoc]
    exact exists_segment_at (fun c hc => h c (.tail _ hc)) hb ho

/-- **An append keeps what is there.**  It leaves a sound extent with a longer durable part, and if
it succeeds the blocks are in it. -/
theorem Sound.append (h : e.Sound) {blocks : List Block} {c : ℕ} {f : Fault}
    (hs : ∀ b ∈ blocks, b.Sized) (hfit : c + totalSize blocks < 2 ^ 32) (hsync : f.sync = false) :
    (e.appendBlocks blocks (some c) f).1.Sound ∧
      e.durable <+: (e.appendBlocks blocks (some c) f).1.durable ∧
      ∀ offsets, (e.appendBlocks blocks (some c) f).2 = some offsets →
        offsets = offsetsFrom c blocks ∧
        (e.appendBlocks blocks (some c) f).1.HoldsAll c blocks := by
  rcases appendBlocks_cases f h.commit hs hfit with ⟨-, heq⟩ | ⟨-, hc, heq⟩
  · rw [heq]
    exact ⟨h, prefix_refl _, fun offsets ho => absurd ho (by simp)⟩
  set k := kept f 0 blocks with hk
  have hwritten : ∀ b ∈ blocks.take k, b.Sized ∧ ∃ x, writeBlock b = some x :=
    fun b hb => ⟨hs b (mem_of_mem_take hb), isSome_of_mem_take_kept hb⟩
  have hsmall : (e.file ++ encode (blocks.take k)).length < 2 ^ 32 := by
    have := totalSize_take_le k blocks
    have := h.commit
    rw [length_append, length_encode hwritten]
    omega
  have hsynced := h.synced_le
  obtain ⟨head, ss, ts, hhead, hss, hts, hfile, hsyn⟩ := h.chain
  have hnew := segments_of_blocks hwritten
  have hcat : e.file ++ encode (blocks.take k) =
      head ++ ss.flatten ++ (ts ++ (blocks.take k).map fun b =>
        (writeBlock b).getD []).flatten := by
    rw [hfile, flatten_append, flatten_map_writeBlock]
    simp only [append_assoc]
  rw [heq, hsync]
  by_cases hall : k = blocks.length
  · -- everything is written and synced
    have hfull : blocks.take k = blocks := by rw [hall, take_length]
    rw [hfull] at hcat hsmall hnew hwritten ⊢
    simp only [if_pos hall, Bool.false_eq_true, if_false]
    refine ⟨⟨h.unsealed, h.noAttr, rfl, hsmall, head, ss ++ (ts ++ _), [], hhead,
      hss.append (hts.append hnew), by simp [Segments], ?_, ?_⟩, ?_, fun offsets ho => ?_⟩
    · rw [flatten_nil, append_nil, hcat, append_assoc, ← flatten_append]
    · rw [flatten_append, ← append_assoc, ← hcat]
    · simp only [durable, take_length]
      exact ( take_prefix _ _).trans (prefix_append _ _)
    · refine ⟨(some.inj ho).symm, fun i b o hb hoff => ?_⟩
      simp only [Holds, durable, take_length]
      rw [hc, h.commit] at hoff
      exact exists_segment_at hwritten hb hoff
  · simp only [if_neg hall]
    have hmin : min e.synced (e.file ++ encode (blocks.take k)).length = e.synced := by
      rw [length_append]
      omega
    refine ⟨⟨h.unsealed, h.noAttr, rfl, hsmall, head, ss, ts ++ _, hhead, hss, hts.append hnew,
      hcat, by simp only [hmin]; exact hsyn⟩, ?_, fun offsets ho => absurd ho (by simp)⟩
    simp only [durable, hmin, take_append_of_le_length hsynced]
    exact prefix_refl _

/-- **A restart keeps what is synced**, whatever the crash leaves behind it. -/
theorem Sound.restart (h : e.Sound) {tail : Bytes} (hfit : (e.durable ++ tail).length < 2 ^ 32)
    (hopen : e.restart tail = some e') : e'.Sound ∧ e.durable <+: e'.durable := by
  obtain ⟨head, ss, ts, hhead, hss, hts, hfile, hsyn⟩ := h.chain
  have hdur : e.durable = head ++ ss.flatten := by
    rw [durable, hfile, hsyn, take_left]
  have hdlen : (e.durable ++ tail).length = 512 + (ss.flatten ++ tail).length := by
    rw [hdur, append_assoc, length_append, hhead]
  have hdrop : (e.durable ++ tail).drop 512 = ss.flatten ++ tail := by
    rw [hdur, append_assoc, drop_left' hhead]
  have hsync : e.synced = e.durable.length := by rw [hsyn, hdur]
  have hsslen : e.durable.length = 512 + ss.flatten.length := by
    rw [hdur, length_append, hhead]
  have hopen : openExtent (e.durable ++ tail) e.synced false = some e' := by
    rw [← h.noAttr]
    exact hopen
  rw [openExtent, if_neg (by simp)] at hopen
  split at hopen
  · cases hopen
  rw [Nat.mod_eq_of_lt hfit, hdrop] at hopen
  -- the scan reaches the end of the synced part, and goes on from there
  obtain ⟨m, hm, hscan⟩ := scan_segments hfit (r := tail) (o := 512)
    (n := (e.durable ++ tail).length + 1)
    hss (by omega) (by omega)
  rw [hscan] at hopen
  have htail : (ss.flatten ++ tail).length = ss.flatten.length + tail.length := length_append
  obtain ⟨us, rest, hus, hr, ⟨rfl, heq⟩ | ⟨-, heq⟩ | ⟨-, heq⟩⟩ := @scan_cases _ m
    (512 + ss.flatten.length) tail hfit (by omega) hm
  · rw [heq] at hopen
    cases hopen
    refine ⟨⟨rfl, rfl, rfl, hfit, head, ss, us, hhead, hss, hus, ?_, hsyn⟩, ?_⟩
    · show e.durable ++ tail = _
      rw [hdur, hr, append_nil]
    · show e.durable <+: (e.durable ++ tail).take e.synced
      rw [hsync, take_left]
  · rw [heq] at hopen
    cases hopen
    -- the file is cut behind the last block that was read
    have hcutlen :
        (head ++ (ss ++ us).flatten).length = 512 + ss.flatten.length + us.flatten.length := by
      rw [length_append, flatten_append, length_append, hhead, Nat.add_assoc]
    have hcut : truncateFile (512 + ss.flatten.length + us.flatten.length) (e.durable ++ tail) =
        head ++ (ss ++ us).flatten := by
      have hsplit : e.durable ++ tail = head ++ (ss ++ us).flatten ++ rest := by
        rw [hdur, hr, flatten_append]
        simp only [append_assoc]
      rw [← hcutlen, hsplit, truncateFile_append]
    have htaillen := congrArg length hr
    rw [length_append] at htaillen
    refine ⟨⟨rfl, rfl, ?_, ?_, head, ss ++ us, [], hhead,
      hss.append hus, by simp [Segments], ?_, ?_⟩, ?_⟩
    · simp only [hcut, hcutlen]
    · simp only [hcut, hcutlen]
      omega
    · simp only [hcut, flatten_nil, append_nil]
    · simp only [hcutlen]
    · show e.durable <+: (truncateFile _ (e.durable ++ tail)).take _
      rw [hcut, ← hcutlen, take_length, hdur, flatten_append, ← append_assoc]
      exact prefix_append _ _
  · rw [heq] at hopen
    cases hopen

end Extent

end Autumn
