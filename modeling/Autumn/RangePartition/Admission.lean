import Autumn.RangePartition.Estimates

/-!
# Admission and room

`ensureRoomForWrite` admits a batch by the sum of the estimates of its entries.  With the memtable
that is there it compares the sum with what is left.  If it rotates the memtable, the only test was
whether the batch is larger than a memtable, but the arena of a new memtable already has a head node
of 107 bytes.  An estimate is too large by one byte if the node of the entry has the greatest
height.
-/

namespace Autumn
namespace Admission

open Lib Y List InternalKey Skiplist

/-! ## The source -/

/-- `flushTask`. -/
structure FlushTask where
  mt : Skl
  vptr : ValuePointer
  seqNum : ℕ
  isCompact : Bool := false

/-- The fields of `RangePartition` that `ensureRoomForWrite` uses. -/
structure Partition where
  mt : Skl
  imm : List Skl := []
  flushChan : List FlushTask := []
  logRotates : ℕ := 0
  seqNumber : ℕ := 0

/-- The sum of the estimates of a batch. -/
def estimate (entries : List EntryInfo) : ℕ := (entries.map fun ei => estimatedSizeInSkl ei.log).sum

/-- There is nothing to do: no flush is forced, and the batch fits the memtable. -/
def Partition.FitsNow (rp : Partition) (entries : List EntryInfo) : Prop :=
  rp.logRotates < 1 ∧ rp.mt.arena.n + estimate entries < maxSkipList

instance (rp : Partition) (entries : List EntryInfo) : Decidable (rp.FitsNow entries) :=
  inferInstanceAs (Decidable (_ ∧ _))

/-- `ensureRoomForWrite`; the flag is `false` for `errNoRoom`. -/
def Partition.ensureRoomForWrite (rp : Partition) (entries : List EntryInfo) (head : ValuePointer) :
    Option (Partition × Bool) :=
  if estimate entries > maxSkipList then none
  else if rp.FitsNow entries then some (rp, true)
  else
    let seqNum := rp.seqNumber + 1
    if rp.flushChan.length < flushChanCapacity then
      (Skl.newSkiplist maxSkipList).map fun mt => ({
        mt := mt
        imm := rp.imm ++ [rp.mt]
        flushChan := rp.flushChan ++ [⟨rp.mt, head, seqNum, false⟩]
        logRotates := 0
        seqNumber := seqNum }, true)
    else some ({ rp with seqNumber := seqNum }, false)

/-- `writeToLSM`; every entry comes with the height that is drawn for it. -/
def writeToLSM (mt : Skl) (drawn : List (EntryInfo × ℕ)) : Option Skl :=
  exec Skl.step mt (drawn.map fun x => lsmOp x.1 x.2)

/-! ## What a batch needs -/

/-- Entries with internal keys shorter than 65536 bytes and 64-bit expiry times. -/
def Fits (entries : List EntryInfo) : Prop :=
  ∀ ei ∈ entries, ei.log.key.len < 2 ^ 16 ∧ ei.log.expiresAt < 2 ^ 64

/-- A choice of heights for a batch, as `randomHeight` may make it. -/
structure Drawn (entries : List EntryInfo) (drawn : List (EntryInfo × ℕ)) : Prop where
  entries_eq : drawn.map Prod.fst = entries
  bounds : ∀ x ∈ drawn, 1 ≤ x.2 ∧ x.2 ≤ maxHeight

variable {entries : List EntryInfo} {drawn : List (EntryInfo × ℕ)}

theorem Drawn.valid (h : Drawn entries drawn) (hfits : Fits entries) :
    ∀ op ∈ drawn.map fun x => lsmOp x.1 x.2, op.Valid := by
  intro op hop
  obtain ⟨x, hx, rfl⟩ := mem_map.mp hop
  obtain ⟨hkey, hexp⟩ := hfits x.1 (h.entries_eq ▸ mem_map_of_mem hx)
  have hlen : (lsmOp x.1 x.2).key.length = x.1.log.key.len := length_bytes _
  obtain ⟨hge, hle⟩ := h.bounds x hx
  refine ⟨?_, by omega, hge, hle, ?_⟩
  · rw [hlen, len]
    omega
  · show (lsmValue x.1).expiresAt < 2 ^ 64
    rw [expiresAt_lsmValue]
    exact hexp

theorem sum_need_le (drawn : List (EntryInfo × ℕ)) :
    ((drawn.map fun x => lsmOp x.1 x.2).map Skl.PutOp.need).sum + drawn.length ≤
      estimate (drawn.map Prod.fst) := by
  induction drawn with
  | nil => exact le_rfl
  | cons x drawn ih =>
    have hneed := need_lsmOp_lt x.1 x.2
    simp only [estimate, map_cons, sum_cons, length_cons] at ih ⊢
    omega

/-- A batch with the greatest heights. -/
def tallest (entries : List EntryInfo) : List (EntryInfo × ℕ) :=
  entries.map fun ei => (ei, maxHeight)

theorem drawn_tallest (entries : List EntryInfo) : Drawn entries (tallest entries) := by
  constructor
  · rw [tallest, map_map]
    exact map_id entries
  · intro x hx
    obtain ⟨ei, -, rfl⟩ := mem_map.mp hx
    exact ⟨show 1 ≤ maxHeight by decide, le_rfl⟩

theorem sum_need_tallest (entries : List EntryInfo) :
    (((tallest entries).map fun x => lsmOp x.1 x.2).map Skl.PutOp.need).sum + entries.length =
      estimate entries := by
  induction entries with
  | nil => rfl
  | cons ei entries ih =>
    have hneed := need_lsmOp ei maxHeight
    have hnode : nodeSize maxHeight + 1 = nodeAllowance := rfl
    simp only [tallest, estimate, map_cons, sum_cons, length_cons] at ih ⊢
    omega

/-! ## Batches that fit and batches that do not -/

variable {mt : Skl} {m : Skiplist} {L : ℕ → List ℕ}

/-- A batch gets through if what is left of the arena is at most one byte for each entry less than
the estimate. -/
theorem writeToLSM_returns (h : mt.Refines m L) (hfits : Fits entries)
    (hdrawn : Drawn entries drawn)
    (hroom : mt.arena.n + estimate entries ≤ mt.arena.len + entries.length) :
    ∃ mt' L', writeToLSM mt drawn = some mt' ∧
      mt'.Refines ((drawn.map fun x => lsmOp x.1 x.2).foldl Skl.stepMap m) L' := by
  have hvalid := hdrawn.valid hfits
  have hsize := Skl.memSize_foldl_le m fun op hop => (hvalid op hop).len_ge
  have hsum := sum_need_le drawn
  rw [hdrawn.entries_eq] at hsum
  have hlen : drawn.length = entries.length := by rw [← hdrawn.entries_eq, length_map]
  have hn := h.memSize
  exact h.exec hvalid (by omega)

theorem estimatedSizeInSkl_lt {e : Entry} (hkey : e.key.len < 2 ^ 16)
    (hexp : e.expiresAt < 2 ^ 64) :
    estimatedSizeInSkl e < 2 ^ 17 := by
  have hvar := sizeVarint_le (n := 9) (hexp.trans (by decide))
  have hnode : nodeAllowance = 104 := rfl
  rw [estimatedSizeInSkl]
  split_ifs with hs
  · rw [shouldWriteValueToLSM, Bool.and_eq_true, decide_eq_true_iff, valueThrottle] at hs
    omega
  · rw [vptrSize]
    omega

/-- With less room, a batch under new keys dies if all heights are the greatest. -/
theorem writeToLSM_dies (h : mt.Refines m L) (hfits : Fits entries)
    (hnodup : (entries.map fun ei => ei.log.key.bytes).Nodup)
    (hnew : ∀ ei ∈ entries, ∀ v, (ofBytes ei.log.key.bytes, v) ∉ m.data)
    (hlen : mt.arena.len < 2 ^ 31)
    (hroom : mt.arena.len + entries.length < mt.arena.n + estimate entries) :
    writeToLSM mt (tallest entries) = none := by
  have hvalid := (drawn_tallest entries).valid hfits
  have hops : (tallest entries).map (fun x => lsmOp x.1 x.2) =
      entries.map fun ei => lsmOp ei maxHeight := by
    rw [tallest, map_map]
    rfl
  have hsum := sum_need_tallest entries
  rw [hops] at hvalid hsum
  have hkeys : ((entries.map fun ei => lsmOp ei maxHeight).map fun op =>
      ofBytes op.key).Nodup := by
    have hinj : ∀ a ∈ entries.map (fun ei => ei.log.key.bytes),
        ∀ b ∈ entries.map (fun ei => ei.log.key.bytes),
          ofBytes a = ofBytes b → a = b := by
      intro a ha b hb hab
      obtain ⟨x, -, rfl⟩ := mem_map.mp ha
      obtain ⟨y, -, rfl⟩ := mem_map.mp hb
      exact ofBytes_inj x.log.key.length_bytes_ge y.log.key.length_bytes_ge hab
    have hmap := hnodup.map_on hinj
    rw [map_map] at hmap ⊢
    exact hmap
  have hsize : ((entries.map fun ei => lsmOp ei maxHeight).foldl Skl.stepMap m).memSize =
      m.memSize + ((entries.map fun ei => lsmOp ei maxHeight).map Skl.PutOp.need).sum := by
    refine Skl.memSize_foldl_eq (fun op hop => (hvalid op hop).len_ge) hkeys fun op hop => ?_
    obtain ⟨ei, hei, rfl⟩ := mem_map.mp hop
    exact hnew ei hei
  have hneed : ∀ op ∈ entries.map (fun ei => lsmOp ei maxHeight),
      op.Valid ∧ mt.arena.len + op.need < 2 ^ 32 := by
    intro op hop
    refine ⟨hvalid op hop, ?_⟩
    obtain ⟨ei, hei, rfl⟩ := mem_map.mp hop
    have hlt := need_lsmOp_lt ei maxHeight
    have hest := estimatedSizeInSkl_lt (hfits ei hei).1 (hfits ei hei).2
    omega
  rw [writeToLSM, hops, Option.eq_none_iff_forall_ne_some]
  intro mt' hexec
  have hle := h.memSize_le_of_exec hneed hexec
  have hn := h.memSize
  omega

/-! ## Admission -/

/-- The memtable has been filled by calls with valid keys. -/
def Partition.Reached (rp : Partition) : Prop :=
  ∃ ops, Skl.Made maxSkipList ops rp.mt ∧ ∀ op ∈ ops, op.Valid

/-- Room for a batch: in the memtable, or in a new one with its head, where the estimate of each
entry is too large by one byte. -/
def Partition.HasRoom (rp : Partition) (entries : List EntryInfo) : Prop :=
  rp.FitsNow entries ∨ Skiplist.new.memSize + estimate entries ≤ maxSkipList + entries.length

variable {rp rp' : Partition} {head : ValuePointer}

theorem ensureRoomForWrite_cases (h : rp.ensureRoomForWrite entries head = some (rp', true)) :
    estimate entries ≤ maxSkipList ∧ ((rp.FitsNow entries ∧ rp' = rp) ∨
      (¬ rp.FitsNow entries ∧ Skl.newSkiplist maxSkipList = some rp'.mt)) := by
  rw [Partition.ensureRoomForWrite] at h
  split_ifs at h with hn hfits hchan
  · exact ⟨not_lt.mp hn, .inl ⟨hfits, (Prod.mk.inj (Option.some.inj h)).1.symm⟩⟩
  · obtain ⟨mt, hmt, heq⟩ := Option.map_eq_some_iff.mp h
    obtain ⟨rfl, -⟩ := Prod.mk.inj heq
    exact ⟨not_lt.mp hn, .inr ⟨hfits, hmt⟩⟩
  · exact absurd (Prod.mk.inj (Option.some.inj h)).2 (by simp)

theorem refines_rotated {mt : Skl} (h : Skl.newSkiplist maxSkipList = some mt) :
    mt.arena.len = maxSkipList ∧ mt.Refines new fun _ => [] := by
  obtain ⟨s, hs, hlen, hrefines⟩ := @Skl.Refines.new maxSkipList (by decide) (by decide)
  cases hs.symm.trans h
  exact ⟨hlen, hrefines⟩

/-- If there is room, the batch comes into the memtable or into a new one. -/
theorem writeToLSM_admitted {ops : List Skl.PutOp} (hmade : Skl.Made maxSkipList ops rp.mt)
    (hops : ∀ op ∈ ops, op.Valid) (hfits : Fits entries)
    (hok : rp.ensureRoomForWrite entries head = some (rp', true)) (hroom : rp.HasRoom entries)
    (hdrawn : Drawn entries drawn) : ∃ before ⊆ ops, ∃ mt L, writeToLSM rp'.mt drawn = some mt ∧
      mt.Refines (Skl.sortedMap (before ++ drawn.map fun x => lsmOp x.1 x.2)) L := by
  simp only [Skl.sortedMap, foldl_append]
  obtain ⟨-, ⟨hnow, rfl⟩ | ⟨hnow, hnew⟩⟩ := ensureRoomForWrite_cases hok
  · obtain ⟨L, href⟩ := hmade.refines hops
    obtain ⟨-, -, -, hlen, -⟩ := hmade.consecutive
    have hlt := hnow.2
    exact ⟨ops, List.Subset.refl _, writeToLSM_returns href hfits hdrawn (by omega)⟩
  · obtain ⟨hlen, href⟩ := refines_rotated hnew
    have hn : rp'.mt.arena.n = new.memSize := href.memSize
    have hroom := hroom.resolve_left hnow
    exact ⟨[], nil_subset _, writeToLSM_returns href hfits hdrawn (by omega)⟩

/-- **When admission implies room.**  A batch that is admitted gets through with all heights if
there is room for it; if there is not, it dies with the greatest heights. -/
theorem room_of_admission (hrp : rp.Reached) (hfits : Fits entries)
    (hok : rp.ensureRoomForWrite entries head = some (rp', true)) :
    (rp.HasRoom entries → ∀ drawn, Drawn entries drawn → ∃ mt, writeToLSM rp'.mt drawn = some mt) ∧
    ((entries.map fun ei => ei.log.key.bytes).Nodup → ¬ rp.HasRoom entries →
      ∃ drawn, Drawn entries drawn ∧ writeToLSM rp'.mt drawn = none) := by
  refine ⟨fun hroom drawn hdrawn => ?_, fun hnodup hroom => ?_⟩
  · obtain ⟨ops, hmade, hops⟩ := hrp
    obtain ⟨-, -, mt, -, hmt, -⟩ := writeToLSM_admitted hmade hops hfits hok hroom hdrawn
    exact ⟨mt, hmt⟩
  · obtain ⟨-, ⟨hnow, -⟩ | ⟨-, hnew⟩⟩ := ensureRoomForWrite_cases hok
    · exact absurd (.inl hnow) hroom
    obtain ⟨hlen, href⟩ := refines_rotated hnew
    have hn : rp'.mt.arena.n = new.memSize := href.memSize
    have hroom : ¬ new.memSize + estimate entries ≤ maxSkipList + entries.length :=
      fun h => hroom (.inr h)
    refine ⟨tallest entries, drawn_tallest entries, writeToLSM_dies href hfits hnodup ?_ ?_ ?_⟩
    · exact fun ei _ v hmem => SortedMap.not_mem_empty _ hmem
    · rw [hlen]
      decide
    · omega

theorem exists_opened : ∃ rp : Partition, Skl.Made maxSkipList [] rp.mt ∧ rp.mt.arena.n = 107 ∧
    rp.logRotates = 0 ∧ rp.flushChan = [] := by
  obtain ⟨s, hs, -, href⟩ := @Skl.Refines.new maxSkipList (by decide) (by decide)
  refine ⟨{ mt := s }, ⟨by decide, by decide, fun _ _ => trivial, ?_⟩, href.memSize, rfl, rfl⟩
  rw [hs]
  rfl

/-! ## Batches as large as a memtable -/

/-- A value behind the limit for values stored next to their keys, under a key of `n` bytes. -/
def longEntry (n i : ℕ) : EntryInfo :=
  { log := { key := keyWithTs (List.replicate n 0) (i + 1), value := List.replicate 1025 0 } }

/-- Sixteen of them. -/
def sixteen (n : ℕ) : List EntryInfo := (List.range 16).map (longEntry n)

theorem len_longEntry (n i : ℕ) : (longEntry n i).log.key.len = n + 8 := by
  show (replicate n (0 : UInt8)).length + 8 = n + 8
  rw [length_replicate]

theorem estimatedSizeInSkl_longEntry (n i : ℕ) :
    estimatedSizeInSkl (longEntry n i).log = n + 131 := by
  have hs : shouldWriteValueToLSM (longEntry n i).log = false := by
    have hlen : (longEntry n i).log.value.length = 1025 := length_replicate
    rw [shouldWriteValueToLSM, hlen, Bool.and_eq_false_iff]
    exact .inr (by decide)
  rw [estimatedSizeInSkl, len_longEntry, hs, if_neg (by simp)]
  show n + 8 + (16 + 2) + sizeVarint 0 + 104 = n + 131
  have hzero : sizeVarint 0 = 1 := rfl
  omega

theorem estimate_sixteen (n : ℕ) : estimate (sixteen n) = 16 * (n + 131) := by
  have hall : (sixteen n).map (fun ei => estimatedSizeInSkl ei.log) = replicate 16 (n + 131) := by
    rw [sixteen, map_map, ← length_range (n := 16), ← map_const', length_range]
    exact map_congr_left fun i _ => estimatedSizeInSkl_longEntry n i
  rw [estimate, hall, sum_replicate_nat]

theorem length_sixteen (n : ℕ) : (sixteen n).length = 16 := by
  rw [sixteen, length_map, length_range]

theorem fits_sixteen {n : ℕ} (hn : n + 8 < 2 ^ 16) : Fits (sixteen n) := by
  intro ei hei
  obtain ⟨i, -, rfl⟩ := mem_map.mp hei
  rw [len_longEntry]
  exact ⟨hn, show 0 < 2 ^ 64 by decide⟩

theorem nodup_sixteen (n : ℕ) : ((sixteen n).map fun ei => ei.log.key.bytes).Nodup := by
  rw [sixteen, map_map]
  refine nodup_range.map_on fun i hi j hj hij => ?_
  have hi := mem_range.mp hi
  have hj := mem_range.mp hj
  have hkey := congrArg ofBytes hij
  have hts (j : ℕ) (hj : j < 16) : (longEntry n j).log.key.ts < 2 ^ 64 := by
    show j + 1 < 2 ^ 64
    omega
  rw [Function.comp_apply, Function.comp_apply, ofBytes_bytes (hts i hi),
    ofBytes_bytes (hts j hj)] at hkey
  exact Nat.succ_injective (congrArg ts hkey)

/-- A new memtable is rotated for them if they leave too little of it. -/
theorem exists_rotated_sixteen {n : ℕ} (hmin : maxSkipList ≤ 107 + 16 * (n + 131))
    (hmax : 16 * (n + 131) ≤ maxSkipList) : ∃ rp rp' : Partition, rp.Reached ∧
      ¬ rp.FitsNow (sixteen n) ∧ Skl.newSkiplist maxSkipList = some rp'.mt ∧
      rp.ensureRoomForWrite (sixteen n) ⟨0, 0, 0⟩ = some (rp', true) := by
  obtain ⟨rp, hmade, hn, -, hchan⟩ := exists_opened
  have hnow : ¬ rp.FitsNow (sixteen n) := by
    rintro ⟨-, hlt⟩
    rw [hn, estimate_sixteen] at hlt
    omega
  obtain ⟨mt, hmt, -, -⟩ := @Skl.Refines.new maxSkipList (by decide) (by decide)
  refine ⟨rp, { mt := mt, imm := rp.imm ++ [rp.mt], seqNumber := rp.seqNumber + 1
                flushChan := [⟨rp.mt, ⟨0, 0, 0⟩, rp.seqNumber + 1, false⟩] },
    ⟨[], hmade, by simp⟩, hnow, hmt, ?_⟩
  rw [Partition.ensureRoomForWrite, estimate_sixteen, if_neg (not_lt.mpr hmax), if_neg hnow, hchan,
    hmt]
  rfl

/-- With keys of 65399 bytes the batch rotates a new memtable, and there is just enough room. -/
theorem room_of_admission_sixteen : ∃ (rp rp' : Partition) (mt : Skl), rp.Reached ∧
    Fits (sixteen 65399) ∧ rp.ensureRoomForWrite (sixteen 65399) ⟨0, 0, 0⟩ = some (rp', true) ∧
    ¬ rp.FitsNow (sixteen 65399) ∧ rp.HasRoom (sixteen 65399) ∧
    writeToLSM rp'.mt (tallest (sixteen 65399)) = some mt := by
  obtain ⟨rp, rp', hrp, hnow, -, hok⟩ := @exists_rotated_sixteen 65399 (by decide) (by decide)
  have hfits : Fits (sixteen 65399) := fits_sixteen (by decide)
  have hroom : rp.HasRoom (sixteen 65399) := by
    refine .inr ?_
    rw [estimate_sixteen, length_sixteen]
    decide
  obtain ⟨mt, hmt⟩ := (room_of_admission hrp hfits hok).1 hroom _ (drawn_tallest _)
  exact ⟨rp, rp', mt, hrp, hfits, hok, hnow, hroom, hmt⟩

/-- With keys of 65405 bytes the batch is as large as a memtable by its estimates.  It is admitted
to a new memtable, and with towers of twenty levels its last entry finds the arena full. -/
theorem admitted_without_room : ∃ (rp rp' : Partition) (drawn : List (EntryInfo × ℕ)), rp.Reached ∧
    Fits (sixteen 65405) ∧ rp.ensureRoomForWrite (sixteen 65405) ⟨0, 0, 0⟩ = some (rp', true) ∧
    Drawn (sixteen 65405) drawn ∧ writeToLSM rp'.mt drawn = none := by
  obtain ⟨rp, rp', hrp, -, hmt, hok⟩ := @exists_rotated_sixteen 65405 (by decide) (by decide)
  have hfits : Fits (sixteen 65405) := fits_sixteen (by decide)
  obtain ⟨hlen, href⟩ := refines_rotated hmt
  have hhead : rp'.mt.arena.n = 107 := href.memSize
  refine ⟨rp, rp', tallest (sixteen 65405), hrp, hfits, hok, drawn_tallest _,
    writeToLSM_dies href hfits (nodup_sixteen _) ?_ ?_ ?_⟩
  · exact fun _ _ _ => SortedMap.not_mem_empty _
  · rw [hlen]
    decide
  · rw [hlen, hhead, estimate_sixteen, length_sixteen]
    decide

end Admission
end Autumn
