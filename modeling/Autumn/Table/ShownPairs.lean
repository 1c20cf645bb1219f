import Autumn.Table.FailingReads
import Autumn.Table.RoundTrip

/-!
# What an iterator shows is in a block

A key of 65532 to 65535 bytes has a length that fits the header of its entry, but not together with
the four bytes of the header: the end of the slice, which is taken in sixteen bits, is out of
bounds.  Memtables have keys of up to 65535 bytes, so a table may hold such a key.

An iterator over a table with such keys may die on the way, but what it shows is a pair of a block,
with the value that was written there (`run_shows`), and the first key of that block has at most
65531 bytes.  Neither the order of the pairs nor the index of the table matters for this.
-/

namespace Autumn

open Lib Y List Option

namespace Sst

variable {P : KV → Prop} {key : Bytes}

/-- The pairs of a block: keys of at most 65535 bytes, and a property unless the first key is too
long to be read. -/
def AllShort (P : KV → Prop) (es : List KV) : Prop :=
  ∀ x ∈ es, x.1.length < 2 ^ 16 ∧ ((baseOf es).length ≤ 65531 → P x)

/-- The bytes behind a header, if the end of the slice is taken in sixteen bits. -/
theorem le_of_slice {b c : Bytes} {n : ℕ} (hn : n < 2 ^ 16) (h : slice b 4 (u16 (4 + n)) = some c) :
    n ≤ 65531 := by
  rw [slice] at h
  split_ifs at h with hle
  have := hle.1
  rw [u16] at this
  omega

theorem u16_four_add {n : ℕ} (hn : n ≤ 65531) : u16 (4 + n) = 4 + n := Nat.mod_eq_of_lt (by omega)

namespace BlockIterator

variable {itr itr' : BlockIterator} {es : List KV}

/-- The iterator shows a pair with the property. -/
def ShowsPair (P : KV → Prop) (itr : BlockIterator) : Prop :=
  ∃ x, P x ∧ itr.key = x.1 ∧ itr.val = x.2.encode

/-- The iterator is over a block of such pairs; it has not read the first key, or could do so. -/
structure Within (P : KV → Prop) (itr : BlockIterator) (es : List KV) : Prop
    extends Over itr es where
  short : AllShort P es
  base_le : itr.baseKey.length ≤ 65531

section

variable (h : Within P itr es)
include h

theorem loadBase_keeps (hne : es ≠ []) {b : Bytes} (hb : itr.loadBase = some b) :
    b = baseOf es ∧ b.length ≤ 65531 := by
  have hlen : (baseOf es).length < 2 ^ 16 := by
    cases es with
    | nil => exact absurd rfl hne
    | cons e es => exact (h.short e (.head _)).1
  rw [loadBase] at hb
  split_ifs at hb with hempty
  · obtain ⟨rest, hbody⟩ := body_eq_base hne
    rw [h.data_eq, hbody, decodeHeader_encodeHeader (by omega) hlen, bind_eq_bind, bind_some] at hb
    have hslice := slice_append (encodeHeader 0 (baseOf es).length) (baseOf es) rest
    rw [length_encodeHeader, append_assoc] at hslice
    have hle := le_of_slice hlen hb
    rw [u16_four_add hle, hslice, some_inj] at hb
    exact ⟨hb.symm, hb ▸ hle⟩
  · obtain rfl := some.inj hb
    exact ⟨h.base.resolve_left fun hbase => hempty (hbase ▸ length_nil), h.base_le⟩

/-- **Moving to an index** dies, or gives a pair of the block, or is the end. -/
theorem setIdx_keeps {i : ℤ} (hset : itr.setIdx i = some itr') :
    Within P itr' es ∧ (itr'.eof = false → itr'.ShowsPair P) := by
  by_cases hout : i ≥ es.length ∨ i < 0
  · rw [setIdx_of_out h.toOver hout] at hset
    cases hset
    exact ⟨{ h with data_eq := h.data_eq }, by simp⟩
  · obtain ⟨j, rfl⟩ : ∃ j : ℕ, i = j := ⟨i.toNat, by omega⟩
    have hj : j < es.length := by omega
    have he : es[j]? = some es[j] := getElem?_eq_getElem hj
    generalize es[j] = e at he
    have hmem : e ∈ es := mem_of_getElem? he
    obtain ⟨hshort, hP⟩ := h.short e hmem
    obtain ⟨ov, start, stop, hstart, hstop, hentry, hov, hovb, htake⟩ :=
      exists_entryData h.toOver he
    have hin : ¬ ((j : ℤ) ≥ itr.entryOffsets.length ∨ (j : ℤ) < 0) := by
      rw [h.offsets_eq, length_offsets]
      omega
    rw [setIdx, if_neg hin] at hset
    simp only [bind_eq_bind, Int.toNat_natCast, hstart, hstop, bind_some, hentry,
      decodeHeader_entryBytes hov hshort] at hset
    obtain ⟨base, hbase, hset⟩ := bind_eq_some_iff.mp hset
    obtain ⟨rfl, hbase_le⟩ := loadBase_keeps h (ne_nil_of_mem hmem) hbase
    obtain ⟨diffKey, hdiff, hset⟩ := bind_eq_some_iff.mp hset
    have hu := u16_four_add (le_of_slice (by omega : e.1.length - ov < 2 ^ 16) hdiff)
    rw [hu, (slice_entryBytes ov e).1] at hdiff
    cases hdiff
    have hkey : (baseOf es).take ov ++ e.1.drop ov = e.1 := by
      rw [← htake, take_append_drop]
    simp only [makeKey_eq h.toOver hovb, bind_some, hkey, hu, (slice_entryBytes ov e).2,
      some_inj] at hset
    subst hset
    exact ⟨⟨⟨h.data_eq, h.offsets_eq, .inr rfl, hov, hovb, htake, .inr ⟨e, hmem, rfl⟩⟩, h.short,
      hbase_le⟩, fun _ => ⟨e, hP hbase_le, rfl, rfl⟩⟩

theorem seekTest_keeps {startIndex : ℤ} {i : ℕ} {answer : Bool}
    (htest : seekTest key startIndex i itr = some (answer, itr')) : Within P itr' es := by
  rw [seekTest] at htest
  split_ifs at htest
  · rw [some_inj, Prod.mk.injEq] at htest
    exact htest.2 ▸ h
  · obtain ⟨itr₁, hset, heq⟩ := map_eq_some_iff.mp htest
    rw [Prod.mk.injEq] at heq
    exact heq.2 ▸ (setIdx_keeps h hset).1

theorem seek_keeps {whence : Whence} (hseek : itr.seek key whence = some itr') :
    Within P itr' es ∧ (itr'.eof = false → itr'.ShowsPair P) := by
  rw [seek, bind_eq_bind, bind_eq_some_iff] at hseek
  obtain ⟨⟨r, itr₁⟩, hsearch, hset⟩ := hseek
  have h₁ : Within P itr₁ es :=
    search_keeps (I := fun b => Within P b es) (fun _ _ _ _ hb => seekTest_keeps hb) h hsearch
  exact setIdx_keeps h₁ hset

end

theorem baseKey_of_setBlock {blk : Block} (h : setBlock blk = some itr) : itr.baseKey = [] := by
  simp only [setBlock, bind_eq_bind, bind_eq_some_iff] at h
  obtain ⟨_, _, _, _, _, _, h⟩ := h
  cases h
  rfl

end BlockIterator

/-! ## The iterator over a table -/

/-- The blocks of the table hold pairs with the property, under keys of at most 65535 bytes, unless
the first key of a block cannot be read. -/
def BlocksHold (t : Table) (P : KV → Prop) : Prop :=
  ∀ bp b, t.block bp = some (.ok b) → ∃ es, Encodes b es ∧ AllShort P es

/-- The block iterator has no block, or one with such pairs. -/
def Loaded (P : KV → Prop) (bi : BlockIterator) : Prop :=
  bi.data = [] ∨ ∃ es, bi.Within P es

namespace TableIterator

variable {t : Table} {itr itr' : TableIterator}

/-- Where an iterator stands between two calls: it shows a pair unless it has an error. -/
structure Sound (P : KV → Prop) (itr : TableIterator) : Prop where
  loaded : Loaded P itr.bi
  shows : itr.err = none → itr.bi.ShowsPair P

/-- A move within a block. -/
def Moves (move : BlockIterator → Option BlockIterator) (P : KV → Prop) : Prop :=
  ∀ bi bi' es, BlockIterator.Within P bi es → move bi = some bi' →
    BlockIterator.Within P bi' es ∧ (bi'.eof = false → bi'.ShowsPair P)

theorem error_eq_none {bi : BlockIterator} : bi.error = none ↔ bi.eof = false := by
  unfold BlockIterator.error
  cases bi.eof <;> simp

theorem Sound.of_err (h : Loaded P itr.bi) (bpos : ℤ) (e : Err) : Sound P ⟨bpos, itr.bi, some e⟩ :=
  ⟨h, fun herr => absurd herr (by simp)⟩

theorem load_keeps (ht : BlocksHold t P) {bpos : ℤ} {move : BlockIterator → Option BlockIterator}
    (hmove : Moves move P) (h : Loaded P itr.bi) (hload : load t itr bpos move = some itr') :
    Sound P itr' := by
  rw [load] at hload
  split at hload
  · simp at hload
  · exact some.inj hload ▸ Sound.of_err h _ _
  · rename_i b hb
    obtain ⟨es, henc, hes⟩ := ht bpos b hb
    obtain ⟨bi, hbi, hover⟩ := BlockIterator.setBlock_spec henc
    rw [hbi, bind_eq_bind, bind_some] at hload
    obtain ⟨bi', hbi', hload⟩ := bind_eq_some_iff.mp hload
    cases hload
    have hbase : bi.baseKey.length ≤ 65531 := by
      rw [BlockIterator.baseKey_of_setBlock hbi]
      exact Nat.zero_le _
    obtain ⟨hwithin, hshows⟩ := hmove bi bi' es ⟨hover, hes, hbase⟩ hbi'
    exact ⟨.inr ⟨es, hwithin⟩, fun herr => hshows (error_eq_none.mp herr)⟩

/-- A step in the block, or a step over its end. -/
theorem setIdx_sound (h : Loaded P itr.bi) (hdata : ¬ itr.bi.data.length = 0) {i : ℤ}
    {leave : BlockIterator → Option TableIterator}
    (hleave : ∀ bi, leave bi = some itr' → Sound P itr') (hs : (match itr.bi.setIdx i with
      | none => none
      | some bi => if bi.eof then leave bi else some { itr with bi := bi, err := none }) =
        some itr') :
    Sound P itr' := by
  obtain ⟨es, hwithin⟩ := h.resolve_left fun hnil => hdata (hnil ▸ length_nil)
  split at hs
  · simp at hs
  · rename_i bi hbi
    obtain ⟨hwithin', hshows⟩ := BlockIterator.setIdx_keeps hwithin hbi
    split_ifs at hs with heof
    · exact hleave bi hs
    · cases hs
      exact ⟨.inr ⟨es, hwithin'⟩, fun _ => hshows (by simpa using heof)⟩

theorem moves_setIdx (f : BlockIterator → ℤ) : Moves (fun bi => bi.setIdx (f bi)) P :=
  fun _ _ _ h hset => BlockIterator.setIdx_keeps h hset

theorem moves_seek (key : Bytes) : Moves (fun bi => bi.seek key .origin) P :=
  fun _ _ _ h hseek => BlockIterator.seek_keeps h hseek

section

variable (ht : BlocksHold t P)
include ht

theorem seekToFirst_keeps (h : Loaded P itr.bi) (hs : seekToFirst t itr = some itr') :
    Sound P itr' := by
  rw [seekToFirst] at hs
  split_ifs at hs
  · exact some.inj hs ▸ Sound.of_err h _ _
  · exact load_keeps ht (moves_setIdx fun _ => 0) h hs

theorem seekToLast_keeps (h : Loaded P itr.bi) (hs : seekToLast t itr = some itr') :
    Sound P itr' := by
  rw [seekToLast] at hs
  split_ifs at hs
  · exact some.inj hs ▸ Sound.of_err h _ _
  · exact load_keeps ht (moves_setIdx fun bi => (bi.entryOffsets.length : ℤ) - 1) h hs

theorem seekFrom_keeps (h : Loaded P itr.bi) (hs : seekFrom t itr key = some itr') :
    Sound P itr' := by
  rw [seekFrom] at hs
  split_ifs at hs
  split at hs
  · simp at hs
  · exact load_keeps ht (moves_seek key) h hs
  · split at hs
    · simp at hs
    · rename_i itr₁ hhelper
      have h₁ : Sound P itr₁ := load_keeps ht (moves_seek key) h hhelper
      split_ifs at hs
      · exact some.inj hs ▸ h₁
      · exact load_keeps ht (moves_seek key) h₁.loaded hs
      · exact some.inj hs ▸ h₁

/-- `next` and `prev` move within the block, and at its end to another block. -/
theorem next_keeps {fuel : ℕ} (h : Loaded P itr.bi) (hs : next t fuel itr = some itr') :
    Sound P itr' := by
  induction fuel generalizing itr with
  | zero => simp [next] at hs
  | succ fuel ih =>
    rw [next] at hs
    split_ifs at hs with hend hdata
    · exact some.inj hs ▸ Sound.of_err h _ _
    · exact load_keeps ht (moves_setIdx fun _ => 0) h hs
    · exact setIdx_sound h hdata (fun _ => ih (.inl rfl)) hs

theorem prev_keeps {fuel : ℕ} (h : Loaded P itr.bi) (hs : prev t fuel itr = some itr') :
    Sound P itr' := by
  induction fuel generalizing itr with
  | zero => simp [prev] at hs
  | succ fuel ih =>
    rw [prev] at hs
    split_ifs at hs with hend hdata
    · exact some.inj hs ▸ Sound.of_err h _ _
    · exact load_keeps ht (moves_setIdx fun bi => (bi.entryOffsets.length : ℤ) - 1) h hs
    · exact setIdx_sound h hdata (fun _ => ih (.inl rfl)) hs

theorem seekForPrev_keeps (h : Loaded P itr.bi) (hs : seekForPrev t itr key = some itr') :
    Sound P itr' := by
  rw [seekForPrev] at hs
  split at hs
  · simp at hs
  · rename_i itr₁ hseek
    have h₁ := seekFrom_keeps ht h hseek
    split_ifs at hs
    · exact prev_keeps ht h₁.loaded hs
    · exact some.inj hs ▸ h₁

theorem step_keeps (h : Loaded P itr.bi) {reversed : Bool} {op : Op}
    (hs : step t reversed itr op = some itr') : Sound P itr' := by
  cases op with
  | rewind =>
    rw [step] at hs
    split_ifs at hs
    · exact seekToLast_keeps ht h hs
    · exact seekToFirst_keeps ht h hs
  | seek key =>
    rw [step] at hs
    split_ifs at hs
    · exact seekForPrev_keeps ht h hs
    · exact seekFrom_keeps ht h hs
  | next =>
    rw [step] at hs
    split_ifs at hs
    · exact prev_keeps ht h hs
    · exact next_keeps ht h hs

/-- **What an iterator shows is a pair of a block**, after any calls that it survives. -/
theorem run_shows {reversed : Bool} {ops : List Op} (hrun : run t reversed ops = some itr)
    (hvalid : itr.valid = true) : itr.bi.ShowsPair P := by
  rw [run, bind_eq_some_iff] at hrun
  obtain ⟨itr₀, hnew, hops⟩ := hrun
  have h₀ : Sound P itr₀ := next_keeps ht (.inl rfl) hnew
  suffices h : Sound P itr from h.shows (isNone_iff_eq_none.mp hvalid)
  clear hnew
  induction ops generalizing itr₀ with
  | nil =>
    exact some.inj hops ▸ h₀
  | cons op ops ih =>
    rw [foldlM_cons, bind_eq_bind, bind_eq_some_iff] at hops
    obtain ⟨itr₁, hstep, hops⟩ := hops
    exact ih itr₁ hops (step_keeps ht h₀.loaded hstep)

end

end TableIterator

/-! ## Tables that were built -/

/-- The table was built from a list, stored in the stream and opened. -/
def Opened (C : Codec) (l : List KV) (t : Table) : Prop :=
  ∃ b read appends e o s block extentID offset, build C.fingerprint l = some b ∧
    Stored read b appends ∧ (C.marshal (tableIndex C b appends)).length ≤ 2 ^ 32 - 4096 ∧
    finishAll C (tableIndex C b appends) e o s = some block ∧ read extentID offset = some [block] ∧
    openTable C read extentID offset = some (.ok t)

section

variable {C : Codec} (hC : C.Faithful) {l : List KV} {t : Table} (h : Opened C l t)
  (hl : ∀ x ∈ l, Buildable x)
include hC h hl

theorem Opened.leads (hne : l ≠ []) :
    ∃ (sent : List (Block × Bytes)) (blocks : List (List KV)), blocks.flatten = l ∧
      List.Forall₂ (Leads t.read) t.blockIndex sent ∧
      List.Forall₂ Sends sent blocks := by
  obtain ⟨b, read, appends, e, o, s, block, extentID, offset, hbuild, hstored, hsize, hfinish,
    hread, hopen⟩ := h
  obtain ⟨b', blocks, hbuild', hflat, hsent, -⟩ := @build_spec C.fingerprint l hl hne
  obtain rfl : b' = b := some.inj (hbuild'.symm.trans hbuild)
  obtain ⟨block', hfinish', hslice, -⟩ := finishAll_spec hsize e o s
  obtain rfl : block' = block := some.inj (hfinish'.symm.trans hfinish)
  obtain ⟨block'', raw, index, hread'', hraw, hindex, htread, htindex⟩ := openTable_ok hopen
  obtain rfl : block' = block'' := singleton_inj.mp (some.inj (hread.symm.trans hread''))
  obtain rfl : C.marshal (tableIndex C b' appends) = raw := some.inj (hslice.symm.trans hraw)
  obtain rfl : tableIndex C b' appends = index :=
    some.inj ((hC.unmarshal_marshal _).symm.trans hindex)
  refine ⟨b'.sent, blocks, hflat, ?_, hsent⟩
  rw [htread, htindex]
  exact hstored.leads

/-- Only the first key of a block may be longer than 65531 bytes, and then the block is not read. -/
theorem Opened.blocksHold (hP : ∀ x ∈ l, x.1.length ≤ 65531 → P x) (hne : l ≠ []) :
    BlocksHold t P := by
  obtain ⟨sent, blocks, rfl, hleads, hsent⟩ := h.leads hC hl hne
  intro bp blk hblk
  rw [Table.block] at hblk
  split_ifs at hblk
  obtain ⟨bo, hbo, heq⟩ := map_eq_some_iff.mp hblk
  split at heq
  · rename_i blk' hread
    cases heq
    obtain ⟨w, hw, -, hwread⟩ := exists_left hleads.flip hbo
    obtain ⟨ds, hds, hsends⟩ := exists_left hsent.flip hw
    cases hread.symm.trans hwread
    refine ⟨ds, hsends.encodes, fun x hx => ?_⟩
    have hmem : x ∈ blocks.flatten := mem_flatten.mpr ⟨ds, mem_of_getElem? hds, hx⟩
    refine ⟨Nat.lt_succ_of_le (hl x hmem).len_le, fun hbase => hP x hmem ?_⟩
    cases hx with
    | head => exact hbase
    | tail _ hx => exact hsends.tail_le x hx
  · cases heq

end

/-- The list can be built and, wherever the stream has put its blocks, finished and opened, with a
table that has a property depending on what is passed to `FinishAll`. -/
def Opens (C : Codec) (l : List KV) (Q : ℕ → ℕ → ℕ → Table → Prop) : Prop :=
  ∃ b, build C.fingerprint l = some b ∧ ∀ read appends, Stored read b appends →
    (C.marshal (tableIndex C b appends)).length ≤ 2 ^ 32 - 4096 → ∀ e o s, ∃ block,
      finishAll C (tableIndex C b appends) e o s = some block ∧
      ∀ extentID offset, read extentID offset = some [block] →
        ∃ t, openTable C read extentID offset = some (.ok t) ∧ Q e o s t

section

variable {C : Codec} {l : List KV} {Q : ℕ → ℕ → ℕ → Table → Prop}

theorem Opens.imp (h : Opens C l Q) {R : ℕ → ℕ → ℕ → Table → Prop}
    (himp : ∀ e o s t, Q e o s t → R e o s t) : Opens C l R := by
  obtain ⟨b, hb, htrip⟩ := h
  refine ⟨b, hb, fun read appends hstored hsize e o s => ?_⟩
  obtain ⟨block, hfinish, hopen⟩ := htrip read appends hstored hsize e o s
  refine ⟨block, hfinish, fun extentID offset hread => ?_⟩
  obtain ⟨t, ht, hQ⟩ := hopen extentID offset hread
  exact ⟨t, ht, himp e o s t hQ⟩

theorem Opens.of_opened (h : Opens C l Q) {t : Table} (ht : Opened C l t) : ∃ e o s, Q e o s t := by
  obtain ⟨b, read, appends, e, o, s, block, extentID, offset, hbuild, hstored, hsize, hfinish,
    hread, hopen⟩ := ht
  obtain ⟨b', hbuild', htrip⟩ := h
  cases hbuild'.symm.trans hbuild
  obtain ⟨block', hfinish', htrip⟩ := htrip read appends hstored hsize e o s
  cases hfinish'.symm.trans hfinish
  obtain ⟨t', ht', hQ⟩ := htrip extentID offset hread
  exact ⟨e, o, s, Except.ok.inj (some.inj (ht'.symm.trans hopen)) ▸ hQ⟩

/-- A list that fills one block, at the start of extent 1, with the meta block in extent 2. -/
theorem Opens.exists_opened (h : Opens C l Q) {b : Builder} {w : Block × Bytes}
    (hbuild : build C.fingerprint l = some b) (hsent : b.sent = [w])
    (hsize : (C.marshal (tableIndex C b [⟨b.sent, 1, [0]⟩])).length ≤ 2 ^ 32 - 4096) :
    ∃ t, Opened C l t := by
  obtain ⟨b', hbuild', htrip⟩ := h
  obtain rfl : b' = b := some.inj (hbuild'.symm.trans hbuild)
  obtain ⟨block, hfinish, _⟩ := finishAll_spec hsize 0 0 0
  have hstored := @stored_singleton b' w hsent block
  obtain ⟨block', hfinish', hopen⟩ := htrip _ _ hstored hsize 0 0 0
  obtain rfl : block' = block := some.inj (hfinish'.symm.trans hfinish)
  obtain ⟨t, ht, -⟩ := hopen 2 0 rfl
  exact ⟨t, b', _, _, 0, 0, 0, block', 2, 0, hbuild, hstored, hsize, hfinish, rfl, ht⟩

variable (hC : C.Faithful) (hne : l ≠ [])
    (hsorted : l.Pairwise fun x y => Raw.compareKeys x.1 y.1 = .lt)
  (hfits : ∀ x ∈ l, Fits x)
include hC hne hsorted hfits

/-- A list that goes through the builder and the stream comes back as an open table. -/
theorem opens : Opens C l fun e o s t => ∃ T : OpenTable C.fingerprint, T.toTable = t ∧
    T.blocks.flatten = l ∧ Holds C l e o s t := by
  have hl : ∀ x ∈ l, Buildable x := fun x hx => (hfits x hx).buildable
  obtain ⟨b, blocks, hb, rfl, hsent, hhashes⟩ := @build_spec C.fingerprint l hl hne
  refine ⟨b, hb, fun read appends hstored hsize e o s => ?_⟩
  obtain ⟨block, hfinish, hopen⟩ :=
    openTable_spec hC rfl hstored.leads hsent hfits hsorted hne hhashes hsize e o s
  refine ⟨block, hfinish, fun extentID offset hread => ?_⟩
  obtain ⟨t, ht, hholds⟩ := hopen extentID offset hread
  refine ⟨t, ht, ?_⟩
  obtain ⟨sent, blocks', hflat, hleads, hsent'⟩ := Opened.leads hC
    ⟨b, read, appends, e, o, s, block, extentID, offset, hb, hstored, hsize, hfinish, hread,
      ht⟩ hl hne
  rw [← hflat] at hfits hsorted hne
  exact ⟨{ t with
    blocks := blocks'
    laid := laid_of_leads hleads hsent' hfits hsorted hne
    smallest_eq := hflat ▸ hholds.smallest_eq
    biggest_eq := hflat ▸ hholds.biggest_eq
    filter := hflat ▸ hholds.filter }, rfl, hflat, hholds⟩

end

end Sst
end Autumn
