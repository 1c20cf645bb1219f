import Autumn.RangePartition.StoreSize
import Autumn.Skiplist.Allocation
import Autumn.Table.ShownPairs

/-!
# The size estimates are upper bounds

`estimatedSizeInSkl` for an entry of the log and `estimatedVS` for a pair of a table decide whether
it still fits a memtable.  Here they are compared with what the arena of the skiplist gives away.
-/

namespace Autumn

open Lib Y InternalKey ValueStruct

/-- `writeToLSM`: the call for an entry. -/
def lsmOp (ei : EntryInfo) (height : ℕ) : Skl.PutOp := ⟨ei.log.key.bytes, lsmValue ei, height⟩

theorem encodedSize_lsmValue (ei : EntryInfo) : (lsmValue ei).encodedSize =
    (if shouldWriteValueToLSM ei.log then ei.log.value.length + 2 else vptrSize + 2) +
      sizeVarint ei.log.expiresAt := by
  rw [lsmValue]
  split_ifs
  · rfl
  · show (ValuePointer.encode _).length + 2 + _ = _
    rw [ValuePointer.length_encode, vptrSize]

theorem expiresAt_lsmValue (ei : EntryInfo) : (lsmValue ei).expiresAt = ei.log.expiresAt := by
  rw [lsmValue]
  split_ifs <;> rfl

theorem need_lsmOp (ei : EntryInfo) (height : ℕ) :
    (lsmOp ei height).need + nodeAllowance = estimatedSizeInSkl ei.log + nodeSize height := by
  show nodeSize height + ei.log.key.bytes.length + (lsmValue ei).encodedSize + nodeAllowance = _
  rw [encodedSize_lsmValue, length_bytes, estimatedSizeInSkl]
  omega

theorem need_lsmOp_lt (ei : EntryInfo) (height : ℕ) :
    (lsmOp ei height).need < estimatedSizeInSkl ei.log := by
  have hneed := need_lsmOp ei height
  have hnode := nodeSize_le height
  rw [nodeAllowance] at hneed
  omega

theorem need_le_estimatedVS {key : Bytes} (hkey : 8 ≤ key.length) {v : ValueStruct} (hv : Stored v)
    (height : ℕ) :
    (Skl.PutOp.mk key v height).need ≤ estimatedVS (ofBytes key) v := by
  have hput : (Skiplist.put ⟨.empty, 0⟩ (ofBytes key) v height).memSize ≤
      0 + estimatedVS (ofBytes key) v :=
    memSize_put_le_estimatedVS ⟨.empty, 0⟩ (x := (ofBytes key, v)) hv height
  have hnew : (Skiplist.put ⟨.empty, 0⟩ (ofBytes key) v height).memSize =
      0 + nodeSize height + (ofBytes key).len + v.encodedSize := rfl
  rw [hnew, len_ofBytes hkey] at hput
  show nodeSize height + key.length + v.encodedSize ≤ _
  omega

namespace Skl

/-- What the arena of a new skiplist has given away after the calls: the parts for the head, and
those for the calls. -/
def parts (arenaSize : ℕ) (ops : List PutOp) : List (Alloc × Region) :=
  (((newArena arenaSize).allocs headRequests).map Prod.fst).getD [] ++
    ((newSkiplist arenaSize).map fun s => s.handedOut ops).getD []

/-- A skiplist made by `Put` calls, each in a state with room for it. -/
structure Made (arenaSize : ℕ) (ops : List PutOp) (s : Skl) : Prop where
  size_lt : arenaSize < 2 ^ 32
  size_ge : Skiplist.new.memSize ≤ arenaSize
  admissible : ∀ s₀, newSkiplist arenaSize = some s₀ → Guarded step Admissible s₀ ops
  run : (newSkiplist arenaSize).bind (fun s₀ => exec step s₀ ops) = some s

variable {arenaSize : ℕ} {ops : List PutOp} {s s' : Skl} {op : PutOp}

section

variable (h : Made arenaSize ops s)
include h

theorem Made.exec_eq {s₀ : Skl} (hnew : newSkiplist arenaSize = some s₀) :
    exec step s₀ ops = some s := by
  have hrun := h.run
  rwa [hnew, Option.bind_some] at hrun

/-- The parts given away lie one behind the other, from position one on. -/
theorem Made.consecutive : Consecutive ((parts arenaSize ops).map Prod.snd) 1 s.arena.n ∧
      (∀ x ∈ parts arenaSize ops, x.1.Aligned x.2) ∧ s.TopEmpty ∧ s.arena.len = arenaSize ∧
      s.arena.n ≤ arenaSize := by
  obtain ⟨s₀, xs, a, hnew, halloc, hcons, halign, hlen, htop, hle, -⟩ :=
    newSkiplist_takes h.size_lt h.size_ge
  obtain ⟨hcons', halign', htop', hlen', hle'⟩ := consecutive_handedOut htop (hlen ▸ h.size_lt)
    (hlen ▸ hle) (h.admissible s₀ hnew) (h.exec_eq hnew)
  have hparts : parts arenaSize ops = xs ++ s₀.handedOut ops := by
    rw [parts, halloc, hnew]
    rfl
  rw [hparts, List.map_append]
  exact ⟨hcons.append hcons', List.forall_mem_append.mpr ⟨halign, halign'⟩, htop', hlen'.trans hlen,
    hlen ▸ hle'⟩

theorem Made.growth_le (hop : s.Admissible op) (hs : s.step op = some s') :
    s'.arena.n ≤ s.arena.n + op.need := by
  obtain ⟨-, -, htop, hlen, -⟩ := h.consecutive
  obtain ⟨hn, -⟩ := put_takes htop (hlen ▸ h.size_lt) hop.expiresAt_lt hop.room hs
  rw [hn]
  exact Nat.add_le_add_left (s.sum_requests_le op) _

theorem Made.refines (hops : ∀ o ∈ ops, o.Valid) : ∃ L, s.Refines (sortedMap ops) L := by
  obtain ⟨s₀, hnew, -, h₀⟩ := Refines.new h.size_lt h.size_ge
  exact h₀.of_guarded hops (h.admissible s₀ hnew) (h.exec_eq hnew)

theorem Made.returns (hops : ∀ o ∈ ops, o.Valid) (hop : op.Valid) (hroom : s.HasRoom op) :
    ∃ s', s.step op = some s' := by
  obtain ⟨L, href⟩ := h.refines hops
  obtain ⟨s', -, hs', -⟩ := href.step_of_hasRoom hop hroom
  exact ⟨s', hs'⟩

end

end Skl

/-! ## Pairs of tables -/

/-- A pair with a value that `writeToLSM` has stored, as it is read back, under a key as it comes
from a memtable. -/
structure OfEntry (x : Sst.KV) : Prop where
  len_ge : 8 ≤ x.1.length
  len_le : x.1.length ≤ 65535
  value : ∃ ei : EntryInfo, ei.log.expiresAt < 2 ^ 64 ∧ x.2.decoded = (lsmValue ei).decoded

theorem OfEntry.stored {x : Sst.KV} (h : OfEntry x) : Stored x.2.decoded := by
  obtain ⟨ei, -, heq⟩ := h.value
  rw [heq]
  exact stored_lsmValue ei

theorem OfEntry.buildable {x : Sst.KV} (h : OfEntry x) : Sst.Buildable x := by
  obtain ⟨ei, hexp, heq⟩ := h.value
  have hsize : x.2.decoded.encodedSize = (lsmValue ei).decoded.encodedSize :=
    congrArg encodedSize heq
  have hsize : x.2.encodedSize = (lsmValue ei).encodedSize := hsize
  have hx : x.2.decoded.expiresAt = (lsmValue ei).decoded.expiresAt :=
    congrArg expiresAt heq
  have hx : x.2.expiresAt = (lsmValue ei).expiresAt := hx
  refine ⟨h.len_ge, h.len_le, ?_, ?_⟩
  · rw [hx, expiresAt_lsmValue]
    exact hexp
  · have hlen := sizeVarint_le (n := 9) (hexp.trans (by decide))
    have hmax : Sst.maxValueSize = 2 ^ 31 - 2 ^ 17 := rfl
    rw [hsize, encodedSize_lsmValue]
    split_ifs with hs
    · rw [shouldWriteValueToLSM, Bool.and_eq_true, decide_eq_true_iff, valueThrottle] at hs
      omega
    · rw [vptrSize]
      omega

/-- **The estimates are upper bounds.**  For every entry and every pair of a table, in every state
with room for it and with every height, the skiplist grows by the estimate at most.  What the arena
gives away lies in the buffer, behind position zero, without overlap, and nodes are aligned. -/
theorem sizeEstimates_bound {arenaSize : ℕ} {ops : List Skl.PutOp} {s : Skl}
    (h : Skl.Made arenaSize ops s) :
    (∀ ei height s', s.Admissible (lsmOp ei height) → s.step (lsmOp ei height) = some s' →
      s'.arena.n ≤ s.arena.n + estimatedSizeInSkl ei.log) ∧
    (∀ (C : Sst.Codec) (l : List Sst.KV) (t : Sst.Table), C.Faithful → l ≠ [] →
      (∀ x ∈ l, OfEntry x) → Sst.Opened C l t →
      ∀ reversed calls itr, Sst.TableIterator.run t reversed calls = some itr → itr.valid = true →
        ∃ v, itr.value = some v ∧ ∀ height s', s.Admissible ⟨itr.key, v, height⟩ →
          s.step ⟨itr.key, v, height⟩ = some s' →
          s'.arena.n ≤ s.arena.n + estimatedVS (InternalKey.ofBytes itr.key) v) ∧
    ((∀ op ∈ ops, op.Valid) → ∀ op : Skl.PutOp, op.Valid → s.HasRoom op →
      ∃ s', s.step op = some s') ∧
    ((Skl.parts arenaSize ops).Pairwise fun x y => Disjoint x.2.positions y.2.positions) ∧
    ∀ x ∈ Skl.parts arenaSize ops, 0 < x.2.start ∧ x.2.stop ≤ arenaSize ∧ x.1.Aligned x.2 := by
  obtain ⟨hcons, halign, -, -, hle⟩ := h.consecutive
  refine ⟨fun ei height s' hop hs => ?_,
    fun C l t hC hne hl hopen reversed calls itr hrun hvalid => ?_,
    fun hops op hop hroom => h.returns hops hop hroom, ?_, fun x hx => ?_⟩
  · exact (h.growth_le hop hs).trans (Nat.add_le_add_left (need_lsmOp_lt ei height).le _)
  · have hblocks := hopen.blocksHold hC (fun x hx => (hl x hx).buildable)
      (fun x hx _ => hl x hx) hne
    obtain ⟨x, hx, hkey, hval⟩ := Sst.TableIterator.run_shows hblocks hrun hvalid
    have hv := decode_encode hx.buildable.value.expiresAt_lt
    refine ⟨x.2.decoded, ?_, fun height s' hop hs => ?_⟩
    · rw [Sst.TableIterator.value, hval, hv]
    · have hlen : 8 ≤ itr.key.length := hx.len_ge.trans_eq (congrArg List.length hkey.symm)
      exact (h.growth_le hop hs).trans
        (Nat.add_le_add_left (need_le_estimatedVS hlen hx.stored height) _)
  · have hdisj := hcons.pairwise_disjoint
    rwa [List.pairwise_map] at hdisj
  · obtain ⟨hge, hstop⟩ := hcons.bounds x.2 (List.mem_map_of_mem hx)
    exact ⟨hge, hstop.trans hle, halign x hx⟩

/-- An entry with a value of one byte. -/
def smallEntry : EntryInfo := { log := { key := keyWithTs [97] 1, value := [1] } }

/-- It is put twice into a memtable of one kilobyte. -/
theorem sizeEstimates_bound_smallEntry : ∃ s s', Skl.Made 1024 [lsmOp smallEntry 3] s ∧
    s.Admissible (lsmOp smallEntry 20) ∧ s.step (lsmOp smallEntry 20) = some s' ∧
    s'.arena.n ≤ s.arena.n + estimatedSizeInSkl smallEntry.log := by
  have hvalid₃ : (lsmOp smallEntry 3).Valid := by decide +kernel
  have hvalid₂₀ : (lsmOp smallEntry 20).Valid := by decide +kernel
  have hneed : (lsmOp smallEntry 3).need ≤ 200 ∧ (lsmOp smallEntry 20).need ≤ 200 := by decide
  obtain ⟨s₀, hnew, hlen₀, h₀⟩ := @Skl.Refines.new 1024 (by decide) (by decide)
  have hn₀ : s₀.arena.n = 107 := h₀.memSize
  have hroom₀ : s₀.HasRoom (lsmOp smallEntry 3) := by
    have := s₀.sum_requests_le (lsmOp smallEntry 3)
    rw [Skl.HasRoom]
    omega
  obtain ⟨s, L, hs, hlen, h⟩ := h₀.step_of_hasRoom hvalid₃ hroom₀
  have hmade : Skl.Made 1024 [lsmOp smallEntry 3] s := by
    refine ⟨by decide, by decide, fun s₁ hs₁ => ?_, ?_⟩
    · cases hnew.symm.trans hs₁
      exact ⟨⟨by decide, by decide, hroom₀⟩, fun _ _ => trivial⟩
    · rw [hnew, Option.bind_some, exec_cons_eq_some]
      exact ⟨s, hs, rfl⟩
  have hn : s.arena.n ≤ 307 :=
    h.memSize.trans_le (show (Skl.stepMap .new (lsmOp smallEntry 3)).memSize ≤ 307 by decide)
  have hroom : s.HasRoom (lsmOp smallEntry 20) := by
    have := s.sum_requests_le (lsmOp smallEntry 20)
    rw [Skl.HasRoom]
    omega
  obtain ⟨hbound, -, hreturns, -⟩ := sizeEstimates_bound hmade
  obtain ⟨s', hs'⟩ := hreturns (List.forall_mem_singleton.mpr hvalid₃) _ hvalid₂₀ hroom
  have hadm : s.Admissible (lsmOp smallEntry 20) := ⟨by decide, by decide, hroom⟩
  exact ⟨s, s', hmade, hadm, hs', hbound smallEntry 20 s' hadm hs'⟩

end Autumn
