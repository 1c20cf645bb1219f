import Autumn.RangePartition.KeySizes

/-!
# A flush on bytes

A memtable is a skiplist in an arena and a table is a list of blocks in a stream.  A flush takes the
pairs from the one to the other, and what comes out is what `Skiplist.toTable` says about sorted
maps.
-/

namespace Autumn

open Lib Y List KeySizes Skl

namespace Skl

variable {s : Skl}

/-- A skiplist after calls of `Put` that fit its arena. -/
structure After (arenaSize : ℕ) (ops : List PutOp) (s : Skl) : Prop where
  size_lt : arenaSize < 2 ^ 32
  valid : ∀ op ∈ ops, op.Valid
  memSize_le : (sortedMap ops).memSize ≤ arenaSize
  run : (newSkiplist arenaSize).bind (fun s₀ => exec step s₀ ops) = some s

theorem exists_after {arenaSize : ℕ} {ops : List PutOp} (hsize : arenaSize < 2 ^ 32)
    (hops : ∀ op ∈ ops, op.Valid) (hfit : (sortedMap ops).memSize ≤ arenaSize) :
    ∃ s L, After arenaSize ops s ∧ s.Refines (sortedMap ops) L := by
  obtain ⟨s₀, hnew, hlen, h₀⟩ := Refines.new hsize ((memSize_le_foldl ops Skiplist.new).trans hfit)
  obtain ⟨s, L, hexec, h⟩ := Refines.exec h₀ hops (hlen.symm ▸ hfit)
  exact ⟨s, L, ⟨hsize, hops, hfit, by rw [hnew, Option.bind_some, hexec]⟩, h⟩

theorem exists_after_threePuts : ∃ s, After 1024 threePuts s := by
  obtain ⟨s, _, hs, _⟩ := @exists_after 1024 threePuts (by decide) (by decide +kernel)
    (by decide +kernel)
  exact ⟨s, hs⟩

theorem After.refines {arenaSize : ℕ} {ops : List PutOp} (h : After arenaSize ops s) :
    ∃ L, s.Refines (sortedMap ops) L := by
  obtain ⟨s', L, h', href⟩ := exists_after h.size_lt h.valid h.memSize_le
  cases h'.run.symm.trans h.run
  exact ⟨L, href⟩

end Skl

/-- **A flush on bytes is `Skiplist.toTable`.** -/
theorem flushesTo_sortedMap {C : Sst.Codec} (hC : C.Faithful) {arenaSize : ℕ} {ops : List Skl.PutOp}
    {s : Skl} (hs : Skl.After arenaSize ops s) (hne : ops ≠ [])
    (hfits : ∀ op ∈ ops, Sst.Fits (op.key, op.value)) : FlushesTo C s (Skl.sortedMap ops) := by
  obtain ⟨L, href⟩ := hs.refines
  refine flushesTo hC href (fun op hop => ⟨hs.valid op hop, hfits op hop⟩) ?_
  obtain ⟨init, op, rfl⟩ := (eq_nil_or_concat' ops).resolve_left hne
  exact ne_nil_of_mem ((mem_sortedMap_iff (hs.valid op mem_concat_self).len_ge _ hs.valid).mpr
    ((lastPut_append init op op.key).trans (if_pos rfl)))

theorem flushesTo_sortedMap_threePuts :
    Sst.Unary.codec.Faithful ∧ ∃ s, Skl.After 1024 Skl.threePuts s ∧
    FlushesTo Sst.Unary.codec s (Skl.sortedMap Skl.threePuts) := by
  obtain ⟨s, hs⟩ := exists_after_threePuts
  have hfits :
      ∀ op ∈ threePuts, op.key.length ≤ 65531 ∧ op.value.encodedSize ≤ Sst.maxValueSize := by
    decide +kernel
  refine ⟨Sst.Unary.codec_faithful, s, hs, flushesTo_sortedMap Sst.Unary.codec_faithful hs
    (cons_ne_nil _ _) fun op hop => ?_⟩
  exact ⟨⟨(hs.valid op hop).len_ge, (hfits op hop).1⟩, (hs.valid op hop).expiresAt_lt,
    (hfits op hop).2⟩

end Autumn
