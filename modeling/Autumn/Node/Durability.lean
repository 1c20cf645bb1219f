import Autumn.Node.Agreement
import Autumn.Extent.Durable

/-!
# Acknowledged blocks are durable

Once an `Append` has been answered with `OK`, each replica has the blocks at the offsets of the
answer, through failing appends, late messages and restarts.  A replica answers `OK` after `Sync`,
so they are in the durable part of its file (`Extent.HoldsAll`), which no step makes shorter
(`World.Sound.step`).

Two things that the code does not look at have to go well (`Reliable`).  `AppendBlocks` ignores the
error of `Sync`, and it adds up lengths in 32 bits: at `2 ^ 32` bytes the commit length starts again
from zero and `ReadBlocks` finds nothing at the old offsets.  `acked_block_lost` shows both.
-/

namespace Autumn
namespace Node

open Lib List Option Function

/-- `Sync` does what it is called for, the extent stays below `2 ^ 32` bytes, and
`len(Data) = BlockLength`. -/
def Reliable (w : World) : Action → Prop
  | .append blocks =>
    (∀ b ∈ blocks, b.Sized) ∧ (w.extents 0).commitLength + totalSize blocks < 2 ^ 32
  | .write f => f.sync = false
  | .deliver _ _ f => f.sync = false
  | .restart i tail => ((w.extents i).durable ++ tail).length < 2 ^ 32
  | _ => True

instance (w : World) : DecidablePred (Reliable w)
  | .append _ => inferInstanceAs (Decidable (_ ∧ _))
  | .write f => inferInstanceAs (Decidable (f.sync = false))
  | .deliver _ _ f => inferInstanceAs (Decidable (f.sync = false))
  | .restart i tail => inferInstanceAs (Decidable (((w.extents i).durable ++ tail).length < 2 ^ 32))
  | .reply _ => isTrue trivial
  | .timeout _ => isTrue trivial
  | .finish _ => isTrue trivial

/-- The replicas are sound, and what they were asked to append fits. -/
structure World.Sound (w : World) : Prop where
  extents : ∀ i, (w.extents i).Sound
  fits : ∀ q ∈ w.requests, q.Fits

variable {w : World}

section

variable {w' : World} {a : Action}

theorem World.Sound.init (id : ℕ) : (World.init id).Sound :=
  ⟨fun _ => Extent.sound_createExtent id, by simp [World.init]⟩

theorem World.Sound.handle (h : w.Sound) (i : Replica) (n : ℕ) {q : Request} (hq : q ∈ w.requests)
    {f : Fault} (hsync : f.sync = false) (j : Replica) :
    ((w.handle i n q f).extents j).Sound ∧
      (w.extents j).durable <+: ((w.handle i n q f).extents j).durable := by
  by_cases hj : j = i
  · subst hj
    rw [World.handle_extents_self]
    obtain ⟨hs, hpre, -⟩ := (h.extents j).append (h.fits q hq).1 (h.fits q hq).2 hsync
    exact ⟨hs, hpre⟩
  · rw [World.handle_extents_of_ne w i n q f hj]
    exact ⟨h.extents j, prefix_refl _⟩

/-- **One step keeps the replicas sound and what they hold durably.** -/
theorem World.Sound.step (h : w.Sound) (hm : Moves w a w') (hr : Reliable w a) :
    w'.Sound ∧ ∀ j, (w.extents j).durable <+: (w'.extents j).durable := by
  cases hm with
  | append blocks hcall =>
    exact ⟨⟨h.extents, forall_mem_concat h.fits hr⟩, fun j => prefix_refl _⟩
  | @write f c q hcall hreq hres =>
    have hh := h.handle 0 c.request (mem_of_getElem? hreq) hr
    exact ⟨⟨fun j => (hh j).1, h.fits⟩, fun j => (hh j).2⟩
  | @deliver i n f q hmsg hi hreq =>
    have hh := h.handle i n (mem_of_getElem? hreq) hr
    exact ⟨⟨fun j => (hh j).1, h.fits⟩, fun j => (hh j).2⟩
  | reply i hcall hans hres hi | timeout i hcall hres hi | finish order hcall hperm hres =>
    exact ⟨⟨h.extents, h.fits⟩, fun j => prefix_refl _⟩
  | @restart i tail e hopen =>
    have hre := (h.extents i).restart hr hopen
    have hall : ∀ j, (update w.extents i e j).Sound ∧
        (w.extents j).durable <+: (update w.extents i e j).durable := by
      intro j
      by_cases hj : j = i
      · subst hj
        rw [update_self]
        exact hre
      · rw [update_of_ne hj]
        exact ⟨h.extents j, prefix_refl _⟩
    exact ⟨⟨fun j => (hall j).1, h.fits⟩, fun j => (hall j).2⟩

/-- Sound replicas, and answers that stand for durable blocks. -/
def World.Durable (w : World) : Prop := w.Sound ∧ w.Confirmed Extent.HoldsAll

theorem World.Durable.step (h : w.Durable) (hm : Moves w a w') (hr : Reliable w a) :
    w'.Durable := by
  obtain ⟨hs, hpre⟩ := h.1.step hm hr
  refine ⟨hs, h.2.step hm (fun i c bs hh => hh.mono (hpre i)) ?_⟩
  intro i q f offsets hf hq hok
  have hsync : f.sync = false := by
    cases a with
    | write g | deliver i n g =>
      cases hf
      exact hr
    | append _ | reply _ | timeout _ | finish _ | restart _ _ =>
      cases hf
  exact ((h.1.extents i).append (h.1.fits q hq).1 (h.1.fits q hq).2 hsync).2.2 offsets hok

end

theorem length_offsetsFrom : ∀ (o : ℕ) (bs : List Block), (offsetsFrom o bs).length = bs.length
  | _, [] => rfl
  | o, b :: bs => by
    rw [offsetsFrom, length_cons, length_cons, length_offsetsFrom (o + b.size) bs]

/-- The blocks of request `n`, acknowledged in `w`, are read at their offsets in `w'`. -/
def ReadableIn (w w' : World) (n : ℕ) (offsets : List ℕ) : Prop :=
  ∃ q, w.requests[n]? = some q ∧ offsets.length = q.blocks.length ∧
    ∀ (k : ℕ) (b : Block) (o : ℕ), q.blocks[k]? = some b → offsets[k]? = some o →
      ∀ (i : Replica) (maxTotalSize : ℕ),
        (w'.extents i).readBlocks o 1 maxTotalSize = .ok ([b], .full)

theorem durable_of_exec {id : ℕ} {as : List Action} (hg : Guarded step Reliable (World.init id) as)
    (h : exec step (World.init id) as = some w) : w.Durable :=
  exec_invariant (fun _ _ _ hs hr hstep => World.Durable.step hs (moves_of_step hstep) hr)
    ⟨World.Sound.init id, World.Confirmed.init id⟩ hg h

variable {n : ℕ}

theorem World.Durable.readableIn {as : List Action} {w' : World} (hw : w.Durable)
    (hg : Guarded Node.step Reliable w as) (h : exec Node.step w as = some w') {offsets : List ℕ}
    (hack : (n, offsets) ∈ w.acked) : ReadableIn w w' n offsets := by
  have hw' : w'.Sound ∧ ∀ i, (w.extents i).durable <+: (w'.extents i).durable := by
    refine exec_invariant
      (I := fun s => s.Sound ∧ ∀ i, (w.extents i).durable <+: (s.extents i).durable) ?_
      ⟨hw.1, fun i => prefix_refl _⟩ hg h
    intro s a s' hs hr hstep
    obtain ⟨hs', hpre⟩ := hs.1.step (moves_of_step hstep) hr
    exact ⟨hs', fun i => (hs.2 i).trans (hpre i)⟩
  obtain ⟨q, hq, rfl, hall⟩ := hw.2.acked n offsets hack
  refine ⟨q, hq, length_offsetsFrom _ _, fun k b o hb ho i maxTotalSize => ?_⟩
  exact ((hall i k b o hb ho).mono (hw'.2 i)).readBlocks_eq (hw'.1.extents i) maxTotalSize

/-- **Acknowledged blocks are durable.**  In every run in which `Sync` succeeds and the extent stays
below `2 ^ 32` bytes, an acknowledged block is read at its offset on every replica from then on. -/
theorem acked_blocks_durable {id : ℕ} {as bs : List Action} {w w' : World}
    (hg : Guarded step Reliable (World.init id) as) (h : exec step (World.init id) as = some w)
    (hg' : Guarded step Reliable w bs) (h' : exec step w bs = some w')
    {n : ℕ} {offsets : List ℕ} (hack : (n, offsets) ∈ w.acked) :
    ∃ q, w.requests[n]? = some q ∧ offsets.length = q.blocks.length ∧
      ∀ (k : ℕ) (b : Block) (o : ℕ), q.blocks[k]? = some b → offsets[k]? = some o →
        ∀ (i : Replica) (maxTotalSize : ℕ),
          (w'.extents i).readBlocks o 1 maxTotalSize = .ok ([b], .full) :=
  (durable_of_exec hg h).readableIn hg' h' hack

/-! ## Runs -/

/-- An `Append` is acknowledged; then one on which the primary fails, a late message of it, and
restarts of two nodes, one of them with a torn block behind the synced part. -/
def restarts : List Action :=
  appendAll 0 (sectorBlock 1) .none ++
    [.append [sectorBlock 2], .write ⟨some (0, [1, 2, 3]), false⟩, .timeout 1, .timeout 2,
      .finish [2, 0, 1], .deliver 2 1 .none, .restart 0 [4, 5], .restart 2 []]

theorem acked_blocks_durable_restarts :
    ∃ w w', (Guarded step Reliable (World.init 1) (restarts.take 7) ∧
        exec step (World.init 1) (restarts.take 7) = some w ∧
        Guarded step Reliable w (restarts.drop 7) ∧ exec step w (restarts.drop 7) = some w' ∧
        (0, [512]) ∈ w.acked) ∧
      ∃ q, w.requests[0]? = some q ∧ [512].length = q.blocks.length ∧
        ∀ (k : ℕ) (b : Block) (o : ℕ), q.blocks[k]? = some b → [512][k]? = some o →
          ∀ (i : Replica) (maxTotalSize : ℕ),
            (w'.extents i).readBlocks o 1 maxTotalSize = .ok ([b], .full) := by
  have hg : Guarded step Reliable (World.init 1) (restarts.take 7) := by decide +kernel
  obtain ⟨w, hw, hg', hack, w', hw', -⟩ : ∃ w ∈ exec step (World.init 1) (restarts.take 7),
      Guarded step Reliable w (restarts.drop 7) ∧ (0, [512]) ∈ w.acked ∧
        ∃ w' ∈ exec step w (restarts.drop 7), True := by decide +kernel
  exact ⟨w, w', ⟨hg, hw, hg', hw', hack⟩, acked_blocks_durable hg hw hg' hw' hack⟩

/-- **No torn block stays.**  In every such run the file of each replica is its header and whole
blocks behind it, up to the commit length. -/
theorem replica_blocks_whole {id : ℕ} {as : List Action} {w : World}
    (hg : Guarded step Reliable (World.init id) as) (h : exec step (World.init id) as = some w)
    (i : Replica) : ∃ head ss, head.length = 512 ∧ Segments ss ∧
      (w.extents i).file = head ++ ss.flatten ∧
      (w.extents i).commitLength = (w.extents i).file.length := by
  have hs := (durable_of_exec hg h).1.extents i
  obtain ⟨head, ss, ts, hhead, hss, hts, hfile, -⟩ := hs.chain
  refine ⟨head, ss ++ ts, hhead, hss.append hts, ?_, hs.commit⟩
  rw [hfile, flatten_append, append_assoc]

theorem replica_blocks_whole_restarts :
    ∃ w, (Guarded step Reliable (World.init 1) restarts ∧
      exec step (World.init 1) restarts = some w) ∧
      ∃ head ss, head.length = 512 ∧ Segments ss ∧ (w.extents 0).file = head ++ ss.flatten ∧
        (w.extents 0).commitLength = (w.extents 0).file.length := by
  have hg : Guarded step Reliable (World.init 1) restarts := by decide +kernel
  obtain ⟨w, hw, -⟩ : ∃ w ∈ exec step (World.init 1) restarts, True := by decide +kernel
  exact ⟨w, ⟨hg, hw⟩, replica_blocks_whole hg hw 0⟩

/-- The primary's `Sync` fails, the `Append` is acknowledged all the same, and the primary
restarts. -/
def unsynced : List Action := appendAll 0 (sectorBlock 1) ⟨none, true⟩ ++ [.restart 0 []]

/-- A block that takes `2 ^ 26` bytes on disk. -/
def largeBlock (data : Bytes) : Block := ⟨adlerCheckSum data, 67108352, [], data⟩

/-- `k` requests from number `n` on, each of the block `b`, with nothing going wrong. -/
def appendTimes (b : Block) : ℕ → ℕ → List Action
  | _, 0 => []
  | n, k + 1 => appendAll n b .none ++ appendTimes b (n + 1) k

/-- Between two requests, `n` requests so far: the replicas have come to `c` bytes, and note that
modulo `2 ^ 32`. -/
structure World.Level (w : World) (n c : ℕ) : Prop where
  call : w.call = none
  requests : w.requests.length = n
  unsealed : ∀ i, (w.extents i).isSeal = false
  commit : ∀ i, (w.extents i).commitLength = c % 2 ^ 32

variable {c : ℕ}

theorem World.level_iff :
    w.Level n c ↔ w.call = none ∧ w.requests.length = n ∧ (∀ i, (w.extents i).isSeal = false) ∧
      ∀ i, (w.extents i).commitLength = c % 2 ^ 32 :=
  ⟨fun h => ⟨h.call, h.requests, h.unsealed, h.commit⟩, fun h => ⟨h.1, h.2.1, h.2.2.1, h.2.2.2⟩⟩

variable {x : Bytes} {b : Block}

theorem appendBlocks_single {e : Extent} (hx : writeBlock b = some x) (hseal : e.isSeal = false)
    (hc : e.commitLength = c) :
    e.appendBlocks [b] (some c) .none =
      ({ e with
          file := e.file ++ x
          synced := (e.file ++ x).length
          commitLength := (c + b.size) % 2 ^ 32 },
        some [c]) := by
  simp [Extent.appendBlocks, appendLoop, Fault.none, Fault.failsAt, hx, hseal, hc]

theorem forall_replica {P : Replica → Prop} : (∀ i, P i) ↔ P 0 ∧ P 1 ∧ P 2 := by
  refine ⟨fun h => ⟨h 0, h 1, h 2⟩, fun h i => ?_⟩
  match i with
  | 0 => exact h.1
  | 1 => exact h.2.1
  | 2 => exact h.2.2

/-- One request of one block, on any block that `writeBlock` lets through. -/
theorem exec_appendAll (h : w.Level n c) (hx : writeBlock b = some x) :
    ∃ w', exec step w (appendAll n b .none) = some w' ∧ w'.Level (n + 1) (c + b.size) ∧
      w'.acked = w.acked ++ [(n, [c % 2 ^ 32])] ∧
      w'.requests = w.requests ++ [⟨[b], c % 2 ^ 32⟩] := by
  obtain ⟨hcall, rfl, hseal, hcommit⟩ := h
  generalize hc : c % 2 ^ 32 = d at hcommit
  have hq : (w.requests ++ [⟨[b], d⟩])[w.requests.length]? = some ⟨[b], d⟩ :=
    getElem?_concat_length
  have happ : ∀ i, (w.extents i).appendBlocks [b] (some d) .none = _ :=
    fun i => appendBlocks_single hx (hseal i) (hcommit i)
  have hmod : (c + b.size) % 4294967296 = (d + b.size) % 4294967296 := by omega
  have h10 : (1 : Replica) ≠ 0 := by decide
  have h20 : (2 : Replica) ≠ 0 := by decide
  have h21 : (2 : Replica) ≠ 1 := by decide
  simp only [appendAll, exec_cons, step, hcall, hcommit, isSome_none, Bool.false_eq_true,
    if_false, bind_some, hq, World.handle, World.handled, happ, Call.sent]
  simp [happ, Call.answered, h10, h20, h21, h10.symm, h20.symm, h21.symm, World.finished,
    World.level_iff, forall_replica, collect, hseal, hmod]

theorem exec_appendTimes (hx : writeBlock b = some x) :
    ∀ (k : ℕ) {w : World} {n c : ℕ}, w.Level n c →
      ∃ w', exec step w (appendTimes b n k) = some w' ∧ w'.Level (n + k) (c + k * b.size) ∧
        w.acked <+: w'.acked ∧ w.requests <+: w'.requests
  | 0, w, n, c, h => ⟨w, rfl, by simpa using h, prefix_refl _, prefix_refl _⟩
  | k + 1, w, n, c, h => by
    obtain ⟨v, hv, hlevel, hack, hreq⟩ := exec_appendAll h hx
    obtain ⟨w', hw', hlevel', hack', hreq'⟩ := exec_appendTimes hx k hlevel
    refine ⟨w', ?_, ?_, ?_, ?_⟩
    · rw [appendTimes, exec_append, hv, bind_some, hw']
    · rw [show n + (k + 1) = n + 1 + k by omega,
        show c + (k + 1) * b.size = c + b.size + k * b.size by
        rw [Nat.add_mul]; omega]
      exact hlevel'
    · exact (hack ▸ prefix_append _ _).trans hack'
    · exact (hreq ▸ prefix_append _ _).trans hreq'

theorem writeBlock_largeBlock (data : Bytes) : ∃ x, writeBlock (largeBlock data) = some x := by
  have hal : align (67108352 : UInt32).toNat = true := by decide
  have hck : (largeBlock data).checkSum = adlerCheckSum (largeBlock data).data := rfl
  have hu : (largeBlock data).userData = [] := rfl
  change align (largeBlock data).blockLength.toNat = true at hal
  rw [writeBlock, hal, if_neg (by simp), if_neg (not_not.mpr hck), if_pos hu]
  exact ⟨_, rfl⟩

theorem size_largeBlock (data : Bytes) : (largeBlock data).size = 2 ^ 26 := by
  have hnat : (67108352 : UInt32).toNat = 67108352 := by decide
  rw [Block.size, largeBlock, hnat]
  decide

/-- After `64` blocks of `2 ^ 26` bytes the commit length is what it was, and the first of them is
behind the end of the extent. -/
theorem exec_appendTimes_largeBlock (data : Bytes) :
    ∃ w, exec step (World.init 1) (appendTimes (largeBlock data) 0 64) = some w ∧
      (0, [512]) ∈ w.acked ∧ w.requests[0]? = some ⟨[largeBlock data], 512⟩ ∧
      ∀ (i : Replica) (maxTotalSize : ℕ),
        (w.extents i).readBlocks 512 1 maxTotalSize = .ok ([], .endOfStream) := by
  obtain ⟨x, hx⟩ := writeBlock_largeBlock data
  have hsize := size_largeBlock data
  have hinit : (World.init 1).Level 0 512 := ⟨rfl, rfl, fun _ => rfl, fun _ => rfl⟩
  obtain ⟨v, hv, hlevel, hack, hreq⟩ := exec_appendAll hinit hx
  obtain ⟨w, hw, hlevel', hack', hreq'⟩ := exec_appendTimes hx 63 hlevel
  refine ⟨w, ?_, ?_, ?_, fun i maxTotalSize => ?_⟩
  · rw [appendTimes, exec_append, hv, bind_some, hw]
  · refine hack'.subset ?_
    rw [hack]
    exact mem_append_right _ (.head _)
  · obtain ⟨rest, hrest⟩ := hreq'
    rw [← hrest, hreq]
    rfl
  · have hcommit := hlevel'.commit i
    rw [hsize] at hcommit
    rw [Extent.readBlocks, if_pos (by omega), Extent.readEnd, hlevel'.unsealed i]
    rfl

/-- Acknowledged blocks that are not read any more: `Sync` failed and the node has restarted, or the
extent has grown to `2 ^ 32` bytes. -/
theorem acked_block_lost :
    (∃ w, exec step (World.init 1) unsynced = some w ∧ (0, [512]) ∈ w.acked ∧
      w.requests[0]? = some ⟨[sectorBlock 1], 512⟩ ∧ (sectorBlock 1).Sized ∧
      (w.extents 0).readBlocks 512 1 (32 * 2 ^ 20) = .ok ([], .endOfStream)) ∧
    ∃ data, (largeBlock data).Sized ∧
      ∃ w, exec step (World.init 1) (appendTimes (largeBlock data) 0 64) = some w ∧
        (0, [512]) ∈ w.acked ∧ w.requests[0]? = some ⟨[largeBlock data], 512⟩ ∧
        ∀ (i : Replica) (maxTotalSize : ℕ),
          (w.extents i).readBlocks 512 1 maxTotalSize = .ok ([], .endOfStream) := by
  constructor
  · decide +kernel
  · exact ⟨replicate 67108352 0, length_replicate, exec_appendTimes_largeBlock _⟩

end Node
end Autumn
