import Autumn.StreamClient.MixBlock

/-!
# The log iterator

`replayLog` reads the log through an iterator, which asks the current extent for entries, a chunk at
a time, and goes on to the next extent when it answers `EndOfExtent`.  `HasNext` receives once and
then says whether there is something to hand out.  So the loop ends early when an extent that is not
the last answers without entries: it was read up to its end by the chunks before, or it has no
entries behind the start position.  `chunkRest` is what the last chunk of an extent leaves over.
-/

namespace Autumn

open Lib Y List

/-! ## Reading an extent -/

/-- The loop of `readBlockEntries` in replay mode.  An entry with a block of its own must be the
only one; the code asserts it. -/
def readBlockLoop (id o : ℕ) (b : LogBlock) : List Entry → List EntryInfo → Option (List EntryInfo)
  | [], ret => some ret
  | e :: es, ret =>
    if shouldWriteValueToLSM e then readBlockLoop id o b es (ret ++ [⟨e, id, o, e.size⟩])
    else if b.entries.length = 1 then
      some (ret ++ [⟨{ e with metaBits := e.metaBits ||| bitValuePointer.toUInt32, value := [] },
        id, o, b.blockLength + 512⟩])
    else none

/-- `readBlockEntries` of the block at offset `o` of extent `id`. -/
def readBlockEntries (id o : ℕ) (b : LogBlock) : Option (List EntryInfo) :=
  readBlockLoop id o b b.entries []

/-- `sizeOfEntries`. -/
def sizeOfEntries (es : List EntryInfo) : ℕ := (es.map EntryInfo.size).sum

/-- How a read of entries ends. -/
inductive ReadCode where
  | ok
  | endOfExtent
  | endOfStream
  deriving DecidableEq, Repr

/-- How a read of entries fails. -/
inductive ReadError where
  | zeroOffset
  | badBlock
  | panicked
  deriving DecidableEq, Repr

/-- `EndOfExtent` for a sealed extent, else `EndOfStream`. -/
def endCode (isSeal : Bool) : ReadCode := if isSeal then .endOfExtent else .endOfStream

/-- The loop of `ReadEntries` over the blocks from offset `o` on; behind the last block the reader
gets `io.EOF`. -/
def readLoop (id maxTotalSize : ℕ) (isSeal : Bool) :
    List LogBlock → ℕ → List EntryInfo → ℕ → Except ReadError (List EntryInfo × ℕ × ReadCode)
  | [], o, ret, _ => .ok (ret, o, endCode isSeal)
  | b :: bs, o, ret, size =>
    match readBlockEntries id o b with
    | none => .error .panicked
    | some es =>
      if (size + sizeOfEntries es) % 2 ^ 32 > maxTotalSize then .ok (ret ++ es, o + b.size, .ok)
      else readLoop id maxTotalSize isSeal bs (o + b.size) (ret ++ es) (size + sizeOfEntries es)

/-- The blocks from an offset on; there are none if no block starts there. -/
def blocksFrom : ℕ → List LogBlock → ℕ → Option (List LogBlock)
  | o, [], off => if o = off then some [] else none
  | o, b :: bs, off => if o = off then some (b :: bs) else blocksFrom (o + b.size) bs off

/-- `ReadEntries` in replay mode.  At an offset where no block starts the header cannot be read. -/
def LogExtent.readEntries (x : LogExtent) (isSeal : Bool) (offset maxTotalSize : ℕ) :
    Except ReadError (List EntryInfo × ℕ × ReadCode) :=
  if offset = 0 then .error .zeroOffset
  else if x.commitLength ≤ offset then .ok ([], 0, endCode isSeal)
  else match blocksFrom 512 x.blocks offset with
    | none => .error .badBlock
    | some bs => readLoop x.id maxTotalSize isSeal bs offset [] 0

/-! ## The iterator -/

/-- `MockLockEntryIter` and `AutumnLogEntryIter`. -/
structure LogEntryIter where
  currentOffset : ℕ
  currentIndex : ℕ
  noMore : Bool
  cache : List EntryInfo
  deriving DecidableEq, Repr

/-- The index of an extent; the loop over the extents has no `break`. -/
def extentIndex (exs : List LogExtent) (id : ℕ) : ℕ :=
  exs.zipIdx.foldl (fun i x => if x.1.id = id then x.2 else i) 0

/-- `replayLog` up to its loop: `NewLogEntryIter` with the options it chooses. -/
def newLogEntryIter (s : LogStream) (startExtentID startOffset : ℕ) : LogEntryIter :=
  if startOffset = 0 ∧ startExtentID = 0 then ⟨512, 0, false, []⟩
  else ⟨startOffset, extentIndex s.exs startExtentID, false, []⟩

/-- `receiveEntries`, on the extents of a stream of which those at the indices `isSeal` are
sealed. -/
def receiveEntries (exs : List LogExtent) (isSeal : ℕ → Bool) (maxTotalSize : ℕ)
    (it : LogEntryIter) : Except ReadError LogEntryIter :=
  match exs[it.currentIndex]? with
  | none => .error .panicked
  | some x =>
    match x.readEntries (isSeal it.currentIndex) it.currentOffset maxTotalSize with
    | .error e => .error e
    | .ok (res, tail, code) =>
      let cache := if res.isEmpty then it.cache else res
      match code with
      | .ok => .ok { it with cache, currentOffset := tail }
      | .endOfExtent => .ok {
          cache
          currentOffset := 512
          currentIndex := it.currentIndex + 1
          noMore := it.noMore || decide (it.currentIndex + 1 = exs.length) }
      | .endOfStream => .ok { it with cache, noMore := true }

/-- `receiveEntries` on a stream whose extents but the last are sealed. -/
def LogStream.receive (s : LogStream) : ℕ → LogEntryIter → Except ReadError LogEntryIter :=
  receiveEntries s.exs fun i => decide (i < s.front.length)

section Loop

variable (receive : LogEntryIter → Except ReadError LogEntryIter)

/-- `HasNext`. -/
def hasNext (it : LogEntryIter) : Except ReadError (Bool × LogEntryIter) :=
  if it.cache.isEmpty then
    if it.noMore then .ok (false, it)
    else match receive it with
      | .error e => .error e
      | .ok it => .ok (!it.cache.isEmpty, it)
  else .ok (true, it)

/-- `Next`; `none` is a `nil` entry. -/
def next (it : LogEntryIter) : Option EntryInfo × LogEntryIter :=
  match hasNext receive it with
  | .ok (true, it) =>
    match it.cache with
    | ei :: cache => (some ei, { it with cache })
    | [] => (none, it)
  | .ok (false, it) => (none, it)
  | .error _ => (none, it)

/-- The loop of `replayLog`, for a closure that takes every entry: the entries it is given.  `none`
means that the given number of rounds was not enough. -/
def replayLoop : ℕ → LogEntryIter → Option (Except ReadError (List EntryInfo))
  | 0, _ => none
  | n + 1, it =>
    match hasNext receive it with
    | .error e => some (.error e)
    | .ok (false, _) => some (.ok [])
    | .ok (true, it) =>
      match next receive it with
      | (none, _) => some (.error .panicked)
      | (some ei, it) => (replayLoop n it).map fun r => r.map fun es => ei :: es

/-- The loop of `replayLog` ends, given enough rounds, and has delivered `D`. -/
def LoopDelivers (it : LogEntryIter) (D : List EntryInfo) : Prop :=
  ∃ n, ∀ m ≥ n, replayLoop receive m it = some (.ok D)

variable {receive} {it it' : LogEntryIter} {D : List EntryInfo}

theorem LoopDelivers.nil (h : hasNext receive it = .ok (false, it')) :
    LoopDelivers receive it [] := by
  refine ⟨1, fun m hm => ?_⟩
  obtain ⟨m, rfl⟩ := Nat.exists_eq_add_of_le' hm
  rw [replayLoop, h]

theorem LoopDelivers.cache {o i : ℕ} {noMore : Bool}
    (h : LoopDelivers receive ⟨o, i, noMore, []⟩ D) (es : List EntryInfo) :
    LoopDelivers receive ⟨o, i, noMore, es⟩ (es ++ D) := by
  induction es with
  | nil => exact h
  | cons ei es ih =>
    obtain ⟨n, hn⟩ := ih
    refine ⟨n + 1, fun m hm => ?_⟩
    obtain ⟨m, rfl⟩ := Nat.exists_eq_add_of_le' (Nat.le_of_add_left_le hm)
    have hrest := hn m (by omega)
    simp only [replayLoop, hasNext, next, isEmpty_cons, Bool.false_eq_true, if_false, hrest,
      Option.map_some]
    rfl

theorem LoopDelivers.of_receive (hcache : it.cache = []) (hmore : it.noMore = false)
    (hr : receive it = .ok it') (hne : it'.cache ≠ []) (h : LoopDelivers receive it' D) :
    LoopDelivers receive it D := by
  obtain ⟨n, hn⟩ := h
  refine ⟨n + 1, fun m hm => ?_⟩
  obtain ⟨m, rfl⟩ := Nat.exists_eq_add_of_le' (Nat.le_of_add_left_le hm)
  have hhas : hasNext receive it = .ok (true, it') := by
    simp [hasNext, hcache, hmore, hr, hne]
  have hhas' : hasNext receive it' = .ok (true, it') := by
    simp [hasNext, hne]
  have hround := hn (m + 1) (by omega)
  rw [replayLoop, hhas'] at hround
  rw [replayLoop, hhas]
  exact hround

/-- **Two ways to receive** that agree on the iterators the loop comes to give the same loop. -/
theorem replayLoop_congr {receive' : LogEntryIter → Except ReadError LogEntryIter}
    {I : LogEntryIter → Prop} (hcache : ∀ it c, I it → I { it with cache := c })
    (hagree : ∀ it, I it → it.noMore = false → receive it = receive' it ∧
      ∀ it', receive it = .ok it' → I it')
    (h : I it) (n : ℕ) : replayLoop receive n it = replayLoop receive' n it := by
  have hhas : ∀ it, I it → hasNext receive it = hasNext receive' it ∧
      ∀ b it', hasNext receive it = .ok (b, it') → I it' := by
    intro it h
    unfold hasNext
    split_ifs with hc hmore
    · exact ⟨rfl, fun b it' h' => by cases h'; exact h⟩
    · obtain ⟨heq, hstep⟩ := hagree it h (by simpa using hmore)
      rw [← heq]
      refine ⟨rfl, fun b it' h' => ?_⟩
      cases hr : receive it with
      | error e => simp [hr] at h'
      | ok it₁ =>
        rw [hr] at h'
        obtain ⟨-, rfl⟩ := Prod.mk.inj (Except.ok.inj h')
        exact hstep it₁ hr
    · exact ⟨rfl, fun b it' h' => by cases h'; exact h⟩
  induction n generalizing it with
  | zero => rfl
  | succ n ih =>
    obtain ⟨heq, hstep⟩ := hhas it h
    rw [replayLoop, replayLoop, ← heq]
    cases hr : hasNext receive it with
    | error e => rfl
    | ok r =>
      obtain ⟨b, it'⟩ := r
      have hin := hstep b it' hr
      cases b with
      | false => rfl
      | true =>
        obtain ⟨heq', hstep'⟩ := hhas it' hin
        dsimp only [next]
        rw [← heq']
        cases hr' : hasNext receive it' with
        | error e => rfl
        | ok r =>
          obtain ⟨b, it₁⟩ := r
          cases b with
          | false => rfl
          | true =>
            cases hc : it₁.cache with
            | nil => simp only [hc]
            | cons ei c =>
              simp only [hc]
              rw [ih (hcache it₁ c (hstep' true it₁ hr'))]

end Loop

/-! ## What a read returns -/

/-- A block as `entriesToBlocks` makes it: an entry whose value is not stored next to its key has
the block for itself. -/
def LogBlock.WellFormed (b : LogBlock) : Prop :=
  (∀ e ∈ b.entries, shouldWriteValueToLSM e = true) ∨ ∃ e, b.entries = [e]

/-- What reading some blocks has to deliver. -/
def entriesAt (id o : ℕ) (bs : List LogBlock) : List EntryInfo := (placedAt id o bs).map replayInfo

theorem entriesAt_append (id o : ℕ) (bs cs : List LogBlock) :
    entriesAt id o (bs ++ cs) = entriesAt id o bs ++ entriesAt id (o + blocksSize bs) cs := by
  rw [entriesAt, placedAt_append, map_append, entriesAt, entriesAt]

variable {id o : ℕ}

theorem readBlockLoop_small {b : LogBlock} :
    ∀ {es : List Entry} {ret : List EntryInfo}, (∀ e ∈ es, shouldWriteValueToLSM e = true) →
      readBlockLoop id o b es ret =
        some (ret ++ es.map fun e => replayInfo ⟨e, id, o, b.size⟩)
  | [], ret, _ => by simp [readBlockLoop]
  | e :: es, ret, h => by
    have he := h e (.head _)
    rw [readBlockLoop, if_pos he, readBlockLoop_small fun f hf => h f (.tail _ hf)]
    simp [replayInfo, he]

theorem readBlockEntries_eq {b : LogBlock} (h : b.WellFormed) :
    readBlockEntries id o b = some (entriesAt id o [b]) := by
  have hat : entriesAt id o [b] = b.entries.map fun e => replayInfo ⟨e, id, o, b.size⟩ := by
    simp [entriesAt, placedAt, Function.comp_def]
  rw [hat, readBlockEntries]
  rcases h with h | ⟨e, he⟩
  · exact readBlockLoop_small h
  · by_cases hs : shouldWriteValueToLSM e = true
    · exact readBlockLoop_small (by simpa [he] using hs)
    · simp [he, readBlockLoop, hs, replayInfo, LogBlock.size]

theorem wellFormed_of_entriesToBlocks {es : List (ℕ × Entry)} {bs : List LogBlock}
    (h : entriesToBlocks es = some bs) : ∀ b ∈ bs, b.WellFormed := by
  have hmixed :
      ∀ (es cur : List Entry) (tail : ℕ), (∀ e ∈ cur ++ es, shouldWriteValueToLSM e = true) →
      ∀ b ∈ fillMixed es cur tail, b.WellFormed := by
    intro es
    induction es with
    | nil =>
      intro cur tail hall b hb
      rw [fillMixed, mem_singleton] at hb
      exact .inl (by simpa [hb] using hall)
    | cons e es ih =>
      intro cur tail hall b hb
      rw [fillMixed] at hb
      split_ifs at hb
      · rcases hb with _ | ⟨_, hb⟩
        · exact .inl fun f hf => hall f (mem_append_left _ hf)
        · exact ih [e] e.size (fun f hf => hall f (mem_append_right _ hf)) b hb
      · exact ih (cur ++ [e]) _ (by simpa using hall) b hb
  rw [entriesToBlocks] at h
  split_ifs at h
  cases h
  intro b hb
  rcases mem_append.mp hb with hb | hb
  · have hsmall : ∀ e ∈ (smallEntries es).map Prod.snd, shouldWriteValueToLSM e = true := by
      intro e he
      obtain ⟨x, hx, rfl⟩ := mem_map.mp he
      exact mem_takeWhile_imp (p := fun y : ℕ × Entry => shouldWriteValueToLSM y.2) hx
    cases hl : (smallEntries es).map Prod.snd with
    | nil => simp [hl, mixedBlocks] at hb
    | cons e rest =>
      rw [hl] at hb hsmall
      exact hmixed (e :: rest) [] 0 (by simpa using hsmall) b hb
  · obtain ⟨x, _, rfl⟩ := mem_map.mp hb
    exact .inr ⟨x.2, rfl⟩

/-- The blocks behind the last full chunk, when blocks are read from offset `o` on, `size` and
`cur` being the size and the blocks of the chunk that is being filled. -/
def chunkRest (id maxTotalSize : ℕ) :
    ℕ → ℕ → List LogBlock → List LogBlock → List LogBlock
  | _, _, cur, [] => cur
  | o, size, cur, b :: bs =>
    if (size + sizeOfEntries (entriesAt id o [b])) % 2 ^ 32 > maxTotalSize then
      chunkRest id maxTotalSize (o + b.size) 0 [] bs
    else chunkRest id maxTotalSize (o + b.size) (size + sizeOfEntries (entriesAt id o [b]))
      (cur ++ [b]) bs

theorem sizeOfEntries_append (es fs : List EntryInfo) :
    sizeOfEntries (es ++ fs) = sizeOfEntries es + sizeOfEntries fs := by
  simp [sizeOfEntries]

/-- A read of blocks ends with a full chunk, which is not empty, or with the last block. -/
theorem readLoop_cases (id maxTotalSize : ℕ) (isSeal : Bool) :
    ∀ (bs : List LogBlock) (o : ℕ) (ret : List EntryInfo) (cur : List LogBlock),
      (∀ b ∈ bs, b.WellFormed) →
      (∃ c bs', bs = c ++ bs' ∧ c ≠ [] ∧ ret ++ entriesAt id o c ≠ [] ∧
        readLoop id maxTotalSize isSeal bs o ret (sizeOfEntries ret) =
          .ok (ret ++ entriesAt id o c, o + blocksSize c, .ok) ∧
        chunkRest id maxTotalSize o (sizeOfEntries ret) cur bs =
          chunkRest id maxTotalSize (o + blocksSize c) 0 [] bs') ∨
      (readLoop id maxTotalSize isSeal bs o ret (sizeOfEntries ret) =
          .ok (ret ++ entriesAt id o bs, o + blocksSize bs, endCode isSeal) ∧
        chunkRest id maxTotalSize o (sizeOfEntries ret) cur bs = cur ++ bs)
  | [], o, ret, cur, _ => .inr ⟨by simp [readLoop, entriesAt, placedAt], by simp [chunkRest]⟩
  | b :: bs, o, ret, cur, hwf => by
    have hb := hwf b (.head _)
    have hcons :
        ∀ cs, entriesAt id o (b :: cs) = entriesAt id o [b] ++ entriesAt id (o + b.size) cs := by
      intro cs
      rw [← singleton_append, entriesAt_append]
      simp
    rw [readLoop, readBlockEntries_eq hb, chunkRest]
    dsimp only
    by_cases hfull :
        (sizeOfEntries ret + sizeOfEntries (entriesAt id o [b])) % 2 ^ 32 > maxTotalSize
    · refine .inl ⟨[b], bs, rfl, by simp, fun hnil => ?_, ?_, ?_⟩
      · rw [← sizeOfEntries_append, hnil] at hfull
        simp [sizeOfEntries] at hfull
      · rw [if_pos hfull]
        simp
      · rw [if_pos hfull]
        simp
    · rw [if_neg hfull, if_neg hfull, ← sizeOfEntries_append]
      rcases readLoop_cases id maxTotalSize isSeal bs (o + b.size) (ret ++ entriesAt id o [b])
        (cur ++ [b]) (fun c hc => hwf c (.tail _ hc)) with
        ⟨c, bs', rfl, hc, hne, hread, hrest⟩ | ⟨hread, hrest⟩
      · refine .inl ⟨b :: c, bs', rfl, by simp, ?_, ?_, ?_⟩
        · rwa [hcons c, ← append_assoc]
        · rw [hread, hcons c, append_assoc, blocksSize_cons, Nat.add_assoc]
        · rw [hrest, blocksSize_cons, Nat.add_assoc]
      · refine .inr ⟨?_, ?_⟩
        · rw [hread, hcons bs, append_assoc, blocksSize_cons, Nat.add_assoc]
        · rw [hrest]
          simp

theorem blocksFrom_blocksSize (cs : List LogBlock) :
    ∀ (bs : List LogBlock) (o : ℕ), blocksFrom o (bs ++ cs) (o + blocksSize bs) = some cs
  | [], o => by cases cs <;> simp [blocksFrom]
  | b :: bs, o => by
    have hne : o ≠ o + blocksSize (b :: bs) := by
      rw [blocksSize_cons, LogBlock.size]
      omega
    rw [cons_append, blocksFrom, if_neg hne, blocksSize_cons, ← Nat.add_assoc]
    exact blocksFrom_blocksSize cs bs (o + b.size)

theorem blocksSize_eq_zero {bs : List LogBlock} (h : blocksSize bs = 0) : bs = [] := by
  cases bs with
  | nil => rfl
  | cons b bs =>
    rw [blocksSize_cons, LogBlock.size] at h
    omega

variable {pre post : List LogExtent} {x : LogExtent} {maxTotalSize : ℕ} {s : LogStream}

/-- The iterator at a block boundary of an extent: the next chunk of the extent, or its end. -/
theorem receiveEntries_cases (hexs : s.exs = pre ++ x :: post) {bs₁ bs₂ : List LogBlock}
    (hblocks : x.blocks = bs₁ ++ bs₂) (hwf : ∀ b ∈ bs₂, b.WellFormed)
    (ho : o = 512 + blocksSize bs₁) :
    (∃ c bs', bs₂ = c ++ bs' ∧ c ≠ [] ∧ entriesAt x.id o c ≠ [] ∧
      s.receive maxTotalSize ⟨o, pre.length, false, []⟩ =
        .ok ⟨o + blocksSize c, pre.length, false, entriesAt x.id o c⟩ ∧
      chunkRest x.id maxTotalSize o 0 [] bs₂ =
        chunkRest x.id maxTotalSize (o + blocksSize c) 0 [] bs') ∨
    (chunkRest x.id maxTotalSize o 0 [] bs₂ = bs₂ ∧
      s.receive maxTotalSize ⟨o, pre.length, false, []⟩ =
        .ok (if post.isEmpty then ⟨o, pre.length, true, entriesAt x.id o bs₂⟩
          else ⟨512, pre.length + 1, false, entriesAt x.id o bs₂⟩)) := by
  have hx : s.exs[pre.length]? = some x := by simp [hexs]
  have hlen : s.front.length = pre.length + post.length := by
    have := congrArg length hexs
    simp only [LogStream.exs, length_append, length_cons, length_nil] at this
    omega
  have hexslen : s.exs.length = pre.length + post.length + 1 := by
    rw [hexs, length_append, length_cons]
    omega
  have hkeep : ∀ es : List EntryInfo, (if es.isEmpty = true then [] else es) = es := by
    intro es
    cases es <;> simp
  -- The end of the extent, whatever was read up to there.
  have hend : ∀ (es : List EntryInfo) (t : ℕ),
      x.readEntries (decide (pre.length < s.front.length)) o maxTotalSize =
        .ok (es, t, endCode (decide (pre.length < s.front.length))) →
      s.receive maxTotalSize ⟨o, pre.length, false, []⟩ =
        .ok (if post.isEmpty then ⟨o, pre.length, true, es⟩
          else ⟨512, pre.length + 1, false, es⟩) := by
    intro es t hread
    simp only [LogStream.receive, receiveEntries, hx, hread, hkeep]
    cases post with
    | nil => simp [endCode, hlen]
    | cons y ys =>
      have hlt : pre.length < s.front.length := by
        rw [hlen, length_cons]
        omega
      have hne : ¬ pre.length + 1 = s.exs.length := by
        omega
      simp [endCode, hlt, hne]
  by_cases hbs : bs₂ = []
  · subst hbs
    refine .inr ⟨rfl, ?_⟩
    refine hend [] 0 ?_
    have hle : x.commitLength ≤ o := by
      rw [LogExtent.commitLength, hblocks, append_nil, ho]
    rw [LogExtent.readEntries, if_neg (by omega), if_pos hle]
  · have hread : x.readEntries (decide (pre.length < s.front.length)) o maxTotalSize =
        readLoop x.id maxTotalSize (decide (pre.length < s.front.length)) bs₂ o []
          (sizeOfEntries []) := by
      have hlt : ¬ x.commitLength ≤ o := by
        rw [LogExtent.commitLength, hblocks, blocksSize_append, ho]
        have := mt blocksSize_eq_zero hbs
        omega
      have hfrom : blocksFrom 512 x.blocks o = some bs₂ := by
        rw [hblocks, ho]
        exact blocksFrom_blocksSize bs₂ bs₁ 512
      rw [LogExtent.readEntries, if_neg (by omega), if_neg hlt, hfrom]
      rfl
    rcases readLoop_cases x.id maxTotalSize (decide (pre.length < s.front.length)) bs₂ o [] []
      hwf with
      ⟨c, bs', hbs', hc, hne, hloop, hrest⟩ | ⟨hloop, hrest⟩
    · refine .inl ⟨c, bs', hbs', hc, hne, ?_, hrest⟩
      simp only [LogStream.receive, receiveEntries, hx, hread, hloop, nil_append, hkeep]
    · exact .inr ⟨hrest, hend _ _ (hread.trans hloop)⟩

/-! ## What the loop delivers -/

/-- The loop of `replayLog` ends, given enough rounds, and has delivered `D`. -/
def Delivers (s : LogStream) (maxTotalSize : ℕ) (it : LogEntryIter) (D : List EntryInfo) : Prop :=
  LoopDelivers (s.receive maxTotalSize) it D

/-- What the loop delivers from the blocks `bs` at offset `o` of extent `id` on, `xs` being the
extents behind: it goes on to the next extent only if the last read of this one had entries. -/
def delivered (maxTotalSize : ℕ) : ℕ → ℕ → List LogBlock → List LogExtent → List EntryInfo
  | id, o, bs, [] => entriesAt id o bs
  | id, o, bs, x :: xs => entriesAt id o bs ++
      if (chunkRest id maxTotalSize o 0 [] bs).all (fun b => b.entries.isEmpty) then []
      else delivered maxTotalSize x.id 512 x.blocks xs

theorem entriesAt_eq_nil :
    ∀ {o : ℕ} {bs : List LogBlock}, entriesAt id o bs = [] ↔
      bs.all (fun b => b.entries.isEmpty) = true
  | _, [] => by simp [entriesAt, placedAt]
  | o, b :: bs => by
    have ih : entriesAt id (o + b.size) bs = [] ↔ bs.all (fun b => b.entries.isEmpty) = true :=
      entriesAt_eq_nil
    simp only [entriesAt, map_eq_nil_iff] at ih
    simp only [entriesAt, placedAt, map_append, append_eq_nil_iff, map_eq_nil_iff, ih,
      List.all_cons, Bool.and_eq_true, List.isEmpty_iff]

/-- **One extent**, from a block boundary on: its entries, and then `D` if the loop goes on behind
its end. -/
theorem delivers_extent (hexs : s.exs = pre ++ x :: post) (hwf : ∀ b ∈ x.blocks, b.WellFormed)
    {D : List EntryInfo} (hnext : ∀ o, Delivers s maxTotalSize (if post.isEmpty then ⟨o, pre.length,
      true, []⟩ else ⟨512, pre.length + 1, false, []⟩) D) :
    ∀ (n : ℕ) (bs₁ bs₂ : List LogBlock), bs₂.length = n → x.blocks = bs₁ ++ bs₂ →
      Delivers s maxTotalSize ⟨512 + blocksSize bs₁, pre.length, false, []⟩
        (entriesAt x.id (512 + blocksSize bs₁) bs₂ ++
          if (chunkRest x.id maxTotalSize (512 + blocksSize bs₁) 0 [] bs₂).all
            (fun b => b.entries.isEmpty) then [] else D) := by
  intro n
  -- Along the extent the blocks that are left become fewer.
  induction n using Nat.strong_induction_on with
  | _ n ih =>
    intro bs₁ bs₂ hn hblocks
    have hwf₂ : ∀ b ∈ bs₂, b.WellFormed := fun b hb => hwf b (hblocks ▸ mem_append_right _ hb)
    rcases receiveEntries_cases hexs hblocks hwf₂ rfl with
      ⟨c, bs', rfl, hc, hne, hr, hrest⟩ | ⟨hrest, hr⟩
    · have hlen : bs'.length < n := by
        rw [← hn, length_append]
        have := length_pos_of_ne_nil hc
        omega
      have hih := ih bs'.length hlen (bs₁ ++ c) bs' rfl (by rw [hblocks, append_assoc])
      rw [blocksSize_append, ← Nat.add_assoc] at hih
      rw [hrest, entriesAt_append, append_assoc]
      exact LoopDelivers.of_receive rfl rfl hr hne (LoopDelivers.cache hih _)
    · rw [hrest]
      by_cases hes : entriesAt x.id (512 + blocksSize bs₁) bs₂ = []
      · rw [if_pos (entriesAt_eq_nil.mp hes), hes]
        rw [hes] at hr
        have hhas :
            ∃ it', hasNext (s.receive maxTotalSize) ⟨512 + blocksSize bs₁, pre.length, false, []⟩ =
            .ok (false, it') := by
          simp only [hasNext, isEmpty_nil, if_true, Bool.false_eq_true, if_false, hr]
          cases post <;> exact ⟨_, rfl⟩
        exact LoopDelivers.nil hhas.choose_spec
      · rw [if_neg (mt entriesAt_eq_nil.mpr hes)]
        have hD := hnext (512 + blocksSize bs₁)
        cases post with
        | nil | cons y ys => exact LoopDelivers.of_receive rfl rfl hr hes (LoopDelivers.cache hD _)

/-- **The loop from a block boundary on**, over all extents. -/
theorem delivers_delivered (hwf : ∀ x ∈ s.exs, ∀ b ∈ x.blocks, b.WellFormed) (maxTotalSize : ℕ) :
    ∀ (post pre : List LogExtent) (x : LogExtent), s.exs = pre ++ x :: post →
      ∀ (bs₁ bs₂ : List LogBlock), x.blocks = bs₁ ++ bs₂ →
        Delivers s maxTotalSize ⟨512 + blocksSize bs₁, pre.length, false, []⟩
          (delivered maxTotalSize x.id (512 + blocksSize bs₁) bs₂ post) := by
  intro post
  induction post with
  | nil =>
    intro pre x hexs bs₁ bs₂ hblocks
    have hx : x ∈ s.exs := hexs ▸ mem_append_right _ (.head _)
    have hend : ∀ o, Delivers s maxTotalSize ⟨o, pre.length, true, []⟩ [] := fun o =>
      LoopDelivers.nil rfl
    have h := delivers_extent hexs (hwf x hx) hend _ bs₁ bs₂ rfl hblocks
    rwa [ite_self, append_nil] at h
  | cons y ys ih =>
    intro pre x hexs bs₁ bs₂ hblocks
    have hx : x ∈ s.exs := hexs ▸ mem_append_right _ (.head _)
    have hy := ih (pre ++ [x]) y (by rw [hexs, append_assoc]; rfl) [] y.blocks rfl
    rw [length_append, length_singleton] at hy
    exact delivers_extent hexs (hwf x hx) (fun _ => hy) _ bs₁ bs₂ rfl hblocks

/-! ## When everything is delivered -/

/-- No extent before the last one with entries is read out: its last chunk leaves entries over. -/
def NoEarlyStop (maxTotalSize : ℕ) : ℕ → ℕ → List LogBlock → List LogExtent → Prop
  | _, _, _, [] => True
  | id, o, bs, x :: xs =>
    ((chunkRest id maxTotalSize o 0 [] bs).all (fun b => b.entries.isEmpty) = true →
      placedList (x :: xs) = []) ∧ NoEarlyStop maxTotalSize x.id 512 x.blocks xs

theorem noEarlyStop_of_placedList_eq_nil :
    ∀ {xs : List LogExtent} {id o : ℕ} {bs : List LogBlock}, placedList xs = [] →
      NoEarlyStop maxTotalSize id o bs xs
  | [], _, _, _, _ => trivial
  | x :: xs, id, o, bs, h => by
    refine ⟨fun _ => h, noEarlyStop_of_placedList_eq_nil ?_⟩
    rw [placedList_cons, append_eq_nil_iff] at h
    exact h.2

theorem delivered_eq_iff :
    ∀ {xs : List LogExtent} {id o : ℕ} {bs : List LogBlock},
      delivered maxTotalSize id o bs xs = (placedAt id o bs ++ placedList xs).map replayInfo ↔
        NoEarlyStop maxTotalSize id o bs xs
  | [], id, o, bs => by simp [delivered, NoEarlyStop, entriesAt, placedList]
  | x :: xs, id, o, bs => by
    rw [delivered, NoEarlyStop, map_append, ← entriesAt, append_cancel_left_eq]
    split_ifs with hrest
    · constructor
      · intro h
        have hnil : placedList (x :: xs) = [] := map_eq_nil_iff.mp h.symm
        refine ⟨fun _ => hnil, noEarlyStop_of_placedList_eq_nil ?_⟩
        rw [placedList_cons, append_eq_nil_iff] at hnil
        exact hnil.2
      · rintro ⟨h, _⟩
        rw [h hrest, map_nil]
    · rw [placedList_cons, LogExtent.placed, delivered_eq_iff]
      exact ⟨fun h => ⟨fun hr => absurd hr hrest, h⟩, fun h => h.2⟩

/-! ## The start position -/

theorem sinceList_of_eq {x : LogExtent} {bs₁ bs₂ : List LogBlock} (hblocks : x.blocks = bs₁ ++ bs₂)
    (post : List LogExtent) :
    ∀ {pre : List LogExtent}, x.id ∉ pre.map LogExtent.id →
      sinceList x.id (512 + blocksSize bs₁) (pre ++ x :: post) =
        placedAt x.id (512 + blocksSize bs₁) bs₂ ++ placedList post
  | [], _ => by
    rw [nil_append, sinceList, if_pos rfl, LogExtent.placed, hblocks, placedAt_append,
      filter_append]
    have hbefore : ((placedAt x.id 512 bs₁).filter fun p => ¬ p.offset < 512 + blocksSize bs₁) =
        [] := by
      refine filter_eq_nil_iff.mpr fun p hp => ?_
      have := offset_of_mem_placedAt hp
      simp only [decide_not, Bool.not_eq_true', decide_eq_false_iff_not, not_not]
      omega
    have hsince : ((placedAt x.id (512 + blocksSize bs₁) bs₂).filter
        fun p => ¬ p.offset < 512 + blocksSize bs₁) = placedAt x.id (512 + blocksSize bs₁) bs₂ := by
      refine filter_eq_self.mpr fun p hp => ?_
      have := offset_of_mem_placedAt hp
      simp only [decide_not, Bool.not_eq_true', decide_eq_false_iff_not]
      omega
    rw [hbefore, hsince, nil_append]
  | y :: pre, hid => by
    rw [map_cons, mem_cons, not_or] at hid
    rw [cons_append, sinceList, if_neg (Ne.symm hid.1), sinceList_of_eq hblocks post hid.2]

theorem extentIndex_eq (hpost : x.id ∉ post.map LogExtent.id) :
    extentIndex (pre ++ x :: post) x.id = pre.length := by
  have hfold : ∀ (ys : List LogExtent) (n i : ℕ), x.id ∉ ys.map LogExtent.id →
      (ys.zipIdx n).foldl (fun i y => if y.1.id = x.id then y.2 else i) i = i := by
    intro ys
    induction ys with
    | nil => exact fun _ _ _ => rfl
    | cons y ys ih =>
      intro n i h
      rw [map_cons, mem_cons, not_or] at h
      rw [zipIdx_cons, foldl_cons, if_neg (Ne.symm h.1)]
      exact ih (n + 1) i h.2
  rw [extentIndex, zipIdx_append, foldl_append, zipIdx_cons, foldl_cons,
    if_pos rfl, hfold _ _ _ hpost]
  simp

/-- **When the log is iterated completely.**  From the start of the stream or a block boundary on,
the loop of `replayLog` ends and has delivered every entry behind the position once and in log
order, if and only if no extent before the last one with entries is read out by its chunks. -/
theorem replayLog_complete_iff {s : LogStream} (hs : s.WellFormed)
    (hwf : ∀ x ∈ s.exs, ∀ b ∈ x.blocks, b.WellFormed) {pre post : List LogExtent} {x : LogExtent}
    (hexs : s.exs = pre ++ x :: post) {bs₁ bs₂ : List LogBlock} (hblocks : x.blocks = bs₁ ++ bs₂)
    {e o : ℕ} (hstart : (e = x.id ∧ o = 512 + blocksSize bs₁) ∨
      (e = 0 ∧ o = 0 ∧ pre = [] ∧ bs₁ = [])) (maxTotalSize : ℕ) :
    ∃ D, Delivers s maxTotalSize (newLogEntryIter s e o) D ∧
      (D = (s.since e o).map replayInfo ↔
        NoEarlyStop maxTotalSize x.id (512 + blocksSize bs₁) bs₂ post) := by
  have hdel := delivers_delivered hwf maxTotalSize post pre x hexs bs₁ bs₂ hblocks
  have hnd := hs.nodup
  rw [hexs, map_append, map_cons, nodup_middle, nodup_cons, mem_append, not_or] at hnd
  have hx : x.id ≠ 0 := hs.id_ne_zero x (hexs ▸ mem_append_right _ (.head _))
  have hiter : newLogEntryIter s e o = ⟨512 + blocksSize bs₁, pre.length, false, []⟩ := by
    rcases hstart with ⟨rfl, rfl⟩ | ⟨rfl, rfl, rfl, rfl⟩
    · rw [newLogEntryIter, if_neg (by omega), hexs, extentIndex_eq hnd.1.2]
    · rfl
  have hsince : s.since e o = placedAt x.id (512 + blocksSize bs₁) bs₂ ++ placedList post := by
    rcases hstart with ⟨rfl, rfl⟩ | ⟨rfl, rfl, rfl, rfl⟩
    · rw [LogStream.since, if_neg (fun h => hx h.1), hexs, sinceList_of_eq hblocks post hnd.1.1]
    · rw [LogStream.since, if_pos ⟨rfl, rfl⟩, LogStream.placed, hexs, nil_append,
        placedList_cons, LogExtent.placed, hblocks]
      rfl
  rw [hiter, hsince]
  exact ⟨_, hdel, delivered_eq_iff⟩

/-- Two extents with one small entry each. -/
def twoExtents : LogStream where
  front := [⟨1, [⟨4096, [{ key := ⟨[107], 1⟩, value := [1] }]⟩]⟩]
  last := ⟨2, [⟨4096, [{ key := ⟨[108], 2⟩, value := [2] }]⟩]⟩

theorem twoExtents_wellFormed :
    twoExtents.WellFormed ∧ ∀ x ∈ twoExtents.exs, ∀ b ∈ x.blocks, b.WellFormed := by
  refine ⟨⟨by decide, by decide⟩, fun x hx b hb => .inl ?_⟩
  revert x b
  decide

theorem replayLog_complete_iff_twoExtents :
    ∃ D, Delivers twoExtents 16384 (newLogEntryIter twoExtents 0 0) D ∧
      D = (twoExtents.since 0 0).map replayInfo := by
  obtain ⟨hs, hwf⟩ := twoExtents_wellFormed
  have hexs : twoExtents.exs = [] ++ _ :: [twoExtents.last] := rfl
  have hblocks : twoExtents.exs[0].blocks = [] ++ twoExtents.exs[0].blocks := rfl
  obtain ⟨D, hD, hiff⟩ := replayLog_complete_iff hs hwf hexs hblocks (.inr ⟨rfl, rfl, rfl, rfl⟩)
    16384
  exact ⟨D, hD, hiff.mpr ⟨fun h => absurd h (by decide), trivial⟩⟩

/-- From the end of the first extent, which is what the append of its entry returned, the loop
delivers nothing, whatever the chunk limit, and the entry of the second extent is lost. -/
theorem replayLog_stops_early :
    twoExtents.WellFormed ∧ (∀ x ∈ twoExtents.exs, ∀ b ∈ x.blocks, b.WellFormed) ∧
      (∀ maxTotalSize, Delivers twoExtents maxTotalSize (newLogEntryIter twoExtents 1 5120) []) ∧
      (twoExtents.since 1 5120).map replayInfo ≠ [] := by
  refine ⟨twoExtents_wellFormed.1, twoExtents_wellFormed.2, fun maxTotalSize => ?_, by decide⟩
  have hnone : hasNext (twoExtents.receive maxTotalSize) (newLogEntryIter twoExtents 1 5120) =
      .ok (false, ⟨512, 1, false, []⟩) := rfl
  exact LoopDelivers.nil hnone

end Autumn
