import Autumn.RangePartition.RowStream
import Autumn.StreamManager.Metadata

/-!
# Cutting a stream

`Truncate` looks for an extent and drops the ones in front of it.  Its loop ends at the last extent
if it does not find the one it looks for, and nothing behind the loop tells this from an extent that
was found there.  So an extent that is not in the stream costs all extents but the last, and the
answer is a success.  The stream manager and the mock client have the same loop.
-/

namespace Autumn
namespace StreamManager
namespace Metadata

open Lib Manager List

/-! ## The code -/

inductive Answer where
  | err (message : String)
  | truncateNotMatch
  | ok
  deriving DecidableEq, Repr

/-- `Truncate` on the maps and on etcd, given what `Commit` returns. -/
def truncate (amLeader : Bool) (commit : CommitResult) (m : Memory) (s : Store)
    (streamID extentID : ℕ) : Option (Answer × Memory × Store) :=
  if amLeader = false then some (.err "not a leader", m, s)
  else
    match m.streams streamID with
    | none => some (.truncateNotMatch, m, s)
    | some streamInfo =>
      let i := truncateIndex extentID streamInfo.extentIDs
      if i = 0 then some (.ok, m, s)
      else
        let newStreamInfo : StreamInfo := ⟨streamID, streamInfo.extentIDs.drop i⟩
        let s' := if commit = .response true
          then s.put (.streams streamID) (.streamInfo newStreamInfo) else s
        match etctSetKVS commit with
        | .panicked => none
        | .returned (some e) => some (.err e, m, s')
        | .returned none => some (.ok, m.setStream streamID newStreamInfo, s')

/-- `MockStreamClient`, with its extents by their numbers. -/
structure MockStreamClient where
  exs : List ℕ
  id : ℕ
  deriving DecidableEq, Repr

def errNoTrucate : String := "not have to truncate"

/-- `Truncate` of the mock client, given the random number of the new stream. -/
def MockStreamClient.truncate (c : MockStreamClient) (blobStreamID extentID : ℕ) :
    Except String (StreamInfo × StreamInfo) × MockStreamClient :=
  let i := truncateIndex extentID c.exs
  if i = 0 then (.error errNoTrucate, c)
  else (.ok (⟨blobStreamID, c.exs.take i⟩, ⟨c.id, c.exs.drop i⟩), { c with exs := c.exs.drop i })

/-! ## What a cut should do -/

/-- What a cut at the extent `e` should do with the extents `ids` of a stream. -/
structure Cuts (ids : List ℕ) (e : ℕ) (unchanged reported : Prop) (cut : List ℕ → List ℕ → Prop) :
    Prop where
  later : ∀ front rest, ids = front ++ e :: rest → front ≠ [] → cut front (e :: rest)
  first : ∀ rest, ids = e :: rest → unchanged
  absent : e ∉ ids → unchanged ∧ reported

/-- What the manager has done. -/
def CutsStream (m : Memory) (s : Store) (streamID : ℕ) (ids : List ℕ) (e : ℕ)
    (result : Option (Answer × Memory × Store)) : Prop :=
  Cuts ids e (result.map Prod.snd = some (m, s)) (result.map Prod.fst ≠ some .ok) fun _ rest =>
    result = some (.ok, m.setStream streamID ⟨streamID, rest⟩,
      s.put (.streams streamID) (.streamInfo ⟨streamID, rest⟩))

/-- What the mock client has done. -/
def CutsMock (c : MockStreamClient) (blobStreamID e : ℕ)
    (result : Except String (StreamInfo × StreamInfo) × MockStreamClient) : Prop :=
  Cuts c.exs e (result.2 = c) (result.1 = .error errNoTrucate) fun front rest =>
    result = (.ok (⟨blobStreamID, front⟩, ⟨c.id, rest⟩), { c with exs := rest })

theorem notMem_front {front rest : List ℕ} {e : ℕ} (h : (front ++ e :: rest).Nodup) : e ∉ front :=
  fun he => (nodup_append.mp h).2.2 e he e (.head _) rfl

theorem cutsStream_iff {m : Memory} {s : Store} {streamID : ℕ} {info : StreamInfo} (e : ℕ)
    (hinfo : m.streams streamID = some info) (hnd : info.extentIDs.Nodup) :
    CutsStream m s streamID info.extentIDs e (truncate true (.response true) m s streamID e) ↔
      e ∈ info.extentIDs := by
  rw [truncate, if_neg (by decide), hinfo]
  dsimp only
  constructor
  · -- The answer is a success in all cases.
    intro h
    by_contra he
    refine (h.absent he).2 ?_
    split_ifs <;> rfl
  · intro he
    refine ⟨fun front rest heq hne => ?_, fun rest heq => ?_, fun hnot => absurd he hnot⟩
    · have hindex := @truncateIndex_append front rest e (notMem_front (heq ▸ hnd))
      rw [heq, hindex, if_neg (length_pos_of_ne_nil hne).ne', drop_left]
      rfl
    · have hindex := @truncateIndex_append [] rest e not_mem_nil
      rw [heq, show truncateIndex e (e :: rest) = 0 from hindex, if_pos rfl]
      rfl

theorem cutsMock_iff {c : MockStreamClient} (blobStreamID e : ℕ) (hnd : c.exs.Nodup) :
    CutsMock c blobStreamID e (c.truncate blobStreamID e) ↔ e ∈ c.exs ∨ c.exs.length ≤ 1 := by
  rw [MockStreamClient.truncate]
  constructor
  · intro h
    by_contra hor
    obtain ⟨he, hlen⟩ := not_or.mp hor
    have herr := (h.absent he).2
    rw [truncateIndex_of_notMem he, if_neg (by omega)] at herr
    cases herr
  · intro hor
    refine ⟨fun front rest heq hne => ?_, fun rest heq => ?_, fun hnot => ?_⟩
    · have hindex := @truncateIndex_append front rest e (notMem_front (heq ▸ hnd))
      rw [heq, hindex, if_neg (length_pos_of_ne_nil hne).ne', drop_left, take_left]
    · have hindex := @truncateIndex_append [] rest e not_mem_nil
      rw [heq, show truncateIndex e (e :: rest) = 0 from hindex, if_pos rfl]
    · have hlen := hor.resolve_left hnot
      rw [truncateIndex_of_notMem hnot, if_pos (by omega)]
      exact ⟨rfl, rfl⟩

/-- **A cut keeps just the extents from the given one on** if the extent is in the stream.  The
manager needs this for a right answer; the mock client does not in a stream of at most one extent.
A stream that the manager does not know is left alone. -/
theorem cuts_iff (m : Memory) (s : Store) (streamID e : ℕ) (c : MockStreamClient) (blobStreamID : ℕ)
    (hnd : ∀ info, m.streams streamID = some info → info.extentIDs.Nodup) (hmock : c.exs.Nodup) :
    (∀ info, m.streams streamID = some info →
      (CutsStream m s streamID info.extentIDs e (truncate true (.response true) m s streamID e) ↔
        e ∈ info.extentIDs)) ∧
    (m.streams streamID = none → ∀ commit,
      truncate true commit m s streamID e = some (.truncateNotMatch, m, s)) ∧
    (CutsMock c blobStreamID e (c.truncate blobStreamID e) ↔ e ∈ c.exs ∨ c.exs.length ≤ 1) := by
  refine ⟨fun info hinfo => cutsStream_iff e hinfo (hnd info hinfo), fun hnone commit => ?_,
    cutsMock_iff blobStreamID e hmock⟩
  rw [truncate, if_neg (by decide), hnone]

/-- A stream of three extents. -/
def threeExtents : Memory where
  streams := fun id => if id = 1 then some ⟨1, [2, 3, 4]⟩ else none
  extents := fun _ => none
  nodes := fun _ => none

theorem cuts_threeExtents :
    CutsStream threeExtents (fun _ => none) 1 [2, 3, 4] 3
        (truncate true (.response true) threeExtents (fun _ => none) 1 3) ∧
      CutsMock ⟨[2, 3, 4], 1⟩ 7 3 (MockStreamClient.truncate ⟨[2, 3, 4], 1⟩ 7 3) := by
  have h := cuts_iff threeExtents (fun _ => none) 1 3 ⟨[2, 3, 4], 1⟩ 7
    (by
      intro info hinfo
      cases hinfo
      decide)
    (by decide)
  exact ⟨(h.1 _ rfl).mpr (by decide), h.2.2.mpr (by decide)⟩

/-- **An extent that is not in the stream costs two of its three extents**, and the manager reports
success. -/
theorem cut_at_unknown_extent :
    truncate true (.response true) threeExtents (fun _ => none) 1 9 =
        some (.ok, threeExtents.setStream 1 ⟨1, [4]⟩,
          Store.put (fun _ => none) (.streams 1) (.streamInfo ⟨1, [4]⟩)) ∧
      MockStreamClient.truncate ⟨[2, 3, 4], 1⟩ 7 9 = (.ok (⟨7, [2, 3]⟩, ⟨1, [4]⟩), ⟨[4], 1⟩) :=
  ⟨rfl, rfl⟩

end Metadata
end StreamManager
end Autumn
