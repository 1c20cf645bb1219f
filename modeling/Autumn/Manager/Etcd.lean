import Autumn.Lib.Bytes
import Mathlib.Data.List.Nodup
import Mathlib.Logic.Function.Basic

/-!
# What the managers keep in etcd

The managers keep their metadata in etcd and write it in transactions: some puts that are made on
the condition that a key still holds a value.  Here are the keys, the values and `EtctSetKVS`.

A transaction whose condition does not hold is no error for etcd, and then the code returns
`errors.Wrap(err, _)` of a nil error, which is nil too.  Where `Commit` returns an error there is no
response, and the code follows a nil pointer.  So `EtctSetKVS` returns nil whenever it returns
(`etctSetKVS_response`).
-/

namespace Autumn
namespace Manager

/-- What the keys under `PART/` are about. -/
inductive PartKey where
  | logStream
  | rowStream
  | parent
  | range
  | tables
  deriving DecidableEq, Repr

/-- The keys in etcd. -/
inductive Key where
  /-- The election key of a session. -/
  | leader (session : ℕ)
  | streams (id : ℕ)
  | extents (id : ℕ)
  | nodes (id : ℕ)
  | psserver (id : ℕ)
  | part (id : ℕ) (suffix : PartKey)
  deriving DecidableEq, Repr

structure StreamInfo where
  streamID : ℕ
  extentIDs : List ℕ
  deriving DecidableEq, Repr

structure ExtentInfo where
  extentID : ℕ
  /-- The nodes that have a replica. -/
  replicates : List ℕ
  deriving DecidableEq, Repr

structure NodeInfo where
  nodeID : ℕ
  address : String
  deriving DecidableEq, Repr

structure PSDetail where
  psID : ℕ
  address : String
  deriving DecidableEq, Repr

/-- The values in etcd. -/
inductive Value where
  | memberValue (manager : ℕ)
  | streamInfo (info : StreamInfo)
  | extentInfo (info : ExtentInfo)
  | nodeInfo (info : NodeInfo)
  | psDetail (detail : PSDetail)
  | tableLocations (locs : List (ℕ × ℕ))
  | uint64 (n : ℕ)
  | range (startKey endKey : Bytes)
  deriving DecidableEq, Repr

abbrev Store := Key → Option Value

namespace Store

def put (s : Store) (k : Key) (v : Value) : Store := Function.update s k (some v)

def delete (s : Store) (k : Key) : Store := Function.update s k none

/-- The puts of a transaction, one after the other. -/
def putAll (s : Store) (puts : List (Key × Value)) : Store :=
  puts.foldl (fun s x => s.put x.1 x.2) s

theorem put_self (s : Store) (k : Key) (v : Value) : s.put k v k = some v :=
  Function.update_self ..

theorem put_of_ne (s : Store) {k k' : Key} (v : Value) (h : k' ≠ k) : s.put k v k' = s k' :=
  Function.update_of_ne h ..

theorem putAll_cons (s : Store) (x : Key × Value) (puts : List (Key × Value)) :
    s.putAll (x :: puts) = (s.put x.1 x.2).putAll puts := rfl

theorem putAll_of_notMem {k : Key} :
    ∀ {puts : List (Key × Value)} (s : Store), k ∉ puts.map Prod.fst → s.putAll puts k = s k
  | [], _, _ => rfl
  | x :: puts, s, h => by
    rw [List.map_cons, List.mem_cons, not_or] at h
    rw [putAll_cons, putAll_of_notMem _ h.2, put_of_ne _ _ h.1]

theorem putAll_of_mem {x : Key × Value} :
    ∀ {puts : List (Key × Value)} (s : Store), (puts.map Prod.fst).Nodup → x ∈ puts →
      s.putAll puts x.1 = some x.2
  | y :: puts, s, hnd, hx => by
    rw [List.map_cons, List.nodup_cons] at hnd
    rw [putAll_cons]
    rcases hx with _ | ⟨_, hx⟩
    · rw [putAll_of_notMem _ hnd.1, put_self]
    · exact putAll_of_mem _ hnd.2 hx

end Store

/-- The puts with which a stream gets a new extent: the stream with its extents, and the extent. -/
def extentPuts (streamID : ℕ) (extentIDs : List ℕ) (extentID : ℕ) (nodes : List ℕ) :
    List (Key × Value) :=
  [(.streams streamID, .streamInfo ⟨streamID, extentIDs ++ [extentID]⟩),
    (.extents extentID, .extentInfo ⟨extentID, nodes⟩)]

/-- `errors.Wrap`. -/
def wrap (err : Option String) (message : String) : Option String :=
  err.map fun e => message ++ ": " ++ e

/-- What `Commit` returns: a response, or an error and no response. -/
inductive CommitResult where
  | response (succeeded : Bool)
  | error
  deriving DecidableEq, Repr

/-- What `EtctSetKVS` does: it returns an error or nil, or the process dies. -/
inductive Outcome where
  | returned (err : Option String)
  | panicked
  deriving DecidableEq, Repr

/-- `EtctSetKVS`, given what `Commit` returns. -/
def etctSetKVS : CommitResult → Outcome
  | .error => .panicked
  | .response succeeded =>
    if succeeded = false then .returned (wrap none "SetKVs failed") else .returned none

theorem etctSetKVS_response (succeeded : Bool) :
    etctSetKVS (.response succeeded) = .returned none := by
  cases succeeded <;> rfl

end Manager
end Autumn
