import Autumn.Lib.BinarySearch
import Autumn.Lib.SliceSort
import Autumn.Manager.PartitionMeta

/-!
# Which partition a client sends a key to

A client keeps the regions sorted by start key and finds the region of a key with a binary search
that looks at end keys only: the first region that has no end key or ends behind the key.  The
partition server tests both sides.

`GetRegions` leaves out a partition whose server it does not know.  In front of other regions this
does no harm: the server of the next region refuses the key.  But if all regions end at or in front
of the key, the search returns the length of the list, and the client uses it as an index.
`agrees_iff`: when ranges are disjoint and not empty, client and server disagree in no other way.
The stores of the servers are parameters.
-/

namespace Autumn
namespace Client

open Lib Pspb Manager List Option

/-! ## Ranges -/

/-- The test of `checkVersion`: the key is in the range. -/
def Has (rg : Range) (key : Bytes) : Prop := rg.startKey ≤ key ∧ (rg.endKey = [] ∨ key < rg.endKey)

instance (rg : Range) (key : Bytes) : Decidable (Has rg key) := inferInstanceAs (Decidable (_ ∧ _))

/-- The test of the client's search: the range does not end in front of the key or at it. -/
def EndsBehind (rg : Range) (key : Bytes) : Prop := rg.endKey = [] ∨ key < rg.endKey

instance (rg : Range) (key : Bytes) : Decidable (EndsBehind rg key) :=
  inferInstanceAs (Decidable (_ ∨ _))

/-- There is a key in the range. -/
def Proper (rg : Range) : Prop := EndsBehind rg rg.startKey

instance (rg : Range) : Decidable (Proper rg) := inferInstanceAs (Decidable (EndsBehind _ _))

/-- No key is in both ranges. -/
def Apart (rg rg' : Range) : Prop := ∀ key, ¬ (Has rg key ∧ Has rg' key)

variable {rg rg' : Range} {key : Bytes}

theorem Apart.symm (h : Apart rg rg') : Apart rg' rg := fun key hkey =>
  h key hkey.symm

theorem Apart.endKey_le (h : Apart rg rg') (hrg' : Proper rg') (hle : rg.startKey ≤ rg'.startKey) :
    rg.endKey ≠ [] ∧ rg.endKey ≤ rg'.startKey := by
  have hnot : ¬ EndsBehind rg rg'.startKey := fun hends =>
    h rg'.startKey ⟨⟨hle, hends⟩, le_refl _, hrg'⟩
  exact ⟨fun hnil => hnot (.inl hnil), not_lt.mp fun hlt => hnot (.inr hlt)⟩

theorem apart_of_endKey_le (hne : rg.endKey ≠ []) (h : rg.endKey ≤ rg'.startKey) :
    Apart rg rg' := by
  rintro key ⟨⟨-, hends⟩, hstart, -⟩
  exact ((hends.resolve_left hne).trans_le h).not_ge hstart

theorem Apart.endsBehind (h : Apart rg rg') (hrg' : Proper rg') (hle : rg.startKey ≤ rg'.startKey)
    (hkey : EndsBehind rg key) : key < rg'.startKey ∧ EndsBehind rg' key := by
  obtain ⟨hne, hend⟩ := h.endKey_le hrg' hle
  have hlt : key < rg'.startKey := (hkey.resolve_left hne).trans_le hend
  exact ⟨hlt, hrg'.imp id hlt.trans⟩

/-! ## Regions -/

/-- `pspb.RegionInfo`. -/
structure RegionInfo where
  rg : Range
  partID : UInt64
  psID : UInt64
  addr : String
  deriving DecidableEq, Repr

/-- `GetRegions`: the map of the partitions is gone through in some order.  A partition without a
range is a failed assertion (`none`); one whose server is not known is left out. -/
def getRegions (partMeta : Parts) (psNodes : UInt64 → Option String) :
    List UInt64 → Option (List RegionInfo)
  | [] => some []
  | partID :: order =>
    match partMeta partID with
    | none => getRegions partMeta psNodes order
    | some m => do
      let rg ← m.rg
      let regions ← getRegions partMeta psNodes order
      match psNodes m.parent with
      | none => some regions
      | some addr => some (⟨rg, partID, m.parent, addr⟩ :: regions)

/-- The order in which `update` sorts. -/
abbrev RegionSort := SliceSort RegionInfo fun a b => decide (a.rg.startKey < b.rg.startKey)

/-- What `update` makes of the regions it gets. -/
def update (S : RegionSort) (newRegions : List RegionInfo) : List RegionInfo := S.sort newRegions

/-- Why a request of a client has no answer. -/
inductive Fault where
  | error (msg : String)
  /-- There is no server at the address. -/
  | unreachable
  | panicked
  deriving DecidableEq, Repr

/-- The region a request is sent to; the index is not compared with the length. -/
def findRegion (sortedRegions : List RegionInfo) (key : Bytes) : Except Fault RegionInfo :=
  if sortedRegions = [] then .error (.error "no regions to write")
  else
    let idx := findFirst (fun i => (sortedRegions[i]?).any fun r => EndsBehind r.rg key)
      sortedRegions.length
    match sortedRegions[idx]? with
    | none => .error .panicked
    | some r => .ok r

/-! ## Servers -/

/-- A range partition at a server: its range and the rest of its state. -/
structure Served (σ : Type*) where
  rg : Range
  store : σ

/-- What a range partition does when it writes, reads and deletes. -/
structure StoreOps (σ : Type*) where
  write : σ → Bytes → Bytes → Except String σ
  get : σ → Bytes → Except String Bytes
  delete : σ → Bytes → Except String σ

/-- `rangePartitions` of a server. -/
abbrev PartitionServer (σ : Type*) := UInt64 → Option (Served σ)

/-- The servers, by address. -/
abbrev Cluster (σ : Type*) := String → Option (PartitionServer σ)

variable {σ : Type*}

/-- `checkVersion`. -/
def checkVersion (ps : PartitionServer σ) (partID : UInt64) (key : Bytes) : Option (Served σ) :=
  (ps partID).bind fun rp => if Has rp.rg key then some rp else none

/-- A handler of a server: `op` on the partition, if it accepts the key. -/
def handle {β : Type*} (ps : PartitionServer σ) (partID : UInt64) (key : Bytes)
    (op : σ → Except String β) : Except String β :=
  match checkVersion ps partID key with
  | none => .error "no such partid"
  | some rp => op rp.store

/-- A request to the server of a region. -/
def send {β : Type*} (cluster : Cluster σ) (r : RegionInfo) (key : Bytes)
    (op : σ → Except String β) : Except Fault β :=
  match cluster r.addr with
  | none => .error .unreachable
  | some ps =>
    match handle ps r.partID key op with
    | .error msg => .error (.error msg)
    | .ok b => .ok b

/-- The cluster after the partition of a region has a new state. -/
def Cluster.store (cluster : Cluster σ) (r : RegionInfo) (store : σ) : Cluster σ :=
  Function.update cluster r.addr <| (cluster r.addr).map fun ps =>
    Function.update ps r.partID <| (ps r.partID).map fun rp => { rp with store := store }

/-- `Put` at the region `r`. -/
def putAt (ops : StoreOps σ) (cluster : Cluster σ) (r : RegionInfo) (key value : Bytes) :
    Except Fault (Cluster σ) :=
  (send cluster r key fun st => ops.write st key value).map (cluster.store r)

/-- `Get` at the region `r`. -/
def getAt (ops : StoreOps σ) (cluster : Cluster σ) (r : RegionInfo) (key : Bytes) :
    Except Fault Bytes :=
  send cluster r key fun st => ops.get st key

/-- `Delete` at the region `r`. -/
def deleteAt (ops : StoreOps σ) (cluster : Cluster σ) (r : RegionInfo) (key : Bytes) :
    Except Fault (Cluster σ) :=
  (send cluster r key fun st => ops.delete st key).map (cluster.store r)

/-- `AutumnLib.Put`. -/
def put (ops : StoreOps σ) (regions : List RegionInfo) (cluster : Cluster σ) (key value : Bytes) :
    Except Fault (Cluster σ) :=
  (findRegion regions key).bind fun r => putAt ops cluster r key value

/-- `AutumnLib.Get`. -/
def get (ops : StoreOps σ) (regions : List RegionInfo) (cluster : Cluster σ) (key : Bytes) :
    Except Fault Bytes :=
  (findRegion regions key).bind fun r => getAt ops cluster r key

/-- `AutumnLib.Delete`. -/
def delete (ops : StoreOps σ) (regions : List RegionInfo) (cluster : Cluster σ) (key : Bytes) :
    Except Fault (Cluster σ) :=
  (findRegion regions key).bind fun r => deleteAt ops cluster r key

/-! ## The search -/

/-- Regions in the order of their start keys, with ranges that are apart and not empty. -/
structure Routable (regions : List RegionInfo) : Prop where
  sorted : regions.Pairwise fun r s => r.rg.startKey ≤ s.rg.startKey
  apart : regions.Pairwise fun r s => Apart r.rg s.rg
  proper : ∀ r ∈ regions, Proper r.rg

theorem update_routable (S : RegionSort) {newRegions : List RegionInfo}
    (hapart : newRegions.Pairwise fun r s => Apart r.rg s.rg)
    (hproper : ∀ r ∈ newRegions, Proper r.rg) : Routable (update S newRegions) where
  sorted := (S.sorted newRegions).imp fun h => not_lt.mp (of_decide_eq_false h)
  apart := ((S.perm newRegions).pairwise_iff fun h => h.symm).mpr hapart
  proper r hr := hproper r ((S.perm newRegions).mem_iff.mp hr)

namespace Routable

variable {regions : List RegionInfo}

/-- A region that ends behind the key lies in front of it, if there is a region before that ends
behind the key. -/
theorem endsBehind_of_lt (h : Routable regions) {i j : ℕ} (hij : i < j) (hj : j < regions.length)
    (hkey : EndsBehind regions[i].rg key) :
    key < regions[j].rg.startKey ∧ EndsBehind regions[j].rg key := by
  have hapart := pairwise_iff_getElem.mp h.apart i j (hij.trans hj) hj hij
  have hsorted := pairwise_iff_getElem.mp h.sorted i j (hij.trans hj) hj hij
  exact hapart.endsBehind (h.proper _ (getElem_mem hj)) hsorted hkey

/-- What the search finds: the one region that can have the key, or nothing if all regions end in
front of it. -/
theorem findRegion_cases (h : Routable regions) (hne : regions ≠ []) (key : Bytes) :
    (∃ r ∈ regions, findRegion regions key = .ok r ∧ EndsBehind r.rg key ∧
      ∀ s ∈ regions, Has s.rg key → s = r) ∨
    (findRegion regions key = .error .panicked ∧ ∀ s ∈ regions, ¬ EndsBehind s.rg key) := by
  let p : ℕ → Bool := fun i => (regions[i]?).any fun r => EndsBehind r.rg key
  have hp : ∀ {i : ℕ} (hi : i < regions.length), p i = true ↔ EndsBehind regions[i].rg key := by
    intro i hi
    simp [p, hi]
  have hmono : ∀ i j, i ≤ j → j < regions.length → p i = true → p j = true := by
    intro i j hij hj hi
    rcases hij.lt_or_eq with hlt | rfl
    · exact (hp hj).mpr (h.endsBehind_of_lt hlt hj ((hp (hlt.trans hj)).mp hi)).2
    · exact hi
  have hfirst := findFirst_spec hmono
  have hfind : findRegion regions key =
      match regions[findFirst p regions.length]? with
      | none => .error .panicked
      | some r => .ok r := if_neg hne
  rcases hfirst.le.lt_or_eq with hidx | hidx
  · refine .inl ⟨_, getElem_mem hidx, ?_, (hp hidx).mp (hfirst.at_lt hidx), ?_⟩
    · rw [hfind, getElem?_eq_getElem hidx]
    · intro s hs hhas
      obtain ⟨j, hj, rfl⟩ := getElem_of_mem hs
      rcases lt_trichotomy j (findFirst p regions.length) with hlt | heq | hgt
      · exact absurd ((hp hj).mpr hhas.2) (hfirst.below j hlt)
      · simp only [heq]
      · -- a region behind the first one starts behind the key
        have hstart := (h.endsBehind_of_lt hgt hj ((hp hidx).mp (hfirst.at_lt hidx))).1
        exact absurd hhas.1 hstart.not_ge
  · refine .inr ⟨?_, fun s hs hends => ?_⟩
    · rw [hfind, hidx, getElem?_eq_none le_rfl]
    · obtain ⟨j, hj, rfl⟩ := getElem_of_mem hs
      exact hfirst.below j (by omega) ((hp hj).mpr hends)

end Routable

/-! ## Client and server -/

/-- The partition of the region accepts the key. -/
def Accepts (cluster : Cluster σ) (r : RegionInfo) (key : Bytes) : Prop :=
  ∃ ps rp, cluster r.addr = some ps ∧ checkVersion ps r.partID key = some rp

/-- A server opens a partition with the range that the manager has for it. -/
def Opened (cluster : Cluster σ) (regions : List RegionInfo) : Prop :=
  ∀ r ∈ regions, ∀ ps rp, cluster r.addr = some ps → ps r.partID = some rp → rp.rg = r.rg

/-- The requests for a key go to the region whose partition accepts it, and if there is none they
return an error. -/
structure Agrees (ops : StoreOps σ) (regions : List RegionInfo) (cluster : Cluster σ)
    (key : Bytes) : Prop where
  selects : ∀ r ∈ regions, Accepts cluster r key →
    (∀ value, put ops regions cluster key value = putAt ops cluster r key value) ∧
      get ops regions cluster key = getAt ops cluster r key ∧
      delete ops regions cluster key = deleteAt ops cluster r key
  refuses : (∀ r ∈ regions, ¬ Accepts cluster r key) →
    (∀ value, ∃ e ≠ Fault.panicked, put ops regions cluster key value = .error e) ∧
      (∃ e ≠ Fault.panicked, get ops regions cluster key = .error e) ∧
      ∃ e ≠ Fault.panicked, delete ops regions cluster key = .error e

variable {cluster : Cluster σ} {r : RegionInfo}

theorem Accepts.has {regions : List RegionInfo} (hopen : Opened cluster regions) (hr : r ∈ regions)
    (h : Accepts cluster r key) : Has r.rg key := by
  obtain ⟨ps, rp, hps, hcheck⟩ := h
  obtain ⟨rp', hrp', hif⟩ := bind_eq_some_iff.mp hcheck
  obtain ⟨hhas, -⟩ := ite_none_right_eq_some.mp hif
  exact hopen r hr ps rp' hps hrp' ▸ hhas

theorem send_of_not_accepts {β : Type*} (h : ¬ Accepts cluster r key) (op : σ → Except String β) :
    ∃ e ≠ Fault.panicked, send cluster r key op = .error e := by
  unfold send
  cases hps : cluster r.addr with
  | none => exact ⟨.unreachable, by simp, rfl⟩
  | some ps =>
    have hcheck : checkVersion ps r.partID key = none := by
      by_contra hne
      obtain ⟨rp, hrp⟩ := ne_none_iff_exists'.mp hne
      exact h ⟨ps, rp, hps, hrp⟩
    refine ⟨.error "no such partid", by simp, ?_⟩
    simp only [handle, hcheck]

/-- Client and server agree when the search selects the only region that can have the key. -/
theorem Agrees.of_findRegion {ops : StoreOps σ} {regions : List RegionInfo}
    (hopen : Opened cluster regions) (hr : r ∈ regions) (hfind : findRegion regions key = .ok r)
    (honly : ∀ s ∈ regions, Has s.rg key → s = r) : Agrees ops regions cluster key := by
  have hput : ∀ value, put ops regions cluster key value = putAt ops cluster r key value := by
    intro value
    rw [put, hfind]
    rfl
  have hget : get ops regions cluster key = getAt ops cluster r key := by
    rw [get, hfind]
    rfl
  have hdelete : delete ops regions cluster key = deleteAt ops cluster r key := by
    rw [delete, hfind]
    rfl
  constructor
  · intro s hs hacc
    obtain rfl := honly s hs (hacc.has hopen hs)
    exact ⟨hput, hget, hdelete⟩
  · intro hnone
    have hrefused := hnone r hr
    refine ⟨fun value => ?_, ?_, ?_⟩
    · obtain ⟨e, he, herr⟩ := send_of_not_accepts hrefused fun st => ops.write st key value
      exact ⟨e, he, by rw [hput, putAt, herr]; rfl⟩
    · obtain ⟨e, he, herr⟩ := send_of_not_accepts hrefused fun st => ops.get st key
      exact ⟨e, he, by rw [hget, getAt, herr]⟩
    · obtain ⟨e, he, herr⟩ := send_of_not_accepts hrefused fun st => ops.delete st key
      exact ⟨e, he, by rw [hdelete, deleteAt, herr]; rfl⟩

theorem Agrees.nil (ops : StoreOps σ) (cluster : Cluster σ) (key : Bytes) :
    Agrees ops [] cluster key := by
  have hfind : findRegion [] key = .error (.error "no regions to write") := if_pos rfl
  have hne : Fault.error "no regions to write" ≠ .panicked := by simp
  constructor
  · intro r hr
    cases hr
  · intro _
    refine ⟨fun value => ⟨_, hne, ?_⟩, ⟨_, hne, ?_⟩, ⟨_, hne, ?_⟩⟩
    · rw [put, hfind]
      rfl
    · rw [get, hfind]
      rfl
    · rw [delete, hfind]
      rfl

/-- **Client and server agree about a key, unless all regions end in front of it**: for regions that
are apart, none of them empty, in the order `update` brings them into. -/
theorem agrees_iff (ops : StoreOps σ) (S : RegionSort) {newRegions : List RegionInfo}
    (hapart : newRegions.Pairwise fun r s => Apart r.rg s.rg)
    (hproper : ∀ r ∈ newRegions, Proper r.rg) {cluster : Cluster σ}
    (hopen : Opened cluster newRegions) (key : Bytes) :
    Agrees ops (update S newRegions) cluster key ↔
      newRegions = [] ∨ ∃ r ∈ newRegions, EndsBehind r.rg key := by
  have hperm : (update S newRegions).Perm newRegions := S.perm newRegions
  have hopen' : Opened cluster (update S newRegions) := fun r hr => hopen r (hperm.mem_iff.mp hr)
  have hroutable := update_routable S hapart hproper
  by_cases hne : newRegions = []
  · subst hne
    rw [List.Perm.eq_nil hperm]
    exact iff_of_true (Agrees.nil ops cluster key) (.inl rfl)
  · have hne' : update S newRegions ≠ [] := fun hnil => hne (hnil ▸ hperm).symm.eq_nil
    rcases hroutable.findRegion_cases hne' key with ⟨r, hr, hfind, hends, honly⟩ | ⟨hpanic, hnone⟩
    · refine iff_of_true (.of_findRegion hopen' hr hfind honly)
        (.inr ⟨r, hperm.mem_iff.mp hr, hends⟩)
    · refine iff_of_false (fun hagrees => ?_) ?_
      · have hrefuse : ∀ r ∈ update S newRegions, ¬ Accepts cluster r key := fun r hr hacc =>
          hnone r hr (hacc.has hopen' hr).2
        obtain ⟨-, ⟨e, he, hget⟩, -⟩ := hagrees.refuses hrefuse
        rw [get, hpanic] at hget
        exact he (Except.error.inj hget).symm
      · rintro (hnil | ⟨r, hr, hends⟩)
        · exact hne hnil
        · exact hnone r (hperm.mem_iff.mpr hr) hends

/-- Partitions that keep a map. -/
def mapOps : StoreOps (Bytes → Option Bytes) where
  write st key value := .ok (Function.update st key (some value))
  get st key := match st key with
    | some value => .ok value
    | none => .error "not found"
  delete st key := .ok (Function.update st key none)

/-- Insertion sort by start key. -/
def sortByStartKey : RegionSort where
  sort := List.insertionSort fun r s => r.rg.startKey ≤ s.rg.startKey
  perm := List.perm_insertionSort _
  sorted l :=
    (pairwise_insertionSort_le (fun r : RegionInfo => r.rg.startKey) l).imp fun h =>
      decide_eq_false h

/-- Two regions with a hole between them, in the wrong order. -/
def twoRegions : List RegionInfo :=
  [⟨⟨bytesOf "m", []⟩, 2, 1, "a"⟩, ⟨⟨[], bytesOf "g"⟩, 1, 1, "a"⟩]

/-- The server of the two regions. -/
def oneServer : Cluster (Bytes → Option Bytes) := fun addr =>
  if addr = "a" then some fun partID =>
    if partID = 1 then some ⟨⟨[], bytesOf "g"⟩, fun _ => none⟩
    else if partID = 2 then some ⟨⟨bytesOf "m", []⟩, fun _ => none⟩
    else none
  else none

theorem agrees_iff_twoRegions :
    Agrees mapOps (update sortByStartKey twoRegions) oneServer (bytesOf "h") := by
  have hapart : twoRegions.Pairwise fun r s => Apart r.rg s.rg := by
    refine pairwise_pair.mpr (Apart.symm ?_)
    exact apart_of_endKey_le (by decide) (by decide)
  have hopen : Opened oneServer twoRegions := by
    intro r hr ps rp hps hrp
    rcases hr with _ | ⟨_, hr⟩
    · cases hps
      cases hrp
      rfl
    · cases mem_singleton.mp hr
      cases hps
      cases hrp
      rfl
  exact (agrees_iff mapOps sortByStartKey hapart (by decide) hopen (bytesOf "h")).mpr
    (.inr ⟨_, (.head _), .inl rfl⟩)

/-- Two partitions that have all keys between them. -/
def twoParts : Parts := fun id =>
  if id = 1 then some { rg := some ⟨[], bytesOf "m"⟩, parent := 1, partID := 1 }
  else if id = 2 then some { rg := some ⟨bytesOf "m", []⟩, parent := 2, partID := 2 }
  else none

/-- The server of the second partition is not known: the client dies on a key of this partition. -/
theorem unknown_server_panics :
    ∃ regions, getRegions twoParts (fun id => if id = 1 then some "a" else none) [1, 2] =
        some regions ∧
      (∀ r ∈ regions, Proper r.rg) ∧ regions.Pairwise (fun r s => Apart r.rg s.rg) ∧
      ∀ value, put mapOps (update sortByStartKey regions) oneServer (bytesOf "z") value =
        .error .panicked := by
  refine ⟨[⟨⟨[], bytesOf "m"⟩, 1, 1, "a"⟩], rfl, by decide, pairwise_singleton _ _, fun value => ?_⟩
  have hfind : findRegion (update sortByStartKey [⟨⟨[], bytesOf "m"⟩, 1, 1, "a"⟩]) (bytesOf "z") =
      .error .panicked := by decide +kernel
  rw [put, hfind]
  rfl

end Client
end Autumn
