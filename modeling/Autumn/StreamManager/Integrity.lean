import Autumn.StreamManager.Metadata

/-!
# Referential integrity of the metadata

In etcd and in the maps of the leader alike, a stream has at least one extent and none twice, an
extent belongs to one stream, and it has a record that names three different registered nodes.  The
handlers index the maps without looking, so a broken link would take the manager down.

The invariant speaks of each copy (`Linked`) and of each request in flight (`Call.Linked`), with one
function `owner` that says to which stream an extent belongs in any of them.

A number that a request has drawn from the counter and not yet written to a copy is free in this
copy (`Memory.Free`), and no two requests have one in common.  This is what keeps a new extent apart
from all the lists that have been read already.  Nothing here depends on whether `StreamAllocExtent`
gets to its transaction.
-/

namespace Autumn
namespace StreamManager
namespace Metadata

open Lib Manager List Function Option

/-! ## One copy -/

/-- The number is not in use. -/
structure Memory.Free (m : Memory) (x : ℕ) : Prop where
  stream : m.streams x = none
  extent : m.extents x = none
  node : m.nodes x = none

/-- Extents of stream `s`, each of them once. -/
structure ListLinked (owner : ℕ → ℕ) (m : Memory) (s : ℕ) (extentIDs : List ℕ) : Prop where
  nodup : extentIDs.Nodup
  owner_eq : ∀ e ∈ extentIDs, owner e = s
  known : ∀ e ∈ extentIDs, (m.extents e).isSome

structure Linked (owner : ℕ → ℕ) (m : Memory) : Prop where
  nonempty : ∀ s info, m.streams s = some info → info.extentIDs ≠ []
  list : ∀ s info, m.streams s = some info → ListLinked owner m s info.extentIDs
  replicates : ∀ e info, m.extents e = some info → m.MayChoose info.replicates

variable {m m' : Memory} {x s n i : ℕ} {info : ExtentInfo} {α : Type*} {l : List ℕ} {R : ℕ → Prop}
  {w : World}

theorem Memory.Free.setStream (h : m.Free x) (hx : x ≠ s) (info : StreamInfo) :
    (m.setStream s info).Free x :=
  ⟨(update_of_ne hx ..).trans h.stream, h.extent, h.node⟩

theorem Memory.Free.setExtent (h : m.Free x) (hx : x ≠ info.extentID) : (m.setExtent info).Free x :=
  ⟨h.stream, (update_of_ne hx ..).trans h.extent, h.node⟩

theorem Memory.Free.addNode (h : m.Free x) (hx : x ≠ n) (addr : String) :
    (m.addNode n addr).Free x :=
  ⟨h.stream, h.extent, (update_of_ne hx ..).trans h.node⟩

theorem Memory.Free.ne_stream (h : m.Free x) (hs : (m.streams s).isSome) : x ≠ s := by
  rintro rfl
  rw [h.stream] at hs
  cases hs

/-- What is in the maps `m` is in the maps `m'`, possibly with other values. -/
structure Memory.Sub (m m' : Memory) : Prop where
  stream : ∀ s, (m.streams s).isSome → (m'.streams s).isSome
  extent : ∀ e, (m.extents e).isSome → (m'.extents e).isSome
  node : ∀ n, (m.nodes n).isSome → (m'.nodes n).isSome

theorem Memory.Sub.rfl : m.Sub m := ⟨fun _ => id, fun _ => id, fun _ => id⟩

theorem Memory.Sub.trans {m'' : Memory} (h : m.Sub m') (h' : m'.Sub m'') : m.Sub m'' :=
  ⟨fun s hs => h'.stream s (h.stream s hs), fun e he => h'.extent e (h.extent e he),
    fun n hn => h'.node n (h.node n hn)⟩

variable {f : ℕ → Option α} {a : α} {owner : ℕ → ℕ} {c : Call} {j : Job} {nodes : List ℕ}

theorem isSome_update {j : ℕ} (h : (f j).isSome) : (update f i (some a) j).isSome := by
  by_cases hij : j = i
  · subst hij
    rw [update_self]
    exact Eq.refl true
  · rwa [update_of_ne hij]

theorem update_eq_some {j : ℕ} {b : α} (h : update f i (some a) j = some b) :
    (j = i ∧ b = a) ∨ (j ≠ i ∧ f j = some b) := by
  by_cases hij : j = i
  · subst hij
    rw [update_self, some_inj] at h
    exact .inl ⟨Eq.refl j, h.symm⟩
  · rw [update_of_ne hij] at h
    exact .inr ⟨hij, h⟩

theorem Memory.sub_setStream (m : Memory) (s : ℕ) (info : StreamInfo) :
    m.Sub (m.setStream s info) :=
  ⟨fun _ => isSome_update, fun _ => id, fun _ => id⟩

theorem Memory.sub_setExtent (m : Memory) (info : ExtentInfo) : m.Sub (m.setExtent info) :=
  ⟨fun _ => id, fun _ => isSome_update, fun _ => id⟩

theorem Memory.sub_addNode (m : Memory) (n : ℕ) (addr : String) : m.Sub (m.addNode n addr) :=
  ⟨fun _ => id, fun _ => id, fun _ => isSome_update⟩

theorem isSome_of_update {β : Type*} {g : ℕ → Option β} (h : ∀ j, (f j).isSome → (g j).isSome)
    (hi : (g i).isSome) : ∀ j, (update f i (some a) j).isSome → (g j).isSome := by
  intro j hj
  by_cases hij : j = i
  · exact hij ▸ hi
  · rw [update_of_ne hij] at hj
    exact h j hj

theorem Memory.Sub.setStream (h : m.Sub m') (hs : (m'.streams s).isSome) {info : StreamInfo} :
    (m.setStream s info).Sub m' :=
  ⟨isSome_of_update h.stream hs, h.extent, h.node⟩

theorem Memory.Sub.setExtent (h : m.Sub m') (he : (m'.extents info.extentID).isSome) :
    (m.setExtent info).Sub m' :=
  ⟨h.stream, isSome_of_update h.extent he, h.node⟩

theorem Memory.Sub.addNode (h : m.Sub m') (hn : (m'.nodes n).isSome) (addr : String) :
    (m.addNode n addr).Sub m' :=
  ⟨h.stream, h.extent, isSome_of_update h.node hn⟩

theorem Memory.MayChoose.sub (h : m.MayChoose nodes)
    (hsub : ∀ n, (m.nodes n).isSome → (m'.nodes n).isSome) : m'.MayChoose nodes :=
  ⟨h.1, h.2.1, fun n hn => hsub n (h.2.2 n hn)⟩

theorem ListLinked.sub (h : ListLinked owner m s l)
    (hsub : ∀ e, (m.extents e).isSome → (m'.extents e).isSome) : ListLinked owner m' s l :=
  ⟨h.nodup, h.owner_eq, fun e he => hsub e (h.known e he)⟩

theorem ListLinked.sublist {l' : List ℕ} (h : ListLinked owner m s l) (hsub : l'.Sublist l) :
    ListLinked owner m s l' :=
  ⟨h.nodup.sublist hsub, fun e he => h.owner_eq e (hsub.subset he),
    fun e he => h.known e (hsub.subset he)⟩

theorem ListLinked.notMem {e : ℕ} (h : ListLinked owner m s l) (he : m.extents e = none) :
    e ∉ l := by
  intro hmem
  have := h.known e hmem
  rw [he] at this
  cases this

theorem ListLinked.append (h : ListLinked owner m s l) (he : m.extents info.extentID = none)
    (howner : owner info.extentID = s) :
    ListLinked owner (m.setExtent info) s (l ++ [info.extentID]) where
  nodup := by
    rw [nodup_append]
    refine ⟨h.nodup, nodup_singleton _, fun x hx y hy => ?_⟩
    rw [mem_singleton.mp hy]
    exact fun hxe => h.notMem he (hxe ▸ hx)
  owner_eq := forall_mem_concat h.owner_eq howner
  known := by
    have hset : (m.setExtent info).extents info.extentID = some info := update_self ..
    refine forall_mem_concat (fun x hx => (m.sub_setExtent info).extent x (h.known x hx)) ?_
    rw [hset]
    rfl

theorem ListLinked.nil (owner : ℕ → ℕ) (m : Memory) (s : ℕ) : ListLinked owner m s [] :=
  ⟨nodup_nil, by simp, by simp⟩

theorem Linked.setStream (h : Linked owner m) {info : StreamInfo} (hne : info.extentIDs ≠ [])
    (hl : ListLinked owner m s info.extentIDs) :
    Linked owner (m.setStream s info) where
  nonempty := fun t info' ht => by
    rcases update_eq_some ht with ⟨rfl, rfl⟩ | ⟨-, ht⟩
    · exact hne
    · exact h.nonempty t info' ht
  list := fun t info' ht => by
    rcases update_eq_some ht with ⟨rfl, rfl⟩ | ⟨-, ht⟩
    · exact hl.sub (m.sub_setStream t info').extent
    · exact (h.list t info' ht).sub (m.sub_setStream s info).extent
  replicates := h.replicates

theorem Linked.setExtent (h : Linked owner m) (hn : m.MayChoose info.replicates) :
    Linked owner (m.setExtent info) where
  nonempty := h.nonempty
  list := fun t info' ht => (h.list t info' ht).sub (m.sub_setExtent info).extent
  replicates := fun e info' he => by
    rcases update_eq_some he with ⟨rfl, rfl⟩ | ⟨-, he⟩
    · exact hn
    · exact h.replicates e info' he

theorem Linked.addNode (h : Linked owner m) (n : ℕ) (addr : String) :
    Linked owner (m.addNode n addr) where
  nonempty := h.nonempty
  list := fun s info hs => (h.list s info hs).sub (m.sub_addNode n addr).extent
  replicates := fun e info he => (h.replicates e info he).sub (m.sub_addNode n addr).node

/-- One copy gets a record more, or another list; the numbers in `R` that were free stay so. -/
structure Grows (owner : ℕ → ℕ) (m m' : Memory) (R : ℕ → Prop) : Prop where
  sub : m.Sub m'
  linked : Linked owner m'
  free : ∀ x, R x → m.Free x → m'.Free x

theorem Grows.refl (h : Linked owner m) : Grows owner m m R :=
  ⟨.rfl, h, fun _ _ hx => hx⟩

theorem Linked.grows_extent (h : Linked owner m) {e : ℕ} {i : StreamInfo}
    (hi : i.extentIDs = l ++ [e]) (hn : m.MayChoose nodes) (hl : ListLinked owner m s l)
    (he : m.extents e = none) (howner : owner e = s) (hR : ∀ x, R x → m.Free x → x ≠ s ∧ x ≠ e) :
    Grows owner m ((m.setExtent ⟨e, nodes⟩).setStream s i) R where
  sub := (m.sub_setExtent _).trans (Memory.sub_setStream ..)
  linked := (h.setExtent hn).setStream (by simp [hi]) (hi ▸ hl.append he howner)
  free := fun x hx hfree =>
    (hfree.setExtent (hR x hx hfree).2).setStream (hR x hx hfree).1 _

theorem Linked.grows_stream (h : Linked owner m) (hs : (m.streams s).isSome) (hne : l ≠ [])
    (hl : ListLinked owner m s l) : Grows owner m (m.setStream s ⟨s, l⟩) R where
  sub := m.sub_setStream _ _
  linked := h.setStream hne hl
  free := fun _ _ hfree => hfree.setStream (hfree.ne_stream hs) _

theorem Linked.grows_node (h : Linked owner m) (hR : ∀ x, R x → x ≠ n) (addr : String) :
    Grows owner m (m.addNode n addr) R where
  sub := m.sub_addNode _ _
  linked := h.addNode n addr
  free := fun x hx hfree => hfree.addNode (hR x hx) addr

theorem ListLinked.update_owner (h : ListLinked owner m s l) (hx : m.extents x = none) (t : ℕ) :
    ListLinked (update owner x t) m s l :=
  ⟨h.nodup, fun e he => by
    have hex : e ≠ x := fun hex => h.notMem hx (hex ▸ he)
    rw [update_of_ne hex]
    exact h.owner_eq e he, h.known⟩

theorem Linked.update_owner (h : Linked owner m) (hx : m.extents x = none) (t : ℕ) :
    Linked (update owner x t) m :=
  ⟨h.nonempty, fun s info hs => (h.list s info hs).update_owner hx t, h.replicates⟩

/-! ## One request -/

/-- The numbers a request has drawn. -/
def Job.ids (j : Job) : List ℕ := if j.isNew then [j.streamID, j.extentID] else [j.extentID]

/-- The numbers a request has drawn and not written to the maps of the leader. -/
def Call.ids : Call → List ℕ
  | .allocated j => j.ids
  | .chosen j _ => j.ids
  | .sent j _ => j.ids
  | .ready j _ _ => j.ids
  | .committed j _ => j.ids
  | .numbered _ id => [id]
  | .registered _ id => [id]
  | _ => []

/-- The numbers a request has drawn and not written to etcd. -/
def Call.unpublished : Call → List ℕ
  | .committed _ _ => []
  | .registered _ _ => []
  | c => c.ids

theorem Job.extentID_mem_ids (j : Job) : j.extentID ∈ j.ids := by
  rw [Job.ids]
  split_ifs <;> simp

theorem Call.mem_ids_of_mem_unpublished (h : x ∈ c.unpublished) : x ∈ c.ids := by
  cases c <;> first | exact h | cases h

/-- The stream of a job is new, or it is there. -/
structure Job.Linked (owner : ℕ → ℕ) (m : Memory) (j : Job) : Prop where
  owner_eq : owner j.extentID = j.streamID
  known : j.isNew = false → (m.streams j.streamID).isSome

/-- What a request carries with it is linked to the maps of the leader. -/
def Call.Linked (owner : ℕ → ℕ) (m : Memory) : Call → Prop
  | .receiving s => (m.streams s).isSome
  | .sealed s => (m.streams s).isSome
  | .allocated j => j.Linked owner m
  | .chosen j nodes => j.Linked owner m ∧ m.MayChoose nodes
  | .sent j nodes => j.Linked owner m ∧ m.MayChoose nodes
  | .ready j nodes l => j.Linked owner m ∧ m.MayChoose nodes ∧ ListLinked owner m j.streamID l
  | .committed j nodes => j.Linked owner m ∧ m.MayChoose nodes
  | .cutting s l i => (m.streams s).isSome ∧ l.drop i ≠ [] ∧ ListLinked owner m s (l.drop i)
  | .cut s l i => (m.streams s).isSome ∧ l.drop i ≠ [] ∧ ListLinked owner m s (l.drop i)
  | _ => True

theorem Job.Linked.sub (h : j.Linked owner m) (hsub : m.Sub m') : j.Linked owner m' :=
  ⟨h.owner_eq, fun hj => hsub.stream _ (h.known hj)⟩

theorem Call.Linked.sub (h : c.Linked owner m) (hsub : m.Sub m') : c.Linked owner m' := by
  cases c with
  | receiving s | sealed s => exact hsub.stream s h
  | allocated j => exact Job.Linked.sub h hsub
  | chosen j nodes | sent j nodes | committed j nodes => exact ⟨h.1.sub hsub, h.2.sub hsub.node⟩
  | ready j nodes l => exact ⟨h.1.sub hsub, h.2.1.sub hsub.node, h.2.2.sub hsub.extent⟩
  | cutting s l i | cut s l i => exact ⟨hsub.stream s h.1, h.2.1, h.2.2.sub hsub.extent⟩
  | _ => trivial

theorem Job.Linked.update_owner (h : j.Linked owner m) (hx : x ∉ j.ids) (t : ℕ) :
    j.Linked (update owner x t) m where
  owner_eq := by
    have hex : j.extentID ≠ x := fun hex => hx (hex ▸ j.extentID_mem_ids)
    rw [update_of_ne hex]
    exact h.owner_eq
  known := h.known

theorem Call.Linked.update_owner (h : c.Linked owner m) (hx : m.extents x = none) (hids : x ∉ c.ids)
    (t : ℕ) : c.Linked (update owner x t) m := by
  cases c with
  | receiving s => exact h
  | sealed s => exact h
  | allocated j => exact Job.Linked.update_owner h hids t
  | chosen j nodes | sent j nodes | committed j nodes => exact ⟨h.1.update_owner hids t, h.2⟩
  | ready j nodes l => exact ⟨h.1.update_owner hids t, h.2.1, h.2.2.update_owner hx t⟩
  | cutting s l i | cut s l i => exact ⟨h.1, h.2.1, h.2.2.update_owner hx t⟩
  | _ => trivial

/-- What a request has written to etcd is there. -/
def Call.Published (stored : Memory) : Call → Prop
  | .committed j _ => (stored.streams j.streamID).isSome ∧ (stored.extents j.extentID).isSome
  | .registered _ id => (stored.nodes id).isSome
  | _ => True

theorem Call.Published.sub {stored stored' : Memory} (h : c.Published stored)
    (hsub : stored.Sub stored') : c.Published stored' := by
  cases c with
  | committed j nodes => exact ⟨hsub.stream _ h.1, hsub.extent _ h.2⟩
  | registered addr id => exact hsub.node id h
  | _ => trivial

/-! ## All requests together -/

/-- The number is not allocated yet, or a request has it among those given by `f`. -/
def Reserved (f : Call → List ℕ) (nextID : ℕ) (calls : List Call) (x : ℕ) : Prop :=
  nextID ≤ x ∨ ∃ c ∈ calls, x ∈ f c

/-- The invariant, with the maps `stored` that would be loaded from etcd. -/
structure Integrity (owner : ℕ → ℕ) (stored : Memory) (nextID : ℕ) (mem : Memory)
    (calls : List Call) : Prop where
  ids_lt : ∀ c ∈ calls, ∀ x ∈ c.ids, x < nextID
  disjoint : ∀ (i j : ℕ) (c d : Call), calls[i]? = some c → calls[j]? = some d → i ≠ j →
    ∀ x ∈ c.ids, x ∉ d.ids
  linked : ∀ c ∈ calls, c.Linked owner mem
  published : ∀ c ∈ calls, c.Published stored
  mem_linked : Linked owner mem
  stored_linked : Linked owner stored
  mem_free : ∀ x, Reserved Call.ids nextID calls x → mem.Free x
  stored_free : ∀ x, Reserved Call.unpublished nextID calls x → stored.Free x
  sub : mem.Sub stored

section Integrity

variable {stored mem : Memory} {nextID : ℕ} {calls : List Call} {k : ℕ}

section

variable (h : Integrity owner stored nextID mem calls) (hk : calls[k]? = some c) (c' : Call)
include h hk c'

/-- Request `k` goes on to `c'`.  It keeps numbers it has or draws new ones, and adds to one of the
copies. -/
theorem Integrity.move {nextID' : ℕ} (hn : nextID ≤ nextID')
    (hids : ∀ x ∈ c'.ids, x ∈ c.ids ∨ (nextID ≤ x ∧ x < nextID'))
    (hun : ∀ x ∈ c'.unpublished, x ∈ c.unpublished ∨ nextID ≤ x) {mem' stored' : Memory}
    (hmem : Grows owner mem mem' (Reserved Call.ids nextID' (calls.set k c')))
    (hstored : Grows owner stored stored' (Reserved Call.unpublished nextID' (calls.set k c')))
    (hsub : mem'.Sub stored') (hlinked : c'.Linked owner mem') (hpub : c'.Published stored') :
    Integrity owner stored' nextID' mem' (calls.set k c') := by
  have hc : c ∈ calls := mem_of_getElem? hk
  have hget : ∀ (i : ℕ) (d : Call), (calls.set k c')[i]? = some d →
      (i = k ∧ d = c') ∨ (i ≠ k ∧ calls[i]? = some d) := by
    intro i d hi
    by_cases hik : i = k
    · subst hik
      rw [List.getElem?_set_self (List.getElem?_eq_some_iff.mp hk).1, Option.some_inj] at hi
      exact .inl ⟨rfl, hi.symm⟩
    · rw [getElem?_set_ne (Ne.symm hik)] at hi
      exact .inr ⟨hik, hi⟩
  -- A number of the new state of request `k` is in no other request.
  have hother : ∀ (i : ℕ) (d : Call), i ≠ k → calls[i]? = some d → ∀ x ∈ c'.ids, x ∉ d.ids := by
    intro i d hik hi x hx hxd
    rcases hids x hx with hx | ⟨hx, -⟩
    · exact h.disjoint k i c d hk hi (Ne.symm hik) x hx hxd
    · exact absurd (h.ids_lt d (mem_of_getElem? hi) x hxd) (by omega)
  have hset : ∀ {P : Call → Prop}, (∀ d ∈ calls, P d) → P c' → ∀ d ∈ calls.set k c', P d := by
    intro P hP hc' d hd
    rcases mem_or_eq_of_mem_set hd with hd | rfl
    · exact hP d hd
    · exact hc'
  refine ⟨hset (fun d hd x hx => (h.ids_lt d hd x hx).trans_le hn) fun x hx => ?_, ?_,
    hset (fun d hd => (h.linked d hd).sub hmem.sub) hlinked,
    hset (fun d hd => (h.published d hd).sub hstored.sub) hpub, hmem.linked, hstored.linked,
    fun x hx => hmem.free x hx ?_, fun x hx => hstored.free x hx ?_, hsub⟩
  · rcases hids x hx with hx | ⟨-, hx⟩
    · exact (h.ids_lt c hc x hx).trans_le hn
    · exact hx
  · intro i j d e hi hj hij x hxd hxe
    rcases hget i d hi with ⟨hik, rfl⟩ | ⟨hik, hi'⟩ <;>
      rcases hget j e hj with ⟨hjk, rfl⟩ | ⟨hjk, hj'⟩
    · exact hij (hik.trans hjk.symm)
    · exact hother j e hjk hj' x hxd hxe
    · exact hother i d hik hi' x hxe hxd
    · exact h.disjoint i j d e hi' hj' hij x hxd hxe
  · rcases hx with hx | ⟨d, hd, hxd⟩
    · exact h.mem_free x (.inl (hn.trans hx))
    · rcases mem_or_eq_of_mem_set hd with hd | rfl
      · exact h.mem_free x (.inr ⟨d, hd, hxd⟩)
      · rcases hids x hxd with hx | ⟨hx, -⟩
        · exact h.mem_free x (.inr ⟨c, hc, hx⟩)
        · exact h.mem_free x (.inl hx)
  · rcases hx with hx | ⟨d, hd, hxd⟩
    · exact h.stored_free x (.inl (hn.trans hx))
    · rcases mem_or_eq_of_mem_set hd with hd | rfl
      · exact h.stored_free x (.inr ⟨d, hd, hxd⟩)
      · rcases hun x hxd with hx | hx
        · exact h.stored_free x (.inr ⟨c, hc, hx⟩)
        · exact h.stored_free x (.inl hx)

theorem Integrity.set (hids : c'.ids ⊆ c.ids) (hun : c'.unpublished ⊆ c.unpublished)
    (hlinked : c'.Linked owner mem) (hpub : c'.Published stored) :
    Integrity owner stored nextID mem (calls.set k c') :=
  h.move hk c' le_rfl (fun _ hx => .inl (hids hx)) (fun _ hx => .inl (hun hx))
    (.refl h.mem_linked) (.refl h.stored_linked) h.sub hlinked hpub

theorem Integrity.draw (n : ℕ) (hids : ∀ x ∈ c'.ids, nextID ≤ x ∧ x < nextID + n)
    (hlinked : c'.Linked owner mem) (hpub : c'.Published stored) :
    Integrity owner stored (nextID + n) mem (calls.set k c') :=
  h.move hk c' (Nat.le_add_right ..) (fun x hx => .inr (hids x hx))
    (fun x hx => .inr (hids x (Call.mem_ids_of_mem_unpublished hx)).1)
    (.refl h.mem_linked) (.refl h.stored_linked) h.sub hlinked hpub

end

variable {x : ℕ} {extentIDs : List ℕ}

section

variable (h : Integrity owner stored nextID mem calls)
include h

/-- A number that is not allocated yet can get any owner. -/
theorem Integrity.update_owner (hx : nextID ≤ x) (t : ℕ) :
    Integrity (update owner x t) stored nextID mem calls :=
  { h with
    linked := fun d hd => (h.linked d hd).update_owner (h.mem_free x (.inl hx)).extent
      (fun hxd => absurd (h.ids_lt d hd x hxd) (by omega)) t
    mem_linked := h.mem_linked.update_owner (h.mem_free x (.inl hx)).extent t
    stored_linked := h.stored_linked.update_owner (h.stored_free x (.inl hx)).extent t }

/-- A number of request `k` is not reserved once the request has given it up. -/
theorem Integrity.not_reserved_set (hk : calls[k]? = some c) (hx : x ∈ c.ids) {f : Call → List ℕ}
    (hf : ∀ d x, x ∈ f d → x ∈ Call.ids d) {c' : Call} (hc' : f c' = []) :
    ¬ Reserved f nextID (calls.set k c') x := by
  rintro (hle | ⟨d, hd, hxd⟩)
  · exact absurd (h.ids_lt c (mem_of_getElem? hk) x hx) (by omega)
  · obtain ⟨i, hi⟩ := mem_iff_getElem?.mp hd
    by_cases hik : i = k
    · subst hik
      rw [List.getElem?_set_self (List.getElem?_eq_some_iff.mp hk).1, Option.some_inj] at hi
      rw [← hi, hc'] at hxd
      cases hxd
    · rw [getElem?_set_ne (Ne.symm hik)] at hi
      exact h.disjoint k i c d hk hi (Ne.symm hik) x hx (hf d x hxd)

theorem Integrity.add (hids : c.ids = []) (hlinked : c.Linked owner mem)
    (hpub : c.Published stored) :
    Integrity owner stored nextID mem (calls ++ [c]) := by
  have hun : c.unpublished = [] :=
    eq_nil_iff_forall_not_mem.mpr fun x hx => by
      have := Call.mem_ids_of_mem_unpublished hx
      rw [hids] at this
      cases this
  have hnil : ∀ {f : Call → List ℕ} {x : ℕ}, f c = [] →
      Reserved f nextID (calls ++ [c]) x → Reserved f nextID calls x := by
    rintro f x hf (hx | ⟨d, hd, hxd⟩)
    · exact .inl hx
    · rcases mem_append.mp hd with hd | hd
      · exact .inr ⟨d, hd, hxd⟩
      · rw [mem_singleton.mp hd, hf] at hxd
        cases hxd
  -- An index with a number is one of a request that was there.
  have hget : ∀ (i : ℕ) (d : Call) (x : ℕ), (calls ++ [c])[i]? = some d → x ∈ d.ids →
      calls[i]? = some d := by
    intro i d x hi hx
    rcases Nat.lt_or_ge i calls.length with hlt | hge
    · rwa [getElem?_append_left hlt] at hi
    · rw [getElem?_append_right hge] at hi
      have hd : d ∈ [c] := mem_of_getElem? hi
      rw [mem_singleton.mp hd, hids] at hx
      cases hx
  exact
    { h with
      ids_lt := forall_mem_concat h.ids_lt fun x hx => absurd hx (by simp [hids])
      disjoint := fun i j d e hi hj hij x hxd hxe =>
        h.disjoint i j d e (hget i d x hi hxd) (hget j e x hj hxe) hij x hxd hxe
      linked := forall_mem_concat h.linked hlinked
      published := forall_mem_concat h.published hpub
      mem_free := fun x hx => h.mem_free x (hnil hids hx)
      stored_free := fun x hx => h.stored_free x (hnil hun hx) }

end

theorem Call.ids_eq_nil_of_finished (h : c.finished) : c.ids = [] := by
  cases c <;> first | rfl | cases h

section

variable (h : Integrity owner stored nextID mem calls)
include h

theorem Integrity.reload {calls' : List Call} (hfin : ∀ d ∈ calls', d.finished) :
    Integrity owner stored nextID stored calls' := by
  have hids : ∀ d ∈ calls', ∀ x, x ∉ d.ids := fun d hd x => by
    rw [Call.ids_eq_nil_of_finished (hfin d hd)]
    simp
  have hfree : ∀ {f : Call → List ℕ} {x : ℕ}, (∀ d x, x ∈ f d → x ∈ Call.ids d) →
      Reserved f nextID calls' x → stored.Free x := by
    rintro f x hf (hx | ⟨d, hd, hxd⟩)
    · exact h.stored_free x (.inl hx)
    · exact absurd (hf d x hxd) (hids d hd x)
  have htrivial : ∀ d ∈ calls', d.Linked owner stored ∧ d.Published stored := fun d hd => by
    have := hfin d hd
    cases d <;> first | exact ⟨trivial, trivial⟩ | cases this
  exact
    { ids_lt := fun d hd x hx => absurd hx (hids d hd x)
      disjoint := fun i j d e hi _ _ x hxd => absurd hxd (hids d (mem_of_getElem? hi) x)
      linked := fun d hd => (htrivial d hd).1
      published := fun d hd => (htrivial d hd).2
      mem_linked := h.stored_linked
      stored_linked := h.stored_linked
      mem_free := fun x hx => hfree (fun _ _ hx => hx) hx
      stored_free := fun x hx => hfree (fun _ _ => Call.mem_ids_of_mem_unpublished) hx
      sub := .rfl }

/-- A job whose request has given up its numbers `f`: what is still reserved is neither the stream
nor the extent of the job. -/
theorem Integrity.ne_job (hk : calls[k]? = some c) (hc : c.ids = j.ids) (hj : j.Linked owner mem)
    {f : Call → List ℕ} (hf : ∀ d x, x ∈ f d → x ∈ Call.ids d) {c' : Call} (hc' : f c' = [])
    {m : Memory} (hm : mem.Sub m) (hfree : m.Free x) (hx : Reserved f nextID (calls.set k c') x) :
    x ≠ j.streamID ∧ x ≠ j.extentID := by
  have hids : x ∉ j.ids := fun hxj => h.not_reserved_set hk (hc ▸ hxj) hf hc' hx
  refine ⟨?_, fun hxe => hids (hxe ▸ j.extentID_mem_ids)⟩
  cases hnew : j.isNew with
  | true => exact fun hxs => hids (by simp [Job.ids, hnew, hxs])
  | false => exact hfree.ne_stream (hm.stream _ (hj.known hnew))

theorem Integrity.commit (hk : calls[k]? = some (.ready j nodes extentIDs)) : Integrity owner
      ((stored.setExtent ⟨j.extentID, nodes⟩).setStream j.streamID
        ⟨j.streamID, extentIDs ++ [j.extentID]⟩) nextID mem
      (calls.set k (.committed j nodes)) := by
  obtain ⟨hj, hn, hl⟩ := h.linked _ (mem_of_getElem? hk)
  have hnone : stored.extents j.extentID = none :=
    (h.stored_free _ (.inr ⟨_, mem_of_getElem? hk, j.extentID_mem_ids⟩)).extent
  have hstored := h.stored_linked.grows_extent
    (R := Reserved Call.unpublished nextID (calls.set k (.committed j nodes)))
    (i := ⟨j.streamID, extentIDs ++ [j.extentID]⟩) rfl (hn.sub h.sub.node) (hl.sub h.sub.extent)
    hnone hj.owner_eq fun x hx hfree =>
      h.ne_job hk rfl hj (fun _ _ => Call.mem_ids_of_mem_unpublished) rfl h.sub hfree hx
  exact h.move hk (.committed j nodes) le_rfl (fun x hx => .inl hx) (by simp [Call.unpublished])
    (.refl h.mem_linked) hstored (h.sub.trans hstored.sub) ⟨hj, hn⟩
    ⟨by simp [Memory.setStream], by simp [Memory.setStream, Memory.setExtent]⟩

theorem Integrity.addExtent (hk : calls[k]? = some (.committed j nodes)) :
    Integrity owner stored nextID (mem.addExtent j.streamID ⟨j.extentID, nodes⟩)
      (calls.set k .done) := by
  obtain ⟨hj, hn⟩ := h.linked _ (mem_of_getElem? hk)
  obtain ⟨hstream, hextent⟩ := h.published _ (mem_of_getElem? hk)
  have hnone : mem.extents j.extentID = none :=
    (h.mem_free _ (.inr ⟨_, mem_of_getElem? hk, j.extentID_mem_ids⟩)).extent
  have hmem : Grows owner mem (mem.addExtent j.streamID ⟨j.extentID, nodes⟩)
      (Reserved Call.ids nextID (calls.set k .done)) := by
    have hR : ∀ x, Reserved Call.ids nextID (calls.set k .done) x → mem.Free x →
        x ≠ j.streamID ∧ x ≠ j.extentID := fun x hx hfree =>
      h.ne_job hk rfl hj (fun _ _ hx => hx) rfl .rfl hfree hx
    unfold Memory.addExtent
    cases hinfo : mem.streams j.streamID with
    | some info =>
      exact h.mem_linked.grows_extent rfl hn (h.mem_linked.list _ info hinfo) hnone hj.owner_eq hR
    | none => exact h.mem_linked.grows_extent rfl hn (.nil owner mem _) hnone hj.owner_eq hR
  have hsub : (mem.addExtent j.streamID ⟨j.extentID, nodes⟩).Sub stored :=
    (h.sub.setExtent hextent).setStream hstream
  exact h.move hk .done le_rfl (by simp [Call.ids]) (by simp [Call.unpublished, Call.ids]) hmem
    (.refl h.stored_linked) hsub trivial trivial

theorem Integrity.cut {s i : ℕ} (hk : calls[k]? = some (.cutting s extentIDs i)) :
    Integrity owner (stored.setStream s ⟨s, extentIDs.drop i⟩) nextID mem
      (calls.set k (.cut s extentIDs i)) := by
  obtain ⟨hs, hne, hl⟩ := h.linked _ (mem_of_getElem? hk)
  have hstored := h.stored_linked.grows_stream
    (R := Reserved Call.unpublished nextID (calls.set k (.cut s extentIDs i)))
    (h.sub.stream s hs) hne (hl.sub h.sub.extent)
  exact h.move hk (.cut s extentIDs i) le_rfl (by simp [Call.ids])
    (by simp [Call.unpublished, Call.ids]) (.refl h.mem_linked) hstored (h.sub.trans hstored.sub)
    ⟨hs, hne, hl⟩ trivial

theorem Integrity.unlock {s i : ℕ} (hk : calls[k]? = some (.cut s extentIDs i)) :
    Integrity owner stored nextID (mem.setStream s ⟨s, extentIDs.drop i⟩) (calls.set k .done) := by
  obtain ⟨hs, hne, hl⟩ := h.linked _ (mem_of_getElem? hk)
  exact h.move hk .done le_rfl (by simp [Call.ids]) (by simp [Call.unpublished, Call.ids])
    (h.mem_linked.grows_stream hs hne hl) (.refl h.stored_linked)
    (h.sub.setStream (h.sub.stream s hs)) trivial trivial

theorem Integrity.register {addr : String} {n : ℕ} (hk : calls[k]? = some (.numbered addr n)) :
    Integrity owner (stored.addNode n addr) nextID mem (calls.set k (.registered addr n)) := by
  have hstored := h.stored_linked.grows_node
    (R := Reserved Call.unpublished nextID (calls.set k (.registered addr n))) (n := n)
    (fun x hx hxn => h.not_reserved_set hk (mem_singleton.mpr hxn)
      (fun _ _ => Call.mem_ids_of_mem_unpublished) rfl hx) addr
  exact h.move hk (.registered addr n) le_rfl (fun x hx => .inl hx) (by simp [Call.unpublished])
    (.refl h.mem_linked) hstored (h.sub.trans hstored.sub) trivial
    (by simp [Call.Published, Memory.addNode])

theorem Integrity.addNode {addr : String} {n : ℕ} (hk : calls[k]? = some (.registered addr n)) :
    Integrity owner stored nextID (mem.addNode n addr) (calls.set k .done) :=
  h.move hk .done le_rfl (by simp [Call.ids]) (by simp [Call.unpublished, Call.ids])
    (h.mem_linked.grows_node (fun x hx hxn => h.not_reserved_set hk (mem_singleton.mpr hxn)
      (fun _ _ hx => hx) rfl hx) addr)
    (.refl h.stored_linked) (h.sub.addNode (h.published _ (mem_of_getElem? hk)) addr)
    trivial trivial

end

end Integrity

/-! ## Steps and runs -/

theorem drop_truncateIndex_ne_nil (e : ℕ) {l : List ℕ} (hl : l ≠ []) :
    l.drop (truncateIndex e l) ≠ [] := by
  have hpos := length_pos_of_ne_nil hl
  rw [Ne, drop_eq_nil_iff, truncateIndex_eq]
  omega

/-- The links of a state, with some assignment of the extents to streams. -/
def World.Integral (w : World) : Prop :=
  ∃ owner, Integrity owner (runAsLeader w.etcd) w.nextID w.mem w.calls

theorem World.Integral.callMove {clones : Bool} {w' : World} {k : ℕ} (h : w.Integral)
    (hk : w.calls[k]? = some c) (hm : CallMove clones w k c w') : w'.Integral := by
  obtain ⟨owner, h⟩ := h
  have hc := h.linked c (mem_of_getElem? hk)
  cases hm with
  | fail _ =>
    exact ⟨owner, h.set hk .failed (nil_subset _) (nil_subset _) trivial trivial⟩
  | create =>
    refine ⟨update owner (w.nextID + 1) w.nextID,
      (h.update_owner (Nat.le_succ _) _).draw hk _ 2 (fun x hx => ?_)
        ⟨update_self .., by simp⟩ trivial⟩
    simp only [Call.ids, Job.ids, if_true, mem_cons, not_mem_nil, or_false] at hx
    omega
  | receive hs =>
    exact ⟨owner, h.set hk (.receiving _) (nil_subset _) (nil_subset _) hs trivial⟩
  | sealing =>
    exact ⟨owner, h.set hk (.sealed _) (nil_subset _) (nil_subset _) hc trivial⟩
  | allocate =>
    refine ⟨update owner w.nextID _, (h.update_owner le_rfl _).draw hk _ 1 (fun x hx => ?_)
        ⟨update_self .., fun _ => hc⟩ trivial⟩
    simp only [Call.ids, Job.ids, Bool.false_eq_true, if_false, mem_singleton] at hx
    omega
  | choose hn =>
    exact ⟨owner, h.set hk (.chosen _ _) (fun _ hx => hx) (fun _ hx => hx) ⟨hc, hn⟩ trivial⟩
  | send =>
    exact ⟨owner, h.set hk (.sent _ _) (fun _ hx => hx) (fun _ hx => hx) hc trivial⟩
  | begin _ =>
    exact ⟨owner, h.set hk (.ready _ _ _) (fun _ hx => hx) (fun _ hx => hx)
      ⟨hc.1, hc.2, .nil owner w.mem _⟩ trivial⟩
  | clone _ _ hinfo =>
    exact ⟨owner, h.set hk (.ready _ _ _) (fun _ hx => hx) (fun _ hx => hx)
      ⟨hc.1, hc.2, h.mem_linked.list _ _ hinfo⟩ trivial⟩
  | commit => exact ⟨owner, (runAsLeader_extentPuts ..).symm ▸ h.commit hk⟩
  | addExtent _ => exact ⟨owner, h.addExtent hk⟩
  | keep =>
    exact ⟨owner, h.set hk .done (nil_subset _) (nil_subset _) trivial trivial⟩
  | cutting _ hinfo _ =>
    refine ⟨owner, h.set hk (.cutting _ _ _) (nil_subset _) (nil_subset _) ⟨?_, ?_, ?_⟩ trivial⟩
    · rw [hinfo]
      rfl
    · exact drop_truncateIndex_ne_nil _ (h.mem_linked.nonempty _ _ hinfo)
    · exact (h.mem_linked.list _ _ hinfo).sublist (drop_sublist _ _)
  | cut => exact ⟨owner, (runAsLeader_put_streams ..).symm ▸ h.cut hk⟩
  | unlock => exact ⟨owner, h.unlock hk⟩
  | check =>
    exact ⟨owner, h.set hk (.checked _) (nil_subset _) (nil_subset _) trivial trivial⟩
  | number =>
    refine ⟨owner, h.draw hk _ 1 (fun x hx => ?_) trivial trivial⟩
    rw [mem_singleton.mp hx]
    omega
  | register => exact ⟨owner, (runAsLeader_put_nodes ..).symm ▸ h.register hk⟩
  | addNode => exact ⟨owner, h.addNode hk⟩

theorem World.Integral.add (h : w.Integral) (hids : c.ids = [])
    (hlinked : ∀ owner, c.Linked owner w.mem) (hpub : c.Published (runAsLeader w.etcd)) :
    (w.add c).Integral :=
  h.imp fun owner h => h.add hids (hlinked owner) hpub

theorem World.Integral.step {clones : Bool} {w' : World} {a : Action} (h : w.Integral)
    (hs : step clones w a = some w') : w'.Integral := by
  cases a with
  | createStream | streamAllocExtent s e | truncate s e | registerNode addr =>
    cases hs
    exact h.add rfl (fun _ => trivial) trivial
  | go k i =>
    obtain ⟨c, hk, hs⟩ := bind_eq_some_iff.mp hs
    exact h.callMove hk (callMove_of_callStep hs)
  | reload =>
    simp only [Metadata.step] at hs
    split_ifs at hs with hq
    cases hs
    exact h.imp fun owner h => h.reload hq
  | crash =>
    cases hs
    exact h.imp fun owner h => h.reload (by simp)

/-- One copy of the metadata is intact. -/
structure Memory.Intact (m : Memory) : Prop where
  nonempty : ∀ s info, m.streams s = some info → info.extentIDs ≠ []
  nodup : ∀ s info, m.streams s = some info → info.extentIDs.Nodup
  one_stream : ∀ s s' info info', m.streams s = some info → m.streams s' = some info' →
    ∀ e ∈ info.extentIDs, e ∈ info'.extentIDs → s = s'
  known : ∀ s info, m.streams s = some info → ∀ e ∈ info.extentIDs, (m.extents e).isSome
  replicates : ∀ e info, m.extents e = some info → info.replicates.length = 3 ∧
    info.replicates.Nodup ∧ ∀ n ∈ info.replicates, (m.nodes n).isSome

theorem Linked.intact (h : Linked owner m) : m.Intact :=
  { h with
    nodup := fun s info hs => (h.list s info hs).nodup
    one_stream := fun s s' info info' hs hs' e he he' =>
      ((h.list s info hs).owner_eq e he).symm.trans ((h.list s' info' hs').owner_eq e he')
    known := fun s info hs => (h.list s info hs).known }

theorem Memory.Intact.exists_linked (h : m.Intact) : ∃ owner, Linked owner m := by
  classical
  let Owns : ℕ → ℕ → Prop := fun e s => ∃ info, m.streams s = some info ∧ e ∈ info.extentIDs
  have howner : ∀ e, ∃ s, ∀ t, Owns e t → s = t := by
    intro e
    by_cases he : ∃ s, Owns e s
    · obtain ⟨s, info, hs, hes⟩ := he
      exact ⟨s, fun t ⟨info', ht, het⟩ => h.one_stream s t info info' hs ht e hes het⟩
    · exact ⟨0, fun t ht => absurd ⟨t, ht⟩ he⟩
  choose owner howner using howner
  exact ⟨owner, h.nonempty, fun s info hs =>
    ⟨h.nodup s info hs, fun e he => howner e s ⟨info, hs, he⟩, h.known s info hs⟩, h.replicates⟩

theorem Memory.intact_empty : (runAsLeader fun _ => none).Intact where
  nonempty := fun _ _ hs => absurd hs (by simp [runAsLeader])
  nodup := fun _ _ hs => absurd hs (by simp [runAsLeader])
  one_stream := fun _ _ _ _ hs => absurd hs (by simp [runAsLeader])
  known := fun _ _ hs => absurd hs (by simp [runAsLeader])
  replicates := fun _ _ he => absurd he (by simp [runAsLeader])

theorem World.integral_start {etcd : Store} {nextID : ℕ} (h : (runAsLeader etcd).Intact)
    (hfree : ∀ x, nextID ≤ x → (runAsLeader etcd).Free x) : (World.start etcd nextID).Integral := by
  obtain ⟨owner, hl⟩ := h.exists_linked
  have hcalls : ∀ {f : Call → List ℕ} {x : ℕ}, Reserved f nextID [] x →
      (runAsLeader etcd).Free x := by
    rintro f x (hx | ⟨c, hc, -⟩)
    · exact hfree x hx
    · cases hc
  exact ⟨owner, by simp [World.start], by simp [World.start], by simp [World.start],
    by simp [World.start], hl, hl, fun _ => hcalls, fun _ => hcalls, .rfl⟩

/-- **Referential integrity.**  A leader starts with intact metadata in etcd.  After every
interleaving of requests the metadata are intact in its maps and in etcd, whether or not
`cloneStream` gets through. -/
theorem metadata_intact {clones : Bool} {etcd : Store} {nextID : ℕ}
    (hstart : (runAsLeader etcd).Intact) (hfresh : ∀ x, nextID ≤ x → (runAsLeader etcd).Free x)
    {as : List Action} {w : World} (h : exec (step clones) (World.start etcd nextID) as = some w) :
    w.mem.Intact ∧ (runAsLeader w.etcd).Intact := by
  obtain ⟨owner, h⟩ : w.Integral :=
    exec_invariant_of_step (fun _ _ _ hI hs => hI.step hs)
      (World.integral_start hstart hfresh) h
  exact ⟨h.mem_linked.intact, h.stored_linked.intact⟩

/-- Three nodes register, and a stream is created as request 3: stream 4 with extent 5. -/
def oneStream : List Action :=
  [.registerNode "a", .registerNode "b", .registerNode "c", .createStream] ++
    (List.range 3).flatMap (fun k => List.replicate 4 (.go k .ok)) ++
    [.go 3 .ok, .go 3 (.nodes [3, 1, 2])] ++ List.replicate 4 (.go 3 .ok)

/-- Two extents are added to the stream, and between them a `Truncate` drops the first one. -/
def truncatedBeside : List Action :=
  oneStream ++
    [.streamAllocExtent 4 5, .go 4 .ok, .go 4 .ok, .go 4 .ok, .go 4 (.nodes [1, 2, 3]), .go 4 .ok,
      .go 4 .ok, .streamAllocExtent 4 5, .go 5 .ok, .go 5 .ok, .go 5 .ok, .go 5 (.nodes [2, 1, 3]),
      .go 4 .ok, .go 4 .ok, .truncate 4 6, .go 6 .ok, .go 5 .ok, .go 6 .ok, .go 6 .ok, .go 5 .ok,
      .go 5 .ok]

theorem metadata_intact_truncatedBeside :
    ∃ w, ((runAsLeader fun _ => none).Intact ∧ (∀ x, 1 ≤ x → (runAsLeader fun _ => none).Free x) ∧
        exec (step true) (World.start (fun _ => none) 1) truncatedBeside = some w ∧
        w.mem.streams 4 = some ⟨4, [6]⟩) ∧
      w.mem.Intact ∧ (runAsLeader w.etcd).Intact := by
  obtain ⟨w, hw, hall⟩ : ∃ w ∈ exec (step true) World.init truncatedBeside,
      w.mem.streams 4 = some ⟨4, [6]⟩ := by decide +kernel
  exact ⟨w, ⟨Memory.intact_empty, fun _ _ => ⟨rfl, rfl, rfl⟩, hw, hall⟩,
    metadata_intact Memory.intact_empty (fun _ _ => ⟨rfl, rfl, rfl⟩) hw⟩

end Metadata
end StreamManager
end Autumn
