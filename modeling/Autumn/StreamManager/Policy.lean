import Autumn.StreamManager.Metadata
import Autumn.Lib.SliceSort
import Mathlib.Data.Prod.Lex

/-!
# Where the replicas go

`SimplePolicy.AllocExtent` sorts the nodes, the one heard of last in front, and then looks at the
first `count` of them.  A node in `keepNodes` is left out but counted, so the result is too short
although there may be enough nodes behind; and the loop does not look at the number of nodes.
-/

namespace Autumn
namespace StreamManager

open Lib Manager Metadata List

/-- A node and what its last echo has told. -/
structure NodeStatus (U : Type*) extends NodeInfo where
  usage : U
  lastEcho : ℕ
  deriving DecidableEq, Repr

variable {U : Type*} [LinearOrder U]

/-- The order of the policy: most recent echo, then lowest usage. -/
def less (a b : NodeStatus U) : Bool :=
  if a.lastEcho > b.lastEcho then true
  else if a.lastEcho < b.lastEcho then false
  else decide (a.usage < b.usage)

/-- The body of the loop, with `keepNodes` for the set made of it. -/
def allocBody (ns : List (NodeStatus U)) (keepNodes : List ℕ) (ret : List (NodeStatus U)) (i : ℕ) :
    Option (List (NodeStatus U)) :=
  ns[i]?.map fun n => if n.nodeID ∈ keepNodes then ret else ret ++ [n]

/-- `SimplePolicy.AllocExtent`. -/
def allocExtent (S : SliceSort (NodeStatus U) less) (ns : List (NodeStatus U)) (count : ℤ)
    (keepNodes : List ℕ) : Option (Except String (List (NodeStatus U))) :=
  ((List.range count.toNat).foldlM (allocBody (S.sort ns) keepNodes) []).map fun ret =>
    if (ret.length : ℤ) < count then .error "cannot find enough nodes" else .ok ret

/-! ## What it should do -/

/-- The nodes outside `keepNodes`. -/
def eligible (ns : List (NodeStatus U)) (keepNodes : List ℕ) : List (NodeStatus U) :=
  ns.filter fun n => n.nodeID ∉ keepNodes

/-- The eligible nodes that come first. -/
structure First (ns : List (NodeStatus U)) (count : ℤ) (keepNodes : List ℕ)
    (ret : List (NodeStatus U)) : Prop where
  length : ret.length = count.toNat
  nodup : (ret.map fun n => n.nodeID).Nodup
  subset : ret ⊆ eligible ns keepNodes
  sorted : ret.Pairwise fun a b => less b a = false
  first : ∀ n ∈ ret, ∀ m ∈ eligible ns keepNodes, m ∉ ret → less m n = false

/-- The first `count` eligible nodes if there are so many, and an error otherwise. -/
def Places (ns : List (NodeStatus U)) (count : ℤ) (keepNodes : List ℕ)
    (result : Option (Except String (List (NodeStatus U)))) : Prop :=
  if count.toNat ≤ (eligible ns keepNodes).length then
    ∃ ret, result = some (.ok ret) ∧ First ns count keepNodes ret
  else ∃ e, result = some (.error e)

/-! ## What it does -/

variable {ns : List (NodeStatus U)} {count : ℤ} {keepNodes : List ℕ}
  {S : SliceSort (NodeStatus U) less}

omit [LinearOrder U] in
theorem foldlM_allocBody (ns : List (NodeStatus U)) (keepNodes : List ℕ) (c : ℕ) :
    (range c).foldlM (allocBody ns keepNodes) [] =
      if c ≤ ns.length then some (eligible (ns.take c) keepNodes) else none := by
  induction c with
  | zero => simp [eligible]
  | succ c ih =>
    rw [range_succ, foldlM_append, ih]
    by_cases hc : c < ns.length
    · rw [if_pos hc.le, if_pos (Nat.succ_le_of_lt hc), take_succ_eq_append_getElem hc, eligible,
        eligible, filter_append]
      by_cases hkeep : ns[c].nodeID ∈ keepNodes <;>
        simp [allocBody, hc, hkeep]
    · rw [if_neg (show ¬ c + 1 ≤ ns.length from hc)]
      split_ifs with hle
      · simp [allocBody, getElem?_eq_none (not_lt.mp hc)]
      · rfl

theorem allocExtent_eq (S : SliceSort (NodeStatus U) less) (ns : List (NodeStatus U)) (count : ℤ)
    (keepNodes : List ℕ) (hc : count.toNat ≤ ns.length) :
    allocExtent S ns count keepNodes = some
      (if (eligible ((S.sort ns).take count.toNat) keepNodes).length < count.toNat then
        .error "cannot find enough nodes"
      else .ok (eligible ((S.sort ns).take count.toNat) keepNodes)) := by
  rw [allocExtent, foldlM_allocBody, if_pos (hc.trans_eq (S.perm ns).length_eq.symm),
    Option.map_some]
  refine congrArg some (if_congr ?_ rfl rfl)
  omega

theorem eligible_take (h : ∀ n ∈ (S.sort ns).take count.toNat, n.nodeID ∉ keepNodes) :
    eligible ((S.sort ns).take count.toNat) keepNodes = (S.sort ns).take count.toNat :=
  filter_eq_self.mpr fun n hn => decide_eq_true (h n hn)

theorem first_take (hid : (ns.map fun n => n.nodeID).Nodup) (hc : count.toNat ≤ ns.length)
    (h : ∀ n ∈ (S.sort ns).take count.toNat, n.nodeID ∉ keepNodes) :
    First ns count keepNodes ((S.sort ns).take count.toNat) where
  length := length_take_of_le (hc.trans_eq (S.perm ns).length_eq.symm)
  nodup := (((S.perm ns).map _).nodup_iff.mpr hid).sublist ((take_sublist _ _).map _)
  subset := fun n hn => mem_filter.mpr
    ⟨(S.perm ns).subset (mem_of_mem_take hn), decide_eq_true (h n hn)⟩
  sorted := (S.sorted ns).sublist (take_sublist _ _)
  first := by
    intro n hn m hm hnot
    have hsorted := S.sorted ns
    rw [← take_append_drop count.toNat (S.sort ns)] at hsorted
    have hmem := (S.perm ns).symm.subset (mem_filter.mp hm).1
    rw [← take_append_drop count.toNat (S.sort ns)] at hmem
    exact (pairwise_append.mp hsorted).2.2 n hn m ((mem_append.mp hmem).resolve_left hnot)

/-- **When the policy does what it should**: there are `count` nodes, and if so many are eligible,
none of the first `count` is in `keepNodes`. -/
theorem places_iff (S : SliceSort (NodeStatus U) less) (ns : List (NodeStatus U)) (count : ℤ)
    (keepNodes : List ℕ) (hid : (ns.map fun n => n.nodeID).Nodup) :
    Places ns count keepNodes (allocExtent S ns count keepNodes) ↔
      count.toNat ≤ ns.length ∧ (count.toNat ≤ (eligible ns keepNodes).length →
        ∀ n ∈ (S.sort ns).take count.toNat, n.nodeID ∉ keepNodes) := by
  rw [Places]
  have hlen := (S.perm ns).length_eq
  by_cases hc : count.toNat ≤ ns.length
  · have hperm : (eligible (S.sort ns) keepNodes).length = (eligible ns keepNodes).length :=
      ((S.perm ns).filter _).length_eq
    have hsub : (eligible ((S.sort ns).take count.toNat) keepNodes).length ≤
        (eligible (S.sort ns) keepNodes).length :=
      ((take_sublist _ _).filter _).length_le
    rw [allocExtent_eq S ns count keepNodes hc, and_iff_right hc]
    by_cases hmany : count.toNat ≤ (eligible ns keepNodes).length
    · rw [if_pos hmany]
      constructor
      · rintro ⟨ret, hret, -⟩ - n hn hkeep
        rw [if_pos] at hret
        · cases hret
        · refine lt_of_lt_of_le (length_filter_lt_length_iff_exists.mpr ⟨n, hn, by simpa⟩) ?_
          exact length_take_le _ _
      · intro h
        have hfirst := first_take hid hc (h hmany)
        rw [eligible_take (h hmany), if_neg hfirst.length.not_lt]
        exact ⟨_, rfl, hfirst⟩
    · rw [if_neg hmany, if_pos (by omega)]
      exact ⟨fun _ h => absurd h hmany, fun _ => ⟨_, rfl⟩⟩
  · -- The loop reads past the last node.
    have hmany : ¬ count.toNat ≤ (eligible ns keepNodes).length := fun h =>
      hc (h.trans (length_filter_le _ _))
    rw [if_neg hmany, allocExtent, foldlM_allocBody, if_neg (by omega)]
    refine iff_of_false ?_ fun h => hc h.1
    rintro ⟨e, he⟩
    cases he

theorem less_eq (a b : NodeStatus U) : less a b =
    decide (toLex (OrderDual.toDual a.lastEcho, a.usage) <
      toLex (OrderDual.toDual b.lastEcho, b.usage)) := by
  rw [less, Bool.eq_iff_iff, decide_eq_true_iff, Prod.Lex.toLex_lt_toLex]
  rcases lt_trichotomy a.lastEcho b.lastEcho with h | h | h
  · simp [h, h.asymm, h.ne]
  · simp [h]
  · simp [h]

/-- Insertion sort by this order. -/
def insertionSort : SliceSort (NodeStatus U) less :=
  SliceSort.ofKey (fun n => toLex (OrderDual.toDual n.lastEcho, n.usage)) less_eq

/-- Three nodes, the one with the number 1 heard of last. -/
def threeNodes : List (NodeStatus ℕ) := [⟨⟨1, "a"⟩, 0, 3⟩, ⟨⟨2, "b"⟩, 0, 2⟩, ⟨⟨3, "c"⟩, 0, 1⟩]

theorem places_threeNodes :
    Places threeNodes 2 [3] (allocExtent insertionSort threeNodes 2 [3]) :=
  (places_iff insertionSort threeNodes 2 [3] (by decide)).mpr (by decide)

/-- **The policy reports that it cannot find enough nodes** although two of three nodes are outside
`keepNodes`, and reads past the end when it is to choose three of no nodes. -/
theorem not_places :
    (eligible threeNodes [1]).length = 2 ∧
      allocExtent insertionSort threeNodes 2 [1] = some (.error "cannot find enough nodes") ∧
      allocExtent insertionSort ([] : List (NodeStatus ℕ)) 3 [] = none := by
  decide

/-! ## What the callers get -/

/-- **What the policy returns to `CreateStream` and `StreamAllocExtent` are three nodes of the
map.** -/
theorem mayChoose_of_allocExtent {m : Memory} {ret : List (NodeStatus U)}
    (hid : (ns.map fun n => n.nodeID).Nodup) (hns : ∀ n ∈ ns, (m.nodes n.nodeID).isSome)
    (h : allocExtent S ns 3 [] = some (.ok ret)) : m.MayChoose (ret.map fun n => n.nodeID) := by
  have hc : (3 : ℤ).toNat ≤ ns.length := by
    by_contra hc
    rw [allocExtent, foldlM_allocBody, if_neg (by rwa [(S.perm ns).length_eq])] at h
    cases h
  rw [allocExtent_eq S ns 3 [] hc, eligible_take (by simp)] at h
  have hfirst : First ns 3 [] ((S.sort ns).take (3 : ℤ).toNat) := first_take hid hc (by simp)
  rw [if_neg hfirst.length.not_lt] at h
  obtain rfl := Except.ok.inj (Option.some.inj h)
  refine ⟨(length_map _).trans hfirst.length, hfirst.nodup, fun i hi => ?_⟩
  obtain ⟨n, hn, rfl⟩ := mem_map.mp hi
  exact hns n (mem_filter.mp (hfirst.subset hn)).1

end StreamManager
end Autumn
