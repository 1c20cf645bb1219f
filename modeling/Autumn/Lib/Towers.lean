import Mathlib.Data.List.Sort
import Mathlib.Order.Compare
import Mathlib.Tactic.Tauto

/-!
# Linked lists with towers

The pointer structure of a skip list, over node addresses; address `0` is `nil`.  A node has a
pointer on each level of its tower, and each level is a linked list that starts at the head.  The
searches ask how their key compares to the key of a node (`probe`); with fuel for all nodes and
levels they return.

* `Levels`: the lists `L 0`, `L 1`, … behind the head are in strictly increasing order of the keys,
  each level has only nodes of the level below, and every pointer leads to the next node.  "Next"
  is said by the keys: no node of the level lies strictly between a node and its successor.  So
  no proof follows a chain of pointers; `Levels.chain` recovers the chain.
* `findNear_spec`: the search in its four modes, with its early exits on any level.
* `findSplice_spec`, `splices_spec`: where a key belongs on each level.
* `Levels.link`: putting a node between the two ends of a splice keeps the levels in order.
-/

namespace Autumn
namespace Lib

open List

/-- Pointers between nodes: `next x l` is the node behind `x` on level `l`. -/
structure Towers where
  head : ℕ
  height : ℕ
  next : ℕ → ℕ → ℕ

namespace Towers

/-! ## The searches -/

/-- Find a node near a key.  With `less` it is the last node below the key (or at it, with
`allowEqual`), otherwise the first node above it (or at it).  The search is at node `x` on level
`level`, and the key is above that of `x`. -/
def findNear (t : Towers) (probe : ℕ → Ordering) (less allowEqual : Bool) :
    ℕ → ℕ → ℕ → Option (ℕ × Bool)
  | 0, _, _ => none
  | fuel + 1, x, level =>
    let next := t.next x level
    -- What is returned between `x` and `next` on the base level: never the head.
    let stop : ℕ × Bool :=
      if !less then (next, false) else if x = t.head then (0, false) else (x, false)
    if next = 0 then
      if level > 0 then t.findNear probe less allowEqual fuel x (level - 1) else some stop
    else
      match probe next with
      | .gt => t.findNear probe less allowEqual fuel next level
      | .eq =>
        if allowEqual then some (next, true)
        else if !less then some (t.next next 0, false)
        else if level > 0 then t.findNear probe less allowEqual fuel x (level - 1)
        else some stop
      | .lt =>
        if level > 0 then t.findNear probe less allowEqual fuel x (level - 1) else some stop

/-- The two nodes of a level between which the key belongs, or twice the node with the key. -/
def findSplice (t : Towers) (probe : ℕ → Ordering) (level : ℕ) : ℕ → ℕ → Option (ℕ × ℕ)
  | 0, _ => none
  | fuel + 1, before =>
    let next := t.next before level
    if next = 0 then some (before, next)
    else
      match probe next with
      | .eq => some (next, next)
      | .lt => some (before, next)
      | .gt => t.findSplice probe level fuel next

/-- The splices of the levels below `i`, from the top down, each search starting where the one
above ended; or the node that has the key. -/
def splices (t : Towers) (probe : ℕ → Ordering) (fuel : ℕ) :
    ℕ → ℕ → List (ℕ × ℕ) → Option (ℕ ⊕ List (ℕ × ℕ))
  | 0, _, acc => some (.inr acc)
  | i + 1, before, acc =>
    match t.findSplice probe i fuel before with
    | none => none
    | some (p, n) =>
      if p = n then some (.inl p) else t.splices probe fuel i p ((p, n) :: acc)

/-- The last node. -/
def findLast (t : Towers) : ℕ → ℕ → ℕ → Option ℕ
  | 0, _, _ => none
  | fuel + 1, x, level =>
    let next := t.next x level
    if next ≠ 0 then t.findLast fuel next level
    else if level = 0 then some (if x = t.head then 0 else x)
    else t.findLast fuel x (level - 1)

/-- Set one pointer. -/
def setNext (t : Towers) (x level v : ℕ) : Towers :=
  { t with next := fun y l => if y = x ∧ l = level then v else t.next y l }

/-- The nodes behind `x` on a level, up to the end. -/
def Chain (t : Towers) (l : ℕ) : ℕ → List ℕ → Prop
  | x, [] => t.next x l = 0
  | x, y :: ys => t.next x l = y ∧ y ≠ 0 ∧ t.Chain l y ys

/-! ## Levels in order -/

variable {K : Type*} [LinearOrder K] {n p x : ℕ} {key : ℕ → K} {less : Bool}

/-- `y` comes behind `x`: everything comes behind the head. -/
def Behind (t : Towers) (key : ℕ → K) (x y : ℕ) : Prop := x = t.head ∨ key x < key y

instance (t : Towers) (key : ℕ → K) (x y : ℕ) : Decidable (t.Behind key x y) :=
  inferInstanceAs (Decidable (_ ∨ _))

/-- The nodes of level `l`, in order, are `L l`. -/
structure Levels (t : Towers) (key : ℕ → K) (L : ℕ → List ℕ) : Prop where
  /-- A pointer leads to a node of its level, forward. -/
  next_mem : ∀ {l x}, x = t.head ∨ x ∈ L l → t.next x l ≠ 0 →
    t.next x l ∈ L l ∧ t.Behind key x (t.next x l)
  /-- It leaves out no node. -/
  gap : ∀ {l x y}, x = t.head ∨ x ∈ L l → y ∈ L l → t.Behind key x y →
    t.next x l ≠ 0 ∧ key (t.next x l) ≤ key y
  sorted : ∀ l, (L l).Pairwise fun x y => key x < key y
  subset : ∀ l, L (l + 1) ⊆ L l
  empty : ∀ l, t.height ≤ l → L l = []
  head_notMem : t.head ∉ L 0
  zero_notMem : 0 ∉ L 0
  height_pos : 0 < t.height

namespace Levels

variable {t : Towers} {L : ℕ → List ℕ}

theorem subset_zero (h : t.Levels key L) : ∀ l, L l ⊆ L 0
  | 0 => List.Subset.refl _
  | l + 1 => fun _ hy => h.subset_zero l (h.subset l hy)

variable {l y : ℕ}

section

variable (h : t.Levels key L)
include h

theorem ne_head (hy : y ∈ L l) : y ≠ t.head := by
  rintro rfl
  exact h.head_notMem (h.subset_zero l hy)

theorem ne_zero (hy : y ∈ L l) : y ≠ 0 := by
  rintro rfl
  exact h.zero_notMem (h.subset_zero l hy)

/-- A node comes behind another by its key. -/
theorem behind_iff (hx : x ∈ L l) : t.Behind key x y ↔ key x < key y :=
  or_iff_right (h.ne_head hx)

theorem nodup (l : ℕ) : (L l).Nodup :=
  (h.sorted l).imp fun hlt heq => absurd (congrArg key heq) hlt.ne

theorem key_inj (hx : x ∈ L l) (hy : y ∈ L l) (hk : key x = key y) : x = y :=
  inj_on_of_nodup_map
    (pairwise_map.mpr ((h.sorted l).imp fun hlt => ne_of_lt hlt)) hx hy hk

theorem sublist (l : ℕ) : (L (l + 1)).Sublist (L l) := by
  have hanti :
      Std.Antisymm fun x y => key x < key y := ⟨fun _ _ hlt hgt => absurd hlt (lt_asymm hgt)⟩
  have hsub : (L (l + 1)).Subperm (L l) := subperm_of_subset (h.nodup (l + 1)) (h.subset l)
  exact sublist_of_subperm_of_pairwise hsub (h.sorted (l + 1)) (h.sorted l)

/-- The pointers of a level, followed from the head, run through its nodes. -/
theorem chain (l : ℕ) : t.Chain l t.head (L l) := by
  -- The nodes `a` have been passed, the nodes `b` lie ahead.
  have hrun : ∀ (b a : List ℕ) (x : ℕ), L l = a ++ b → (x = t.head ∨ x ∈ L l) →
      (∀ z ∈ a, ¬ t.Behind key x z) → (∀ z ∈ b, t.Behind key x z) → t.Chain l x b := by
    intro b
    induction b with
    | nil =>
      intro a x hL hx ha _
      by_contra hne
      obtain ⟨hmem, hbehind⟩ := h.next_mem hx hne
      rw [hL, append_nil] at hmem
      exact ha _ hmem hbehind
    | cons y ys ih =>
      intro a x hL hx ha hb
      have hy : y ∈ L l := hL ▸ mem_append_right _ (.head _)
      have hsorted := h.sorted l
      rw [hL, pairwise_append, pairwise_cons] at hsorted
      obtain ⟨_, ⟨hys, _⟩, hay⟩ := hsorted
      obtain ⟨hne, hle⟩ := h.gap hx hy (hb y (.head _))
      obtain ⟨hmem, hbehind⟩ := h.next_mem hx hne
      have hnext : t.next x l = y := by
        rw [hL, mem_append, mem_cons] at hmem
        rcases hmem with hmem | hmem | hmem
        · exact absurd hbehind (ha _ hmem)
        · exact hmem
        · exact absurd (hys _ hmem) (not_lt.mpr hle)
      refine ⟨hnext, h.ne_zero hy, ih (a ++ [y]) y (by rw [hL, append_assoc]; rfl) (.inr hy) ?_ ?_⟩
      · intro z hz
        rw [h.behind_iff hy, not_lt]
        rcases mem_append.mp hz with hz | hz
        · exact (hay z hz y (.head _)).le
        · rw [mem_singleton.mp hz]
      · exact fun z hz => (h.behind_iff hy).mpr (hys z hz)
  exact hrun (L l) [] t.head rfl (.inl rfl) (fun _ hz => absurd hz (not_mem_nil)) fun _ _ =>
    .inl rfl

theorem congr {t' : Towers} {key' : ℕ → K} (hhead : t'.head = t.head) (hnext : t'.next = t.next)
    (hheight : t.height ≤ t'.height) (hkey : ∀ y ∈ L 0, key' y = key y) : t'.Levels key' L := by
  have hkey' : ∀ {l y}, y ∈ L l → key' y = key y := fun hy => hkey _ (h.subset_zero _ hy)
  have hbehind : ∀ {l x y}, (x = t.head ∨ x ∈ L l) → y ∈ L l →
      (t'.Behind key' x y ↔ t.Behind key x y) := by
    intro l x y hx hy
    rw [Behind, Behind, hhead, hkey' hy]
    rcases hx with rfl | hx
    · exact iff_of_true (.inl rfl) (.inl rfl)
    · rw [hkey' hx]
  refine ⟨?_, ?_, ?_, h.subset, ?_, ?_, h.zero_notMem, h.height_pos.trans_le hheight⟩
  · intro l x hx hne
    rw [hhead] at hx
    rw [hnext] at hne ⊢
    obtain ⟨hmem, hb⟩ := h.next_mem hx hne
    exact ⟨hmem, (hbehind hx hmem).mpr hb⟩
  · intro l x y hx hy hb
    rw [hhead] at hx
    obtain ⟨hne, hle⟩ := h.gap hx hy ((hbehind hx hy).mp hb)
    rw [hnext, hkey' hy, hkey' (h.next_mem hx hne).1]
    exact ⟨hne, hle⟩
  · intro l
    refine (h.sorted l).imp_of_mem fun hx hy hlt => ?_
    rwa [hkey' hx, hkey' hy]
  · exact fun l hl => h.empty l (hheight.trans hl)
  · rw [hhead]
    exact h.head_notMem

end

end Levels

/-! ## What the searches find -/

/-- A node that `findNear` may return: the last such node is wanted with `less`, the first one
without. -/
def Wanted (key : ℕ → K) (k : K) (less allowEqual : Bool) (y : ℕ) : Prop :=
  match less, allowEqual with
  | true, true => key y ≤ k
  | true, false => key y < k
  | false, true => k ≤ key y
  | false, false => k < key y

/-- The result of `findNear`, with whether its key is the one looked for. -/
structure Near (key : ℕ → K) (nodes : List ℕ) (k : K) (less allowEqual : Bool) (r : ℕ × Bool) :
    Prop where
  none : r.1 = 0 → ∀ y ∈ nodes, ¬ Wanted key k less allowEqual y
  some : r.1 ≠ 0 → r.1 ∈ nodes ∧ Wanted key k less allowEqual r.1 ∧
    ∀ y ∈ nodes, Wanted key k less allowEqual y → if less then key y ≤ key r.1 else key r.1 ≤ key y
  equal : r.2 = true ↔ r.1 ≠ 0 ∧ key r.1 = k

/-- The nodes behind `x`. -/
def ahead (t : Towers) (key : ℕ → K) (nodes : List ℕ) (x : ℕ) : List ℕ :=
  nodes.filter fun y => t.Behind key x y

/-- The search stands at `x` on level `l`, below the key `k`. -/
def Below (t : Towers) (key : ℕ → K) (L : ℕ → List ℕ) (k : K) (l x : ℕ) : Prop :=
  x = t.head ∨ x ∈ L l ∧ key x < k

/-- The key and its comparison to the nodes. -/
def Probes (key : ℕ → K) (nodes : List ℕ) (k : K) (probe : ℕ → Ordering) : Prop :=
  ∀ y ∈ nodes, probe y = cmp k (key y)

namespace Levels

variable {t : Towers} {L : ℕ → List ℕ} {k : K} {probe : ℕ → Ordering}

theorem length_ahead_le (nodes : List ℕ) (x : ℕ) : (t.ahead key nodes x).length ≤ nodes.length :=
  length_filter_le _ _

variable {l y : ℕ}

theorem length_ahead_lt (h : t.Levels key L) (hx : x = t.head ∨ x ∈ L l) (hne : t.next x l ≠ 0) :
    (t.ahead key (L 0) (t.next x l)).length < (t.ahead key (L 0) x).length := by
  obtain ⟨hmem, hbehind⟩ := h.next_mem hx hne
  have hmem0 : t.next x l ∈ L 0 := h.subset_zero l hmem
  have hnot : t.next x l ∉ t.ahead key (L 0) (t.next x l) := by
    intro hin
    have := of_decide_eq_true (mem_filter.mp hin).2
    exact lt_irrefl _ ((h.behind_iff hmem0).mp this)
  have hsub : t.next x l :: t.ahead key (L 0) (t.next x l) ⊆ t.ahead key (L 0) x := by
    intro y hy
    rcases hy with _ | ⟨_, hy⟩
    · exact mem_filter.mpr ⟨hmem0, decide_eq_true hbehind⟩
    · obtain ⟨hy0, hy'⟩ := mem_filter.mp hy
      have hlt := (h.behind_iff hmem0).mp (of_decide_eq_true hy')
      exact mem_filter.mpr ⟨hy0, decide_eq_true (hbehind.imp_right fun hx => hx.trans hlt)⟩
  exact (subperm_of_subset (nodup_cons.mpr ⟨hnot, (h.nodup 0).filter _⟩) hsub).length_le

theorem on_of_below (hx : t.Below key L k l x) : x = t.head ∨ x ∈ L l :=
  hx.imp_right And.left

section

variable (h : t.Levels key L)
include h

theorem below_pred (hx : t.Below key L k l x) (hl : 0 < l) : t.Below key L k (l - 1) x := by
  obtain ⟨m, rfl⟩ : ∃ m, l = m + 1 := ⟨l - 1, by omega⟩
  exact hx.imp_right fun hx => ⟨h.subset m hx.1, hx.2⟩

/-- On the base level the nodes are split by `x` and the node behind it. -/
theorem le_or_ge (hx : t.Below key L k l x) (hy : y ∈ L l) :
    (x ≠ t.head ∧ key y ≤ key x ∧ key x < k) ∨ (t.next x l ≠ 0 ∧ key (t.next x l) ≤ key y) := by
  by_cases hbehind : t.Behind key x y
  · exact .inr (h.gap (on_of_below hx) hy hbehind)
  · have hne : x ≠ t.head := fun heq => hbehind (.inl heq)
    exact .inl ⟨hne, not_lt.mp fun hlt => hbehind (.inr hlt), (hx.resolve_left hne).2⟩

/-- The search ends between `x` and the node behind it. -/
theorem near_stop {allowEqual : Bool} (hx : t.Below key L k 0 x) (hnext :
      t.next x 0 ≠ 0 → k < key (t.next x 0) ∨ (k = key (t.next x 0) ∧ less = true ∧ allowEqual =
      false)) :
    Near key (L 0) k less allowEqual
      (if !less then (t.next x 0, false) else if x = t.head then (0, false) else (x, false)) := by
  have hmem :
      ∀ (_ : t.next x 0 ≠ 0), t.next x 0 ∈ L 0 := fun hne => (h.next_mem (on_of_below hx) hne).1
  cases less with
  | false =>
    have hlt : ∀ (_ : t.next x 0 ≠ 0), k < key (t.next x 0) := fun hne =>
      (hnext hne).resolve_right fun hr => Bool.false_ne_true hr.2.1
    refine ⟨?_, ?_, ?_⟩
    · intro h0 y hy hw
      rcases h.le_or_ge hx hy with ⟨_, hle, hlt'⟩ | ⟨hne, _⟩
      · have hyk : key y < k := hle.trans_lt hlt'
        cases allowEqual with
        | false => exact lt_asymm hyk hw
        | true => exact not_le.mpr hyk hw
      · exact hne h0
    · intro hne
      refine ⟨hmem hne, ?_, ?_⟩
      · cases allowEqual with
        | false => exact hlt hne
        | true => exact (hlt hne).le
      · intro y hy hw
        rcases h.le_or_ge hx hy with ⟨_, hle, hlt'⟩ | ⟨_, hle⟩
        · have hyk : key y < k := hle.trans_lt hlt'
          cases allowEqual with
          | false => exact absurd hw (lt_asymm hyk)
          | true => exact absurd hw (not_le.mpr hyk)
        · exact hle
    · exact iff_of_false Bool.false_ne_true fun hr => absurd hr.2 (hlt hr.1).ne'
  | true =>
    -- Nothing behind `x` is wanted.
    have hbehind : ∀ y ∈ L 0, Wanted key k true allowEqual y → x ≠ t.head ∧ key y ≤ key x := by
      intro y hy hw
      rcases h.le_or_ge hx hy with ⟨hne, hle, _⟩ | ⟨hne, hle⟩
      · exact ⟨hne, hle⟩
      · exfalso
        rcases hnext hne with hlt | ⟨heq, _, rfl⟩
        · cases allowEqual with
          | false => exact lt_asymm (hlt.trans_le hle) hw
          | true => exact not_le.mpr (hlt.trans_le hle) hw
        · exact not_lt.mpr (heq.trans_le hle) hw
    rw [Bool.not_true, if_neg Bool.false_ne_true]
    split_ifs with hhead
    · refine ⟨fun _ y hy hw => (hbehind y hy hw).1 hhead, fun hne => absurd rfl hne, ?_⟩
      exact iff_of_false Bool.false_ne_true fun hr => hr.1 rfl
    · obtain ⟨hx0, hxk⟩ := hx.resolve_left hhead
      refine ⟨fun h0 => absurd h0 (h.ne_zero hx0), fun _ => ⟨hx0, ?_, ?_⟩, ?_⟩
      · cases allowEqual with
        | false => exact hxk
        | true => exact hxk.le
      · exact fun y hy hw => (hbehind y hy hw).2
      · exact iff_of_false Bool.false_ne_true fun hr => absurd hr.2 hxk.ne

theorem near_equal (hy : y ∈ L 0) (hk : k = key y) : Near key (L 0) k less true (y, true) := by
  refine ⟨fun h0 => absurd h0 (h.ne_zero hy), fun _ => ⟨hy, ?_, fun z _ hw => ?_⟩, ?_⟩
  · cases less with
    | false => exact hk.le
    | true => exact hk.ge
  · cases less with
    | false => exact hk.ge.trans hw
    | true => exact le_trans hw hk.le
  · exact iff_of_true rfl ⟨h.ne_zero hy, hk.symm⟩

theorem near_after_equal (hy : y ∈ L 0) (hk : k = key y) :
    Near key (L 0) k false false (t.next y 0, false) := by
  have hlt : ∀ (_ : t.next y 0 ≠ 0), k < key (t.next y 0) := fun hne =>
    hk.trans_lt ((h.behind_iff hy).mp (h.next_mem (.inr hy) hne).2)
  refine ⟨fun h0 z hz hw => ?_, fun hne =>
    ⟨(h.next_mem (.inr hy) hne).1, hlt hne, fun z hz hw => ?_⟩, ?_⟩
  · exact (h.gap (.inr hy) hz (.inr (hk.symm.trans_lt hw))).1 h0
  · exact (h.gap (.inr hy) hz (.inr (hk.symm.trans_lt hw))).2
  · exact iff_of_false Bool.false_ne_true fun hr => absurd hr.2 (hlt hr.1).ne'

/-- The search returns what its comment says. -/
theorem findNear_spec (hprobe : Probes key (L 0) k probe) (less allowEqual : Bool) :
    ∀ (fuel x level : ℕ), t.Below key L k level x →
      (t.ahead key (L 0) x).length + level < fuel →
      ∃ r, t.findNear probe less allowEqual fuel x level = some r ∧
        Near key (L 0) k less allowEqual r := by
  intro fuel
  induction fuel with
  | zero => exact fun x level _ hf => absurd hf (Nat.not_lt_zero _)
  | succ fuel ih =>
    intro x level hx hf
    -- One level down, or to the end of the search on the base level.
    have hdown : ∀ _ : (level = 0 → t.next x 0 ≠ 0 → k < key (t.next x 0) ∨
          (k = key (t.next x 0) ∧ less = true ∧ allowEqual = false)),
        ∃ r, (if level > 0 then t.findNear probe less allowEqual fuel x (level - 1)
          else some (if !less then (t.next x level, false)
            else if x = t.head then (0, false) else (x, false))) = some r ∧
          Near key (L 0) k less allowEqual r := by
      intro hstop
      by_cases hl : level > 0
      · rw [if_pos hl]
        exact ih x (level - 1) (h.below_pred hx hl) (by omega)
      · obtain rfl : level = 0 := by omega
        exact ⟨_, if_neg hl, h.near_stop hx (hstop rfl)⟩
    rw [findNear]
    by_cases hne : t.next x level = 0
    · simp only [if_pos hne]
      exact hdown fun hl h0 => absurd (hl ▸ hne) h0
    · simp only [if_neg hne]
      obtain ⟨hmem, _⟩ := h.next_mem (on_of_below hx) hne
      have hmem0 := h.subset_zero level hmem
      have hright := h.length_ahead_lt (on_of_below hx) hne
      rw [hprobe _ hmem0]
      rcases lt_trichotomy k (key (t.next x level)) with hlt | heq | hgt
      · rw [(cmp_eq_lt_iff _ _).mpr hlt]
        exact hdown fun hl _ => .inl (hl ▸ hlt)
      · rw [(cmp_eq_eq_iff _ _).mpr heq]
        cases allowEqual with
        | true => exact ⟨_, rfl, h.near_equal hmem0 heq⟩
        | false =>
          cases less with
          | false => exact ⟨_, rfl, h.near_after_equal hmem0 heq⟩
          | true => exact hdown fun hl _ => .inr ⟨hl ▸ heq, rfl, rfl⟩
      · rw [(cmp_eq_gt_iff _ _).mpr hgt]
        exact ih _ level (.inr ⟨hmem, hgt⟩) (by omega)

theorem findLast_spec : ∀ (fuel x level : ℕ), (x = t.head ∨ x ∈ L level) →
    (t.ahead key (L 0) x).length + level < fuel →
    ∃ r, t.findLast fuel x level = some r ∧ (r = 0 → L 0 = []) ∧
      (r ≠ 0 → r ∈ L 0 ∧ ∀ y ∈ L 0, key y ≤ key r) := by
  intro fuel
  induction fuel with
  | zero => exact fun x level _ hf => absurd hf (Nat.not_lt_zero _)
  | succ fuel ih =>
    intro x level hx hf
    rw [findLast]
    by_cases hne : t.next x level = 0
    · simp only [hne, ne_eq, not_true_eq_false, if_false]
      by_cases hl : level = 0
      · subst hl
        rw [if_pos rfl]
        -- Nothing comes behind `x`.
        have hlast : ∀ y ∈ L 0, ¬ t.Behind key x y := fun y hy hb => (h.gap hx hy hb).1 hne
        refine ⟨_, rfl, ?_, ?_⟩
        · split_ifs with hhead
          · exact fun _ => eq_nil_iff_forall_not_mem.mpr fun y hy => hlast y hy (.inl hhead)
          · exact fun h0 => absurd h0 (h.ne_zero (hx.resolve_left hhead))
        · split_ifs with hhead
          · exact fun h0 => absurd rfl h0
          · exact fun _ => ⟨hx.resolve_left hhead, fun y hy => not_lt.mp fun hlt =>
              hlast y hy (.inr hlt)⟩
      · rw [if_neg hl]
        obtain ⟨m, rfl⟩ : ∃ m, level = m + 1 := ⟨level - 1, by omega⟩
        exact ih x m (hx.imp_right fun hx => h.subset m hx) (by omega)
    · rw [if_pos hne]
      have hright := h.length_ahead_lt hx hne
      exact ih _ level (.inr (h.next_mem hx hne).1) (by omega)

end

/-- Where the key belongs on a level: `p` is below it, the node behind `p` is not there or above
it. -/
structure Splice (t : Towers) (key : ℕ → K) (L : ℕ → List ℕ) (k : K) (l p n : ℕ) : Prop where
  below : t.Below key L k l p
  next_eq : t.next p l = n
  above : n ≠ 0 → k < key n

section

variable (h : t.Levels key L) (hs : Splice t key L k l p n)
include h hs

theorem Splice.mem (hn : n ≠ 0) : n ∈ L l := by
  have := (h.next_mem (on_of_below hs.below) (hs.next_eq ▸ hn)).1
  rwa [hs.next_eq] at this

theorem Splice.ne (hp : p ≠ 0) : p ≠ n := by
  rintro rfl
  have hmem := hs.mem h hp
  exact lt_asymm (hs.above hp) (hs.below.resolve_left (h.ne_head hmem)).2

theorem Splice.key_ne (hy : y ∈ L l) : key y ≠ k := by
  rcases h.le_or_ge hs.below hy with ⟨_, hle, hlt⟩ | ⟨hne, hle⟩
  · exact (hle.trans_lt hlt).ne
  · rw [hs.next_eq] at hne hle
    exact ((hs.above hne).trans_le hle).ne'

end

/-- The search on one level finds the node with the key or the splice. -/
theorem findSplice_spec (h : t.Levels key L) (hprobe : Probes key (L 0) k probe)
    (hhead : t.head ≠ 0) : ∀ (fuel b : ℕ), t.Below key L k l b →
      (t.ahead key (L 0) b).length < fuel →
      ∃ p n, t.findSplice probe l fuel b = some (p, n) ∧
        ((p = n ∧ p ∈ L l ∧ key p = k) ∨ (p ≠ n ∧ Splice t key L k l p n)) := by
  intro fuel
  induction fuel with
  | zero => exact fun b _ hf => absurd hf (Nat.not_lt_zero _)
  | succ fuel ih =>
    intro b hb hf
    have hb0 : b ≠ 0 := by
      rcases hb with rfl | hb
      · exact hhead
      · exact h.ne_zero hb.1
    have hsplice : ∀ _ : (t.next b l ≠ 0 → k < key (t.next b l)), ∃ p n,
        some (b, t.next b l) = some (p, n) ∧
          ((p = n ∧ p ∈ L l ∧ key p = k) ∨ (p ≠ n ∧ Splice t key L k l p n)) := by
      intro habove
      have hs : Splice t key L k l b (t.next b l) := ⟨hb, rfl, habove⟩
      exact ⟨b, _, rfl, .inr ⟨hs.ne h hb0, hs⟩⟩
    rw [findSplice]
    by_cases hne : t.next b l = 0
    · simp only [if_pos hne]
      exact hsplice fun h0 => absurd hne h0
    · simp only [if_neg hne]
      have hmem := (h.next_mem (on_of_below hb) hne).1
      have hright := h.length_ahead_lt (on_of_below hb) hne
      rw [hprobe _ (h.subset_zero l hmem)]
      rcases lt_trichotomy k (key (t.next b l)) with hlt | heq | hgt
      · rw [(cmp_eq_lt_iff _ _).mpr hlt]
        exact hsplice fun _ => hlt
      · rw [(cmp_eq_eq_iff _ _).mpr heq]
        exact ⟨_, _, rfl, .inl ⟨rfl, hmem, heq.symm⟩⟩
      · rw [(cmp_eq_gt_iff _ _).mpr hgt]
        exact ih _ (.inr ⟨hmem, hgt⟩) (by omega)

/-- Splices for a number of consecutive levels, from level `i` on. -/
def SplicesFrom (t : Towers) (key : ℕ → K) (L : ℕ → List ℕ) (k : K) (i : ℕ) (sp : List (ℕ × ℕ)) :
    Prop :=
  ∀ (j p n : ℕ), sp[j]? = some (p, n) → Splice t key L k (i + j) p n

/-- The search from the top level down finds the node with the key, which is then on the base
level, or a splice for each level. -/
theorem splices_spec (h : t.Levels key L) (hprobe : Probes key (L 0) k probe) (hhead : t.head ≠ 0)
    {fuel : ℕ} (hfuel : (L 0).length < fuel) : ∀ (i b : ℕ) (acc : List (ℕ × ℕ)),
      t.Below key L k i b → SplicesFrom t key L k i acc →
      (∃ y, t.splices probe fuel i b acc = some (.inl y) ∧ y ∈ L 0 ∧ key y = k) ∨
      ∃ sp, t.splices probe fuel i b acc = some (.inr sp) ∧ sp.length = i + acc.length ∧
        SplicesFrom t key L k 0 sp := by
  intro i
  induction i with
  | zero => exact fun b acc _ hacc => .inr ⟨acc, rfl, (Nat.zero_add _).symm, hacc⟩
  | succ i ih =>
    intro b acc hb hacc
    have hb' : t.Below key L k i b := h.below_pred hb (Nat.succ_pos i)
    have hf : (t.ahead key (L 0) b).length < fuel := (length_ahead_le (L 0) b).trans_lt hfuel
    obtain ⟨p, n, hfind, hres⟩ := h.findSplice_spec hprobe hhead fuel b hb' hf
    rw [splices, hfind]
    rcases hres with ⟨rfl, hmem, hk⟩ | ⟨hpn, hs⟩
    · exact .inl ⟨p, if_pos rfl, h.subset_zero i hmem, hk⟩
    · have hacc' : SplicesFrom t key L k i ((p, n) :: acc) := by
        intro j p' n' hj
        cases j with
        | zero =>
          obtain ⟨rfl, rfl⟩ : p = p' ∧ n = n' := by simpa using hj
          exact hs
        | succ j =>
          have := hacc j p' n' (by simpa using hj)
          rwa [Nat.add_right_comm] at this
      show (∃ y, (if p = n then _ else t.splices probe fuel i p ((p, n) :: acc)) = _ ∧ _) ∨
        ∃ sp, (if p = n then _ else t.splices probe fuel i p ((p, n) :: acc)) = _ ∧ _
      rw [if_neg hpn]
      rcases ih p ((p, n) :: acc) hs.below hacc' with hfound | ⟨sp, hsp, hlen, hall⟩
      · exact .inl hfound
      · exact .inr ⟨sp, hsp, by rw [hlen, length_cons]; omega, hall⟩

end Levels

/-! ## A new node -/

/-- A list in order with a node put in its place. -/
def insertNode (key : ℕ → K) (x : ℕ) (nodes : List ℕ) : List ℕ :=
  (nodes.filter fun y => key y < key x) ++ x :: nodes.filter fun y => key x < key y

variable {y l : ℕ} {nodes : List ℕ}

theorem mem_insertNode (hne : ∀ z ∈ nodes, key z ≠ key x) :
    y ∈ insertNode key x nodes ↔ y = x ∨ y ∈ nodes := by
  simp only [insertNode, mem_append, mem_cons, mem_filter, decide_eq_true_eq]
  constructor
  · tauto
  · rintro (rfl | hy)
    · tauto
    · rcases lt_or_gt_of_ne (hne y hy) with hlt | hgt <;> tauto

theorem pairwise_insertNode (h : nodes.Pairwise fun y z => key y < key z) :
    (insertNode key x nodes).Pairwise fun y z => key y < key z := by
  refine pairwise_append.mpr ⟨h.filter _, pairwise_cons.mpr ⟨?_, h.filter _⟩, ?_⟩
  · exact fun z hz => of_decide_eq_true (mem_filter.mp hz).2
  · intro y hy z hz
    have hyx : key y < key x := of_decide_eq_true (mem_filter.mp hy).2
    rcases hz with _ | ⟨_, hz⟩
    · exact hyx
    · exact hyx.trans (of_decide_eq_true (mem_filter.mp hz).2)

/-- Put `x` between `p` and `n` on a level. -/
def link (t : Towers) (level p x n : ℕ) : Towers := (t.setNext x level n).setNext p level x

theorem next_link_of_ne (t : Towers) {level : ℕ} (hl : l ≠ level) :
    (t.link level p x n).next y l = t.next y l := by
  simp [link, setNext, hl]

theorem next_link (t : Towers) {level : ℕ} :
    (t.link level p x n).next y level =
      if y = p then x else if y = x then n else t.next y level := by
  simp [link, setNext]

namespace Levels

variable {t : Towers} {L : ℕ → List ℕ}

/-- The lists after `x` has been put on level `i`. -/
def insertAt (key : ℕ → K) (L : ℕ → List ℕ) (i x : ℕ) : ℕ → List ℕ :=
  Function.update L i (insertNode key x (L i))

theorem insertAt_self (key : ℕ → K) (L : ℕ → List ℕ) (i x : ℕ) :
    insertAt key L i x i = insertNode key x (L i) := Function.update_self ..

variable {l i : ℕ}

theorem insertAt_of_ne (key : ℕ → K) (L : ℕ → List ℕ) (x : ℕ) (hl : l ≠ i) :
    insertAt key L i x l = L l := Function.update_of_ne hl ..

section link

variable {y : ℕ}

section

variable (h : t.Levels key L) (hs : Splice t key L (key x) i p n)
include h hs

theorem Splice.mem_insertAt : y ∈ insertAt key L i x i ↔ y = x ∨ y ∈ L i := by
  have hne : ∀ y ∈ L i, key y ≠ key x := fun y hy => hs.key_ne h hy
  rw [insertAt_self, mem_insertNode hne]

theorem Splice.behind_pred (hy : y = t.head ∨ y ∈ L i) (hyp : y ≠ p) (hyx : t.Behind key y x) :
    t.Behind key y p ∧ p ∈ L i ∧ key p < key x := by
  have hnot : ¬ (y ∈ L i ∧ t.Behind key p y) := by
    rintro ⟨hyi, hpy⟩
    obtain ⟨hn, hle⟩ := h.gap (on_of_below hs.below) hyi hpy
    rw [hs.next_eq] at hn hle
    exact lt_asymm ((hs.above hn).trans_le hle) ((h.behind_iff hyi).mp hyx)
  rcases hs.below with hph | ⟨hpi, hpk⟩
  · exact absurd ⟨hy.resolve_left (hph ▸ hyp), .inl hph⟩ hnot
  · refine ⟨?_, hpi, hpk⟩
    rcases hy with rfl | hyi
    · exact .inl rfl
    · have hle : key y ≤ key p := not_lt.mp fun hlt => hnot ⟨hyi, .inr hlt⟩
      exact .inr (hle.lt_of_ne fun heq => hyp (h.key_inj hyi hpi heq))

theorem next_mem_link (hy : y = t.head ∨ y ∈ insertAt key L i x i)
    (hnext : (t.link i p x n).next y i ≠ 0) :
    (t.link i p x n).next y i ∈ insertAt key L i x i ∧
      t.Behind key y ((t.link i p x n).next y i) := by
  rw [next_link] at hnext ⊢
  rw [hs.mem_insertAt h] at hy ⊢
  by_cases hyp : y = p
  · subst hyp
    rw [if_pos rfl]
    exact ⟨.inl rfl, hs.below.imp_right And.right⟩
  · rw [if_neg hyp] at hnext ⊢
    by_cases hyx : y = x
    · rw [if_pos hyx] at hnext ⊢
      exact ⟨.inr (hs.mem h hnext), .inr (hyx ▸ hs.above hnext)⟩
    · rw [if_neg hyx] at hnext ⊢
      have hold := h.next_mem (hy.imp_right (Or.resolve_left · hyx)) hnext
      exact ⟨.inr hold.1, hold.2⟩

theorem gap_link (hx0 : x ≠ 0) (hxh : x ≠ t.head) {z : ℕ}
    (hy : y = t.head ∨ y ∈ insertAt key L i x i) (hz : z ∈ insertAt key L i x i)
    (hyz : t.Behind key y z) :
    (t.link i p x n).next y i ≠ 0 ∧ key ((t.link i p x n).next y i) ≤ key z := by
  have hpon := on_of_below hs.below
  rw [next_link]
  rw [hs.mem_insertAt h] at hy hz
  by_cases hyp : y = p
  · rw [if_pos hyp]
    refine ⟨hx0, ?_⟩
    rcases hz with rfl | hz
    · exact le_rfl
    · obtain ⟨hn, hle⟩ := h.gap hpon hz (hyp ▸ hyz)
      rw [hs.next_eq] at hn hle
      exact (hs.above hn).le.trans hle
  · rw [if_neg hyp]
    by_cases hyx : y = x
    · rw [if_pos hyx]
      have hxz : key x < key z := hyx ▸ hyz.resolve_left fun hyh => hxh (hyx ▸ hyh)
      have hz' : z ∈ L i := hz.resolve_left fun hzx => lt_irrefl _ (hzx ▸ hxz)
      have hgap := h.gap hpon hz' (hs.below.imp_right fun hp => hp.2.trans hxz)
      rwa [hs.next_eq] at hgap
    · rw [if_neg hyx]
      have hy' := hy.imp_right (Or.resolve_left · hyx)
      rcases hz with rfl | hz
      · obtain ⟨hyb, hpi, hpk⟩ := hs.behind_pred h hy' hyp hyz
        obtain ⟨hn, hle⟩ := h.gap hy' hpi hyb
        exact ⟨hn, hle.trans hpk.le⟩
      · exact h.gap hy' hz hyz

theorem insertAt_subset (hbelow : ∀ j, i = j + 1 → x ∈ L j) (l : ℕ) :
    insertAt key L i x (l + 1) ⊆ insertAt key L i x l := by
  intro y hy
  by_cases hl : l = i
  · subst hl
    rw [insertAt_of_ne key L x (Nat.succ_ne_self l)] at hy
    exact (hs.mem_insertAt h).mpr (.inr (h.subset l hy))
  · rw [insertAt_of_ne key L x hl]
    by_cases hl' : l + 1 = i
    · subst hl'
      rcases (hs.mem_insertAt h).mp hy with rfl | hy
      · exact hbelow l rfl
      · exact h.subset l hy
    · rw [insertAt_of_ne key L x hl'] at hy
      exact h.subset l hy

theorem notMem_insertAt (hyx : y ≠ x) (hy : y ∉ L 0) : y ∉ insertAt key L i x 0 := by
  by_cases hi : i = 0
  · subst hi
    rw [hs.mem_insertAt h]
    exact not_or.mpr ⟨hyx, hy⟩
  · rw [insertAt_of_ne key L x (Ne.symm hi)]
    exact hy

/-- A new node in a splice, on a level above one that it is on already (or on the base level). -/
theorem link (hx0 : x ≠ 0) (hxh : x ≠ t.head) (hbelow : ∀ j, i = j + 1 → x ∈ L j)
    (hi : i < t.height) : (t.link i p x n).Levels key (insertAt key L i x) where
  next_mem := by
    intro l y hy hnext
    by_cases hl : l = i
    · subst hl
      exact h.next_mem_link hs hy hnext
    · rw [next_link_of_ne t hl] at hnext ⊢
      rw [insertAt_of_ne key L x hl] at hy ⊢
      exact h.next_mem hy hnext
  gap := by
    intro l y z hy hz hyz
    by_cases hl : l = i
    · subst hl
      exact h.gap_link hs hx0 hxh hy hz hyz
    · rw [next_link_of_ne t hl]
      rw [insertAt_of_ne key L x hl] at hy hz
      exact h.gap hy hz hyz
  sorted := by
    intro l
    by_cases hl : l = i
    · rw [hl, insertAt_self]
      exact pairwise_insertNode (h.sorted i)
    · rw [insertAt_of_ne key L x hl]
      exact h.sorted l
  subset := h.insertAt_subset hs hbelow
  empty := by
    intro l hl
    have hle : t.height ≤ l := hl
    rw [insertAt_of_ne key L x (by omega)]
    exact h.empty l hl
  head_notMem := h.notMem_insertAt hs hxh.symm h.head_notMem
  zero_notMem := h.notMem_insertAt hs hx0.symm h.zero_notMem
  height_pos := h.height_pos

end

end link

/-- The lists after `x` has been put on the levels below `i`. -/
def insertBelow (key : ℕ → K) (L : ℕ → List ℕ) (x i l : ℕ) : List ℕ :=
  if l < i then insertNode key x (L l) else L l

theorem insertBelow_of_le (key : ℕ → K) (L : ℕ → List ℕ) (h : i ≤ l) :
    insertBelow key L x i l = L l := if_neg (Nat.not_lt.mpr h)

theorem insertBelow_of_lt (key : ℕ → K) (L : ℕ → List ℕ) (h : l < i) :
    insertBelow key L x i l = insertNode key x (L l) := if_pos h

theorem mem_insertBelow {L : ℕ → List ℕ} (hne : ∀ l, ∀ z ∈ L l, key z ≠ key x) (l y : ℕ) :
    y ∈ insertBelow key L x i l ↔ (y = x ∧ l < i) ∨ y ∈ L l := by
  by_cases hl : l < i
  · rw [insertBelow_of_lt key L hl, mem_insertNode (hne l), and_iff_left hl]
  · rw [insertBelow_of_le key L (not_lt.mp hl), or_iff_right fun hy => hl hy.2]

theorem insertAt_insertBelow (key : ℕ → K) (L : ℕ → List ℕ) (x i : ℕ) :
    insertAt key (insertBelow key L x i) i x = insertBelow key L x (i + 1) := by
  funext l
  by_cases hl : l = i
  · rw [hl, insertAt_self, insertBelow_of_le key L le_rfl,
      insertBelow_of_lt key L (Nat.lt_succ_self i)]
  · rw [insertAt_of_ne _ _ x hl, insertBelow, insertBelow]
    exact if_congr (by omega) rfl rfl

end Levels

/-! ## Positions in the list of nodes -/

instance (key : ℕ → K) (k : K) (less allowEqual : Bool) (y : ℕ) :
    Decidable (Wanted key k less allowEqual y) :=
  match less, allowEqual with
  | true, true => inferInstanceAs (Decidable (key y ≤ k))
  | true, false => inferInstanceAs (Decidable (key y < k))
  | false, true => inferInstanceAs (Decidable (k ≤ key y))
  | false, false => inferInstanceAs (Decidable (k < key y))

theorem Chain.next {t : Towers} {ys : List ℕ} (h : t.Chain l x ys) :
    t.next x l = ys.head?.getD 0 := by
  cases ys with
  | nil => exact h
  | cons y ys => exact h.1

theorem Chain.behind {t : Towers} {b : List ℕ} :
    ∀ {a : List ℕ} {x : ℕ}, t.Chain l x (a ++ y :: b) → t.Chain l y b
  | [], _, h => h.2.2
  | _ :: _, _, h => Chain.behind h.2.2

/-- The node found is the first wanted one, from the front or from the back. -/
theorem Near.eq_find? {k : K} {allowEqual : Bool} {r : ℕ × Bool}
    (h : Near key nodes k less allowEqual r) (hs : nodes.Pairwise fun x y => key x < key y) :
    r.1 = ((if less then nodes.reverse else nodes).find?
      fun y => Wanted key k less allowEqual y).getD 0 := by
  have hmem : ∀ y, y ∈ (if less then nodes.reverse else nodes) ↔ y ∈ nodes := by
    cases less <;> simp
  cases hfind : (if less then nodes.reverse else nodes).find? fun y =>
      Wanted key k less allowEqual y with
  | none =>
    by_contra hne
    obtain ⟨hr, hw, _⟩ := h.some hne
    exact find?_eq_none.mp hfind _ ((hmem _).mpr hr) (decide_eq_true hw)
  | some y =>
    obtain ⟨hw, as, bs, hsplit, has⟩ := find?_eq_some_iff_append.mp hfind
    have hy : y ∈ nodes := (hmem y).mp (hsplit ▸ mem_append_right _ (.head _))
    have hw : Wanted key k less allowEqual y := of_decide_eq_true hw
    by_cases h0 : r.1 = 0
    · exact absurd hw (h.none h0 y hy)
    obtain ⟨hr, hrw, hext⟩ := h.some h0
    have hr' := (hmem _).mpr hr
    rw [hsplit, mem_append, mem_cons] at hr'
    rcases hr' with hin | heq | hin
    · have := has _ hin
      rw [decide_eq_true hrw] at this
      exact absurd this Bool.false_ne_true
    · exact heq
    · -- What comes after the first wanted node is not as near.
      exfalso
      cases less with
      | false =>
        rw [if_neg Bool.false_ne_true] at hsplit
        rw [hsplit, pairwise_append, pairwise_cons] at hs
        exact not_le.mpr (hs.2.1.1 _ hin) (hext y hy hw)
      | true =>
        rw [if_pos rfl, reverse_eq_iff, reverse_append, reverse_cons] at hsplit
        rw [hsplit, append_assoc, pairwise_append] at hs
        exact not_le.mpr (hs.2.2 _ (mem_reverse.mpr hin) y (by simp)) (hext y hy hw)

theorem find?_below_key {a b : List ℕ} (hs : (a ++ x :: b).Pairwise fun y z => key y < key z) :
    (a ++ x :: b).reverse.find? (fun y => Wanted key (key x) true false y) = a.getLast? := by
  obtain ⟨_, hxb, hab⟩ := pairwise_append.mp hs
  have hb : b.reverse.find? (fun y => Wanted key (key x) true false y) = none := by
    rw [find?_eq_none]
    intro y hy hw
    exact lt_asymm ((pairwise_cons.mp hxb).1 y (mem_reverse.mp hy)) (of_decide_eq_true hw)
  have hx : ¬ Wanted key (key x) true false x := lt_irrefl (key x)
  rw [reverse_append, reverse_cons, append_assoc, find?_append, hb,
    Option.none_or, singleton_append, find?_cons_of_neg (by simpa using hx),
    ← head?_reverse]
  cases hrev : a.reverse with
  | nil => rfl
  | cons y ys =>
    have hy : y ∈ a := mem_reverse.mp (hrev ▸ (.head _) ..)
    exact find?_cons_of_pos (decide_eq_true (hab y hy x (.head _)))

theorem eq_getLast? {r : ℕ} (hs : nodes.Pairwise fun x y => key x < key y) (h0 : r = 0 → nodes = [])
    (hr : r ≠ 0 → r ∈ nodes ∧ ∀ y ∈ nodes, key y ≤ key r) : r = nodes.getLast?.getD 0 := by
  by_cases hr0 : r = 0
  · rw [h0 hr0, hr0]
    rfl
  · obtain ⟨hmem, hmax⟩ := hr hr0
    obtain ⟨a, b, rfl⟩ := append_of_mem hmem
    cases b with
    | nil => simp
    | cons y b =>
      have hlt := (pairwise_cons.mp (pairwise_append.mp hs).2.1).1 y (.head _)
      exact absurd (hmax y (by simp)) (not_le.mpr hlt)

end Towers
end Lib
end Autumn
