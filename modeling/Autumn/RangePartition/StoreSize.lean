import Autumn.RangePartition.Survivors
import Autumn.Lib.Iterator

/-!
# How much a round of a compaction puts into its store

A round ends when the store has no room for the next pair, by the estimate `estimatedVS`.  For
values in the form `writeToLSM` gives them the estimate bounds what a `Put` takes from the arena, so
the store never outgrows it; and the keys and values put in one round are at most the capacity,
which bounds the number of rounds from below.
-/

namespace Autumn

open Lib Y List Skiplist

/-- A value has a form in which `writeToLSM` stores values: a pointer of sixteen bytes, or a value
within the limit for values stored next to their keys. -/
def Stored (vs : ValueStruct) : Prop :=
  vs.valueLen ≤ vptrSize ∨ (vs.metaBits &&& bitValuePointer = 0 ∧ vs.valueLen ≤ valueThrottle)

instance (vs : ValueStruct) : Decidable (Stored vs) :=
  inferInstanceAs (Decidable (_ ∨ _))

theorem stored_lsmValue (ei : EntryInfo) : Stored (lsmValue ei) := by
  rw [lsmValue]
  split_ifs with h
  · rw [shouldWriteValueToLSM, Bool.and_eq_true, beq_iff_eq, decide_eq_true_iff] at h
    refine .inr ⟨?_, h.2⟩
    have hbits := congrArg UInt32.toUInt8 h.1
    rw [UInt32.toUInt8_and] at hbits
    exact hbits
  · refine .inl ?_
    show (ValuePointer.encode _).length ≤ vptrSize
    rw [ValuePointer.length_encode, vptrSize]

/-- The bytes of a key and its value in the arena, without the node. -/
def payload (x : Pair) : ℕ := x.1.len + x.2.encodedSize

theorem nodeSize_le (height : ℕ) : nodeSize height ≤ maxNodeSize + 7 := by
  unfold nodeSize
  omega

variable {x : Pair}

/-- The estimate bounds what a `Put` takes from the arena. -/
theorem memSize_put_le_estimatedVS (ms : Skiplist) (hx : Stored x.2) (height : ℕ) :
    (ms.put x.1 x.2 height).memSize ≤ ms.memSize + estimatedVS x.1 x.2 := by
  have hnode := nodeSize_le height
  have hval : x.2.encodedSize ≤ (if x.2.metaBits &&& bitValuePointer = 0 ∧
      x.2.valueLen ≤ valueThrottle then x.2.valueLen + 2 else vptrSize + 2) +
        sizeVarint x.2.expiresAt := by
    unfold ValueStruct.encodedSize
    split_ifs with h
    · exact le_rfl
    · have := hx.resolve_right h
      omega
  unfold put estimatedVS nodeAllowance
  dsimp only
  split_ifs at hval ⊢ <;> omega

theorem le_memSize_put {ms : Skiplist} (hx : ∀ y ∈ ms.toSortedRun, y.1 ≠ x.1)
    (height : ℕ) : ms.memSize + payload x ≤ (ms.put x.1 x.2 height).memSize := by
  have hany : (ms.data.entries.any fun y => y.1 == x.1) = false := by
    rw [any_eq_false]
    intro y hy
    simpa using hx y hy
  unfold put payload
  dsimp only
  rw [hany]
  simp only [Bool.false_eq_true, if_false]
  omega

/-! ## The survivors as a list -/

/-- What a major compaction with unlimited room would put, given the key dealt with last. -/
def keptOf : Option InternalKey → List Pair → List Pair
  | _, [] => []
  | skipKey, x :: xs =>
    if skipKey.any fun k => sameKey x.1 k then keptOf skipKey xs
    else if x.2.isDeleted then keptOf (some x.1) xs
    else x :: keptOf (some x.1) xs

theorem keptOf_sublist : ∀ (skipKey : Option InternalKey) (todo : List Pair),
    (keptOf skipKey todo).Sublist todo
  | _, [] => List.Sublist.refl _
  | skipKey, x :: xs => by
    rw [keptOf]
    split_ifs
    · exact (keptOf_sublist _ xs).cons x
    · exact (keptOf_sublist _ xs).cons x
    · exact (keptOf_sublist _ xs).cons_cons x

theorem mem_keptOf_iff {z : Pair} {todo : List Pair} {skipKey : Option InternalKey}
    (hs : todo.Pairwise fun a b => a.1 < b.1) (hb : Behind skipKey todo) :
    z ∈ keptOf skipKey todo ↔ Next skipKey todo z := by
  fun_induction keptOf skipKey todo with
  | case1 => exact ⟨fun h => absurd h not_mem_nil, fun h => h.1.mem⟩
  | case2 skipKey x xs hskip ih =>
    obtain ⟨k, rfl, hk⟩ := (Option.any_eq_true _ _).mp hskip
    rw [next_cons_of_skip (sameKey_iff.mp hk)]
    exact ih hs.of_cons hb.tail
  | case3 skipKey x xs hskip hdel ih =>
    rw [ih hs.of_cons (behind_tail hs)]
    refine ⟨next_cons_of_next hs hb (fresh_of_not_skip hskip), fun h => ?_⟩
    refine (next_of_next_cons hs h).resolve_left fun hzx => ?_
    cases hdel.symm.trans (hzx ▸ h.1.live)
  | case4 skipKey x xs hskip hdel ih =>
    rw [mem_cons, ih hs.of_cons (behind_tail hs)]
    constructor
    · rintro (rfl | h)
      · exact next_cons_self hs (fresh_of_not_skip hskip) (by simpa using hdel)
      · exact next_cons_of_next hs hb (fresh_of_not_skip hskip) h
    · exact next_of_next_cons hs

/-- The newest version of every user key of the tables that is not a deletion, in key order. -/
def survivors (ts : List Table) : List Pair :=
  (mergeIterators ts).entries.filter fun x => !x.2.isDeleted &&
    (mergeIterators ts).entries.all fun y =>
      !(y.1.userKey == x.1.userKey) || decide (y.1.ts ≤ x.1.ts)

theorem mem_survivors {ts : List Table} :
    x ∈ survivors ts ↔ Next none (mergeIterators ts).entries x := by
  rw [survivors, mem_filter, Bool.and_eq_true, all_eq_true]
  constructor
  · rintro ⟨hx, hlive, hmax⟩
    refine ⟨⟨hx, fun y hy hyx => ?_, by simpa using hlive⟩, by simp⟩
    simpa [hyx] using hmax y hy
  · rintro ⟨⟨hx, hmax, hlive⟩, _⟩
    refine ⟨hx, by simp [hlive], fun y hy => ?_⟩
    by_cases hyx : y.1.userKey = x.1.userKey
    · simpa [hyx] using hmax y hy hyx
    · simp [hyx]

/-- The loop puts the survivors, in order. -/
theorem keptOf_mergeIterators (ts : List Table) :
    keptOf none (mergeIterators ts).entries = survivors ts := by
  have hsorted := (mergeIterators ts).sorted
  have hl : InOrder false (keptOf none (mergeIterators ts).entries) :=
    hsorted.sublist (keptOf_sublist _ _)
  have hr : InOrder false (survivors ts) := hsorted.sublist filter_sublist
  exact hl.ext hr fun x => (mem_keptOf_iff hsorted (by simp [Behind])).trans mem_survivors.symm

/-! ## One round -/

variable {major : Bool} {capacity now : ℕ} {todo : List Pair} {skipKey : Option InternalKey}
  {ms : Skiplist} {hs : List ℕ}

/-- **The store of a round fits its arena.**  The size only grows, so every `Put` on the way has
fitted as well. -/
theorem memSize_compactLoop_le (hst : ∀ x ∈ todo, Stored x.2) (h : ms.memSize ≤ capacity) :
    (compactLoop major capacity now skipKey ms hs todo).1.memSize ≤ capacity := by
  fun_induction compactLoop major capacity now skipKey ms hs todo with
  | case1 | case4 => exact h
  | case2 _ _ _ x xs _ ih | case3 _ _ _ x xs _ _ ih => exact ih (forall_mem_cons.mp hst).2 h
  | case5 _ ms hs x xs _ _ hfull ih =>
    have := memSize_put_le_estimatedVS ms (hst x (.head _)) (hs.headD 1)
    exact ih (forall_mem_cons.mp hst).2 (by omega)

/-- **One round is enough if the estimates of the survivors fit into the store.** -/
theorem compactLoop_snd_eq_nil (hok : ∀ x ∈ todo, Stored x.2 ∧ x.2.expiresAt = 0)
    (hfit : ms.memSize + ((keptOf skipKey todo).map fun x => estimatedVS x.1 x.2).sum ≤ capacity) :
    (compactLoop true capacity now skipKey ms hs todo).2 = [] := by
  fun_induction compactLoop true capacity now skipKey ms hs todo with
  | case1 => rfl
  | case2 _ _ _ x xs hskip ih =>
    rw [keptOf, if_pos hskip] at hfit
    exact ih (forall_mem_cons.mp hok).2 hfit
  | case3 _ _ _ x xs hskip hdel ih =>
    rw [forall_mem_cons] at hok
    rw [Bool.true_and, isDeletedOrExpired_eq hok.1.2] at hdel
    rw [keptOf, if_neg hskip, if_pos hdel] at hfit
    exact ih hok.2 hfit
  | case4 _ ms hs x xs hskip hdel hfull =>
    rw [Bool.true_and, isDeletedOrExpired_eq (hok x (.head _)).2] at hdel
    rw [keptOf, if_neg hskip, if_neg hdel, map_cons, sum_cons] at hfit
    omega
  | case5 _ ms hs x xs hskip hdel hfull ih =>
    rw [forall_mem_cons] at hok
    rw [Bool.true_and, isDeletedOrExpired_eq hok.1.2] at hdel
    rw [keptOf, if_neg hskip, if_neg hdel, map_cons, sum_cons] at hfit
    have := memSize_put_le_estimatedVS ms hok.1.1 (hs.headD 1)
    exact ih hok.2 (by omega)

/-- **What a round puts**: the survivors in front of those that it leaves. -/
theorem exists_put_of_compactLoop (hsorted : todo.Pairwise fun a b => a.1 < b.1)
    (hok : ∀ x ∈ todo, x.2.expiresAt = 0 ∧ x.2.decoded = x.2)
    (hnew : ∀ y ∈ ms.toSortedRun, ∀ x ∈ todo, y.1 ≠ x.1) :
    ∃ put, keptOf skipKey todo =
        put ++ keptOf none (compactLoop true capacity now skipKey ms hs todo).2 ∧
      (∀ y, y ∈ (compactLoop true capacity now skipKey ms hs todo).1.toSortedRun ↔
        y ∈ put ∨ y ∈ ms.toSortedRun) ∧
      ms.memSize + (put.map payload).sum ≤
        (compactLoop true capacity now skipKey ms hs todo).1.memSize := by
  fun_induction compactLoop true capacity now skipKey ms hs todo with
  | case1 => exact ⟨[], rfl, by simp, le_rfl⟩
  | case2 _ _ _ x xs hskip ih =>
    rw [keptOf, if_pos hskip]
    exact ih hsorted.of_cons (forall_mem_cons.mp hok).2 fun y hy z hz => hnew y hy z (.tail _ hz)
  | case3 _ _ _ x xs hskip hdel ih =>
    rw [Bool.true_and, isDeletedOrExpired_eq (hok x (.head _)).1] at hdel
    rw [keptOf, if_neg hskip, if_pos hdel]
    exact ih hsorted.of_cons (forall_mem_cons.mp hok).2 fun y hy z hz => hnew y hy z (.tail _ hz)
  | case4 _ ms hs x xs hskip hdel hfull =>
    -- The pair the round stops at is the first survivor of the next one.
    rw [Bool.true_and, isDeletedOrExpired_eq (hok x (.head _)).1] at hdel
    refine ⟨[], ?_, by simp, le_rfl⟩
    rw [keptOf, keptOf, if_neg hskip, if_neg hdel, Option.any_none, if_neg Bool.false_ne_true]
    rfl
  | case5 _ ms hs x xs hskip hdel hfull ih =>
    rw [forall_mem_cons] at hok
    rw [Bool.true_and, isDeletedOrExpired_eq hok.1.1] at hdel
    have hput :
        ∀ y, y ∈ (ms.put x.1 x.2 (hs.headD 1)).toSortedRun ↔ y = x ∨ y ∈ ms.toSortedRun := by
      intro y
      rw [toSortedRun_put, SortedRun.mem_put, hok.1.2]
      exact or_congr_right (and_iff_left_of_imp fun hy => hnew y hy x (.head _))
    have hadd := le_memSize_put (fun y hy => hnew y hy x (.head _)) (hs.headD 1)
    obtain ⟨put, hkept, hmem, hsize⟩ := ih hsorted.of_cons hok.2 fun y hy z hz => by
      rcases (hput y).mp hy with rfl | hy
      · exact ((pairwise_cons.mp hsorted).1 z hz).ne
      · exact hnew y hy z (.tail _ hz)
    refine ⟨x :: put, ?_, fun y => ?_, ?_⟩
    · rw [keptOf, if_neg hskip, if_neg hdel, hkept, cons_append]
    · rw [hmem, hput, mem_cons, or_left_comm, or_assoc]
    · rw [map_cons, sum_cons]
      omega

/-- What one round of a major compaction does to the pairs to come: the store keeps what it had,
takes survivors only, and leaves the other survivors to the next round. -/
structure RoundSpec (skipKey : Option InternalKey) (ms : Skiplist) (todo : List Pair)
    (r : Skiplist × List Pair) : Prop where
  keeps : ∀ y ∈ ms.toSortedRun, y ∈ r.1.toSortedRun
  put_or_left : ∀ x, Next skipKey todo x → x ∈ r.1.toSortedRun ∨ Next none r.2 x
  puts : ∀ y ∈ r.1.toSortedRun, y ∈ ms.toSortedRun ∨ Next skipKey todo y
  left : ∀ x, Next none r.2 x → Next skipKey todo x

/-- **One round of a major compaction.** -/
theorem compactLoop_spec (capacity now : ℕ) (todo : List Pair) (skipKey : Option InternalKey)
    (ms : Skiplist) (hs : List ℕ) (hsorted : todo.Pairwise fun a b => a.1 < b.1)
    (hok : ∀ x ∈ todo, x.2.expiresAt = 0 ∧ x.2.decoded = x.2) (hbehind : Behind skipKey todo)
    (hnew : ∀ y ∈ ms.toSortedRun, ∀ x ∈ todo, y.1 ≠ x.1) :
    RoundSpec skipKey ms todo (compactLoop true capacity now skipKey ms hs todo) := by
  obtain ⟨put, hkept, hmem, -⟩ := @exists_put_of_compactLoop capacity now todo skipKey ms hs hsorted
    hok hnew
  have hsuffix := compactLoop_snd_suffix true capacity now todo skipKey ms hs
  generalize compactLoop true capacity now skipKey ms hs todo = r at *
  have hall : ∀ x, Next skipKey todo x ↔ x ∈ put ∨ Next none r.2 x := by
    intro x
    rw [← mem_keptOf_iff hsorted hbehind, hkept, mem_append,
      mem_keptOf_iff (hsorted.sublist hsuffix.sublist) (by simp [Behind])]
  exact ⟨fun y hy => (hmem y).mpr (.inr hy),
    fun x hx => ((hall x).mp hx).imp_left fun hx => (hmem x).mpr (.inl hx),
    fun y hy => ((hmem y).mp hy).symm.imp_right fun hy => (hall y).mpr (.inl hy),
    fun x hx => (hall x).mpr (.inr hx)⟩

/-- **A user key with a pair in the store does not come up again.**  The user keys put so far lie
behind the pairs to come, up to the one dealt with last, whose versions are skipped. -/
theorem userKey_ne_of_compactLoop (hsorted : todo.Pairwise fun a b => a.1 < b.1)
    (hb : Behind skipKey todo)
    (hle : ∀ y ∈ ms.toSortedRun, ∃ k, skipKey = some k ∧ y.1.userKey ≤ k.userKey) :
    ∀ y ∈ (compactLoop true capacity now skipKey ms hs todo).1.toSortedRun,
      ∀ z ∈ (compactLoop true capacity now skipKey ms hs todo).2, y.1.userKey ≠ z.1.userKey := by
  -- Once `x` has been dealt with, it bounds the user keys put so far.
  have hdealt : ∀ {x : Pair} {xs : List Pair} {skipKey : Option InternalKey} {ms : Skiplist},
      Behind skipKey (x :: xs) →
      (∀ y ∈ ms.toSortedRun, ∃ k, skipKey = some k ∧ y.1.userKey ≤ k.userKey) →
      ∀ y ∈ ms.toSortedRun, ∃ k, some x.1 = some k ∧ y.1.userKey ≤ k.userKey := by
    intro x xs skipKey ms hb hle y hy
    obtain ⟨k, hk, hyk⟩ := hle y hy
    exact ⟨x.1, rfl, hyk.trans (hb k hk x (.head _))⟩
  fun_induction compactLoop true capacity now skipKey ms hs todo with
  | case1 => exact fun _ _ _ hz => absurd hz not_mem_nil
  | case2 _ _ _ x xs hskip ih => exact ih hsorted.of_cons hb.tail hle
  | case3 _ _ _ x xs hskip hdel ih => exact ih hsorted.of_cons (behind_tail hsorted) (hdealt hb hle)
  | case4 _ ms hs x xs hskip hdel hfull =>
    intro y hy z hz
    obtain ⟨k, rfl, hyk⟩ := hle y hy
    have hz' := ne_of_behind hsorted hb (fresh_of_not_skip hskip) hz k rfl
    exact (hyk.trans_lt (lt_of_le_of_ne (hb k rfl z hz) hz'.symm)).ne
  | case5 _ ms hs x xs hskip hdel hfull ih =>
    refine ih hsorted.of_cons (behind_tail hsorted) fun y hy => ?_
    rcases SortedRun.mem_put.mp hy with rfl | ⟨hy, _⟩
    · exact ⟨x.1, rfl, le_rfl⟩
    · exact hdealt hb hle y hy

end Autumn
