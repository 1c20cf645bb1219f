import Autumn.RangePartition.Sane

/-!
# What a major compaction keeps

A major compaction reads the pairs of its tables in key order.  Of each user key it keeps the first,
which is the newest version, unless it is a deletion, and skips the others; `skipKey` is the user
key it has dealt with last.  When the store of a round is full, the loop ends in front of a pair
whose user key is new, so the next round can start without `skipKey`.

* `Survivor S x`: `x` is the newest version of its user key in `S`, and not a deletion.
* `Next skipKey todo x`: `x` is a survivor of what the iterator has not delivered yet.

No pair expires: every writer sets `ExpiresAt` to zero.
-/

namespace Autumn

open Lib Y List

/-- The newest version of a user key among the pairs `S`, if it is not a deletion. -/
structure Survivor (S : Set Pair) (x : Pair) : Prop where
  mem : x ∈ S
  max : ∀ y ∈ S, y.1.userKey = x.1.userKey → y.1.ts ≤ x.1.ts
  live : x.2.isDeleted = false

/-- A survivor of the pairs to come whose user key has not been dealt with. -/
def Next (skipKey : Option InternalKey) (todo : List Pair) (x : Pair) : Prop :=
  Survivor {y | y ∈ todo} x ∧ ∀ k, skipKey = some k → x.1.userKey ≠ k.userKey

/-- The user key dealt with last does not lie behind the pairs to come. -/
def Behind (skipKey : Option InternalKey) (todo : List Pair) : Prop :=
  ∀ k, skipKey = some k → ∀ x ∈ todo, k.userKey ≤ x.1.userKey

/-- The user key of the pair has not been dealt with. -/
def Fresh (skipKey : Option InternalKey) (x : Pair) : Prop :=
  ∀ k, skipKey = some k → x.1.userKey ≠ k.userKey

theorem isDeletedOrExpired_eq {x : Pair} (h : x.2.expiresAt = 0) (now : ℕ) :
    isDeletedOrExpired x.2.metaBits x.2.expiresAt now = x.2.isDeleted := by
  rw [isDeletedOrExpired, h, ValueStruct.isDeleted]
  by_cases h1 : x.2.metaBits &&& bitDelete > 0
  · rw [if_pos h1, decide_eq_true h1]
  · rw [if_neg h1, if_pos rfl, decide_eq_false h1]

section Cons

variable {skipKey : Option InternalKey} {x z : Pair} {xs : List Pair}

section

variable (hs : (x :: xs).Pairwise fun a b => a.1 < b.1)
include hs

theorem ts_lt_of_sorted (hz : z ∈ xs) (hk : z.1.userKey = x.1.userKey) : z.1.ts < x.1.ts := by
  have hlt := (pairwise_cons.mp hs).1 z hz
  rcases InternalKey.lt_iff.mp hlt with h | h
  · exact absurd hk.symm h.ne
  · exact h.2

theorem userKey_le_of_sorted (hz : z ∈ xs) : x.1.userKey ≤ z.1.userKey :=
  Table.userKey_le_of_le ((pairwise_cons.mp hs).1 z hz).le

theorem behind_tail : Behind (some x.1) xs := by
  intro k hk y hy
  cases hk
  exact userKey_le_of_sorted hs hy

/-- A new user key lies strictly behind the one dealt with last, and so does everything after
it. -/
theorem ne_of_behind (hb : Behind skipKey (x :: xs)) (hx : Fresh skipKey x) (hz : z ∈ x :: xs) :
    Fresh skipKey z := by
  intro k hk heq
  have h1 := hb k hk x (.head _)
  have h2 := lt_of_le_of_ne h1 (hx k hk).symm
  rcases hz with _ | ⟨_, hz⟩
  · exact h2.ne heq.symm
  · exact (h2.trans_le (userKey_le_of_sorted hs hz)).ne heq.symm

end

theorem Behind.tail (h : Behind skipKey (x :: xs)) : Behind skipKey xs := fun k hk y hy =>
  h k hk y (.tail _ hy)

theorem fresh_of_not_skip (h : ¬ (skipKey.any fun k => sameKey x.1 k) = true) :
    Fresh skipKey x := by
  rintro k rfl heq
  exact h (by simpa using heq)

theorem next_cons_of_skip {k : InternalKey} (hk : x.1.userKey = k.userKey) :
    Next (some k) (x :: xs) z ↔ Next (some k) xs z := by
  constructor
  · rintro ⟨⟨hmem, hmax, hlive⟩, hne⟩
    have hzk := hne k rfl
    refine ⟨⟨?_, fun y hy => hmax y (.tail _ hy), hlive⟩, hne⟩
    rcases hmem with _ | ⟨_, hmem⟩
    · exact absurd hk hzk
    · exact hmem
  · rintro ⟨⟨hmem, hmax, hlive⟩, hne⟩
    refine ⟨⟨.tail _ hmem, fun y hy hyz => ?_, hlive⟩, hne⟩
    rcases hy with _ | ⟨_, hy⟩
    · exact absurd (hyz.symm.trans hk) (hne k rfl)
    · exact hmax y hy hyz

section

variable (hs : (x :: xs).Pairwise fun a b => a.1 < b.1)
include hs

theorem next_cons_self (hx : Fresh skipKey x) (hlive : x.2.isDeleted = false) :
    Next skipKey (x :: xs) x := by
  refine ⟨⟨mem_cons_self, fun y hy hyx => ?_, hlive⟩, hx⟩
  rcases hy with _ | ⟨_, hy⟩
  · exact le_rfl
  · exact (ts_lt_of_sorted hs hy hyx).le

/-- Once a new user key is dealt with, its other versions do not matter. -/
theorem next_of_next_cons (h : Next skipKey (x :: xs) z) : z = x ∨ Next (some x.1) xs z := by
  obtain ⟨⟨hmem, hmax, hlive⟩, _⟩ := h
  rcases hmem with _ | ⟨_, hmem⟩
  · exact .inl rfl
  · refine .inr ⟨⟨hmem, fun y hy => hmax y (.tail _ hy), hlive⟩, ?_⟩
    rintro k hk heq
    cases hk
    have h1 := ts_lt_of_sorted hs hmem heq
    have h2 := hmax x (.head _) heq.symm
    omega

theorem next_cons_of_next (hb : Behind skipKey (x :: xs)) (hx : Fresh skipKey x)
    (h : Next (some x.1) xs z) : Next skipKey (x :: xs) z := by
  obtain ⟨⟨hmem, hmax, hlive⟩, hne⟩ := h
  refine ⟨⟨.tail _ hmem, fun y hy hyz => ?_, hlive⟩, ne_of_behind hs hb hx (.tail _ hmem)⟩
  rcases mem_cons.mp hy with rfl | hy
  · exact absurd hyz.symm (hne y.1 rfl)
  · exact hmax y hy hyz

end

end Cons

end Autumn
