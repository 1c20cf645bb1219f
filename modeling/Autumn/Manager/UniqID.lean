import Autumn.Lib.Run
import Mathlib.Data.UInt

/-!
# The allocation of identifiers

`EtcdAllocUniqID` reads the one counter in etcd and stores the advanced value in a transaction, on
the condition that the counter has not changed since.

A condition that does not hold is no error of `Commit`, so the loser of a race returns the same
range as the winner (`ids_shared`).  Nor is `curr + count` checked for overflow.

In every run in which the counter is what the caller read whenever etcd answers a commit, and is not
about to overflow, the ranges are as they should be (`ids_unique`): every range handed out ends at
the counter or below, so a new one starts behind all the others.
-/

namespace Autumn
namespace Manager
namespace UniqID

open Lib List Option

/-- Where a call of `EtcdAllocUniqID` is. -/
inductive Phase where
  | called
  /-- It has read the counter; `none` if there is none. -/
  | loaded (curValue : Option UInt64)
  /-- It has returned the range from `start` to `stop`, without an error. -/
  | returned (start stop : UInt64)
  | failed
  deriving DecidableEq, Repr

structure Caller where
  count : UInt64
  phase : Phase
  deriving DecidableEq, Repr

structure World where
  /-- The counter in etcd. -/
  stored : Option UInt64
  callers : List Caller
  deriving DecidableEq, Repr

/-- How `Commit` ends: with the response of etcd, or with an error, after which the transaction may
have been made or not. -/
inductive Answer where
  | response
  | error (made : Bool)
  deriving DecidableEq, Repr

inductive Action where
  | call (count : UInt64)
  /-- Caller `k` reads the counter, or gets an error. -/
  | get (k : ℕ) (ok : Bool)
  /-- Caller `k` commits its transaction. -/
  | commit (k : ℕ) (answer : Answer)
  deriving DecidableEq, Repr

/-- `curr`: numbers begin with one. -/
def curr (curValue : Option UInt64) : UInt64 := curValue.getD 1

/-- The counter after the transaction of a caller that has read `curValue`. -/
def commit (stored curValue : Option UInt64) (count : UInt64) : Option UInt64 :=
  if stored = curValue then some (curr curValue + count) else stored

def World.setPhase (w : World) (k : ℕ) (c : Caller) (p : Phase) : World :=
  { w with callers := w.callers.set k { c with phase := p } }

def step (w : World) : Action → Option World
  | .call count => some { w with callers := w.callers ++ [⟨count, .called⟩] }
  | .get k ok => (w.callers[k]?).bind fun c =>
    match c.phase with
    | .called => some (w.setPhase k c (if ok then .loaded w.stored else .failed))
    | _ => none
  | .commit k answer => (w.callers[k]?).bind fun c =>
    match c.phase, answer with
    -- Whether the condition held is not looked at.
    | .loaded cur, .response => some
        { w.setPhase k c (.returned (curr cur) (curr cur + c.count)) with
          stored := commit w.stored cur c.count }
    | .loaded cur, .error made => some
        { w.setPhase k c .failed with
          stored := if made then commit w.stored cur c.count else w.stored }
    | _, _ => none

def World.init : World := ⟨none, []⟩

/-- The number the next range would begin with. -/
def World.next (w : World) : UInt64 := curr w.stored

/-! ## What a step does -/

/-- What a step can do to the callers and the counter. -/
inductive Move (w : World) : Action → World → Prop where
  | call {count : UInt64} :
      Move w (.call count) { w with callers := w.callers ++ [⟨count, .called⟩] }
  | get {k : ℕ} {ok : Bool} {c : Caller} {p : Phase} (hc : w.callers[k]? = some c)
      (hp : ∀ start stop, p ≠ .returned start stop) : Move w (.get k ok) (w.setPhase k c p)
  | answered {k : ℕ} {c : Caller} {cur : Option UInt64} (hc : w.callers[k]? = some c)
      (hp : c.phase = .loaded cur) :
      Move w (.commit k .response)
        { w.setPhase k c (.returned (curr cur) (curr cur + c.count)) with
          stored := commit w.stored cur c.count }
  | failed {k : ℕ} {made : Bool} {c : Caller} {cur : Option UInt64} (hc : w.callers[k]? = some c)
      (hp : c.phase = .loaded cur) :
      Move w (.commit k (.error made))
        { w.setPhase k c .failed with
          stored := if made then commit w.stored cur c.count else w.stored }

variable {w w' : World}

theorem move_of_step {a : Action} (hs : step w a = some w') : Move w a w' := by
  cases a with
  | call count =>
    cases hs
    exact .call
  | get k ok =>
    obtain ⟨c, hc, hs⟩ := bind_eq_some_iff.mp hs
    split at hs
    · cases hs
      refine .get hc fun start stop => ?_
      split_ifs <;> simp
    · cases hs
  | commit k answer =>
    obtain ⟨c, hc, hs⟩ := bind_eq_some_iff.mp hs
    split at hs
    next cur hp _ =>
      cases hs
      exact .answered hc hp
    next cur made hp _ =>
      cases hs
      exact .failed hc hp
    next => cases hs

/-! ## Ranges -/

/-- Call `k` has returned the range from `start` to `stop`. -/
def World.Returned (w : World) (k : ℕ) (start stop : UInt64) : Prop :=
  ∃ c, w.callers[k]? = some c ∧ c.phase = .returned start stop

/-- What a caller has read, if it is about to commit. -/
def Phase.value : Phase → Option (Option UInt64)
  | .loaded cur => some cur
  | _ => none

/-- The condition on a run: at a commit the counter does not overflow, and if etcd answers, the
counter is still what the caller has read. -/
def Uncontended (w : World) : Action → Prop
  | .commit k answer => ∀ c ∈ w.callers[k]?, ∀ cur ∈ c.phase.value,
      (curr cur).toNat + c.count.toNat < 2 ^ 64 ∧ (answer = .response → w.stored = cur)
  | _ => True

instance (w : World) : DecidablePred (Uncontended w)
  | .call _ => isTrue trivial
  | .get _ _ => isTrue trivial
  | .commit k answer =>
    -- Not by an enumeration of the counters.
    let inner (c : Caller) : Decidable (∀ cur ∈ c.phase.value,
        (curr cur).toNat + c.count.toNat < 2 ^ 64 ∧ (answer = .response → w.stored = cur)) :=
      Option.decidableForallMem c.phase.value
    @Option.decidableForallMem _ _ inner w.callers[k]?

/-- The ranges returned so far end at the counter or below, begin above zero, and lie one behind the
other. -/
structure World.Sound (w : World) : Prop where
  pos : 0 < w.next.toNat
  bounds : ∀ k start stop, w.Returned k start stop →
    0 < start.toNat ∧ start.toNat ≤ stop.toNat ∧ stop.toNat ≤ w.next.toNat
  apart : ∀ j k start stop start' stop', w.Returned j start stop → w.Returned k start' stop' →
    j ≠ k → stop.toNat ≤ start'.toNat ∨ stop'.toNat ≤ start.toNat
  stored : ∀ k start stop, w.Returned k start stop → w.stored.isSome

theorem sound_init : World.init.Sound where
  pos := by decide
  bounds := fun k start stop h => by
    obtain ⟨c, hc, -⟩ := h
    cases hc
  apart := fun j k start stop start' stop' h => by
    obtain ⟨c, hc, -⟩ := h
    cases hc
  stored := fun k start stop h => by
    obtain ⟨c, hc, -⟩ := h
    cases hc

theorem returned_set {k : ℕ} {c : Caller} {p : Phase} {v : Option UInt64} {j : ℕ}
    {start stop : UInt64} (h : World.Returned { w.setPhase k c p with stored := v } j start stop) :
    w.Returned j start stop ∨ (j = k ∧ p = .returned start stop) := by
  obtain ⟨c', hc', hp⟩ := h
  simp only [World.setPhase] at hc'
  by_cases hj : k = j
  · subst hj
    rw [getElem?_set_self'] at hc'
    obtain ⟨_, _, rfl⟩ := map_eq_some_iff.mp hc'
    exact .inr ⟨rfl, hp⟩
  · rw [getElem?_set_ne hj] at hc'
    exact .inl ⟨c', hc', hp⟩

theorem World.Sound.mono (h : w.Sound) (hnext : w.next.toNat ≤ w'.next.toNat)
    (hsome : w.stored.isSome → w'.stored.isSome)
    (hret : ∀ k start stop, w'.Returned k start stop → w.Returned k start stop) : w'.Sound where
  pos := h.pos.trans_le hnext
  bounds := fun k start stop hk => by
    obtain ⟨h1, h2, h3⟩ := h.bounds k start stop (hret k start stop hk)
    exact ⟨h1, h2, h3.trans hnext⟩
  apart := fun j k start stop start' stop' hj hk hne =>
    h.apart j k start stop start' stop' (hret _ _ _ hj) (hret _ _ _ hk) hne
  stored := fun k start stop hk => hsome (h.stored k start stop (hret k start stop hk))

theorem toNat_add_of_lt {a b : UInt64} (h : a.toNat + b.toNat < 2 ^ 64) :
    (a + b).toNat = a.toNat + b.toNat := by
  rw [UInt64.toNat_add, Nat.mod_eq_of_lt h]

theorem next_le_commit {stored cur : Option UInt64} {count : UInt64}
    (h : (curr cur).toNat + count.toNat < 2 ^ 64) :
    (curr stored).toNat ≤ (curr (commit stored cur count)).toNat := by
  rw [commit]
  split_ifs with heq
  · have hsum := toNat_add_of_lt h
    rw [heq, show curr (some (curr cur + count)) = curr cur + count from rfl]
    omega
  · exact le_rfl

theorem isSome_commit {stored : Option UInt64} (cur : Option UInt64) (count : UInt64)
    (h : stored.isSome) : (commit stored cur count).isSome := by
  rw [commit]
  split_ifs
  · rfl
  · exact h

theorem World.Sound.step {a : Action} (h : w.Sound) (hg : Uncontended w a)
    (hs : step w a = some w') :
    w'.Sound := by
  cases move_of_step hs with
  | call =>
    refine h.mono le_rfl id fun k start stop hk => ?_
    obtain ⟨c, hc, hp⟩ := hk
    rw [getElem?_append] at hc
    split_ifs at hc
    · exact ⟨c, hc, hp⟩
    · rw [mem_singleton.mp (mem_of_getElem? hc)] at hp
      cases hp
  | @get k ok c p hc hp =>
    refine h.mono le_rfl id fun j start stop hj => ?_
    rcases returned_set hj with hj | ⟨-, hret⟩
    · exact hj
    · exact absurd hret (hp start stop)
  | @failed k made c cur hc hp =>
    have hlt := (hg c hc cur (hp ▸ rfl)).1
    refine h.mono ?_ ?_ fun j start stop hj => ?_
    · show (curr w.stored).toNat ≤
        (curr (if made then commit w.stored cur c.count else w.stored)).toNat
      split_ifs
      · exact next_le_commit hlt
      · exact le_rfl
    · intro hsome
      show (if made then commit w.stored cur c.count else w.stored).isSome
      split_ifs
      · exact isSome_commit cur c.count hsome
      · exact hsome
    · rcases returned_set hj with hj | ⟨-, hret⟩
      · exact hj
      · cases hret
  | @answered k c cur hc hp =>
    obtain ⟨hlt, hcur⟩ := hg c hc cur (hp ▸ rfl)
    have hcur : w.stored = cur := hcur rfl
    have hsum := toNat_add_of_lt hlt
    -- The new range begins at the counter, and the counter moves to its end.
    have hnow : w.next = curr cur := by rw [World.next, hcur]
    have hnext : (World.next { w.setPhase k c (.returned (curr cur) (curr cur + c.count)) with
        stored := commit w.stored cur c.count }) = curr cur + c.count := by
      rw [World.next, commit, if_pos hcur]
      rfl
    have hpos := h.pos
    rw [hnow] at hpos
    refine ⟨?_, fun j start stop hj => ?_, fun i j start stop start' stop' hi hj hne => ?_,
      fun _ _ _ _ => ?_⟩
    · rw [hnext]
      omega
    · rw [hnext]
      rcases returned_set hj with hj | ⟨-, hret⟩
      · obtain ⟨h1, h2, h3⟩ := h.bounds j start stop hj
        rw [hnow] at h3
        omega
      · obtain ⟨rfl, rfl⟩ := Phase.returned.inj hret
        omega
    · rcases returned_set hi with hi' | ⟨hik, hreti⟩ <;>
        rcases returned_set hj with hj' | ⟨hjk, hretj⟩
      · exact h.apart i j start stop start' stop' hi' hj' hne
      · obtain ⟨rfl, rfl⟩ := Phase.returned.inj hretj
        exact .inl (hnow ▸ (h.bounds i start stop hi').2.2)
      · obtain ⟨rfl, rfl⟩ := Phase.returned.inj hreti
        exact .inr (hnow ▸ (h.bounds j start' stop' hj').2.2)
      · exact absurd (hik.trans hjk.symm) hne
    · show (commit w.stored cur c.count).isSome
      rw [commit, if_pos hcur]
      rfl

/-- **Identifiers are unique** in every run in which the counter does not overflow and is unchanged
since the caller's read whenever etcd answers a commit: ranges are disjoint, within the stored value
and without zero. -/
theorem ids_unique {as : List Action} {w : World} (hg : Guarded step Uncontended World.init as)
    (h : exec step World.init as = some w) :
    (∀ j k start stop start' stop', w.Returned j start stop → w.Returned k start' stop' → j ≠ k →
        ∀ x, ¬ ((start ≤ x ∧ x < stop) ∧ start' ≤ x ∧ x < stop')) ∧
      ∀ k start stop, w.Returned k start stop →
        (∃ v ∈ w.stored, stop ≤ v) ∧ ¬ (start ≤ 0 ∧ 0 < stop) := by
  have hsound : w.Sound := exec_invariant (fun _ _ _ hI hga hs => hI.step hga hs) sound_init hg h
  refine ⟨fun j k start stop start' stop' hj hk hne x hx => ?_, fun k start stop hk => ?_⟩
  · obtain ⟨⟨h1, h2⟩, h3, h4⟩ := hx
    rw [UInt64.le_iff_toNat_le] at h1 h3
    rw [UInt64.lt_iff_toNat_lt] at h2 h4
    rcases hsound.apart j k start stop start' stop' hj hk hne with hlt | hlt <;> omega
  · obtain ⟨h1, -, h3⟩ := hsound.bounds k start stop hk
    obtain ⟨v, hv⟩ := isSome_iff_exists.mp (hsound.stored k start stop hk)
    have hnext : w.next = v := by rw [World.next, hv]; rfl
    refine ⟨⟨v, hv, UInt64.le_iff_toNat_le.mpr (hnext ▸ h3)⟩, fun hx => ?_⟩
    have h0 : start.toNat ≤ (0 : UInt64).toNat := UInt64.le_iff_toNat_le.mp hx.1
    rw [UInt64.toNat_zero] at h0
    omega

/-- Two callers, one after the other; the second has read the counter before and starts anew after
an error. -/
def oneAfterTheOther : List Action :=
  [.call 2, .call 1, .get 0 true, .get 1 true, .commit 0 .response, .commit 1 (.error false),
    .call 1, .get 2 true, .commit 2 .response]

theorem ids_unique_oneAfterTheOther :
    ∃ w, (Guarded step Uncontended World.init oneAfterTheOther ∧
        exec step World.init oneAfterTheOther = some w ∧ w.Returned 0 1 3 ∧ w.Returned 2 3 4) ∧
      (∀ j k start stop start' stop', w.Returned j start stop → w.Returned k start' stop' → j ≠ k →
        ∀ x, ¬ ((start ≤ x ∧ x < stop) ∧ start' ≤ x ∧ x < stop')) ∧
      ∀ k start stop, w.Returned k start stop →
        (∃ v ∈ w.stored, stop ≤ v) ∧ ¬ (start ≤ 0 ∧ 0 < stop) := by
  have hg : Guarded step Uncontended World.init oneAfterTheOther := by decide +kernel
  have hrun : exec step World.init oneAfterTheOther =
      some ⟨some 4, [⟨2, .returned 1 3⟩, ⟨1, .failed⟩, ⟨1, .returned 3 4⟩]⟩ := by decide +kernel
  exact ⟨_, ⟨hg, hrun, ⟨_, rfl, rfl⟩, ⟨_, rfl, rfl⟩⟩, ids_unique hg hrun⟩

/-- Two managers read the counter before either of them commits. -/
def race : List Action :=
  [.call 2, .call 2, .get 0 true, .get 1 true, .commit 0 .response, .commit 1 .response]

/-- Both are given the numbers one and two. -/
theorem ids_shared :
    ∃ w, exec step World.init race = some w ∧ w.Returned 0 1 3 ∧ w.Returned 1 1 3 :=
  ⟨⟨some 3, [⟨2, .returned 1 3⟩, ⟨2, .returned 1 3⟩]⟩, by decide +kernel, ⟨_, rfl, rfl⟩,
    ⟨_, rfl, rfl⟩⟩

end UniqID
end Manager
end Autumn
