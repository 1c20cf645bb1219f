import Autumn.RangePartition.DoWrites

/-!
# The write loop on its way to the end

The steps of `doWrites` bring it nearer to the return (`cost_lt`), it comes to rest only where it
should (`rest_of_stuck`), it ends only through the `default` case of the drain loop and receives
nothing afterwards (`ending_of_own`), and what it has told is a beginning of what it has received
(`Inv.signalled_le`).
-/

namespace Autumn

open Lib List Option

namespace DoWrites

variable {ε : Type} {s s' : DoWrites ε} {a : Act ε} {pc : Pc}

/-- The steps of `doWrites` and of its goroutines. -/
def Act.own : Act ε → Bool
  | .arrive _ | .signal => false
  | _ => true

/-- How far a program point is from the return, with the cost of a goroutine for the points before
one is started. -/
def Pc.rank : Pc → ℕ
  | .returned => 0
  | .lastWait => 1
  | .lastCase => 4
  | .lastPush => 5
  | .closed => 6
  | .outer => 7
  | .writeCase => 10
  | .inner => 11
  | .pushing => 11
  | .check => 12
  | .closedCheck => 12

/-- A goroutine writes, then gives its token back. -/
def Worker.rank (w : Worker) : ℕ := if w.wrote then 1 else 2

/-- A bound for the steps left.  A request in the channel can send the loop back from the point
`closed` to `closedCheck`. -/
def cost (s : DoWrites ε) : ℕ :=
  7 * s.writeCh.length + s.pc.rank + (s.workers.map Worker.rank).sum

theorem cost_jump (hpc : pc.rank < s.pc.rank) :
    ({ s with pc := pc } : DoWrites ε).cost < s.cost := by
  simp only [cost]
  omega

theorem cost_take (hpc : pc.rank ≤ s.pc.rank + 6) (h : s.take pc = some s') : s'.cost < s.cost := by
  unfold DoWrites.take at h
  cases hch : s.writeCh with
  | nil => simp [hch] at h
  | cons r rest =>
    simp only [hch, some_inj] at h
    subst h
    simp only [cost, hch, length_cons]
    omega

theorem cost_put (hpc : pc.rank < s.pc.rank) (h : s.put pc = some s') : s'.cost < s.cost := by
  unfold DoWrites.put at h
  split_ifs at h
  cases h
  simp only [cost]
  omega

theorem cost_start {inline : Bool} (hpc : pc.rank + 2 < s.pc.rank) :
    (s.start pc inline).cost < s.cost := by
  simp only [cost, start, map_append, sum_append, map_singleton, Worker.rank, sum_singleton]
  simp only [Bool.false_eq_true, if_false]
  omega

/-- Every step of the loop and of its goroutines costs. -/
theorem cost_lt (hI : Inv s) (ha : a.own = true) (h : step s a = some s') : s'.cost < s.cost := by
  cases a with
  | arrive r | signal => cases ha
  | recv =>
    simp only [step] at h
    split at h
    case h_4 => cases h
    all_goals
      rename_i hpc
      exact cost_take (by rw [hpc]; decide) h
  | token =>
    simp only [step] at h
    split at h
    case h_4 => cases h
    all_goals
      rename_i hpc
      exact cost_put (by rw [hpc]; decide) h
  | hand =>
    simp only [step] at h
    split at h <;> cases h
    all_goals
      rename_i hpc
      exact cost_start (by rw [hpc]; decide)
  | stopped | otherwise =>
    simp only [step] at h
    split at h <;> cases h
    all_goals
      rename_i hpc _
      exact cost_jump (by rw [hpc]; decide)
  | check =>
    simp only [step] at h
    split at h <;> cases h
    all_goals
      rename_i hpc
      exact cost_jump (by rw [hpc]; split_ifs <;> decide)
  | wrote i o =>
    simp only [step] at h
    split at h
    · rename_i reqs inline hw
      obtain ⟨rfl, hws⟩ := hI.workers_eq hw
      cases h
      simp [cost, hws, Worker.rank]
    · cases h
  | release i =>
    simp only [step] at h
    split at h
    · rename_i reqs inline hw
      obtain ⟨rfl, hws⟩ := hI.workers_eq hw
      by_cases hpos : 0 < s.pendingCh
      · rw [if_pos hpos] at h
        cases h
        have hpc : (if inline then Pc.returned else s.pc).rank ≤ s.pc.rank := by
          cases inline with
          | true => exact Nat.zero_le _
          | false => exact le_rfl
        have hrank : (Worker.mk reqs inline true).rank = 1 := rfl
        simp only [cost, hws, eraseIdx_cons_zero, map_cons, map_nil, sum_cons, sum_nil, hrank]
        omega
      · exact absurd h (by simp [hpos])
    · cases h

theorem Inv.signalled_le (hI : Inv s) : s.signalled.map Prod.fst <+: s.received := by
  have hsig : s.signalled.map Prod.fst = (s.finished.map Prod.fst).flatten := by
    rw [hI.told]
    simp [done, Function.comp_def, flatMap_def]
  rw [hsig, ← hI.conserved, hI.batches, flatten_append, append_assoc]
  exact prefix_append _ _

theorem signalled_grows (h : step s a = some s') : s.signalled <+: s'.signalled := by
  cases a <;> simp only [step, take, put] at h <;> (repeat' split at h) <;>
    simp only [reduceCtorEq, some_inj] at h <;> subst h <;> simp [start]

/-- Nothing is received at the end of the drain loop or behind it. -/
def Pc.ending : Pc → Bool
  | .lastPush | .lastCase | .lastWait | .returned => true
  | _ => false

/-- The program points that only a stop leads to. -/
def Pc.pastStop : Pc → Bool
  | .closed | .closedCheck | .lastPush | .lastCase | .lastWait | .returned => true
  | _ => false

/-- What the program points say about the rest of the state. -/
structure Rest (s : DoWrites ε) : Prop where
  outer : s.pc = .outer → s.reqs = []
  lastWait : s.pc = .lastWait → ∃ w ∈ s.workers, w.inline = true
  stop : s.pc.pastStop = true → s.stop = true

theorem rest_init : Rest ({} : DoWrites ε) where
  outer := fun _ => rfl
  lastWait := nofun
  stop := nofun

theorem Rest.step (hI : Inv s) (hR : Rest s) (h : step s a = some s') : Rest s' := by
  obtain ⟨hO, hL, hP⟩ := hR
  cases a with
  | release i =>
    simp only [DoWrites.step] at h
    split at h
    · rename_i reqs inline hw
      obtain ⟨rfl, hws⟩ := hI.workers_eq hw
      by_cases hpos : 0 < s.pendingCh
      · rw [if_pos hpos] at h
        cases h
        cases inline with
        | true =>
          have hlast := hI.inline _ (mem_of_getElem? hw) rfl
          exact ⟨by simp, by simp, fun _ => hP (by rw [hlast]; rfl)⟩
        | false =>
          have hne : s.pc ≠ .lastWait := fun hpc => by
            obtain ⟨w, hmem, hin⟩ := hL hpc
            rw [hws, mem_singleton] at hmem
            cases hmem ▸ hin
          exact ⟨hO, fun h => absurd h hne, hP⟩
      · exact absurd h (by simp [hpos])
    · cases h
  | wrote i o =>
    simp only [DoWrites.step] at h
    split at h
    · rename_i reqs inline hw
      obtain ⟨rfl, hws⟩ := hI.workers_eq hw
      cases h
      refine ⟨hO, fun hpc => ?_, hP⟩
      obtain ⟨w, hmem, hin⟩ := hL hpc
      rw [hws, mem_singleton] at hmem
      subst hmem
      exact ⟨⟨reqs, inline, true⟩, by simp [hws], hin⟩
    · cases h
  | _ =>
    simp only [DoWrites.step, take, put] at h
    repeat' split at h
    all_goals
      simp only [reduceCtorEq, some_inj] at h
    all_goals
      subst h
      constructor <;> simp_all [Pc.pastStop, start]

/-- Where the loop comes to rest: at its first `select` with nothing to receive and no stop
signalled, in front of the `default` case, or at the end. -/
theorem rest_of_stuck (hI : Inv s) (hR : Rest s)
    (h : ∀ a, a.own = true → a ≠ .otherwise → step s a = none) :
    s.workers = [] ∧ (s.pc = .returned ∨ s.pc = .closed ∧ s.writeCh = [] ∨
      s.pc = .outer ∧ s.writeCh = [] ∧ s.stop = false) := by
  have hworkers : s.workers = [] := by
    cases hws : s.workers with
    | nil => rfl
    | cons w ws =>
      obtain ⟨reqs, inline, wrote⟩ := w
      cases wrote with
      | false =>
        exact absurd (h (.wrote 0 ⟨none, none, fun _ => none⟩) rfl (by simp)) (by simp [step, hws])
      | true =>
        have hpos : 0 < s.pendingCh := by
          have := hI.tokens
          rw [hws, length_cons] at this
          omega
        exact absurd (h (.release 0) rfl (by simp)) (by simp [step, hws, hpos])
  refine ⟨hworkers, ?_⟩
  have hfree : s.pc.holdsToken = false → s.pendingCh < 1 := fun ht => by
    have := hI.tokens
    rw [ht, hworkers] at this
    simp only [length_nil, Bool.false_eq_true, if_false] at this
    omega
  have hrecv := h .recv rfl (by simp)
  have hstopped := h .stopped rfl (by simp)
  have hcheck := h .check rfl (by simp)
  have htoken := h .token rfl (by simp)
  have hhand := h .hand rfl (by simp)
  have hempty : s.pc.receives = true → s.writeCh = [] := fun hr => by
    cases hch : s.writeCh with
    | nil => rfl
    | cons r rest => cases hpc : s.pc <;> simp_all [step, take, Pc.receives]
  cases hpc : s.pc with
  | returned => exact Or.inl rfl
  | closed => exact Or.inr (Or.inl ⟨rfl, hempty (by rw [hpc]; rfl)⟩)
  | outer =>
    refine Or.inr (Or.inr ⟨rfl, hempty (by rw [hpc]; rfl), ?_⟩)
    cases hst : s.stop with
    | false => rfl
    | true => simp [step, hpc, hst] at hstopped
  | check | closedCheck => simp [step, hpc] at hcheck
  | writeCase | lastCase => simp [step, hpc] at hhand
  | inner | pushing | lastPush => simp [step, hpc, put, hfree (by rw [hpc]; rfl)] at htoken
  | lastWait =>
    obtain ⟨w, hw, -⟩ := hR.lastWait hpc
    exact absurd hw (by simp [hworkers])

theorem stop_of_own (ha : a.own = true) (h : step s a = some s') : s'.stop = s.stop := by
  cases a <;> simp only [step, take, put] at h <;> (repeat' split at h) <;>
    simp only [reduceCtorEq, some_inj] at h <;> subst h <;> simp_all [start, Act.own]

theorem received_of_own (ha : a.own = true) (h : step s a = some s') :
    s'.received ++ s'.writeCh = s.received ++ s.writeCh := by
  rw [received_step h]
  cases a <;> simp_all [arrivals, Act.own]

/-- The end begins with the `default` case, and nothing is received from there on. -/
theorem ending_of_own (hI : Inv s) (ha : a.own = true) (h : step s a = some s')
    (he : s'.pc.ending = true) :
    (s.pc.ending = true ∨ a = .otherwise ∧ s.writeCh = []) ∧ s'.writeCh = s.writeCh ∧
      s'.received = s.received := by
  cases a with
  | release i =>
    simp only [step] at h
    split at h
    · rename_i reqs inline hw
      by_cases hpos : 0 < s.pendingCh
      · rw [if_pos hpos] at h
        cases h
        refine ⟨Or.inl ?_, rfl, rfl⟩
        cases inline with
        | true =>
          rw [hI.inline _ (mem_of_getElem? hw) rfl]
          rfl
        | false => exact he
      · exact absurd h (by simp [hpos])
    · cases h
  | _ =>
    simp only [step, take, put] at h
    repeat' split at h
    all_goals
      simp only [reduceCtorEq, some_inj] at h
    all_goals
      subst h
      simp_all [Pc.ending, start, Act.own]

theorem not_own_of_returned (hI : Inv s) (hpc : s.pc = .returned) (ha : a.own = true) :
    step s a = none := by
  have hw := (hI.ended hpc).2
  cases a <;> simp_all [step, Act.own]

theorem Inv.length_signalled (hI : Inv s) (hw : s.workers = []) (hr : s.reqs = []) :
    s.signalled.length = s.received.length := by
  have hsig : s.signalled.map Prod.fst = (s.finished.map Prod.fst).flatten := by
    rw [hI.told]
    simp [done, Function.comp_def, flatMap_def]
  have hall : s.received = s.signalled.map Prod.fst := by
    rw [hsig, ← hI.conserved, hI.batches, writing, hw, hr]
    simp
  rw [hall, length_map]

end DoWrites

end Autumn
