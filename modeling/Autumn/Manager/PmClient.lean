import Mathlib.Logic.Function.Iterate

/-!
# The client that stores the list of the tables

`SetRowStreamTables` asks the managers one after the other, twice around, until `try` is told to
stop.  A variable of the closure hides the error that it returns, so it returns nil whatever the
managers have answered.  And an answer with a code other than `OK` comes without an error, whose
text is then asked for.
-/

namespace Autumn
namespace Manager
namespace PmClient

open Nat Option

/-! ## The code -/

/-- What comes back from a manager. -/
inductive Answer where
  | rpcError
  | notOK
  | ok
  deriving DecidableEq, Repr

/-- The closure of `SetRowStreamTables`: whether to go on.  It dies at the text of an error that is
nil. -/
def askAgain : Answer → Option Bool
  | .rpcError => some true
  | .notOK => none
  | .ok => some false

/-- `current = (current + 1) % connLen`. -/
def turn (conns : List Bool) (current : ℕ) : ℕ := (current + 1) % conns.length

/-- The loop of `try`, with the rounds that are left.  A connection that is nil is `false`; the loop
stays there.  The result has the new leader, if there is one, and the number of answers so far. -/
def tryLoop (conns : List Bool) (answers : ℕ → Answer) : ℕ → ℕ → ℕ → Option (Option ℕ × ℕ)
  | 0, _, sent => some (none, sent)
  | rounds + 1, current, sent =>
    match conns[current]? with
    | none => none
    | some false => tryLoop conns answers rounds current sent
    | some true => (askAgain (answers sent)).bind fun again =>
      if again then tryLoop conns answers rounds (turn conns current) (sent + 1)
      else some (some current, sent + 1)

/-- `try`. -/
def try_ (conns : List Bool) (lastLeader : ℕ) (answers : ℕ → Answer) : Option (Option ℕ × ℕ) :=
  tryLoop conns answers (conns.length * 2) lastLeader 0

/-- What a call of `SetRowStreamTables` leaves. -/
structure Result where
  err : Option String
  lastLeader : ℕ
  /-- The number of answers it has got. -/
  sent : ℕ
  deriving DecidableEq, Repr

/-- `SetRowStreamTables`.  The error it returns is never assigned to. -/
def setRowStreamTables (conns : List Bool) (lastLeader : ℕ)
    (answers : ℕ → Answer) : Option Result :=
  (try_ conns lastLeader answers).map fun x => ⟨none, x.1.getD lastLeader, x.2⟩

/-- The loop of `updateTableLocs`; `answers k` are those to call `k`. -/
def updateLoop (conns : List Bool) (answers : ℕ → ℕ → Answer) :
    ℕ → ℕ → ℕ → Option (ℕ × Result)
  | 0, _, _ => none
  | fuel + 1, lastLeader, k => (setRowStreamTables conns lastLeader (answers k)).bind fun r =>
    if r.err.isSome then updateLoop conns answers fuel r.lastLeader (k + 1) else some (k, r)

/-- `updateTableLocs` for a list that is not empty: the call it returns behind, and its result. -/
def updateTableLocs (conns : List Bool) (lastLeader : ℕ) (answers : ℕ → ℕ → Answer) (fuel : ℕ) :
    Option (ℕ × Result) := updateLoop conns answers fuel lastLeader 0

/-! ## When it tells the truth -/

/-- A manager has answered `OK` to the call. -/
def Stored (answers : ℕ → Answer) (r : Result) : Prop := ∃ i < r.sent, answers i = .ok

/-- The call returns, and without an error just if a manager has answered `OK`. -/
def Truthful (answers : ℕ → Answer) (result : Option Result) : Prop :=
  ∃ r, result = some r ∧ (r.err = none ↔ Stored answers r)

/-- The managers that are asked have connections, they answer with errors, and then one with
`OK`. -/
def AcceptedIn (conns : List Bool) (answers : ℕ → Answer) (rounds current sent : ℕ) : Prop :=
  ∃ m < rounds, (∀ j ≤ m, conns[(turn conns)^[j] current]? = some true) ∧
    (∀ j < m, answers (sent + j) = .rpcError) ∧ answers (sent + m) = .ok

def Accepted (conns : List Bool) (lastLeader : ℕ) (answers : ℕ → Answer) : Prop :=
  AcceptedIn conns answers (conns.length * 2) lastLeader 0

variable {conns : List Bool} {answers : ℕ → Answer} {rounds current sent : ℕ}

/-- What the first of the managers has to do with it. -/
theorem acceptedIn_succ : AcceptedIn conns answers (rounds + 1) current sent ↔
    conns[current]? = some true ∧ (answers sent = .ok ∨
      answers sent = .rpcError ∧
        AcceptedIn conns answers rounds (turn conns current) (sent + 1)) := by
  constructor
  · rintro ⟨m, hm, hconns, herr, hok⟩
    refine ⟨hconns 0 (zero_le m), ?_⟩
    cases m with
    | zero => exact .inl hok
    | succ m =>
      refine .inr ⟨herr 0 m.succ_pos, m, lt_of_succ_lt_succ hm, fun j hj => ?_, fun j hj => ?_, ?_⟩
      · exact hconns (j + 1) (succ_le_succ hj)
      · rw [Nat.add_right_comm]
        exact herr (j + 1) (succ_lt_succ hj)
      · rw [Nat.add_right_comm]
        exact hok
  · rintro ⟨hconn, hok | ⟨herr, m, hm, hconns, herrs, hok⟩⟩
    · exact ⟨0, rounds.succ_pos, fun j hj => le_zero.mp hj ▸ hconn,
        fun j hj => absurd hj j.not_lt_zero, hok⟩
    · refine ⟨m + 1, succ_lt_succ hm, fun j hj => ?_, fun j hj => ?_, ?_⟩
      · cases j with
        | zero => exact hconn
        | succ j => exact hconns j (le_of_succ_le_succ hj)
      · cases j with
        | zero => exact herr
        | succ j =>
          rw [Nat.add_comm j, ← Nat.add_assoc]
          exact herrs j (lt_of_succ_lt_succ hj)
      · rw [Nat.add_comm m, ← Nat.add_assoc]
        exact hok

/-- The loop gets an `OK` just if the managers accept in the rounds that are left. -/
theorem exists_ok_iff :
    (∃ leader n, tryLoop conns answers rounds current sent = some (leader, n) ∧
      ∃ i, sent ≤ i ∧ i < n ∧ answers i = .ok) ↔ AcceptedIn conns answers rounds current sent := by
  induction rounds generalizing current sent with
  | zero =>
    refine iff_of_false ?_ fun h => ?_
    · rintro ⟨leader, n, hloop, i, hle, hlt, -⟩
      obtain ⟨-, rfl⟩ : none = leader ∧ sent = n := by simpa [tryLoop] using hloop
      omega
    · obtain ⟨m, hm, -⟩ := h
      exact absurd hm m.not_lt_zero
  | succ rounds ih =>
    rw [acceptedIn_succ, tryLoop]
    cases hconn : conns[current]? with
    | none => simp
    | some b =>
      cases b with
      | false =>
        -- The loop stays at a connection that is nil.
        refine iff_of_false (fun h => ?_) (by simp)
        obtain ⟨m, -, hconns, -⟩ := ih.mp h
        cases hconn.symm.trans (hconns 0 m.zero_le)
      | true =>
        cases hanswer : answers sent with
        | ok =>
          simp only [askAgain, bind_some, Bool.false_eq_true, if_false, true_and, true_or, iff_true]
          exact ⟨_, _, rfl, sent, Nat.le_refl _, sent.lt_succ_self, hanswer⟩
        | notOK => simp [askAgain]
        | rpcError =>
          simp only [askAgain, bind_some, if_true, true_and, reduceCtorEq, false_or]
          rw [← ih]
          refine exists_congr fun leader => exists_congr fun n => and_congr_right fun _ =>
            exists_congr fun i => ⟨fun h => ⟨?_, h.2⟩, fun h => ⟨by omega, h.2⟩⟩
          rcases Nat.lt_or_eq_of_le h.1 with hlt | rfl
          · exact hlt
          · cases hanswer.symm.trans h.2.2

theorem truthful_setRowStreamTables_iff (conns : List Bool) (lastLeader : ℕ)
    (answers : ℕ → Answer) :
    Truthful answers (setRowStreamTables conns lastLeader answers) ↔
      Accepted conns lastLeader answers := by
  rw [Accepted, ← exists_ok_iff]
  constructor
  · rintro ⟨r, hr, hiff⟩
    obtain ⟨⟨leader, n⟩, htry, rfl⟩ := map_eq_some_iff.mp hr
    obtain ⟨i, hi, hok⟩ := hiff.mp rfl
    exact ⟨leader, n, htry, i, i.zero_le, hi, hok⟩
  · rintro ⟨leader, n, htry, i, -, hi, hok⟩
    exact ⟨_, congrArg (Option.map _) htry, fun _ => ⟨i, hi, hok⟩, fun _ => rfl⟩

theorem updateTableLocs_eq (conns : List Bool) (lastLeader : ℕ) (answers : ℕ → ℕ → Answer)
    (fuel : ℕ) :
    updateTableLocs conns lastLeader answers (fuel + 1) =
      (setRowStreamTables conns lastLeader (answers 0)).map fun r => (0, r) := by
  rw [updateTableLocs, updateLoop, setRowStreamTables]
  cases try_ conns lastLeader (answers 0) <;> rfl

/-- **The client tells the truth just if a manager answers `OK`, before the rounds are over and
before any answer with another code.**  The same is the condition for `updateTableLocs` to return
with the list stored. -/
theorem truthful_iff (conns : List Bool) (lastLeader : ℕ) (answers : ℕ → ℕ → Answer) (fuel : ℕ) :
    (Truthful (answers 0) (setRowStreamTables conns lastLeader (answers 0)) ↔
      Accepted conns lastLeader (answers 0)) ∧
    ((∃ k r, updateTableLocs conns lastLeader answers (fuel + 1) = some (k, r) ∧
      Stored (answers k) r) ↔
      Accepted conns lastLeader (answers 0)) := by
  have htruth := truthful_setRowStreamTables_iff conns lastLeader (answers 0)
  refine ⟨htruth, ?_⟩
  rw [← htruth, updateTableLocs_eq]
  constructor
  · rintro ⟨k, r, hr, hstored⟩
    obtain ⟨r', hcall, heq⟩ := map_eq_some_iff.mp hr
    cases heq
    obtain ⟨x, -, rfl⟩ := map_eq_some_iff.mp hcall
    exact ⟨_, hcall, fun _ => hstored, fun _ => rfl⟩
  · rintro ⟨r, hr, hiff⟩
    obtain ⟨x, -, rfl⟩ := map_eq_some_iff.mp hr
    exact ⟨0, _, congrArg (Option.map _) hr, hiff.mp rfl⟩

/-- **A call that no manager has answered returns nil, and so does `updateTableLocs`**; an answer
with another code than `OK` makes the process die. -/
theorem untruthful :
    (∃ r, setRowStreamTables [true] 0 (fun _ => .rpcError) = some r ∧ r.err = none ∧
        ¬ Stored (fun _ => .rpcError) r ∧
        updateTableLocs [true] 0 (fun _ _ => .rpcError) 1 = some (0, r)) ∧
      setRowStreamTables [true] 0 (fun _ => .notOK) = none := by
  refine ⟨⟨⟨none, 0, 2⟩, rfl, rfl, ?_, rfl⟩, rfl⟩
  rintro ⟨i, -, hi⟩
  cases hi

end PmClient
end Manager
end Autumn
