import Autumn.Lib.Run
import Mathlib.Algebra.Group.Nat.Defs
import Mathlib.Data.List.MinMax

/-!
# How the stream manager asks for the commit lengths

`receiveCommitlength` starts one goroutine for each node that holds a replica, which sends the
answer of the node to the channel `reCh`.  The channel has no buffer, so a send waits for the caller
to receive, and the caller first waits for the goroutines to end (`stopper.Wait()`).  With one
goroutine or more neither happens: `Receive.stuck`.

So the length that is chosen is the minimum of those received exactly when there is nobody to ask
(`choosesMinimum_iff`).  (The loop would start from `512`, the length of an extent without blocks.)
-/

namespace Autumn
namespace StreamManager

open Lib List

/-- `math.MaxUint32`, which stands for a node that did not answer. -/
def maxUint32 : ℕ := 2 ^ 32 - 1

/-- A goroutine of `receiveCommitlength`: it waits for its node, for somebody to receive what it
sends, or it has ended. -/
inductive Worker where
  | calling
  | sending (size : ℕ)
  | done
  deriving DecidableEq, Repr

/-- The caller: in `stopper.Wait()`, in the loop over the closed channel, or behind it. -/
inductive Main where
  | waiting
  | receiving (ret : ℕ)
  | returned (ret : ℕ)
  deriving DecidableEq, Repr

/-- A `receiveCommitlength` in progress. -/
structure Receive where
  workers : List Worker
  main : Main
  /-- The lengths that nodes have answered. -/
  received : List ℕ
  deriving DecidableEq, Repr

namespace Receive

inductive Action where
  /-- The call of worker `i` ends, with a length or an error. -/
  | answer (i : ℕ) (res : Option ℕ)
  /-- `stopper.Wait()` returns, and the channel is closed. -/
  | waited
  /-- The caller receives what worker `i` sends. -/
  | receive (i : ℕ)
  /-- The loop over the channel ends. -/
  | closed
  deriving DecidableEq, Repr

def start (nodes : ℕ) : Receive := ⟨List.replicate nodes .calling, .waiting, []⟩

/-- One turn of the loop over the channel. -/
def chooseMin (ret size : ℕ) : ℕ :=
  if size = maxUint32 then ret else if size < ret then size else ret

def step (r : Receive) : Action → Option Receive
  | .answer i res =>
    if r.workers[i]? = some .calling then
      some { r with
        workers := r.workers.set i (.sending (res.getD maxUint32))
        received := r.received ++ res.toList }
    else none
  | .waited =>
    if r.main = .waiting ∧ ∀ x ∈ r.workers, x = .done then some { r with main := .receiving 512 }
    else none
  | .receive i =>
    match r.workers[i]?, r.main with
    | some (.sending size), .receiving ret =>
      some { r with workers := r.workers.set i .done, main := .receiving (chooseMin ret size) }
    | _, _ => none
  | .closed =>
    match r.main with
    | .receiving ret =>
      if ∀ x ∈ r.workers, x = .done then some { r with main := .returned ret } else none
    | _ => none

/-- The caller waits for goroutines that have not ended. -/
structure Waiting (r : Receive) : Prop where
  main : r.main = .waiting
  nonempty : r.workers ≠ []
  undone : Worker.done ∉ r.workers

theorem waiting_start {nodes : ℕ} (h : nodes ≠ 0) : (start nodes).Waiting where
  main := rfl
  nonempty := by simp [start, h]
  undone := by simp [start]

variable {r : Receive}

/-- **Neither side moves.**  While the caller waits, no goroutine ends. -/
theorem Waiting.step {r' : Receive} {a : Action} (h : r.Waiting) (hs : r.step a = some r') :
    r'.Waiting := by
  cases a with
  | answer i res =>
    simp only [Receive.step] at hs
    split_ifs at hs with hi
    cases hs
    refine ⟨h.main, ?_, fun hmem => ?_⟩
    · simpa using h.nonempty
    · rcases mem_or_eq_of_mem_set hmem with hmem | hmem
      · exact h.undone hmem
      · cases hmem
  | waited =>
    simp only [Receive.step] at hs
    split_ifs at hs with hall
    obtain ⟨x, hx⟩ := exists_mem_of_ne_nil _ h.nonempty
    exact absurd (hall.2 x hx ▸ hx) h.undone
  | receive i =>
    simp only [Receive.step, h.main] at hs
    split at hs
    · rename_i heq
      cases heq
    · cases hs
  | closed =>
    simp only [Receive.step, h.main] at hs
    cases hs

/-- With a node to ask, `receiveCommitlength` does not return. -/
theorem stuck {nodes : ℕ} (h : nodes ≠ 0) {as : List Action}
    (hr : exec step (start nodes) as = some r) : r.Waiting :=
  exec_invariant_of_step (fun _ _ _ hI hs => hI.step hs) (waiting_start h) hr

/-- In every schedule that goes on as long as anything can happen, a length is chosen, and it is the
minimum of the lengths received if there are any. -/
def ChoosesMinimum (nodes : ℕ) : Prop :=
  ∀ as r, exec step (start nodes) as = some r → (∀ a, r.step a = none) →
    ∃ ret, r.main = .returned ret ∧ ∀ m, r.received.min? = some m → ret = m

/-- `k` workers have an answer to send, `m` are still calling. -/
def answered (k m : ℕ) : Receive :=
  ⟨List.replicate k (.sending maxUint32) ++ List.replicate m .calling, .waiting, []⟩

theorem exec_answered : ∀ m k : ℕ,
    exec step (answered k m) ((range' k m).map fun i => .answer i none) =
      some (answered (k + m) 0)
  | 0, k => rfl
  | m + 1, k => by
    have hget : (answered k (m + 1)).workers[k]? = some .calling := by
      simp [answered]
    have hstep : (answered k (m + 1)).step (.answer k none) = some (answered (k + 1) m) := by
      have hset : (answered k (m + 1)).workers.set k (.sending maxUint32) =
          (answered (k + 1) m).workers := by
        show (replicate k _ ++ Worker.calling :: replicate m .calling).set k _ =
          replicate (k + 1) _ ++ replicate m .calling
        rw [set_append_right _ _ (by simp), length_replicate, Nat.sub_self,
          set_cons_zero, replicate_succ', append_assoc, singleton_append]
      rw [Receive.step, if_pos hget, Option.getD_none, hset]
      rfl
    rw [range'_succ, map_cons, exec_cons_of_step hstep, exec_answered m (k + 1)]
    congr 2
    omega

/-- When all workers send and the caller waits, nothing can happen. -/
theorem step_eq_none (hmain : r.main = .waiting) (hne : r.workers ≠ [])
    (hall : ∀ x ∈ r.workers, ∃ size, x = .sending size) (a : Action) : r.step a = none := by
  cases a with
  | answer i res =>
    rw [Receive.step, if_neg]
    intro hi
    obtain ⟨size, hsize⟩ := hall _ (mem_of_getElem? hi)
    cases hsize
  | waited =>
    rw [Receive.step, if_neg]
    rintro ⟨-, hdone⟩
    obtain ⟨x, hx⟩ := exists_mem_of_ne_nil _ hne
    obtain ⟨size, rfl⟩ := hall x hx
    cases hdone _ hx
  | receive i =>
    simp only [Receive.step, hmain]
    split
    · rename_i heq
      cases heq
    · rfl
  | closed => simp only [Receive.step, hmain]

theorem step_of_nil {r' : Receive} {a : Action} (h : r.workers = [] ∧ r.received = [])
    (hs : r.step a = some r') : r'.workers = [] ∧ r'.received = [] := by
  cases a with
  | answer i res =>
    simp only [Receive.step, h.1, getElem?_nil, reduceCtorEq, if_false] at hs
  | waited =>
    simp only [Receive.step] at hs
    split_ifs at hs
    cases hs
    exact h
  | receive i => simp only [Receive.step, h.1, getElem?_nil, reduceCtorEq] at hs
  | closed =>
    simp only [Receive.step] at hs
    split at hs
    · split_ifs at hs
      cases hs
      exact h
    · cases hs

/-- **The minimum is chosen exactly when there is no node to ask.** -/
theorem choosesMinimum_iff (nodes : ℕ) : ChoosesMinimum nodes ↔ nodes = 0 := by
  constructor
  · intro h
    by_contra hne
    have hrun : exec step (start nodes) ((range' 0 nodes).map fun i => .answer i none) =
        some (answered nodes 0) := by
      have := exec_answered nodes 0
      rwa [Nat.zero_add] at this
    obtain ⟨ret, hret, -⟩ := h _ _ hrun
      (step_eq_none rfl (by simp [answered, hne]) (by simp [answered]))
    cases hret
  · rintro rfl as r hr hend
    have hnone : r.workers = [] ∧ r.received = [] :=
      exec_invariant_of_step (fun _ _ _ hI hs => step_of_nil hI hs) ⟨rfl, rfl⟩ hr
    cases hmain : r.main with
    | waiting =>
      have := hend .waited
      simp [Receive.step, hmain, hnone.1] at this
    | receiving ret =>
      have := hend .closed
      simp [Receive.step, hmain, hnone.1] at this
    | returned ret => exact ⟨ret, rfl, by simp [hnone.2]⟩

/-- Three nodes answer that their replica has `1536` bytes, and no length is ever chosen. -/
theorem minimum_not_chosen :
    ∃ r, exec step (start 3) [.answer 0 (some 1536), .answer 1 (some 1536), .answer 2 (some 1536)] =
        some r ∧ r.received.min? = some 1536 ∧ (∀ a, r.step a = none) ∧
        ∀ ret, r.main ≠ .returned ret :=
  ⟨⟨replicate 3 (.sending 1536), .waiting, [1536, 1536, 1536]⟩, by decide, by decide,
    step_eq_none rfl (by decide) (by simp), by simp⟩

end Receive
end StreamManager
end Autumn
