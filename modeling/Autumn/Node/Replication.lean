import Autumn.Extent.Extent
import Autumn.Lib.Run
import Mathlib.Data.Fintype.Basic
import Mathlib.Logic.Function.Basic

/-!
# Replication of one extent

The primary, replica `0`, handles `Append`: it notes its commit length, appends the blocks to its
own file and at the same time sends them with the noted length to the two secondaries, which append
them by `ReplicateBlocks`.  When all three have answered it compares the offsets.  The lock of the
extent is held meanwhile, so there is one `Append` at a time, but a message to a secondary can be
delivered at any later time, or never.

A `World` is what the nodes have, the messages that were not delivered and the `Append` in progress;
an `Action` is one step of one of the parties, with all that the environment decides: which write
fails, which answer is lost, what a crash leaves behind the synced part of a file.
`World.requests`, `World.kept` and `World.acked` only record what happened: every `Append` with the
length the primary noted, how many of its blocks each replica has added, and what was answered with
`OK`.

`Moves` lists what a step can do.  `World.Confirmed`: an answer `OK` of a replica, and then an
answer `OK` of the `Append`, still stands for a fact about the replica's file, as long as no step
takes it away.
-/

namespace Autumn
namespace Node

open Lib List Function

/-- The node that holds a replica; `0` is the primary. -/
abbrev Replica := Fin 3

instance neZeroThree : NeZero 3 := ⟨Nat.succ_ne_zero 2⟩

instance lawfulBEqReplica : LawfulBEq (Replica × ℕ) := inferInstance

/-- What a goroutine of `Append` sends to `retChan`: the offsets, or an error. -/
abbrev Result := Option (List ℕ)

/-- The blocks of an `Append` and the `CommitLength` the primary noted for it. -/
structure Request where
  blocks : List Block
  commit : ℕ
  deriving DecidableEq, Repr

/-- An `Append` in progress. -/
structure Call where
  request : ℕ
  /-- The answers of secondaries that are on their way to the primary. -/
  answer : Replica → Option Result
  /-- What was sent to `retChan`. -/
  result : Replica → Option Result

structure World where
  extents : Replica → Extent
  requests : List Request
  /-- The `ReplicateBlocks` messages that were not delivered. -/
  pending : List (Replica × ℕ)
  call : Option Call
  /-- How many blocks of a request a replica has added to its file, once it has handled it. -/
  kept : ℕ × Replica → Option ℕ
  /-- The requests that were answered with `OK`, and the offsets in the answer. -/
  acked : List (ℕ × List ℕ)

inductive Action where
  | append (blocks : List Block)
  | write (f : Fault)
  /-- Secondary `i` handles the `ReplicateBlocks` message of request `n`. -/
  | deliver (i : Replica) (n : ℕ) (f : Fault)
  | reply (i : Replica)
  /-- `ReplicateBlocks` on secondary `i` ends with an error, also when the message was delivered or
  will be. -/
  | timeout (i : Replica)
  /-- `Append` has all results, in the order in which they were sent, and returns. -/
  | finish (order : List Replica)
  | restart (i : Replica) (tail : Bytes)
  deriving DecidableEq, Repr

/-- The loop of `Append` over `retChan`; an error comes without offsets. -/
def collect : List ℕ → List Result → Result
  | preOffsets, [] => some preOffsets
  | preOffsets, r :: rs =>
    let offsets := r.getD []
    let preOffsets := if preOffsets = [] then offsets else preOffsets
    if r = none ∨ offsets ≠ preOffsets then none else collect preOffsets rs

/-- `AppendBlocks` of a request on replica `i`. -/
def World.handled (w : World) (i : Replica) (q : Request) (f : Fault) : Extent × Result :=
  (w.extents i).appendBlocks q.blocks (some q.commit) f

/-- The world after replica `i` has handled request `n`. -/
def World.handle (w : World) (i : Replica) (n : ℕ) (q : Request) (f : Fault) : World :=
  { w with
    extents := Function.update w.extents i (w.handled i q f).1
    kept := Function.update w.kept (n, i) (some ((w.extents i).keeps q.blocks q.commit f)) }

/-- An answer of secondary `i` to request `n`, noted if the `Append` is in progress. -/
def Call.answered (c : Call) (i : Replica) (n : ℕ) (r : Result) : Call :=
  if c.request = n then { c with answer := Function.update c.answer i (some r) } else c

def Call.sent (c : Call) (i : Replica) (r : Result) : Call :=
  { c with result := Function.update c.result i (some r) }

/-- The world after `Append` returns with the results `rs` in `retChan`. -/
def World.finished (w : World) (c : Call) (rs : List Result) : World :=
  { w with
    call := none
    acked := match collect [] rs with
      | some offsets => w.acked ++ [(c.request, offsets)]
      | none => w.acked }

def step (w : World) : Action → Option World
  | .append blocks =>
    if w.call.isSome then none
    else some { w with
      requests := w.requests ++ [⟨blocks, (w.extents 0).commitLength⟩]
      pending := w.pending ++ [(1, w.requests.length), (2, w.requests.length)]
      call := some ⟨w.requests.length, fun _ => none, fun _ => none⟩ }
  | .write f =>
    w.call.bind fun c => (w.requests[c.request]?).bind fun q =>
      if (c.result 0).isSome then none
      else some { w.handle 0 c.request q f with call := some (c.sent 0 (w.handled 0 q f).2) }
  | .deliver i n f =>
    if (i, n) ∈ w.pending ∧ i ≠ 0 then
      (w.requests[n]?).map fun q =>
        { w.handle i n q f with
          pending := w.pending.filter fun m => m ≠ (i, n)
          call := w.call.map fun c => c.answered i n (w.handled i q f).2 }
    else none
  | .reply i =>
    w.call.bind fun c => (c.answer i).bind fun r =>
      if (c.result i).isSome ∨ i = 0 then none else some { w with call := some (c.sent i r) }
  | .timeout i =>
    w.call.bind fun c =>
      if (c.result i).isSome ∨ i = 0 then none else some { w with call := some (c.sent i none) }
  | .finish order =>
    w.call.bind fun c =>
      if order.Perm [0, 1, 2] ∧ ∀ i, (c.result i).isSome then
        some (w.finished c (order.filterMap c.result))
      else none
  | .restart i tail =>
    ((w.extents i).restart tail).map fun e =>
      { w with
        extents := Function.update w.extents i e
        call := if i = 0 then none else w.call }

/-- The extent was just created on three nodes. -/
def World.init (id : ℕ) : World := ⟨fun _ => createExtent id, [], [], none, fun _ => none, []⟩

/-! ## What a step can do -/

inductive Moves (w : World) : Action → World → Prop where
  | append (blocks : List Block) (hcall : w.call = none) :
      Moves w (.append blocks) { w with
        requests := w.requests ++ [⟨blocks, (w.extents 0).commitLength⟩]
        pending := w.pending ++ [(1, w.requests.length), (2, w.requests.length)]
        call := some ⟨w.requests.length, fun _ => none, fun _ => none⟩ }
  | write (f : Fault) {c : Call} {q : Request} (hcall : w.call = some c)
      (hreq : w.requests[c.request]? = some q) (hres : c.result 0 = none) :
      Moves w (.write f)
        { w.handle 0 c.request q f with call := some (c.sent 0 (w.handled 0 q f).2) }
  | deliver (i : Replica) (n : ℕ) (f : Fault) {q : Request} (hmsg : (i, n) ∈ w.pending) (hi : i ≠ 0)
      (hreq : w.requests[n]? = some q) :
      Moves w (.deliver i n f)
        { w.handle i n q f with
          pending := w.pending.filter fun m => m ≠ (i, n)
          call := w.call.map fun c => c.answered i n (w.handled i q f).2 }
  | reply (i : Replica) {c : Call} {r : Result} (hcall : w.call = some c)
      (hans : c.answer i = some r) (hres : c.result i = none) (hi : i ≠ 0) :
      Moves w (.reply i) { w with call := some (c.sent i r) }
  | timeout (i : Replica) {c : Call} (hcall : w.call = some c) (hres : c.result i = none)
      (hi : i ≠ 0) :
      Moves w (.timeout i) { w with call := some (c.sent i none) }
  | finish (order : List Replica) {c : Call} (hcall : w.call = some c)
      (hperm : order.Perm [0, 1, 2]) (hres : ∀ i, (c.result i).isSome) :
      Moves w (.finish order) (w.finished c (order.filterMap c.result))
  | restart (i : Replica) (tail : Bytes) {e : Extent}
    (hopen : (w.extents i).restart tail = some e) :
      Moves w (.restart i tail)
        { w with
          extents := Function.update w.extents i e
          call := if i = 0 then none else w.call }

theorem moves_of_step {w w' : World} {a : Action} (h : step w a = some w') : Moves w a w' := by
  cases a with
  | append blocks =>
    simp only [step] at h
    split_ifs at h with hc
    cases h
    exact .append blocks (by simpa using hc)
  | write f =>
    obtain ⟨c, hc, h⟩ := Option.bind_eq_some_iff.mp h
    obtain ⟨q, hq, h⟩ := Option.bind_eq_some_iff.mp h
    split_ifs at h with hr
    cases h
    exact .write f hc hq (by simpa using hr)
  | deliver i n f =>
    simp only [step] at h
    split_ifs at h with hm
    obtain ⟨q, hq, rfl⟩ := Option.map_eq_some_iff.mp h
    exact .deliver i n f hm.1 hm.2 hq
  | reply i =>
    obtain ⟨c, hc, h⟩ := Option.bind_eq_some_iff.mp h
    obtain ⟨r, hr, h⟩ := Option.bind_eq_some_iff.mp h
    split_ifs at h with hi
    cases h
    exact .reply i hc hr (by simpa using (not_or.mp hi).1) (not_or.mp hi).2
  | timeout i =>
    obtain ⟨c, hc, h⟩ := Option.bind_eq_some_iff.mp h
    split_ifs at h with hi
    cases h
    exact .timeout i hc (by simpa using (not_or.mp hi).1) (not_or.mp hi).2
  | finish order =>
    obtain ⟨c, hc, h⟩ := Option.bind_eq_some_iff.mp h
    split_ifs at h with ho
    cases h
    exact .finish order hc ho.1 ho.2
  | restart i tail =>
    obtain ⟨e, he, rfl⟩ := Option.map_eq_some_iff.mp h
    exact .restart i tail he

section

variable (w : World) (i : Replica) (n : ℕ) (q : Request) (f : Fault) {j : Replica}

theorem World.handle_extents_self : (w.handle i n q f).extents i = (w.handled i q f).1 := by
  simp [World.handle]

theorem World.handle_extents_of_ne (h : j ≠ i) : (w.handle i n q f).extents j = w.extents j := by
  simp [World.handle, h]

theorem World.handle_kept_self :
    (w.handle i n q f).kept (n, i) = some ((w.extents i).keeps q.blocks q.commit f) := by
  simp [World.handle]

theorem World.handle_kept_of_ne {m : ℕ} (h : (m, j) ≠ (n, i)) :
    (w.handle i n q f).kept (m, j) = w.kept (m, j) :=
  update_of_ne h _ _

theorem Call.answered_request (c : Call) (i : Replica) (n : ℕ) (r : Result) :
    (c.answered i n r).request = c.request := by
  rw [Call.answered]
  split_ifs <;> rfl

theorem Call.answered_result (c : Call) (i : Replica) (n : ℕ) (r : Result) :
    (c.answered i n r).result = c.result := by
  rw [Call.answered]
  split_ifs <;> rfl

theorem Call.sent_result_self (c : Call) (r : Result) : (c.sent i r).result i = some r := by
  simp [Call.sent]

theorem Call.sent_result_of_ne (c : Call) (r : Result) (h : j ≠ i) :
    (c.sent i r).result j = c.result j := by
  simp [Call.sent, h]

end

/-! ## Answers that stand for a fact -/

theorem collect_none_notMem :
    ∀ {preOffsets : List ℕ} {rs : List Result} {offsets : List ℕ},
      collect preOffsets rs = some offsets → none ∉ rs
  | _, [], _, _ => not_mem_nil
  | preOffsets, r :: rs, offsets, h => by
    rw [collect] at h
    generalize (if preOffsets = [] then r.getD [] else preOffsets) = pre at h
    by_cases hr : r = none ∨ r.getD [] ≠ pre
    · rw [if_pos hr] at h
      cases h
    · rw [if_neg hr] at h
      rw [mem_cons, not_or]
      exact ⟨fun hn => hr (Or.inl hn.symm), collect_none_notMem h⟩

variable {offsets : List ℕ}

theorem collect_same :
    ∀ {rs : List Result}, (∀ r ∈ rs, r = some offsets) → collect offsets rs = some offsets
  | [], _ => rfl
  | r :: rs, h => by
    have hr : r = some offsets := h r (.head _)
    rw [collect, hr]
    simp only [Option.getD_some, ite_self, reduceCtorEq, ne_eq, not_true_eq_false, or_self,
      if_false]
    exact collect_same fun x hx => h x (.tail _ hx)

theorem collect_eq {rs : List Result} (h : ∀ r ∈ rs, r = some offsets) (hne : rs ≠ []) :
    collect [] rs = some offsets := by
  cases rs with
  | nil => exact absurd rfl hne
  | cons r rs =>
    rw [collect, h r (.head _)]
    simp only [Option.getD_some, if_true, reduceCtorEq, ne_eq, not_true_eq_false, or_self, if_false]
    exact collect_same fun x hx => h x (.tail _ hx)

/-- What goes wrong during the `AppendBlocks` of a step. -/
def Action.fault : Action → Option Fault
  | .write f => some f
  | .deliver _ _ f => some f
  | _ => none

/-- Results and answers without an error, of replicas and of `Append`, carry the offsets from the
noted length on, and the replica has what they stand for. -/
structure World.Confirmed (Has : Extent → ℕ → List Block → Prop) (w : World) : Prop where
  called : ∀ c, w.call = some c → ∃ q, w.requests[c.request]? = some q ∧
    ∀ i offsets, (c.answer i = some (some offsets) ∨ c.result i = some (some offsets)) →
      offsets = offsetsFrom q.commit q.blocks ∧ Has (w.extents i) q.commit q.blocks
  acked : ∀ n offsets, (n, offsets) ∈ w.acked → ∃ q, w.requests[n]? = some q ∧
    offsets = offsetsFrom q.commit q.blocks ∧ ∀ i, Has (w.extents i) q.commit q.blocks

theorem mem_replicas : ∀ i : Replica, i ∈ ([0, 1, 2] : List Replica) := by decide

section Confirmed

variable {Has : Extent → ℕ → List Block → Prop} {w w' : World} {a : Action} {c : Call}

theorem Moves.requests_mono (h : Moves w a w') {n : ℕ} {q : Request}
    (hq : w.requests[n]? = some q) : w'.requests[n]? = some q := by
  cases h with
  | append blocks _ =>
    obtain ⟨hlt, -⟩ := List.getElem?_eq_some_iff.mp hq
    exact (getElem?_append_left hlt).trans hq
  | _ => exact hq

theorem Call.sent_called {i : Replica} {r : Result} {P : Replica → List ℕ → Prop} (hc : ∀ j offsets,
      (c.answer j = some (some offsets) ∨ c.result j = some (some offsets)) → P j offsets)
    (hr : ∀ offsets, r = some offsets → P i offsets) :
    ∀ j offsets, ((c.sent i r).answer j = some (some offsets) ∨
      (c.sent i r).result j = some (some offsets)) → P j offsets := by
  intro j offsets h
  rcases h with h | h
  · exact hc j offsets (Or.inl h)
  · by_cases hj : j = i
    · subst hj
      rw [Call.sent_result_self, Option.some_inj] at h
      exact hr offsets h
    · rw [Call.sent_result_of_ne i c r hj] at h
      exact hc j offsets (Or.inr h)

theorem Call.answered_called {i : Replica} {n : ℕ} {r : Result} {P : Replica → List ℕ → Prop} (hc :
      ∀ j offsets, (c.answer j = some (some offsets) ∨ c.result j = some (some offsets)) → P j
      offsets) (hr : c.request = n → ∀ offsets, r = some offsets → P i offsets) :
    ∀ j offsets, ((c.answered i n r).answer j = some (some offsets) ∨
      (c.answered i n r).result j = some (some offsets)) → P j offsets := by
  intro j offsets h
  rw [Call.answered] at h
  by_cases hn : c.request = n
  · rw [if_pos hn] at h
    rcases h with h | h
    · change update c.answer i _ j = _ at h
      by_cases hj : j = i
      · subst hj
        rw [update_self, Option.some_inj] at h
        exact hr hn offsets h
      · rw [update_of_ne hj] at h
        exact hc j offsets (Or.inl h)
    · exact hc j offsets (Or.inr h)
  · rw [if_neg hn] at h
    exact hc j offsets h

theorem Call.result_of_collect {order : List Replica} (hperm : order.Perm [0, 1, 2])
    (hres : ∀ i, (c.result i).isSome = true)
    (hcol : collect [] (order.filterMap c.result) = some offsets) (i : Replica) :
    ∃ o, c.result i = some (some o) := by
  obtain ⟨r, hr⟩ := Option.isSome_iff_exists.mp (hres i)
  cases r with
  | none =>
    have hmem : none ∈ order.filterMap c.result :=
      mem_filterMap.mpr ⟨i, hperm.mem_iff.mpr (mem_replicas i), hr⟩
    exact absurd hmem (collect_none_notMem hcol)
  | some o => exact ⟨o, hr⟩

/-- If `Append` returns offsets, each replica has the blocks, and all offsets are the same. -/
theorem Call.collect_called {order : List Replica} {P : Replica → Prop} {good : List ℕ}
    (hperm : order.Perm [0, 1, 2]) (hres : ∀ i, (c.result i).isSome = true)
    (hall : ∀ i o, c.result i = some (some o) → o = good ∧ P i)
    (hcol : collect [] (order.filterMap c.result) = some offsets) : offsets = good ∧ ∀ i, P i := by
  have hok : ∀ i, c.result i = some (some good) ∧ P i := by
    intro i
    obtain ⟨o, hr⟩ := Call.result_of_collect hperm hres hcol i
    obtain ⟨rfl, hP⟩ := hall i o hr
    exact ⟨hr, hP⟩
  have hsame : ∀ r ∈ order.filterMap c.result, r = some good := by
    intro r hr
    obtain ⟨i, -, hi⟩ := mem_filterMap.mp hr
    rw [(hok i).1, Option.some_inj] at hi
    exact hi.symm
  have hne : order.filterMap c.result ≠ [] :=
    ne_nil_of_mem (mem_filterMap.mpr ⟨0, hperm.mem_iff.mpr (mem_replicas 0), (hok 0).1⟩)
  rw [collect_eq hsame hne, Option.some_inj] at hcol
  exact ⟨hcol.symm, fun i => (hok i).2⟩

theorem World.Confirmed.step (h : w.Confirmed Has) (hm : Moves w a w')
    (hmono : ∀ i c bs, Has (w.extents i) c bs → Has (w'.extents i) c bs)
    (hnew : ∀ i q f offsets, a.fault = some f → q ∈ w.requests →
      (w.handled i q f).2 = some offsets →
      offsets = offsetsFrom q.commit q.blocks ∧ Has (w.handled i q f).1 q.commit q.blocks) :
    w'.Confirmed Has := by
  -- what was answered before the step is still so
  have hcalled : ∀ c, w.call = some c → ∃ q, w'.requests[c.request]? = some q ∧
      ∀ i offsets, (c.answer i = some (some offsets) ∨ c.result i = some (some offsets)) →
        offsets = offsetsFrom q.commit q.blocks ∧ Has (w'.extents i) q.commit q.blocks := by
    intro c hc
    obtain ⟨q, hq, hall⟩ := h.called c hc
    refine ⟨q, hm.requests_mono hq, fun i offsets ho => ?_⟩
    exact ⟨(hall i offsets ho).1, hmono i _ _ (hall i offsets ho).2⟩
  have hacked : ∀ n offsets, (n, offsets) ∈ w.acked → ∃ q, w'.requests[n]? = some q ∧
      offsets = offsetsFrom q.commit q.blocks ∧ ∀ i, Has (w'.extents i) q.commit q.blocks := by
    intro n offsets ha
    obtain ⟨q, hq, ho, hall⟩ := h.acked n offsets ha
    exact ⟨q, hm.requests_mono hq, ho, fun i => hmono i _ _ (hall i)⟩
  cases hm with
  | append blocks hcall =>
    refine ⟨fun c hc => ?_, hacked⟩
    cases hc
    exact ⟨_, getElem?_concat_length, fun i offsets ho => by simp at ho⟩
  | @write f c q hcall hreq hres =>
    refine ⟨fun c' hc => ?_, hacked⟩
    cases hc
    obtain ⟨q', hq', hall⟩ := hcalled c hcall
    cases hreq.symm.trans hq'
    refine ⟨q, hq', Call.sent_called hall fun offsets hr => ?_⟩
    have hself := hnew 0 q f offsets rfl (mem_of_getElem? hreq) hr
    refine ⟨hself.1, ?_⟩
    show Has ((w.handle 0 c.request q f).extents 0) _ _
    rw [World.handle_extents_self]
    exact hself.2
  | @deliver i n f q hmsg hi hreq =>
    refine ⟨fun c' hc => ?_, hacked⟩
    obtain ⟨c, hcall, rfl⟩ := Option.map_eq_some_iff.mp hc
    obtain ⟨q', hq', hall⟩ := hcalled c hcall
    refine ⟨q', (Call.answered_request ..).symm ▸ hq',
      Call.answered_called hall fun hn offsets hr => ?_⟩
    subst hn
    cases hreq.symm.trans hq'
    have hself := hnew i q f offsets rfl (mem_of_getElem? hreq) hr
    refine ⟨hself.1, ?_⟩
    show Has ((w.handle i c.request q f).extents i) _ _
    rw [World.handle_extents_self]
    exact hself.2
  | @reply i c r hcall hans hres hi =>
    refine ⟨fun c' hc => ?_, hacked⟩
    cases hc
    obtain ⟨q, hq, hall⟩ := hcalled c hcall
    refine ⟨q, hq, Call.sent_called hall fun offsets hr => ?_⟩
    exact hall i offsets (Or.inl (by rw [hans, hr]))
  | @timeout i c hcall hres hi =>
    refine ⟨fun c' hc => ?_, hacked⟩
    cases hc
    obtain ⟨q, hq, hall⟩ := hcalled c hcall
    exact ⟨q, hq, Call.sent_called hall fun offsets hr => absurd hr (by simp)⟩
  | @finish order c hcall hperm hres =>
    refine ⟨fun c' hc => absurd hc (by simp [World.finished]), fun n offsets ha => ?_⟩
    obtain ⟨q, hq, hall⟩ := hcalled c hcall
    cases hcol : collect [] (order.filterMap c.result) with
    | none =>
      simp only [World.finished, hcol] at ha
      exact hacked n offsets ha
    | some offs =>
      simp only [World.finished, hcol, mem_append, mem_singleton, Prod.mk.injEq] at ha
      rcases ha with ha | ⟨rfl, rfl⟩
      · exact hacked n offsets ha
      · exact ⟨q, hq, Call.collect_called hperm hres (fun i o hr => hall i o (Or.inr hr)) hcol⟩
  | @restart i tail e hopen =>
    refine ⟨fun c hc => ?_, hacked⟩
    by_cases hi : i = 0
    · simp [hi] at hc
    · rw [if_neg hi] at hc
      exact hcalled c hc

theorem World.Confirmed.init (id : ℕ) : (World.init id).Confirmed Has :=
  ⟨fun _ hc => absurd hc (by simp [World.init]), fun _ _ ha => absurd ha (by simp [World.init])⟩

end Confirmed

end Node
end Autumn
