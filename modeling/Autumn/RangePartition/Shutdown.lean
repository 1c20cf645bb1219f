import Autumn.RangePartition.Drain

/-!
# Shutting the write path down

`Close` sets `blockWrites`, signals `doWrites` to stop and waits for it, closes `writeCh` and hands
the memtable over.  A caller of `Write`, `WriteAsync` or `Delete` tests `blockWrites` and sends its
request in two separate steps, and a caller of `Delete` loads the memtables before that.  Here the
write loop of `DoWrites` runs together with any number of callers and with one `Close`.

A sender that finds `writeCh` closed panics, and so does a `Delete` that finds no memtable.  The
callers that have sent are listed in the order they sent, and a caller waits for the signal at its
own place.  Whether the search of a `Delete` finds a version, whether the memtable is empty at the
end and when `writeRequests` returns are choices of the run.
-/

namespace Autumn

open Lib Option

/-! ## Callers, `Close` and the loop -/

namespace Shutdown

variable {ε : Type}

/-- The three entry points of the write path. -/
inductive Kind where
  | write
  | writeAsync
  | delete
  deriving DecidableEq, Repr

/-- What a caller is told, by the return value or by its callback. -/
inductive Answer (ε : Type) where
  /-- `ErrBlockedWrites`. -/
  | blocked
  /-- `errNotFound` of `Delete`. -/
  | notFound
  /-- `request.Err` after `request.Wait`. -/
  | outcome (err : Option ε)
  deriving DecidableEq, Repr

/-- Where a caller is. -/
inductive CallPc (ε : Type) where
  /-- `Delete` has loaded the memtables and searches its key. -/
  | searching
  /-- `sendToWriteCh`, before the test of `blockWrites`. -/
  | testing
  /-- Behind the test, before or in the send. -/
  | sending
  /-- In `request.Wait`, as the `k`-th sender. -/
  | waiting (k : ℕ)
  | answered (a : Answer ε)
  deriving DecidableEq, Repr

/-- A caller with the request it sends if it comes to that. -/
structure Caller (ε : Type) where
  kind : Kind
  req : Request
  pc : CallPc ε
  deriving DecidableEq, Repr

/-- Where `close` is. -/
inductive Closer where
  | idle
  /-- `blockWrites` is set. -/
  | blocked
  /-- In `writeStopper.Stop`, behind the signal. -/
  | stopping
  /-- `doWrites` has returned. -/
  | stopped
  /-- `writeCh` is closed. -/
  | chClosed
  /-- The memtable is handed over unless it was empty, the flusher is at work. -/
  | flushing
  | done
  deriving DecidableEq, Repr

/-- A step of somebody. -/
inductive Act (ε : Type) where
  | call (kind : Kind) (req : Request)
  /-- The search of `Delete` ends, with a live version or without. -/
  | searched (i : ℕ) (found : Bool)
  | test (i : ℕ)
  | send (i : ℕ)
  | answer (i : ℕ)
  | loop (a : DoWrites.Act ε)
  | close
  | signal
  | waited
  | closeCh
  | handOver (empty : Bool)
  | finish

end Shutdown

open Shutdown in
/-- The write path with its callers.  `sent` lists the callers whose requests went into the channel,
in that order. -/
structure Shutdown (ε : Type) where
  loop : DoWrites ε := {}
  callers : List (Caller ε) := []
  sent : List ℕ := []
  blockWrites : Bool := false
  /-- `writeCh` is closed. -/
  closed : Bool := false
  /-- `rp.mt` is `nil`. -/
  mtNil : Bool := false
  closer : Closer := .idle
  panicked : Bool := false

namespace Shutdown

variable {ε : Type}

/-- Caller `i` moves on. -/
def goto (s : Shutdown ε) (i : ℕ) (c : Caller ε) (pc : CallPc ε) : Shutdown ε :=
  { s with callers := s.callers.set i { c with pc := pc } }

/-- One step, while the process lives. -/
def advance (s : Shutdown ε) : Act ε → Option (Shutdown ε)
  | .call kind req =>
    match kind with
    -- `getMemTables` dereferences the memtable.
    | .delete =>
      if s.mtNil then some { s with panicked := true }
      else some { s with callers := s.callers ++ [⟨kind, req, .searching⟩] }
    | _ => some { s with callers := s.callers ++ [⟨kind, req, .testing⟩] }
  | .searched i found =>
    match s.callers[i]? with
    | some c =>
      match c.pc with
      | .searching => some (s.goto i c (if found then .testing else .answered .notFound))
      | _ => none
    | none => none
  | .test i =>
    match s.callers[i]? with
    | some c =>
      match c.pc with
      | .testing => some (s.goto i c (if s.blockWrites then .answered .blocked else .sending))
      | _ => none
    | none => none
  -- A send on a closed channel panics, also one that was blocked before.
  | .send i =>
    match s.callers[i]? with
    | some c =>
      match c.pc with
      | .sending =>
        if s.closed then some { s with panicked := true }
        else (DoWrites.step s.loop (.arrive c.req)).map fun loop =>
          { s.goto i c (.waiting s.sent.length) with loop := loop, sent := s.sent ++ [i] }
      | _ => none
    | none => none
  | .answer i =>
    match s.callers[i]? with
    | some c =>
      match c.pc with
      | .waiting k =>
        match s.loop.signalled[k]? with
        | some x => some (s.goto i c (.answered (.outcome x.2)))
        | none => none
      | _ => none
    | none => none
  | .loop a =>
    if a.own then (DoWrites.step s.loop a).map fun loop => { s with loop := loop } else none
  | .close =>
    match s.closer with
    | .idle => some { s with blockWrites := true, closer := .blocked }
    | _ => none
  | .signal =>
    match s.closer with
    | .blocked => (DoWrites.step s.loop .signal).map fun loop =>
        { s with loop := loop, closer := .stopping }
    | _ => none
  | .waited =>
    match s.closer, s.loop.pc with
    | .stopping, .returned => some { s with closer := .stopped }
    | _, _ => none
  | .closeCh =>
    match s.closer with
    | .stopped => some { s with closed := true, closer := .chClosed }
    | _ => none
  | .handOver empty =>
    match s.closer with
    | .chClosed => some { s with mtNil := !empty, closer := .flushing }
    | _ => none
  | .finish =>
    match s.closer with
    | .flushing => some { s with closer := .done }
    | _ => none

/-- A panic ends the process. -/
def step (s : Shutdown ε) (a : Act ε) : Option (Shutdown ε) :=
  if s.panicked then none else s.advance a

/-- The steps of callers, loop and `Close` once they are under way. -/
def Act.inner : Act ε → Bool
  | .call _ _ | .close => false
  | _ => true

/-- The caller has its answer. -/
def Caller.done (c : Caller ε) : Bool :=
  match c.pc with
  | .answered _ => true
  | _ => false

/-- The caller has passed the test of `blockWrites` and has not sent. -/
def Caller.isSending (c : Caller ε) : Bool :=
  match c.pc with
  | .sending => true
  | _ => false

/-! ## How the shutdown fails -/

/-- The write of an empty value under an empty key. -/
def oneWrite : Request := ⟨[writeEntry [] [] 1]⟩

/-- A caller passes the test, then `Close` is called and `doWrites` finds the channel empty. -/
def testThenDrain : List (Act String) :=
  [.call .write oneWrite, .test 0, .close, .signal, .loop .stopped, .loop .otherwise]

/-- `doWrites` returns and `Close` goes on to its end. -/
def closeUp : List (Act String) :=
  [.loop .token, .loop .hand, .loop (.wrote 0 ⟨none, none, fun _ => none⟩), .loop (.release 0),
    .waited, .closeCh, .handOver true, .finish]

/-- **`Close` between the test and the send.**  A caller that sends after the channel is closed
panics; the request of one that sends just before stays in the channel, and the caller waits for
ever. -/
theorem shutdown_strands_callers :
    (∃ s, exec step {} (testThenDrain ++ closeUp ++ [.send 0]) = some s ∧ s.panicked = true) ∧
      ∃ s, exec step {} (testThenDrain ++ [.send 0] ++ closeUp) = some s ∧ s.closer = .done ∧
        s.callers = [⟨.write, oneWrite, .waiting 0⟩] ∧
        ∀ a : Act String, a.inner = true → step s a = none := by
  refine ⟨⟨_, rfl, rfl⟩, _, rfl, rfl, rfl, ?_⟩
  intro a ha
  cases a with
  | call kind req | close => cases ha
  | searched i found | test i | send i | answer i => cases i <;> rfl
  | loop a => cases a <;> rfl
  | _ => rfl

/-! ## What a step does -/

/-- The effects a step can have. -/
inductive Effect (s : Shutdown ε) : Act ε → Shutdown ε → Prop
  | call {d : Caller ε} (hd : d.pc = .testing ∨ d.pc = .searching ∧ d.kind = .delete) :
      Effect s (.call d.kind d.req) { s with callers := s.callers ++ [d] }
  | deleteNil {req : Request} (h : s.mtNil = true) :
      Effect s (.call .delete req) { s with panicked := true }
  | found {i : ℕ} {c : Caller ε} (hc : s.callers[i]? = some c) (hpc : c.pc = .searching) :
      Effect s (.searched i true) (s.goto i c .testing)
  | notFound {i : ℕ} {c : Caller ε} (hc : s.callers[i]? = some c) (hpc : c.pc = .searching) :
      Effect s (.searched i false) (s.goto i c (.answered .notFound))
  | reject {i : ℕ} {c : Caller ε} (hc : s.callers[i]? = some c) (hpc : c.pc = .testing)
      (hb : s.blockWrites = true) : Effect s (.test i) (s.goto i c (.answered .blocked))
  | pass {i : ℕ} {c : Caller ε} (hc : s.callers[i]? = some c) (hpc : c.pc = .testing)
      (hb : s.blockWrites = false) : Effect s (.test i) (s.goto i c .sending)
  | sendClosed {i : ℕ} {c : Caller ε} (hc : s.callers[i]? = some c) (hpc : c.pc = .sending)
      (hcl : s.closed = true) : Effect s (.send i) { s with panicked := true }
  | send {i : ℕ} {c : Caller ε} {l : DoWrites ε} (hc : s.callers[i]? = some c)
      (hpc : c.pc = .sending) (hcl : s.closed = false)
      (hl : DoWrites.step s.loop (.arrive c.req) = some l) :
      Effect s (.send i)
        { s.goto i c (.waiting s.sent.length) with loop := l, sent := s.sent ++ [i] }
  | answer {i k : ℕ} {c : Caller ε} {x : Request × Option ε} (hc : s.callers[i]? = some c)
      (hpc : c.pc = .waiting k) (hx : s.loop.signalled[k]? = some x) :
      Effect s (.answer i) (s.goto i c (.answered (.outcome x.2)))
  | loop {b : DoWrites.Act ε} {l : DoWrites ε} (hb : b.own = true)
      (hl : DoWrites.step s.loop b = some l) : Effect s (.loop b) { s with loop := l }
  | close (h : s.closer = .idle) :
      Effect s .close { s with blockWrites := true, closer := .blocked }
  | signal (h : s.closer = .blocked) :
      Effect s .signal { s with loop := { s.loop with stop := true }, closer := .stopping }
  | waited (h : s.closer = .stopping) (hr : s.loop.pc = .returned) :
      Effect s .waited { s with closer := .stopped }
  | closeCh (h : s.closer = .stopped) :
      Effect s .closeCh { s with closed := true, closer := .chClosed }
  | handOver {empty : Bool} (h : s.closer = .chClosed) :
      Effect s (.handOver empty) { s with mtNil := !empty, closer := .flushing }
  | finish (h : s.closer = .flushing) : Effect s .finish { s with closer := .done }

theorem effect_of_step {s s' : Shutdown ε} {a : Act ε} (h : step s a = some s') :
    s.panicked = false ∧ Effect s a s' := by
  unfold step at h
  split_ifs at h with hp
  refine ⟨Bool.eq_false_iff.mpr hp, ?_⟩
  cases a with
  | call kind req =>
    cases kind with
    | delete =>
      simp only [advance] at h
      split_ifs at h with hmt
      · exact some.inj h ▸ .deleteNil hmt
      · exact some.inj h ▸ .call (d := ⟨.delete, req, .searching⟩) (Or.inr ⟨rfl, rfl⟩)
    | write => exact some.inj h ▸ .call (d := ⟨.write, req, .testing⟩) (Or.inl rfl)
    | writeAsync =>
      exact some.inj h ▸ .call (d := ⟨.writeAsync, req, .testing⟩) (Or.inl rfl)
  | searched i found =>
    simp only [advance] at h
    split at h
    · next c hc =>
      split at h
      · next hpc =>
        cases h
        cases found with
        | true => exact .found hc hpc
        | false => exact .notFound hc hpc
      · cases h
    · cases h
  | test i =>
    simp only [advance] at h
    split at h
    · next c hc =>
      split at h
      · next hpc =>
        cases h
        cases hb : s.blockWrites with
        | true => exact .reject hc hpc hb
        | false => exact .pass hc hpc hb
      · cases h
    · cases h
  | send i =>
    simp only [advance] at h
    split at h
    · next c hc =>
      split at h
      · next hpc =>
        split_ifs at h with hcl
        · exact some.inj h ▸ .sendClosed hc hpc hcl
        · obtain ⟨l, hl, rfl⟩ := map_eq_some_iff.mp h
          exact .send hc hpc (Bool.eq_false_iff.mpr hcl) hl
      · cases h
    · cases h
  | answer i =>
    simp only [advance] at h
    split at h
    · next c hc =>
      split at h
      · next k hpc =>
        split at h
        · next x hx => exact some.inj h ▸ .answer hc hpc hx
        · cases h
      · cases h
    · cases h
  | loop b =>
    simp only [advance] at h
    split_ifs at h with hb
    obtain ⟨l, hl, rfl⟩ := map_eq_some_iff.mp h
    exact .loop hb hl
  | close | signal | waited | closeCh | handOver empty | finish =>
    simp only [advance] at h
    split at h <;> cases h
    constructor <;> assumption

end Shutdown

end Autumn
