import Autumn.RangePartition.Machine

/-!
# The write loop

`doWrites` collects requests from `writeCh` into batches and hands each batch to `writeRequests`,
which runs in a goroutine of its own.  The channel `pendingCh` has room for one token: it is put in
before a batch is handed over, and the goroutine takes it out when it is done.

The loop is a machine with one program point for each `select`, each blocking send and each jump
target (`Pc`).  Which ready case of a `select` is taken, when requests arrive, when the stop is
signalled and when a goroutine moves on are choices of the run.
-/

namespace Autumn

open Lib Y List Option

/-- `request`. -/
structure Request where
  entries : List Entry
  deriving DecidableEq, Repr

/-- `request.Size`. -/
def Request.size (r : Request) : ℕ := (r.entries.map Entry.size).sum

namespace DoWrites

/-- The loop of `isReqsTooBig`, with the bytes and the entries counted so far. -/
def tooBigFrom : ℕ → ℕ → List Request → Bool
  | _, _, [] => false
  | size, n, r :: reqs =>
    if size + r.size > 30 * 1048576 then true
    else if n + r.entries.length > 3 * writeChCapacity then true
    else tooBigFrom (size + r.size) (n + r.entries.length) reqs

/-- `isReqsTooBig`. -/
def isReqsTooBig (reqs : List Request) : Bool := tooBigFrom 0 0 reqs

variable {ε : Type}

/-- What the calls in `writeRequests` return: `writeValueLog`, the last `ensureRoomForWrite`, and
`writeToLSM` for each request. -/
structure Outcome (ε : Type) where
  log : Option ε
  room : Option ε
  lsm : ℕ → Option ε

/-- The first error of the loop over `writeToLSM`. -/
def Outcome.lsmErr (o : Outcome ε) (reqs : List Request) : Option ε :=
  (List.range reqs.length).findSome? o.lsm

/-- The error of a batch. -/
def Outcome.err (o : Outcome ε) (reqs : List Request) : Option ε :=
  match o.log with
  | some err => some err
  | none =>
    match o.room with
    | some err => some err
    | none => o.lsmErr reqs

/-- The closure `done`: every request gets the error, and its waiter goes on. -/
def done (reqs : List Request) (err : Option ε) : List (Request × Option ε) :=
  reqs.map fun r => (r, err)

/-- `writeRequests`: what is told to whom.  The error it returns is only logged. -/
def writeRequests (reqs : List Request) (o : Outcome ε) : List (Request × Option ε) :=
  if reqs.length = 0 then []
  else
    match o.log with
    | some err => done reqs (some err)
    | none =>
      match o.room with
      | some err => done reqs (some err)
      | none =>
        match o.lsmErr reqs with
        | some err => done reqs (some err)
        | none => done reqs none

theorem writeRequests_eq (reqs : List Request) (o : Outcome ε) :
    writeRequests reqs o = done reqs (o.err reqs) := by
  unfold writeRequests Outcome.err
  split_ifs with h
  · rw [length_eq_zero_iff.mp h]
    rfl
  · cases o.log with
    | some err => rfl
    | none =>
      cases o.room with
      | some err => rfl
      | none => cases o.lsmErr reqs <;> rfl

/-- Where `doWrites` is. -/
inductive Pc where
  /-- The first `select`. -/
  | outer
  /-- Behind the append to `reqs`, before `isReqsTooBig`. -/
  | check
  /-- The second `select`. -/
  | inner
  /-- The `select` behind `closedCase`. -/
  | closed
  /-- The same check behind `closedCase`. -/
  | closedCheck
  /-- The blocking send of the token for a batch that is too big. -/
  | pushing
  /-- `writeCase`. -/
  | writeCase
  /-- The blocking send of the token before the last batch. -/
  | lastPush
  /-- Before the call of `writeRequests` in the `default` case. -/
  | lastCase
  /-- In that call. -/
  | lastWait
  | returned
  deriving DecidableEq, Repr

/-- A call of the closure `writeRequests`.  `inline` is the one `doWrites` makes itself, `wrote`
says that only the receive from `pendingCh` is left. -/
structure Worker where
  reqs : List Request
  inline : Bool
  wrote : Bool
  deriving DecidableEq, Repr

end DoWrites

open DoWrites in
/-- `doWrites` with its channels and goroutines.  The last three fields are bookkeeping: the
requests taken from `writeCh`, the batches handed over, and the finished batches with their
errors. -/
structure DoWrites (ε : Type) where
  pc : Pc := .outer
  reqs : List Request := []
  writeCh : List Request := []
  stop : Bool := false
  pendingCh : ℕ := 0
  workers : List Worker := []
  signalled : List (Request × Option ε) := []
  received : List Request := []
  handed : List (List Request) := []
  finished : List (List Request × Option ε) := []

namespace DoWrites

variable {ε : Type} {pc : Pc}

/-- What can happen next. -/
inductive Act (ε : Type) where
  /-- A caller sends a request. -/
  | arrive (r : Request)
  /-- `writeStopper.Stop`. -/
  | signal
  /-- `case r = <-rp.writeCh`. -/
  | recv
  /-- `case <-rp.writeStopper.ShouldStop()`. -/
  | stopped
  /-- `default`. -/
  | otherwise
  /-- `isReqsTooBig`. -/
  | check
  /-- `pendingCh <- struct{}{}`, as a case of the second `select` or for itself. -/
  | token
  /-- The batch is handed over. -/
  | hand
  /-- A call of `rp.writeRequests` returns. -/
  | wrote (i : ℕ) (o : Outcome ε)
  /-- `<-pendingCh`. -/
  | release (i : ℕ)

/-- The request at the head of `writeCh` joins the batch. -/
def take (s : DoWrites ε) (pc : Pc) : Option (DoWrites ε) :=
  match s.writeCh with
  | [] => none
  | r :: rest => some { s with
      pc := pc, writeCh := rest, reqs := s.reqs ++ [r], received := s.received ++ [r] }

/-- A token is put into `pendingCh`. -/
def put (s : DoWrites ε) (pc : Pc) : Option (DoWrites ε) :=
  if s.pendingCh < 1 then some { s with pc := pc, pendingCh := s.pendingCh + 1 } else none

/-- The batch goes to a call of `writeRequests`. -/
def start (s : DoWrites ε) (pc : Pc) (inline : Bool) : DoWrites ε :=
  { s with
    pc := pc
    reqs := []
    workers := s.workers ++ [⟨s.reqs, inline, false⟩]
    handed := s.handed ++ [s.reqs] }

def step (s : DoWrites ε) : Act ε → Option (DoWrites ε)
  | .arrive r =>
    if s.writeCh.length < writeChCapacity then some { s with writeCh := s.writeCh ++ [r] } else none
  | .signal => some { s with stop := true }
  | .recv =>
    match s.pc with
    | .outer => s.take .check
    | .inner => s.take .check
    | .closed => s.take .closedCheck
    | _ => none
  | .stopped =>
    match s.pc, s.stop with
    | .outer, true => some { s with pc := .closed }
    | .inner, true => some { s with pc := .closed }
    | _, _ => none
  | .otherwise =>
    match s.pc, s.writeCh with
    | .closed, [] => some { s with pc := .lastPush }
    | _, _ => none
  | .check =>
    match s.pc with
    | .check => some { s with pc := if isReqsTooBig s.reqs then .pushing else .inner }
    | .closedCheck => some { s with pc := if isReqsTooBig s.reqs then .pushing else .closed }
    | _ => none
  | .token =>
    match s.pc with
    | .inner => s.put .writeCase
    | .pushing => s.put .writeCase
    | .lastPush => s.put .lastCase
    | _ => none
  | .hand =>
    match s.pc with
    | .writeCase => some (s.start .outer false)
    | .lastCase => some (s.start .lastWait true)
    | _ => none
  | .wrote i o =>
    match s.workers[i]? with
    | some ⟨reqs, inline, false⟩ => some { s with
        workers := s.workers.set i ⟨reqs, inline, true⟩
        signalled := s.signalled ++ writeRequests reqs o
        finished := s.finished ++ [(reqs, o.err reqs)] }
    | _ => none
  | .release i =>
    match s.workers[i]? with
    | some ⟨_, inline, true⟩ =>
      if 0 < s.pendingCh then some { s with
        pc := if inline then .returned else s.pc
        workers := s.workers.eraseIdx i
        pendingCh := s.pendingCh - 1 }
      else none
    | _ => none

/-- The calls of `rp.writeRequests` that are under way. -/
def writing (s : DoWrites ε) : List Worker := s.workers.filter fun w => !w.wrote

/-- The requests that callers have sent. -/
def arrivals (as : List (Act ε)) : List Request :=
  as.filterMap fun
    | .arrive r => some r
    | _ => none

/-! ## The invariant -/

/-- The token for the next batch is in `pendingCh`, and the batch is not handed over yet. -/
def Pc.holdsToken : Pc → Bool
  | .writeCase | .lastCase => true
  | _ => false

/-- `doWrites` has not begun its last batch. -/
def Pc.collects : Pc → Bool
  | .lastWait | .returned => false
  | _ => true

/-- The program points that receive from `writeCh`. -/
def Pc.receives : Pc → Bool
  | .outer | .inner | .closed => true
  | _ => false

theorem Pc.ne_lastWait (h : pc.collects = true) : pc ≠ .lastWait := by
  rintro rfl
  exact absurd h (by decide)

theorem Pc.ne_returned (h : pc.collects = true) : pc ≠ .returned := by
  rintro rfl
  exact absurd h (by decide)

/-- What holds in every state of the loop. -/
structure Inv (s : DoWrites ε) : Prop where
  /-- Each token belongs to a goroutine or to the batch about to be handed over. -/
  tokens : s.pendingCh = s.workers.length + if s.pc.holdsToken then 1 else 0
  one : s.pendingCh ≤ 1
  conserved : s.handed.flatten ++ s.reqs = s.received
  batches : s.handed = s.finished.map Prod.fst ++ s.writing.map Worker.reqs
  told : s.signalled = s.finished.flatMap fun b => done b.1 b.2
  /-- Only the last batch is written by `doWrites` itself. -/
  inline : ∀ w ∈ s.workers, w.inline = true → s.pc = .lastWait
  last : s.pc = .lastWait → s.reqs = []
  ended : s.pc = .returned → s.reqs = [] ∧ s.workers = []

theorem inv_init : Inv ({} : DoWrites ε) where
  tokens := rfl
  one := Nat.zero_le 1
  conserved := rfl
  batches := rfl
  told := rfl
  inline := fun _ h => absurd h not_mem_nil
  last := nofun
  ended := nofun

section

variable {s s' : DoWrites ε} {i : ℕ}

section

variable (hI : Inv s)
include hI

/-- There is one goroutine at most. -/
theorem Inv.workers_eq {w : Worker} (h : s.workers[i]? = some w) : i = 0 ∧ s.workers = [w] := by
  have hlen : s.workers.length ≤ 1 := by
    have := hI.tokens
    have := hI.one
    omega
  obtain ⟨hi, hw⟩ := List.getElem?_eq_some_iff.mp h
  have hi0 : i = 0 := by omega
  obtain ⟨v, hv⟩ := length_eq_one_iff.mp (by omega : s.workers.length = 1)
  refine ⟨hi0, ?_⟩
  subst hi0
  simp only [hv, getElem_cons_zero] at hw
  rw [hv, hw]

theorem Inv.jump (h : pc.holdsToken = s.pc.holdsToken) (hs : s.pc.collects = true)
    (hp : pc.collects = true) : Inv { s with pc := pc } :=
  { hI with
    tokens := by rw [hI.tokens, ← h]
    inline := fun w hw hin => absurd (hI.inline w hw hin) (Pc.ne_lastWait hs)
    last := fun h => absurd h (Pc.ne_lastWait hp)
    ended := fun h => absurd h (Pc.ne_returned hp) }

theorem Inv.take (ht : s.take pc = some s') (h : pc.holdsToken = s.pc.holdsToken)
    (hs : s.pc.collects = true) (hp : pc.collects = true) : Inv s' := by
  unfold DoWrites.take at ht
  cases hch : s.writeCh with
  | nil => simp [hch] at ht
  | cons r rest =>
    simp only [hch, some_inj] at ht
    subst ht
    have hJ := hI.jump h hs hp
    exact { hJ with
      conserved := by rw [← hI.conserved, append_assoc]
      last := fun h => absurd h (Pc.ne_lastWait hp)
      ended := fun h => absurd h (Pc.ne_returned hp) }

theorem Inv.put (ht : s.put pc = some s') (h : pc.holdsToken = true) (h0 : s.pc.holdsToken = false)
    (hs : s.pc.collects = true) (hp : pc.collects = true) : Inv s' := by
  unfold DoWrites.put at ht
  split_ifs at ht with hroom
  cases ht
  have htok := hI.tokens
  rw [h0] at htok
  exact {
    tokens := by simp only [h, if_true]; simpa using htok
    one := hroom
    conserved := hI.conserved
    batches := hI.batches
    told := hI.told
    inline := fun w hw hin => absurd (hI.inline w hw hin) (Pc.ne_lastWait hs)
    last := fun h => absurd h (Pc.ne_lastWait hp)
    ended := fun h => absurd h (Pc.ne_returned hp) }

theorem Inv.start {inline : Bool} (h0 : s.pc.holdsToken = true) (h : pc.holdsToken = false)
    (hs : s.pc.collects = true) (h2 : pc ≠ .returned) (hin : inline = true → pc = .lastWait) :
    Inv (s.start pc inline) := by
  have htok := hI.tokens
  rw [h0] at htok
  exact {
    tokens := by simp [DoWrites.start, h, htok]
    one := hI.one
    conserved := by simp [DoWrites.start, ← hI.conserved]
    batches := by simp [DoWrites.start, writing, hI.batches]
    told := hI.told
    inline := fun w hw hwin => by
      simp only [DoWrites.start, mem_append, mem_singleton] at hw
      obtain hw | rfl := hw
      · exact absurd (hI.inline w hw hwin) (Pc.ne_lastWait hs)
      · exact hin hwin
    last := fun _ => rfl
    ended := fun h => absurd h h2 }

theorem Inv.wrote {o : Outcome ε} (h : step s (.wrote i o) = some s') : Inv s' := by
  simp only [step] at h
  split at h
  · rename_i reqs inline hw
    obtain ⟨rfl, hws⟩ := hI.workers_eq hw
    cases h
    have hover : s.pc ≠ .returned := fun hpc => by
      rw [(hI.ended hpc).2] at hws
      cases hws
    exact {
      tokens := by simpa using hI.tokens
      one := hI.one
      conserved := hI.conserved
      batches := by simp [hI.batches, writing, hws]
      told := by simp [hI.told, writeRequests_eq]
      inline := fun w hmem hin => by
        simp only [hws, set_cons_zero, mem_singleton] at hmem
        subst hmem
        exact hI.inline ⟨reqs, inline, false⟩ (by simp [hws]) hin
      last := hI.last
      ended := fun h => absurd h hover }
  · cases h

theorem Inv.release (h : step s (.release i) = some s') : Inv s' := by
  simp only [step] at h
  split at h
  · rename_i reqs inline hw
    obtain ⟨rfl, hws⟩ := hI.workers_eq hw
    by_cases hpos : 0 < s.pendingCh
    swap
    · exact absurd h (by simp [hpos])
    rw [if_pos hpos] at h
    cases h
    have htok := hI.tokens
    have hone := hI.one
    rw [hws, length_singleton] at htok
    -- The token in the channel is the one of this goroutine.
    have hno : s.pc.holdsToken = false := by
      cases hh : s.pc.holdsToken with
      | false => rfl
      | true =>
        rw [hh] at htok
        simp only [if_true] at htok
        omega
    have hret : Pc.returned.holdsToken = false := rfl
    have hin : inline = true → s.pc = .lastWait :=
      fun hin => hI.inline ⟨reqs, inline, true⟩ (by simp [hws]) hin
    rw [hno] at htok
    exact {
      tokens := by cases inline <;> simp [hws, htok, hno, hret]
      one := (Nat.sub_le _ _).trans hone
      conserved := hI.conserved
      batches := by simp [hI.batches, writing, hws]
      told := hI.told
      inline := fun w hmem _ => absurd hmem (by simp [hws])
      last := fun h => by
        cases inline with
        | true => cases h
        | false => exact hI.last h
      ended := fun h => ⟨by
        cases inline with
        | true => exact hI.last (hin rfl)
        | false => exact (hI.ended h).1, by simp [hws]⟩ }
  · cases h

theorem Inv.step {a : Act ε} (h : step s a = some s') : Inv s' := by
  cases a with
  | arrive r =>
    simp only [DoWrites.step] at h
    split_ifs at h
    cases h
    exact { hI with }
  | signal =>
    simp only [DoWrites.step, some_inj] at h
    subst h
    exact { hI with }
  | recv =>
    simp only [DoWrites.step] at h
    split at h
    case h_4 => cases h
    all_goals
      rename_i hpc
      exact hI.take h (by rw [hpc]; rfl) (by rw [hpc]; rfl) rfl
  | stopped | otherwise =>
    simp only [DoWrites.step] at h
    split at h <;> cases h
    all_goals
      rename_i hpc _
      exact hI.jump (by rw [hpc]; rfl) (by rw [hpc]; rfl) rfl
  | check =>
    simp only [DoWrites.step] at h
    split at h <;> cases h
    all_goals
      rename_i hpc
      refine hI.jump ?_ (by rw [hpc]; rfl) ?_ <;> split_ifs <;> first | rfl | rw [hpc]; rfl
  | token =>
    simp only [DoWrites.step] at h
    split at h
    case h_4 => cases h
    all_goals
      rename_i hpc
      exact hI.put h rfl (by rw [hpc]; rfl) (by rw [hpc]; rfl) rfl
  | hand =>
    simp only [DoWrites.step] at h
    split at h
    · next hpc =>
      cases h
      exact hI.start (by rw [hpc]; rfl) rfl (by rw [hpc]; rfl) nofun nofun
    · next hpc =>
      cases h
      exact hI.start (by rw [hpc]; rfl) rfl (by rw [hpc]; rfl) nofun fun _ => rfl
    · cases h
  | wrote i o => exact hI.wrote h
  | release i => exact hI.release h

end

theorem inv_of_exec {as : List (Act ε)} (h : exec step {} as = some s) : Inv s :=
  exec_invariant_of_step (fun _ _ _ hI h => Inv.step hI h) inv_init h

theorem received_step {a : Act ε} (h : step s a = some s') :
    s'.received ++ s'.writeCh = s.received ++ s.writeCh ++ arrivals [a] := by
  cases a <;> simp only [step, take, put] at h <;> (repeat' split at h) <;>
    simp only [reduceCtorEq, some_inj] at h <;> subst h <;> simp_all [arrivals, start]

theorem received_of_exec {as : List (Act ε)} (h : exec step {} as = some s) :
    s.received ++ s.writeCh = arrivals as :=
  exec_trace (G := fun _ _ => True) (I := fun p s => s.received ++ s.writeCh = arrivals p) (p := [])
    (fun p s a s' hp _ h => by
      rw [received_step h, hp]
      simp only [arrivals, filterMap_append])
    rfl (Guarded.of_forall (fun _ _ => trivial) _ as) h

end

/-! ## The law of batching -/

/-- **Batching loses, doubles and reorders nothing.**  After every run one batch at most is being
written; the batches handed over and the batch in hand are the requests received, in order; a
request is told the error of its batch when `writeRequests` is through with it.  When `doWrites` has
returned, every request received has been told, once. -/
theorem batches_lossless {as : List (Act ε)} {s : DoWrites ε} (h : exec step {} as = some s) :
    s.writing.length ≤ 1 ∧
      s.received ++ s.writeCh = arrivals as ∧
      s.handed.flatten ++ s.reqs = s.received ∧
      s.signalled = s.finished.flatMap (fun b => done b.1 b.2) ∧
      (s.pc = .returned → s.handed.flatten = s.received ∧ s.finished.map Prod.fst = s.handed ∧
        s.signalled.map Prod.fst = s.received) := by
  have hI := inv_of_exec h
  refine ⟨?_, received_of_exec h, hI.conserved, hI.told, fun hpc => ?_⟩
  · have hle : s.writing.length ≤ s.workers.length := length_filter_le _ _
    have := hI.tokens
    have := hI.one
    omega
  · obtain ⟨hreqs, hworkers⟩ := hI.ended hpc
    have hall : s.handed.flatten = s.received := by rw [← hI.conserved, hreqs, append_nil]
    have hfin : s.finished.map Prod.fst = s.handed := by
      rw [hI.batches, writing, hworkers]
      simp
    refine ⟨hall, hfin, ?_⟩
    rw [hI.told, ← hall, ← hfin]
    simp [done, Function.comp_def, flatMap_def]

/-- Three requests: the second arrives while the first is being written, the third is found by the
drain loop, and the second batch fails. -/
theorem batches_lossless_threeRequests :
    let r : ℕ → Request := fun n => ⟨[writeEntry [] [] n]⟩
    let as : List (Act String) :=
      [.arrive (r 1), .recv, .check, .token, .hand, .arrive (r 2), .recv, .check, .arrive (r 3),
        .signal, .stopped, .recv, .check, .otherwise, .wrote 0 ⟨none, none, fun _ => none⟩,
        .release 0, .token, .hand, .wrote 0 ⟨some "append", none, fun _ => none⟩, .release 0]
    ∃ s, exec step {} as = some s ∧ s.pc = .returned ∧ s.handed = [[r 1], [r 2, r 3]] ∧
      s.signalled = [(r 1, none), (r 2, some "append"), (r 3, some "append")] ∧
      s.signalled.map Prod.fst = s.received := by
  intro r as
  refine ⟨_, rfl, rfl, rfl, rfl, ?_⟩
  exact ((@batches_lossless String as _ rfl).2.2.2.2 rfl).2.2

end DoWrites

end Autumn
