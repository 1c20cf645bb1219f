import Autumn.RangePartition.Shutdown

/-!
# When the shutdown answers every writer

The test of `blockWrites` and the send of a request are two steps, and nothing keeps `Close` from
running in between.  If it does not run so far that `doWrites` finds the channel empty, then all is
well.
-/

namespace Autumn

open Lib List Option

namespace Shutdown

variable {ε : Type}

/-! ## When it does not -/

/-- Nobody stands between the test and the send when `doWrites` finds the channel empty, and nobody
starts a `Delete` when the memtable is gone. -/
def Quiet (s : Shutdown ε) : Act ε → Prop
  | .loop .otherwise => ∀ c ∈ s.callers, c.isSending = false
  | .call .delete _ => s.mtNil = false
  | _ => True

instance (s : Shutdown ε) : ∀ a, Decidable (Quiet s a)
  | .loop .otherwise => inferInstanceAs (Decidable (∀ c ∈ s.callers, c.isSending = false))
  | .call .delete _ => inferInstanceAs (Decidable (s.mtNil = false))
  | .call .write _ | .call .writeAsync _ | .searched _ _ | .test _ | .send _ | .answer _
  | .loop (.arrive _) | .loop .signal | .loop .recv | .loop .stopped | .loop .check | .loop .token
  | .loop .hand | .loop (.wrote _ _) | .loop (.release _)
  | .close | .signal | .waited | .closeCh | .handOver _ | .finish => isTrue trivial

/-- Caller `i` stands where it should: it is among the senders if and only if it has sent, and it
has the answer that belongs to it. -/
def Fits (s : Shutdown ε) (i : ℕ) (c : Caller ε) : Prop :=
  match c.pc with
  | .waiting k => s.sent[k]? = some i
  | .answered (.outcome err) =>
    ∃ k : ℕ, s.sent[k]? = some i ∧ s.loop.signalled[k]? = some (c.req, err)
  | .searching | .answered .notFound => c.kind = .delete ∧ i ∉ s.sent
  | .testing | .sending | .answered .blocked => i ∉ s.sent

/-- How far `close` is. -/
def Closer.stage : Closer → ℕ
  | .idle => 0
  | .blocked => 1
  | .stopping => 2
  | .stopped => 3
  | .chClosed => 4
  | .flushing => 5
  | .done => 6

/-- What holds along quiet runs. -/
structure Inv (s : Shutdown ε) : Prop where
  loop : DoWrites.Inv s.loop
  rest : DoWrites.Rest s.loop
  alive : s.panicked = false
  /-- The requests in the loop are those of the senders, in order. -/
  order : (s.loop.received ++ s.loop.writeCh).map some =
    s.sent.map fun i => s.callers[i]?.map Caller.req
  nodup : s.sent.Nodup
  fits : ∀ i c, s.callers[i]? = some c → s.Fits i c
  ending : s.loop.pc.ending = true →
    s.loop.writeCh = [] ∧ ∀ c ∈ s.callers, c.isSending = false
  blocked : s.blockWrites = decide (1 ≤ s.closer.stage)
  stop : s.loop.stop = decide (2 ≤ s.closer.stage)
  returned : 3 ≤ s.closer.stage → s.loop.pc = .returned
  closed : s.closed = decide (4 ≤ s.closer.stage)

theorem inv_init : Inv ({} : Shutdown ε) where
  loop := DoWrites.inv_init
  rest := DoWrites.rest_init
  alive := rfl
  order := rfl
  nodup := nodup_nil
  fits := fun i c h => by simp at h
  ending := nofun
  blocked := rfl
  stop := rfl
  returned := nofun
  closed := rfl

section

variable {s s' : Shutdown ε} {a : Act ε} {i k : ℕ} {c : Caller ε} {pc : CallPc ε}

theorem getElem?_of_le {α : Type} {l l' : List α} {x : α} (h : l <+: l') (hk : l[k]? = some x) :
    l'[k]? = some x := by
  obtain ⟨hlt, hx⟩ := List.getElem?_eq_some_iff.mp hk
  rw [prefix_iff_getElem?.mp h k hlt, hx]

/-- Answers and places stay when more requests are sent by others and more is told. -/
theorem Fits.mono (h : s.Fits i c) (hsent : s.sent <+: s'.sent)
    (htold : s.loop.signalled <+: s'.loop.signalled) (hi : i ∉ s.sent → i ∉ s'.sent) :
    s'.Fits i c := by
  unfold Fits at h ⊢
  split at h
  · exact getElem?_of_le hsent h
  · obtain ⟨k, h1, h2⟩ := h
    exact ⟨k, getElem?_of_le hsent h1, getElem?_of_le htold h2⟩
  · exact ⟨h.1, hi h.2⟩
  · exact ⟨h.1, hi h.2⟩
  · exact hi h
  · exact hi h
  · exact hi h

theorem Inv.caller_of_sent (hI : Inv s) (hi : i ∈ s.sent) : ∃ c, s.callers[i]? = some c := by
  have hmem : s.callers[i]?.map Caller.req ∈ (s.loop.received ++ s.loop.writeCh).map some := by
    rw [hI.order]
    exact mem_map_of_mem hi
  obtain ⟨r, -, hr⟩ := mem_map.mp hmem
  obtain ⟨c, hc, -⟩ := map_eq_some_iff.mp hr.symm
  exact ⟨c, hc⟩

theorem Inv.request_at (hI : Inv s) (hc : s.callers[i]? = some c) (hk : s.sent[k]? = some i) :
    (s.loop.received ++ s.loop.writeCh)[k]? = some c.req := by
  have h := congrArg (fun l => l[k]?) hI.order
  simp only [getElem?_map, hk, map_some, hc] at h
  obtain ⟨r, hr, hrc⟩ := map_eq_some_iff.mp h
  rw [hr, some.inj hrc]

theorem goto_req (hc : s.callers[i]? = some c) (pc : CallPc ε) (j : ℕ) :
    ((s.goto i c pc).callers[j]?).map Caller.req = (s.callers[j]?).map Caller.req := by
  simp only [goto, getElem?_set]
  split_ifs with hij hlen
  · rw [← hij, hc]
    rfl
  · rw [← hij, getElem?_eq_none (by omega)]
  · rfl

theorem goto_cases {j : ℕ} {d : Caller ε} (hd : (s.goto i c pc).callers[j]? = some d) :
    j = i ∧ d = { c with pc := pc } ∨ j ≠ i ∧ s.callers[j]? = some d := by
  simp only [goto, getElem?_set] at hd
  split_ifs at hd with hij
  · exact Or.inl ⟨hij.symm, (some.inj hd).symm⟩
  · exact Or.inr ⟨fun h => hij h.symm, hd⟩

theorem isSending_goto (hpc : pc ≠ .sending) (h : ∀ d ∈ s.callers, d.isSending = false) :
    ∀ d ∈ (s.goto i c pc).callers, d.isSending = false := by
  intro d hd
  obtain hd | rfl := mem_or_eq_of_mem_set hd
  · exact h d hd
  · cases pc <;> simp_all [Caller.isSending]

section

variable (hI : Inv s)
include hI

theorem Inv.goto (hc : s.callers[i]? = some c) (hfits : s.Fits i { c with pc := pc })
    (hpc : s.loop.pc.ending = true → pc ≠ .sending) : Inv (s.goto i c pc) :=
  { hI with
    order := by
      rw [show (s.goto i c pc).loop = s.loop from rfl, hI.order]
      exact map_congr_left fun j _ => (goto_req hc pc j).symm
    fits := fun j d hd => by
      obtain ⟨rfl, rfl⟩ | ⟨-, hd⟩ := goto_cases hd
      · exact hfits
      · exact hI.fits j d hd
    ending := fun he => ⟨(hI.ending he).1, isSending_goto (hpc he) (hI.ending he).2⟩ }

theorem Inv.call {d : Caller ε} (hfits : s.Fits s.callers.length d) (hd : d.isSending = false) :
    Inv { s with callers := s.callers ++ [d] } :=
  { hI with
    order := by
      rw [hI.order]
      refine map_congr_left fun j hj => ?_
      obtain ⟨c, hc⟩ := hI.caller_of_sent hj
      rw [List.getElem?_append_left (List.getElem?_eq_some_iff.mp hc).1]
    fits := fun j e he => by
      rw [getElem?_append] at he
      split_ifs at he with hj
      · exact hI.fits j e he
      · obtain ⟨h0, hed⟩ := List.getElem?_eq_some_iff.mp he
        have hjl : j = s.callers.length := by
          simp only [length_singleton] at h0
          omega
        simp only [getElem_singleton] at hed
        subst hed hjl
        exact hfits
    ending := fun he => ⟨(hI.ending he).1, forall_mem_concat (hI.ending he).2 hd⟩ }

theorem Inv.not_sent : s.callers.length ∉ s.sent := fun h => by
  obtain ⟨c, hc⟩ := hI.caller_of_sent h
  simp at hc

theorem Inv.loopStep {b : DoWrites.Act ε} {l : DoWrites ε} (hb : b.own = true)
    (hq : Quiet s (.loop b)) (hl : DoWrites.step s.loop b = some l) : Inv { s with loop := l } :=
  { hI with
    loop := hI.loop.step hl
    rest := DoWrites.Rest.step hI.loop hI.rest hl
    order := by rw [DoWrites.received_of_own hb hl]; exact hI.order
    fits := fun j d hd => (hI.fits j d hd).mono (prefix_refl _)
      (DoWrites.signalled_grows hl) id
    ending := fun he => by
      obtain ⟨hbefore, hch, -⟩ := DoWrites.ending_of_own hI.loop hb hl he
      rw [hch]
      obtain he | ⟨rfl, hempty⟩ := hbefore
      · exact hI.ending he
      · exact ⟨hempty, hq⟩
    stop := (DoWrites.stop_of_own hb hl).trans hI.stop
    returned := fun hst => by
      rw [DoWrites.not_own_of_returned hI.loop (hI.returned hst) hb] at hl
      cases hl }

theorem Inv.send {l : DoWrites ε} (hc : s.callers[i]? = some c) (hpc : c.pc = .sending)
    (hl : DoWrites.step s.loop (.arrive c.req) = some l) :
    Inv { s.goto i c (.waiting s.sent.length) with loop := l, sent := s.sent ++ [i] } := by
  have hi : i ∉ s.sent := by
    have := hI.fits i c hc
    simpa only [Fits, hpc] using this
  have hnot : s.loop.pc.ending = false := by
    cases he : s.loop.pc.ending with
    | false => rfl
    | true =>
      have := (hI.ending he).2 c (mem_of_getElem? hc)
      simp [Caller.isSending, hpc] at this
  have hrec := DoWrites.received_step hl
  have hstep := hl
  simp only [DoWrites.step] at hl
  split_ifs at hl
  cases hl
  exact {
    loop := hI.loop.step hstep
    rest := DoWrites.Rest.step hI.loop hI.rest hstep
    alive := hI.alive
    order := by
      rw [hrec, map_append, hI.order, map_append, map_singleton, goto_req hc, hc]
      simp only [goto_req hc]
      rfl
    nodup := by
      rw [nodup_append_comm, singleton_append, nodup_cons]
      exact ⟨hi, hI.nodup⟩
    fits := fun j d hd => by
      obtain ⟨rfl, rfl⟩ | ⟨hji, hd⟩ := goto_cases hd
      · simp [Fits]
      · refine (hI.fits j d hd).mono (prefix_append _ _) (prefix_refl _) fun hj => ?_
        simp only [mem_append, mem_singleton, not_or]
        exact ⟨hj, hji⟩
    ending := fun he => absurd (hnot.symm.trans he) (by simp)
    blocked := hI.blocked
    stop := hI.stop
    returned := hI.returned
    closed := hI.closed }

theorem Inv.outcome_fits {x : Request × Option ε} (hc : s.callers[i]? = some c)
    (hpc : c.pc = .waiting k) (hx : s.loop.signalled[k]? = some x) :
    s.Fits i { c with pc := .answered (.outcome x.2) } := by
  have hk : s.sent[k]? = some i := by
    have := hI.fits i c hc
    simpa only [Fits, hpc] using this
  have hle : s.loop.signalled.map Prod.fst <+: s.loop.received ++ s.loop.writeCh :=
    hI.loop.signalled_le.trans (prefix_append _ _)
  have hreq : x.1 = c.req := by
    have h1 : (s.loop.signalled.map Prod.fst)[k]? = some x.1 := by
      rw [getElem?_map, hx, map_some]
    exact some.inj ((getElem?_of_le hle h1).symm.trans (hI.request_at hc hk))
  exact ⟨k, hk, by rw [hx, ← hreq]⟩

/-- A step of `close` that leaves callers and loop alone. -/
theorem Inv.closing {closer : Closer} {block closed mtNil : Bool}
    (hb : block = decide (1 ≤ closer.stage)) (hs : s.loop.stop = decide (2 ≤ closer.stage))
    (hr : 3 ≤ closer.stage → s.loop.pc = .returned) (hcl : closed = decide (4 ≤ closer.stage)) :
    Inv { s with blockWrites := block, closed := closed, mtNil := mtNil, closer := closer } :=
  { hI with
    blocked := hb
    stop := hs
    returned := hr
    closed := hcl }

theorem Inv.signal (hcl : s.closer = .blocked) :
    Inv { s with loop := { s.loop with stop := true }, closer := .stopping } :=
  { hI with
    loop := { hI.loop with }
    rest := ⟨hI.rest.outer, hI.rest.lastWait, fun _ => rfl⟩
    blocked := by rw [hI.blocked, hcl]; rfl
    stop := rfl
    returned := fun h => absurd (show 3 ≤ 2 from h) (by decide)
    closed := by rw [hI.closed, hcl]; rfl }

/-- The loop comes to its end only after `Close` has blocked the writes. -/
theorem Inv.blocked_of_ending (he : s.loop.pc.ending = true) : s.blockWrites = true := by
  have hpast : s.loop.pc.pastStop = true := by
    revert he
    cases s.loop.pc <;> simp [DoWrites.Pc.ending, DoWrites.Pc.pastStop]
  have h2 := of_decide_eq_true (hI.stop.symm.trans (hI.rest.stop hpast))
  rw [hI.blocked]
  exact decide_eq_true (by omega)

/-- Nobody is about to send when the channel is closed. -/
theorem Inv.not_closed (hc : s.callers[i]? = some c) (hpc : c.pc = .sending) :
    s.closed = false := by
  cases hcl : s.closed with
  | false => rfl
  | true =>
    have h4 := of_decide_eq_true (hI.closed.symm.trans hcl)
    have he : s.loop.pc.ending = true := by
      rw [hI.returned (by omega)]
      rfl
    have := (hI.ending he).2 c (mem_of_getElem? hc)
    simp [Caller.isSending, hpc] at this

theorem Inv.step (hq : Quiet s a) (h : step s a = some s') : Inv s' := by
  cases (effect_of_step h).2 with
  | @call d hd =>
    obtain hd | ⟨hd, hkind⟩ := hd
    · exact hI.call (by simpa only [Fits, hd] using hI.not_sent) (by simp [Caller.isSending, hd])
    · exact hI.call (by simpa only [Fits, hd] using ⟨hkind, hI.not_sent⟩)
        (by simp [Caller.isSending, hd])
  | deleteNil hnil => cases hnil.symm.trans hq
  | found hc hpc =>
    have hfits := hI.fits _ _ hc
    simp only [Fits, hpc] at hfits
    exact hI.goto hc hfits.2 fun _ => nofun
  | notFound hc hpc | reject hc hpc hb =>
    have hfits := hI.fits _ _ hc
    simp only [Fits, hpc] at hfits
    exact hI.goto hc hfits fun _ => nofun
  | pass hc hpc hb =>
    have hfits := hI.fits _ _ hc
    simp only [Fits, hpc] at hfits
    exact hI.goto hc hfits fun he => absurd (hb.symm.trans (hI.blocked_of_ending he)) (by simp)
  | sendClosed hc hpc hcl => cases hcl.symm.trans (hI.not_closed hc hpc)
  | send hc hpc _ hl => exact hI.send hc hpc hl
  | answer hc hpc hx => exact hI.goto hc (hI.outcome_fits hc hpc hx) fun _ => nofun
  | loop hb hl => exact hI.loopStep hb hq hl
  | close hcl =>
    refine hI.closing rfl ?_ (fun h => absurd h (by decide)) ?_
    · rw [hI.stop, hcl]; rfl
    · rw [hI.closed, hcl]; rfl
  | signal hcl => exact hI.signal hcl
  | waited hcl hret =>
    refine hI.closing ?_ ?_ (fun _ => hret) ?_
    · rw [hI.blocked, hcl]; rfl
    · rw [hI.stop, hcl]; rfl
    · rw [hI.closed, hcl]; rfl
  | closeCh hcl =>
    refine hI.closing ?_ ?_ (fun _ => hI.returned (by rw [hcl]; decide)) rfl
    · rw [hI.blocked, hcl]; rfl
    · rw [hI.stop, hcl]; rfl
  | handOver hcl | finish hcl =>
    refine hI.closing ?_ ?_ (fun _ => hI.returned (by rw [hcl]; decide)) ?_
    · rw [hI.blocked, hcl]; rfl
    · rw [hI.stop, hcl]; rfl
    · rw [hI.closed, hcl]; rfl

end

/-! ## Everybody gets an answer -/

/-- What a caller has in front of it.  A send adds a request to the channel. -/
def Caller.rank (c : Caller ε) : ℕ :=
  match c.pc with
  | .searching => 11
  | .testing => 10
  | .sending => 9
  | .waiting _ => 1
  | .answered _ => 0

/-- A bound for the steps left, apart from new calls. -/
def cost (s : Shutdown ε) : ℕ :=
  s.loop.cost + (s.callers.map Caller.rank).sum + (6 - s.closer.stage)

theorem sum_map_set {α : Type} (f : α → ℕ) {l : List α} {i : ℕ} {x : α} (h : l[i]? = some x)
    (y : α) : ((l.set i y).map f).sum + f x = (l.map f).sum + f y := by
  induction l generalizing i with
  | nil => simp at h
  | cons z l ih =>
    cases i with
    | zero =>
      simp only [getElem?_cons_zero, some_inj] at h
      simp only [set_cons_zero, map_cons, sum_cons, h]
      omega
    | succ i =>
      have := ih (i := i) (by simpa using h)
      simp only [set_cons_succ, map_cons, sum_cons]
      omega

theorem cost_goto (hc : s.callers[i]? = some c)
    (hlt : ({ c with pc := pc } : Caller ε).rank < c.rank) : (s.goto i c pc).cost < s.cost := by
  have h := sum_map_set Caller.rank hc { c with pc := pc }
  simp only [cost, goto]
  omega

theorem cost_lt (hI : Inv s) (ha : a.inner = true) (h : step s a = some s') : s'.cost < s.cost := by
  cases (effect_of_step h).2 with
  | call hd | deleteNil hnil | close hcl => cases ha
  | found hc hpc | notFound hc hpc | reject hc hpc hb | pass hc hpc hb | answer hc hpc hx =>
    exact cost_goto hc (by simp [Caller.rank, hpc])
  | sendClosed hc hpc hcl => cases hcl.symm.trans (hI.not_closed hc hpc)
  | @send i c l hc hpc _ hl =>
    have hset := sum_map_set Caller.rank hc { c with pc := .waiting s.sent.length }
    simp only [DoWrites.step] at hl
    split_ifs at hl
    cases hl
    simp only [Caller.rank, hpc] at hset
    simp only [cost, goto, DoWrites.cost, length_append, length_singleton]
    omega
  | loop hb hl =>
    have := DoWrites.cost_lt hI.loop hb hl
    simp only [cost]
    omega
  | signal hcl => simp [cost, hcl, Closer.stage, DoWrites.cost]
  | waited hcl hr | closeCh hcl | handOver hcl | finish hcl => simp [cost, hcl, Closer.stage]

theorem answer_final (hc : s.callers[i]? = some c) (hdone : c.done = true)
    (h : step s a = some s') : s'.callers[i]? = some c := by
  have hgoto : ∀ {j : ℕ} {d : Caller ε} {pc : CallPc ε}, s.callers[j]? = some d →
      d.done = false → (s.goto j d pc).callers[i]? = some c := by
    intro j d pc hd hnot
    have hne : j ≠ i := by
      rintro rfl
      rw [some.inj (hd.symm.trans hc), hdone] at hnot
      cases hnot
    rw [goto, getElem?_set_ne hne, hc]
  cases (effect_of_step h).2 with
  | call hd =>
    rw [List.getElem?_append_left (List.getElem?_eq_some_iff.mp hc).1]
    exact hc
  | found hd hpc | notFound hd hpc | reject hd hpc hb | pass hd hpc hb | answer hd hpc hx
  | send hd hpc _ hl => exact hgoto hd (by simp [Caller.done, hpc])
  | _ => exact hc

theorem Inv.advance_none (hI : Inv s) (h : s.step a = none) : s.advance a = none := by
  simpa only [Shutdown.step, hI.alive, Bool.false_eq_true, if_false] using h

/-- Where quiet steps come to an end: the loop is at rest, `Close` has not begun or has returned,
and every caller has its answer. -/
theorem answered_of_stuck (hI : Inv s)
    (h : ∀ a : Act ε, a.inner = true → Quiet s a → step s a = none) :
    (∀ c ∈ s.callers, c.done = true) ∧ (s.closer = .idle ∨ s.closer = .done) := by
  have hloop : ∀ b : DoWrites.Act ε, b.own = true → Quiet s (.loop b) →
      DoWrites.step s.loop b = none := fun b hb hq => by
    have := hI.advance_none (h (.loop b) rfl hq)
    simpa only [advance, hb, if_true, map_eq_none_iff] using this
  obtain ⟨hw, hrest⟩ := DoWrites.rest_of_stuck hI.loop hI.rest fun b hb hne =>
    hloop b hb (by cases b <;> trivial)
  have hempty : s.loop.writeCh = [] := by
    obtain hpc | ⟨-, hch⟩ | ⟨-, hch, -⟩ := hrest
    · exact (hI.ending (by rw [hpc]; rfl)).1
    · exact hch
    · exact hch
  -- A sender could send.
  have hnone : ∀ c ∈ s.callers, c.isSending = false := by
    intro c hmem
    obtain ⟨i, hc⟩ := mem_iff_getElem?.mp hmem
    cases hs : c.isSending with
    | false => rfl
    | true =>
      have hpc : c.pc = .sending := by
        revert hs
        cases hpc : c.pc <;> simp [Caller.isSending, hpc]
      have := hI.advance_none (h (.send i) rfl trivial)
      simp [advance, hc, hpc, hI.not_closed hc hpc, DoWrites.step, hempty, writeChCapacity] at this
  -- So the loop is not in front of the `default` case, and has nothing in hand.
  have hend : (s.loop.pc = .returned ∨ s.loop.pc = .outer ∧ s.loop.stop = false) ∧
      s.loop.reqs = [] := by
    obtain hpc | ⟨hpc, hch⟩ | ⟨hpc, -, hstop⟩ := hrest
    · exact ⟨Or.inl hpc, (hI.loop.ended hpc).1⟩
    · have := hloop .otherwise rfl hnone
      simp [DoWrites.step, hpc, hch] at this
    · exact ⟨Or.inr ⟨hpc, hstop⟩, hI.rest.outer hpc⟩
  have htold := hI.loop.length_signalled hw hend.2
  constructor
  · intro c hmem
    obtain ⟨i, hc⟩ := mem_iff_getElem?.mp hmem
    cases hpc : c.pc with
    | searching =>
      have := hI.advance_none (h (.searched i false) rfl trivial)
      simp [advance, hc, hpc] at this
    | testing =>
      have := hI.advance_none (h (.test i) rfl trivial)
      simp [advance, hc, hpc] at this
    | sending =>
      have := hnone c hmem
      simp [Caller.isSending, hpc] at this
    | waiting k =>
      have hk : s.sent[k]? = some i := by
        have := hI.fits i c hc
        simpa only [Fits, hpc] using this
      have hreq := hI.request_at hc hk
      rw [hempty, append_nil] at hreq
      have hlt : k < s.loop.signalled.length := by
        rw [htold]
        exact (List.getElem?_eq_some_iff.mp hreq).1
      have := hI.advance_none (h (.answer i) rfl trivial)
      simp [advance, hc, hpc, getElem?_eq_getElem hlt] at this
    | answered x => simp [Caller.done, hpc]
  · cases hcl : s.closer with
    | idle => exact Or.inl rfl
    | done => exact Or.inr rfl
    | blocked =>
      have := hI.advance_none (h .signal rfl trivial)
      simp [advance, hcl, DoWrites.step] at this
    | stopping =>
      have hstop : s.loop.stop = true := by rw [hI.stop, hcl]; rfl
      obtain hpc | ⟨-, hno⟩ := hend.1
      · have := hI.advance_none (h .waited rfl trivial)
        simp [advance, hcl, hpc] at this
      · cases hstop.symm.trans hno
    | stopped =>
      have := hI.advance_none (h .closeCh rfl trivial)
      simp [advance, hcl] at this
    | chClosed =>
      have := hI.advance_none (h (.handOver true) rfl trivial)
      simp [advance, hcl] at this
    | flushing =>
      have := hI.advance_none (h .finish rfl trivial)
      simp [advance, hcl] at this

end

/-- **Shutdown answers every writer** on quiet runs: nobody panics; a caller told `ErrBlockedWrites`
has sent nothing, and one told an outcome has been told that of its request; an answer is final;
every step other than a new call brings the end nearer, and where no such step is left every caller
has its answer and `Close`, if it was called, has returned. -/
theorem shutdown_answers {as : List (Act ε)} {s : Shutdown ε} (h : exec step {} as = some s)
    (hq : Guarded step Quiet {} as) :
    s.panicked = false ∧
      (s.loop.received ++ s.loop.writeCh).map some =
        (s.sent.map fun i => s.callers[i]?.map Caller.req) ∧
      s.sent.Nodup ∧
      (∀ (i : ℕ) (c : Caller ε), s.callers[i]? = some c → s.Fits i c) ∧
      (∀ a s', step s a = some s' →
        ∀ (i : ℕ) (c : Caller ε), s.callers[i]? = some c → c.done = true →
          s'.callers[i]? = some c) ∧
      (∀ a s', a.inner = true → step s a = some s' → s'.cost < s.cost) ∧
      ((∀ a : Act ε, a.inner = true → Quiet s a → step s a = none) →
        (∀ c ∈ s.callers, c.done = true) ∧ (s.closer = .idle ∨ s.closer = .done)) := by
  have hI : Inv s := exec_invariant (fun _ _ _ hI hq h => Inv.step hI hq h) inv_init hq h
  exact ⟨hI.alive, hI.order, hI.nodup, hI.fits, fun _ _ h _ _ hc hd => answer_final hc hd h,
    fun _ _ ha h => cost_lt hI ha h, answered_of_stuck hI⟩

/-- A write and a delete, and a second write that comes too late. -/
theorem shutdown_answers_threeCallers :
    let as : List (Act String) :=
      [.call .write oneWrite, .test 0, .send 0, .call .delete oneWrite, .loop .recv, .loop .check,
        .close, .searched 1 true, .call .writeAsync oneWrite, .test 2, .signal, .test 1,
        .loop .stopped, .loop .otherwise, .loop .token, .loop .hand,
        .loop (.wrote 0 ⟨none, none, fun _ => none⟩), .loop (.release 0), .waited, .answer 0,
        .closeCh, .handOver false, .finish]
    ∃ s, exec step {} as = some s ∧ Guarded step Quiet {} as ∧ s.closer = .done ∧
      s.callers.map Caller.pc =
        [.answered (.outcome none), .answered .blocked, .answered .blocked] ∧
      s.panicked = false ∧ s.sent.Nodup := by
  intro as
  have hq : Guarded step Quiet {} as := by decide
  refine ⟨_, rfl, hq, rfl, rfl, ?_⟩
  have h := @shutdown_answers String as _ rfl hq
  exact ⟨h.1, h.2.2.1⟩

end Shutdown

end Autumn
