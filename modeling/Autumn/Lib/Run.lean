import Mathlib.Data.List.Basic

/-!
# Runs of a labelled partial step function

A system is a function `step : σ → α → Option σ`: in state `s` the action `a` cannot be taken
(`none`) or leads to one state.  Everything nondeterministic is in the list of actions, so a
statement about every interleaving is a statement about every list.

* `exec`: the state after a list of actions, if all of them can be taken.
* `Guarded`: every action of the list meets a condition in the state it is taken in.
* `exec_trace`: the induction rule of the whole development.  An assertion about the actions taken
  so far and the state reached, kept by each guarded step, holds after each guarded run.
* `exec_invariant`: the same for an assertion about the state alone.
* `exec_project`: a run of a system is a run of each of its parts.
-/

namespace Autumn
namespace Lib

variable {σ : Type*} {α : Type*}

/-- The state after the actions `as`, if each of them can be taken in turn. -/
def exec (step : σ → α → Option σ) : σ → List α → Option σ
  | s, [] => some s
  | s, a :: as => (step s a).bind fun s' => exec step s' as

/-- Every action of the run meets the condition `G` in the state it is taken in. -/
def Guarded (step : σ → α → Option σ) (G : σ → α → Prop) : σ → List α → Prop
  | _, [] => True
  | s, a :: as => G s a ∧ ∀ s', step s a = some s' → Guarded step G s' as

variable {step : σ → α → Option σ} {G : σ → α → Prop}

@[simp] theorem exec_nil (s : σ) : exec step s [] = some s := rfl

theorem exec_cons (s : σ) (a : α) (as : List α) :
    exec step s (a :: as) = (step s a).bind fun s' => exec step s' as := rfl

theorem exec_cons_eq_some {s t : σ} {a : α} {as : List α} :
    exec step s (a :: as) = some t ↔ ∃ s', step s a = some s' ∧ exec step s' as = some t := by
  rw [exec_cons, Option.bind_eq_some_iff]

theorem exec_cons_of_step {s s' : σ} {a : α} (h : step s a = some s') (as : List α) :
    exec step s (a :: as) = exec step s' as := by
  rw [exec_cons, h, Option.bind_some]

theorem exec_append (s : σ) (as bs : List α) :
    exec step s (as ++ bs) = (exec step s as).bind fun s' => exec step s' bs := by
  induction as generalizing s with
  | nil => rfl
  | cons a as ih =>
    rw [List.cons_append, exec_cons, exec_cons, Option.bind_assoc]
    exact Option.bind_congr fun s' _ => ih s'

theorem exec_append_eq_some {s t : σ} {as bs : List α} :
    exec step s (as ++ bs) = some t ↔
      ∃ s', exec step s as = some s' ∧ exec step s' bs = some t := by
  rw [exec_append, Option.bind_eq_some_iff]

/-- What a run ends in can be checked. -/
instance decidableExistsSome (o : Option σ) (P : σ → Prop) [DecidablePred P] :
    Decidable (∃ s, o = some s ∧ P s) :=
  inferInstanceAs (Decidable (∃ s ∈ o, P s))

/-- The condition along a run can be checked when it can be checked at one step. -/
instance Guarded.decidable (step : σ → α → Option σ) (G : σ → α → Prop)
    [∀ s a, Decidable (G s a)] : ∀ (s : σ) (as : List α), Decidable (Guarded step G s as)
  | _, [] => isTrue trivial
  | s, a :: as =>
    match h : step s a with
    | none => decidable_of_iff (G s a)
        ⟨fun hg => ⟨hg, fun s' hs => absurd (h.symm.trans hs) (by simp)⟩, fun hg => hg.1⟩
    | some s' =>
      have := Guarded.decidable step G s' as
      decidable_of_iff (G s a ∧ Guarded step G s' as)
        ⟨fun hg => ⟨hg.1, fun t ht => Option.some.inj (h.symm.trans ht) ▸ hg.2⟩,
          fun hg => ⟨hg.1, hg.2 s' h⟩⟩

theorem Guarded.of_forall (h : ∀ s a, G s a) : ∀ (s : σ) (as : List α), Guarded step G s as
  | _, [] => trivial
  | s, a :: as => ⟨h s a, fun s' _ => Guarded.of_forall h s' as⟩

theorem Guarded.of_mem : ∀ {as : List α} (s : σ), (∀ a ∈ as, ∀ s, G s a) → Guarded step G s as
  | [], _, _ => trivial
  | a :: _, s, h => ⟨h a (.head _) s, fun s' _ =>
      Guarded.of_mem s' fun b hb => h b (.tail _ hb)⟩

theorem Guarded.mono {G' : σ → α → Prop} (h : ∀ s a, G s a → G' s a) :
    ∀ {s : σ} {as : List α}, Guarded step G s as → Guarded step G' s as
  | _, [], _ => trivial
  | s, a :: _, hg => ⟨h s a hg.1, fun s' hs => Guarded.mono h (hg.2 s' hs)⟩

/-- **The induction rule for runs.**  `I p s` relates the actions `p` taken so far to the state
reached; a guarded step keeps it with the action added to them. -/
theorem exec_trace {I : List α → σ → Prop}
    (hstep : ∀ p s a s', I p s → G s a → step s a = some s' → I (p ++ [a]) s') :
    ∀ {p : List α} {s t : σ} {as : List α}, I p s → Guarded step G s as →
      exec step s as = some t → I (p ++ as) t := by
  intro p s t as
  induction as generalizing p s with
  | nil =>
    intro hI _ ht
    rw [exec_nil, Option.some_inj] at ht
    rwa [List.append_nil, ← ht]
  | cons a as ih =>
    intro hI hg ht
    obtain ⟨s', hs, ht⟩ := exec_cons_eq_some.mp ht
    have h := ih (hstep p s a s' hI hg.1 hs) (hg.2 s' hs) ht
    rwa [List.append_assoc] at h

/-- An assertion about the state that every guarded step keeps holds after every guarded run. -/
theorem exec_invariant {I : σ → Prop}
    (hstep : ∀ s a s', I s → G s a → step s a = some s' → I s')
    {s t : σ} {as : List α} (hI : I s) (hg : Guarded step G s as)
    (ht : exec step s as = some t) : I t :=
  exec_trace (I := fun _ => I) (fun _ s a s' => hstep s a s') (p := []) hI hg ht

theorem exec_invariant_of_step {I : σ → Prop}
    (hstep : ∀ s a s', I s → step s a = some s' → I s')
    {s t : σ} {as : List α} (hI : I s) (ht : exec step s as = some t) : I t :=
  exec_invariant (G := fun _ _ => True) (fun s a s' hI _ h => hstep s a s' hI h) hI
    (Guarded.of_forall (fun _ _ => trivial) s as) ht

/-! ## A part of a system -/

/-- **Projection of runs.**  `π` is the state of a part of the system and `sel` picks the actions of
the part.  If these are steps of the part and the other actions leave it alone, then a run of the
system is a run of the part. -/
theorem exec_project {τ β : Type*} {step' : τ → β → Option τ} {G' : τ → β → Prop} {π : σ → τ}
    {sel : α → Option β}
    (hsel : ∀ s a b s', sel a = some b → step s a = some s' → step' (π s) b = some (π s'))
    (hskip : ∀ s a s', sel a = none → step s a = some s' → π s' = π s)
    (hG : ∀ s a b, sel a = some b → G s a → G' (π s) b) :
    ∀ {s t : σ} {as : List α}, Guarded step G s as → exec step s as = some t →
      Guarded step' G' (π s) (as.filterMap sel) ∧
      exec step' (π s) (as.filterMap sel) = some (π t) := by
  intro s t as
  induction as generalizing s with
  | nil =>
    intro _ ht
    rw [exec_nil, Option.some_inj] at ht
    exact ⟨trivial, by rw [List.filterMap_nil, exec_nil, ht]⟩
  | cons a as ih =>
    intro hg ht
    obtain ⟨s', hs, ht⟩ := exec_cons_eq_some.mp ht
    obtain ⟨hg', ht'⟩ := ih (hg.2 s' hs) ht
    cases ha : sel a with
    | none =>
      rw [List.filterMap_cons_none ha, ← hskip s a s' ha hs]
      exact ⟨hg', ht'⟩
    | some b =>
      have hb := hsel s a b s' ha hs
      rw [List.filterMap_cons_some ha]
      refine ⟨⟨hG s a b ha hg.1, fun t' ht'' => ?_⟩, (exec_cons_of_step hb _).trans ht'⟩
      rwa [Option.some.inj (ht''.symm.trans hb)]

end Lib
end Autumn
