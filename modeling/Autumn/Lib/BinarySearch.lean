import Mathlib.Data.Nat.Basic
import Mathlib.Tactic.Common

/-!
# Binary search with a test that has effects

`sort.Search(n, f)` looks for the first index below `n` at which `f` holds.  Callers let `f` move an
iterator, so the test works on a state and may fail; what is known about it is an invariant of the
state.

* `search`, `search_spec`: if the test tells whether a property holds that stays once it holds, the
  search returns the first index with the property, and the invariant is kept.
* `search_keeps`: what is left of this for a test that may answer anything.
* `findFirst`, `findFirst_spec`: the same for a test without effects.
-/

namespace Autumn
namespace Lib

variable {σ : Type*} {n : ℕ} {f : ℕ → σ → Option (Bool × σ)} {I : σ → Prop}

/-- The loop: the answer is between `i` and `j`. -/
def searchLoop (f : ℕ → σ → Option (Bool × σ)) : ℕ → ℕ → ℕ → σ → Option (ℕ × σ)
  | 0, _, _, _ => none
  | fuel + 1, i, j, s =>
    if i < j then
      let h := (i + j) / 2
      match f h s with
      | none => none
      | some (false, s) => searchLoop f fuel (h + 1) j s
      | some (true, s) => searchLoop f fuel i h s
    else some (i, s)

/-- `sort.Search`. -/
def search (f : ℕ → σ → Option (Bool × σ)) (n : ℕ) (s : σ) : Option (ℕ × σ) :=
  searchLoop f (n + 1) 0 n s

/-- `r` is the first index below `n` with the property `P`, or `n`. -/
structure IsFirst (P : ℕ → Prop) (n r : ℕ) : Prop where
  le : r ≤ n
  below : ∀ a < r, ¬ P a
  at_lt : r < n → P r

section

variable {P : ℕ → Prop} (hmono : ∀ a b, a ≤ b → b < n → P a → P b)
  (hf : ∀ h s, h < n → I s → ∃ b s', f h s = some (b, s') ∧ I s' ∧ (b = true ↔ P h))
include hmono hf

/-- Where the loop stands: nothing before `i` has the property, everything from `j` on has it. -/
theorem searchLoop_spec :
    ∀ (fuel i j : ℕ) (s : σ), j - i < fuel → i ≤ j → j ≤ n → I s → (∀ a < i, ¬ P a) →
      (j < n → P j) → ∃ r s', searchLoop f fuel i j s = some (r, s') ∧ I s' ∧ IsFirst P n r := by
  intro fuel
  induction fuel with
  | zero => exact fun i j s hfuel => absurd hfuel (Nat.not_lt_zero _)
  | succ fuel ih =>
    intro i j s hfuel hij hjn hs hlow hhigh
    rw [searchLoop]
    by_cases hlt : i < j
    · rw [if_pos hlt]
      obtain ⟨b, s', hfs, hs', hb⟩ := hf ((i + j) / 2) s (by omega) hs
      simp only [hfs]
      cases b with
      | false =>
        have hnot : ¬ P ((i + j) / 2) := fun hP => Bool.false_ne_true (hb.mpr hP)
        refine ih _ j s' (by omega) (by omega) hjn hs' (fun a ha hP => ?_) hhigh
        exact hnot (hmono a _ (by omega) (by omega) hP)
      | true =>
        exact ih i _ s' (by omega) (by omega) (by omega) hs' hlow fun _ => hb.mp rfl
    · obtain rfl : i = j := by omega
      rw [if_neg hlt]
      exact ⟨i, s, rfl, hs, hjn, hlow, hhigh⟩

theorem search_spec {s : σ} (hs : I s) :
    ∃ r s', search f n s = some (r, s') ∧ I s' ∧ IsFirst P n r :=
  searchLoop_spec hmono hf (n + 1) 0 n s (by omega) (Nat.zero_le n) le_rfl hs
    (fun _ ha => absurd ha (Nat.not_lt_zero _)) fun h => absurd h (lt_irrefl n)

end

/-- Whatever the test answers, an assertion that it keeps holds when the search returns. -/
theorem search_keeps (hf : ∀ h s b s', I s → f h s = some (b, s') → I s') {r : ℕ} {s s' : σ}
    (hs : I s) (h : search f n s = some (r, s')) : I s' := by
  have hloop : ∀ (fuel i j : ℕ) (s : σ), I s → searchLoop f fuel i j s = some (r, s') → I s' := by
    intro fuel
    induction fuel with
    | zero => exact fun i j s _ h => absurd h (by simp [searchLoop])
    | succ fuel ih =>
      intro i j s hs h
      rw [searchLoop] at h
      split_ifs at h with hlt
      · dsimp only at h
        split at h
        · simp at h
        · rename_i s₁ hfs
          exact ih _ _ s₁ (hf _ s false s₁ hs hfs) h
        · rename_i s₁ hfs
          exact ih _ _ s₁ (hf _ s true s₁ hs hfs) h
      · rw [Option.some_inj, Prod.mk.injEq] at h
        exact h.2 ▸ hs
  exact hloop (n + 1) 0 n s hs h

/-- `sort.Search` with a test that always answers and has no effects. -/
def findFirst (p : ℕ → Bool) (n : ℕ) : ℕ :=
  ((search (fun i s => some (p i, s)) n ()).map Prod.fst).getD n

theorem findFirst_spec {p : ℕ → Bool} (hmono : ∀ a b, a ≤ b → b < n → p a = true → p b = true) :
    IsFirst (fun i => p i = true) n (findFirst p n) := by
  obtain ⟨r, s, hr, -, hfirst⟩ := search_spec (I := fun _ : Unit => True)
    (f := fun i s => some (p i, s)) hmono (fun h s _ _ => ⟨p h, s, rfl, trivial, Iff.rfl⟩)
    (s := ()) trivial
  rwa [findFirst, hr]

end Lib
end Autumn
