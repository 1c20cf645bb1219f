import Mathlib.Data.Set.BooleanAlgebra
import Mathlib.Order.CompletePartialOrder
import Mathlib.Order.Interval.Set.Disjoint

/-!
# Parts of a buffer that are handed out from the front

An allocator that never frees has one position: each request moves it forward and gets a part of
what it has passed.

* `Region`: a part of a buffer, `Region.positions` its positions.
* `Consecutive rs lo hi`: the parts `rs` lie one behind the other between `lo` and `hi`.
* `Consecutive.append`: what a run hands out is put together from what its steps hand out.
* `Consecutive.pairwise_disjoint`: no position is in two parts.
-/

namespace Autumn
namespace Lib

/-- A part of a buffer. -/
structure Region where
  start : ℕ
  size : ℕ
  deriving DecidableEq, Repr

namespace Region

/-- The first position behind a part. -/
def stop (r : Region) : ℕ := r.start + r.size

/-- The positions of a part. -/
def positions (r : Region) : Set ℕ := Set.Ico r.start r.stop

theorem disjoint_of_le {r r' : Region} (h : r.stop ≤ r'.start) :
    Disjoint r.positions r'.positions := by
  rw [positions, positions, Set.Ico_disjoint_Ico]
  exact (min_le_left _ _).trans (h.trans (le_max_right _ _))

end Region

/-- Parts one behind the other, between two positions. -/
structure Consecutive (rs : List Region) (lo hi : ℕ) : Prop where
  le : lo ≤ hi
  sorted : rs.Pairwise fun r r' => r.stop ≤ r'.start
  bounds : ∀ r ∈ rs, lo ≤ r.start ∧ r.stop ≤ hi

namespace Consecutive

variable {rs rs' : List Region} {lo mid hi : ℕ}

theorem nil (n : ℕ) : Consecutive [] n n := ⟨le_rfl, .nil, by simp⟩

theorem singleton {r : Region} (hlo : lo ≤ r.start) (hhi : r.stop ≤ hi) :
    Consecutive [r] lo hi where
  le := hlo.trans ((Nat.le_add_right ..).trans hhi)
  sorted := List.pairwise_singleton _ r
  bounds := by
    intro r' hr'
    rw [List.mem_singleton.mp hr']
    exact ⟨hlo, hhi⟩

theorem append (h : Consecutive rs lo mid) (h' : Consecutive rs' mid hi) :
    Consecutive (rs ++ rs') lo hi where
  le := h.le.trans h'.le
  sorted := by
    refine List.pairwise_append.mpr ⟨h.sorted, h'.sorted, fun r hr r' hr' => ?_⟩
    exact (h.bounds r hr).2.trans (h'.bounds r' hr').1
  bounds := by
    intro r hr
    rcases List.mem_append.mp hr with hr | hr
    · exact ⟨(h.bounds r hr).1, (h.bounds r hr).2.trans h'.le⟩
    · exact ⟨h.le.trans (h'.bounds r hr).1, (h'.bounds r hr).2⟩

/-- **No position is in two parts.** -/
theorem pairwise_disjoint (h : Consecutive rs lo hi) :
    rs.Pairwise fun r r' => Disjoint r.positions r'.positions :=
  h.sorted.imp Region.disjoint_of_le

end Consecutive

end Lib
end Autumn
