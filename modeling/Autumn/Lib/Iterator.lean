import Mathlib.Data.List.Sort
import Mathlib.Tactic.Tauto

/-!
# Iterators over pairs in order

What an iterator is for is said by a list: the pairs that it yields from the front, in the direction
of the iteration (`Before`).

* `Iterator`: the interface.  Its operations are partial: there is no next pair behind the last one.
* `Yields`: the pairs that come from a state on, up to the end.
* `Follows`: a relation between the states of an iterator and the pairs still to come, kept by all
  operations.  An iterator with such a relation yields what it should (`Runs.yields`).
* `Runs`: the same without `Seek`, for iterators whose seeks are not what they should be.
* `IsMerge`: the ordered union of two lists in which the pairs of the left list win.
-/

namespace Autumn
namespace Lib

open List Option

variable {K V : Type} {reverse : Bool}

/-! ## The direction -/

section Before

variable [LinearOrder K]

/-- `a` comes before `b`. -/
def Before (reverse : Bool) (a b : K) : Prop := if reverse then b < a else a < b

instance (reverse : Bool) (a b : K) : Decidable (Before reverse a b) :=
  inferInstanceAs (Decidable (if reverse = true then b < a else a < b))

variable {a b c : K}

@[simp] theorem before_false : Before false a b ↔ a < b := Iff.rfl

@[simp] theorem before_true : Before true a b ↔ b < a := Iff.rfl

theorem Before.trans (h : Before reverse a b) (h' : Before reverse b c) : Before reverse a c := by
  cases reverse with
  | false => exact lt_trans h h'
  | true => exact lt_trans h' h

theorem Before.ne (h : Before reverse a b) : a ≠ b := by
  cases reverse with
  | false => exact ne_of_lt h
  | true => exact (ne_of_lt h).symm

theorem Before.asymm (h : Before reverse a b) :
    ¬ Before reverse b a := fun h' => (h.trans h').ne rfl

theorem before_trichotomy (reverse : Bool) (a b : K) :
    Before reverse a b ∨ a = b ∨ Before reverse b a := by
  cases reverse with
  | false => exact lt_trichotomy a b
  | true => exact (lt_trichotomy b a).imp_right (Or.imp_left Eq.symm)

/-- Pairs in the order of the iteration, each key once. -/
def InOrder (reverse : Bool) (l : List (K × V)) : Prop :=
  l.Pairwise fun x y => Before reverse x.1 y.1

/-- Pairs in increasing order, read in the direction of the iteration. -/
def directed (reverse : Bool) (l : List (K × V)) : List (K × V) := if reverse then l.reverse else l

theorem inOrder_directed {l : List (K × V)} (h : l.Pairwise fun x y => x.1 < y.1) :
    InOrder reverse (directed reverse l) := by
  cases reverse with
  | false => exact h
  | true => exact pairwise_reverse.mpr h

omit [LinearOrder K] in
@[simp] theorem mem_directed {l : List (K × V)} {x : K × V} : x ∈ directed reverse l ↔ x ∈ l := by
  cases reverse <;> simp [directed]

/-- The pairs that are left after `Seek(t)`. -/
def fromKey (reverse : Bool) (t : K) (l : List (K × V)) : List (K × V) :=
  l.dropWhile fun x => Before reverse x.1 t

theorem fromKey_eq_filter {t : K} {l : List (K × V)} (h : InOrder reverse l) :
    fromKey reverse t l = l.filter fun x => ¬ Before reverse x.1 t := by
  unfold fromKey
  induction l with
  | nil => rfl
  | cons x l ih =>
    obtain ⟨hx, hl⟩ := pairwise_cons.mp h
    by_cases hxt : Before reverse x.1 t
    · rw [dropWhile_cons_of_pos (by simpa using hxt), ih hl,
        filter_cons_of_neg (by simpa using hxt)]
    · rw [dropWhile_cons_of_neg (by simpa using hxt), eq_comm, filter_eq_self]
      intro y hy
      rcases hy with _ | ⟨_, hy⟩
      · simpa using hxt
      · simpa using fun hyt : Before reverse y.1 t => hxt ((hx y hy).trans hyt)

theorem InOrder.before_of_mem {y z : K × V} {l : List (K × V)} (h : InOrder reverse (y :: l))
    (hay : Before reverse a y.1) (hz : z ∈ y :: l) : Before reverse a z.1 := by
  rcases hz with _ | ⟨_, hz⟩
  · exact hay
  · exact hay.trans ((pairwise_cons.mp h).1 z hz)

theorem InOrder.fromKey {l : List (K × V)} (h : InOrder reverse l) (t : K) :
    InOrder reverse (fromKey reverse t l) :=
  h.sublist (dropWhile_sublist _)

end Before

/-! ## Lists and indices -/

section Visiting

variable {α β : Type*} {reversed : Bool} {l : List α} {n k : ℕ}

/-- A list in the direction of the iteration. -/
def visiting (reversed : Bool) (l : List α) : List α := if reversed then l.reverse else l

/-- Where an index of a list of length `n` comes in the direction of the iteration. -/
def place (reversed : Bool) (n k : ℕ) : ℕ := if reversed then n - 1 - k else k

theorem place_place (hk : k < n) : place reversed n (place reversed n k) = k := by
  cases reversed with
  | false => rfl
  | true =>
    show n - 1 - (n - 1 - k) = k
    omega

theorem place_lt (hk : k < n) : place reversed n k < n := by
  cases reversed with
  | false => exact hk
  | true =>
    show n - 1 - k < n
    omega

theorem length_visiting : (visiting reversed l).length = l.length := by
  cases reversed with
  | false => rfl
  | true => exact length_reverse

theorem mem_visiting {x : α} : x ∈ visiting reversed l ↔ x ∈ l := by
  cases reversed with
  | false => exact Iff.rfl
  | true => exact mem_reverse

theorem visiting_map (f : α → β) : visiting reversed (l.map f) = (visiting reversed l).map f := by
  cases reversed with
  | false => rfl
  | true => exact map_reverse.symm

theorem visiting_flatMap (f : α → List β) :
    visiting reversed (l.flatMap f) =
      (visiting reversed l).flatMap fun x => visiting reversed (f x) := by
  cases reversed with
  | false => rfl
  | true => exact reverse_flatMap

theorem getElem?_place (hk : k < l.length) :
    l[place reversed l.length k]? = (visiting reversed l)[k]? := by
  cases reversed with
  | false => rfl
  | true => exact (getElem?_reverse hk).symm

theorem find?_range_of_any {d : List α} {q : α → Bool} {f : ℕ → Bool}
    (hf : ∀ k < d.length, f k = (d[k]?).any q) :
    (range d.length).find? f = if d.findIdx q < d.length then some (d.findIdx q) else none := by
  split_ifs with h
  · refine find?_range_eq_some.mpr ⟨?_, mem_range.mpr h, fun j hj => ?_⟩
    · rw [hf _ h, getElem?_eq_getElem h]
      exact findIdx_getElem
    · rw [hf j (hj.trans h), getElem?_eq_getElem (hj.trans h), any_some, not_of_lt_findIdx hj]
      rfl
  · refine find?_range_eq_none.mpr fun j hj => ?_
    rw [hf j hj, getElem?_eq_getElem hj, any_some, not_of_lt_findIdx (hj.trans_le (not_lt.mp h))]
    rfl

theorem dropWhile_congr_mem {p q : α → Bool} (h : ∀ x ∈ l, p x = q x) :
    l.dropWhile p = l.dropWhile q := by
  induction l with
  | nil => rfl
  | cons x l ih =>
    rw [forall_mem_cons] at h
    rw [dropWhile_cons, dropWhile_cons, h.1, ih h.2]

end Visiting

/-! ## Iterators -/

structure Iterator (K V : Type) where
  State : Type
  init : State
  valid : State → Bool
  key : State → Option K
  value : State → Option V
  next : State → Option State
  rewind : State → Option State
  seek : K → State → Option State

/-- From the state `s` on the iterator yields the pairs `l` and is invalid behind them. -/
inductive Yields (I : Iterator K V) : I.State → List (K × V) → Prop where
  | nil {s : I.State} : I.valid s = false → Yields I s []
  | cons {s s' : I.State} {x : K × V} {l : List (K × V)} : I.valid s = true →
      I.key s = some x.1 → I.value s = some x.2 → I.next s = some s' → Yields I s' l →
      Yields I s (x :: l)

section Follows

variable [LinearOrder K]

/-- `At s l`: the iterator, which is over `all`, is in state `s` in front of the pairs `l`.  Here is
the part about `Rewind` and `Next`: an iteration over `all` from the start. -/
structure Runs (I : Iterator K V) (all : List (K × V)) (At : I.State → List (K × V) → Prop) :
    Prop where
  valid : ∀ {s l}, At s l → I.valid s = !l.isEmpty
  key : ∀ {s x l}, At s (x :: l) → I.key s = some x.1
  value : ∀ {s x l}, At s (x :: l) → I.value s = some x.2
  next : ∀ {s x l}, At s (x :: l) → ∃ s', I.next s = some s' ∧ At s' l
  rewind : ∀ s, ∃ s', I.rewind s = some s' ∧ At s' all

/-- With `Seek`, which goes to the pairs from a key on. -/
structure Follows (reverse : Bool) (I : Iterator K V) (all : List (K × V))
    (At : I.State → List (K × V) → Prop) : Prop extends Runs I all At where
  seek : ∀ t s, ∃ s', I.seek t s = some s' ∧ At s' (fromKey reverse t all)

variable {I : Iterator K V} {all : List (K × V)} {At : I.State → List (K × V) → Prop}

omit [LinearOrder K] in
theorem Runs.yields (h : Runs I all At) {s : I.State} {l : List (K × V)} (hs : At s l) :
    Yields I s l := by
  induction l generalizing s with
  | nil => exact .nil (h.valid hs)
  | cons x l ih =>
    obtain ⟨s', hnext, hs'⟩ := h.next hs
    exact .cons (h.valid hs) (h.key hs) (h.value hs) hnext (ih hs')

/-- The iterator is over the pairs `all`, which are in order. -/
def Over (reverse : Bool) (I : Iterator K V) (all : List (K × V)) : Prop :=
  InOrder reverse all ∧ ∃ At, Follows reverse I all At

/-- From any state `Rewind` and `Seek` start a new iteration. -/
theorem Over.yields (h : Over reverse I all) (s : I.State) :
    (∃ s', I.rewind s = some s' ∧ Yields I s' all) ∧
      ∀ t, ∃ s', I.seek t s = some s' ∧
        Yields I s' (all.filter fun x => ¬ Before reverse x.1 t) := by
  obtain ⟨horder, At, h⟩ := h
  refine ⟨?_, fun t => ?_⟩
  · obtain ⟨s', hs', hat⟩ := h.rewind s
    exact ⟨s', hs', h.yields hat⟩
  · obtain ⟨s', hs', hat⟩ := h.seek t s
    rw [fromKey_eq_filter horder] at hat
    exact ⟨s', hs', h.yields hat⟩

/-- The iterator over a list in order. -/
def listIterator (reverse : Bool) (l : List (K × V)) : Iterator K V where
  State := List (K × V)
  init := []
  valid := fun s => !s.isEmpty
  key := fun s => s.head?.map Prod.fst
  value := fun s => s.head?.map Prod.snd
  next := fun s => match s with
    | [] => none
    | _ :: s => some s
  rewind := fun _ => some l
  seek := fun t _ => some (fromKey reverse t l)

theorem follows_listIterator (reverse : Bool) (l : List (K × V)) :
    Follows reverse (listIterator reverse l) l fun s rest => s = rest where
  valid := fun h => by rw [h]; rfl
  key := fun h => by rw [h]; rfl
  value := fun h => by rw [h]; rfl
  next := fun {s x rest} h => ⟨rest, by rw [h]; rfl, rfl⟩
  rewind := fun _ => ⟨l, rfl, rfl⟩
  seek := fun t _ => ⟨fromKey reverse t l, rfl, rfl⟩

end Follows

/-! ## Ordered union -/

section Merge

variable [LinearOrder K]

/-- `m` is the ordered union of `l` and `r`; of two pairs with the same key the one of `l` stays. -/
inductive IsMerge (reverse : Bool) : List (K × V) → List (K × V) → List (K × V) → Prop where
  | nil_left {r : List (K × V)} : IsMerge reverse [] r r
  | nil_right {l : List (K × V)} : IsMerge reverse l [] l
  | left {x y : K × V} {l r m : List (K × V)} : Before reverse x.1 y.1 →
      IsMerge reverse l (y :: r) m → IsMerge reverse (x :: l) (y :: r) (x :: m)
  | right {x y : K × V} {l r m : List (K × V)} : Before reverse y.1 x.1 →
      IsMerge reverse (x :: l) r m → IsMerge reverse (x :: l) (y :: r) (y :: m)
  | both {x y : K × V} {l r m : List (K × V)} : x.1 = y.1 → IsMerge reverse l r m →
      IsMerge reverse (x :: l) (y :: r) (x :: m)

variable {l r m : List (K × V)}

theorem exists_isMerge (reverse : Bool) (l r : List (K × V)) : ∃ m, IsMerge reverse l r m := by
  induction l generalizing r with
  | nil => exact ⟨r, .nil_left⟩
  | cons x l ihl =>
    induction r with
    | nil => exact ⟨x :: l, .nil_right⟩
    | cons y r ihr =>
      rcases before_trichotomy reverse x.1 y.1 with h | h | h
      · obtain ⟨m, hm⟩ := ihl (y :: r)
        exact ⟨x :: m, .left h hm⟩
      · obtain ⟨m, hm⟩ := ihl r
        exact ⟨x :: m, .both h hm⟩
      · obtain ⟨m, hm⟩ := ihr
        exact ⟨y :: m, .right h hm⟩

theorem IsMerge.mem_or (h : IsMerge reverse l r m) {z : K × V} (hz : z ∈ m) : z ∈ l ∨ z ∈ r := by
  induction h with
  | nil_left => exact .inr hz
  | nil_right => exact .inl hz
  | left _ _ ih =>
    rcases hz with _ | ⟨_, hz⟩
    · exact .inl (.head _)
    · exact (ih hz).imp_left (.tail _)
  | right _ _ ih =>
    rcases hz with _ | ⟨_, hz⟩
    · exact .inr (.head _)
    · exact (ih hz).imp_right (.tail _)
  | both _ _ ih =>
    rcases hz with _ | ⟨_, hz⟩
    · exact .inl (.head _)
    · exact (ih hz).imp (.tail _) (.tail _)

theorem IsMerge.inOrder (h : IsMerge reverse l r m) (hl : InOrder reverse l)
    (hr : InOrder reverse r) : InOrder reverse m := by
  induction h with
  | nil_left => exact hr
  | nil_right => exact hl
  | @left x y l r m hxy hm ih =>
    obtain ⟨hx, hl⟩ := pairwise_cons.mp hl
    refine pairwise_cons.mpr ⟨fun z hz => ?_, ih hl hr⟩
    rcases hm.mem_or hz with hz | hz
    · exact hx z hz
    · exact hr.before_of_mem hxy hz
  | @right x y l r m hyx hm ih =>
    obtain ⟨hy, hr⟩ := pairwise_cons.mp hr
    refine pairwise_cons.mpr ⟨fun z hz => ?_, ih hl hr⟩
    rcases hm.mem_or hz with hz | hz
    · exact hl.before_of_mem hyx hz
    · exact hy z hz
  | @both x y l r m hxy hm ih =>
    obtain ⟨hx, hl⟩ := pairwise_cons.mp hl
    obtain ⟨hy, hr⟩ := pairwise_cons.mp hr
    refine pairwise_cons.mpr ⟨fun z hz => ?_, ih hl hr⟩
    rcases hm.mem_or hz with hz | hz
    · exact hx z hz
    · rw [hxy]
      exact hy z hz

theorem IsMerge.mem_iff (h : IsMerge reverse l r m) (hl : InOrder reverse l)
    (hr : InOrder reverse r) {z : K × V} : z ∈ m ↔ z ∈ l ∨ (z ∈ r ∧ ∀ x ∈ l, x.1 ≠ z.1) := by
  induction h with
  | nil_left => simp
  | nil_right => simp
  | @left x y l r m hxy hm ih =>
    have hne : ∀ w ∈ y :: r, x.1 ≠ w.1 := fun w hw => (hr.before_of_mem hxy hw).ne
    rw [mem_cons, ih hl.of_cons hr]
    grind
  | @right x y l r m hyx hm ih =>
    have hne : ∀ w ∈ x :: l, w.1 ≠ y.1 := fun w hw => (hl.before_of_mem hyx hw).ne.symm
    rw [mem_cons, ih hl hr.of_cons]
    grind
  | @both x y l r m hxy hm ih =>
    obtain ⟨hy, hr⟩ := pairwise_cons.mp hr
    have hne : ∀ w ∈ r, x.1 ≠ w.1 := fun w hw => hxy ▸ (hy w hw).ne
    rw [mem_cons, ih hl.of_cons hr]
    grind

theorem IsMerge.eq_nil {l r : List (K × V)} (h : IsMerge reverse l r []) : l = [] ∧ r = [] := by
  cases h <;> exact ⟨rfl, rfl⟩

variable {x : K × V}

/-- When both lists begin with the same key, the right one can do without it. -/
theorem IsMerge.skip {y : K × V} {l r m : List (K × V)} (hr : InOrder reverse (y :: r))
    (hxy : x.1 = y.1) (h : IsMerge reverse (x :: l) (y :: r) m) : IsMerge reverse (x :: l) r m := by
  cases h with
  | left hlt _ => exact absurd hxy hlt.ne
  | right hlt _ => exact absurd hxy.symm hlt.ne
  | both _ h =>
    cases r with
    | nil =>
      cases h
      · exact .nil_right
      · exact .nil_right
    | cons z r =>
      have hz : Before reverse x.1 z.1 := hxy ▸ (pairwise_cons.mp hr).1 z (.head _)
      exact .left hz h

theorem IsMerge.fromKey (h : IsMerge reverse l r m) (t : K) :
    IsMerge reverse (fromKey reverse t l) (fromKey reverse t r) (fromKey reverse t m) := by
  have hpos : ∀ {x : K × V} {l : List (K × V)}, Before reverse x.1 t →
      Lib.fromKey reverse t (x :: l) = Lib.fromKey reverse t l := fun hx =>
    dropWhile_cons_of_pos (by simpa using hx)
  have hneg : ∀ {x : K × V} {l : List (K × V)}, ¬ Before reverse x.1 t →
      Lib.fromKey reverse t (x :: l) = x :: l := fun hx =>
    dropWhile_cons_of_neg (by simpa using hx)
  induction h with
  | nil_left => exact .nil_left
  | nil_right => exact .nil_right
  | @left x y l r m hxy hm ih =>
    by_cases hx : Before reverse x.1 t
    · rw [hpos hx, hpos hx]
      exact ih
    · rw [hneg hx, hneg hx, hneg fun hy => hx (hxy.trans hy)]
      exact .left hxy hm
  | @right x y l r m hyx hm ih =>
    by_cases hy : Before reverse y.1 t
    · rw [hpos hy, hpos hy]
      exact ih
    · rw [hneg hy, hneg hy, hneg fun hx => hy (hyx.trans hx)]
      exact .right hyx hm
  | @both x y l r m hxy hm ih =>
    by_cases hx : Before reverse x.1 t
    · rw [hpos hx, hpos hx, hpos (hxy ▸ hx)]
      exact ih
    · rw [hneg hx, hneg hx, hneg (hxy ▸ hx)]
      exact .both hxy hm

/-! ## The first of several lists -/

/-- Of the lists with the key of `x` the first one has the pair `x`. -/
def Leftmost : List (List (K × V)) → K × V → Prop
  | [], _ => False
  | l :: ls, x => x ∈ l ∨ ((∀ y ∈ l, y.1 ≠ x.1) ∧ Leftmost ls x)

omit [LinearOrder K] in
theorem leftmost_append {ls₁ ls₂ : List (List (K × V))} :
    Leftmost (ls₁ ++ ls₂) x ↔
      Leftmost ls₁ x ∨ ((∀ l ∈ ls₁, ∀ y ∈ l, y.1 ≠ x.1) ∧ Leftmost ls₂ x) := by
  induction ls₁ with
  | nil => simp [Leftmost]
  | cons l ls₁ ih =>
    rw [cons_append, Leftmost, Leftmost, ih]
    simp only [mem_cons, forall_eq_or_imp]
    tauto

omit [LinearOrder K] in
/-- Every key is the key of a pair in the first list that has it. -/
theorem exists_leftmost {ls : List (List (K × V))} {l : List (K × V)} {y : K × V} (hl : l ∈ ls)
    (hy : y ∈ l) : ∃ x, Leftmost ls x ∧ x.1 = y.1 := by
  induction ls with
  | nil => cases hl
  | cons l' ls ih =>
    by_cases hl' : ∃ x ∈ l', x.1 = y.1
    · obtain ⟨x, hx, hxy⟩ := hl'
      exact ⟨x, .inl hx, hxy⟩
    · rcases hl with _ | ⟨_, hl⟩
      · exact absurd ⟨y, hy, rfl⟩ hl'
      · obtain ⟨x, hx, hxy⟩ := ih hl
        exact ⟨x, .inr ⟨fun z hz hzx => hl' ⟨z, hz, hzx.trans hxy⟩, hx⟩, hxy⟩

omit [LinearOrder K] in
theorem leftmost_iff {ls : List (List (K × V))} :
    Leftmost ls x ↔ ∃ (i : ℕ) (l : List (K × V)), ls[i]? = some l ∧ x ∈ l ∧
      ∀ (j : ℕ) (l' : List (K × V)), j < i → ls[j]? = some l' → ∀ y ∈ l', y.1 ≠ x.1 := by
  induction ls with
  | nil => simp [Leftmost]
  | cons l₀ ls ih =>
    rw [Leftmost, ih]
    constructor
    · rintro (hx | ⟨hne, i, l, hi, hx, hlt⟩)
      · exact ⟨0, l₀, rfl, hx, fun j l' hj => absurd hj (Nat.not_lt_zero j)⟩
      · refine ⟨i + 1, l, hi, hx, fun j l' hj hjl' => ?_⟩
        cases j with
        | zero => exact some.inj hjl' ▸ hne
        | succ j => exact hlt j l' (by omega) hjl'
    · rintro ⟨i, l, hi, hx, hlt⟩
      cases i with
      | zero => exact .inl (some.inj hi ▸ hx)
      | succ i =>
        exact .inr ⟨hlt 0 l₀ (by omega) rfl, i, l, hi, hx,
          fun j l' hj hjl' => hlt (j + 1) l' (by omega) hjl'⟩

/-- The union of two unions is the union of all lists. -/
theorem IsMerge.mem_iff_leftmost (h : IsMerge reverse l r m) (hl : InOrder reverse l)
    (hr : InOrder reverse r) {ls₁ ls₂ : List (List (K × V))} (h₁ : ∀ x, x ∈ l ↔ Leftmost ls₁ x)
    (h₂ : ∀ x, x ∈ r ↔ Leftmost ls₂ x) (x : K × V) : x ∈ m ↔ Leftmost (ls₁ ++ ls₂) x := by
  rw [h.mem_iff hl hr, leftmost_append, h₁, h₂]
  have hkeys : (∀ y ∈ l, y.1 ≠ x.1) ↔ ∀ l' ∈ ls₁, ∀ y ∈ l', y.1 ≠ x.1 := by
    constructor
    · intro hne l' hl' y hy hyx
      obtain ⟨z, hz, hzy⟩ := exists_leftmost hl' hy
      exact hne z ((h₁ z).mpr hz) (hzy.trans hyx)
    · intro hne y hy
      obtain ⟨i, l', hi, hy', -⟩ := leftmost_iff.mp ((h₁ y).mp hy)
      exact hne l' (mem_of_getElem? hi) y hy'
  rw [hkeys]
  tauto

theorem InOrder.ext (hl : InOrder reverse l) (hr : InOrder reverse r) (h : ∀ x, x ∈ l ↔ x ∈ r) :
    l = r := by
  have : Std.Irrefl fun x y : K × V => Before reverse x.1 y.1 := ⟨fun _ hx => hx.ne rfl⟩
  have : Std.Antisymm fun x y : K × V => Before reverse x.1 y.1 :=
    ⟨fun _ _ hxy hyx => absurd hyx hxy.asymm⟩
  exact List.Pairwise.eq_of_mem_iff hl hr h

end Merge

end Lib
end Autumn
