import Autumn.Lib.Iterator
import Autumn.Table

/-!
# The merge iterator

`NewMergeIterator` halves a list of iterators until one or two are left, so what it builds is a tree
of two-way merges.  A two-way merge keeps a pointer `small` to the side whose pair is the current
one, copies of the keys both sides stand at, and a copy `curKey` of the current key.

`fix` puts the pointer right after a side has moved.  If both sides stand at the same key it moves
the right one on, so that the pair of the left side is seen.  `Next` moves the side of the pointer
on until the key is another one; one round is enough (`nextLoop_eq`).  So a merge is in front of the
ordered union of what its sides are in front of (`follows_mergeIterator`), and the tree is correct
by induction on the list of iterators (`exists_newMergeIterator`).

`reverse` is the same in the whole tree and a parameter here.  An operation has no result (`none`)
if `Next` is called on an exhausted child, if keys are compared that are not there, or if `Next`
would take more than `rounds` rounds.
-/

namespace Autumn

open Lib List Option SortedMap

/-! ## One merge -/

/-- `node`: an iterator and a copy of what it stands at. -/
structure MergeNode (K σ : Type) where
  valid : Bool
  key : Option K
  iter : σ

/-- `left` or `right`, as the pointer `small` has it. -/
inductive Side where
  | left
  | right
  deriving DecidableEq, Repr

/-- `MergeIterator`. -/
structure MergeState (K σ τ : Type) where
  left : MergeNode K σ
  right : MergeNode K τ
  small : Side
  curKey : Option K

section Model

variable {K V : Type} [LinearOrder K]

/-- `setKey`; the key of an invalid iterator is not looked at. -/
def MergeNode.setKey (I : Iterator K V) (n : MergeNode K I.State) : MergeNode K I.State :=
  { n with valid := I.valid n.iter, key := if I.valid n.iter then I.key n.iter else n.key }

def MergeNode.next (I : Iterator K V) (n : MergeNode K I.State) : Option (MergeNode K I.State) :=
  (I.next n.iter).map fun s => MergeNode.setKey I { n with iter := s }

def MergeNode.rewind (I : Iterator K V) (n : MergeNode K I.State) : Option (MergeNode K I.State) :=
  (I.rewind n.iter).map fun s => MergeNode.setKey I { n with iter := s }

def MergeNode.seek (I : Iterator K V) (t : K) (n : MergeNode K I.State) :
    Option (MergeNode K I.State) :=
  (I.seek t n.iter).map fun s => MergeNode.setKey I { n with iter := s }

namespace MergeState

variable {σ τ : Type}

/-- `mi.small.valid`. -/
def smallValid (s : MergeState K σ τ) : Bool :=
  match s.small with
  | .left => s.left.valid
  | .right => s.right.valid

/-- `mi.small.key`. -/
def smallKey (s : MergeState K σ τ) : Option K :=
  match s.small with
  | .left => s.left.key
  | .right => s.right.key

/-- `mi.bigger().valid`. -/
def biggerValid (s : MergeState K σ τ) : Bool :=
  match s.small with
  | .left => s.right.valid
  | .right => s.left.valid

/-- `mi.bigger().key`. -/
def biggerKey (s : MergeState K σ τ) : Option K :=
  match s.small with
  | .left => s.right.key
  | .right => s.left.key

def swapSmall (s : MergeState K σ τ) : MergeState K σ τ :=
  match s.small with
  | .left => { s with small := .right }
  | .right => { s with small := .left }

def setCurrent (s : MergeState K σ τ) : MergeState K σ τ := { s with curKey := s.smallKey }

variable (I J : Iterator K V)

/-- `mi.right.next()`. -/
def rightNext (s : MergeState K I.State J.State) : Option (MergeState K I.State J.State) :=
  (MergeNode.next J s.right).map fun n => { s with right := n }

/-- `mi.small.next()`. -/
def smallNext (s : MergeState K I.State J.State) : Option (MergeState K I.State J.State) :=
  match s.small with
  | .left => (MergeNode.next I s.left).map fun n => { s with left := n }
  | .right => rightNext I J s

/-- `fix`. -/
def fix (reverse : Bool) (s : MergeState K I.State J.State) :
    Option (MergeState K I.State J.State) :=
  if !s.biggerValid then some s
  else if !s.smallValid then some s.swapSmall
  else match s.smallKey, s.biggerKey with
    | some a, some b =>
      if a = b then
        (rightNext I J s).map fun s => if s.small = .right then s.swapSmall else s
      else if a < b then
        if reverse then some s.swapSmall else some s
      else
        if reverse then some s else some s.swapSmall
    | _, _ => none

/-- The loop of `Next`, with at most `n` rounds. -/
def nextLoop (reverse : Bool) :
    ℕ → MergeState K I.State J.State → Option (MergeState K I.State J.State)
  | n, s =>
    if s.smallValid = true ∧ s.smallKey = s.curKey then
      match n with
      | 0 => none
      | n + 1 => (smallNext I J s).bind fun s => (fix I J reverse s).bind (nextLoop reverse n)
    else some s

end MergeState

/-- `MergeIterator` as an iterator over its two sides. -/
def mergeIterator (rounds : ℕ) (reverse : Bool) (I J : Iterator K V) : Iterator K V where
  State := MergeState K I.State J.State
  init := ⟨⟨false, none, I.init⟩, ⟨false, none, J.init⟩, .left, none⟩
  valid := MergeState.smallValid
  key := MergeState.smallKey
  value := fun s => match s.small with
    | .left => I.value s.left.iter
    | .right => J.value s.right.iter
  next := fun s => (MergeState.nextLoop I J reverse rounds s).map MergeState.setCurrent
  rewind := fun s =>
    (MergeNode.rewind I s.left).bind fun l => (MergeNode.rewind J s.right).bind fun r =>
      (MergeState.fix I J reverse { s with left := l, right := r }).map MergeState.setCurrent
  seek := fun t s =>
    (MergeNode.seek I t s.left).bind fun l => (MergeNode.seek J t s.right).bind fun r =>
      (MergeState.fix I J reverse { s with left := l, right := r }).map MergeState.setCurrent

/-- `NewMergeIterator`. -/
def newMergeIterator (rounds : ℕ) (reverse : Bool) : List (Iterator K V) → Option (Iterator K V)
  | [] => none
  | [I] => some I
  | [I, J] => some (mergeIterator rounds reverse I J)
  | I :: J :: I' :: iters =>
    let all := I :: J :: I' :: iters
    let mid := all.length / 2
    (newMergeIterator rounds reverse (all.take mid)).bind fun I =>
      (newMergeIterator rounds reverse (all.drop mid)).map fun J =>
        mergeIterator rounds reverse I J
termination_by iters => iters.length
decreasing_by
  · simp only [List.length_take, List.length_cons]
    omega
  · simp only [List.length_drop, List.length_cons]
    omega

end Model

/-! ## Where one merge is -/

section Proofs

variable {K V : Type} [LinearOrder K] {reverse : Bool} {l : List (K × V)} {x : K × V}

/-- A node with its iterator in front of `l`, and with copies of what it stands at. -/
structure NodeAt (I : Iterator K V) (At : I.State → List (K × V) → Prop)
    (n : MergeNode K I.State) (l : List (K × V)) : Prop where
  iter : At n.iter l
  valid : n.valid = !l.isEmpty
  key : ∀ x l', l = x :: l' → n.key = some x.1

section Node

variable {I : Iterator K V} {all : List (K × V)} {At : I.State → List (K × V) → Prop}

section

variable (h : Runs I all At)

omit [LinearOrder K]

include h

theorem nodeAt_setKey {n : MergeNode K I.State} (hn : At n.iter l) :
    NodeAt I At (MergeNode.setKey I n) l where
  iter := hn
  valid := h.valid hn
  key := by
    rintro x l' rfl
    show (if I.valid n.iter then I.key n.iter else n.key) = some x.1
    rw [h.valid hn, h.key hn]
    rfl

/-- An operation of a node is one of its iterator, after which the copies are taken. -/
theorem exists_nodeAt {o : Option I.State} (ho : ∃ s, o = some s ∧ At s l)
    (n : MergeNode K I.State) :
    ∃ n', (o.map fun s => MergeNode.setKey I { n with iter := s }) = some n' ∧
      NodeAt I At n' l := by
  obtain ⟨s, rfl, hat⟩ := ho
  exact ⟨_, rfl, nodeAt_setKey h hat⟩

theorem NodeAt.next {n : MergeNode K I.State} (hn : NodeAt I At n (x :: l)) :
    ∃ n', MergeNode.next I n = some n' ∧ NodeAt I At n' l :=
  exists_nodeAt h (h.next hn.iter) n

end

end Node

/-- The pointer is at the side whose pair comes first, and the sides stand at different keys. -/
inductive Placed (reverse : Bool) : Side → List (K × V) → List (K × V) → Prop where
  | left_nil {l : List (K × V)} : Placed reverse .left l []
  | left {x y : K × V} {l r : List (K × V)} : Before reverse x.1 y.1 →
      Placed reverse .left (x :: l) (y :: r)
  | right_nil {r : List (K × V)} : Placed reverse .right [] r
  | right {x y : K × V} {l r : List (K × V)} : Before reverse y.1 x.1 →
      Placed reverse .right (x :: l) (y :: r)

theorem Placed.split_left {r m : List (K × V)} (hp : Placed reverse .left l r)
    (hm : IsMerge reverse l r (x :: m)) : ∃ l', l = x :: l' ∧ IsMerge reverse l' r m := by
  cases hp with
  | left_nil =>
    cases hm
    exact ⟨m, rfl, .nil_right⟩
  | left hxy =>
    cases hm with
    | left _ hm => exact ⟨_, rfl, hm⟩
    | right hyx _ => exact absurd hyx hxy.asymm
    | both heq _ => exact absurd heq hxy.ne

theorem Placed.split_right {r m : List (K × V)} (hp : Placed reverse .right l r)
    (hm : IsMerge reverse l r (x :: m)) : ∃ r', r = x :: r' ∧ IsMerge reverse l r' m := by
  cases hp with
  | right_nil =>
    cases hm
    exact ⟨m, rfl, .nil_left⟩
  | right hyx =>
    cases hm with
    | left hxy _ => exact absurd hxy hyx.asymm
    | right _ hm => exact ⟨_, rfl, hm⟩
    | both heq _ => exact absurd heq.symm hyx.ne

section Merge

variable {I J : Iterator K V} {all₁ all₂ : List (K × V)} {At₁ : I.State → List (K × V) → Prop}
  {At₂ : J.State → List (K × V) → Prop}

/-- Both sides of a merge, in front of `l` and `r`. -/
structure SidesAt (At₁ : I.State → List (K × V) → Prop) (At₂ : J.State → List (K × V) → Prop)
    (s : MergeState K I.State J.State) (l r : List (K × V)) : Prop where
  left : NodeAt I At₁ s.left l
  right : NodeAt J At₂ s.right r

/-- A merge with its pointer in the right place, in front of `m`. -/
structure MergeAt (reverse : Bool) (At₁ : I.State → List (K × V) → Prop)
    (At₂ : J.State → List (K × V) → Prop) (s : MergeState K I.State J.State)
    (l r m : List (K × V)) : Prop where
  sides : SidesAt At₁ At₂ s l r
  placed : Placed reverse s.small l r
  merge : IsMerge reverse l r m
  left_inOrder : InOrder reverse l
  right_inOrder : InOrder reverse r

variable {s : MergeState K I.State J.State} {r m : List (K × V)}

/-- The pair in front is that of the side the pointer is at. -/
theorem MergeAt.small_cases (h : MergeAt reverse At₁ At₂ s l r (x :: m)) :
    (s.small = .left ∧ ∃ l', l = x :: l' ∧ IsMerge reverse l' r m) ∨
      (s.small = .right ∧ ∃ r', r = x :: r' ∧ IsMerge reverse l r' m) := by
  cases hs : s.small with
  | left => exact .inl ⟨rfl, (hs ▸ h.placed).split_left h.merge⟩
  | right => exact .inr ⟨rfl, (hs ▸ h.placed).split_right h.merge⟩

theorem MergeAt.valid (h : MergeAt reverse At₁ At₂ s l r m) : s.smallValid = !m.isEmpty := by
  unfold MergeState.smallValid
  cases m with
  | nil =>
    obtain ⟨rfl, rfl⟩ := h.merge.eq_nil
    cases s.small
    · exact h.sides.left.valid
    · exact h.sides.right.valid
  | cons x m =>
    rcases h.small_cases with ⟨hs, l', rfl, -⟩ | ⟨hs, r', rfl, -⟩
    · exact hs ▸ h.sides.left.valid
    · exact hs ▸ h.sides.right.valid

theorem MergeAt.key (h : MergeAt reverse At₁ At₂ s l r (x :: m)) : s.smallKey = some x.1 := by
  unfold MergeState.smallKey
  rcases h.small_cases with ⟨hs, l', rfl, -⟩ | ⟨hs, r', rfl, -⟩
  · exact hs ▸ h.sides.left.key x l' rfl
  · exact hs ▸ h.sides.right.key x r' rfl

theorem MergeState.fix_of_ne {a b : K} (hsv : s.smallValid = true) (hbv : s.biggerValid = true)
    (ha : s.smallKey = some a) (hb : s.biggerKey = some b) (hne : a ≠ b) :
    MergeState.fix I J reverse s = some (if Before reverse a b then s else s.swapSmall) := by
  unfold MergeState.fix
  rw [hsv, hbv, ha, hb]
  simp only [Bool.not_true, Bool.false_eq_true, if_false, if_neg hne]
  cases reverse with
  | false =>
    simp only [before_false, Bool.false_eq_true, if_false]
    split_ifs <;> rfl
  | true =>
    simp only [before_true, if_true]
    rcases lt_or_gt_of_ne hne with hab | hba
    · rw [if_pos hab, if_neg hab.asymm]
    · rw [if_neg hba.asymm, if_pos hba]

theorem MergeState.fix_of_eq {a : K} (hsv : s.smallValid = true) (hbv : s.biggerValid = true)
    (ha : s.smallKey = some a) (hb : s.biggerKey = some a) :
    MergeState.fix I J reverse s = (MergeState.rightNext I J s).map fun s =>
      if s.small = .right then s.swapSmall else s := by
  unfold MergeState.fix
  rw [hsv, hbv, ha, hb]
  simp only [Bool.not_true, Bool.false_eq_true, if_false, if_true]

/-- **`fix` puts the pointer right.** -/
theorem exists_fix_eq (h₂ : Runs J all₂ At₂) (hs : SidesAt At₁ At₂ s l r)
    (hm : IsMerge reverse l r m) (hl : InOrder reverse l) (hr : InOrder reverse r) :
    ∃ s' r', MergeState.fix I J reverse s = some s' ∧ MergeAt reverse At₁ At₂ s' l r' m ∧
      s'.curKey = s.curKey := by
  obtain ⟨⟨lv, lk, li⟩, ⟨rv, rk, ri⟩, small, cur⟩ := s
  obtain ⟨hleft, hright⟩ := hs
  have hlv : lv = !l.isEmpty := hleft.valid
  have hrv : rv = !r.isEmpty := hright.valid
  subst hlv hrv
  cases l with
  | nil =>
    cases r with
    | nil =>
      refine ⟨_, [], by cases small <;> rfl, ⟨⟨hleft, hright⟩, ?_, hm, hl, hr⟩, rfl⟩
      cases small
      · exact .left_nil
      · exact .right_nil
    | cons y r =>
      refine ⟨⟨⟨false, lk, li⟩, ⟨true, rk, ri⟩, .right, cur⟩, y :: r, by cases small <;> rfl,
        ⟨⟨hleft, hright⟩, .right_nil, hm, hl, hr⟩, rfl⟩
  | cons x l =>
    cases r with
    | nil =>
      refine ⟨⟨⟨true, lk, li⟩, ⟨false, rk, ri⟩, .left, cur⟩, [], by cases small <;> rfl,
        ⟨⟨hleft, hright⟩, .left_nil, hm, hl, hr⟩, rfl⟩
    | cons y r =>
      obtain rfl : lk = some x.1 := hleft.key x l rfl
      obtain rfl : rk = some y.1 := hright.key y r rfl
      rcases before_trichotomy reverse x.1 y.1 with hxy | hxy | hyx
      · refine ⟨⟨⟨true, some x.1, li⟩, ⟨true, some y.1, ri⟩, .left, cur⟩, y :: r, ?_,
          ⟨⟨hleft, hright⟩, .left hxy, hm, hl, hr⟩, rfl⟩
        cases small with
        | left =>
          exact (MergeState.fix_of_ne rfl rfl rfl rfl hxy.ne).trans (by rw [if_pos hxy]; rfl)
        | right =>
          exact (MergeState.fix_of_ne rfl rfl rfl rfl hxy.ne.symm).trans
            (by rw [if_neg hxy.asymm]; rfl)
      · -- The right side moves on, and the left side is the one to be seen.
        obtain ⟨n, hn, hat⟩ := NodeAt.next h₂ hright
        refine ⟨⟨⟨true, some x.1, li⟩, n, .left, cur⟩, r, ?_,
          ⟨⟨hleft, hat⟩, ?_, hm.skip hr hxy, hl, hr.of_cons⟩, rfl⟩
        · have hnext : ∀ side, MergeState.rightNext I J
              ⟨⟨true, some x.1, li⟩, ⟨true, some y.1, ri⟩, side, cur⟩ =
                some ⟨⟨true, some x.1, li⟩, n, side, cur⟩ := fun side => by
            unfold MergeState.rightNext
            exact congrArg (Option.map _) hn
          cases small with
          | left =>
            refine (MergeState.fix_of_eq
              (s := ⟨⟨true, some x.1, li⟩, ⟨true, some y.1, ri⟩, .left, cur⟩) (a := x.1)
              rfl rfl rfl (congrArg some hxy.symm)).trans ?_
            rw [hnext]
            rfl
          | right =>
            refine (MergeState.fix_of_eq
              (s := ⟨⟨true, some x.1, li⟩, ⟨true, some y.1, ri⟩, .right, cur⟩) (a := y.1)
              rfl rfl rfl (congrArg some hxy)).trans ?_
            rw [hnext]
            rfl
        · cases r with
          | nil => exact .left_nil
          | cons z r =>
            exact .left (hxy ▸ (pairwise_cons.mp hr).1 z (.head _))
      · refine ⟨⟨⟨true, some x.1, li⟩, ⟨true, some y.1, ri⟩, .right, cur⟩, y :: r, ?_,
          ⟨⟨hleft, hright⟩, .right hyx, hm, hl, hr⟩, rfl⟩
        cases small with
        | left =>
          exact (MergeState.fix_of_ne rfl rfl rfl rfl hyx.ne.symm).trans
            (by rw [if_neg hyx.asymm]; rfl)
        | right =>
          exact (MergeState.fix_of_ne rfl rfl rfl rfl hyx.ne).trans (by rw [if_pos hyx]; rfl)

section

variable (h₁ : Runs I all₁ At₁) (h₂ : Runs J all₂ At₂) (h : MergeAt reverse At₁ At₂ s l r (x :: m))
include h₁ h₂ h

theorem MergeAt.smallNext :
    ∃ s' l' r', MergeState.smallNext I J s = some s' ∧ SidesAt At₁ At₂ s' l' r' ∧
      IsMerge reverse l' r' m ∧ InOrder reverse l' ∧ InOrder reverse r' ∧ s'.curKey = s.curKey := by
  have hcases := h.small_cases
  obtain ⟨⟨hl, hr⟩, -, -, hlo, hro⟩ := h
  unfold MergeState.smallNext
  rcases hcases with ⟨hs, l', rfl, hm'⟩ | ⟨hs, r', rfl, hm'⟩
  · obtain ⟨n, hn, hat⟩ := NodeAt.next h₁ hl
    refine ⟨{ s with left := n }, l', r, ?_, ⟨hat, hr⟩, hm', hlo.of_cons, hro, rfl⟩
    rw [hn, hs]
    rfl
  · obtain ⟨n, hn, hat⟩ := NodeAt.next h₂ hr
    refine ⟨{ s with right := n }, l, r', ?_, ⟨hl, hat⟩, hm', hlo, hro.of_cons, rfl⟩
    rw [MergeState.rightNext, hn, hs]
    rfl

/-- **One round of `Next` is enough**: behind it the pointer is at another key. -/
theorem nextLoop_eq (hcur : s.curKey = some x.1) (n : ℕ) :
    ∃ s' l' r', MergeState.nextLoop I J reverse (n + 1) s = some s' ∧
      MergeAt reverse At₁ At₂ s' l' r' m := by
  obtain ⟨s₁, l', r₁, hs₁, hsides, hm, hl, hr, hcur₁⟩ := h.smallNext h₁ h₂
  obtain ⟨s₂, r', hs₂, hat, hcur₂⟩ := exists_fix_eq h₂ hsides hm hl hr
  refine ⟨s₂, l', r', ?_, hat⟩
  have hstop : ¬ (s₂.smallValid = true ∧ s₂.smallKey = s₂.curKey) := by
    rintro ⟨hvalid, hkey⟩
    cases m with
    | nil => cases hat.valid.symm.trans hvalid
    | cons y m =>
      rw [hat.key, hcur₂, hcur₁, hcur, some_inj] at hkey
      have hxy := (h.merge.inOrder h.left_inOrder h.right_inOrder)
      exact ((pairwise_cons.mp hxy).1 y (.head _)).ne hkey.symm
  have hgo : s.smallValid = true ∧ s.smallKey = s.curKey := ⟨h.valid, h.key.trans hcur.symm⟩
  unfold MergeState.nextLoop
  rw [if_pos hgo]
  simp only [hs₁, hs₂, bind_some]
  unfold MergeState.nextLoop
  rw [if_neg hstop]

end

/-- A merge between two operations: `curKey` is the key of the pair in front. -/
def MergeFront (reverse : Bool) (At₁ : I.State → List (K × V) → Prop)
    (At₂ : J.State → List (K × V) → Prop) (s : MergeState K I.State J.State)
    (m : List (K × V)) : Prop :=
  (∃ l r, MergeAt reverse At₁ At₂ s l r m) ∧ ∀ x m', m = x :: m' → s.curKey = some x.1

theorem MergeAt.setCurrent (h : MergeAt reverse At₁ At₂ s l r m) :
    MergeFront reverse At₁ At₂ s.setCurrent m := by
  refine ⟨⟨l, r, ⟨h.sides.left, h.sides.right⟩, h.placed, h.merge, h.left_inOrder,
    h.right_inOrder⟩, ?_⟩
  rintro x m' rfl
  exact h.key

/-- When both sides have been put somewhere, `fix` gets the merge ready. -/
theorem exists_mergeFront (h₂ : Runs J all₂ At₂) {ol : Option (MergeNode K I.State)}
    {or : Option (MergeNode K J.State)} (hl : ∃ n, ol = some n ∧ NodeAt I At₁ n l)
    (hr : ∃ n, or = some n ∧ NodeAt J At₂ n r) (hm : IsMerge reverse l r m)
    (ho₁ : InOrder reverse l) (ho₂ : InOrder reverse r) (s : MergeState K I.State J.State) :
    ∃ s', (ol.bind fun l => or.bind fun r => (MergeState.fix I J reverse
      { s with left := l, right := r }).map MergeState.setCurrent) = some s' ∧
      MergeFront reverse At₁ At₂ s' m := by
  obtain ⟨nl, rfl, hl⟩ := hl
  obtain ⟨nr, rfl, hr⟩ := hr
  obtain ⟨s', r', hs', hat, -⟩ := exists_fix_eq h₂ (s := { s with left := nl, right := nr })
    ⟨hl, hr⟩ hm ho₁ ho₂
  refine ⟨s'.setCurrent, ?_, hat.setCurrent⟩
  rw [bind_some, bind_some, hs']
  rfl

/-- An iteration over a merge from the start, if its sides can be iterated over. -/
theorem runs_mergeIterator (h₁ : Runs I all₁ At₁) (h₂ : Runs J all₂ At₂)
    (ho₁ : InOrder reverse all₁) (ho₂ : InOrder reverse all₂) {all : List (K × V)}
    (hm : IsMerge reverse all₁ all₂ all) (n : ℕ) :
    Runs (mergeIterator (n + 1) reverse I J) all (MergeFront reverse At₁ At₂) where
  valid := fun ⟨⟨l, r, h⟩, _⟩ => h.valid
  key := fun ⟨⟨l, r, h⟩, _⟩ => h.key
  value := by
    rintro s x m ⟨⟨l, r, h⟩, -⟩
    show (match s.small with
      | .left => I.value s.left.iter
      | .right => J.value s.right.iter) = some x.2
    rcases h.small_cases with ⟨hs, l', rfl, -⟩ | ⟨hs, r', rfl, -⟩
    · exact hs ▸ h₁.value h.sides.left.iter
    · exact hs ▸ h₂.value h.sides.right.iter
  next := by
    rintro s x m ⟨⟨l, r, h⟩, hcur⟩
    obtain ⟨s', l', r', hs', hat⟩ := nextLoop_eq h₁ h₂ h (hcur x m rfl) n
    exact ⟨s'.setCurrent, congrArg (Option.map MergeState.setCurrent) hs', hat.setCurrent⟩
  rewind := fun s => exists_mergeFront h₂ (exists_nodeAt h₁ (h₁.rewind s.left.iter) s.left)
    (exists_nodeAt h₂ (h₂.rewind s.right.iter) s.right) hm ho₁ ho₂ s

/-- **A merge is correct if its sides are.** -/
theorem follows_mergeIterator (h₁ : Follows reverse I all₁ At₁) (h₂ : Follows reverse J all₂ At₂)
    (ho₁ : InOrder reverse all₁) (ho₂ : InOrder reverse all₂) {all : List (K × V)}
    (hm : IsMerge reverse all₁ all₂ all) (n : ℕ) :
    Follows reverse (mergeIterator (n + 1) reverse I J) all (MergeFront reverse At₁ At₂) where
  toRuns := runs_mergeIterator h₁.toRuns h₂.toRuns ho₁ ho₂ hm n
  seek := fun t s => exists_mergeFront h₂.toRuns
    (exists_nodeAt h₁.toRuns (h₁.seek t s.left.iter) s.left)
    (exists_nodeAt h₂.toRuns (h₂.seek t s.right.iter) s.right) (hm.fromKey t) (ho₁.fromKey t)
    (ho₂.fromKey t) s

end Merge

/-! ## The tree of merges -/

/-- What holds of a merge if it holds of its sides holds of the tree.  The tree has the union of the
lists of its iterators, and of the pairs with one key it has that of the first iterator with the
key. -/
theorem exists_newMergeIterator {R : Iterator K V → List (K × V) → Prop} {n : ℕ}
    (horder : ∀ I l, R I l → InOrder reverse l)
    (hmerge : ∀ I J l r m, R I l → R J r → IsMerge reverse l r m →
      R (mergeIterator (n + 1) reverse I J) m)
    (iters : List (Iterator K V)) (ls : List (List (K × V))) (hne : iters ≠ [])
    (h : List.Forall₂ R iters ls) :
    ∃ I all, newMergeIterator (n + 1) reverse iters = some I ∧ R I all ∧
      ∀ x, x ∈ all ↔ Leftmost ls x := by
  have hone : ∀ {l : List (K × V)} (x : K × V), x ∈ l ↔ Leftmost [l] x := fun x => by
    simp [Leftmost]
  -- Two trees under a merge.
  have htwo : ∀ {I J : Iterator K V} {l r : List (K × V)} {ls₁ ls₂ : List (List (K × V))},
      R I l → R J r → (∀ x, x ∈ l ↔ Leftmost ls₁ x) → (∀ x, x ∈ r ↔ Leftmost ls₂ x) →
      ∃ all, R (mergeIterator (n + 1) reverse I J) all ∧
        ∀ x, x ∈ all ↔ Leftmost (ls₁ ++ ls₂) x := by
    intro I J l r ls₁ ls₂ hI hJ hl hr
    obtain ⟨all, hm⟩ := exists_isMerge reverse l r
    exact ⟨all, hmerge I J l r all hI hJ hm,
      hm.mem_iff_leftmost (horder I l hI) (horder J r hJ) hl hr⟩
  fun_induction newMergeIterator (n + 1) reverse iters generalizing ls with
  | case1 => exact absurd rfl hne
  | case2 I =>
    obtain ⟨l, ls, hI, hnil, rfl⟩ := forall₂_cons_left_iff.mp h
    obtain rfl := forall₂_nil_left_iff.mp hnil
    exact ⟨I, l, rfl, hI, hone⟩
  | case3 I J =>
    obtain ⟨l, ls, hI, hrest, rfl⟩ := forall₂_cons_left_iff.mp h
    obtain ⟨l', ls, hJ, hnil, rfl⟩ := forall₂_cons_left_iff.mp hrest
    obtain rfl := forall₂_nil_left_iff.mp hnil
    obtain ⟨all, hall, hmem⟩ := htwo hI hJ hone hone
    exact ⟨_, all, rfl, hall, hmem⟩
  | case4 I J I' iters all mid ih₁ ih₂ =>
    -- Each half has an iterator.
    have hmid : 0 < mid ∧ mid < all.length := by
      simp only [mid, all, length_cons]
      omega
    obtain ⟨I₁, all₁, hI₁, hall₁, hmem₁⟩ := ih₁ (ls.take mid)
      (by simp [all, hmid.1.ne']) (forall₂_take _ h)
    obtain ⟨I₂, all₂, hI₂, hall₂, hmem₂⟩ := ih₂ (ls.drop mid)
      (by simpa using hmid.2) (forall₂_drop _ h)
    obtain ⟨all', hall', hmem'⟩ := htwo hall₁ hall₂ hmem₁ hmem₂
    rw [take_append_drop] at hmem'
    exact ⟨_, all', by rw [hI₁, bind_some, hI₂]; rfl, hall', hmem'⟩

/-- **The tree is correct.** -/
theorem over_newMergeIterator (n : ℕ) (iters : List (Iterator K V)) (ls : List (List (K × V)))
    (hne : iters ≠ []) (h : List.Forall₂ (Over reverse) iters ls) :
    ∃ I all, newMergeIterator (n + 1) reverse iters = some I ∧ Over reverse I all ∧
      ∀ x, x ∈ all ↔ Leftmost ls x := by
  refine exists_newMergeIterator (fun I l hI => hI.1) (fun I J l r m hI hJ hm => ?_) iters ls hne h
  obtain ⟨ho₁, At₁, h₁⟩ := hI
  obtain ⟨ho₂, At₂, h₂⟩ := hJ
  exact ⟨hm.inOrder ho₁ ho₂, _, follows_mergeIterator h₁ h₂ ho₁ ho₂ hm n⟩

theorem runs_newMergeIterator (n : ℕ) (iters : List (Iterator K V)) (ls : List (List (K × V)))
    (hne : iters ≠ [])
    (h : List.Forall₂ (fun I l => InOrder reverse l ∧ ∃ At, Runs I l At) iters ls) :
    ∃ I all, newMergeIterator (n + 1) reverse iters = some I ∧
      (InOrder reverse all ∧ ∃ At, Runs I all At) ∧ ∀ x, x ∈ all ↔ Leftmost ls x := by
  refine exists_newMergeIterator (fun I l hI => hI.1) (fun I J l r m hI hJ hm => ?_) iters ls hne h
  obtain ⟨ho₁, At₁, h₁⟩ := hI
  obtain ⟨ho₂, At₂, h₂⟩ := hJ
  exact ⟨hm.inOrder ho₁ ho₂, _, runs_mergeIterator h₁ h₂ ho₁ ho₂ hm n⟩

/-- The iterator over a sorted map, in one of the directions. -/
def mapIterator (reverse : Bool) (c : SortedMap K V) : Iterator K V :=
  listIterator reverse (directed reverse c.entries)

theorem over_mapIterator (reverse : Bool) (c : SortedMap K V) :
    Over reverse (mapIterator reverse c) (directed reverse c.entries) :=
  ⟨inOrder_directed c.sorted, _, follows_listIterator reverse _⟩

/-- **The merge iterator is an ordered union with leftmost priority.**  From any state `Rewind`, and
`Seek(t)` for the pairs that do not come before `t`, start an iteration over all keys of the
children, each key once and with the value of the first child that has it.  No child is moved on
when it is exhausted: then there would be no next state. -/
theorem mergeIterator_orderedUnion (reverse : Bool) (children : List (SortedMap K V))
    (hne : children ≠ []) (n : ℕ) :
    ∃ I all, newMergeIterator (n + 1) reverse (children.map (mapIterator reverse)) = some I ∧
      InOrder reverse all ∧
      (∀ x, x ∈ all ↔ ∃ (i : ℕ) (c : SortedMap K V), children[i]? = some c ∧ x ∈ c ∧
        ∀ (j : ℕ) (c' : SortedMap K V), j < i → children[j]? = some c' → ∀ y ∈ c', y.1 ≠ x.1) ∧
      ∀ s : I.State, (∃ s', I.rewind s = some s' ∧ Yields I s' all) ∧
        ∀ t, ∃ s', I.seek t s = some s' ∧
          Yields I s' (all.filter fun x => ¬ Before reverse x.1 t) := by
  have hforall : List.Forall₂ (Over reverse) (children.map (mapIterator reverse))
      (children.map fun c => directed reverse c.entries) := by
    rw [forall₂_map_left_iff, forall₂_map_right_iff, forall₂_same]
    exact fun c _ => over_mapIterator reverse c
  obtain ⟨I, all, hI, hover, hall⟩ := over_newMergeIterator n _ _ (by simpa using hne) hforall
  refine ⟨I, all, hI, hover.1, fun x => ?_, hover.yields⟩
  rw [hall, leftmost_iff]
  simp only [getElem?_map, map_eq_some_iff]
  constructor
  · rintro ⟨i, l, ⟨c, hc, rfl⟩, hx, hlt⟩
    exact ⟨i, c, hc, mem_directed.mp hx, fun j c' hj hc' y hy =>
      hlt j _ hj ⟨c', hc', rfl⟩ y (mem_directed.mpr hy)⟩
  · rintro ⟨i, c, hc, hx, hlt⟩
    refine ⟨i, _, ⟨c, hc, rfl⟩, mem_directed.mpr hx, ?_⟩
    rintro j l' hj ⟨c', hc', rfl⟩ y hy
    exact hlt j c' hj hc' y (mem_directed.mp hy)

end Proofs

/-- Three children, one of them empty, that have a key in common. -/
def overlapping : List (SortedMap Y.InternalKey Y.ValueStruct) :=
  [SortedMap.empty.insert ⟨[1], 7⟩ { value := some [1] }, SortedMap.empty,
    (SortedMap.empty.insert ⟨[1], 7⟩ { value := some [2] }).insert ⟨[1], 3⟩ { value := some [3] }]

theorem mergeIterator_orderedUnion_overlapping :
    overlapping ≠ [] ∧
      ∃ I all, newMergeIterator 1 true (overlapping.map (mapIterator true)) = some I ∧
        InOrder true all ∧
        (∀ x, x ∈ all ↔ ∃ (i : ℕ) (c : SortedMap Y.InternalKey Y.ValueStruct),
          overlapping[i]? = some c ∧ x ∈ c ∧
          ∀ (j : ℕ) (c' : SortedMap Y.InternalKey Y.ValueStruct), j < i →
            overlapping[j]? = some c' → ∀ y ∈ c', y.1 ≠ x.1) ∧
        ∀ s : I.State, (∃ s', I.rewind s = some s' ∧ Yields I s' all) ∧
          ∀ t, ∃ s', I.seek t s = some s' ∧
            Yields I s' (all.filter fun x => ¬ Before true x.1 t) :=
  ⟨cons_ne_nil _ _, mergeIterator_orderedUnion true overlapping (cons_ne_nil _ _) 0⟩

/-! ## Tables -/

theorem mem_mergeAll_iff (ms : List (SortedMap Y.InternalKey Y.ValueStruct)) (x : Pair) :
    x ∈ (mergeAll ms).entries ↔ Leftmost (ms.map fun m => m.entries) x := by
  induction ms with
  | nil => simp [mergeAll, empty, Leftmost]
  | cons m ms ih =>
    have hmem : x ∈ m.merge (mergeAll ms) ↔
        x ∈ m ∨ (x ∈ mergeAll ms ∧ ∀ y ∈ m, y.1 ≠ x.1) := mem_merge
    rw [map_cons, Leftmost, ← ih]
    exact hmem.trans (or_congr_right and_comm)

/-- The merge iterator over sorted maps, whatever the iterators over them are. -/
theorem over_mergeAll {iters : List (Iterator Y.InternalKey Y.ValueStruct)}
    {ms : List (SortedMap Y.InternalKey Y.ValueStruct)} (hne : iters ≠ [])
    (h : List.Forall₂ (fun I m => Over false I m.entries) iters ms) (n : ℕ) :
    ∃ I, newMergeIterator (n + 1) false iters = some I ∧
      Over false I (mergeAll ms).entries := by
  obtain ⟨I, all, hI, hover, hall⟩ := over_newMergeIterator n iters (ms.map fun m => m.entries) hne
    (forall₂_map_right_iff.mpr h)
  have heq : all = (mergeAll ms).entries :=
    hover.1.ext (mergeAll ms).sorted fun x => (hall x).trans (mem_mergeAll_iff ms x).symm
  exact ⟨I, hI, heq ▸ hover⟩

theorem mem_mergeIterators_iff (ts : List Table) (x : Pair) :
    x ∈ (mergeIterators ts).entries ↔ Leftmost (ts.map fun t => t.data.entries) x := by
  rw [mergeIterators_eq, mem_mergeAll_iff, List.map_map]
  rfl

end Autumn
