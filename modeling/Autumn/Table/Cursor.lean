import Autumn.Table.TableIterator

/-!
# The iterator over a table is a cursor on the list of its pairs

What a table iterator is for, said without blocks: there is a list of pairs in order, and a position
in it.  `Rewind` goes to the end the direction starts from, `Seek` to the first pair in the
direction that does not lie before the target, `Next` one pair on; past the end there is no
position.  A new iterator stands at the first pair also if it is reversed: `NewIterator` calls
`next`.
-/

namespace Autumn

open Lib Y List InternalKey

namespace Sst

namespace Cursor

/-- The pair with index `i` is not below the target, or not above it if the direction is
reversed. -/
def reaches (l : List KV) (reversed : Bool) (target : Bytes) (i : ℕ) : Bool :=
  (l[i]?).any fun x =>
    decide (Raw.compareKeys x.1 target ≠ if reversed then .gt else .lt)

/-- The indices of a list in the order in which the direction visits them. -/
def visits (l : List KV) (reversed : Bool) : List ℕ :=
  if reversed then (List.range l.length).reverse else List.range l.length

/-- A cursor on a list: its index, `none` past the end. -/
def step (l : List KV) (reversed : Bool) (c : Option ℕ) : TableIterator.Op → Option ℕ
  | .rewind => (visits l reversed).head?
  | .seek target => (visits l reversed).find? (reaches l reversed target)
  | .next => c.bind fun i =>
    if reversed then if i = 0 then none else some (i - 1)
    else if i + 1 < l.length then some (i + 1) else none

/-- The cursor starts at the first pair, in either direction. -/
def run (l : List KV) (reversed : Bool) (ops : List TableIterator.Op) : Option ℕ :=
  ops.foldl (step l reversed) (some 0)

variable {l : List KV} {target : Bytes} {g : ℕ}

section

variable (hl : ∀ x ∈ l, 8 ≤ x.1.length) (ht : 8 ≤ target.length)
include hl ht

theorem reaches_forward (i : ℕ) :
    reaches l false target i = true ↔ BlockIterator.NotBelow target l i := by
  rw [reaches, Option.any_eq_true]
  refine exists_congr fun x => and_congr_right fun hx => ?_
  rw [decide_eq_true_iff, if_neg Bool.false_ne_true,
    Raw.compareKeys_eq (hl x (mem_of_getElem? hx)) ht, ne_eq, cmp_eq_lt_iff, not_lt]

theorem reaches_reversed {i : ℕ} {x : KV} (hx : l[i]? = some x) :
    reaches l true target i = true ↔ ofBytes x.1 ≤ ofBytes target := by
  rw [reaches, hx, Option.any_some, decide_eq_true_iff, if_pos rfl,
    Raw.compareKeys_eq (hl x (mem_of_getElem? hx)) ht, ne_eq, cmp_eq_gt_iff, not_lt]

theorem seek_forward (hg : IsFirst (BlockIterator.NotBelow target l) l.length g) (c : Option ℕ) :
    step l false c (.seek target) = if g < l.length then some g else none := by
  have hbelow : ∀ a < g, reaches l false target a = false := fun a ha =>
    Bool.not_eq_true _ ▸ fun hr => hg.below a ha ((reaches_forward hl ht a).mp hr)
  show (List.range l.length).find? _ = _
  by_cases hlt : g < l.length
  · rw [if_pos hlt, find?_range_eq_some]
    refine ⟨(reaches_forward hl ht g).mpr (hg.at_lt hlt), mem_range.mpr hlt, fun a ha => ?_⟩
    rw [hbelow a ha]
    rfl
  · rw [if_neg hlt, find?_range_eq_none]
    intro a ha
    rw [hbelow a (by omega)]
    rfl

end

theorem find?_reverse_range {p : ℕ → Bool} (hg : p g = true) :
    ∀ n, g < n → (∀ a, g < a → a < n → p a = false) → (List.range n).reverse.find? p = some g := by
  intro n
  induction n with
  | zero => exact fun hlt => absurd hlt (Nat.not_lt_zero _)
  | succ n ih =>
    intro hlt habove
    rw [range_succ, reverse_append, reverse_singleton, singleton_append]
    rcases Nat.lt_succ_iff_lt_or_eq.mp hlt with hlt' | rfl
    · rw [find?_cons_of_neg (by rw [habove n hlt' (Nat.lt_succ_self n)]; exact Bool.false_ne_true)]
      exact ih hlt' fun a ha hn => habove a ha (Nat.lt_succ_of_lt hn)
    · exact find?_cons_of_pos hg

/-- The search backwards finds the last pair that is not above the target. -/
theorem seek_reversed_some (hl : ∀ x ∈ l, 8 ≤ x.1.length) (ht : 8 ≤ target.length) {e : KV}
    (hg : l[g]? = some e) (hle : ofBytes e.1 ≤ ofBytes target) (habove : ∀
      (a : ℕ) (x : KV), g < a → l[a]? = some x → ofBytes target < ofBytes
      x.1) (c : Option ℕ) : step l true c (.seek target) = some g := by
  refine find?_reverse_range ((reaches_reversed hl ht hg).mpr hle) _
    (List.getElem?_eq_some_iff.mp hg).1 fun a hlt ha => ?_
  have hx := getElem?_eq_getElem ha
  rw [Bool.eq_false_iff, ne_eq, reaches_reversed hl ht hx, not_le]
  exact habove a _ hlt hx

theorem seek_reversed_none (hl : ∀ x ∈ l, 8 ≤ x.1.length) (ht : 8 ≤ target.length)
    (habove : ∀ (a : ℕ) (x : KV), l[a]? = some x → ofBytes target < ofBytes x.1) (c : Option ℕ) :
    step l true c (.seek target) = none := by
  refine find?_eq_none.mpr fun a ha => ?_
  have hx := getElem?_eq_getElem (mem_range.mp (mem_reverse.mp ha))
  rw [reaches_reversed hl ht hx, not_le]
  exact habove a _ hx

end Cursor

namespace TableIterator

variable {t : Table} {blocks : List (List KV)} {itr : TableIterator}

/-- The iterator is where the cursor is. -/
def Follows (t : Table) (blocks : List (List KV)) (reversed : Bool) (itr : TableIterator) :
    Option ℕ → Prop
  | some g => ∃ e, OnPair blocks itr g e
  | none => if reversed then BeforeFirst itr else PastEnd t blocks itr

/-- The targets of seeks are internal keys. -/
def Op.HasVersion : Op → Prop
  | .seek key => 8 ≤ key.length
  | _ => True

section

variable (h : Laid t blocks) (reversed : Bool)
include h reversed

theorem rewind_follows (c : Option ℕ) : ∃ itr', step t reversed itr .rewind = some itr' ∧
      Follows t blocks reversed itr' (Cursor.step blocks.flatten reversed c .rewind) := by
  have hpos := h.flatten_pos
  cases reversed with
  | false =>
    obtain ⟨itr', e, hseek, hon⟩ := @seekToFirst_spec t blocks itr h
    have hc : Cursor.step blocks.flatten false c .rewind = some 0 := by
      show (List.range blocks.flatten.length).head? = some 0
      rw [head?_range, if_neg hpos.ne']
    exact ⟨itr', hseek, hc ▸ ⟨e, hon⟩⟩
  | true =>
    obtain ⟨itr', e, hseek, hon⟩ := @seekToLast_spec t blocks itr h
    have hc : Cursor.step blocks.flatten true c .rewind = some (blocks.flatten.length - 1) := by
      show (List.range blocks.flatten.length).reverse.head? = _
      rw [head?_reverse, getLast?_range, if_neg hpos.ne']
    exact ⟨itr', hseek, hc ▸ ⟨e, hon⟩⟩

theorem seek_follows {target : Bytes} (ht : 8 ≤ target.length) (c : Option ℕ) :
    ∃ itr', step t reversed itr (.seek target) = some itr' ∧
      Follows t blocks reversed itr' (Cursor.step blocks.flatten reversed c (.seek target)) := by
  have hl : ∀ x ∈ blocks.flatten, 8 ≤ x.1.length := fun x hx => (h.fits x hx).key.len_ge
  cases reversed with
  | false =>
    obtain ⟨itr', bp, es, i, hseek, hs⟩ := @seekFrom_spec t blocks itr h target ht
    refine ⟨itr', hseek, ?_⟩
    rw [Cursor.seek_forward hl ht hs.first]
    by_cases hi : i < es.length
    · obtain ⟨e, _, hon⟩ := onPair_of_inBlock hs.in_block hi (hs.err_eq.trans (if_pos hi))
      rw [if_pos (List.getElem?_eq_some_iff.mp hon.get).1]
      exact ⟨e, hon⟩
    · have hlast := hs.last.resolve_left hi
      obtain rfl : i = es.length := Nat.le_antisymm hs.in_block.le (not_lt.mp hi)
      rw [if_neg (position_last hs.in_block.get hlast).ge.not_gt]
      exact ⟨hs.err_eq.trans (if_neg hi), .inr ⟨bp, es, hs.in_block, hlast⟩⟩
  | true =>
    obtain ⟨itr', hseek, hcase⟩ := @seekForPrev_spec t blocks itr h target ht
    refine ⟨itr', hseek, ?_⟩
    rcases hcase with ⟨g, e, hon, hle, habove⟩ | ⟨hbefore, habove⟩
    · rw [Cursor.seek_reversed_some hl ht hon.get hle habove]
      exact ⟨e, hon⟩
    · rw [Cursor.seek_reversed_none hl ht habove]
      exact hbefore

theorem next_follows {c : Option ℕ} (hc : Follows t blocks reversed itr c) :
    ∃ itr', step t reversed itr .next = some itr' ∧
      Follows t blocks reversed itr' (Cursor.step blocks.flatten reversed c .next) := by
  cases reversed with
  | false =>
    cases c with
    | none => exact next_of_pastEnd h hc
    | some g =>
      obtain ⟨e, hon⟩ := hc
      obtain ⟨itr', hnext, hcase⟩ := next_spec h hon
      refine ⟨itr', hnext, ?_⟩
      show Follows t blocks false itr' (if g + 1 < blocks.flatten.length then _ else _)
      rcases hcase with ⟨e', hon'⟩ | ⟨hend, hpast⟩
      · rw [if_pos (List.getElem?_eq_some_iff.mp hon'.get).1]
        exact ⟨e', hon'⟩
      · rw [if_neg hend.ge.not_gt]
        exact hpast
  | true =>
    cases c with
    | none => exact prev_of_beforeFirst hc
    | some g =>
      obtain ⟨e, hon⟩ := hc
      obtain ⟨bp, es, i, hin, _, rfl⟩ := hon.in_block
      obtain ⟨itr', hprev, hcase⟩ := prev_of_inBlock h hin
      refine ⟨itr', hprev, ?_⟩
      show Follows t blocks true itr' (if position blocks bp i = 0 then _ else _)
      rcases hcase with ⟨g, e', hg, hon'⟩ | ⟨hg, hbefore⟩
      · rw [if_neg (by omega), hg, Nat.add_sub_cancel]
        exact ⟨e', hon'⟩
      · rw [if_pos hg]
        exact hbefore

theorem step_follows {c : Option ℕ} (hc : Follows t blocks reversed itr c) {op : Op}
    (hop : op.HasVersion) : ∃ itr', step t reversed itr op = some itr' ∧
      Follows t blocks reversed itr' (Cursor.step blocks.flatten reversed c op) := by
  cases op with
  | rewind => exact rewind_follows h reversed c
  | seek target => exact seek_follows h reversed hop c
  | next => exact next_follows h reversed hc

/-- Any sequence of calls moves the iterator as it moves the cursor. -/
theorem run_follows (ops : List Op) (hops : ∀ op ∈ ops, op.HasVersion) :
    ∃ itr, run t reversed ops = some itr ∧
      Follows t blocks reversed itr (Cursor.run blocks.flatten reversed ops) := by
  have hsteps : ∀ (ops : List Op) (itr : TableIterator) (c : Option ℕ),
      (∀ op ∈ ops, op.HasVersion) → Follows t blocks reversed itr c →
      ∃ itr', ops.foldlM (step t reversed) itr = some itr' ∧
        Follows t blocks reversed itr' (ops.foldl (Cursor.step blocks.flatten reversed) c) := by
    intro ops
    induction ops with
    | nil => exact fun itr c _ hc => ⟨itr, rfl, hc⟩
    | cons op ops ih =>
      intro itr c hops hc
      obtain ⟨itr₁, hstep, hc₁⟩ := step_follows h reversed hc (hops op (.head _))
      obtain ⟨itr', hrest, hc'⟩ := ih itr₁ _ (fun o ho => hops o (.tail _ ho)) hc₁
      refine ⟨itr', ?_, hc'⟩
      rw [foldlM_cons, hstep]
      exact hrest
  obtain ⟨itr₀, e, hnew, hon⟩ := newIterator_spec h
  obtain ⟨itr, hrun, hc⟩ := hsteps ops itr₀ (some 0) hops ⟨e, hon⟩
  refine ⟨itr, ?_, hc⟩
  rw [run, hnew]
  exact hrun

end

end TableIterator
end Sst
end Autumn
