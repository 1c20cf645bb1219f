import Autumn.Skiplist.Arena
import Autumn.Lib.Towers
import Autumn.Lib.Iterator

/-!
# The skiplist

`skl.go` over the arena: nodes are positions, `0` is `nil`, and the pointers of the towers are those
of `Lib.Towers`, with `CompareKeys` as the comparison (`Skl.probe`).  The code is run by one thread,
but `Put` keeps its retry loop.  `none` is a failed assertion or a loop that has not come to an end
after as many rounds as the arena has bytes and levels (`Skl.fuel`).
-/

namespace Autumn

open Lib Y List InternalKey Skiplist

/-- `Skiplist`. -/
structure Skl where
  height : ℕ
  head : ℕ
  arena : Skl.Arena

namespace Skl

/-! ## The source -/

/-- `NewSkiplist`. -/
def newSkiplist (arenaSize : ℕ) : Option Skl := do
  let (head, arena) ← newNode (newArena arenaSize) [] {} maxHeight
  some { height := 1, head := head, arena := arena }

/-- The pointers of the skiplist. -/
def towers (s : Skl) : Towers := ⟨s.head, s.height, s.arena.tower⟩

/-- The key of a node. -/
def key (s : Skl) (y : ℕ) : InternalKey := InternalKey.ofBytes (s.arena.keyOf y)

/-- `CompareKeys` of a key and the key of a node. -/
def probe (s : Skl) (key : Bytes) (y : ℕ) : Ordering := Raw.compareKeys key (s.arena.keyOf y)

/-- Enough rounds for every search. -/
def fuel (s : Skl) : ℕ := s.arena.n + maxHeight + 1

/-- `findNear`. -/
def findNear (s : Skl) (key : Bytes) (less allowEqual : Bool) : Option (ℕ × Bool) :=
  s.towers.findNear (s.probe key) less allowEqual s.fuel s.head (s.height - 1)

/-- `findSpliceForLevel`. -/
def findSpliceForLevel (s : Skl) (key : Bytes) (before level : ℕ) : Option (ℕ × ℕ) :=
  s.towers.findSplice (s.probe key) level s.fuel before

/-- `findLast`. -/
def findLast (s : Skl) : Option ℕ := s.towers.findLast s.fuel s.head (s.height - 1)

/-- `node.setValue`. -/
def setValue (s : Skl) (y : ℕ) (v : ValueStruct) : Option Skl := do
  let (valOffset, arena) ← s.arena.putVal v
  let node := { arena.nodes y with value := encodeValue valOffset (v.encodedSize % 2 ^ 32) }
  some { s with arena := { arena with nodes := Function.update arena.nodes y node } }

/-- Write one word of a tower. -/
def setTower (s : Skl) (y level offset : ℕ) : Skl :=
  { s with arena := { s.arena with
      tower := fun z l => if z = y ∧ l = level then offset else s.arena.tower z l } }

/-- The loop of `Put` on level `i`: link `x` into the splice `sp`, which is not computed yet if it
is `none`.  The flag is `false` if the key has turned up and got the value. -/
def linkLevel (key : Bytes) (v : ValueStruct) (x i : ℕ) :
    ℕ → Option (ℕ × ℕ) → Skl → Option (Skl × Bool)
  | 0, _, _ => none
  | tries + 1, sp, s => do
    let (prev, next) ←
      match sp with
      | some pn => some pn
      | none =>
        if i > 1 then do
          let (prev, next) ← s.findSpliceForLevel key s.head i
          if prev ≠ next then some (prev, next) else none
        else none
    let s := s.setTower x i next
    if s.arena.tower prev i = next then some (s.setTower prev i x, true)
    else do
      let (prev, next) ← s.findSpliceForLevel key prev i
      if prev = next then
        if i = 0 then do
          let s ← s.setValue prev v
          some (s, false)
        else none
      else linkLevel key v x i tries (some (prev, next)) s

/-- The levels `i, i + 1, …` of a new node, `todo` of them. -/
def linkFrom (key : Bytes) (v : ValueStruct) (x : ℕ) (sp : ℕ → Option (ℕ × ℕ)) :
    ℕ → ℕ → Skl → Option Skl
  | 0, _, s => some s
  | todo + 1, i, s =>
    match linkLevel key v x i s.fuel (sp i) s with
    | none => none
    | some (s, false) => some s
    | some (s, true) => linkFrom key v x sp todo (i + 1) s

/-- `prev` and `next` after the search: `sp` for the levels below the height, the head for the
level at the height. -/
def prevNext (s : Skl) (sp : List (ℕ × ℕ)) (i : ℕ) : Option (ℕ × ℕ) :=
  if i = s.height then some (s.head, 0) else sp[i]?

/-- `Put`, with the outcome of `randomHeight`. -/
def put (s : Skl) (key : Bytes) (v : ValueStruct) (height : ℕ) : Option Skl :=
  match s.towers.splices (s.probe key) s.fuel s.height s.head [] with
  | none => none
  | some (.inl y) => s.setValue y v
  | some (.inr sp) => do
    let (x, arena) ← newNode s.arena key v height
    linkFrom key v x (s.prevNext sp) height 0
      { s with arena := arena, height := max s.height height }

/-- `Get`. -/
def get (s : Skl) (key : Bytes) : Option ValueStruct := do
  let (n, _) ← s.findNear key false true
  if n = 0 then some {}
  else if !Raw.sameKey key (s.arena.keyOf n) then some {}
  else do
    let vs ← s.arena.valueOf n
    some { vs with version := Raw.parseTs (s.arena.keyOf n) }

/-! ### `Iterator`, whose state is the node it is at -/

/-- `Iterator.Next`; the iterator must be valid. -/
def next (s : Skl) (n : ℕ) : Option ℕ := if n = 0 then none else some (s.arena.tower n 0)

/-- `Iterator.Prev`. -/
def prev (s : Skl) (n : ℕ) : Option ℕ :=
  if n = 0 then none else (s.findNear (s.arena.keyOf n) true false).map Prod.fst

/-- `Iterator.Seek`. -/
def seek (s : Skl) (target : Bytes) : Option ℕ := (s.findNear target false true).map Prod.fst

/-- `Iterator.SeekForPrev`. -/
def seekForPrev (s : Skl) (target : Bytes) : Option ℕ := (s.findNear target true true).map Prod.fst

/-- `Iterator.SeekToFirst`. -/
def seekToFirst (s : Skl) : Option ℕ := some (s.arena.tower s.head 0)

/-- `Iterator.SeekToLast`. -/
def seekToLast (s : Skl) : Option ℕ := s.findLast

/-! ## The skiplist as a sorted map -/

/-- The value of a node. -/
def value (s : Skl) (y : ℕ) : ValueStruct := (s.arena.valueOf y).getD {}

/-- The key and the value of a node. -/
def pair (s : Skl) (y : ℕ) : Pair := (s.key y, s.value y)

/-- A node with a key that `CompareKeys` can read and a value. -/
structure Stored (s : Skl) (y : ℕ) : Prop where
  holds : Holds s.arena y
  key_len : 8 ≤ (s.arena.keyOf y).length
  value_eq : s.arena.valueOf y = some (s.value y)

/-- The skiplist `s` with the nodes `L l` on level `l` is the sorted map `m`. -/
structure Refines (s : Skl) (m : Skiplist) (L : ℕ → List ℕ) : Prop where
  levels : s.towers.Levels s.key L
  stored : ∀ y ∈ L 0, s.Stored y
  entries : (L 0).map s.pair = m.data.entries
  memSize : s.arena.n = m.memSize
  le_len : s.arena.n ≤ s.arena.len
  len_lt : s.arena.len < 2 ^ 32
  head_pos : 0 < s.head
  head_lt : s.head < s.arena.n
  height_le : s.height ≤ maxHeight
  /-- A node has a tower word for each level it is on. -/
  tall : ∀ l, ∀ y ∈ L l, l < (s.arena.nodes y).height

/-! ### Searching -/

variable {s : Skl} {m : Skiplist} {L : ℕ → List ℕ} {key : Bytes}

theorem Refines.probes (h : s.Refines m L) (hkey : 8 ≤ key.length) :
    Towers.Probes s.key (L 0) (ofBytes key) (s.probe key) :=
  fun y hy => Raw.compareKeys_eq hkey (h.stored y hy).key_len

/-- There are fewer nodes than bytes. -/
theorem Refines.length_le (h : s.Refines m L) : (L 0).length ≤ s.arena.n := by
  have hsub : L 0 ⊆ List.range s.arena.n := fun y hy => mem_range.mpr (h.stored y hy).holds.lt
  have := (subperm_of_subset (h.levels.nodup 0) hsub).length_le
  rwa [length_range] at this

theorem Refines.fuel_gt (h : s.Refines m L) (x : ℕ) :
    (s.towers.ahead s.key (L 0) x).length + (s.height - 1) < s.fuel := by
  have hlen := h.length_le
  have hle : (s.towers.ahead s.key (L 0) x).length ≤ (L 0).length :=
    Towers.Levels.length_ahead_le (L 0) x
  have hheight := h.height_le
  rw [fuel]
  omega

theorem Refines.findNear_spec (h : s.Refines m L) (hkey : 8 ≤ key.length) (less allowEqual : Bool) :
    ∃ r, s.findNear key less allowEqual = some r ∧
      Towers.Near s.key (L 0) (ofBytes key) less allowEqual r :=
  h.levels.findNear_spec (h.probes hkey) less allowEqual s.fuel s.head (s.height - 1) (.inl rfl)
    (h.fuel_gt s.head)

theorem Refines.splices_spec (h : s.Refines m L) (hkey : 8 ≤ key.length) :
    (∃ y, s.towers.splices (s.probe key) s.fuel s.height s.head [] = some (.inl y) ∧ y ∈ L 0 ∧
      s.key y = ofBytes key) ∨
    ∃ sp, s.towers.splices (s.probe key) s.fuel s.height s.head [] = some (.inr sp) ∧
      sp.length = s.height ∧
      Towers.Levels.SplicesFrom s.towers s.key L (ofBytes key) 0 sp := by
  have hfuel : (L 0).length < s.fuel := by
    have := h.length_le
    rw [fuel]
    omega
  have hnil : Towers.Levels.SplicesFrom s.towers s.key L (ofBytes key) s.height [] := by
    intro j p n hj
    simp at hj
  exact h.levels.splices_spec (h.probes hkey) h.head_pos.ne' hfuel s.height s.head []
    (.inl rfl) hnil

/-! ### A new value -/

variable {y height x : ℕ} {k : InternalKey} {sp : List (ℕ × ℕ)} {v : ValueStruct}

theorem setValue_eq (hv : v.expiresAt < 2 ^ 64) (hlen : s.arena.len < 2 ^ 32)
    (hfit : s.arena.n + v.encodedSize ≤ s.arena.len) :
    s.setValue y v = some { s with arena := s.arena.withValue y v } := by
  rw [setValue, Arena.putVal_eq hv hlen hfit]
  rfl

/-- A node that is stored stays stored, with its key and its value, when the arena grows and the
node is not touched. -/
theorem Stored.grow {s' : Skl} (h : s.Stored y) (hg : Grows s.arena s'.arena)
    (hy : s'.arena.nodes y = s.arena.nodes y) : s'.Stored y ∧ s'.pair y = s.pair y := by
  have hkey : s'.arena.keyOf y = s.arena.keyOf y :=
    h.holds.keyOf_eq hg (congrArg Node.keyOffset hy) (congrArg Node.keySize hy)
  have hval : s'.arena.valueOf y = s.arena.valueOf y := h.holds.valueOf_eq hg hy
  have hval' : s'.value y = s.value y := by rw [value, value, hval]
  refine ⟨⟨h.holds.grow hg hy, hkey ▸ h.key_len, ?_⟩, Prod.ext ?_ hval'⟩
  · rw [hval, hval', h.value_eq]
  · show ofBytes _ = ofBytes _
    rw [hkey]

theorem entries_ext {nodes : List ℕ} {d : SortedMap InternalKey ValueStruct}
    (hs : nodes.Pairwise fun x y => s.key x < s.key y) (h : ∀ e, e ∈ nodes.map s.pair ↔ e ∈ d) :
    nodes.map s.pair = d.entries := by
  have horder : (nodes.map s.pair).Pairwise fun x y => x.1 < y.1 := pairwise_map.mpr hs
  exact @InOrder.ext _ _ false _ _ _ horder d.sorted h

theorem Refines.mem_iff (h : s.Refines m L) {e : Pair} :
    e ∈ m.data ↔ ∃ y ∈ L 0, s.pair y = e := by
  rw [SortedMap.mem_def, ← h.entries, mem_map]

theorem Refines.any_iff (h : s.Refines m L) (k : InternalKey) :
    (m.data.entries.any fun x => x.1 == k) = true ↔ ∃ y ∈ L 0, s.key y = k := by
  rw [← h.entries, any_map, any_eq_true]
  simp only [Function.comp_apply, beq_iff_eq]
  rfl

/-- The entries after a `Put`: node `x` has the new pair, and the other nodes are those of the map
without the key. -/
theorem Refines.entries_put (h : s.Refines m L) {s' : Skl} {nodes : List ℕ}
    (hs : nodes.Pairwise fun y z => s'.key y < s'.key z) (hx : x ∈ nodes)
    (hpair : s'.pair x = (k, v)) (hother : ∀ y, y ≠ x → (y ∈ nodes ↔ y ∈ L 0))
    (hsame : ∀ y ∈ L 0, y ≠ x → s'.pair y = s.pair y) (hkey : ∀ y ∈ L 0, s.key y = k ↔ y = x) :
    nodes.map s'.pair = (m.data.insert k v).entries := by
  refine entries_ext hs fun e => ?_
  rw [mem_map, SortedMap.mem_insert, h.mem_iff]
  constructor
  · rintro ⟨y, hy, rfl⟩
    by_cases hyx : y = x
    · exact .inl (hyx ▸ hpair)
    · have hy' := (hother y hyx).mp hy
      rw [hsame y hy' hyx]
      exact .inr ⟨⟨y, hy', rfl⟩, fun hk => hyx ((hkey y hy').mp hk)⟩
  · rintro (rfl | ⟨⟨y, hy, rfl⟩, hk⟩)
    · exact ⟨x, hx, hpair⟩
    · have hyx : y ≠ x := fun heq => hk ((hkey y hy).mpr heq)
      exact ⟨y, (hother y hyx).mpr hy, hsame y hy hyx⟩

theorem Refines.setValue (h : s.Refines m L) (hy : y ∈ L 0) (hv : v.expiresAt < 2 ^ 64)
    (hfit : (m.put (s.key y) v height).memSize ≤ s.arena.len) :
    ∃ s', s.setValue y v = some s' ∧ s'.arena.len = s.arena.len ∧
      s'.Refines (m.put (s.key y) v height) L := by
  have hsize : (m.put (s.key y) v height).memSize = s.arena.n + v.encodedSize := by
    rw [h.memSize]
    exact if_pos ((h.any_iff _).mpr ⟨y, hy, rfl⟩)
  rw [hsize] at hfit
  have hlen := h.len_lt
  have hlt : s.arena.n + v.encodedSize < 2 ^ 32 := by omega
  let s' : Skl := { s with arena := s.arena.withValue y v }
  have hg : Grows s.arena s'.arena := grows_withValue s.arena y v
  have hkey : ∀ z ∈ L 0, s'.key z = s.key z := by
    intro z hz
    obtain ⟨hoff, hsz, _⟩ := @keySize_withValue s.arena y v z
    show ofBytes (s'.arena.keyOf z) = ofBytes (s.arena.keyOf z)
    rw [(h.stored z hz).holds.keyOf_eq hg hoff hsz]
  have hother : ∀ z ∈ L 0, z ≠ y → s'.Stored z ∧ s'.pair z = s.pair z := fun z hz hne =>
    (h.stored z hz).grow hg (nodes_withValue_of_ne hne)
  have hvy : s'.arena.valueOf y = some v.decoded := valueOf_withValue hv hlt
  have hself : s'.Stored y ∧ s'.pair y = (s.key y, v.decoded) := by
    have hval : s'.value y = v.decoded := by rw [value, hvy]; rfl
    obtain ⟨hoff, hsz, _⟩ := @keySize_withValue s.arena y v y
    refine ⟨⟨(h.stored y hy).holds.withValue hlt, ?_, hvy.trans (congrArg some hval.symm)⟩, ?_⟩
    · rw [(h.stored y hy).holds.keyOf_eq hg hoff hsz]
      exact (h.stored y hy).key_len
    · exact Prod.ext (hkey y hy) hval
  refine ⟨s', setValue_eq hv h.len_lt hfit, rfl, ?_⟩
  have hlevels : s'.towers.Levels s'.key L := h.levels.congr rfl rfl le_rfl hkey
  refine ⟨hlevels, ?_, ?_, hsize.symm, hfit, h.len_lt, h.head_pos, ?_, h.height_le, ?_⟩
  · intro z hz
    by_cases hne : z = y
    · exact hne ▸ hself.1
    · exact (hother z hz hne).1
  · refine h.entries_put (hlevels.sorted 0) hy hself.2 (fun _ _ => Iff.rfl)
      (fun z hz hne => (hother z hz hne).2) fun z hz => ⟨h.levels.key_inj hz hy, ?_⟩
    exact fun heq => congrArg s.key heq
  · exact h.head_lt.trans_le hg.le
  · intro l z hz
    rw [(@keySize_withValue s.arena y v z).2.2]
    exact h.tall l z hz

/-! ### A new node -/

/-- The skiplist with other towers. -/
def withTower (s : Skl) (T : ℕ → ℕ → ℕ) : Skl := { s with arena := { s.arena with tower := T } }

theorem Stored.withTower (h : s.Stored y) (T : ℕ → ℕ → ℕ) : (s.withTower T).Stored y :=
  ⟨⟨h.holds.lt, h.holds.key_le, h.holds.value_le⟩, h.key_len, h.value_eq⟩

/-- What `Put` knows of a level above the ones it has linked: the splice, or that the level is
empty and above the first two. -/
def Ready (s : Skl) (L : ℕ → List ℕ) (k : InternalKey) (sp : Option (ℕ × ℕ)) (i : ℕ) : Prop :=
  match sp with
  | some (p, n) => Towers.Levels.Splice s.towers s.key L k i p n
  | none => 1 < i ∧ s.arena.tower s.head i = 0

theorem linkLevel_eq {i tries : ℕ} {k : InternalKey} {sp : Option (ℕ × ℕ)}
    (hready : s.Ready L k sp i) (hhead : s.head ≠ 0) (hxh : x ≠ s.head) (hx : x ∉ L i) :
    ∃ p n, Towers.Levels.Splice s.towers s.key L k i p n ∧
      linkLevel key v x i (tries + 1) sp s =
        some (s.withTower (s.towers.link i p x n).next, true) := by
  have hcas : ∀ p n, Towers.Levels.Splice s.towers s.key L k i p n →
      (s.setTower x i n).arena.tower p i = n := by
    intro p n hs
    have hpx : p ≠ x := by
      rintro rfl
      exact hx (hs.below.resolve_left hxh).1
    show (if p = x ∧ i = i then n else s.arena.tower p i) = n
    rw [if_neg fun hp => hpx hp.1]
    exact hs.next_eq
  cases sp with
  | some pn =>
    obtain ⟨p, n⟩ := pn
    refine ⟨p, n, hready, ?_⟩
    rw [linkLevel]
    show (if (s.setTower x i n).arena.tower p i = n then _ else _) = _
    rw [if_pos (hcas p n hready)]
    rfl
  | none =>
    obtain ⟨hi, hzero⟩ := hready
    have hs : Towers.Levels.Splice s.towers s.key L k i s.head 0 :=
      ⟨.inl rfl, hzero, fun h0 => absurd rfl h0⟩
    have hfind : s.findSpliceForLevel key s.head i = some (s.head, 0) := by
      have hz : s.towers.next s.head i = 0 := hzero
      rw [findSpliceForLevel, fuel, Towers.findSplice, hz]
      rfl
    refine ⟨s.head, 0, hs, ?_⟩
    rw [linkLevel]
    simp only [if_pos hi, hfind, Option.bind_eq_bind, Option.bind_some, if_pos hhead]
    rw [if_pos (hcas s.head 0 hs)]
    rfl

/-- The levels `i` to `i + todo` are linked one after the other. -/
theorem linkFrom_spec {sp : ℕ → Option (ℕ × ℕ)} (hx0 : x ≠ 0) :
    ∀ (todo i : ℕ) (s : Skl), s.head ≠ 0 → x ≠ s.head →
      s.towers.Levels s.key (Towers.Levels.insertBelow s.key L x i) →
      (∀ j, i ≤ j → j < i + todo → x ∉ L j ∧ s.Ready L (s.key x) (sp j) j) →
      i + todo ≤ s.height →
      ∃ T, linkFrom key v x sp todo i s = some (s.withTower T) ∧
        (s.withTower T).towers.Levels s.key (Towers.Levels.insertBelow s.key L x (i + todo)) := by
  intro todo
  induction todo with
  | zero => exact fun i s _ _ hlevels _ _ => ⟨s.arena.tower, rfl, hlevels⟩
  | succ todo ih =>
    intro i s hhead hxh hlevels hready hheight
    have hLi : Towers.Levels.insertBelow s.key L x i i = L i :=
      Towers.Levels.insertBelow_of_le s.key L le_rfl
    obtain ⟨hxi, hri⟩ := hready i le_rfl (by omega)
    obtain ⟨p, n, hs, hlink⟩ :=
      @linkLevel_eq s L key x v i (s.arena.n + maxHeight) _ _ hri hhead hxh hxi
    -- The lists of the levels not linked yet are the old ones.
    have hs' : Towers.Levels.Splice s.towers s.key (Towers.Levels.insertBelow s.key L x i) (s.key x)
        i p n := ⟨hs.below.imp_right fun hp => ⟨hLi ▸ hp.1, hp.2⟩, hs.next_eq, hs.above⟩
    have hbelow : ∀ j, i = j + 1 → x ∈ Towers.Levels.insertBelow s.key L x i j := by
      rintro j rfl
      rw [Towers.Levels.insertBelow_of_lt s.key L (Nat.lt_succ_self j)]
      exact mem_append_right _ (.head _)
    have hnew := hlevels.link hs' hx0 hxh hbelow (by show i < s.height; omega)
    rw [Towers.Levels.insertAt_insertBelow] at hnew
    let s' : Skl := s.withTower (s.towers.link i p x n).next
    have hready' :
        ∀ j, i + 1 ≤ j → j < i + 1 + todo → x ∉ L j ∧ s'.Ready L (s'.key x) (sp j) j := by
      intro j hij hj
      obtain ⟨hxj, hrj⟩ := hready j (by omega) (by omega)
      have hsame : ∀ y, (s.towers.link i p x n).next y j = s.towers.next y j := fun y =>
        Towers.next_link_of_ne s.towers (by omega)
      refine ⟨hxj, ?_⟩
      unfold Ready at hrj ⊢
      cases hsp : sp j with
      | none =>
        rw [hsp] at hrj
        exact ⟨hrj.1, (hsame _).trans hrj.2⟩
      | some pn =>
        rw [hsp] at hrj
        exact ⟨hrj.below, (hsame _).trans hrj.next_eq, hrj.above⟩
    obtain ⟨T, hT, hlevelsT⟩ := ih (i + 1) s' hhead hxh hnew hready'
      (by show i + 1 + todo ≤ s.height; omega)
    refine ⟨T, ?_, ?_⟩
    · have hfuel : s.fuel = s.arena.n + maxHeight + 1 := rfl
      rw [linkFrom, hfuel, hlink]
      exact hT
    · rw [Nat.add_right_comm] at hlevelsT
      exact hlevelsT

/-- The splices that the search has found, and those at the head. -/
theorem Refines.ready (h : s.Refines m L) (hlen : sp.length = s.height)
    (hsp : Towers.Levels.SplicesFrom s.towers s.key L k 0 sp) (i : ℕ) :
    s.Ready L k (s.prevNext sp i) i := by
  have hempty : s.height ≤ i → s.arena.tower s.head i = 0 := by
    intro hle
    by_contra hne
    have hmem := (@Towers.Levels.next_mem _ _ s.towers s.key L h.levels i s.head (.inl rfl) hne).1
    rw [h.levels.empty i hle] at hmem
    cases hmem
  unfold Ready prevNext
  rcases lt_trichotomy i s.height with hlt | heq | hgt
  · rw [if_neg hlt.ne, getElem?_eq_getElem (hlen ▸ hlt)]
    have := hsp i _ _ (getElem?_eq_getElem (hlen ▸ hlt))
    rwa [Nat.zero_add] at this
  · rw [if_pos heq]
    exact ⟨.inl rfl, hempty heq.ge, fun h0 => absurd rfl h0⟩
  · rw [if_neg hgt.ne', getElem?_eq_none (by omega)]
    have := h.levels.height_pos
    exact ⟨by show 1 < i; have : 0 < s.height := this; omega, hempty hgt.le⟩

/-- The skiplist with a new node that is on no level yet. -/
def withNode (s : Skl) (key : Bytes) (v : ValueStruct) (height : ℕ) : Skl :=
  { s with arena := s.arena.withNode key v height, height := max s.height height }

section withNode

theorem stored_withNode_self (hkey : 8 ≤ key.length) (hkey' : key.length < 2 ^ 16)
    (hv : v.expiresAt < 2 ^ 64) (hh : height ≤ maxHeight)
    (hlt : s.arena.n + nodeSize height + key.length + v.encodedSize < 2 ^ 32) :
    (s.withNode key v height).Stored (Arena.align s.arena.n) ∧
      (s.withNode key v height).pair (Arena.align s.arena.n) =
        (ofBytes key, v.decoded) := by
  have hval : (s.withNode key v height).arena.valueOf (Arena.align s.arena.n) = some v.decoded :=
    valueOf_withNode hv hlt
  have hval' : (s.withNode key v height).value (Arena.align s.arena.n) = v.decoded := by
    rw [value, hval]
    rfl
  have hkeyOf : (s.withNode key v height).arena.keyOf (Arena.align s.arena.n) = key :=
    keyOf_withNode hkey'
  refine ⟨⟨holds_withNode hh hlt, by rw [hkeyOf]; exact hkey, ?_⟩, Prod.ext ?_ hval'⟩
  · exact hval.trans (congrArg some hval'.symm)
  · exact congrArg ofBytes hkeyOf

/-- The nodes in use lie in front of the new one. -/
theorem Refines.lt_align (h : s.Refines m L) (hh : height ≤ maxHeight) {y : ℕ} (hy : y ∈ L 0) :
    y < Arena.align s.arena.n :=
  (h.stored y hy).holds.lt.trans_le (Arena.node_fits s.arena.n hh).1

theorem Refines.stored_withNode (h : s.Refines m L) (hh : height ≤ maxHeight) {y : ℕ}
    (hy : y ∈ L 0) :
    (s.withNode key v height).Stored y ∧ (s.withNode key v height).pair y = s.pair y :=
  (h.stored y hy).grow (grows_withNode s.arena key v height)
    (nodes_withNode_of_ne (h.lt_align hh hy).ne)

theorem Ready.withNode {k : InternalKey} {sp : Option (ℕ × ℕ)} {i : ℕ}
    (hl : s.towers.Levels s.key L) (hsame : ∀ y ∈ L i, (s.withNode key v height).key y = s.key y)
    (hr : s.Ready L k sp i) : (s.withNode key v height).Ready L k sp i := by
  unfold Ready at hr ⊢
  cases sp with
  | none => exact hr
  | some pn =>
    refine ⟨hr.below.imp_right fun hp => ⟨hp.1, (hsame _ hp.1).trans_lt hp.2⟩, hr.next_eq, ?_⟩
    exact fun hn => (hr.above hn).trans_eq (hsame _ (hr.mem hl hn)).symm

end withNode

/-- If the search of `Put` ends between nodes, the key is not on the base level, hence on no
level. -/
theorem Refines.key_ne_of_splices (h : s.Refines m L) (hlen : sp.length = s.height)
    (hsp : Towers.Levels.SplicesFrom s.towers s.key L k 0 sp) : ∀ y ∈ L 0, s.key y ≠ k := by
  have h0 : 0 < sp.length := hlen ▸ h.levels.height_pos
  have hs0 := hsp 0 _ _ (getElem?_eq_getElem h0)
  exact fun y hy => hs0.key_ne h.levels hy

theorem Refines.memSize_put_new (h : s.Refines m L) (hkey : 8 ≤ key.length)
    (hnew : ∀ y ∈ L 0, s.key y ≠ ofBytes key) (v : ValueStruct) (height : ℕ) :
    (m.put (ofBytes key) v height).memSize =
      s.arena.n + nodeSize height + key.length + v.encodedSize := by
  rw [h.memSize, ← len_ofBytes hkey]
  refine if_neg fun hany => ?_
  obtain ⟨y, hy, hyk⟩ := (h.any_iff _).mp hany
  exact hnew y hy hyk

theorem Refines.memSize_put_old (h : s.Refines m L) (hy : y ∈ L 0) (v : ValueStruct) (height : ℕ) :
    (m.put (s.key y) v height).memSize = s.arena.n + v.encodedSize := by
  rw [h.memSize]
  exact if_pos ((h.any_iff _).mpr ⟨y, hy, rfl⟩)

section

variable (h : s.Refines m L) (hkey : 8 ≤ key.length) (hkey' : key.length < 2 ^ 16)
  (hv : v.expiresAt < 2 ^ 64) (hh : 0 < height) (hh' : height ≤ maxHeight)
include h hkey hkey' hv hh hh'

theorem Refines.insert (hlen : sp.length = s.height)
    (hsp : Towers.Levels.SplicesFrom s.towers s.key L (ofBytes key) 0 sp)
    (hfit : (m.put (ofBytes key) v height).memSize ≤ s.arena.len) : ∃ s' L', (do
        let (x, arena) ← newNode s.arena key v height
        linkFrom key v x (s.prevNext sp) height 0
          { s with arena := arena, height := max s.height height }) = some s' ∧
      s'.arena.len = s.arena.len ∧ s'.Refines (m.put (ofBytes key) v height) L' := by
  have hnew : ∀ y ∈ L 0, s.key y ≠ ofBytes key := h.key_ne_of_splices hlen hsp
  have hsize : (m.put (ofBytes key) v height).memSize =
      s.arena.n + nodeSize height + key.length + v.encodedSize :=
      h.memSize_put_new hkey hnew v height
  rw [hsize] at hfit
  have hlt : s.arena.n + nodeSize height + key.length + v.encodedSize < 2 ^ 32 :=
    hfit.trans_lt h.len_lt
  have hge : s.arena.n ≤ Arena.align s.arena.n := (Arena.node_fits s.arena.n hh').1
  obtain ⟨hself, hpair⟩ := stored_withNode_self hkey hkey' hv hh' hlt
  have hlt_align : ∀ y ∈ L 0, y < Arena.align s.arena.n := fun y hy => h.lt_align hh' hy
  generalize hx : Arena.align s.arena.n = x at hge hself hpair hlt_align
  have hold : ∀ y ∈ L 0, (s.withNode key v height).Stored y ∧
      (s.withNode key v height).pair y = s.pair y := fun y hy => h.stored_withNode hh' hy
  have hold_key : ∀ y ∈ L 0, (s.withNode key v height).key y = s.key y := fun y hy =>
    congrArg Prod.fst (hold y hy).2
  have hx_key : (s.withNode key v height).key x = ofBytes key := congrArg Prod.fst hpair
  have hxh : x ≠ s.head := (h.head_lt.trans_le hge).ne'
  have hx0 : x ≠ 0 := (Nat.zero_lt_of_lt (h.head_lt.trans_le hge)).ne'
  have hready : ∀ j, 0 ≤ j → j < 0 + height → x ∉ L j ∧
      (s.withNode key v height).Ready L ((s.withNode key v height).key x) (s.prevNext sp j) j := by
    intro j _ _
    refine ⟨fun hxj => (hlt_align x (h.levels.subset_zero j hxj)).false, ?_⟩
    rw [hx_key]
    exact (h.ready hlen hsp j).withNode h.levels fun y hy => hold_key y (h.levels.subset_zero j hy)
  have hlevels₁ : (s.withNode key v height).towers.Levels (s.withNode key v height).key L :=
    h.levels.congr rfl rfl (Nat.le_max_left ..) hold_key
  obtain ⟨T, hT, hlevels⟩ := @linkFrom_spec L key x v (s.prevNext sp) hx0 height 0
    (s.withNode key v height) h.head_pos.ne' hxh hlevels₁ hready
    (by rw [Nat.zero_add]; exact Nat.le_max_right ..)
  rw [Nat.zero_add] at hlevels
  have hmem : ∀ l y, y ∈ Towers.Levels.insertBelow (s.withNode key v height).key L x height l ↔
      (y = x ∧ l < height) ∨ y ∈ L l := by
    refine Towers.Levels.mem_insertBelow fun l z hz => ?_
    rw [hx_key, hold_key z (h.levels.subset_zero l hz)]
    exact hnew z (h.levels.subset_zero l hz)
  refine ⟨(s.withNode key v height).withTower T,
    Towers.Levels.insertBelow (s.withNode key v height).key L x height, ?_, rfl, ?_⟩
  · rw [newNode_eq hv h.len_lt hfit, hx]
    exact hT
  · refine ⟨hlevels, ?_, ?_, hsize.symm, hfit, h.len_lt, h.head_pos,
      h.head_lt.trans_le (grows_withNode s.arena key v height).le, max_le h.height_le hh', ?_⟩
    · intro y hy
      rcases (hmem 0 y).mp hy with ⟨rfl, _⟩ | hy
      · exact hself.withTower T
      · exact (hold y hy).1.withTower T
    · refine h.entries_put (hlevels.sorted 0) ((hmem 0 x).mpr (.inl ⟨rfl, hh⟩)) hpair ?_
        (fun y hy _ => (hold y hy).2) fun y hy => ?_
      · intro y hyx
        rw [hmem]
        exact or_iff_right fun hy => hyx hy.1
      · exact iff_of_false (hnew y hy) (hlt_align y hy).ne
    · intro l y hy
      show l < ((s.arena.withNode key v height).nodes y).height
      rcases (hmem l y).mp hy with ⟨rfl, hl⟩ | hy
      · have hmod : height % 2 ^ 16 = height :=
          Nat.mod_eq_of_lt (lt_of_le_of_lt hh' (by decide))
        rw [← hx, nodes_withNode_self]
        exact hmod.symm ▸ hl
      · rw [nodes_withNode_of_ne (h.lt_align hh' (h.levels.subset_zero l hy)).ne]
        exact h.tall l y hy

theorem Refines.put (hfit : (m.put (ofBytes key) v height).memSize ≤ s.arena.len) :
    ∃ s' L', s.put key v height = some s' ∧ s'.arena.len = s.arena.len ∧
      s'.Refines (m.put (ofBytes key) v height) L' := by
  rw [Skl.put]
  rcases h.splices_spec hkey with ⟨y, hfound, hy, hyk⟩ | ⟨sp, hfound, hlen, hsp⟩
  · rw [hfound]
    rw [← hyk] at hfit ⊢
    obtain ⟨s', hs', hrest⟩ := h.setValue hy hv hfit
    exact ⟨s', L, hs', hrest⟩
  · rw [hfound]
    exact h.insert hkey hkey' hv hh hh' hlen hsp hfit

end

theorem Refines.new {arenaSize : ℕ} (hsize : arenaSize < 2 ^ 32) (hfit : new.memSize ≤ arenaSize) :
    ∃ s, newSkiplist arenaSize = some s ∧ s.arena.len = arenaSize ∧
      s.Refines new fun _ => [] := by
  have hn : (newArena arenaSize).n + nodeSize maxHeight + ([] : Bytes).length +
      ({} : ValueStruct).encodedSize = Skiplist.new.memSize := rfl
  let s : Skl :=
    { height := 1, head := Arena.align 1, arena := (newArena arenaSize).withNode [] {} maxHeight }
  refine ⟨s, ?_, rfl, ?_⟩
  · rw [newSkiplist, newNode_eq (by decide) hsize (hn.trans_le hfit)]
    rfl
  · have hpos : 0 < Arena.align 1 := by decide
    have hlt : Arena.align 1 < Skiplist.new.memSize := by decide
    have hheight : 1 ≤ maxHeight := by decide
    refine ⟨?_, ?_, rfl, rfl, hfit, hsize, hpos, hlt, hheight, ?_⟩
    · refine ⟨?_, ?_, ?_, ?_, ?_, ?_, ?_, Nat.one_pos⟩
      · exact fun _ hne => absurd rfl hne
      · exact fun _ hy => absurd hy not_mem_nil
      · exact fun _ => List.Pairwise.nil
      · exact fun _ => List.Subset.refl _
      · exact fun _ _ => rfl
      · exact not_mem_nil
      · exact not_mem_nil
    · exact fun _ hy => absurd hy not_mem_nil
    · exact fun _ _ hy => absurd hy not_mem_nil

end Skl
end Autumn
