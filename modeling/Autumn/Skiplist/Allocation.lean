import Autumn.Lib.Regions
import Autumn.Skiplist.Refines

/-!
# What a skiplist takes from its arena

`Put` asks the arena for a node, for its key and for the encoded value, or only for the value if the
key is there.  Keys may be too long for the 16 bits of `keySize`; their nodes are out of order.
-/

namespace Autumn
namespace Skl

open Lib Y List InternalKey Skiplist

/-! ## Requests to the arena -/

/-- What the arena is asked for. -/
inductive Alloc where
  | node (height : ℕ)
  | key (k : Bytes)
  | val (v : ValueStruct)
  deriving DecidableEq

/-- By how much a request moves the position of the arena. -/
def Alloc.need : Alloc → ℕ
  | .node height => nodeSize height
  | .key k => k.length
  | .val v => v.encodedSize

/-- Heights are at most twenty, and expiry times are 64-bit numbers. -/
def Alloc.Valid : Alloc → Prop
  | .node height => height ≤ maxHeight
  | .key _ => True
  | .val v => v.expiresAt < 2 ^ 64

/-- A part is one for a node only if a node can lie at its start. -/
def Alloc.Aligned (a : Alloc) (r : Region) : Prop := ∀ height, a = .node height → 8 ∣ r.start

namespace Arena

/-- One request.  The part begins where the source says; of a node it has the fields and the words
of the tower that are in use. -/
def alloc (s : Arena) : Alloc → Option (Region × Arena)
  | .node height => (s.putNode height).map fun x => (⟨x.1, 16 + 4 * height⟩, x.2)
  | .key k => (s.putKey k).map fun x => (⟨x.1, k.length⟩, x.2)
  | .val v => (s.putVal v).map fun x => (⟨x.1, v.encodedSize⟩, x.2)

/-- Requests one after the other, each with its part. -/
def allocs : Arena → List Alloc → Option (List (Alloc × Region) × Arena)
  | s, [] => some ([], s)
  | s, a :: as => (s.alloc a).bind fun x => (allocs x.2 as).map fun y => ((a, x.1) :: y.1, y.2)

/-- **One request.**  With enough room it is granted, between the old position and the new one. -/
theorem alloc_spec {s : Arena} {a : Alloc} (hlen : s.len < 2 ^ 32) (ha : a.Valid)
    (hroom : s.n + a.need ≤ s.len) :
    ∃ r s', s.alloc a = some (r, s') ∧ s'.n = s.n + a.need ∧ s'.len = s.len ∧
      Consecutive [r] s.n s'.n ∧ a.Aligned r := by
  cases a with
  | node height =>
    obtain ⟨hle, hfits⟩ := node_fits s.n ha
    refine ⟨⟨align s.n, 16 + 4 * height⟩, { s with n := s.n + nodeSize height }, ?_, rfl, rfl,
      .singleton hle hfits, fun _ _ => Nat.dvd_mul_left 8 _⟩
    rw [alloc, putNode_eq hlen hroom]
    rfl
  | key k =>
    refine ⟨⟨s.n, k.length⟩, { s with n := s.n + k.length, buf := copyTo s.buf s.n k }, ?_, rfl,
      rfl, .singleton le_rfl le_rfl, by simp [Alloc.Aligned]⟩
    rw [alloc, putKey_eq hlen hroom]
    rfl
  | val v =>
    refine ⟨⟨s.n, v.encodedSize⟩,
      { s with n := s.n + v.encodedSize, buf := copyTo s.buf s.n v.encode }, ?_, rfl, rfl,
      .singleton le_rfl le_rfl, by simp [Alloc.Aligned]⟩
    rw [alloc, putVal_eq ha hlen hroom]
    rfl

/-- **Several requests.**  With enough room for all of them, their parts lie one behind the
other. -/
theorem allocs_spec {s : Arena} {as : List Alloc} (hlen : s.len < 2 ^ 32) (has : ∀ a ∈ as, a.Valid)
    (hroom : s.n + (as.map Alloc.need).sum ≤ s.len) :
    ∃ xs s', s.allocs as = some (xs, s') ∧ s'.n = s.n + (as.map Alloc.need).sum ∧ s'.len = s.len ∧
      xs.map Prod.fst = as ∧ Consecutive (xs.map Prod.snd) s.n s'.n ∧
      ∀ x ∈ xs, x.1.Aligned x.2 := by
  induction as generalizing s with
  | nil => exact ⟨[], s, rfl, rfl, rfl, rfl, .nil s.n, by simp⟩
  | cons a as ih =>
    rw [map_cons, sum_cons] at hroom
    obtain ⟨r, s₁, hs₁, hn₁, hlen₁, hr, halign⟩ :=
      alloc_spec hlen (has a (.head _)) (by omega)
    obtain ⟨xs, s₂, hs₂, hn₂, hlen₂, hfst, hxs, hall⟩ := ih (s := s₁) (hlen₁ ▸ hlen)
      (fun b hb => has b (.tail _ hb)) (by omega)
    refine ⟨(a, r) :: xs, s₂, ?_, ?_, hlen₂.trans hlen₁, ?_, hr.append hxs, ?_⟩
    · rw [allocs, hs₁, Option.bind_some, hs₂, Option.map_some]
    · rw [hn₂, hn₁, map_cons, sum_cons, Nat.add_assoc]
    · rw [map_cons, hfst]
    · exact forall_mem_cons.mpr ⟨halign, hall⟩

theorem reserve_takes {s s' : Arena} {l : ℕ} (hn : s.n + l < 2 ^ 32) (h : s.reserve l = some s') :
    s' = { s with n := s.n + l } ∧ s.n + l ≤ s.len := by
  rw [reserve, Nat.mod_eq_of_lt hn] at h
  split_ifs at h with hle
  exact ⟨(Option.some.inj h).symm, hle⟩

/-- A request is granted only if there is room, unless the position goes round. -/
theorem alloc_takes {s s' : Arena} {a : Alloc} {r : Region} (hn : s.n + a.need < 2 ^ 32)
    (h : s.alloc a = some (r, s')) :
    s'.n = s.n + a.need ∧ s'.len = s.len ∧ s.n + a.need ≤ s.len := by
  cases a with
  | node height =>
    obtain ⟨x, hput, heq⟩ := Option.map_eq_some_iff.mp h
    obtain ⟨a, hres, hx⟩ := Option.bind_eq_some_iff.mp hput
    obtain ⟨rfl, hle⟩ := reserve_takes hn hres
    cases hx
    obtain ⟨-, rfl⟩ := Prod.mk.inj heq
    exact ⟨rfl, rfl, hle⟩
  | key k =>
    have hn : s.n + k.length < 2 ^ 32 := hn
    obtain ⟨x, hput, heq⟩ := Option.map_eq_some_iff.mp h
    rw [putKey, Nat.mod_eq_of_lt (by omega)] at hput
    obtain ⟨a, hres, hx⟩ := Option.bind_eq_some_iff.mp hput
    obtain ⟨rfl, hle⟩ := reserve_takes hn hres
    dsimp only at hx
    split_ifs at hx
    cases hx
    obtain ⟨-, rfl⟩ := Prod.mk.inj heq
    exact ⟨rfl, rfl, hle⟩
  | val v =>
    have hn : s.n + v.encodedSize < 2 ^ 32 := hn
    obtain ⟨x, hput, heq⟩ := Option.map_eq_some_iff.mp h
    rw [putVal, Nat.mod_eq_of_lt (by omega)] at hput
    obtain ⟨a, hres, hx⟩ := Option.bind_eq_some_iff.mp hput
    obtain ⟨rfl, hle⟩ := reserve_takes hn hres
    cases hx
    obtain ⟨-, rfl⟩ := Prod.mk.inj heq
    exact ⟨rfl, rfl, hle⟩

theorem allocs_takes {s s' : Arena} {as : List Alloc} {xs : List (Alloc × Region)}
    (hn : s.n + (as.map Alloc.need).sum < 2 ^ 32) (hle : s.n ≤ s.len)
    (h : s.allocs as = some (xs, s')) : s.n + (as.map Alloc.need).sum ≤ s.len := by
  induction as generalizing s s' xs with
  | nil => exact hle
  | cons a as ih =>
    rw [map_cons, sum_cons] at hn ⊢
    obtain ⟨⟨r, s₁⟩, halloc, hrest⟩ := Option.bind_eq_some_iff.mp h
    obtain ⟨⟨ys, s₂⟩, hallocs, -⟩ := Option.map_eq_some_iff.mp hrest
    obtain ⟨hn₁, hlen₁, hle₁⟩ := alloc_takes (by omega) halloc
    have := ih (s := s₁) (by omega) (by omega) hallocs
    omega

end Arena

/-- `newNode` asks for three parts and records where they begin. -/
theorem newNode_allocs {arena arena' : Arena} {k : Bytes} {v : ValueStruct} {height x : ℕ}
    (h : newNode arena k v height = some (x, arena')) :
    ∃ node key val a,
      arena.allocs [.node height, .key k, .val v] =
        some ([(.node height, node), (.key k, key), (.val v, val)], a) ∧
      x = node.start ∧ (arena'.nodes x).keyOffset = key.start ∧
      (arena'.nodes x).value = encodeValue val.start (v.encodedSize % 2 ^ 32) := by
  simp only [newNode, Option.bind_eq_bind, Option.bind_eq_some_iff] at h
  obtain ⟨⟨offset, a₁⟩, hnode, ⟨keyOffset, a₂⟩, hkey, ⟨valOffset, a₃⟩, hval, h⟩ := h
  cases h
  refine ⟨⟨offset, 16 + 4 * height⟩, ⟨keyOffset, k.length⟩, ⟨valOffset, v.encodedSize⟩, a₃, ?_, rfl,
    ?_, ?_⟩
  · simp only [Arena.allocs, Arena.alloc, hnode, hkey, hval, Option.map_some, Option.bind_some]
  · dsimp only
    rw [Function.update_self]
  · dsimp only
    rw [Function.update_self]

/-! ## What `Put` asks for -/

/-- A place for the value, and before that places for a node and its key if the key is new. -/
def requests (s : Skl) (op : PutOp) : List Alloc :=
  match s.towers.splices (s.probe op.key) s.fuel s.height s.head [] with
  | some (.inl _) => [.val op.value]
  | _ => [.node op.height, .key op.key, .val op.value]

/-- By how much a call moves the position of the arena at most. -/
def PutOp.need (op : PutOp) : ℕ := nodeSize op.height + op.key.length + op.value.encodedSize

/-- The arena has room for what the call asks for. -/
def HasRoom (s : Skl) (op : PutOp) : Prop :=
  s.arena.n + ((s.requests op).map Alloc.need).sum ≤ s.arena.len

instance (s : Skl) (op : PutOp) : Decidable (s.HasRoom op) := inferInstanceAs (Decidable (_ ≤ _))

theorem sum_requests_le (s : Skl) (op : PutOp) :
    ((s.requests op).map Alloc.need).sum ≤ op.need := by
  unfold requests PutOp.need
  split <;> simp only [map_cons, map_nil, sum_cons, sum_nil, Alloc.need] <;> omega

variable {op : PutOp}

theorem valid_requests (s : Skl) (hheight : op.height ≤ maxHeight)
    (hv : op.value.expiresAt < 2 ^ 64) : ∀ a ∈ s.requests op, a.Valid := by
  unfold requests
  split
  · exact forall_mem_singleton.mpr hv
  · refine forall_mem_cons.mpr ⟨hheight, forall_mem_cons.mpr ⟨trivial, ?_⟩⟩
    exact forall_mem_singleton.mpr hv

/-! ## A search ends at two neighbours -/

theorem next_of_findSplice {t : Towers} {probe : ℕ → Ordering} {level fuel before p n : ℕ}
    (h : t.findSplice probe level fuel before = some (p, n)) (hne : p ≠ n) :
    t.next p level = n := by
  induction fuel generalizing before with
  | zero => simp [Towers.findSplice] at h
  | succ fuel ih =>
    rw [Towers.findSplice] at h
    split_ifs at h with hnext
    · cases h
      rfl
    · split at h
      · cases h
        exact absurd rfl hne
      · cases h
        rfl
      · exact ih h

theorem next_of_splices {t : Towers} {probe : ℕ → Ordering} {fuel : ℕ} {sp : List (ℕ × ℕ)} :
    ∀ {i before : ℕ} {acc : List (ℕ × ℕ)},
      (∀ j p n, acc[j]? = some (p, n) → t.next p (i + j) = n) →
      t.splices probe fuel i before acc = some (.inr sp) →
      ∀ j p n, sp[j]? = some (p, n) → t.next p j = n := by
  intro i
  induction i with
  | zero =>
    intro before acc hacc h j p n hj
    rw [Towers.splices, Option.some_inj, Sum.inr.injEq] at h
    have := hacc j p n (h ▸ hj)
    rwa [Nat.zero_add] at this
  | succ i ih =>
    intro before acc hacc h
    rw [Towers.splices] at h
    split at h
    · simp at h
    · rename_i q m hfind
      split_ifs at h with hqm
      · simp at h
      refine ih (fun j p n hj => ?_) h
      cases j with
      | zero =>
        obtain ⟨rfl, rfl⟩ : q = p ∧ m = n := by simpa using hj
        exact next_of_findSplice hfind hqm
      | succ j =>
        have := hacc j p n (by simpa using hj)
        rwa [Nat.add_right_comm] at this

/-! ## Linking takes nothing -/

/-- The head has no pointer on the levels above the height. -/
def TopEmpty (s : Skl) : Prop := ∀ l, s.height ≤ l → s.arena.tower s.head l = 0

/-- Only the pointers on the levels from `lo` on, up to `hi`, may have changed. -/
structure Relinked (s s' : Skl) (lo hi : ℕ) : Prop where
  n_eq : s'.arena.n = s.arena.n
  len_eq : s'.arena.len = s.arena.len
  head_eq : s'.head = s.head
  height_eq : s'.height = s.height
  tower_eq : ∀ y l, l < lo ∨ hi ≤ l → s'.arena.tower y l = s.arena.tower y l
  nodes_eq : s'.arena.nodes = s.arena.nodes

variable {s s' : Skl} {key : Bytes} {v : ValueStruct} {x : ℕ}

theorem Relinked.trans {s'' : Skl} {lo mid hi : ℕ} (h : Relinked s s' lo mid)
    (h' : Relinked s' s'' mid hi) (hle : lo ≤ mid) (hle' : mid ≤ hi) : Relinked s s'' lo hi where
  n_eq := h'.n_eq.trans h.n_eq
  len_eq := h'.len_eq.trans h.len_eq
  head_eq := h'.head_eq.trans h.head_eq
  height_eq := h'.height_eq.trans h.height_eq
  tower_eq := by
    intro y l hl
    rw [h'.tower_eq y l (by omega), h.tower_eq y l (by omega)]
  nodes_eq := h'.nodes_eq.trans h.nodes_eq

theorem relinked_setTower (s : Skl) (y i offset : ℕ) :
    Relinked s (s.setTower y i offset) i (i + 1) where
  n_eq := rfl
  len_eq := rfl
  head_eq := rfl
  height_eq := rfl
  tower_eq := by
    intro z l hl
    exact if_neg fun h => by omega
  nodes_eq := rfl

/-- The compare-and-swap between two neighbours succeeds. -/
theorem linkLevel_takes {i tries : ℕ} {sp : Option (ℕ × ℕ)} {done : Bool}
    (hsp : ∀ p n, sp = some (p, n) → s.arena.tower p i = n)
    (h : linkLevel key v x i tries sp s = some (s', done)) :
    done = true ∧ Relinked s s' i (i + 1) := by
  have hlinked : ∀ p n, (s.setTower x i n).setTower p i x = s' → Relinked s s' i (i + 1) := by
    rintro p n rfl
    refine ⟨rfl, rfl, rfl, rfl, fun y l hl => ?_, rfl⟩
    exact ((relinked_setTower _ p i x).tower_eq y l hl).trans
      ((relinked_setTower s x i n).tower_eq y l hl)
  -- `p` may be `x` itself: its pointer has just been set.
  have hcas : ∀ p n, s.arena.tower p i = n → (s.setTower x i n).arena.tower p i = n := by
    intro p n hnext
    show (if p = x ∧ i = i then n else s.arena.tower p i) = n
    split_ifs
    · rfl
    · exact hnext
  cases tries with
  | zero => simp [linkLevel] at h
  | succ tries =>
    cases sp with
    | some q =>
      obtain ⟨p, n⟩ := q
      rw [linkLevel] at h
      dsimp only [Option.bind_eq_bind, Option.bind_some] at h
      rw [if_pos (hcas p n (hsp p n rfl)), Option.some_inj, Prod.mk.injEq] at h
      exact ⟨h.2.symm, hlinked p n h.1⟩
    | none =>
      rw [linkLevel] at h
      dsimp only [Option.bind_eq_bind] at h
      by_cases hi : i > 1
      · rw [if_pos hi] at h
        obtain ⟨⟨p, n⟩, hfind, h⟩ := Option.bind_eq_some_iff.mp h
        dsimp only at h
        by_cases hne : p ≠ n
        · rw [if_pos hne, Option.bind_some, if_pos (hcas p n (next_of_findSplice hfind hne)),
            Option.some_inj, Prod.mk.injEq] at h
          exact ⟨h.2.symm, hlinked p n h.1⟩
        · rw [if_neg hne] at h
          simp at h
      · rw [if_neg hi] at h
        simp at h

theorem linkFrom_takes {sp : ℕ → Option (ℕ × ℕ)} : ∀ {todo i : ℕ} {s : Skl},
    (∀ j p n, i ≤ j → sp j = some (p, n) → s.arena.tower p j = n) →
    linkFrom key v x sp todo i s = some s' → Relinked s s' i (i + todo) := by
  intro todo
  induction todo with
  | zero =>
    intro i s _ h
    rw [linkFrom, Option.some_inj] at h
    exact h ▸ ⟨rfl, rfl, rfl, rfl, fun _ _ _ => rfl, rfl⟩
  | succ todo ih =>
    intro i s hsp h
    rw [linkFrom] at h
    split at h
    · simp at h
    · rename_i s₁ hlink
      exact absurd (linkLevel_takes (fun p n => hsp i p n le_rfl) hlink).1 (by simp)
    · rename_i s₁ hlink
      have h₁ := (linkLevel_takes (fun p n => hsp i p n le_rfl) hlink).2
      have h₂ := ih (fun j p n hj hjp => by
        rw [h₁.tower_eq p j (by omega)]
        exact hsp j p n (by omega) hjp) h
      have h₃ := h₁.trans h₂ (Nat.le_succ i) (Nat.le_add_right ..)
      rwa [Nat.add_right_comm] at h₃

/-! ## One call -/

/-- The lengths of the keys are 16-bit numbers. -/
def Arena.ShortKeys (a : Arena) : Prop := ∀ y, (a.nodes y).keySize < 2 ^ 16

theorem Arena.ShortKeys.withNode {a : Arena} (h : a.ShortKeys) (key : Bytes) (v : ValueStruct)
    (height : ℕ) : (a.withNode key v height).ShortKeys := by
  intro y
  by_cases hy : y = align a.n
  · rw [hy, nodes_withNode_self]
    exact Nat.mod_lt _ (by decide)
  · rw [nodes_withNode_of_ne hy]
    exact h y

/-- **A call takes what it asks for.** -/
theorem put_takes (htop : s.TopEmpty) (hlen : s.arena.len < 2 ^ 32)
    (hv : op.value.expiresAt < 2 ^ 64) (hroom : s.HasRoom op) (h : s.step op = some s') :
    s'.arena.n = s.arena.n + ((s.requests op).map Alloc.need).sum ∧
      s'.arena.len = s.arena.len ∧ s'.TopEmpty ∧ (s.arena.ShortKeys → s'.arena.ShortKeys) := by
  unfold HasRoom requests at hroom
  unfold requests
  rw [step, put] at h
  split at h
  · simp at h
  · rename_i y hfound
    rw [hfound] at hroom ⊢
    rw [setValue_eq hv hlen hroom] at h
    cases h
    exact ⟨rfl, rfl, htop, fun hkeys z => (keySize_withValue z).2.1.trans_lt (hkeys z)⟩
  · rename_i sp hsp
    rw [hsp] at hroom ⊢
    have hroom : s.arena.n + (nodeSize op.height + (op.key.length + op.value.encodedSize)) ≤
      s.arena.len := hroom
    rw [newNode_eq hv hlen (by omega)] at h
    have hready : ∀ j p n, 0 ≤ j → s.prevNext sp j = some (p, n) →
        (s.withNode op.key op.value op.height).arena.tower p j = n := by
      intro j p n _ hj
      rw [prevNext] at hj
      split_ifs at hj with hheight
      · cases hj
        exact htop j hheight.ge
      · exact next_of_splices (by simp) hsp j p n hj
    have hlink : Relinked (s.withNode op.key op.value op.height) s' 0 (0 + op.height) :=
      linkFrom_takes hready h
    refine ⟨?_, hlink.len_eq, fun l hl => ?_, fun hkeys y => ?_⟩
    · rw [hlink.n_eq]
      show s.arena.n + nodeSize op.height + op.key.length + op.value.encodedSize =
        s.arena.n + ([Alloc.node op.height, .key op.key, .val op.value].map Alloc.need).sum
      simp only [map_cons, map_nil, sum_cons, sum_nil, Alloc.need]
      omega
    · have hl' : max s.height op.height ≤ l := hlink.height_eq.symm.trans_le hl
      rw [hlink.head_eq, hlink.tower_eq _ l (by omega)]
      exact htop l ((Nat.le_max_left ..).trans hl')
    · rw [hlink.nodes_eq]
      exact hkeys.withNode op.key op.value op.height y

/-- A call returns only if there was room, unless the position of the arena goes round. -/
theorem hasRoom_of_step (hn : s.arena.n + op.need < 2 ^ 32) (hle : s.arena.n ≤ s.arena.len)
    (h : s.step op = some s') : s.HasRoom op := by
  have hsum := s.sum_requests_le op
  have hrequests : s.arena.n + ((s.requests op).map Alloc.need).sum < 2 ^ 32 := by omega
  unfold HasRoom
  unfold requests at hrequests ⊢
  rw [step, put] at h
  split at h
  · simp at h
  · rename_i y hfound
    rw [hfound] at hrequests ⊢
    obtain ⟨⟨off, a⟩, hput, -⟩ := Option.bind_eq_some_iff.mp h
    have hallocs : s.arena.allocs [.val op.value] =
        some ([(.val op.value, ⟨off, op.value.encodedSize⟩)], a) := by
      rw [Arena.allocs, Arena.alloc, hput]
      rfl
    exact Arena.allocs_takes hrequests hle hallocs
  · rename_i sp hsp
    rw [hsp] at hrequests ⊢
    obtain ⟨⟨x, a⟩, hnew, -⟩ := Option.bind_eq_some_iff.mp h
    obtain ⟨_, _, _, _, hallocs, -⟩ := newNode_allocs hnew
    exact Arena.allocs_takes hrequests hle hallocs

/-! ## Runs -/

/-- The parts that a run of calls is given, with the requests they are for. -/
def handedOut : Skl → List PutOp → List (Alloc × Region)
  | _, [] => []
  | s, op :: ops =>
    ((s.arena.allocs (s.requests op)).map Prod.fst).getD [] ++
      match s.step op with
      | none => []
      | some s' => handedOut s' ops

/-- What `NewSkiplist` asks for. -/
def headRequests : List Alloc := [.node maxHeight, .key [], .val {}]

/-- A call with a height that is drawn and a 64-bit expiry time, in a state with room for it. -/
@[mk_iff]
structure Admissible (s : Skl) (op : PutOp) : Prop where
  height_le : op.height ≤ maxHeight
  expiresAt_lt : op.value.expiresAt < 2 ^ 64
  room : s.HasRoom op

instance (s : Skl) (op : PutOp) : Decidable (s.Admissible op) :=
  decidable_of_iff' _ (s.admissible_iff op)

/-- The parts of a run lie one behind the other, from the position before it to the one after it. -/
theorem consecutive_handedOut :
    ∀ {ops : List PutOp} {s t : Skl}, s.TopEmpty → s.arena.len < 2 ^ 32 →
    s.arena.n ≤ s.arena.len → Guarded step Admissible s ops → exec step s ops = some t →
    Consecutive ((s.handedOut ops).map Prod.snd) s.arena.n t.arena.n ∧
      (∀ x ∈ s.handedOut ops, x.1.Aligned x.2) ∧ t.TopEmpty ∧ t.arena.len = s.arena.len ∧
      t.arena.n ≤ s.arena.len := by
  intro ops
  induction ops with
  | nil =>
    intro s t htop _ hle _ ht
    rw [exec_nil] at ht
    cases ht
    exact ⟨.nil _, by simp [handedOut], htop, rfl, hle⟩
  | cons op ops ih =>
    intro s t htop hlen hle hg ht
    obtain ⟨s', hs, ht⟩ := exec_cons_eq_some.mp ht
    obtain ⟨hheight, hv, hroom⟩ := hg.1
    obtain ⟨hn, hlen', htop', -⟩ := put_takes htop hlen hv hroom hs
    obtain ⟨xs, a, ha, han, -, -, hcons, halign⟩ :=
      Arena.allocs_spec hlen (s.valid_requests hheight hv) hroom
    obtain ⟨hcons', halign', htop'', hlen'', hle''⟩ :=
      ih htop' (hlen' ▸ hlen) (hn.trans_le (hlen' ▸ hroom)) (hg.2 s' hs) ht
    have hout : s.handedOut (op :: ops) = xs ++ s'.handedOut ops := by
      rw [handedOut, ha, hs]
      rfl
    rw [hout, map_append]
    refine ⟨?_, ?_, htop'', hlen''.trans hlen', hlen' ▸ hle''⟩
    · rw [han, ← hn] at hcons
      exact hcons.append hcons'
    · exact forall_mem_append.mpr ⟨halign, halign'⟩

/-! ## Calls that return -/

theorem Refines.memSize_stepMap {m : Skiplist} {L : ℕ → List ℕ} (h : s.Refines m L)
    (hkey : 8 ≤ op.key.length) :
    (stepMap m op).memSize = s.arena.n + ((s.requests op).map Alloc.need).sum := by
  unfold requests stepMap
  rcases h.splices_spec hkey with ⟨y, hfound, hy, hyk⟩ | ⟨sp, hfound, hlen, hsp⟩
  · rw [hfound, ← hyk, h.memSize_put_old hy]
    rfl
  · rw [hfound, h.memSize_put_new hkey (h.key_ne_of_splices hlen hsp)]
    simp only [map_cons, map_nil, sum_cons, sum_nil, Alloc.need]
    omega

theorem Refines.step_of_hasRoom {m : Skiplist} {L : ℕ → List ℕ} (h : s.Refines m L) (hop : op.Valid)
    (hroom : s.HasRoom op) :
    ∃ s' L', s.step op = some s' ∧ s'.arena.len = s.arena.len ∧ s'.Refines (stepMap m op) L' :=
  h.put hop.len_ge (Nat.lt_succ_of_le hop.len_le) hop.expiresAt_lt hop.height_ge hop.height_le
    ((h.memSize_stepMap hop.len_ge).trans_le hroom)

theorem Refines.of_guarded : ∀ {ops : List PutOp} {s t : Skl} {m : Skiplist} {L : ℕ → List ℕ},
    s.Refines m L → (∀ op ∈ ops, op.Valid) → Guarded step Admissible s ops →
    Lib.exec step s ops = some t → ∃ L', t.Refines (ops.foldl stepMap m) L' := by
  intro ops
  induction ops with
  | nil =>
    intro s t m L h _ _ ht
    rw [exec_nil, Option.some_inj] at ht
    exact ⟨L, ht ▸ h⟩
  | cons op ops ih =>
    intro s t m L h hops hg ht
    obtain ⟨s₁, hs₁, ht⟩ := exec_cons_eq_some.mp ht
    obtain ⟨s', L', hs', -, h'⟩ := h.step_of_hasRoom (hops op (.head _)) hg.1.room
    obtain rfl : s' = s₁ := Option.some.inj (hs'.symm.trans hs₁)
    exact ih h' (fun o ho => hops o (.tail _ ho)) (hg.2 s' hs') ht

/-! ## How much a run needs -/

theorem memSize_foldl_le : ∀ {ops : List PutOp} (m : Skiplist), (∀ op ∈ ops, 8 ≤ op.key.length) →
    (ops.foldl stepMap m).memSize ≤ m.memSize + (ops.map PutOp.need).sum := by
  intro ops
  induction ops with
  | nil => exact fun m _ => le_rfl
  | cons op ops ih =>
    intro m hops
    have hput : (stepMap m op).memSize ≤ m.memSize + op.need := by
      unfold stepMap Skiplist.put PutOp.need
      dsimp only
      rw [len_ofBytes (hops op (.head _))]
      split_ifs <;> omega
    have hrest := ih (stepMap m op) fun o ho => hops o (.tail _ ho)
    rw [foldl_cons, map_cons, sum_cons]
    omega

theorem memSize_foldl_eq : ∀ {ops : List PutOp} {m : Skiplist}, (∀ op ∈ ops, 8 ≤ op.key.length) →
    (ops.map fun op => ofBytes op.key).Nodup →
    (∀ op ∈ ops, ∀ v, (ofBytes op.key, v) ∉ m.data) →
    (ops.foldl stepMap m).memSize = m.memSize + (ops.map PutOp.need).sum := by
  intro ops
  induction ops with
  | nil => exact fun _ _ _ => rfl
  | cons op ops ih =>
    intro m hops hnodup hnew
    rw [map_cons, nodup_cons] at hnodup
    have hput : (stepMap m op).memSize = m.memSize + op.need := by
      have hany : (m.data.entries.any fun x => x.1 == ofBytes op.key) = false := by
        rw [any_eq_false]
        rintro ⟨k, v⟩ hx heq
        obtain rfl : k = ofBytes op.key := by simpa using heq
        exact hnew op (.head _) v hx
      unfold stepMap Skiplist.put PutOp.need
      dsimp only
      rw [len_ofBytes (hops op (.head _)), hany, if_neg (by simp)]
      omega
    have hrest := ih (m := stepMap m op) (fun o ho => hops o (.tail _ ho)) hnodup.2
      fun o ho v hmem => ?_
    · rw [foldl_cons, hrest, hput, map_cons, sum_cons, Nat.add_assoc]
    · rcases SortedMap.mem_insert.mp hmem with heq | ⟨hmem, -⟩
      · exact hnodup.1 (mem_map.mpr ⟨o, ho, congrArg Prod.fst heq⟩)
      · exact hnew o (.tail _ ho) v hmem

theorem Refines.memSize_le_of_exec : ∀ {ops : List PutOp} {s t : Skl} {m : Skiplist}
    {L : ℕ → List ℕ}, s.Refines m L → (∀ op ∈ ops, op.Valid ∧ s.arena.len + op.need < 2 ^ 32) →
    Lib.exec step s ops = some t → (ops.foldl stepMap m).memSize ≤ s.arena.len := by
  intro ops
  induction ops with
  | nil => exact fun h _ _ => h.memSize ▸ h.le_len
  | cons op ops ih =>
    intro s t m L h hops ht
    obtain ⟨s₁, hs₁, ht⟩ := exec_cons_eq_some.mp ht
    obtain ⟨hop, hneed⟩ := hops op (.head _)
    have hle := h.le_len
    have hroom : s.HasRoom op := hasRoom_of_step (by omega) hle hs₁
    obtain ⟨s', L', hs', hlen', h'⟩ := h.step_of_hasRoom hop hroom
    cases hs'.symm.trans hs₁
    rw [foldl_cons, ← hlen']
    refine ih h' (fun o ho => ?_) ht
    rw [hlen']
    exact hops o (.tail _ ho)

theorem newSkiplist_takes {arenaSize : ℕ} (hsize : arenaSize < 2 ^ 32)
    (hfit : new.memSize ≤ arenaSize) :
    ∃ s xs a, newSkiplist arenaSize = some s ∧
      (newArena arenaSize).allocs headRequests = some (xs, a) ∧
      Consecutive (xs.map Prod.snd) 1 s.arena.n ∧ (∀ x ∈ xs, x.1.Aligned x.2) ∧
      s.arena.len = arenaSize ∧ s.TopEmpty ∧ s.arena.n ≤ arenaSize ∧ s.arena.ShortKeys := by
  have hneed : 1 + (headRequests.map Alloc.need).sum = new.memSize := by decide
  have hvalid : ∀ a ∈ headRequests, a.Valid := by
    refine forall_mem_cons.mpr ⟨le_rfl, forall_mem_cons.mpr ⟨trivial, ?_⟩⟩
    exact forall_mem_singleton.mpr (show 0 < 2 ^ 64 by decide)
  obtain ⟨xs, a, ha, han, -, -, hcons, halign⟩ :=
    Arena.allocs_spec (s := newArena arenaSize) hsize hvalid (hneed.trans_le hfit)
  have hn : (newArena arenaSize).n + nodeSize maxHeight + ([] : Bytes).length +
      ({} : ValueStruct).encodedSize = new.memSize := rfl
  refine ⟨{ height := 1, head := Arena.align 1,
            arena := (newArena arenaSize).withNode [] {} maxHeight },
    xs, a, ?_, ha, ?_, halign, rfl, fun _ _ => rfl, hn.trans_le hfit,
    Arena.ShortKeys.withNode (fun _ => show 0 < 2 ^ 16 by decide) _ _ _⟩
  · rw [newSkiplist, newNode_eq (by decide) hsize (hn.trans_le hfit)]
    rfl
  · rw [han] at hcons
    exact hcons

end Skl
end Autumn
