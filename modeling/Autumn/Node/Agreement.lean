import Autumn.Node.Replication

/-!
# When the replicas of an extent agree

`ReplicateBlocks` carries the commit length of the primary, and the secondary appends if its own is
the same; nothing takes back what a replica has appended when the `Append` fails elsewhere.  So a
secondary that has taken the blocks of a failed `Append` and a primary that has later appended
others of the same size have equal lengths and different bytes, and the next `Append` is answered
with `OK` (`replicas_diverge`).

The replicas agree as long as no secondary adds a block that the primary does not add for the same
request (`PrimaryLeads`).  Then a secondary's file is a prefix of the primary's, or is ahead of it
by blocks that the primary is still to write (`Aligned.secondary`).  A late message is appended
where the noted length says, and there the primary has its part of the same request
(`Aligned.primary`).
-/

namespace Autumn
namespace Node

open Lib List Option

/-- The `Append` of request `n` is in progress and the primary has not written its blocks. -/
def World.Writing (w : World) (n : ℕ) : Prop :=
  ∃ c, w.call = some c ∧ c.request = n ∧ c.result 0 = none

variable {m n : ℕ}

theorem World.Writing.unique {w : World} (hn : w.Writing n) (hm : w.Writing m) : n = m := by
  obtain ⟨c, hc, rfl, -⟩ := hn
  obtain ⟨d, hd, rfl, -⟩ := hm
  rw [some.inj (hc.symm.trans hd)]

/-- No secondary adds more blocks of a request to its file than the primary does.  Besides, the
extent stays below `2 ^ 32` bytes, `len(Data) = BlockLength`, and no node restarts. -/
def PrimaryLeads (w : World) : Action → Prop
  | .append blocks =>
    (∀ b ∈ blocks, b.Sized) ∧ (w.extents 0).commitLength + totalSize blocks < 2 ^ 32
  | .write f =>
    ∀ c ∈ w.call, ∀ q ∈ w.requests[c.request]?, ∀ i, ∀ m ∈ w.kept (c.request, i),
      m ≤ (w.extents 0).keeps q.blocks q.commit f
  | .deliver i n f =>
    ∀ q ∈ w.requests[n]?, ∀ m ∈ w.kept (n, 0), (w.extents i).keeps q.blocks q.commit f ≤ m
  | .restart _ _ => False
  | _ => True

instance (w : World) : DecidablePred (PrimaryLeads w)
  | .append _ => inferInstanceAs (Decidable (_ ∧ _))
  | .write f => inferInstanceAs (Decidable (∀ c ∈ w.call, ∀ q ∈ w.requests[c.request]?,
      ∀ i, ∀ m ∈ w.kept (c.request, i), m ≤ (w.extents 0).keeps q.blocks q.commit f))
  | .deliver i n f => inferInstanceAs (Decidable (∀ q ∈ w.requests[n]?, ∀ m ∈ w.kept (n, 0),
      (w.extents i).keeps q.blocks q.commit f ≤ m))
  | .restart _ _ => isFalse id
  | .reply _ => isTrue trivial
  | .timeout _ => isTrue trivial
  | .finish _ => isTrue trivial

/-- The blocks of a request fit behind the noted length. -/
def Request.Fits (q : Request) : Prop :=
  (∀ b ∈ q.blocks, b.Sized) ∧ q.commit + totalSize q.blocks < 2 ^ 32

instance : DecidablePred Request.Fits := fun q =>
  inferInstanceAs (Decidable ((∀ b ∈ q.blocks, b.Sized) ∧ q.commit + totalSize q.blocks < 2 ^ 32))

/-- How the files of the three replicas lie relative to each other. -/
structure World.Aligned (w : World) : Prop where
  length : ∀ i, (w.extents i).commitLength = (w.extents i).file.length
  fits : ∀ q ∈ w.requests, q.Fits
  fresh : ∀ n i, w.requests.length ≤ n → w.kept (n, i) = none
  unhandled : ∀ i n, (i, n) ∈ w.pending → i ≠ 0 ∧ w.kept (n, i) = none
  writing : ∀ n, n < w.requests.length → (w.kept (n, 0) = none ↔ w.Writing n)
  /-- What the primary notes for a request is its length until it writes the blocks. -/
  noted : ∀ n q, w.requests[n]? = some q → w.kept (n, 0) = none →
    q.commit = (w.extents 0).file.length
  /-- Afterwards the blocks it has kept stand at the noted length. -/
  primary : ∀ n q k, w.requests[n]? = some q → w.kept (n, 0) = some k →
    q.commit ≤ (w.extents 0).file.length ∧
      encode (q.blocks.take k) <+: (w.extents 0).file.drop q.commit
  secondary : ∀ i, (w.extents i).file <+: (w.extents 0).file ∨
    ∃ n q m, w.requests[n]? = some q ∧ w.kept (n, 0) = none ∧ w.kept (n, i) = some m ∧
      (w.extents i).file = (w.extents 0).file ++ encode (q.blocks.take m)

theorem encode_take_mono {k : ℕ} (h : m ≤ k) (bs : List Block) :
    encode (bs.take m) <+: encode (bs.take k) := by
  obtain ⟨rest, hrest⟩ := take_prefix_take_left (l := bs) h
  rw [← hrest, encode_append]
  exact prefix_append _ _

namespace World.Aligned

variable {w w' : World} {q : Request} {i : Replica}

theorem init (id : ℕ) : (World.init id).Aligned where
  length := by
    intro i
    show 512 = (extentHeader id).length
    rw [extentHeader, length_sector (by simp [extentMagicNumber])]
  fits := by simp [World.init]
  fresh := fun _ _ _ => rfl
  unhandled := by simp [World.init]
  writing := by simp [World.init]
  noted := by simp [World.init]
  primary := by simp [World.init]
  secondary := fun _ => Or.inl (prefix_refl _)

/-- What a replica does with a request that fits. -/
theorem added (h : w.Aligned) (i : Replica) (hq : q ∈ w.requests) (f : Fault) :
    (w.extents i).Added q.blocks q.commit f (w.handled i q f).1 (w.handled i q f).2 :=
  Extent.added f (h.length i) (h.fits q hq).1 (h.fits q hq).2

theorem waiting_unique (h : w.Aligned) {r : Request} (hn : w.requests[n]? = some q)
    (hm : w.requests[m]? = some r) (hkn : w.kept (n, 0) = none) (hkm : w.kept (m, 0) = none) :
    n = m := by
  have hlt : ∀ {k : ℕ} {x : Request}, w.requests[k]? = some x → k < w.requests.length :=
    fun hx => (List.getElem?_eq_some_iff.mp hx).1
  exact ((h.writing n (hlt hn)).mp hkn).unique ((h.writing m (hlt hm)).mp hkm)

theorem secondary_of_le (h : w.Aligned)
    (hle : (w.extents i).file.length ≤ (w.extents 0).file.length) :
    (w.extents i).file <+: (w.extents 0).file := by
  rcases h.secondary i with hs | ⟨m, r, l, -, -, -, hs⟩
  · exact hs
  · have hlen := congrArg List.length hs
    rw [length_append] at hlen
    have hnil := length_eq_zero_iff.mp (by omega : (encode (r.blocks.take l)).length = 0)
    rw [hs, hnil, append_nil]

section handle

theorem length_handle (h : w.Aligned) (hreq : w.requests[n]? = some q) (f : Fault) (j : Replica) :
    ((w.handle i n q f).extents j).commitLength = ((w.handle i n q f).extents j).file.length := by
  by_cases hj : j = i
  · subst hj
    rw [w.handle_extents_self]
    exact (h.added j (mem_of_getElem? hreq) f).commit
  · rw [w.handle_extents_of_ne i n q f hj]
    exact h.length j

theorem fresh_handle (h : w.Aligned) (hreq : w.requests[n]? = some q) (f : Fault) (m : ℕ)
    (j : Replica) (hm : w.requests.length ≤ m) : (w.handle i n q f).kept (m, j) = none := by
  have hlt : n < w.requests.length := (List.getElem?_eq_some_iff.mp hreq).1
  refine (w.handle_kept_of_ne i n q f fun heq => ?_).trans (h.fresh m j hm)
  have := (Prod.mk.inj heq).1
  omega

end handle

theorem of_same (h : w.Aligned) (hext : w'.extents = w.extents) (hreq : w'.requests = w.requests)
    (hpend : w'.pending = w.pending) (hkept : w'.kept = w.kept)
    (hwriting : ∀ n, w'.Writing n ↔ w.Writing n) : w'.Aligned where
  length := by rw [hext]; exact h.length
  fits := by rw [hreq]; exact h.fits
  fresh := by rw [hreq, hkept]; exact h.fresh
  unhandled := by rw [hpend, hkept]; exact h.unhandled
  writing := by
    intro n hn
    rw [hreq] at hn
    rw [hkept, hwriting]
    exact h.writing n hn
  noted := by rw [hreq, hkept, hext]; exact h.noted
  primary := by rw [hreq, hkept, hext]; exact h.primary
  secondary := by rw [hreq, hkept, hext]; exact h.secondary

/-- A new request is noted with the length of the primary. -/
theorem append (h : w.Aligned) (hcall : w.call = none) {blocks : List Block}
    (hlead : PrimaryLeads w (.append blocks)) :
    World.Aligned { w with
      requests := w.requests ++ [⟨blocks, (w.extents 0).commitLength⟩]
      pending := w.pending ++ [(1, w.requests.length), (2, w.requests.length)]
      call := some ⟨w.requests.length, fun _ => none, fun _ => none⟩ } := by
  -- the primary has dealt with all requests before
  have hdone : ∀ n q, w.requests[n]? = some q → w.kept (n, 0) ≠ none := by
    intro n q hq hk
    obtain ⟨c, hc, -⟩ := (h.writing n (List.getElem?_eq_some_iff.mp hq).1).mp hk
    rw [hcall] at hc
    cases hc
  have hold : ∀ n q, (w.requests ++ [⟨blocks, (w.extents 0).commitLength⟩])[n]? = some q →
      w.requests[n]? = some q ∨ n = w.requests.length ∧
      q = ⟨blocks, (w.extents 0).commitLength⟩ := by
    intro n q hq
    by_cases hn : n < w.requests.length
    · rw [getElem?_append_left hn] at hq
      exact Or.inl hq
    · rw [getElem?_append_right (Nat.le_of_not_lt hn), getElem?_singleton] at hq
      split_ifs at hq with hn'
      exact Or.inr ⟨by omega, (some.inj hq).symm⟩
  have hnew : ∀ i, w.kept (w.requests.length, i) = none := fun i => h.fresh _ i le_rfl
  constructor
  · exact h.length
  · exact forall_mem_concat h.fits hlead
  · intro n i hn
    rw [length_append] at hn
    exact h.fresh n i (by omega)
  · intro i n hmem
    rcases mem_append.mp hmem with hmem | hmem
    · exact h.unhandled i n hmem
    · simp only [mem_cons, Prod.mk.injEq, not_mem_nil, or_false] at hmem
      rcases hmem with ⟨rfl, rfl⟩ | ⟨rfl, rfl⟩
      · exact ⟨by decide, hnew 1⟩
      · exact ⟨by decide, hnew 2⟩
  · intro n hn
    rw [length_append, length_singleton] at hn
    by_cases hn' : n = w.requests.length
    · subst hn'
      exact ⟨fun _ => ⟨_, rfl, rfl, rfl⟩, fun _ => hnew 0⟩
    · constructor
      · intro hk
        obtain ⟨q, hq⟩ : ∃ q, w.requests[n]? = some q := ⟨_, getElem?_eq_getElem (by omega)⟩
        exact absurd hk (hdone n q hq)
      · rintro ⟨c, hc, rfl, -⟩
        cases hc
        exact absurd rfl hn'
  · intro n q hq hk
    rcases hold n q hq with hq | ⟨-, rfl⟩
    · exact absurd hk (hdone n q hq)
    · exact h.length 0
  · intro n q k hq hk
    rcases hold n q hq with hq | ⟨rfl, -⟩
    · exact h.primary n q k hq hk
    · rw [hnew 0] at hk
      cases hk
  · intro i
    rcases h.secondary i with hi | ⟨n, q, m, hq, hk, -⟩
    · exact Or.inl hi
    · exact absurd hk (hdone n q hq)

/-- The primary writes at least what the secondaries have taken of the request. -/
theorem write (h : w.Aligned) {c : Call} {f : Fault} (hcall : w.call = some c)
    (hreq : w.requests[c.request]? = some q) (hres : c.result 0 = none)
    (hlead : PrimaryLeads w (.write f)) :
    World.Aligned
      { w.handle 0 c.request q f with call := some (c.sent 0 (w.handled 0 q f).2) } := by
  set k := (w.extents 0).keeps q.blocks q.commit f with hkdef
  have hadd := h.added 0 (mem_of_getElem? hreq) f
  have hlt : c.request < w.requests.length := (List.getElem?_eq_some_iff.mp hreq).1
  have hnone : w.kept (c.request, 0) = none := (h.writing _ hlt).mpr ⟨c, hcall, rfl, hres⟩
  have hnoted := h.noted _ q hreq hnone
  have hother : ∀ n r, w.requests[n]? = some r → n ≠ c.request → w.kept (n, 0) ≠ none :=
    fun n r hr hne hk => hne (h.waiting_unique hr hreq hk hnone)
  have hfile :
      (w.handled 0 q f).1.file = (w.extents 0).file ++ encode (q.blocks.take k) := hadd.file
  have hpre : (w.extents 0).file <+: (w.handled 0 q f).1.file := by
    rw [hfile]
    exact prefix_append _ _
  have hkept : ∀ n i, (n, i) ≠ (c.request, (0 : Replica)) →
      (w.handle 0 c.request q f).kept (n, i) = w.kept (n, i) :=
    fun n i hne => w.handle_kept_of_ne 0 c.request q f hne
  have hself : (w.handle 0 c.request q f).kept (c.request, 0) = some k :=
    w.handle_kept_self 0 c.request q f
  have hext0 : (w.handle 0 c.request q f).extents 0 = (w.handled 0 q f).1 :=
    w.handle_extents_self 0 c.request q f
  have hexti : ∀ i, i ≠ 0 → (w.handle 0 c.request q f).extents i = w.extents i :=
    fun i hi => w.handle_extents_of_ne 0 c.request q f hi
  refine ⟨h.length_handle hreq f, h.fits, h.fresh_handle hreq f, ?_, ?_, ?_, ?_, ?_⟩
  · intro i n hmem
    obtain ⟨hi, hk⟩ := h.unhandled i n hmem
    exact ⟨hi, (hkept n i fun heq => hi (Prod.mk.inj heq).2).trans hk⟩
  · -- nothing is left for the primary to write
    intro n hn
    have hlt' : n < w.requests.length := hn
    constructor
    · intro hk
      by_cases hne : n = c.request
      · subst hne
        cases hself.symm.trans hk
      · obtain ⟨r, hr⟩ : ∃ r, w.requests[n]? = some r := ⟨_, getElem?_eq_getElem hlt'⟩
        refine absurd ?_ (hother n r hr hne)
        exact (hkept n 0 fun heq => hne (Prod.mk.inj heq).1).symm.trans hk
    · rintro ⟨d, hd, -, hd0⟩
      cases hd
      cases hd0
  · intro n r hr hk
    by_cases hne : n = c.request
    · subst hne
      cases hself.symm.trans hk
    · exact absurd ((hkept n 0 fun heq => hne (Prod.mk.inj heq).1).symm.trans hk)
        (hother n r hr hne)
  · intro n r m hr hk
    show _ ≤ ((w.handle 0 c.request q f).extents 0).file.length ∧
      _ <+: ((w.handle 0 c.request q f).extents 0).file.drop _
    rw [hext0]
    by_cases hne : n = c.request
    · subst hne
      cases hreq.symm.trans hr
      cases hself.symm.trans hk
      rw [hnoted, hfile, drop_left]
      exact ⟨by rw [length_append]; omega, prefix_refl _⟩
    · have hk' : w.kept (n, 0) = some m :=
        (hkept n 0 fun heq => hne (Prod.mk.inj heq).1).symm.trans hk
      obtain ⟨hle, hp⟩ := h.primary n r m hr hk'
      rw [hfile, length_append, drop_append_of_le_length hle]
      exact ⟨by omega, hp.trans (prefix_append _ _)⟩
  · intro i
    left
    by_cases hi : i = 0
    · rw [hi]
    rw [hext0, hexti i hi]
    rcases h.secondary i with hs | ⟨n, r, m, hr, hk0, hki, hs⟩
    · exact hs.trans hpre
    · -- the secondary is ahead by blocks of this request, and the primary now writes these
      obtain rfl : n = c.request := h.waiting_unique hr hreq hk0 hnone
      cases hreq.symm.trans hr
      have hle : m ≤ k := hlead c hcall q hreq i m hki
      rw [hs, hfile]
      exact (prefix_append_right_inj _).mpr (encode_take_mono hle _)

/-- A secondary takes the blocks of a request, in time or late. -/
theorem deliver (h : w.Aligned) {f : Fault} {call : Option Call} (hmsg : (i, n) ∈ w.pending)
    (hreq : w.requests[n]? = some q) (hlead : PrimaryLeads w (.deliver i n f))
    (hwriting : ∀ m, (∃ c, call = some c ∧ c.request = m ∧ c.result 0 = none) ↔ w.Writing m) :
    World.Aligned
      { w.handle i n q f with
        pending := w.pending.filter fun m => m ≠ (i, n)
        call := call } := by
  set k := (w.extents i).keeps q.blocks q.commit f with hkdef
  have hadd := h.added i (mem_of_getElem? hreq) f
  obtain ⟨hi, hnone⟩ := h.unhandled i n hmsg
  have hfile :
      (w.handled i q f).1.file = (w.extents i).file ++ encode (q.blocks.take k) := hadd.file
  have hkept : ∀ m j, (m, j) ≠ (n, i) → (w.handle i n q f).kept (m, j) = w.kept (m, j) :=
    fun m j hne => w.handle_kept_of_ne i n q f hne
  have hkept0 : ∀ m, (w.handle i n q f).kept (m, 0) = w.kept (m, 0) :=
    fun m => hkept m 0 fun heq => hi (Prod.mk.inj heq).2.symm
  have hself : (w.handle i n q f).kept (n, i) = some k := w.handle_kept_self i n q f
  have hexti : (w.handle i n q f).extents i = (w.handled i q f).1 := w.handle_extents_self i n q f
  have hextj : ∀ j, j ≠ i → (w.handle i n q f).extents j = w.extents j :=
    fun j hj => w.handle_extents_of_ne i n q f hj
  have hext0 : (w.handle i n q f).extents 0 = w.extents 0 := hextj 0 (Ne.symm hi)
  refine ⟨h.length_handle hreq f, h.fits, h.fresh_handle hreq f, ?_, ?_, ?_, ?_, ?_⟩
  · intro j m hmem
    obtain ⟨hmem, hne⟩ := mem_filter.mp hmem
    obtain ⟨hj, hk⟩ := h.unhandled j m hmem
    refine ⟨hj, (hkept m j fun heq => ?_).trans hk⟩
    cases heq
    simp at hne
  · intro m hm
    rw [hkept0]
    exact (h.writing m hm).trans (hwriting m).symm
  · intro m r hr hk
    rw [hext0]
    exact h.noted m r hr ((hkept0 m).symm.trans hk)
  · intro m r l hr hk
    show _ ≤ ((w.handle i n q f).extents 0).file.length ∧
      _ <+: ((w.handle i n q f).extents 0).file.drop _
    rw [hext0]
    exact h.primary m r l hr ((hkept0 m).symm.trans hk)
  · intro j
    show ((w.handle i n q f).extents j).file <+: ((w.handle i n q f).extents 0).file ∨
      ∃ m r l, w.requests[m]? = some r ∧ (w.handle i n q f).kept (m, 0) = none ∧
        (w.handle i n q f).kept (m, j) = some l ∧
        ((w.handle i n q f).extents j).file =
          ((w.handle i n q f).extents 0).file ++ encode (r.blocks.take l)
    simp only [hext0, hkept0]
    -- a replica that is ahead by blocks of another request stays so
    have hahead : ∀ m r l, w.requests[m]? = some r → w.kept (m, j) = some l →
        (w.handle i n q f).kept (m, j) = some l := by
      intro m r l _ hl
      refine (hkept m j fun heq => ?_).trans hl
      cases heq
      cases hnone.symm.trans hl
    by_cases hj : j = i
    · subst hj
      rw [hexti, hfile]
      by_cases hk : k = 0
      · rw [hk, take_zero, encode_nil, append_nil]
        rcases h.secondary j with hs | ⟨m, r, l, hr, hk0, hkj, hs⟩
        · exact Or.inl hs
        · exact Or.inr ⟨m, r, l, hr, hk0, hahead m r l hr hkj, hs⟩
      · have hplace : q.commit = (w.extents j).file.length := hadd.place hk
        cases hk0 : w.kept (n, 0) with
        | none =>
          refine Or.inr ⟨n, q, k, hreq, hk0, hself, ?_⟩
          congr 1
          rcases h.secondary j with hs | ⟨m, r, l, hr, hm0, hmj, -⟩
          · exact hs.eq_of_length (hplace.symm.trans (h.noted n q hreq hk0))
          · obtain rfl : m = n := h.waiting_unique hr hreq hm0 hk0
            cases hnone.symm.trans hmj
        | some l =>
          left
          obtain ⟨hle, hp⟩ := h.primary n q l hreq hk0
          obtain ⟨rest, hrest⟩ := h.secondary_of_le (hplace ▸ hle)
          rw [← hrest, hplace, drop_left] at hp
          rw [← hrest]
          exact (prefix_append_right_inj _).mpr
            ((encode_take_mono (hlead q hreq l hk0) _).trans hp)
    · rw [hextj j hj]
      rcases h.secondary j with hs | ⟨m, r, l, hr, hk0, hkj, hs⟩
      · exact Or.inl hs
      · exact Or.inr ⟨m, r, l, hr, hk0, hahead m r l hr hkj, hs⟩

theorem writing_sent {c : Call} (r : Result) (hcall : w.call = some c) (hi : i ≠ 0) (n : ℕ) :
    World.Writing { w with call := some (c.sent i r) } n ↔ w.Writing n := by
  have hres : (c.sent i r).result 0 = c.result 0 := Call.sent_result_of_ne i c r (Ne.symm hi)
  constructor
  · rintro ⟨d, hd, rfl, hd0⟩
    cases hd
    exact ⟨c, hcall, rfl, hres.symm.trans hd0⟩
  · rintro ⟨d, hd, rfl, hd0⟩
    cases hcall.symm.trans hd
    exact ⟨_, rfl, rfl, hres.trans hd0⟩

theorem step {a : Action} (h : w.Aligned) (hm : Moves w a w') (hlead : PrimaryLeads w a) :
    w'.Aligned := by
  cases hm with
  | append blocks hcall => exact h.append hcall hlead
  | write f hcall hreq hres => exact h.write hcall hreq hres hlead
  | deliver i n f hmsg hi hreq =>
    refine h.deliver hmsg hreq hlead fun m => ?_
    constructor
    · rintro ⟨d, hd, rfl, hd0⟩
      obtain ⟨c, hc, rfl⟩ := map_eq_some_iff.mp hd
      rw [Call.answered_result] at hd0
      exact ⟨c, hc, (Call.answered_request ..).symm, hd0⟩
    · rintro ⟨c, hc, rfl, hc0⟩
      refine ⟨_, map_eq_some_iff.mpr ⟨c, hc, rfl⟩, Call.answered_request .., ?_⟩
      rw [Call.answered_result]
      exact hc0
  | reply i hcall hans hres hi | timeout i hcall hres hi =>
    exact h.of_same rfl rfl rfl rfl (writing_sent _ hcall hi)
  | @finish order c hcall hperm hres =>
    refine h.of_same rfl rfl rfl rfl fun n => ⟨?_, ?_⟩
    · rintro ⟨d, hd, -⟩
      cases hd
    · rintro ⟨d, hd, -, hd0⟩
      cases hcall.symm.trans hd
      have := hres 0
      rw [hd0] at this
      cases this
  | restart i tail hopen => exact absurd hlead id

theorem file_mono {a : Action} (h : w.Aligned) (hm : Moves w a w') (hlead : PrimaryLeads w a)
    (j : Replica) : (w.extents j).file <+: (w'.extents j).file := by
  have hhandle : ∀ i n q f, q ∈ w.requests →
      (w.extents j).file <+: ((w.handle i n q f).extents j).file := by
    intro i n q f hq
    by_cases hj : j = i
    · subst hj
      rw [World.handle_extents_self, (h.added j hq f).file]
      exact prefix_append _ _
    · rw [World.handle_extents_of_ne w i n q f hj]
  cases hm with
  | @write f c q hcall hreq hres => exact hhandle 0 c.request q f (mem_of_getElem? hreq)
  | @deliver i n f q hmsg hi hreq => exact hhandle i n q f (mem_of_getElem? hreq)
  | restart i tail hopen => exact absurd hlead id
  | append blocks hcall | reply i hcall hans hres hi | timeout i hcall hres hi
  | finish order hcall hperm hres => exact prefix_refl _

/-- Of two replicas' files one continues the other, as far as the primary's file goes. -/
theorem take_eq (h : w.Aligned) (i : Replica) (h0 : n ≤ (w.extents 0).file.length)
    (hi : n ≤ (w.extents i).file.length) :
    (w.extents i).file.take n = (w.extents 0).file.take n := by
  rcases h.secondary i with ⟨rest, hs⟩ | ⟨_, _, _, -, -, -, hs⟩
  · rw [← hs, take_append_of_le_length hi]
  · rw [hs, take_append_of_le_length h0]

end World.Aligned

/-- The replica's file goes to the end of the request. -/
def Reaches (e : Extent) (c : ℕ) (bs : List Block) : Prop := c + totalSize bs ≤ e.file.length

/-- **Replica agreement.**  In every run in which no secondary adds a block that the primary does
not add, the three files are the same up to the end of every `Append` that was answered with
`OK`. -/
theorem replicas_agree {id : ℕ} {as : List Action} {w : World}
    (hg : Guarded step PrimaryLeads (World.init id) as) (h : exec step (World.init id) as = some w)
    {n : ℕ} {offsets : List ℕ} (hack : (n, offsets) ∈ w.acked) :
    ∃ q, w.requests[n]? = some q ∧ offsets = offsetsFrom q.commit q.blocks ∧
      ∀ i, q.commit + totalSize q.blocks ≤ (w.extents i).file.length ∧
        (w.extents i).file.take (q.commit + totalSize q.blocks) =
          (w.extents 0).file.take (q.commit + totalSize q.blocks) := by
  have hinv : w.Aligned ∧ w.Confirmed Reaches := by
    refine exec_invariant (I := fun w => w.Aligned ∧ w.Confirmed Reaches) ?_
      ⟨World.Aligned.init id, World.Confirmed.init id⟩ hg h
    intro s a s' hs hlead hstep
    have hm := moves_of_step hstep
    refine ⟨hs.1.step hm hlead, hs.2.step hm ?_ ?_⟩
    · intro i c bs hr
      exact hr.trans (hs.1.file_mono hm hlead i).length_le
    · intro i q f offsets _ hq hok
      obtain ⟨ho, hlen⟩ := (hs.1.added i hq f).ok offsets hok
      exact ⟨ho, hlen.ge⟩
  obtain ⟨q, hq, ho, hall⟩ := hinv.2.acked n offsets hack
  exact ⟨q, hq, ho, fun i => ⟨hall i, hinv.1.take_eq i (hall 0) (hall i)⟩⟩

/-! ## Runs -/

/-- A block of one sector filled with `x`. -/
def sectorBlock (x : UInt8) : Block :=
  ⟨adlerCheckSum (List.replicate 512 x), 512, [], List.replicate 512 x⟩

/-- Request `n` goes to all three replicas, and all of them answer; the primary's write may fail. -/
def appendAll (n : ℕ) (b : Block) (f : Fault) : List Action :=
  [.append [b], .write f, .deliver 1 n .none, .deliver 2 n .none, .reply 1, .reply 2,
    .finish [0, 1, 2]]

/-- The secondaries do not answer request `0` in time, and get it after the `Append` has failed. -/
def lateMessages : List Action :=
  [.append [sectorBlock 1], .write .none, .timeout 1, .timeout 2, .finish [1, 2, 0],
    .deliver 1 0 .none, .deliver 2 0 .none] ++ appendAll 1 (sectorBlock 2) .none

/-- The secondaries take request `0`, on which the primary fails; the primary takes request `1`, at
the same offset; request `2` finds three files of the same length. -/
def failedPrimary : List Action :=
  appendAll 0 (sectorBlock 1) ⟨some (0, []), false⟩ ++ appendAll 1 (sectorBlock 2) .none ++
    appendAll 2 (sectorBlock 3) .none

theorem replicas_agree_lateMessages :
    ∃ w, (Guarded step PrimaryLeads (World.init 1) lateMessages ∧
        exec step (World.init 1) lateMessages = some w ∧ (1, [1536]) ∈ w.acked) ∧
      ∃ q, w.requests[1]? = some q ∧ [1536] = offsetsFrom q.commit q.blocks ∧
        ∀ i, q.commit + totalSize q.blocks ≤ (w.extents i).file.length ∧
          (w.extents i).file.take (q.commit + totalSize q.blocks) =
            (w.extents 0).file.take (q.commit + totalSize q.blocks) := by
  have hg : Guarded step PrimaryLeads (World.init 1) lateMessages := by decide +kernel
  obtain ⟨w, hw, hack⟩ : ∃ w ∈ exec step (World.init 1) lateMessages, (1, [1536]) ∈ w.acked := by
    decide +kernel
  exact ⟨w, ⟨hg, hw, hack⟩, replicas_agree hg hw hack⟩

/-- The primary fails to append in one request, and two requests later an `Append` is answered with
`OK` although the replicas hold different bytes before its blocks. -/
theorem replicas_diverge :
    ∃ w, exec step (World.init 1) failedPrimary = some w ∧ (2, [1536]) ∈ w.acked ∧
      (∀ q ∈ w.requests, q.Fits) ∧ w.requests[2]? = some ⟨[sectorBlock 3], 1536⟩ ∧
      (w.extents 1).file.take (1536 + totalSize [sectorBlock 3]) ≠
        (w.extents 0).file.take (1536 + totalSize [sectorBlock 3]) := by
  decide +kernel

end Node
end Autumn
