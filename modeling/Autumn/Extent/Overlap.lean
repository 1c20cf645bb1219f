import Autumn.Lib.Run
import Autumn.Extent.HalfDone

/-!
# Reads that overlap an append

`ReadBlocks` and `ReadEntries` take no lock: they load `commitLength` once, compare it with their
offset, and then follow the file, to which an append may be writing.  Here a writer and a reader
move block by block through calls on one extent, in any interleaving.  Without the condition a read
returns blocks of an append in progress (`read_overruns`).
-/

namespace Autumn
namespace Overlap

open Lib Pb List

/-! ## The machine -/

/-- A piece of what a read returns. -/
inductive Item where
  | block (offset : ℕ) (b : Block)
  | entry (ei : Pb.EntryInfo)
  deriving DecidableEq

/-- Where it is; an entry carries the offset of its block. -/
def Item.location : Item → ℕ
  | .block offset _ => offset
  | .entry ei => ei.offset

/-- A call of `ReadBlocks` or of `ReadEntries`. -/
inductive ReadCall where
  | blocks (maxNumOfBlocks maxTotalSize : ℕ)
  | entries (C : Codec) (extentID maxTotalSize : ℕ) (replay : Bool)

namespace ReadCall

/-- How many blocks are read at most; `ReadEntries` has no such limit. -/
def count : ReadCall → Option ℕ
  | blocks n _ => some n
  | entries .. => none

/-- `maxTotalSize`. -/
def limit : ReadCall → ℕ
  | blocks _ m => m
  | entries _ _ m _ => m

/-- `ReadEntries` refuses the offset zero. -/
def refuses : ReadCall → ℕ → Bool
  | blocks .., _ => false
  | entries .., offset => offset == 0

/-- What the call makes of a block, and the size it adds. -/
def decode : ReadCall → ℕ → Block → Except BlockError (List Item × ℕ)
  | blocks .., offset, b => .ok ([.block offset b], b.size)
  | entries C extentID _ replay, offset, b =>
    match C.unmarshalMixed b.userData with
    | none => .error .panicked
    | some offsets =>
      (decodeLoop C b.data extentID offset replay (offsets.length == 2) offsets []).map fun ret =>
        (ret.map Item.entry, Pb.sizeOfEntries ret)

end ReadCall

/-- Where the reader is. -/
inductive Reader where
  | idle
  /-- In the loop: the number of blocks still to read, the offset, the size and what was read. -/
  | reading (call : ReadCall) (left : Option ℕ) (offset size : ℕ) (ret : List Item)
  | returned (call : ReadCall) (ret : List Item) (outcome : Except BlockError Extent.ReadEnd)

/-- Where the writer is. -/
inductive Writer where
  | idle
  /-- In the loop of `AppendBlocks`. -/
  | writing (todo : List Block) (currentLength : ℕ)
  /-- An error is returned; the deferred truncation is still to come. -/
  | failing (currentLength : ℕ)

/-- An extent with its writer and a reader. -/
structure Session where
  extent : Extent
  writer : Writer
  reader : Reader

/-- The steps. -/
inductive Event where
  /-- `AppendBlocks` is called. -/
  | append (blocks : List Block) (lastCommit : Option ℕ)
  /-- The next block is written; or only these bytes of it, and an error is returned. -/
  | write (fails : Option Bytes)
  /-- `Sync`, which may fail, and the store of `commitLength`. -/
  | commit (syncFails : Bool)
  | truncate
  /-- A read is called. -/
  | read (call : ReadCall) (offset : ℕ)
  /-- The reader goes once round its loop. -/
  | take

/-- The start of a read. -/
def Reader.start (e : Extent) (call : ReadCall) (offset : ℕ) : Reader :=
  if call.refuses offset then .returned call [] (.error .failed)
  else if e.commitLength ≤ offset then .returned call [] (.ok e.readEnd)
  else .reading call call.count offset 0 []

/-- Once round the loop of a read. -/
def Reader.next (e : Extent) (call : ReadCall) (left : Option ℕ) (offset size : ℕ)
    (ret : List Item) : Reader :=
  if left = some 0 then .returned call ret (.ok .full)
  else match readBlock (e.file.drop offset) with
    | .error .eof => .returned call ret (.ok e.readEnd)
    | .error x => .returned call [] (.error x)
    | .ok b =>
      match call.decode offset b with
      | .error x => .returned call [] (.error x)
      | .ok (items, n) =>
        if (size + n) % 2 ^ 32 > call.limit then .returned call (ret ++ items) (.ok .full)
        else .reading call (left.map (· - 1)) ((offset + b.size) % 2 ^ 32) (size + n) (ret ++ items)

/-- One step. -/
def Session.step (s : Session) : Event → Option Session
  | .append blocks lastCommit =>
    match s.writer with
    | .idle =>
      if s.extent.isSeal ∨ lastCommit.any (fun c => c != s.extent.commitLength) then some s
      else some { s with writer := .writing blocks s.extent.commitLength }
    | _ => none
  | .write fails =>
    match s.writer with
    | .writing (b :: bs) currentLength =>
      match writeBlock b, fails with
      | none, _ => some { s with writer := .failing currentLength }
      | some _, some part => some { s with
          extent := { s.extent with file := s.extent.file ++ part }
          writer := .failing currentLength }
      | some x, none => some { s with
          extent := { s.extent with file := s.extent.file ++ x }
          writer := .writing bs ((currentLength + b.size) % 2 ^ 32) }
    | _ => none
  | .commit syncFails =>
    match s.writer with
    | .writing [] currentLength => some { s with
        extent := { s.extent with
          synced := if syncFails then s.extent.synced else s.extent.file.length
          commitLength := currentLength }
        writer := .idle }
    | _ => none
  | .truncate =>
    match s.writer with
    | .failing currentLength => some { s with
        extent := { s.extent with
          file := truncateFile currentLength s.extent.file
          synced := min s.extent.synced currentLength
          commitLength := currentLength }
        writer := .idle }
    | _ => none
  | .read call offset =>
    match s.reader with
    | .reading .. => none
    | _ => some { s with reader := .start s.extent call offset }
  | .take =>
    match s.reader with
    | .reading call left offset size ret =>
      some { s with reader := .next s.extent call left offset size ret }
    | _ => none

/-! ## What one block gives -/

variable {e : Extent} {w : Writer} {left : Option ℕ} {o : ℕ} {ret : List Item} {r : Bytes}
  {b : Block} {s s' : Session} {a : Event} {call : ReadCall}

/-- `decodeLoop` fails only with a panic, and gives every entry the offset of the block. -/
theorem decodeLoop_cases (C : Codec) (data : Bytes) (id o : ℕ) (replay single : Bool)
    (offsets : List UInt32) (ret : List Pb.EntryInfo) (hret : ∀ ei ∈ ret, ei.offset = o) :
    decodeLoop C data id o replay single offsets ret = .error .panicked ∨
      ∃ es, decodeLoop C data id o replay single offsets ret = .ok es ∧
      ∀ ei ∈ es, ei.offset = o := by
  induction offsets generalizing ret with
  | nil => exact Or.inr ⟨ret, rfl, hret⟩
  | cons a offsets ih =>
    cases offsets with
    | nil => exact Or.inr ⟨ret, rfl, hret⟩
    | cons b offsets =>
      rw [decodeLoop]
      cases (slice data a.toNat b.toNat).bind C.unmarshalEntry with
      | none => exact Or.inl rfl
      | some entry =>
        dsimp only
        split_ifs
        · exact ih _ (forall_mem_concat hret rfl)
        · exact Or.inr ⟨_, rfl, forall_mem_concat hret rfl⟩
        · exact Or.inr ⟨_, rfl, forall_mem_concat hret rfl⟩
        · exact Or.inl rfl

/-! ## What is committed -/

/-- The part of the file in front of `commitLength`. -/
def committed (e : Extent) : Bytes := e.file.take e.commitLength

/-- The running length of the writer is at or behind `commitLength`, and will not wrap around. -/
def Writer.Ahead (e : Extent) : Writer → Prop
  | .idle => e.commitLength < 2 ^ 32
  | .writing todo len => e.commitLength ≤ len ∧ len + totalSize todo < 2 ^ 32
  | .failing len => e.commitLength ≤ len ∧ len < 2 ^ 32

/-- What is appended keeps the extent below `2 ^ 32` bytes. -/
def NoWrap (s : Session) : Event → Prop
  | .append blocks _ => s.extent.commitLength + totalSize blocks < 2 ^ 32
  | _ => True

theorem length_committed_lt (h : w.Ahead e) : (committed e).length < 2 ^ 32 := by
  have hlt : e.commitLength < 2 ^ 32 := by
    cases w with
    | idle => exact h
    | writing todo len =>
      have := h.1
      have := h.2
      omega
    | failing len => exact h.1.trans_lt h.2
  rw [committed, length_take]
  omega

theorem take_isPrefix_truncateFile {c n : ℕ} (h : c ≤ n) (file : Bytes) :
    file.take c <+: truncateFile n file :=
  (take_prefix_take_left h).trans (prefix_append _ _)

/-- **No step takes anything away from what is committed.** -/
theorem step_ahead (h : s.writer.Ahead s.extent) (hg : NoWrap s a) (hstep : s.step a = some s') :
    s'.writer.Ahead s'.extent ∧ committed s.extent <+: committed s'.extent := by
  obtain ⟨e, w, r⟩ := s
  cases a with
  | append blocks lastCommit =>
    cases w with
    | idle =>
      simp only [Session.step] at hstep
      split_ifs at hstep
      · cases hstep
        exact ⟨h, prefix_refl _⟩
      · cases hstep
        exact ⟨⟨le_rfl, hg⟩, prefix_refl _⟩
    | writing todo len | failing len => cases hstep
  | write fails =>
    cases w with
    | idle | failing len => cases hstep
    | writing todo len =>
      cases todo with
      | nil => cases hstep
      | cons b bs =>
        obtain ⟨hle, hfit⟩ : e.commitLength ≤ len ∧ len + totalSize (b :: bs) < 2 ^ 32 := h
        rw [totalSize_cons] at hfit
        have hgrow :
            ∀ x : Bytes, e.file.take e.commitLength <+: (e.file ++ x).take e.commitLength :=
          fun x => (prefix_append _ _).take _
        simp only [Session.step] at hstep
        split at hstep
        · cases hstep
          exact ⟨⟨hle, by omega⟩, prefix_refl _⟩
        · cases hstep
          exact ⟨⟨hle, by omega⟩, hgrow _⟩
        · cases hstep
          refine ⟨?_, hgrow _⟩
          show e.commitLength ≤ (len + b.size) % 2 ^ 32 ∧
            (len + b.size) % 2 ^ 32 + totalSize bs < 2 ^ 32
          rw [Nat.mod_eq_of_lt (by omega)]
          omega
  | commit syncFails =>
    cases w with
    | idle | failing len => cases hstep
    | writing todo len =>
      cases todo with
      | cons b bs => cases hstep
      | nil =>
        cases hstep
        have hfit : len + totalSize [] < 2 ^ 32 := h.2
        rw [totalSize_nil, Nat.add_zero] at hfit
        exact ⟨hfit, take_prefix_take_left h.1⟩
  | truncate =>
    cases w with
    | idle | writing todo len => cases hstep
    | failing len =>
      cases hstep
      refine ⟨h.2, ?_⟩
      show e.file.take e.commitLength <+: (truncateFile len e.file).take len
      have hlen := length_truncateFile len e.file
      rw [take_of_length_le hlen.le]
      exact take_isPrefix_truncateFile h.1 e.file
  | read call offset =>
    simp only [Session.step] at hstep
    split at hstep
    · cases hstep
    · cases hstep
      exact ⟨h, prefix_refl _⟩
  | take =>
    simp only [Session.step] at hstep
    split at hstep
    · cases hstep
      exact ⟨h, prefix_refl _⟩
    · cases hstep

theorem committed_mono {t : Session} {es : List Event} (h : s.writer.Ahead s.extent)
    (hg : Guarded Session.step NoWrap s es) (hrun : exec Session.step s es = some t) :
    t.writer.Ahead t.extent ∧ committed s.extent <+: committed t.extent :=
  exec_invariant (I := fun t => t.writer.Ahead t.extent ∧ committed s.extent <+: committed t.extent)
    (fun _ _ _ hI hg hs => (step_ahead hI.1 hg hs).imp id hI.2.trans) ⟨h, prefix_refl _⟩ hg hrun

/-- The piece is what the call makes of the block at its location in the file. -/
def Found (call : ReadCall) (file : Bytes) (i : Item) : Prop :=
  ∃ b items n, readBlock (file.drop i.location) = .ok b ∧
    call.decode i.location b = .ok (items, n) ∧ i ∈ items

theorem readBlock_of_isPrefix {r' : Bytes} (hlt : r.length < 2 ^ 32) (hpre : r <+: r')
    (h : readBlock r = .ok b) : readBlock r' = .ok b := by
  obtain ⟨-, hseg⟩ := segment_of_readBlock hlt h
  obtain ⟨t, rfl⟩ := hpre
  have hsplit : r ++ t = r.take b.size ++ (r.drop b.size ++ t) := by
    rw [← append_assoc, take_append_drop]
  rw [hsplit, hseg.read]

theorem Found.mono {file file' : Bytes} {i : Item} (h : Found call file i)
    (hlt : file.length < 2 ^ 32) (hpre : file <+: file') : Found call file' i := by
  obtain ⟨b, items, n, hread, hdec, hi⟩ := h
  have hdrop : (file.drop i.location).length < 2 ^ 32 := by
    rw [length_drop]
    omega
  exact ⟨b, items, n, readBlock_of_isPrefix hdrop (hpre.drop _) hread, hdec, hi⟩

theorem Found.location_lt {file : Bytes} {i : Item} (h : Found call file i) :
    i.location < file.length := by
  obtain ⟨b, items, n, hread, -, -⟩ := h
  have hlen := (readBlock_eq_ok hread).1
  rw [length_drop] at hlen
  omega

theorem location_of_decode {n : ℕ} {items : List Item} (h : call.decode o b = .ok (items, n)) :
    ∀ i ∈ items, i.location = o := by
  cases call with
  | blocks k m =>
    obtain ⟨rfl, -⟩ : [Item.block o b] = items ∧ b.size = n := by simpa [ReadCall.decode] using h
    intro i hi
    rw [mem_singleton.mp hi]
    rfl
  | entries C id m replay =>
    unfold ReadCall.decode at h
    dsimp only at h
    cases hmix : C.unmarshalMixed b.userData with
    | none =>
      rw [hmix] at h
      cases h
    | some offsets =>
      rw [hmix] at h
      dsimp only at h
      rcases decodeLoop_cases C b.data id o replay (offsets.length == 2) offsets [] (by simp) with
        hdec | ⟨es, hdec, hes⟩
      · rw [hdec] at h
        cases h
      · rw [hdec] at h
        obtain ⟨rfl, -⟩ : es.map Item.entry = items ∧ Pb.sizeOfEntries es = n := by
          simpa [Except.map] using h
        intro i hi
        obtain ⟨ei, hei, rfl⟩ := mem_map.mp hi
        exact hes ei hei

/-- Where the reader takes its next block, the file ends at the commit length, or the committed part
has a whole block. -/
def Covered (e : Extent) (o : ℕ) : Prop :=
  e.file.length ≤ e.commitLength ∨ ∃ b, readBlock ((committed e).drop o) = .ok b

theorem Covered.readBlock_eq (h : Covered e o) (hlt : (committed e).length < 2 ^ 32)
    (hread : readBlock (e.file.drop o) = .ok b) : readBlock ((committed e).drop o) = .ok b := by
  rcases h with hend | ⟨c, hc⟩
  · rwa [committed, take_of_length_le hend]
  · have hdrop : ((committed e).drop o).length < 2 ^ 32 := by
      rw [length_drop]
      omega
    have hfile := readBlock_of_isPrefix hdrop (( take_prefix _ _).drop o) hc
    rw [hread] at hfile
    rw [hc, hfile]

/-- The steps of a run in which reads stay in what is committed. -/
def Careful (s : Session) : Event → Prop
  | .take => match s.reader with
    -- with no block left to read the reader looks at none
    | .reading _ left o _ _ => left = some 0 ∨ Covered s.extent o
    | _ => True
  | a => NoWrap s a

instance (e : Extent) (o : ℕ) : Decidable (Covered e o) :=
  decidable_of_iff (e.file.length ≤ e.commitLength ∨
      (readBlock ((committed e).drop o)).toOption.isSome = true) <| or_congr Iff.rfl <| by
    cases readBlock ((committed e).drop o) with
    | error x | ok b => simp [Except.toOption]

instance (s : Session) (a : Event) : Decidable (NoWrap s a) :=
  match a with
  | .append blocks _ =>
    inferInstanceAs (Decidable (s.extent.commitLength + totalSize blocks < 2 ^ 32))
  | .write _ => .isTrue trivial
  | .commit _ => .isTrue trivial
  | .truncate => .isTrue trivial
  | .read _ _ => .isTrue trivial
  | .take => .isTrue trivial

instance (s : Session) (a : Event) : Decidable (Careful s a) :=
  match a, s with
  | .take, ⟨e, _, .reading _ left o _ _⟩ =>
    inferInstanceAs (Decidable (left = some 0 ∨ Covered e o))
  | .take, ⟨_, _, .idle⟩ => .isTrue trivial
  | .take, ⟨_, _, .returned _ _ _⟩ => .isTrue trivial
  | .append blocks lastCommit, s =>
    inferInstanceAs (Decidable (NoWrap s (.append blocks lastCommit)))
  | .write _, _ => .isTrue trivial
  | .commit _, _ => .isTrue trivial
  | .truncate, _ => .isTrue trivial
  | .read _ _, _ => .isTrue trivial

theorem Careful.noWrap (h : Careful s a) : NoWrap s a := by
  cases a with
  | take => trivial
  | append blocks lastCommit => exact h
  | write fails => trivial
  | commit syncFails => trivial
  | truncate => trivial
  | read call offset => trivial

/-- What the reader has is committed. -/
def Reader.Clean (e : Extent) : Reader → Prop
  | .idle => True
  | .reading call _ _ _ ret => ∀ i ∈ ret, Found call (committed e) i
  | .returned call ret _ => ∀ i ∈ ret, Found call (committed e) i

theorem Reader.Clean.mono {e' : Extent} {r : Reader} (h : r.Clean e)
    (hlt : (committed e).length < 2 ^ 32) (hpre : committed e <+: committed e') : r.Clean e' := by
  cases r with
  | idle => trivial
  | reading call left o size ret | returned call ret out => exact fun i hi => (h i hi).mono hlt hpre

/-- Once round the loop, at a place that is covered. -/
theorem Reader.Clean.next {size : ℕ} (h : ∀ i ∈ ret, Found call (committed e) i)
    (hc : left = some 0 ∨ Covered e o) (hlt : (committed e).length < 2 ^ 32) :
    (Reader.next e call left o size ret).Clean e := by
  unfold Reader.next
  by_cases hleft : left = some 0
  · rw [if_pos hleft]
    exact h
  rw [if_neg hleft]
  have hc : Covered e o := hc.resolve_left hleft
  cases hread : readBlock (e.file.drop o) with
  | error x =>
    cases x with
    | eof => exact h
    | failed | panicked => exact fun i hi => absurd hi (by simp)
  | ok b =>
    dsimp only
    cases hdec : call.decode o b with
    | error x => exact fun i hi => absurd hi (by simp)
    | ok y =>
      obtain ⟨items, n⟩ := y
      have hnew : ∀ i ∈ ret ++ items, Found call (committed e) i := by
        intro i hi
        rcases mem_append.mp hi with hi | hi
        · exact h i hi
        · have hloc := location_of_decode hdec i hi
          exact ⟨b, items, n, by rw [hloc]; exact hc.readBlock_eq hlt hread,
            by rw [hloc]; exact hdec, hi⟩
      dsimp only
      split_ifs
      · exact hnew
      · exact hnew

/-- What holds along a careful run. -/
structure Session.Inv (s : Session) : Prop where
  ahead : s.writer.Ahead s.extent
  clean : s.reader.Clean s.extent

theorem reader_of_step (hstep : s.step a = some s') :
    s'.reader = s.reader ∨
    (∃ call o, a = .read call o ∧ s'.extent = s.extent ∧ s'.reader = .start s.extent call o) ∨
    ∃ call left o size ret, a = .take ∧ s.reader = .reading call left o size ret ∧
      s'.extent = s.extent ∧ s'.reader = .next s.extent call left o size ret := by
  obtain ⟨e, w, r⟩ := s
  cases a with
  | append blocks lastCommit =>
    simp only [Session.step] at hstep
    split at hstep
    · split_ifs at hstep <;> obtain rfl := Option.some.inj hstep <;> exact Or.inl rfl
    · cases hstep
  | write fails =>
    simp only [Session.step] at hstep
    split at hstep
    · split at hstep <;> obtain rfl := Option.some.inj hstep <;> exact Or.inl rfl
    · cases hstep
  | commit syncFails | truncate =>
    simp only [Session.step] at hstep
    split at hstep
    · cases hstep
      exact Or.inl rfl
    · cases hstep
  | read call offset =>
    simp only [Session.step] at hstep
    split at hstep
    · cases hstep
    · cases hstep
      exact Or.inr (Or.inl ⟨call, offset, rfl, rfl, rfl⟩)
  | take =>
    cases r with
    | idle => cases hstep
    | returned call ret out => cases hstep
    | reading call left o size ret =>
      cases hstep
      exact Or.inr (Or.inr ⟨call, left, o, size, ret, rfl, rfl, rfl, rfl⟩)

theorem clean_start (e : Extent) (call : ReadCall) (o : ℕ) : (Reader.start e call o).Clean e := by
  unfold Reader.start
  split_ifs <;> exact fun i hi => absurd hi (by simp)

theorem Session.Inv.step (h : s.Inv) (hg : Careful s a) (hstep : Session.step s a = some s') :
    s'.Inv := by
  obtain ⟨hahead, hpre⟩ := step_ahead h.ahead hg.noWrap hstep
  have hlt := length_committed_lt h.ahead
  refine ⟨hahead, ?_⟩
  rcases reader_of_step hstep with hr | ⟨call, o, -, he, hr⟩ | ⟨call, left, o, size, ret, rfl, hrd,
    he, hr⟩
  · rw [hr]
    exact h.clean.mono hlt hpre
  · rw [hr, he]
    exact clean_start s.extent call o
  · have hclean := h.clean
    rw [hrd] at hclean
    rw [hr, he]
    have hcov : left = some 0 ∨ Covered s.extent o := by
      unfold Careful at hg
      rwa [hrd] at hg
    exact Reader.Clean.next hclean hcov hlt

/-- **Reads that stay in what is committed.**  In any interleaving of appends, which stay below
`2 ^ 32` bytes, with reads that take every block at a place that is covered, what a read has
returned is and stays in front of the commit length, whether the append succeeds or fails. -/
theorem reads_are_committed {e : Extent} {es : List Event} {s : Session} {call : ReadCall}
    {ret : List Item} {out : Except BlockError Extent.ReadEnd} (hsmall : e.commitLength < 2 ^ 32)
    (hg : Guarded Session.step Careful ⟨e, .idle, .idle⟩ es)
    (hrun : exec Session.step ⟨e, .idle, .idle⟩ es = some s)
    (hret : s.reader = .returned call ret out) (i : Item) (hi : i ∈ ret) :
    i.location < s.extent.commitLength ∧
      ∀ es' s', Guarded Session.step NoWrap s es' → exec Session.step s es' = some s' →
        Found call s'.extent.file i ∧ i.location < s'.extent.commitLength := by
  have hstart : Session.Inv ⟨e, .idle, .idle⟩ := ⟨hsmall, trivial⟩
  have hinv : s.Inv := exec_invariant (fun _ _ _ hI hg hs => hI.step hg hs) hstart hg hrun
  have hclean := hinv.clean
  rw [hret] at hclean
  have hfound : Found call (committed s.extent) i := hclean i hi
  have hbelow : ∀ {x : Extent}, Found call (committed x) i → i.location < x.commitLength := by
    intro x hx
    have hlt := hx.location_lt
    rw [committed, length_take] at hlt
    omega
  refine ⟨hbelow hfound, fun es' s' hg' hrun' => ?_⟩
  obtain ⟨hahead, hpre⟩ := committed_mono hinv.ahead hg' hrun'
  have hlater :
      Found call (committed s'.extent) i := hfound.mono (length_committed_lt hinv.ahead) hpre
  exact ⟨hlater.mono (length_committed_lt hahead) ( take_prefix _ _), hbelow hlater⟩

/-- What the last read has returned. -/
def Session.returned (s : Session) : List Item :=
  match s.reader with
  | .returned _ ret _ => ret
  | _ => []

/-- One block is read while two are appended; the second of them is misaligned. -/
def oneBlockRead : List Event :=
  [.append [filled 8 [], ⟨1, 3, [], []⟩] none, .read (.blocks 1 8192) 512, .write none, .take,
    .take]

theorem reads_are_committed_oneBlockRead :
    ∃ s call ret out, exec Session.step ⟨Extent.oneBlock, .idle, .idle⟩ oneBlockRead = some s ∧
      s.reader = .returned call ret out ∧ Item.block 512 (filled 7 []) ∈ ret ∧
      512 < s.extent.commitLength ∧
      ∀ es' s', Guarded Session.step NoWrap s es' → exec Session.step s es' = some s' →
        Found call s'.extent.file (.block 512 (filled 7 [])) ∧ 512 < s'.extent.commitLength := by
  obtain ⟨s, hs, hitems⟩ : ∃ s ∈ exec Session.step ⟨Extent.oneBlock, .idle, .idle⟩ oneBlockRead,
      s.returned = [.block 512 (filled 7 [])] := by decide +kernel
  have hg : Guarded Session.step Careful ⟨Extent.oneBlock, .idle, .idle⟩ oneBlockRead := by
    decide +kernel
  cases hr : s.reader with
  | idle | reading call left o size ret => simp [Session.returned, hr] at hitems
  | returned call ret out =>
    have hmem : Item.block 512 (filled 7 []) ∈ ret := by
      simp only [Session.returned, hr] at hitems
      simp [hitems]
    exact ⟨s, call, ret, out, hs, hr, hmem,
      reads_are_committed (by decide +kernel) hg hs hr (.block 512 (filled 7 [])) hmem⟩

/-- **A read that overruns.**  Two blocks are being appended behind one, and the first of them is in
the file.  A read of two blocks returns it, at offset 1536, and the commit length is 1536. -/
theorem read_overruns :
    ∃ s, exec Session.step ⟨Extent.oneBlock, .idle, .idle⟩
        [.append [filled 8 [], filled 9 []] none, .write none, .read (.blocks 2 8192) 512,
          .take, .take, .take] = some s ∧
      s.returned = [.block 512 (filled 7 []), .block 1536 (filled 8 [])] ∧
      s.extent.commitLength = 1536 := by
  decide +kernel

end Overlap
end Autumn
