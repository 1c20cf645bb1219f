import Autumn.Extent.Extent

/-!
# What the stream client makes of the outcomes of its calls

The layers above are tested with `MockStreamClient`, which works on extents in the same process.  In
a cluster they run with `AutumnStreamClient` and `AutumnBlockReader`, which call a node.  A call has
a response, or an error and no response.
-/

namespace Autumn
namespace Rpc

/-! ## Calls -/

/-- `pb.Code`; no node sends `ERROR`. -/
inductive Code where
  | ok
  | endOfStream
  | endOfExtent
  deriving DecidableEq, Repr

/-- The error of a call: a certain value, or one with a status. -/
inductive Failure where
  | contextDeadlineExceeded
  | status (code : ℕ)
  deriving DecidableEq, Repr

/-- `pb.ReadBlocksResponse`. -/
structure ReadBlocksResponse where
  code : Code
  blocks : List Block
  deriving DecidableEq

/-- `errorToCode`. -/
def errorToCode : Extent.ReadEnd → Code
  | .endOfStream => .endOfStream
  | .endOfExtent => .endOfExtent
  | .full => .ok

/-- The limit of a read in bytes, the same in the node and in `MockStreamClient`. -/
def maxReadSize : ℕ := 32 * 2 ^ 20

/-- `ExtentNode.ReadBlocks`; an error reaches the client with the status `Unknown`. -/
def nodeReadBlocks (ex : Option Extent) (offset numOfBlocks : ℕ) :
    Except Failure ReadBlocksResponse :=
  match ex with
  | none => .error (.status 2)
  | some ex =>
    match ex.readBlocks offset numOfBlocks maxReadSize with
    | .error _ => .error (.status 2)
    | .ok (blocks, stop) => .ok ⟨errorToCode stop, blocks⟩

/-- What a call of `ReadBlocks` comes to: the answer of the node, unless the call itself fails. -/
def outcome (fault : Option Failure) (ex : Option Extent) (offset numOfBlocks : ℕ) :
    Except Failure ReadBlocksResponse :=
  match fault with
  | some err => .error err
  | none => nodeReadBlocks ex offset numOfBlocks

/-! ## `Read` -/

/-- The errors that `Read` returns. -/
inductive ReadErr where
  | noSuchExtent
  | eof
  | block (err : BlockError)
  deriving DecidableEq

/-- `AutumnStreamClient.Read` and `AutumnBlockReader.Read`, with or without a connection; `none` if
the missing response is dereferenced. -/
def autumnRead (conn : Bool) (call : Except Failure ReadBlocksResponse) :
    Option (List Block × Option ReadErr) :=
  if conn then
    match call with
    | .error _ => none
    | .ok res => some (res.blocks, none)
  else some ([], some .noSuchExtent)

/-- `MockStreamClient.Read`. -/
def mockRead (ex : Option Extent) (offset numOfBlocks : ℕ) : Option (List Block × Option ReadErr) :=
  match ex with
  | none => some ([], some .noSuchExtent)
  | some ex =>
    match ex.readBlocks offset numOfBlocks maxReadSize with
    | .error err => some ([], some (.block err))
    | .ok (blocks, .full) => some (blocks, none)
    | .ok (blocks, _) => some (blocks, some .eof)

/-- The node is reached, has the extent and reads as many blocks as the limit allows. -/
def Full (fault : Option Failure) (ex : Option Extent) (offset numOfBlocks : ℕ) : Prop :=
  fault = none ∧ ∃ e blocks, ex = some e ∧
    e.readBlocks offset numOfBlocks maxReadSize = .ok (blocks, .full)

theorem autumnRead_eq_mockRead_iff (conn : Bool) (fault : Option Failure) (ex : Option Extent)
    (offset n : ℕ) : autumnRead conn (outcome fault ex offset n) = mockRead ex offset n ↔
      if conn then Full fault ex offset n else ex = none := by
  unfold autumnRead outcome nodeReadBlocks mockRead Full
  cases ex with
  | none => cases conn <;> cases fault <;> simp
  | some e =>
    cases hread : e.readBlocks offset n maxReadSize with
    | error err => cases conn <;> cases fault <;> simp [hread]
    | ok r =>
      obtain ⟨blocks, stop⟩ := r
      cases stop with
      | full => cases conn <;> cases fault <;> simp [hread]
      | endOfExtent | endOfStream => cases conn <;> cases fault <;> simp [hread]

/-! ## `Append` -/

/-- One round of `Append`: what its call comes to (a response has the offsets and always the code
`OK`), and the extent that the stream manager allocates if it is asked for one, `none` if it never
does. -/
structure Attempt where
  call : Except Failure (List ℕ)
  newExtent : Option ℕ

/-- `MaxExtentSize`. -/
def maxExtentSize : ℕ := 2 * 2 ^ 30

/-- Where an `Append` is when its attempts have been made. -/
inductive Progress where
  | returned (extentID : ℕ) (offsets : List ℕ)
  | died
  /-- In the loop of `mustAllocNewExtent`. -/
  | allocating
  | retrying
  deriving DecidableEq, Repr

/-- `AutumnStreamClient.Append` on a stream with the extents `ids`. -/
def append : List Attempt → List ℕ → Progress
  | [], _ => .retrying
  | a :: as, ids =>
    match ids.getLast? with
    | none => .died
    | some extentID =>
      match a.call with
      | .error .contextDeadlineExceeded =>
        match a.newExtent with
        | none => .allocating
        | some id => append as (ids ++ [id])
      | .error (.status _) => .died
      | .ok offsets =>
        match offsets.getLast? with
        | none => .died
        | some last =>
          if last > maxExtentSize ∧ a.newExtent = none then .allocating
          else .returned extentID offsets

/-- An attempt that ends in the one error that is looked for, and gets a new extent. -/
def timedOut (id : ℕ) : Attempt := ⟨.error .contextDeadlineExceeded, some id⟩

/-- What is asked of `Append`: it does not die, and offsets that it returns are those that the node
has acknowledged for the last extent of the stream, after retries on new extents. -/
def Keeps (as : List Attempt) (ids : List ℕ) : Prop :=
  append as ids ≠ .died ∧ ∀ extentID offsets, append as ids = .returned extentID offsets →
    ∃ (news : List ℕ) (a : Attempt) (rest : List Attempt), as = news.map timedOut ++ a :: rest ∧
    a.call = .ok offsets ∧
      (ids ++ news).getLast? = some extentID

/-- An attempt that the code can deal with. -/
def Attempt.Handled (a : Attempt) : Prop :=
  a.call = .error .contextDeadlineExceeded ∨ ∃ offsets, offsets ≠ [] ∧ a.call = .ok offsets

theorem append_timedOut (news : List ℕ) (as : List Attempt) (ids : List ℕ) (last : ℕ) :
    append (news.map timedOut ++ as) (ids ++ [last]) = append as (ids ++ [last] ++ news) := by
  induction news generalizing ids last with
  | nil => simp
  | cons id news ih =>
    rw [List.map_cons, List.cons_append, append, List.getLast?_concat]
    simpa [timedOut] using ih (ids ++ [last]) id

theorem exists_timedOut (as : List Attempt) :
    ∃ (news : List ℕ) (rest : List Attempt), as = news.map timedOut ++ rest ∧
    ∀ a rest', rest = a :: rest' → ∀ id, a ≠ timedOut id := by
  induction as with
  | nil => exact ⟨[], [], rfl, by simp⟩
  | cons a as ih =>
    by_cases ha : ∃ id, a = timedOut id
    · obtain ⟨id, rfl⟩ := ha
      obtain ⟨news, rest, rfl, hrest⟩ := ih
      exact ⟨id :: news, rest, rfl, hrest⟩
    · refine ⟨[], a :: as, rfl, fun a' rest' heq id hid => ha ⟨id, ?_⟩⟩
      rw [(List.cons.inj heq).1, hid]

theorem keeps_iff (as : List Attempt) (ids : List ℕ) (last : ℕ) : Keeps as (ids ++ [last]) ↔
    ∀ (news : List ℕ) (a : Attempt) (rest : List Attempt), as = news.map timedOut ++ a :: rest →
    a.Handled := by
  have hlast : ∀ news : List ℕ, ∃ id, (ids ++ [last] ++ news).getLast? = some id := fun news =>
    ⟨_, List.getLast?_eq_some_getLast (by simp)⟩
  constructor
  · rintro ⟨hdied, -⟩ news ⟨call, newExtent⟩ rest rfl
    obtain ⟨id, hid⟩ := hlast news
    rw [append_timedOut, append, hid] at hdied
    match call with
    | .error .contextDeadlineExceeded => exact .inl rfl
    | .error (.status _) => exact absurd rfl hdied
    | .ok offsets =>
      refine .inr ⟨offsets, fun hnil => hdied ?_, rfl⟩
      rw [hnil]
      rfl
  · intro h
    obtain ⟨news, rest, rfl, hrest⟩ := exists_timedOut as
    obtain ⟨id, hid⟩ := hlast news
    rw [Keeps, append_timedOut]
    cases rest with
    | nil => exact ⟨by simp [append], by simp [append]⟩
    | cons a rest =>
      rw [append, hid]
      rcases h news a rest rfl with hcall | ⟨offsets, hne, hcall⟩
      · have hnew : a.newExtent = none := Option.eq_none_iff_forall_ne_some.mpr fun id' hid' =>
          hrest a rest rfl id' (by rw [timedOut, ← hcall, ← hid'])
        simp only [hcall, hnew]
        exact ⟨by simp, by simp⟩
      · simp only [hcall, List.getLast?_eq_some_getLast hne]
        split_ifs
        · exact ⟨by simp, by simp⟩
        · refine ⟨by simp, fun extentID offsets' heq => ?_⟩
          obtain ⟨rfl, rfl⟩ := Progress.returned.inj heq
          exact ⟨news, a, rest, rfl, hcall, hid⟩

/-- **The contract of the client.**  `Read` does what the mock does exactly if the node can be
reached and reads in full; without a connection, if there is no such extent.  `Append` keeps its
part exactly if every attempt it comes to is acknowledged with offsets or ends in the error it looks
for. -/
theorem client_contract (conn : Bool) (fault : Option Failure) (ex : Option Extent) (offset n : ℕ)
    (as : List Attempt) (ids : List ℕ) (last : ℕ) :
    (autumnRead conn (outcome fault ex offset n) = mockRead ex offset n ↔
      if conn then Full fault ex offset n else ex = none) ∧
    (Keeps as (ids ++ [last]) ↔
      ∀ (news : List ℕ) (a : Attempt) (rest : List Attempt), as = news.map timedOut ++ a :: rest →
      a.Handled) :=
  ⟨autumnRead_eq_mockRead_iff conn fault ex offset n, keeps_iff as ids last⟩

/-- At the end of an extent there is no error; a call that times out takes the process down. -/
theorem contract_broken :
    mockRead (some (createExtent 1)) 512 1 = some ([], some .eof) ∧
    autumnRead true (outcome none (some (createExtent 1)) 512 1) = some ([], none) ∧
    autumnRead true (outcome (some (.status 4)) (some (createExtent 1)) 512 1) = none ∧
    append [⟨.error (.status 4), some 2⟩] [1] = .died :=
  ⟨rfl, rfl, rfl, rfl⟩

end Rpc
end Autumn
