import Autumn.Lib.Bytes

/-!
# The wire format of protocol buffers

A message is a list of fields, each a number and a payload: a varint or a string of bytes with its
length in front.  The kind of the payload is the last three bits of the varint that the field starts
with.

* `encodeFields`, `fields`, `fields_encodeFields`: a list of fields is read back.
* `bytesField`, `varintField`, `foldlM_bytesField`, `foldlM_varintField`: fields that are left out
  when they are empty or zero.
* `packed`, `unpack`, `unpack_packed`: a list of numbers in one payload.
-/

namespace Autumn
namespace Lib
namespace Protobuf

open List Option

/-- The payload of a field. -/
inductive Payload where
  | varint (x : ℕ)
  | len (b : Bytes)
  deriving DecidableEq, Repr

/-- A field: its number and its payload. -/
abbrev Field := ℕ × Payload

/-- The bytes of a field. -/
def encodeField : Field → Bytes
  | (i, .varint x) => putUvarint (i * 8) ++ putUvarint x
  | (i, .len b) => putUvarint (i * 8 + 2) ++ (putUvarint b.length ++ b)

/-- The field at the front and what is behind it. -/
def nextField (b : Bytes) : Option (Field × Bytes) := do
  let (wire, n) ← uvarint b
  let b := b.drop n
  let (x, n) ← uvarint b
  let b := b.drop n
  if wire % 8 = 0 then some ((wire / 8, .varint x), b)
  else if wire % 8 = 2 then
    if x ≤ b.length then some ((wire / 8, .len (b.take x)), b.drop x) else none
  else none

/-- At most `n` fields. -/
def fieldsIn : ℕ → Bytes → Option (List Field)
  | _, [] => some []
  | 0, _ :: _ => none
  | n + 1, x :: b => do
    let (f, rest) ← nextField (x :: b)
    let fs ← fieldsIn n rest
    some (f :: fs)

/-- The fields of a message; every field takes at least a byte. -/
def fields (b : Bytes) : Option (List Field) := fieldsIn b.length b

/-- The bytes of a message. -/
def encodeFields (fs : List Field) : Bytes := fs.flatMap encodeField

/-- What fits into 64-bit numbers. -/
def Field.Fits : Field → Prop
  | (i, .varint x) => i * 8 + 2 < 2 ^ 64 ∧ x < 2 ^ 64
  | (i, .len b) => i * 8 + 2 < 2 ^ 64 ∧ b.length < 2 ^ 64

theorem putUvarint_ne_nil (x : ℕ) : putUvarint x ≠ [] := by
  rw [putUvarint, putUvarintIn]
  split_ifs <;> exact cons_ne_nil _ _

theorem length_putUvarint_of_lt {x : ℕ} (h : x < 128) : (putUvarint x).length = 1 := by
  rw [putUvarint, putUvarintIn, if_pos h]
  rfl

theorem encodeField_ne_nil (f : Field) : encodeField f ≠ [] := by
  rcases f with ⟨i, x | b⟩ <;> simp [encodeField, putUvarint_ne_nil]

theorem nextField_encodeField {f : Field} (hf : f.Fits) (rest : Bytes) :
    nextField (encodeField f ++ rest) = some (f, rest) := by
  rcases f with ⟨i, x | b⟩
  · obtain ⟨hi, hx⟩ := hf
    have hwire := uvarint_putUvarint (show i * 8 < 2 ^ 64 by omega) (putUvarint x ++ rest)
    have hmod : i * 8 % 8 = 0 := by omega
    have hdiv : i * 8 / 8 = i := by omega
    rw [encodeField, append_assoc, nextField, hwire]
    simp only [bind_eq_bind, bind_some, drop_left, uvarint_putUvarint hx, hmod, hdiv, if_true]
  · obtain ⟨hi, hb⟩ := hf
    have hwire := uvarint_putUvarint hi (putUvarint b.length ++ (b ++ rest))
    have hmod : (i * 8 + 2) % 8 = 2 := by omega
    have hdiv : (i * 8 + 2) / 8 = i := by omega
    have hle : b.length ≤ (b ++ rest).length := by
      rw [length_append]
      omega
    rw [encodeField, append_assoc, append_assoc, nextField, hwire]
    simp only [bind_eq_bind, bind_some, drop_left, uvarint_putUvarint hb, hmod,
      hdiv, hle, if_true, take_left, OfNat.ofNat_ne_zero, if_false]

variable {n : ℕ}

theorem fieldsIn_encodeFields {fs : List Field} (hfs : ∀ f ∈ fs, f.Fits)
    (hn : (encodeFields fs).length ≤ n) : fieldsIn n (encodeFields fs) = some fs := by
  induction fs generalizing n with
  | nil => cases n <;> rfl
  | cons f fs ih =>
    have hcons : encodeFields (f :: fs) = encodeField f ++ encodeFields fs := flatMap_cons
    have hpos : 0 < (encodeField f).length := length_pos_of_ne_nil (encodeField_ne_nil f)
    rw [hcons, length_append] at hn
    obtain ⟨x, b, hxb⟩ : ∃ x b, encodeField f ++ encodeFields fs = x :: b :=
      exists_cons_of_ne_nil (by simp [encodeField_ne_nil])
    cases n with
    | zero => omega
    | succ n =>
      have hnext := nextField_encodeField (hfs f (.head _)) (encodeFields fs)
      have hrest := ih (fun g hg => hfs g (.tail _ hg)) (n := n) (by omega)
      rw [hxb] at hnext
      rw [hcons, hxb, fieldsIn, hnext]
      simp only [bind_eq_bind, bind_some, hrest]

/-- **A message is read back.** -/
theorem fields_encodeFields {fs : List Field} (hfs : ∀ f ∈ fs, f.Fits) :
    fields (encodeFields fs) = some fs :=
  fieldsIn_encodeFields hfs le_rfl

/-! ## Fields that are left out -/

/-- A field of bytes, left out when empty. -/
def bytesField (i : ℕ) (b : Bytes) : List Field := if b = [] then [] else [(i, .len b)]

/-- A field with a number, left out when zero. -/
def varintField (i x : ℕ) : List Field := if x = 0 then [] else [(i, .varint x)]

variable {i : ℕ}

theorem fits_bytesField (hi : i < 16) {b : Bytes} (hb : b.length < 2 ^ 64) :
    ∀ f ∈ bytesField i b, f.Fits := by
  intro f hf
  unfold bytesField at hf
  split_ifs at hf
  · simp at hf
  · cases mem_singleton.mp hf
    exact ⟨by omega, hb⟩

theorem fits_varintField (hi : i < 16) {x : ℕ} (hx : x < 2 ^ 64) :
    ∀ f ∈ varintField i x, f.Fits := by
  intro f hf
  unfold varintField at hf
  split_ifs at hf
  · simp at hf
  · cases mem_singleton.mp hf
    exact ⟨by omega, hx⟩

/-- A decoder comes to the same result where a field was left out, if that is how it starts out. -/
theorem foldlM_bytesField {σ : Type*} {set : σ → Field → Option σ} {b : Bytes} {x y : σ}
    (hset : set x (i, .len b) = some y) (hnil : b = [] → x = y) :
    (bytesField i b).foldlM set x = some y := by
  unfold bytesField
  split_ifs with h
  · rw [hnil h]
    rfl
  · simp [hset]

theorem foldlM_varintField {σ : Type*} {set : σ → Field → Option σ} {x y : σ}
    (hset : set x (i, .varint n) = some y) (hzero : n = 0 → x = y) :
    (varintField i n).foldlM set x = some y := by
  unfold varintField
  split_ifs with h
  · rw [hzero h]
    rfl
  · simp [hset]

theorem encodeFields_append (fs gs : List Field) :
    encodeFields (fs ++ gs) = encodeFields fs ++ encodeFields gs := by
  rw [encodeFields, flatMap_append]
  rfl

/-! ## Packed numbers -/

/-- Numbers one after the other. -/
def packed (xs : List ℕ) : Bytes := xs.flatMap putUvarint

/-- At most `n` numbers. -/
def unpackIn : ℕ → Bytes → Option (List ℕ)
  | _, [] => some []
  | 0, _ :: _ => none
  | n + 1, b :: bs => do
    let (x, k) ← uvarint (b :: bs)
    let xs ← unpackIn n ((b :: bs).drop k)
    some (x :: xs)

/-- The numbers of a payload. -/
def unpack (b : Bytes) : Option (List ℕ) := unpackIn b.length b

theorem unpackIn_packed {xs : List ℕ} (hxs : ∀ x ∈ xs, x < 2 ^ 64) (hn : (packed xs).length ≤ n) :
    unpackIn n (packed xs) = some xs := by
  induction xs generalizing n with
  | nil => cases n <;> rfl
  | cons x xs ih =>
    have hcons : packed (x :: xs) = putUvarint x ++ packed xs := flatMap_cons
    have hpos : 0 < (putUvarint x).length := length_pos_of_ne_nil (putUvarint_ne_nil x)
    rw [hcons, length_append] at hn
    obtain ⟨c, b, hcb⟩ : ∃ c b, putUvarint x ++ packed xs = c :: b :=
      exists_cons_of_ne_nil (by simp [putUvarint_ne_nil])
    cases n with
    | zero => omega
    | succ n =>
      have hnext := uvarint_putUvarint (hxs x (.head _)) (packed xs)
      have hrest := ih (fun y hy => hxs y (.tail _ hy)) (n := n) (by omega)
      rw [hcons, hcb, unpackIn, ← hcb, hnext]
      simp only [bind_eq_bind, bind_some, drop_left, hrest]

/-- **Packed numbers are read back.** -/
theorem unpack_packed {xs : List ℕ} (hxs : ∀ x ∈ xs, x < 2 ^ 64) : unpack (packed xs) = some xs :=
  unpackIn_packed hxs le_rfl

theorem length_packed (xs : List ℕ) :
    (packed xs).length = (xs.map fun x => (putUvarint x).length).sum := by
  rw [packed, length_flatMap]

end Protobuf
end Lib
end Autumn
