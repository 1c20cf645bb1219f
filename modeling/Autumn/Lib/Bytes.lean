import Mathlib.Data.List.Basic
import Mathlib.Data.UInt
import Mathlib.Order.Defs.LinearOrder
import Mathlib.Data.List.Lex
import Mathlib.Data.Nat.Log
import Mathlib.Tactic.Ring

/-!
# Byte strings

Byte strings are lists of `UInt8` in lexicographic order (that of `bytes.Compare`).  What lies
between two byte strings with a prefix has that prefix.

* `leBytes`, `leVal`, `beBytes`, `beVal`: little- and big-endian integers of `n` bytes.
* `putUvarint`, `uvarint`: seven bits a byte, least significant first, at most ten bytes, as in Go's
  package `encoding/binary`.
* `slice`, `sub32`, `ceil`: slices that may be out of bounds, and arithmetic in 32 bits.
-/

namespace Autumn

open List Nat

/-- A byte string. -/
abbrev Bytes := List UInt8

instance lawfulBEqBytes : LawfulBEq Bytes := inferInstance

def u32 (x : ℕ) : ℕ := x % 2 ^ 32

/-- The next multiple of `align`, in 32 bits. -/
def ceil (size align : ℕ) : ℕ := u32 (size + (align - 1)) / align * align

theorem ceil_lt (size align : ℕ) : ceil size align < 2 ^ 32 :=
  (Nat.div_mul_le_self _ _).trans_lt (Nat.mod_lt _ (by decide))

theorem ceil_bounds {size align : ℕ} (h0 : 0 < align) (h : size + (align - 1) < 2 ^ 32) :
    size ≤ ceil size align ∧ ceil size align ≤ size + (align - 1) := by
  rw [ceil, u32, mod_eq_of_lt h]
  have hmod := Nat.div_add_mod' (size + (align - 1)) align
  have hlt := Nat.mod_lt (size + (align - 1)) h0
  omega

namespace Lib

/-- Bytes are ordered by their value; lists of bytes then carry the lexicographic order. -/
instance linearOrderUInt8 : LinearOrder UInt8 where
  le_refl := UInt8.le_refl
  le_trans := fun _ _ _ => UInt8.le_trans
  le_antisymm := fun _ _ => UInt8.le_antisymm
  le_total := UInt8.le_total
  lt_iff_le_not_ge := fun a b => by
    simp only [UInt8.lt_iff_toNat_lt, UInt8.le_iff_toNat_le]
    omega
  toDecidableLE := inferInstance
  toDecidableEq := inferInstance
  toDecidableLT := inferInstance

/-! ## Prefixes and the lexicographic order -/

section Lex

variable {α : Type*} [LinearOrder α]

theorem le_of_cons_le_cons {x y : α} {a c : List α} (h : x :: a ≤ y :: c) :
    x < y ∨ x = y ∧ a ≤ c := by
  have hlex : ¬ List.Lex (· < ·) (y :: c) (x :: a) := not_lt.mpr h
  rw [cons_lex_cons_iff, not_or, not_and, not_lt] at hlex
  rcases lt_or_eq_of_le hlex.1 with hlt | rfl
  · exact .inl hlt
  · exact .inr ⟨rfl, not_lt.mp (hlex.2 rfl)⟩

theorem isPrefix_of_between {p a b c : List α} (ha : p <+: a) (hb : p <+: b) (hac : a ≤ c)
    (hcb : c ≤ b) : p <+: c := by
  induction p generalizing a b c with
  | nil => exact nil_prefix
  | cons x p ih =>
    obtain ⟨a', rfl⟩ := ha
    obtain ⟨b', rfl⟩ := hb
    cases c with
    | nil => exact absurd hac (not_le.mpr (nil_lt_cons _ _))
    | cons y c =>
      rcases le_of_cons_le_cons hac with hxy | ⟨rfl, hac'⟩
      · rcases le_of_cons_le_cons hcb with hyx | ⟨rfl, _⟩
        · exact absurd hxy hyx.asymm
        · exact absurd hxy (lt_irrefl _)
      · rcases le_of_cons_le_cons hcb with hyx | ⟨_, hcb'⟩
        · exact absurd hyx (lt_irrefl _)
        · exact cons_prefix_cons.mpr ⟨rfl, ih ⟨a', rfl⟩ ⟨b', rfl⟩ hac' hcb'⟩

end Lex

/-- The `n` low-order bytes of `x`, least significant first. -/
def leBytes : ℕ → ℕ → Bytes
  | 0, _ => []
  | n + 1, x => UInt8.ofNat x :: leBytes n (x / 256)

/-- The number whose bytes, least significant first, are the given ones. -/
def leVal : Bytes → ℕ
  | [] => 0
  | b :: bs => b.toNat + 256 * leVal bs

@[simp] theorem length_leBytes : ∀ n x : ℕ, (leBytes n x).length = n
  | 0, _ => rfl
  | n + 1, x => by rw [leBytes, length_cons, length_leBytes n]

theorem leVal_leBytes : ∀ n x : ℕ, leVal (leBytes n x) = x % 256 ^ n
  | 0, x => by rw [leBytes, leVal, pow_zero, mod_one]
  | n + 1, x => by
    rw [leBytes, leVal, leVal_leBytes n, UInt8.toNat_ofNat', pow_succ' 256 n, mod_mul]

theorem leBytes_mod (n x : ℕ) : leBytes n (x % 256 ^ n) = leBytes n x := by
  induction n generalizing x with
  | zero => rfl
  | succ n ih =>
    have hhead : UInt8.ofNat (x % 256 ^ (n + 1)) = UInt8.ofNat x := by
      rw [UInt8.ofNat_eq_iff_mod_eq_toNat, UInt8.toNat_ofNat', pow_succ', mod_mul_right_mod]
    rw [leBytes, leBytes, hhead, pow_succ', mod_mul_right_div_self, ih]

variable {x : ℕ}

theorem leVal_leBytes_of_lt {n : ℕ} (h : x < 256 ^ n) : leVal (leBytes n x) = x := by
  rw [leVal_leBytes, mod_eq_of_lt h]

/-- The `n` low-order bytes of `x`, most significant first. -/
def beBytes (n x : ℕ) : Bytes := (leBytes n x).reverse

/-- The number whose bytes, most significant first, are the given ones. -/
def beVal (b : Bytes) : ℕ := leVal b.reverse

@[simp] theorem length_beBytes (n x : ℕ) : (beBytes n x).length = n := by
  rw [beBytes, length_reverse, length_leBytes]

theorem beVal_beBytes_of_lt {n : ℕ} (h : x < 256 ^ n) : beVal (beBytes n x) = x := by
  rw [beVal, beBytes, reverse_reverse, leVal_leBytes_of_lt h]

theorem leVal_append : ∀ a b : Bytes, leVal (a ++ b) = leVal a + 256 ^ a.length * leVal b
  | [], b => by rw [nil_append, leVal, length_nil, pow_zero, one_mul, zero_add]
  | x :: a, b => by
    rw [cons_append, leVal, leVal, leVal_append a b, length_cons, pow_succ']
    ring

theorem leVal_lt : ∀ b : Bytes, leVal b < 256 ^ b.length
  | [] => by rw [leVal, length_nil, pow_zero]; exact one_pos
  | x :: b => by
    have hx : x.toNat < 256 := x.toNat_lt
    have hb := leVal_lt b
    rw [leVal, length_cons, pow_succ']
    omega

theorem beVal_cons (x : UInt8) (b : Bytes) :
    beVal (x :: b) = beVal b + 256 ^ b.length * x.toNat := by
  rw [beVal, beVal, reverse_cons, leVal_append, length_reverse, leVal, leVal, mul_zero, add_zero]

theorem beVal_lt (b : Bytes) : beVal b < 256 ^ b.length := by
  have h := leVal_lt b.reverse
  rwa [length_reverse] at h

/-- Byte strings of one length are ordered as the big-endian numbers they spell. -/
theorem beVal_lt_beVal_iff : ∀ {a b : Bytes}, a.length = b.length → (beVal a < beVal b ↔ a < b)
  | [], [], _ => by simp
  | x :: a, y :: b, h => by
    have hlen : a.length = b.length := Nat.succ.inj h
    have ha := beVal_lt a
    have hb := beVal_lt b
    rw [hlen] at ha
    rw [beVal_cons, beVal_cons, hlen, cons_lt_cons_iff, UInt8.lt_iff_toNat_lt]
    rcases lt_trichotomy x.toNat y.toNat with hxy | hxy | hxy
    · have : 256 ^ b.length * (x.toNat + 1) ≤ 256 ^ b.length * y.toNat := mul_le_mul_left _ hxy
      rw [mul_add_one] at this
      exact iff_of_true (by omega) (.inl hxy)
    · rw [hxy, add_lt_add_iff_right, beVal_lt_beVal_iff hlen]
      exact ⟨fun hlt => .inr ⟨UInt8.toNat_inj.mp hxy, hlt⟩,
        fun hor => hor.elim (fun hlt => absurd hlt (lt_irrefl _)) And.right⟩
    · have : 256 ^ b.length * (y.toNat + 1) ≤ 256 ^ b.length * x.toNat := mul_le_mul_left _ hxy
      rw [mul_add_one] at this
      refine iff_of_false (by omega) ?_
      rintro (hlt | ⟨rfl, _⟩)
      · omega
      · exact lt_irrefl _ hxy

/-! ## Varints -/

/-- The varint of `x` in at most `n` bytes. -/
def putUvarintIn : ℕ → ℕ → Bytes
  | 0, _ => []
  | n + 1, x =>
    if x < 128 then [UInt8.ofNat x] else UInt8.ofNat (x % 128 + 128) :: putUvarintIn n (x / 128)

/-- `PutUvarint` of a 64-bit number. -/
def putUvarint (x : ℕ) : Bytes := putUvarintIn 10 x

/-- The number at the front and the bytes it takes, if it ends within `n` bytes; the last of them
holds one bit only. -/
def uvarintIn : ℕ → Bytes → Option (ℕ × ℕ)
  | 0, _ => none
  | _ + 1, [] => none
  | n + 1, b :: bs =>
    if b.toNat < 128 then if n = 0 ∧ b.toNat > 1 then none else some (b.toNat, 1)
    else (uvarintIn n bs).map fun x => (b.toNat - 128 + 128 * x.1, x.2 + 1)

/-- `Uvarint`; `none` stands for its results with `n ≤ 0`. -/
def uvarint (b : Bytes) : Option (ℕ × ℕ) := uvarintIn 10 b

theorem uvarintIn_putUvarintIn (rest : Bytes) :
    ∀ (n x : ℕ), x < 2 * 128 ^ n →
      uvarintIn (n + 1) (putUvarintIn (n + 1) x ++ rest) = some (x, (putUvarintIn (n + 1) x).length)
  | n, x, hx => by
    by_cases hlt : x < 128
    · have hb : (UInt8.ofNat x).toNat = x := by
        rw [UInt8.toNat_ofNat']
        omega
      have hlast : ¬ (n = 0 ∧ x > 1) := by
        rintro ⟨rfl, h1⟩
        omega
      rw [putUvarintIn, if_pos hlt, singleton_append, uvarintIn, hb, if_pos hlt, if_neg hlast]
      rfl
    · cases n with
      | zero => omega
      | succ n =>
        have hb : (UInt8.ofNat (x % 128 + 128)).toNat = x % 128 + 128 := by
          rw [UInt8.toNat_ofNat']
          omega
        have hdiv : x / 128 < 2 * 128 ^ n := by
          rw [div_lt_iff_lt_mul (by omega)]
          rw [pow_succ] at hx
          omega
        rw [putUvarintIn, if_neg hlt, cons_append, uvarintIn, hb, if_neg (by omega),
          uvarintIn_putUvarintIn rest n (x / 128) hdiv, Option.map_some, length_cons]
        congr 2
        omega

/-- A 64-bit number is read back, whatever follows it. -/
theorem uvarint_putUvarint (h : x < 2 ^ 64) (rest : Bytes) :
    uvarint (putUvarint x ++ rest) = some (x, (putUvarint x).length) :=
  uvarintIn_putUvarintIn rest 9 x (by omega)

theorem length_putUvarintIn_le : ∀ n x : ℕ, (putUvarintIn n x).length ≤ n
  | 0, _ => le_rfl
  | n + 1, x => by
    rw [putUvarintIn]
    split_ifs
    · simp
    · have := length_putUvarintIn_le n (x / 128)
      rw [length_cons]
      omega

theorem length_putUvarintIn : ∀ n x : ℕ, x < 128 ^ (n + 1) →
    (putUvarintIn (n + 1) x).length = Nat.log2 x / 7 + 1
  | n, x, hx => by
    rw [putUvarintIn]
    split_ifs with hlt
    · have : Nat.log2 x < 7 := by
        rcases Nat.eq_zero_or_pos x with rfl | hpos
        · decide
        · exact (Nat.log2_lt hpos.ne').mpr hlt
      rw [length_singleton, div_eq_of_lt this]
    · cases n with
      | zero => omega
      | succ n =>
        have hdiv : x / 128 < 128 ^ (n + 1) := by
          rw [div_lt_iff_lt_mul (by omega), ← pow_succ]
          exact hx
        -- Seven bits less.
        have hlog : Nat.log2 x = Nat.log2 (x / 128) + 7 := by
          rw [Nat.log2_eq_log_two, Nat.log2_eq_log_two, show 128 = 2 ^ 7 from rfl,
            Nat.log_div_base_pow, Nat.sub_add_cancel]
          exact (le_log_iff_pow_le (by omega) (by omega)).mpr (by omega)
        rw [length_cons, length_putUvarintIn n (x / 128) hdiv, hlog]
        omega

theorem length_putUvarint (h : x < 2 ^ 64) : (putUvarint x).length = Nat.log2 x / 7 + 1 :=
  length_putUvarintIn 9 x (by omega)

theorem length_putUvarint_le (x : ℕ) : (putUvarint x).length ≤ 10 := length_putUvarintIn_le 10 x

/-! ## Slices and 32-bit differences -/

/-- `b[i:j]`. -/
def slice (b : Bytes) (i j : ℕ) : Option Bytes :=
  if i ≤ j ∧ j ≤ b.length then some ((b.take j).drop i) else none

theorem slice_append (a m c : Bytes) :
    slice (a ++ m ++ c) a.length (a.length + m.length) = some m := by
  rw [slice, if_pos ⟨by omega, by rw [length_append, length_append]; omega⟩,
    append_assoc, take_append, take_of_length_le (by omega), Nat.add_sub_cancel_left,
    take_left, drop_left]

/-- `uint32` subtraction. -/
def sub32 (a b : ℕ) : ℕ := (a + 2 ^ 32 - b) % 2 ^ 32

theorem sub32_add {n l : ℕ} (h : n + l < 2 ^ 32) : sub32 (n + l) l = n := by
  rw [sub32]
  omega

/-- What holds of the elements of a list and of one more. -/
theorem forall_mem_concat {α : Type*} {P : α → Prop} {l : List α} {a : α} (hl : ∀ x ∈ l, P x)
    (ha : P a) : ∀ x ∈ l ++ [a], P x :=
  forall_mem_append.mpr ⟨hl, forall_mem_singleton.mpr ha⟩

/-- What holds of the one value there is. -/
theorem forall_of_some {α : Type*} {P : α → Prop} {a : α} (ha : P a) :
    ∀ x, some a = some x → P x := by
  rintro _ ⟨⟩
  exact ha

end Lib
end Autumn
