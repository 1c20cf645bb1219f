import Autumn.Lib.Bytes
import Mathlib.Data.Nat.Digits.Defs

/-!
# Decimal numbers in byte strings

Numbers as `%d` prints them, and `strconv.ParseUint` with base ten, for numbers below a bound.

* `decimal`, `parseUint`, `parseUint_decimal`: a number that is printed is read back.
* `decimal_injective`, `mem_decimal`: different numbers are printed differently, in digits.
* `eq_of_append_isPrefix`: what is in front of the first separator is determined.
-/

namespace Autumn
namespace Lib

open List Option

/-- The character of a digit. -/
def digitByte (d : ℕ) : UInt8 := UInt8.ofNat (48 + d)

/-- A number as `%d` prints it. -/
def decimal (n : ℕ) : Bytes :=
  if n = 0 then [digitByte 0] else ((Nat.digits 10 n).reverse).map digitByte

/-- One round of the loop of `strconv.ParseUint`. -/
def parseDigit (bound n : ℕ) (c : UInt8) : Option ℕ :=
  if 48 ≤ c.toNat ∧ c.toNat ≤ 57 then
    if n * 10 + (c.toNat - 48) < bound then some (n * 10 + (c.toNat - 48)) else none
  else none

/-- `strconv.ParseUint` with base ten, for numbers below `bound`. -/
def parseUint (bound : ℕ) (s : Bytes) : Option ℕ :=
  if s = [] then none else s.foldlM (parseDigit bound) 0

theorem toNat_digitByte {d : ℕ} (hd : d < 10) : (digitByte d).toNat = 48 + d := by
  rw [digitByte, UInt8.toNat_ofNat']
  omega

variable {bound n : ℕ}

theorem parseDigit_digitByte {d : ℕ} (hd : d < 10) (hbound : n * 10 + d < bound) :
    parseDigit bound n (digitByte d) = some (n * 10 + d) := by
  have hback : 48 + d - 48 = d := by omega
  rw [parseDigit, toNat_digitByte hd, hback, if_pos ⟨by omega, by omega⟩, if_pos hbound]

theorem foldlM_parseDigit {ds : List ℕ} (hds : ∀ d ∈ ds, d < 10)
    (hbound : Nat.ofDigits 10 ds < bound) :
    (ds.reverse.map digitByte).foldlM (parseDigit bound) 0 = some (Nat.ofDigits 10 ds) := by
  induction ds with
  | nil => rfl
  | cons d ds ih =>
    have hd : d < 10 := hds d (.head _)
    have hcons : Nat.ofDigits 10 (d :: ds) = Nat.ofDigits 10 ds * 10 + d := by
      rw [Nat.ofDigits_cons]
      ring
    rw [hcons] at hbound ⊢
    have hrest := ih (fun x hx => hds x (.tail _ hx)) (by omega)
    rw [reverse_cons, map_append, foldlM_append, hrest]
    simp only [map_singleton, foldlM_cons, foldlM_nil, bind_eq_bind,
      Option.bind_some, parseDigit_digitByte hd hbound, Option.pure_def]

/-- **A number that is printed is read back.** -/
theorem parseUint_decimal (h : n < bound) : parseUint bound (decimal n) = some n := by
  by_cases hn : n = 0
  · subst hn
    have hzero := parseDigit_digitByte (n := 0) (d := 0) (by omega) h
    rw [decimal, if_pos rfl, parseUint, if_neg (cons_ne_nil _ _)]
    simp only [foldlM_cons, foldlM_nil, bind_eq_bind, hzero, bind_some, Option.pure_def]
  · have hne : (Nat.digits 10 n).reverse.map digitByte ≠ [] := by
      simpa using Nat.digits_ne_nil_iff_ne_zero.mpr hn
    rw [decimal, if_neg hn, parseUint, if_neg hne, foldlM_parseDigit, Nat.ofDigits_digits]
    · exact fun d hd => Nat.digits_lt_base (by omega) hd
    · rwa [Nat.ofDigits_digits]

theorem decimal_injective : Function.Injective decimal := by
  intro m n h
  have hm := parseUint_decimal (Nat.lt_succ_of_le (Nat.le_max_left m n))
  have hn := parseUint_decimal (Nat.lt_succ_of_le (Nat.le_max_right m n))
  rw [h, hn] at hm
  exact (some.inj hm).symm

theorem mem_decimal {c : UInt8} (hc : c ∈ decimal n) : 48 ≤ c.toNat ∧ c.toNat ≤ 57 := by
  have hdigit : ∃ d < 10, c = digitByte d := by
    unfold decimal at hc
    split_ifs at hc with hn
    · exact ⟨0, by omega, mem_singleton.mp hc⟩
    · obtain ⟨d, hd, rfl⟩ := mem_map.mp hc
      exact ⟨d, Nat.digits_lt_base (by omega) (mem_reverse.mp hd), rfl⟩
  obtain ⟨d, hd, rfl⟩ := hdigit
  rw [toNat_digitByte hd]
  omega

/-- What is in front of the first separator is determined by what has it as a prefix. -/
theorem eq_of_append_isPrefix {α : Type*} {x : α} {a b c : List α} (ha : x ∉ a) (hb : x ∉ b)
    (h : a ++ [x] <+: b ++ x :: c) : a = b := by
  induction a generalizing b with
  | nil =>
    cases b with
    | nil => rfl
    | cons y b =>
      have hxy : x = y := (cons_prefix_cons.mp h).1
      exact absurd (hxy ▸ (.head _)) hb
  | cons y a ih =>
    cases b with
    | nil =>
      have hyx : y = x := (cons_prefix_cons.mp h).1
      exact absurd (hyx ▸ (.head _)) ha
    | cons z b =>
      obtain ⟨rfl, hrest⟩ := cons_prefix_cons.mp h
      rw [ih (fun hx => ha (.tail _ hx)) (fun hx => hb (.tail _ hx)) hrest]

end Lib
end Autumn
