/-
CertStore/Hex.lean

Texts of hex digits, two for each byte.

`digits` writes each byte as its pair of lowercase digits, `ofPairs` reads
pairs of digits of either case, and fails on any other character or on a digit
left over.  What one writes the other reads back (`ofPairs_digits`), and no two
byte strings are written alike (`digits_injective`).  `toDigits_pair` connects
the pair to the positional notation `Nat.toDigits 16`, which does not pad.
-/
import Mathlib.Data.List.Basic
import Mathlib.Tactic.Common

namespace Hex

/-! ### Digits -/

/-- The two digits of a byte. -/
def pair (b : UInt8) : List Char :=
  [Nat.digitChar (b.toNat / 16), Nat.digitChar (b.toNat % 16)]

/-- The digits of a byte string. -/
def digits (bs : List UInt8) : List Char := bs.flatMap pair

/-- The digits that are written, in the order of their values. -/
def alphabet : List Char :=
  ['0', '1', '2', '3', '4', '5', '6', '7', '8', '9', 'a', 'b', 'c', 'd', 'e', 'f']

/-- The value of a digit of either case. -/
def value (c : Char) : Option ℕ :=
  if '0' ≤ c ∧ c ≤ '9' then some (c.toNat - '0'.toNat)
  else if 'a' ≤ c ∧ c ≤ 'f' then some (c.toNat - 'a'.toNat + 10)
  else if 'A' ≤ c ∧ c ≤ 'F' then some (c.toNat - 'A'.toNat + 10)
  else none

/-- Read a text as pairs of digits. -/
def ofPairs : List Char → Option (List UInt8)
  | [] => some []
  | [_] => none
  | c :: d :: cs => do
    let hi ← value c
    let lo ← value d
    let bs ← ofPairs cs
    return UInt8.ofNat (16 * hi + lo) :: bs

/-- Every digit has its value. -/
theorem value_digitChar {n : ℕ} (h : n < 16) : value (Nat.digitChar n) = some n := by
  have hall : ∀ m < 16, value (Nat.digitChar m) = some m := by decide
  exact hall n h

/-- The positional notation of a byte is its pair of digits, without a leading
zero. -/
theorem toDigits_pair (b : UInt8) :
    (if b < 16 then ['0'] else []) ++ Nat.toDigits 16 b.toNat = pair b := by
  have hb : b.toNat < 256 := b.toNat_lt
  by_cases hlt : b < 16
  · have hlt' : b.toNat < 16 := UInt8.lt_iff_toNat_lt.mp hlt
    rw [if_pos hlt, Nat.toDigits_of_lt_base hlt', pair, Nat.div_eq_of_lt hlt',
      Nat.mod_eq_of_lt hlt']
    rfl
  · have hge : 16 ≤ b.toNat := by
      rw [UInt8.lt_iff_toNat_lt] at hlt
      exact Nat.le_of_not_lt hlt
    have hdiv : b.toNat / 16 < 16 := by omega
    rw [if_neg hlt, Nat.toDigits_of_base_le (by decide) hge, Nat.toDigits_of_lt_base hdiv]
    rfl

/-! ### The written text -/

theorem digits_append (as bs : List UInt8) : digits (as ++ bs) = digits as ++ digits bs :=
  List.flatMap_append

/-- Two digits for each byte. -/
theorem length_digits (bs : List UInt8) : (digits bs).length = 2 * bs.length := by
  induction bs with
  | nil => rfl
  | cons b bs ih =>
    show (digits bs).length + 2 = 2 * (bs.length + 1)
    omega

theorem digitChar_mem_alphabet {n : ℕ} (h : n < 16) : Nat.digitChar n ∈ alphabet := by
  have hall : ∀ m < 16, Nat.digitChar m ∈ alphabet := by decide
  exact hall n h

/-- Only lowercase digits are written. -/
theorem digits_subset_alphabet (bs : List UInt8) : ∀ d ∈ digits bs, d ∈ alphabet := by
  intro d hd
  obtain ⟨b, -, hdb⟩ := List.mem_flatMap.mp hd
  have hb : b.toNat < 256 := b.toNat_lt
  rcases List.mem_pair.mp hdb with rfl | rfl
  · exact digitChar_mem_alphabet (by omega)
  · exact digitChar_mem_alphabet (by omega)

/-! ### Reading what was written -/

/-- **The digits of a byte string read back as the byte string.** -/
theorem ofPairs_digits (bs : List UInt8) : ofPairs (digits bs) = some bs := by
  induction bs with
  | nil => rfl
  | cons b bs ih =>
    have hb : b.toNat < 256 := b.toNat_lt
    have hhi : value (Nat.digitChar (b.toNat / 16)) = some (b.toNat / 16) :=
      value_digitChar (by omega)
    have hlo : value (Nat.digitChar (b.toNat % 16)) = some (b.toNat % 16) :=
      value_digitChar (by omega)
    have hbyte : UInt8.ofNat (16 * (b.toNat / 16) + b.toNat % 16) = b := by
      rw [Nat.div_add_mod, UInt8.ofNat_toNat]
    show ofPairs (_ :: _ :: digits bs) = some (b :: bs)
    rw [ofPairs, hhi, hlo, ih]
    show some (UInt8.ofNat (16 * (b.toNat / 16) + b.toNat % 16) :: bs) = some (b :: bs)
    rw [hbyte]

theorem digits_injective : Function.Injective digits := by
  intro as bs h
  have hread : some as = some bs := by rw [← ofPairs_digits as, h, ofPairs_digits]
  exact Option.some.inj hread

end Hex
