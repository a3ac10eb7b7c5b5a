import Mathlib.Data.List.Basic
import Mathlib.Data.List.GetD
import Mathlib.Data.List.Nodup
import Mathlib.Tactic.Common

/-!
# Base64

Octets in groups of three are written as four digits of six bits; a last group of one or two is
filled up with `=`. The decoder is the lenient one: it passes over all that is no digit and
stops at the padding that completes a group.
-/
namespace Base64

/-- The digits from 0 to 63. -/
structure Alphabet where
  digits : List Char
  length_eq : digits.length = 64
  nodup : digits.Nodup
  pad_notMem : '=' ∉ digits

def letters : List Char := "ABCDEFGHIJKLMNOPQRSTUVWXYZabcdefghijklmnopqrstuvwxyz0123456789".toList

def Alphabet.standard : Alphabet where
  digits := letters ++ ['+', '/']
  length_eq := by decide
  nodup := by decide
  pad_notMem := by decide

def Alphabet.urlSafe : Alphabet where
  digits := letters ++ ['-', '_']
  length_eq := by decide
  nodup := by decide
  pad_notMem := by decide

namespace Alphabet
variable (alphabet : Alphabet)

def digit (n : ℕ) : Char := alphabet.digits.getD n '='

def value? (c : Char) : Option ℕ :=
  if c ∈ alphabet.digits then some (alphabet.digits.idxOf c) else none

variable {alphabet} {n : ℕ}

theorem digit_mem (h : n < 64) : alphabet.digit n ∈ alphabet.digits := by
  have hlt : n < alphabet.digits.length := by rw [alphabet.length_eq]; exact h
  rw [digit, List.getD_eq_getElem _ _ hlt]
  exact List.getElem_mem hlt

@[simp] theorem value?_digit (h : n < 64) : alphabet.value? (alphabet.digit n) = some n := by
  have hlt : n < alphabet.digits.length := by rw [alphabet.length_eq]; exact h
  rw [value?, if_pos (digit_mem h), digit, List.getD_eq_getElem _ _ hlt,
    alphabet.nodup.idxOf_getElem]

theorem digit_ne_pad (h : n < 64) : alphabet.digit n ≠ '=' := fun hpad =>
  alphabet.pad_notMem (hpad ▸ digit_mem h)

end Alphabet

def encode (alphabet : Alphabet) : List UInt8 → List Char
  | a :: b :: c :: rest =>
      alphabet.digit (a.toNat / 4) :: alphabet.digit (a.toNat % 4 * 16 + b.toNat / 16) ::
        alphabet.digit (b.toNat % 16 * 4 + c.toNat / 64) :: alphabet.digit (c.toNat % 64) ::
          encode alphabet rest
  | [a, b] =>
      [alphabet.digit (a.toNat / 4), alphabet.digit (a.toNat % 4 * 16 + b.toNat / 16),
        alphabet.digit (b.toNat % 16 * 4), '=']
  | [a] => [alphabet.digit (a.toNat / 4), alphabet.digit (a.toNat % 4 * 16), '=', '=']
  | [] => []

/-- How many digits of a group have been read, with the bits that make no octet yet. -/
inductive Quad
  | zero
  | one (bits : ℕ)
  | two (bits : ℕ)
  | three (bits : ℕ)
  deriving DecidableEq, Repr

/-- The decoder in a group, after so many padding characters in a row. -/
def decodeFrom (alphabet : Alphabet) : Quad → ℕ → List Char → Option (List UInt8)
  | .zero, _, [] => some []
  | _, _, [] => none
  | quad, pads, c :: rest =>
      if c = '=' then
        match quad with
        | .zero | .one _ => decodeFrom alphabet quad pads rest
        | .two _ => if 1 ≤ pads then some [] else decodeFrom alphabet quad (pads + 1) rest
        | .three _ => some []
      else
        match alphabet.value? c with
        | none => decodeFrom alphabet quad pads rest
        | some n =>
            match quad with
            | .zero => decodeFrom alphabet (.one n) 0 rest
            | .one bits =>
                (decodeFrom alphabet (.two (n % 16)) 0 rest).map (.ofNat (bits * 4 + n / 16) :: ·)
            | .two bits =>
                (decodeFrom alphabet (.three (n % 4)) 0 rest).map (.ofNat (bits * 16 + n / 4) :: ·)
            | .three bits => (decodeFrom alphabet .zero 0 rest).map (.ofNat (bits * 64 + n) :: ·)

/-- `none` is an incomplete last group. -/
def decode (alphabet : Alphabet) (text : List Char) : Option (List UInt8) :=
  decodeFrom alphabet .zero 0 text

section RoundTrip
variable {alphabet : Alphabet} {pads n bits : ℕ} {rest : List Char}

theorem decodeFrom_zero (h : n < 64) :
    decodeFrom alphabet .zero pads (alphabet.digit n :: rest) =
      decodeFrom alphabet (.one n) 0 rest := by
  rw [decodeFrom, if_neg (Alphabet.digit_ne_pad h), Alphabet.value?_digit h]

theorem decodeFrom_one (h : n < 64) :
    decodeFrom alphabet (.one bits) pads (alphabet.digit n :: rest) =
      (decodeFrom alphabet (.two (n % 16)) 0 rest).map (.ofNat (bits * 4 + n / 16) :: ·) := by
  rw [decodeFrom, if_neg (Alphabet.digit_ne_pad h), Alphabet.value?_digit h]

theorem decodeFrom_two (h : n < 64) :
    decodeFrom alphabet (.two bits) pads (alphabet.digit n :: rest) =
      (decodeFrom alphabet (.three (n % 4)) 0 rest).map (.ofNat (bits * 16 + n / 4) :: ·) := by
  rw [decodeFrom, if_neg (Alphabet.digit_ne_pad h), Alphabet.value?_digit h]

theorem decodeFrom_three (h : n < 64) :
    decodeFrom alphabet (.three bits) pads (alphabet.digit n :: rest) =
      (decodeFrom alphabet .zero 0 rest).map (.ofNat (bits * 64 + n) :: ·) := by
  rw [decodeFrom, if_neg (Alphabet.digit_ne_pad h), Alphabet.value?_digit h]

theorem ofNat_of_eq (byte : UInt8) (h : n = byte.toNat) : UInt8.ofNat n = byte := by
  rw [h, UInt8.ofNat_toNat]

/-- What is encoded is decoded, whatever group is read first. -/
theorem decodeFrom_encode (bytes : List UInt8) (pads : ℕ) :
    decodeFrom alphabet .zero pads (encode alphabet bytes) = some bytes := by
  induction bytes using encode.induct generalizing pads with
  | case1 a b c rest ih =>
      have ha := a.toNat_lt
      have hb := b.toNat_lt
      have hc := c.toNat_lt
      rw [encode, decodeFrom_zero (by omega), decodeFrom_one (by omega), decodeFrom_two (by omega),
        decodeFrom_three (by omega), ih]
      simp only [Option.map_some]
      rw [ofNat_of_eq a (by omega), ofNat_of_eq b (by omega),
        ofNat_of_eq c (by omega)]
  | case2 a b =>
      have ha := a.toNat_lt
      have hb := b.toNat_lt
      rw [encode, decodeFrom_zero (by omega), decodeFrom_one (by omega), decodeFrom_two (by omega),
        decodeFrom, if_pos rfl]
      simp only [Option.map_some]
      rw [ofNat_of_eq a (by omega), ofNat_of_eq b (by omega)]
  | case3 a =>
      have ha := a.toNat_lt
      rw [encode, decodeFrom_zero (by omega), decodeFrom_one (by omega), decodeFrom, if_pos rfl]
      simp only [decodeFrom]
      rw [ofNat_of_eq a (by omega)]
      rfl
  | case4 => rfl

theorem decode_encode (alphabet : Alphabet) (bytes : List UInt8) :
    decode alphabet (encode alphabet bytes) = some bytes :=
  decodeFrom_encode bytes 0

theorem mem_encode {c : Char} {bytes : List UInt8} (h : c ∈ encode alphabet bytes) :
    c ∈ alphabet.digits ∨ c = '=' := by
  have hdigit {n : ℕ} (hn : n < 64) : alphabet.digit n ∈ alphabet.digits := Alphabet.digit_mem hn
  induction bytes using encode.induct with
  | case1 a b c rest ih =>
      have ha := a.toNat_lt
      have hb := b.toNat_lt
      have hc := c.toNat_lt
      simp only [encode, List.mem_cons] at h
      rcases h with rfl | rfl | rfl | rfl | h
      · exact .inl (hdigit (by omega))
      · exact .inl (hdigit (by omega))
      · exact .inl (hdigit (by omega))
      · exact .inl (hdigit (by omega))
      · exact ih h
  | case2 a b =>
      have ha := a.toNat_lt
      have hb := b.toNat_lt
      simp only [encode, List.mem_cons, List.not_mem_nil, or_false] at h
      rcases h with rfl | rfl | rfl | rfl
      · exact .inl (hdigit (by omega))
      · exact .inl (hdigit (by omega))
      · exact .inl (hdigit (by omega))
      · exact .inr rfl
  | case3 a =>
      have ha := a.toNat_lt
      simp only [encode, List.mem_cons, List.not_mem_nil, or_false] at h
      rcases h with rfl | rfl | rfl | rfl
      · exact .inl (hdigit (by omega))
      · exact .inl (hdigit (by omega))
      · exact .inr rfl
      · exact .inr rfl
  | case4 => cases h

end RoundTrip

end Base64
