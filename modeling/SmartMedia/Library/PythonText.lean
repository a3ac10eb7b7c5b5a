import Mathlib.Data.Int.Notation
import Mathlib.Data.List.Basic
import Mathlib.Tactic.Common
import SmartMedia.Library.Parts

/-!
# Texts and truth values

What Python's `or`, its order on strings, its decimal numbers and their formats make of texts, as
lists of characters.
-/
namespace PythonText

/-- What `s or default` takes of `s`. -/
def truthy (s : Option (List Char)) : Option (List Char) := s.filter (· ≠ [])

@[simp] theorem truthy_none : truthy none = none := rfl

@[simp] theorem truthy_nil : truthy (some []) = none := rfl

theorem truthy_of_ne_nil {s : List Char} (h : s ≠ []) : truthy (some s) = some s := by
  simp [truthy, Option.filter, h]

theorem truthy_eq_some {s : Option (List Char)} {t : List Char} :
    truthy s = some t ↔ s = some t ∧ t ≠ [] := by
  rw [truthy, Option.filter_eq_some_iff, decide_eq_true_iff]

/-- `s <= t`. -/
def textLe : List Char → List Char → Bool
  | [], _ => true
  | _ :: _, [] => false
  | c :: s, d :: t => if c = d then textLe s t else decide (c.toNat < d.toNat)

section Order

theorem textLe_total (s t : List Char) : textLe s t = true ∨ textLe t s = true := by
  induction s generalizing t with
  | nil => exact .inl rfl
  | cons c s ih =>
      cases t with
      | nil => exact .inr rfl
      | cons d t =>
          rw [textLe, textLe]
          by_cases heq : c = d
          · rw [if_pos heq, if_pos heq.symm]
            exact ih t
          · have hne : c.toNat ≠ d.toNat := fun h => heq (Char.toNat_inj.mp h)
            rw [if_neg heq, if_neg (Ne.symm heq), decide_eq_true_iff, decide_eq_true_iff]
            omega

theorem textLe_trans {s t u : List Char} (h : textLe s t = true) (h' : textLe t u = true) :
    textLe s u = true := by
  induction s generalizing t u with
  | nil => rfl
  | cons c s ih =>
      cases t with
      | nil => cases h
      | cons d t =>
          cases u with
          | nil => cases h'
          | cons e u =>
              rw [textLe] at h h' ⊢
              by_cases hcd : c = d
              · subst hcd
                rw [if_pos rfl] at h
                by_cases hce : c = e
                · rw [if_pos hce] at h' ⊢
                  exact ih h h'
                · rw [if_neg hce] at h' ⊢
                  exact h'
              · rw [if_neg hcd, decide_eq_true_iff] at h
                by_cases hde : d = e
                · subst hde
                  rw [if_neg hcd, decide_eq_true_iff]
                  exact h
                · rw [if_neg hde, decide_eq_true_iff] at h'
                  have hce : c ≠ e := by
                    rintro rfl
                    omega
                  rw [if_neg hce, decide_eq_true_iff]
                  omega

end Order

section Numbers

/-- The zeros of the decimal digits of all scripts, each followed by the other nine. -/
def decimalZeros : List ℕ :=
  [0x30, 0x660, 0x6f0, 0x7c0, 0x966, 0x9e6, 0xa66, 0xae6, 0xb66, 0xbe6, 0xc66, 0xce6, 0xd66,
    0xde6, 0xe50, 0xed0, 0xf20, 0x1040, 0x1090, 0x17e0, 0x1810, 0x1946, 0x19d0, 0x1a80, 0x1a90,
    0x1b50, 0x1bb0, 0x1c40, 0x1c50, 0xa620, 0xa8d0, 0xa900, 0xa9d0, 0xa9f0, 0xaa50, 0xabf0,
    0xff10, 0x104a0, 0x10d30, 0x11066, 0x110f0, 0x11136, 0x111d0, 0x112f0, 0x11450, 0x114d0,
    0x11650, 0x116c0, 0x11730, 0x118e0, 0x11950, 0x11c50, 0x11d50, 0x11da0, 0x16a60, 0x16ac0,
    0x16b50, 0x1d7ce, 0x1d7d8, 0x1d7e2, 0x1d7ec, 0x1d7f6, 0x1e140, 0x1e2f0, 0x1e950, 0x1fbf0]

/-- `unicodedata.decimal` -/
def decimalValue? (c : Char) : Option ℕ :=
  (decimalZeros.find? fun first => first ≤ c.toNat ∧ c.toNat < first + 10).map (c.toNat - ·)

/-- `str.isdecimal` and `\d`. -/
def isDecimal (c : Char) : Bool := (decimalValue? c).isSome

/-- `int` of decimal digits. -/
def intOf (s : List Char) : ℕ := s.foldl (fun n c => 10 * n + (decimalValue? c).getD 0) 0

/-- `f"{n:02d}"` for two, and `f"{n}"` for none. -/
def decimal (width n : ℕ) : List Char := (Nat.toDigits 10 n).leftpad width '0'

theorem decimalValue?_of_isDigit {c : Char} (h : c.isDigit = true) :
    decimalValue? c = some (c.toNat - 48) := by
  have hc : 48 ≤ c.toNat ∧ c.toNat < 48 + 10 := by
    have hbounds := Char.isDigit_iff_toNat.mp h
    have hzero : '0'.toNat = 48 := rfl
    have hnine : '9'.toNat = 57 := rfl
    omega
  rw [decimalValue?, decimalZeros, List.find?_cons_of_pos (by simpa using hc)]
  rfl

theorem isDecimal_of_isDigit {c : Char} (h : c.isDigit = true) : isDecimal c = true := by
  rw [isDecimal, decimalValue?_of_isDigit h]
  rfl

theorem intOf_of_isDigit {s : List Char} (h : ∀ c ∈ s, c.isDigit = true) :
    intOf s = Nat.ofDigitChars 10 s 0 := by
  have hfold : ∀ init, s.foldl (fun n c => 10 * n + (decimalValue? c).getD 0) init =
      Nat.ofDigitChars 10 s init := by
    induction s with
    | nil => exact fun init => Nat.ofDigitChars_nil.symm
    | cons c s ih =>
        intro init
        rw [List.foldl_cons, Nat.ofDigitChars_cons, decimalValue?_of_isDigit (h c List.mem_cons_self),
          Option.getD_some]
        exact ih (fun d hd => h d (List.mem_cons_of_mem c hd)) _
  exact hfold 0

theorem isDigit_of_mem_decimal {width n : ℕ} {c : Char} (h : c ∈ decimal width n) :
    c.isDigit = true := by
  rw [decimal, List.leftpad, List.mem_append] at h
  rcases h with h | h
  · rw [List.eq_of_mem_replicate h]
    rfl
  · exact Nat.isDigit_of_mem_toDigits (by decide) (by decide) h

theorem decimal_ne_nil (width n : ℕ) : decimal width n ≠ [] := by
  rw [decimal, List.leftpad]
  exact List.append_ne_nil_of_right_ne_nil _ Nat.toDigits_ne_nil

/-- A formatted number is read back. -/
theorem intOf_decimal (width n : ℕ) : intOf (decimal width n) = n := by
  rw [intOf_of_isDigit fun c => isDigit_of_mem_decimal, decimal, List.leftpad,
    Nat.ofDigitChars_append, Nat.ofDigitChars_replicate_zero, Nat.mul_zero,
    Nat.ofDigitChars_ten_toDigits]

/-- The value of a digit in any base. -/
def digitOf? (c : Char) : Option ℕ :=
  (decimalValue? c).orElse fun _ =>
    if 'a' ≤ c ∧ c ≤ 'z' then some (c.toNat - 87)
    else if 'A' ≤ c ∧ c ≤ 'Z' then some (c.toNat - 55)
    else none

def dropSign : List Char → Bool × List Char
  | '-' :: s => (true, s)
  | '+' :: s => (false, s)
  | s => (false, s)

/-- The letters of a prefix. -/
def baseLetters (base : ℕ) : List Char :=
  if base = 16 then ['x', 'X'] else if base = 8 then ['o', 'O'] else []

/-- Without a prefix that fits the base and an underscore behind it. -/
def dropBase (base : ℕ) (s : List Char) : List Char :=
  match s with
  | '0' :: c :: rest =>
      if c ∈ baseLetters base then (if rest.head? = some '_' then rest.tail else rest) else s
  | _ => s

/-- `sys.get_int_max_str_digits`, which does not concern bases that are powers of two. -/
def maxStrDigits : ℕ := 4300

/-- `int(s, base)` for a text without white space around it: single underscores may stand between
the digits. -/
def readInt? (base : ℕ) (s : List Char) : Option ℤ :=
  let (negative, s) := dropSign s
  let groups := (dropBase base s).splitOn '_'
  let digits := groups.flatten
  if [] ∈ groups ∨ base = 10 ∧ maxStrDigits < digits.length then none
  else (digits.mapM fun c => (digitOf? c).filter (· < base)).map fun values =>
    let n := values.foldl (fun (n : ℤ) (d : ℕ) => base * n + d) 0
    if negative then -n else n

section Reading
variable {base : ℕ} {s : List Char} {n : ℤ} {c : Char}

theorem mem_dropSign (hc : c ∈ s) : c = '-' ∨ c = '+' ∨ c ∈ (dropSign s).2 := by
  cases s with
  | nil => cases hc
  | cons d s =>
      rw [List.mem_cons] at hc
      rw [dropSign.eq_def]
      split
      · next heq =>
          obtain ⟨rfl, rfl⟩ := List.cons.inj heq
          rcases hc with rfl | hc
          · exact .inl rfl
          · exact .inr (.inr hc)
      · next heq =>
          obtain ⟨rfl, rfl⟩ := List.cons.inj heq
          rcases hc with rfl | hc
          · exact .inr (.inl rfl)
          · exact .inr (.inr hc)
      · exact .inr (.inr (List.mem_cons.mpr hc))

theorem mem_dropBase (hc : c ∈ s) :
    c = '0' ∨ c = '_' ∨ c ∈ baseLetters base ∨ c ∈ dropBase base s := by
  rw [dropBase.eq_def]
  split
  · next d rest =>
      split_ifs with hd hunderscore
      · rw [List.mem_cons, List.mem_cons] at hc
        rcases hc with rfl | rfl | hc
        · exact .inl rfl
        · exact .inr (.inr (.inl hd))
        · obtain ⟨tail, rfl⟩ := List.head?_eq_some_iff.mp hunderscore
          rcases List.mem_cons.mp hc with rfl | hc
          · exact .inr (.inl rfl)
          · exact .inr (.inr (.inr hc))
      · rw [List.mem_cons, List.mem_cons] at hc
        rcases hc with rfl | rfl | hc
        · exact .inl rfl
        · exact .inr (.inr (.inl hd))
        · exact .inr (.inr (.inr hc))
      · exact .inr (.inr (.inr hc))
  · exact .inr (.inr (.inr hc))

/-- What the characters of a number are. -/
theorem of_readInt? (h : readInt? base s = some n) (hc : c ∈ s) :
    c ∈ ['-', '+', '_', '0'] ∨ c ∈ baseLetters base ∨ ∃ d, digitOf? c = some d ∧ d < base := by
  rcases mem_dropSign hc with rfl | rfl | hc
  · exact .inl (by simp)
  · exact .inl (by simp)
  rcases (mem_dropBase hc : _ ∨ _ ∨ c ∈ baseLetters base ∨ _) with rfl | rfl | hc | hc
  · exact .inl (by simp)
  · exact .inl (by simp)
  · exact .inr (.inl hc)
  rw [readInt?] at h
  dsimp only at h
  split at h
  · cases h
  obtain ⟨values, hvalues, -⟩ := Option.map_eq_some_iff.mp h
  by_cases hunderscore : c = '_'
  · exact .inl (by simp [hunderscore])
  obtain ⟨d, hd⟩ := Parts.exists_of_mapM hvalues (Parts.mem_flatten_splitOn.mpr ⟨hc, hunderscore⟩)
  rw [Option.filter_eq_some_iff] at hd
  exact .inr (.inr ⟨d, hd.1, of_decide_eq_true hd.2⟩)

theorem readInt?_nil (base : ℕ) : readInt? base [] = none := rfl

/-- Digits behind a prefix, if there is one. -/
theorem readInt?_of_dropBase {t : List Char} {f : Char → ℕ} (hsign : dropSign s = (false, s))
    (hbase : dropBase base s = t) (hne : t ≠ [])
    (ht : ∀ c ∈ t, digitOf? c = some (f c) ∧ f c < base ∧ c ≠ '_')
    (hlength : base = 10 → t.length ≤ maxStrDigits) :
    readInt? base s = some ((t.foldl (fun n c => base * n + f c) 0 : ℕ) : ℤ) := by
  have hgroups : t.splitOn '_' = [t] := List.splitOn_eq_singleton fun h => (ht '_' h).2.2 rfl
  have hvalues : (t.mapM fun c => (digitOf? c).filter (· < base)) = some (t.map f) := by
    rw [Parts.mapM_eq_some_iff, List.forall₂_map_right_iff, List.forall₂_same]
    intro c hc
    rw [(ht c hc).1, Option.filter_some, if_pos (decide_eq_true (ht c hc).2.1)]
  have hvalue : ∀ (t : List Char) (n : ℕ),
      (t.map f).foldl (fun (n : ℤ) (d : ℕ) => base * n + d) n =
        ((t.foldl (fun n c => base * n + f c) n : ℕ) : ℤ) := by
    intro t
    induction t with
    | nil => exact fun n => rfl
    | cons c t ih =>
        intro n
        rw [List.map_cons, List.foldl_cons, List.foldl_cons, ← ih]
        push_cast
        rfl
  have hlimit : ¬([] ∈ [t] ∨ base = 10 ∧ maxStrDigits < [t].flatten.length) := by
    rintro (h | ⟨h, hlong⟩)
    · exact hne (List.mem_singleton.mp h).symm
    · have hshort := hlength h
      rw [List.flatten_singleton] at hlong
      omega
  rw [readInt?, hsign]
  dsimp only
  rw [hbase, hgroups, if_neg hlimit, List.flatten_singleton, hvalues, Option.map_some,
    if_neg Bool.false_ne_true]
  exact congrArg some (hvalue t 0)

theorem dropSign_of_notMem (h : '-' ∉ s) (h' : '+' ∉ s) : dropSign s = (false, s) := by
  rw [dropSign.eq_def]
  split
  · exact absurd List.mem_cons_self h
  · exact absurd List.mem_cons_self h'
  · rfl

theorem dropBase_of_notMem (h : ∀ c ∈ s, c ∉ baseLetters base) : dropBase base s = s := by
  rw [dropBase.eq_def]
  split
  · next d rest => rw [if_neg (h d (by simp))]
  · rfl

theorem decimalValue?_of_ascii (hc : c.toNat < 128) (hdigit : c.isDigit = false) :
    decimalValue? c = none := by
  have hzeros : ∀ first ∈ decimalZeros, first = 48 ∨ 128 ≤ first := by decide
  have hnone : decimalZeros.find? (fun first => first ≤ c.toNat ∧ c.toNat < first + 10) = none := by
    rw [List.find?_eq_none]
    intro first hfirst htest
    obtain ⟨hle, hlt⟩ := of_decide_eq_true htest
    rcases hzeros first hfirst with rfl | hbig
    · rw [Char.isDigit_iff_toNat.mpr ⟨hle, by
        have hnine : '9'.toNat = 57 := rfl
        omega⟩] at hdigit
      cases hdigit
    · omega
  rw [decimalValue?, hnone]
  rfl

end Reading

end Numbers

section Case

theorem toLower_eq (c : Char) :
    c.toLower = c ∨ 65 ≤ c.toNat ∧ c.toNat ≤ 90 ∧ c.toLower.toNat = c.toNat + 32 := by
  unfold Char.toLower
  split
  · next hupper =>
      right
      obtain ⟨hge, hle⟩ := hupper
      rw [ge_iff_le, UInt32.le_iff_toNat_le] at hge
      rw [UInt32.le_iff_toNat_le] at hle
      have hlow : 65 ≤ c.toNat := hge
      have hhigh : c.toNat ≤ 90 := hle
      refine ⟨hlow, hhigh, ?_⟩
      have hsum : (c.val + ('a'.val - 'A'.val)).toNat = (c.val.toNat + 32) % 2 ^ 32 :=
        UInt32.toNat_add c.val _
      have hval : c.val.toNat = c.toNat := rfl
      rw [hval, Nat.mod_eq_of_lt (by omega)] at hsum
      exact hsum
  · exact .inl rfl

theorem isLower_iff {c : Char} : c.isLower = true ↔ 97 ≤ c.toNat ∧ c.toNat ≤ 122 := by
  unfold Char.isLower
  rw [Bool.and_eq_true, decide_eq_true_iff, decide_eq_true_iff, ge_iff_le,
    UInt32.le_iff_toNat_le, UInt32.le_iff_toNat_le]
  exact Iff.rfl

theorem isAlpha_eq_false {c : Char} (h : c.isAlpha = false) :
    ¬(97 ≤ c.toNat ∧ c.toNat ≤ 122) ∧ ¬(65 ≤ c.toNat ∧ c.toNat ≤ 90) := by
  unfold Char.isAlpha at h
  rw [Bool.or_eq_false_iff] at h
  constructor
  · intro hrange
    rw [isLower_iff.mpr hrange] at h
    cases h.2
  · rintro ⟨hlow, hhigh⟩
    have hupper : c.isUpper = true := by
      unfold Char.isUpper
      rw [decide_eq_true_iff, ge_iff_le, UInt32.le_iff_toNat_le,
        UInt32.le_iff_toNat_le]
      exact ⟨hlow, hhigh⟩
    rw [hupper] at h
    cases h.1

/-- `str.lower`, character by character; what a character outside of ASCII becomes is left open. -/
structure Lowering where
  other : Char → List Char
  other_ne_nil : ∀ c, other c ≠ []
  settled : ∀ c, 128 ≤ c.toNat → ∀ d ∈ other c, d.isLower = true ∨ 128 ≤ d.toNat ∧ other d = [d]

def Lowering.lower (lowering : Lowering) (s : List Char) : List Char :=
  s.flatMap fun c => if c.toNat < 128 then [c.toLower] else lowering.other c

/-- The one of the texts in ASCII. -/
def Lowering.ascii : Lowering where
  other c := [c]
  other_ne_nil c := List.cons_ne_nil c []
  settled c hc d hd := by
    rw [List.mem_singleton] at hd
    subst hd
    exact .inr ⟨hc, rfl⟩

namespace Lowering
variable {lowering : Lowering} {a b : List Char} {c d : Char}

theorem lower_append : lowering.lower (a ++ b) = lowering.lower a ++ lowering.lower b :=
  List.flatMap_append

theorem lower_cons_of_ascii (hc : c.toNat < 128) :
    lowering.lower (c :: b) = c.toLower :: lowering.lower b := by
  rw [lower, lower, List.flatMap_cons, if_pos hc, List.singleton_append]

theorem toLower_toLower (c : Char) : c.toLower.toLower = c.toLower := by
  rcases toLower_eq c with h | ⟨hlow, -, hlower⟩
  · rw [h, h]
  · rcases toLower_eq c.toLower with h | ⟨-, hhigh, -⟩
    · exact h
    · omega

theorem toNat_toLower_lt (hc : c.toNat < 128) : c.toLower.toNat < 128 := by
  rcases toLower_eq c with h | ⟨-, hhigh, hlower⟩
  · rwa [h]
  · omega

/-- What has become lower case stays. -/
theorem lower_lower (a : List Char) : lowering.lower (lowering.lower a) = lowering.lower a := by
  induction a with
  | nil => rfl
  | cons c a ih =>
      by_cases hc : c.toNat < 128
      · rw [lower_cons_of_ascii hc, lower_cons_of_ascii (toNat_toLower_lt hc), toLower_toLower, ih]
      · have hfirst : ∀ b, lowering.lower (c :: b) = lowering.other c ++ lowering.lower b := by
          intro b
          rw [lower, lower, List.flatMap_cons, if_neg hc]
        have hsettled : ∀ b, (∀ d ∈ b, d.isLower = true ∨ 128 ≤ d.toNat ∧ lowering.other d = [d]) →
            lowering.lower b = b := by
          intro b hb
          induction b with
          | nil => rfl
          | cons d b ihb =>
              rw [List.forall_mem_cons] at hb
              rcases hb.1 with hd | ⟨hd, hother⟩
              · have hrange := isLower_iff.mp hd
                have hsame : d.toLower = d := by
                  rcases toLower_eq d with h | ⟨-, hhigh, -⟩
                  · exact h
                  · omega
                rw [lower_cons_of_ascii (by omega), hsame, ihb hb.2]
              · rw [lower, List.flatMap_cons, if_neg (by omega), hother, List.singleton_append]
                exact congrArg (d :: ·) (ihb hb.2)
        rw [hfirst, lower_append, ih, hsettled _ (lowering.settled c (by omega))]

theorem lower_eq_nil : lowering.lower a = [] ↔ a = [] := by
  cases a with
  | nil => exact Iff.rfl
  | cons c a =>
      rw [lower, List.flatMap_cons, List.append_eq_nil_iff]
      constructor
      · rintro ⟨h, -⟩
        split_ifs at h
        exact absurd h (lowering.other_ne_nil c)
      · intro h
        cases h

/-- What is no letter stays, and comes from nothing else. -/
theorem mem_lower_iff (hd : d.toNat < 128) (hletter : d.isAlpha = false) :
    d ∈ lowering.lower a ↔ d ∈ a := by
  rw [lower, List.mem_flatMap]
  constructor
  · rintro ⟨c, hc, hmem⟩
    split_ifs at hmem with hascii
    · rw [List.mem_singleton] at hmem
      rcases toLower_eq c with h | ⟨hlow, hhigh, hlower⟩
      · rwa [hmem, h]
      · rw [← hmem] at hlower
        have := (isAlpha_eq_false hletter).1
        omega
    · rcases lowering.settled c (by omega) d hmem with hlower | ⟨hbig, -⟩
      · unfold Char.isAlpha at hletter
        rw [hlower, Bool.or_true] at hletter
        cases hletter
      · omega
  · intro hmem
    refine ⟨d, hmem, ?_⟩
    rw [if_pos hd, List.mem_singleton]
    rcases toLower_eq d with h | ⟨hlow, hhigh, -⟩
    · exact h.symm
    · exact absurd ⟨hlow, hhigh⟩ (isAlpha_eq_false hletter).2

end Lowering

end Case

end PythonText
