import Mathlib.Algebra.Group.Nat.Defs
import Mathlib.Data.List.Induction
import Mathlib.Tactic.Common
import SmartMedia.Library.Parts

/-!
# Numeric hosts

The texts of addresses: what `inet_aton` reads, with up to four numbers in three bases, and the
stricter forms of Python's `ipaddress`.
-/
namespace IpAddress

abbrev Text := List Char

section Numbers

def isHexLetter (c : Char) : Bool := ('a' ≤ c && c ≤ 'f') || ('A' ≤ c && c ≤ 'F')

def digitValue (c : Char) : ℕ :=
  if c.isDigit then c.toNat - 48 else if 'a' ≤ c then c.toNat - 87 else c.toNat - 55

/-- An ASCII digit of a base up to 16. -/
def isDigitIn (base : ℕ) (c : Char) : Bool :=
  (c.isDigit || isHexLetter c) && digitValue c < base

def valueIn (base : ℕ) (s : Text) : ℕ := s.foldl (fun n c => base * n + digitValue c) 0

def numeral? (base : ℕ) (s : Text) : Option ℕ :=
  if s ≠ [] ∧ s.all (isDigitIn base) then some (valueIn base s) else none

/-- A number of `inet_aton`: hexadecimal behind `0x`, octal behind another zero. -/
def number? : Text → Option ℕ
  | '0' :: c :: s => if c = 'x' ∨ c = 'X' then numeral? 16 s else numeral? 8 (c :: s)
  | s => numeral? 10 s

/-- Numbers of one byte each, of which the last one fills all bytes that are left. -/
def assemble : ℕ → List ℕ → Option ℕ
  | 0, _ => none
  | _ + 1, [] => none
  | k + 1, [n] => if n < 256 ^ (k + 1) then some n else none
  | k + 1, n :: rest => if n < 256 then (assemble k rest).map (n * 256 ^ k + ·) else none

/-- `inet_aton` -/
def inetAton? (s : Text) : Option ℕ := ((s.splitOn '.').mapM number?).bind (assemble 4)

end Numbers

section Ipaddress

/-- A byte in decimal, without zeros before it. -/
def octet? (s : Text) : Option ℕ :=
  if s.length ≤ 3 ∧ (s = ['0'] ∨ s.head? ≠ some '0') then (numeral? 10 s).filter (· ≤ 255) else none

/-- `IPv4Address._ip_int_from_string` -/
def ipv4? (s : Text) : Option ℕ :=
  if (s.splitOn '.').length = 4 then ((s.splitOn '.').mapM octet?).bind (assemble 4) else none

def hextet? (s : Text) : Option ℕ := if s.length ≤ 4 then numeral? 16 s else none

def hexText (n : ℕ) : Text := Nat.toDigits 16 n

/-- The parts between colons, with two of them for an IPv4 address at the end. -/
def colonParts (s : Text) : Option (List Text) :=
  let parts := s.splitOn ':'
  let last := parts.getLastD []
  if parts.length < 3 then none
  else if '.' ∈ last then
    (ipv4? last).map fun n => parts.dropLast ++ [hexText (n / 65536), hexText (n % 65536)]
  else some parts

/-- An empty part at an end has to be the only one on its side of the double colon. -/
def side (parts : List Text) (outer : Option Text) : Option (List ℕ) :=
  if outer = some [] then (if parts.length = 1 then some [] else none) else parts.mapM hextet?

/-- `IPv6Address._ip_int_from_string` -/
def ipv6? (s : Text) : Option ℕ := do
  let parts ← colonParts s
  let between := parts.tail.dropLast
  if 9 < parts.length ∨ 1 < between.count [] then none
  let groups ←
    if between.count [] = 1 then do
      let skipIndex := between.idxOf [] + 1
      let front := parts.take skipIndex
      let back := parts.drop (skipIndex + 1)
      let hi ← side front front.head?
      let lo ← side back back.getLast?
      if 8 ≤ hi.length + lo.length then none
      some (hi ++ List.replicate (8 - (hi.length + lo.length)) 0 ++ lo)
    else if parts.length = 8 then parts.mapM hextet? else none
  return groups.foldl (fun n group => n * 65536 + group) 0

inductive Address
  | v4 (n : ℕ)
  | v6 (n : ℕ) (scope : Option Text)
  deriving DecidableEq, Repr

/-- `IPv6Address`, with what is behind a percent sign. -/
def scoped? (s : Text) : Option Address :=
  if '%' ∈ s then
    let scope := s.drop ((s.takeWhile (· ≠ '%')).length + 1)
    if scope = [] ∨ '%' ∈ scope then none
    else (ipv6? (s.takeWhile (· ≠ '%'))).map fun n => .v6 n (some scope)
  else (ipv6? s).map fun n => .v6 n none

/-- `ipaddress.ip_address` -/
def ipAddress? (s : Text) : Option Address :=
  if '/' ∈ s then none else ((ipv4? s).map Address.v4).orElse fun _ => scoped? s

/-- The addresses that begin with the same bits. -/
structure Network where
  width : ℕ
  base : ℕ
  bits : ℕ

def Network.contains (network : Network) (n : ℕ) : Bool :=
  n / 2 ^ (network.width - network.bits) = network.base / 2 ^ (network.width - network.bits)

end Ipaddress

section Forms
variable {base n : ℕ} {s : Text} {c : Char}

theorem toNat_of_isDigitIn (h : isDigitIn base c = true) :
    48 ≤ c.toNat ∧ c.toNat ≤ 57 ∨ 97 ≤ c.toNat ∧ c.toNat ≤ 102 ∨ 65 ≤ c.toNat ∧ c.toNat ≤ 70 := by
  rw [isDigitIn, Bool.and_eq_true, Bool.or_eq_true] at h
  rcases h.1 with h | h
  · have hbounds := Char.isDigit_iff_toNat.mp h
    have hzero : '0'.toNat = 48 := rfl
    have hnine : '9'.toNat = 57 := rfl
    omega
  · simp only [isHexLetter, Bool.or_eq_true, Bool.and_eq_true, decide_eq_true_iff, Char.le_def,
      UInt32.le_iff_toNat_le] at h
    exact .inr h

theorem numeral?_eq_some_iff :
    numeral? base s = some n ↔ s ≠ [] ∧ (∀ c ∈ s, isDigitIn base c = true) ∧ n = valueIn base s := by
  rw [numeral?, ← List.all_eq_true]
  split_ifs with h
  · rw [Option.some_inj, and_iff_right h.1, and_iff_right h.2]
    exact eq_comm
  · constructor
    · intro hn
      cases hn
    · rintro ⟨hne, hall, -⟩
      exact absurd ⟨hne, hall⟩ h

/-- The three forms of a number. -/
inductive NumberForm : Text → ℕ → Prop
  | hex (x : Char) (s : Text) (hx : x ∈ ['x', 'X']) (hne : s ≠ [])
      (hs : ∀ c ∈ s, isDigitIn 16 c = true) : NumberForm ('0' :: x :: s) (valueIn 16 s)
  | octal (c : Char) (s : Text) (hs : ∀ d ∈ c :: s, isDigitIn 8 d = true) :
      NumberForm ('0' :: c :: s) (valueIn 8 (c :: s))
  | decimal (s : Text) (hne : s ≠ []) (hzero : s = ['0'] ∨ s.head? ≠ some '0')
      (hs : ∀ c ∈ s, isDigitIn 10 c = true) : NumberForm s (valueIn 10 s)

theorem number?_form (h : number? s = some n) : NumberForm s n := by
  rw [number?.eq_def] at h
  split at h
  · next c s =>
      split_ifs at h with hx
      · obtain ⟨hne, hall, rfl⟩ := numeral?_eq_some_iff.mp h
        exact .hex c s (by simpa using hx) hne hall
      · obtain ⟨-, hall, rfl⟩ := numeral?_eq_some_iff.mp h
        exact .octal c s hall
  · next hother =>
      obtain ⟨hne, hall, rfl⟩ := numeral?_eq_some_iff.mp h
      refine .decimal s hne ?_ hall
      obtain ⟨c, s, rfl⟩ := List.exists_cons_of_ne_nil hne
      by_cases hc : c = '0'
      · left
        subst hc
        cases s with
        | nil => rfl
        | cons d s => exact absurd rfl (hother d s)
      · right
        simpa using hc

theorem valueIn_append (base : ℕ) (s : Text) (c : Char) :
    valueIn base (s ++ [c]) = base * valueIn base s + digitValue c := by
  rw [valueIn, List.foldl_concat, valueIn]

theorem digitValue_pos (h : isDigitIn base c = true) (hc : c ≠ '0') : 0 < digitValue c := by
  have hne : c.toNat ≠ 48 := fun h => hc (Char.toNat_inj.mp h)
  have hrange := toNat_of_isDigitIn h
  rw [digitValue]
  split_ifs with hdigit ha
  · have hbounds := Char.isDigit_iff_toNat.mp hdigit
    have hzero : '0'.toNat = 48 := rfl
    omega
  · rw [Char.le_def, UInt32.le_iff_toNat_le] at ha
    have hlow : 97 ≤ c.toNat := ha
    omega
  · have hnot : ¬(48 ≤ c.toNat ∧ c.toNat ≤ 57) := fun hbounds =>
      hdigit (Char.isDigit_iff_toNat.mpr hbounds)
    omega

/-- A numeral that does not begin with a zero is as large as its length says. -/
theorem pow_le_valueIn (hne : s ≠ []) (hhead : s.head? ≠ some '0')
    (hs : ∀ c ∈ s, isDigitIn base c = true) : base ^ (s.length - 1) ≤ valueIn base s := by
  induction s using List.reverseRecOn with
  | nil => exact absurd rfl hne
  | append_singleton s c ih =>
      rw [valueIn_append, List.length_append, List.length_singleton, Nat.add_sub_cancel]
      rcases s with - | ⟨d, s⟩
      · have hpos := digitValue_pos (hs c (by simp)) (by simpa using hhead)
        rw [List.length_nil, Nat.pow_zero]
        omega
      · have hrest := ih (by simp) (by simpa using hhead) fun e he =>
          hs e (List.mem_append_left _ he)
        have hlength : (d :: s).length = (d :: s).length - 1 + 1 := by simp
        calc base ^ (d :: s).length
            = base * base ^ ((d :: s).length - 1) := by rw [hlength, Nat.pow_succ, Nat.mul_comm]; rfl
          _ ≤ base * valueIn base (d :: s) := Nat.mul_le_mul_left base hrest
          _ ≤ base * valueIn base (d :: s) + digitValue c := Nat.le_add_right _ _

theorem length_of_assemble {k : ℕ} {numbers : List ℕ} (h : assemble k numbers = some n) :
    1 ≤ numbers.length ∧ numbers.length ≤ k := by
  induction k generalizing numbers n with
  | zero => cases h
  | succ k ih =>
      cases numbers with
      | nil => cases h
      | cons m rest =>
          cases rest with
          | nil => exact ⟨Nat.le_refl _, by simp⟩
          | cons m' rest =>
              rw [assemble] at h
              · split_ifs at h
                obtain ⟨rest', hrest, -⟩ := Option.map_eq_some_iff.mp h
                have hlength := (ih hrest).2
                rw [List.length_cons] at hlength ⊢
                rw [List.length_cons]
                omega
              · simp

/-- As many numbers as bytes are bytes. -/
theorem lt_of_assemble {k : ℕ} {numbers : List ℕ} (h : assemble k numbers = some n)
    (hlength : numbers.length = k) : ∀ m ∈ numbers, m < 256 := by
  induction k generalizing numbers n with
  | zero => cases h
  | succ k ih =>
      cases numbers with
      | nil => cases h
      | cons m rest =>
          cases rest with
          | nil =>
              obtain rfl : k = 0 := by simpa using hlength.symm
              rw [assemble] at h
              split_ifs at h with hm
              rw [List.forall_mem_singleton]
              simpa using hm
          | cons m' rest =>
              rw [assemble] at h
              · split_ifs at h with hm
                obtain ⟨rest', hrest, -⟩ := Option.map_eq_some_iff.mp h
                rw [List.forall_mem_cons]
                exact ⟨hm, ih hrest (by simpa using hlength)⟩
              · simp

theorem number?_of_octet? (h : octet? s = some n) : number? s = some n := by
  rw [octet?] at h
  split_ifs at h with hform
  have hnumeral := (Option.filter_eq_some_iff.mp h).1
  rw [number?.eq_def]
  split
  · next c s =>
      rcases hform.2 with hone | hhead
      · cases hone
      · exact absurd rfl hhead
  · exact hnumeral

/-- The stricter form means the same address. -/
theorem inetAton?_of_ipv4? (h : ipv4? s = some n) : inetAton? s = some n := by
  rw [ipv4?] at h
  split_ifs at h
  obtain ⟨octets, hoctets, hn⟩ := Option.bind_eq_some_iff.mp h
  have hnumbers : (s.splitOn '.').mapM number? = some octets := by
    rw [Parts.mapM_eq_some_iff] at hoctets ⊢
    exact hoctets.imp fun part m => number?_of_octet?
  rw [inetAton?, hnumbers]
  exact hn

theorem NumberForm.chars (h : NumberForm s n) (hc : c ∈ s) :
    c ∈ ['x', 'X'] ∨ ∃ base, isDigitIn base c = true := by
  have hzero : isDigitIn 8 '0' = true := by decide
  cases h with
  | hex x s hx hne hs =>
      rcases List.mem_cons.mp hc with rfl | hc
      · exact .inr ⟨8, hzero⟩
      · rcases List.mem_cons.mp hc with rfl | hc
        · exact .inl hx
        · exact .inr ⟨16, hs c hc⟩
  | octal d s hs =>
      rcases List.mem_cons.mp hc with rfl | hc
      · exact .inr ⟨8, hzero⟩
      · exact .inr ⟨8, hs c hc⟩
  | decimal s hne hzero hs => exact .inr ⟨10, hs c hc⟩

end Forms

example : inetAton? "0x7f.1".toList = some 2130706433 := by decide

example : ipv6? "::ffff:127.0.0.1".toList = some 281472812449793 := by decide

end IpAddress
