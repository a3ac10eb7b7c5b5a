import SmartMedia.Urls.UrlValidator

/-!
# Numeric hosts that the validator reads

`_try_parse_ip` against the grammar of `inet_aton`: which hosts it reads as the same address, and
which it does not read.
-/
namespace SmartMedia.Urls
open PythonText Strm
open IpAddress (Address Network ipAddress? ipv4? ipv6? assemble inetAton? number? isDigitIn digitValue
  valueIn NumberForm octet? scoped? toNat_of_isDigitIn)

section Integers
variable {base : ℕ} {s t : Text} {c : Char}

theorem mem_strip (hc : c ∈ s) (hspace : Media.isSpace c = false) : c ∈ Media.strip s := by
  have hkept : ∀ l : Text, c ∈ l → c ∈ l.dropWhile Media.isSpace := by
    intro l hl
    rw [← List.takeWhile_append_dropWhile (p := Media.isSpace) (l := l), List.mem_append] at hl
    rcases hl with hl | hl
    · rw [List.all_eq_true.mp List.all_takeWhile c hl] at hspace
      cases hspace
    · exact hl
  rw [Media.strip, List.mem_reverse]
  exact hkept _ (List.mem_reverse.mpr (hkept s hc))

theorem strip_of_spaceless (h : ∀ c ∈ s, Media.isSpace c = false) : Media.strip s = s := by
  have hkept : ∀ l : Text, (∀ c ∈ l, Media.isSpace c = false) → l.dropWhile Media.isSpace = l := by
    intro l hl
    cases l with
    | nil => rfl
    | cons d l => rw [List.dropWhile_cons, hl d List.mem_cons_self, if_neg Bool.false_ne_true]
  rw [Media.strip, hkept s h, hkept s.reverse fun c hc => h c (List.mem_reverse.mp hc),
    List.reverse_reverse]

theorem isSpace_of_isDigitIn (h : isDigitIn base c = true) : Media.isSpace c = false := by
  have hrange := toNat_of_isDigitIn h
  simp only [Media.isSpace, Bool.or_eq_false_iff, Bool.and_eq_false_iff, decide_eq_false_iff_not]
  omega

theorem digitOf?_of_isDigitIn (h : isDigitIn base c = true) : digitOf? c = some (digitValue c) := by
  by_cases hdigit : c.isDigit = true
  · rw [digitOf?, decimalValue?_of_isDigit hdigit, digitValue, if_pos hdigit]
    rfl
  have hle : ∀ x : Char, x ≤ c ↔ x.toNat ≤ c.toNat := by
    intro x
    rw [Char.le_def, UInt32.le_iff_toNat_le]
    exact Iff.rfl
  have hge : c ≤ 'z' ↔ c.toNat ≤ 122 := by
    rw [Char.le_def, UInt32.le_iff_toNat_le]
    exact Iff.rfl
  have hge' : c ≤ 'Z' ↔ c.toNat ≤ 90 := by
    rw [Char.le_def, UInt32.le_iff_toNat_le]
    exact Iff.rfl
  have hsmall : 'a' ≤ c ↔ 97 ≤ c.toNat := hle 'a'
  have hbig : 'A' ≤ c ↔ 65 ≤ c.toNat := hle 'A'
  have hrange := toNat_of_isDigitIn h
  have hnot : ¬(48 ≤ c.toNat ∧ c.toNat ≤ 57) := fun hbounds =>
    hdigit (Char.isDigit_iff_toNat.mpr hbounds)
  rw [digitOf?, decimalValue?_of_ascii (by omega) (Bool.eq_false_iff.mpr hdigit), digitValue,
    if_neg hdigit]
  have hor : ∀ o : Option ℕ, Option.orElse none (fun _ => o) = o := fun o => rfl
  rw [hor]
  simp only [hsmall, hbig, hge, hge']
  rcases hrange with hrange | hrange | hrange
  · exact absurd hrange hnot
  · rw [if_pos hrange.1, if_pos ⟨hrange.1, by omega⟩]
  · rw [if_neg (not_and_of_not_left _ (by omega)), if_pos ⟨hrange.1, by omega⟩, if_neg (by omega)]

theorem digitValue_lt (h : isDigitIn base c = true) : digitValue c < base := by
  rw [isDigitIn, Bool.and_eq_true, decide_eq_true_iff] at h
  exact h.2

/-- A digit is no sign, underscore or letter of a prefix. -/
theorem isDigitIn_ne (h : isDigitIn base c = true) {d : Char}
    (hd : d ∈ ['-', '+', '_', '.', ':', '[', ']', '%', '/', 'x', 'X', 'o', 'O']) : c ≠ d := by
  rintro rfl
  have hrange := toNat_of_isDigitIn h
  simp only [List.mem_cons, List.not_mem_nil, or_false] at hd
  rcases hd with rfl | rfl | rfl | rfl | rfl | rfl | rfl | rfl | rfl | rfl | rfl | rfl | rfl
  all_goals exact absurd hrange (by decide)

theorem toInt?_digits (hne : s ≠ []) (hs : ∀ c ∈ s, isDigitIn base c = true)
    (hlength : base = 10 → s.length ≤ maxStrDigits) :
    toInt? base s = some ((valueIn base s : ℕ) : ℤ) := by
  have hletters : ∀ c ∈ s, c ∉ baseLetters base := by
    intro c hc hmem
    have hletter : c ∈ ['x', 'X', 'o', 'O'] := by
      rw [baseLetters] at hmem
      split_ifs at hmem
      · simp only [List.mem_cons, List.not_mem_nil, or_false] at hmem ⊢
        tauto
      · simp only [List.mem_cons, List.not_mem_nil, or_false] at hmem ⊢
        tauto
      · cases hmem
    refine isDigitIn_ne (d := c) (hs c hc) ?_ rfl
    simp only [List.mem_cons, List.not_mem_nil, or_false] at hletter ⊢
    tauto
  rw [toInt?, strip_of_spaceless fun c hc => isSpace_of_isDigitIn (hs c hc)]
  apply readInt?_of_dropBase _ (dropBase_of_notMem hletters) hne _ hlength
  · apply dropSign_of_notMem
    · exact fun h => isDigitIn_ne (hs _ h) (by simp) rfl
    · exact fun h => isDigitIn_ne (hs _ h) (by simp) rfl
  · exact fun c hc => ⟨digitOf?_of_isDigitIn (hs c hc), digitValue_lt (hs c hc),
      isDigitIn_ne (hs c hc) (by simp)⟩

theorem toInt?_hex {x : Char} (hx : x ∈ ['x', 'X']) (hne : t ≠ [])
    (ht : ∀ c ∈ t, isDigitIn 16 c = true) :
    toInt? 16 ('0' :: x :: t) = some ((valueIn 16 t : ℕ) : ℤ) := by
  have hchars : ∀ c ∈ '0' :: x :: t, Media.isSpace c = false ∧ c ≠ '-' ∧ c ≠ '+' := by
    intro c hc
    rw [List.mem_cons, List.mem_cons] at hc
    rcases hc with rfl | rfl | hc
    · decide
    · rw [List.mem_cons, List.mem_singleton] at hx
      rcases hx with rfl | rfl
      · decide
      · decide
    · exact ⟨isSpace_of_isDigitIn (ht c hc), isDigitIn_ne (ht c hc) (by simp),
        isDigitIn_ne (ht c hc) (by simp)⟩
  have hbase : dropBase 16 ('0' :: x :: t) = t := by
    have hunderscore : t.head? ≠ some '_' := fun h =>
      isDigitIn_ne (ht '_' (List.mem_of_head? h)) (by simp) rfl
    rw [dropBase, if_pos (show x ∈ baseLetters 16 from hx), if_neg hunderscore]
  rw [toInt?, strip_of_spaceless fun c hc => (hchars c hc).1]
  apply readInt?_of_dropBase _ hbase hne _ (by simp)
  · apply dropSign_of_notMem
    · exact fun h => (hchars _ h).2.1 rfl
    · exact fun h => (hchars _ h).2.2 rfl
  · exact fun c hc => ⟨digitOf?_of_isDigitIn (ht c hc), digitValue_lt (ht c hc),
      isDigitIn_ne (ht c hc) (by simp)⟩

theorem toInt?_eq_none (hc : c ∈ s) (hspace : Media.isSpace c = false)
    (hother : c ∉ ['-', '+', '_', '0'] ∧ c ∉ baseLetters base ∧ ∀ d, digitOf? c = some d → base ≤ d) :
    toInt? base s = none := by
  by_contra hsome
  obtain ⟨n, hn⟩ := Option.ne_none_iff_exists'.mp hsome
  rcases of_readInt? hn (mem_strip hc hspace) with h | h | ⟨d, hd, hlt⟩
  · exact hother.1 h
  · exact hother.2.1 h
  · have hle := hother.2.2 d hd
    omega

/-- No number has a dot. -/
theorem toInt?_of_dot (h : '.' ∈ s) : toInt? base s = none := by
  apply toInt?_eq_none h (by decide)
  refine ⟨by decide, ?_, ?_⟩
  · rw [baseLetters]
    split_ifs
    · decide
    · decide
    · decide
  · intro d hd
    rw [show digitOf? '.' = none by decide] at hd
    cases hd

theorem toInt?_nil (base : ℕ) : toInt? base [] = none := rfl

end Integers

section Forms
variable {host part : Text} {n : ℕ}

theorem ipv6?_eq_none (h : ':' ∉ host) : ipv6? host = none := by
  have hparts : IpAddress.colonParts host = none := by
    rw [IpAddress.colonParts, List.splitOn_eq_singleton h, if_pos (by simp)]
  rw [ipv6?, hparts]
  rfl

/-- A host without the characters of an IPv6 address. -/
def Plain (host : Text) : Prop := ∀ c ∈ host, c ∉ [':', '%', '/', '[']

theorem tryParseIp_of_plain (h : Plain host) :
    tryParseIp host = ((ipv4? host).or (parseNumeric host)).map .v4 := by
  have hnot : ∀ c ∈ [':', '%', '/', '['], c ∉ host := fun c hc hmem => h c hmem hc
  have hscoped : scoped? host = none := by
    rw [scoped?, if_neg (hnot '%' (by simp)), ipv6?_eq_none (hnot ':' (by simp))]
    rfl
  have haddress : ipAddress? host = (ipv4? host).map .v4 := by
    rw [ipAddress?, if_neg (hnot '/' (by simp)), hscoped]
    cases ipv4? host with
    | none => rfl
    | some n => rfl
  have hbracket : ¬(host.head? = some '[' ∧ host.getLast? = some ']') := fun hb =>
    hnot '[' (by simp) (List.mem_of_head? hb.1)
  rw [tryParseIp, haddress, if_neg hbracket, Option.none_or]
  cases ipv4? host with
  | none => rfl
  | some n => rfl

theorem parseWhole_of_dot (h : '.' ∈ host) :
    parseWhole host =
      if "0x".toList <+: host ∨ "0X".toList <+: host then .error () else .ok none := by
  have hdecimal : ¬(host ≠ [] ∧ host.all isDecimal = true) := by
    rintro ⟨-, hall⟩
    exact absurd (List.all_eq_true.mp hall '.' h) (by decide)
  rw [parseWhole, if_neg hdecimal]
  dsimp only [bind, Except.bind, pure, Except.pure]
  rw [toInt?_of_dot h]
  rfl

/-- The numbers of a host, part by part. -/
theorem numbers_of_inetAton? (h : inetAton? host = some n) :
    ∃ numbers, List.Forall₂ (fun part m => NumberForm part m) (host.splitOn '.') numbers ∧
      assemble 4 numbers = some n := by
  obtain ⟨numbers, hnumbers, hn⟩ := Option.bind_eq_some_iff.mp h
  exact ⟨numbers, (Parts.mapM_eq_some_iff.mp hnumbers).imp fun part m => IpAddress.number?_form, hn⟩

theorem form_of_mem {numbers : List ℕ}
    (h : List.Forall₂ (fun part m => NumberForm part m) (host.splitOn '.') numbers)
    (hpart : part ∈ host.splitOn '.') : ∃ m, NumberForm part m := by
  generalize host.splitOn '.' = parts at h hpart
  induction h with
  | nil => cases hpart
  | cons hform htail ih =>
      rcases List.mem_cons.mp hpart with rfl | hpart
      · exact ⟨_, hform⟩
      · exact ih hpart

theorem chars_of_inetAton? (h : inetAton? host = some n) {c : Char} (hc : c ∈ host) :
    c = '.' ∨ c ∈ ['x', 'X'] ∨ ∃ base, isDigitIn base c = true := by
  obtain ⟨numbers, hforms, -⟩ := numbers_of_inetAton? h
  exact Parts.of_mem (fun part hpart d hd =>
    ((form_of_mem hforms hpart).choose_spec).chars hd) hc

theorem plain_of_inetAton? (h : inetAton? host = some n) : Plain host := by
  intro c hc hmem
  rcases chars_of_inetAton? h hc with rfl | hx | ⟨base, hdigit⟩
  · exact absurd hmem (by decide)
  · rw [List.mem_cons, List.mem_singleton] at hx
    rcases hx with rfl | rfl
    · exact absurd hmem (by decide)
    · exact absurd hmem (by decide)
  · simp only [List.mem_cons, List.not_mem_nil, or_false] at hmem
    rcases hmem with rfl | rfl | rfl | rfl
    all_goals exact isDigitIn_ne hdigit (by simp) rfl

/-- A part that is written in hexadecimal. -/
def IsHex (part : Text) : Prop := ∃ x ∈ ['x', 'X'], ∃ s, part = '0' :: x :: s

/-- A host with a dot, whose parts are not four in decimal or octal, is not read. -/
theorem tryParseIp_eq_none (h : inetAton? host = some n) (hdot : '.' ∈ host)
    (hparts : (host.splitOn '.').length = 4 → ∃ part ∈ host.splitOn '.', IsHex part) :
    tryParseIp host = none := by
  have hnotDecimal : ∀ part, IsHex part → octet? part = none ∧ octalPart part = none := by
    rintro part ⟨x, hx, s, rfl⟩
    constructor
    · rw [octet?, if_neg]
      rintro ⟨-, hform | hform⟩
      · cases hform
      · exact hform rfl
    · rw [octalPart, if_pos ⟨rfl, by simp⟩]
      apply toInt?_eq_none (List.mem_cons_of_mem '0' List.mem_cons_self)
      · rw [List.mem_cons, List.mem_singleton] at hx
        rcases hx with rfl | rfl
        · decide
        · decide
      · rw [List.mem_cons, List.mem_singleton] at hx
        rcases hx with rfl | rfl
        · exact ⟨by decide, by decide, fun d hd => by
            rw [show digitOf? 'x' = some 33 by decide, Option.some_inj] at hd
            omega⟩
        · exact ⟨by decide, by decide, fun d hd => by
            rw [show digitOf? 'X' = some 33 by decide, Option.some_inj] at hd
            omega⟩
  have hipv4 : ipv4? host = none := by
    rw [ipv4?]
    split_ifs with hlength
    · obtain ⟨part, hpart, hhex⟩ := hparts hlength
      rw [Parts.mapM_eq_none hpart (hnotDecimal part hhex).1]
      rfl
    · rfl
  have hdotted : parseDotted host = none := by
    rw [parseDotted]
    split_ifs with hlength
    · obtain ⟨part, hpart, hhex⟩ := hparts hlength
      rw [Parts.mapM_eq_none hpart (hnotDecimal part hhex).2]
      rfl
    · rfl
  rw [tryParseIp_of_plain (plain_of_inetAton? h), hipv4, parseNumeric, parseWhole_of_dot hdot]
  split_ifs
  · rfl
  · rw [hdotted]
    rfl

end Forms

section Readings
variable {host part : Text} {n m : ℕ}

theorem exists_isHex (h : "0x".toList <+: host ∨ "0X".toList <+: host) :
    ∃ part ∈ host.splitOn '.', IsHex part := by
  have hfirst : ∀ x ∈ ['x', 'X'], ∀ s : Text, ∃ part ∈ ('0' :: x :: s).splitOn '.', IsHex part := by
    intro x hx s
    have hdot : x ≠ '.' := by
      rintro rfl
      exact absurd hx (by decide)
    obtain ⟨part, parts, hparts⟩ := List.exists_cons_of_ne_nil (List.splitOn_ne_nil '.' s)
    refine ⟨'0' :: x :: part, ?_, x, hx, part, rfl⟩
    rw [List.splitOn_cons_eq_if_modifyHead, if_neg (by decide), List.splitOn_cons_eq_if_modifyHead,
      if_neg (by simpa using hdot), hparts]
    exact List.mem_cons_self
  rcases h with ⟨s, rfl⟩ | ⟨s, rfl⟩
  · exact hfirst 'x' (by simp) s
  · exact hfirst 'X' (by simp) s

/-- The zero before an octal number adds nothing. -/
theorem valueIn_zero_cons (base : ℕ) (s : Text) : valueIn base ('0' :: s) = valueIn base s := rfl

theorem length_le_of_lt {k : ℕ} (hne : host ≠ []) (hzero : host = ['0'] ∨ host.head? ≠ some '0')
    (hs : ∀ c ∈ host, isDigitIn 10 c = true) (hlt : valueIn 10 host < 10 ^ k) (hk : 0 < k) :
    host.length ≤ k := by
  rcases hzero with rfl | hhead
  · exact hk
  · have hpow := (Nat.pow_lt_pow_iff_right (by decide : 1 < 10)).mp
      (lt_of_le_of_lt (IpAddress.pow_le_valueIn hne hhead hs) hlt)
    omega

theorem octalPart_of_form (h : NumberForm part m) (hhex : ¬IsHex part) (hm : m < 256) :
    octalPart part = some (m : ℤ) := by
  cases h with
  | hex x s hx hne hs => exact absurd ⟨x, hx, s, rfl⟩ hhex
  | octal c s hs =>
      rw [octalPart, if_pos ⟨rfl, by simp⟩, toInt?_digits (List.cons_ne_nil _ _) _ (by simp),
        valueIn_zero_cons]
      exact List.forall_mem_cons.mpr ⟨(by decide : isDigitIn 8 '0' = true), hs⟩
  | decimal _ hne hzero hs =>
      have hlength := length_le_of_lt (k := 3) hne hzero hs (by omega) (by decide)
      have hnot : ¬(part.head? = some '0' ∧ 1 < part.length) := by
        rintro ⟨hhead, hlong⟩
        rcases hzero with rfl | hother
        · exact absurd hlong (by decide)
        · exact hother hhead
      rw [octalPart, if_neg hnot, toInt?_digits hne hs]
      intro _
      rw [maxStrDigits]
      omega

/-- Four parts in decimal or octal are read as `inet_aton` reads them. -/
theorem tryParseIp_of_four (h : inetAton? host = some n) (hlength : (host.splitOn '.').length = 4)
    (hhex : ∀ part ∈ host.splitOn '.', ¬IsHex part) : tryParseIp host = some (.v4 n) := by
  rw [tryParseIp_of_plain (plain_of_inetAton? h)]
  cases hstrict : ipv4? host with
  | some m =>
      obtain rfl : m = n := Option.some_inj.mp ((IpAddress.inetAton?_of_ipv4? hstrict).symm.trans h)
      rfl
  | none =>
      have hdot : '.' ∈ host := by
        by_contra hnot
        rw [List.splitOn_eq_singleton hnot] at hlength
        cases hlength
      have hprefix : ¬("0x".toList <+: host ∨ "0X".toList <+: host) := by
        intro hstart
        obtain ⟨part, hpart, hform⟩ := exists_isHex hstart
        exact hhex part hpart hform
      obtain ⟨numbers, hforms, hn⟩ := numbers_of_inetAton? h
      have hsmall := IpAddress.lt_of_assemble hn (hforms.length_eq.symm.trans hlength)
      have hoctal : (host.splitOn '.').mapM octalPart = some (numbers.map fun m : ℕ => (m : ℤ)) := by
        rw [Parts.mapM_eq_some_iff, List.forall₂_map_right_iff]
        generalize host.splitOn '.' = parts at hforms hhex
        clear hn
        induction hforms with
        | nil => exact .nil
        | cons hform _ ih =>
            rw [List.forall_mem_cons] at hhex hsmall
            exact .cons (octalPart_of_form hform hhex.1 hsmall.1) (ih hsmall.2 hhex.2)
      have hbytes : (numbers.map fun m : ℕ => (m : ℤ)).all (fun p => 0 ≤ p && p ≤ 255) = true := by
        rw [List.all_eq_true, List.forall_mem_map]
        intro m hm
        have hlt := hsmall m hm
        rw [Bool.and_eq_true, decide_eq_true_iff, decide_eq_true_iff]
        omega
      have hback : (numbers.map fun m : ℕ => (m : ℤ)).map Int.toNat = numbers := by
        rw [List.map_map]
        exact List.map_id numbers
      have hdotted : parseDotted host = some n := by
        rw [parseDotted, if_pos hlength, hoctal, Option.bind_some, if_pos hbytes, hback, hn]
      rw [parseNumeric, parseWhole_of_dot hdot, if_neg hprefix]
      dsimp only
      rw [hdotted]
      rfl

/-- A host without a dot is one number. -/
theorem form_of_single (h : inetAton? host = some n) (hdot : '.' ∉ host) :
    NumberForm host n ∧ n < 2 ^ 32 := by
  obtain ⟨numbers, hforms, hn⟩ := numbers_of_inetAton? h
  rw [List.splitOn_eq_singleton hdot] at hforms
  obtain ⟨m, rest, hform, hrest, rfl⟩ := List.forall₂_cons_left_iff.mp hforms
  rw [List.forall₂_nil_left_iff] at hrest
  subst hrest
  rw [assemble] at hn
  split_ifs at hn with hlt
  cases hn
  exact ⟨hform, hlt⟩

theorem ipv4?_of_single (hdot : '.' ∉ host) : ipv4? host = none ∧ parseDotted host = none := by
  have hlength : ¬(host.splitOn '.').length = 4 := by
    rw [List.splitOn_eq_singleton hdot, List.length_singleton]
    decide
  rw [ipv4?, parseDotted, if_neg hlength, if_neg hlength]
  exact ⟨rfl, rfl⟩

theorem all_isDecimal (hs : ∀ c ∈ host, isDigitIn 10 c = true) : host.all isDecimal = true := by
  rw [List.all_eq_true]
  intro c hc
  have hlt := digitValue_lt (hs c hc)
  have hdigit : c.isDigit = true := by
    by_contra hnot
    have hrange := toNat_of_isDigitIn (hs c hc)
    rw [digitValue, if_neg hnot] at hlt
    have hdigit := mt Char.isDigit_iff_toNat.mpr hnot
    have hzero : '0'.toNat = 48 := rfl
    have hnine : '9'.toNat = 57 := rfl
    split_ifs at hlt with ha
    · rw [Char.le_def, UInt32.le_iff_toNat_le] at ha
      have hsmall : 97 ≤ c.toNat := ha
      omega
    · omega
  exact isDecimal_of_isDigit hdigit

theorem isDigitIn_mono {base base' : ℕ} {c : Char} (h : isDigitIn base c = true)
    (hle : base ≤ base') : isDigitIn base' c = true := by
  rw [isDigitIn, Bool.and_eq_true, decide_eq_true_iff] at h ⊢
  exact ⟨h.1, Nat.lt_of_lt_of_le h.2 hle⟩

theorem toInt?_of_long (hs : ∀ c ∈ host, isDigitIn 10 c = true)
    (hlong : ¬host.length ≤ maxStrDigits) : toInt? 10 host = none := by
  have hgroups : host.splitOn '_' = [host] :=
    List.splitOn_eq_singleton fun h => isDigitIn_ne (hs '_' h) (by simp) rfl
  have hsign : dropSign host = (false, host) :=
    dropSign_of_notMem (fun h => isDigitIn_ne (hs _ h) (by simp) rfl)
      fun h => isDigitIn_ne (hs _ h) (by simp) rfl
  have hbase : dropBase 10 host = host := dropBase_of_notMem fun c hc hmem => by cases hmem
  rw [toInt?, strip_of_spaceless fun c hc => isSpace_of_isDigitIn (hs c hc), readInt?, hsign]
  dsimp only
  rw [hbase, hgroups, List.flatten_singleton, if_pos (.inr ⟨rfl, Nat.lt_of_not_le hlong⟩)]

/-- A host of decimal digits. -/
theorem tryParseIp_of_digits (hne : host ≠ []) (hs : ∀ c ∈ host, isDigitIn 10 c = true) :
    tryParseIp host =
      if host.length ≤ maxStrDigits ∧ valueIn 10 host < 2 ^ 32 then some (.v4 (valueIn 10 host))
      else none := by
  have hdot : '.' ∉ host := fun h => isDigitIn_ne (hs _ h) (by simp) rfl
  have hplain : Plain host := by
    intro c hc hmem
    simp only [List.mem_cons, List.not_mem_nil, or_false] at hmem
    exact isDigitIn_ne (d := c) (hs c hc) (by simp; tauto) rfl
  have hprefix : ¬("0x".toList <+: host ∨ "0X".toList <+: host) := by
    rintro (⟨s, rfl⟩ | ⟨s, rfl⟩)
    · exact isDigitIn_ne (hs 'x' (by simp)) (by simp) rfl
    · exact isDigitIn_ne (hs 'X' (by simp)) (by simp) rfl
  rw [tryParseIp_of_plain hplain, (ipv4?_of_single hdot).1, Option.none_or, parseNumeric, parseWhole,
    if_pos ⟨hne, all_isDecimal hs⟩, if_neg hprefix, (ipv4?_of_single hdot).2]
  by_cases hlength : host.length ≤ maxStrDigits
  · rw [toInt?_digits hne hs fun _ => hlength]
    dsimp only [bind, Except.bind, pure, Except.pure]
    by_cases hlt : valueIn 10 host < 2 ^ 32
    · have hrange : 0 ≤ (valueIn 10 host : ℤ) ∧ (valueIn 10 host : ℤ) ≤ 4294967295 := by omega
      rw [if_pos hrange, if_pos ⟨hlength, hlt⟩]
      rfl
    · have hrange : ¬(0 ≤ (valueIn 10 host : ℤ) ∧ (valueIn 10 host : ℤ) ≤ 4294967295) := by omega
      rw [if_neg hrange, if_neg fun h => hlt h.2]
      rfl
  · rw [toInt?_of_long hs hlength, if_neg fun h => hlength h.1]
    rfl

/-- One number in decimal or hexadecimal is read as `inet_aton` reads it. -/
theorem tryParseIp_of_single (h : inetAton? host = some n) (hdot : '.' ∉ host)
    (hform : IsHex host ∨ host = ['0'] ∨ host.head? ≠ some '0') :
    tryParseIp host = some (.v4 n) := by
  obtain ⟨hnumber, hlt⟩ := form_of_single h hdot
  cases hnumber with
  | hex x s hx hne hs =>
      have hdecimal : ¬('0' :: x :: s ≠ [] ∧ ('0' :: x :: s).all isDecimal = true) := by
        rintro ⟨-, hall⟩
        have hdigit := List.all_eq_true.mp hall x (by simp)
        rw [List.mem_cons, List.mem_singleton] at hx
        rcases hx with rfl | rfl
        · exact absurd hdigit (by decide)
        · exact absurd hdigit (by decide)
      have hprefix : "0x".toList <+: '0' :: x :: s ∨ "0X".toList <+: '0' :: x :: s := by
        rw [List.mem_cons, List.mem_singleton] at hx
        rcases hx with rfl | rfl
        · exact .inl ⟨s, rfl⟩
        · exact .inr ⟨s, rfl⟩
      rw [tryParseIp_of_plain (plain_of_inetAton? h), (ipv4?_of_single hdot).1, Option.none_or,
        parseNumeric, parseWhole, if_neg hdecimal, if_pos hprefix, toInt?_hex hx hne hs]
      dsimp only [bind, Except.bind, pure, Except.pure]
      rw [if_pos (by omega)]
      rfl
  | octal c s hs =>
      rcases hform with ⟨x, hx, t, ht⟩ | hzero | hhead
      · cases ht
        have hdigit := isDigitIn_ne (d := c) (hs c (by simp)) (by simp at hx ⊢; tauto)
        exact absurd rfl hdigit
      · cases hzero
      · exact absurd rfl hhead
  | decimal _ hne hzero hs =>
      have hlength := length_le_of_lt (k := 10) hne hzero hs (by omega) (by decide)
      have hshort : host.length ≤ maxStrDigits := by
        rw [maxStrDigits]
        omega
      rw [tryParseIp_of_digits hne hs, if_pos ⟨hshort, hlt⟩]

/-- One number behind a zero is read in decimal, if it is short and small. -/
theorem tryParseIp_of_octal {s : Text} {c : Char} (h : inetAton? ('0' :: c :: s) = some n)
    (hdot : '.' ∉ '0' :: c :: s) (hc : c ∉ ['x', 'X']) :
    tryParseIp ('0' :: c :: s) =
      if ('0' :: c :: s).length ≤ maxStrDigits ∧ valueIn 10 ('0' :: c :: s) < 2 ^ 32 then
        some (.v4 (valueIn 10 ('0' :: c :: s)))
      else none := by
  apply tryParseIp_of_digits (List.cons_ne_nil _ _)
  generalize hhost : '0' :: c :: s = host at h hdot
  cases (form_of_single h hdot).1 with
  | hex x t hx hne ht =>
      cases hhost
      exact absurd hx hc
  | octal d t ht =>
      cases hhost
      intro e he
      rcases List.mem_cons.mp he with rfl | he
      · decide
      · exact isDigitIn_mono (ht e he) (by decide)
  | decimal _ hne hzero ht => exact ht

end Readings

end SmartMedia.Urls
