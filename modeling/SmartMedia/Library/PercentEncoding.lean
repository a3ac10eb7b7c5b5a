import Mathlib.Data.List.Chain
import Mathlib.Data.List.SplitBy
import Mathlib.Tactic.IntervalCases

/-!
# Percent-encoding

Texts are lists of characters. `quote` writes the UTF-8 octets of the characters outside a
safe set as `%XX`; `unquote` reads such escapes in the ASCII parts of a text and decodes
what it gets as UTF-8, with U+FFFD for each maximal part of an ill-formed sequence. What
has been quoted is read back whenever the percent sign is not in the safe set.
-/
namespace PercentEncoding

/-- The upper case hexadecimal digit. -/
def hexDigit (n : ℕ) : Char := if n < 10 then Char.ofNat (48 + n) else Char.ofNat (55 + n)

/-- The value of a hexadecimal digit of either case. -/
def hexValue (c : Char) : Option ℕ :=
  let n := c.toNat
  if 48 ≤ n ∧ n ≤ 57 then some (n - 48)
  else if 65 ≤ n ∧ n ≤ 70 then some (n - 55)
  else if 97 ≤ n ∧ n ≤ 102 then some (n - 87)
  else none

def escapeByte (b : UInt8) : List Char := ['%', hexDigit (b.toNat / 16), hexDigit (b.toNat % 16)]

def isAscii (c : Char) : Bool := c.toNat < 128

/-- An octet that is an ASCII character of the safe set stands for itself. -/
def quoteByte (safe : Char → Bool) (b : UInt8) : List Char :=
  if b.toNat < 128 ∧ safe (Char.ofNat b.toNat) = true then [Char.ofNat b.toNat] else escapeByte b

def quote (safe : Char → Bool) (text : List Char) : List Char :=
  text.flatMap fun c => (String.utf8EncodeChar c).flatMap (quoteByte safe)

/-- The octets of an ASCII text, with its escapes resolved. -/
def unquoteToBytes : List Char → List UInt8
  | [] => []
  | [c] => [UInt8.ofNat c.toNat]
  | [c, d] => [UInt8.ofNat c.toNat, UInt8.ofNat d.toNat]
  | c :: d :: e :: rest =>
      match if c = '%' then hexValue d else none, hexValue e with
      | some high, some low => UInt8.ofNat (16 * high + low) :: unquoteToBytes rest
      | _, _ => UInt8.ofNat c.toNat :: unquoteToBytes (d :: e :: rest)

/-- The octets that may follow the first one of a sequence. -/
def secondRange (b : ℕ) : ℕ × ℕ :=
  if b = 0xe0 then (0xa0, 0xbf)
  else if b = 0xed then (0x80, 0x9f)
  else if b = 0xf0 then (0x90, 0xbf)
  else if b = 0xf4 then (0x80, 0x8f)
  else (0x80, 0xbf)

def isTail (b : UInt8) : Bool := 0x80 ≤ b.toNat && b.toNat ≤ 0xbf

/-- How much of an ill-formed sequence one U+FFFD replaces. -/
def illFormedLength : List UInt8 → ℕ
  | [] => 1
  | first :: rest =>
      let range := secondRange first.toNat
      let second := rest.head?.any fun b => range.1 ≤ b.toNat && b.toNat ≤ range.2
      if first.toNat < 0xe0 ∨ 0xf4 < first.toNat ∨ second = false then 1
      else if first.toNat < 0xf0 then 2
      else if rest.tail.head?.any isTail then 3 else 2

/-- `bytes.decode("utf-8", "replace")`; the number counts the octets still to be passed. -/
def decodeUtf8 : ℕ → List UInt8 → List Char
  | _, [] => []
  | skip + 1, _ :: bytes => decodeUtf8 skip bytes
  | 0, first :: bytes =>
      match (first :: bytes).toByteArray.utf8DecodeChar? 0 with
      | some c => c :: decodeUtf8 (c.utf8Size - 1) bytes
      | none => '\ufffd' :: decodeUtf8 (illFormedLength (first :: bytes) - 1) bytes

/-- Escapes are resolved within each run of ASCII characters. -/
def unquote (text : List Char) : List Char :=
  (text.splitBy fun a b => isAscii a == isAscii b).flatMap fun run =>
    if run.all isAscii then decodeUtf8 0 (unquoteToBytes run) else run

section Digits

theorem hexDigit_isAscii {n : ℕ} (h : n < 16) : isAscii (hexDigit n) = true := by
  interval_cases n <;> rfl

theorem hexValue_hexDigit {n : ℕ} (h : n < 16) : hexValue (hexDigit n) = some n := by
  interval_cases n <;> rfl

end Digits

theorem toNat_ofNat_ascii {n : ℕ} (h : n < 128) : (Char.ofNat n).toNat = n := by
  have hvalid : n.isValidChar := .inl (by omega)
  rw [Char.ofNat, dif_pos hvalid]
  rfl

section Octets
variable {safe : Char → Bool} {rest : List Char}

/-- An escape is read as its octet. -/
theorem unquoteToBytes_escapeByte (b : UInt8) :
    unquoteToBytes (escapeByte b ++ rest) = b :: unquoteToBytes rest := by
  have hb : b.toNat < 256 := UInt8.toNat_lt_size b
  have hvalue : UInt8.ofNat (16 * (b.toNat / 16) + b.toNat % 16) = b := by
    rw [Nat.div_add_mod]
    exact UInt8.ofNat_toNat
  rw [escapeByte, List.cons_append, List.cons_append, List.cons_append, List.nil_append,
    unquoteToBytes]
  simp only [if_pos, hexValue_hexDigit (show b.toNat / 16 < 16 by omega),
    hexValue_hexDigit (show b.toNat % 16 < 16 by omega), hvalue]

/-- A character that begins no escape is read as itself. -/
theorem unquoteToBytes_cons {c : Char} (h : c ≠ '%') :
    unquoteToBytes (c :: rest) = UInt8.ofNat c.toNat :: unquoteToBytes rest := by
  match rest with
  | [] => rfl
  | [d] => rfl
  | d :: e :: rest => rw [unquoteToBytes]; simp [h]

theorem unquoteToBytes_quoteByte (hsafe : safe '%' = false) (b : UInt8) :
    unquoteToBytes (quoteByte safe b ++ rest) = b :: unquoteToBytes rest := by
  rw [quoteByte]
  split
  · next h =>
      have hne : Char.ofNat b.toNat ≠ '%' := by
        intro he
        rw [he, hsafe] at h
        exact absurd h.2 Bool.false_ne_true
      rw [List.singleton_append, unquoteToBytes_cons hne, toNat_ofNat_ascii h.1]
      rw [UInt8.ofNat_toNat]
  · exact unquoteToBytes_escapeByte b

theorem unquoteToBytes_quoteBytes (hsafe : safe '%' = false) (bytes : List UInt8) :
    unquoteToBytes (bytes.flatMap (quoteByte safe) ++ rest) = bytes ++ unquoteToBytes rest := by
  induction bytes with
  | nil => rfl
  | cons b bytes ih =>
      rw [List.flatMap_cons, List.append_assoc, unquoteToBytes_quoteByte hsafe, ih, List.cons_append]

theorem unquoteToBytes_quote (hsafe : safe '%' = false) (text : List Char) :
    unquoteToBytes (quote safe text) = text.flatMap String.utf8EncodeChar := by
  induction text with
  | nil => rfl
  | cons c text ih =>
      rw [quote, List.flatMap_cons, unquoteToBytes_quoteBytes hsafe, List.flatMap_cons]
      exact congrArg _ ih

end Octets

section Characters

theorem decodeUtf8_skip {bytes : List UInt8} (front : List UInt8) :
    decodeUtf8 front.length (front ++ bytes) = decodeUtf8 0 bytes := by
  induction front with
  | nil => rfl
  | cons b front ih => exact ih

theorem decodeUtf8_encode (c : Char) (bytes : List UInt8) :
    decodeUtf8 0 (String.utf8EncodeChar c ++ bytes) = c :: decodeUtf8 0 bytes := by
  have hdecode : (String.utf8EncodeChar c ++ bytes).toByteArray.utf8DecodeChar? 0 = some c := by
    rw [List.toByteArray_append]
    exact ByteArray.utf8DecodeChar?_utf8EncodeChar_append
  have hlength := String.length_utf8EncodeChar c
  cases hencode : String.utf8EncodeChar c with
  | nil =>
      have hpos : 0 < c.utf8Size := Char.utf8Size_pos c
      rw [hencode, List.length_nil] at hlength
      omega
  | cons first front =>
      rw [hencode, List.length_cons] at hlength
      rw [hencode, List.cons_append] at hdecode
      have hsize : c.utf8Size - 1 = front.length := by omega
      rw [List.cons_append, decodeUtf8, hdecode]
      change c :: decodeUtf8 (c.utf8Size - 1) (front ++ bytes) = _
      rw [hsize, decodeUtf8_skip]

theorem decodeUtf8_encodeAll (text : List Char) :
    decodeUtf8 0 (text.flatMap String.utf8EncodeChar) = text := by
  induction text with
  | nil => rfl
  | cons c text ih => rw [List.flatMap_cons, decodeUtf8_encode, ih]

theorem quoteByte_isAscii {safe : Char → Bool} {b : UInt8} {c : Char} (h : c ∈ quoteByte safe b) :
    isAscii c = true := by
  have hb : b.toNat < 256 := UInt8.toNat_lt_size b
  rw [quoteByte] at h
  split at h
  · next hsafe =>
      rw [List.mem_singleton.mp h, isAscii, toNat_ofNat_ascii hsafe.1]
      exact decide_eq_true hsafe.1
  · simp only [escapeByte, List.mem_cons, List.not_mem_nil, or_false] at h
    rcases h with rfl | rfl | rfl
    · rfl
    · exact hexDigit_isAscii (by omega)
    · exact hexDigit_isAscii (by omega)

theorem quote_isAscii {safe : Char → Bool} {text : List Char} {c : Char} (h : c ∈ quote safe text) :
    isAscii c = true := by
  rw [quote, List.mem_flatMap] at h
  obtain ⟨d, -, hbytes⟩ := h
  obtain ⟨b, -, hbyte⟩ := List.mem_flatMap.mp hbytes
  exact quoteByte_isAscii hbyte

/-- An ASCII text is one run. -/
theorem unquote_ascii {text : List Char} (h : ∀ c ∈ text, isAscii c = true) :
    unquote text = decodeUtf8 0 (unquoteToBytes text) := by
  cases text with
  | nil => rfl
  | cons c text =>
      have hall : (c :: text).all isAscii = true := List.all_eq_true.mpr h
      have hrun : (c :: text).splitBy (fun a b => isAscii a == isAscii b) = [c :: text] := by
        apply List.splitBy_of_isChain (List.cons_ne_nil c text)
        apply List.Pairwise.isChain
        apply List.pairwise_of_forall_mem_list
        intro a ha b hb
        rw [h a ha, h b hb]
        rfl
      rw [unquote, hrun, List.flatMap_singleton, if_pos hall]

/-- What has been quoted is read back. -/
theorem unquote_quote {safe : Char → Bool} (hsafe : safe '%' = false) (text : List Char) :
    unquote (quote safe text) = text := by
  rw [unquote_ascii fun c hc => quote_isAscii hc, unquoteToBytes_quote hsafe, decodeUtf8_encodeAll]

/-- An octet below 128 encodes its own character. -/
theorem ofNat_of_mem_utf8EncodeChar {c : Char} {b : UInt8} (hb : b ∈ String.utf8EncodeChar c)
    (hascii : b.toNat < 128) : Char.ofNat b.toNat = c := by
  unfold String.utf8EncodeChar at hb
  simp only at hb
  split_ifs at hb with hone htwo hthree
  · have hvalue : b.toNat = c.toNat := by
      rw [List.mem_singleton.mp hb, UInt8.toNat_ofNat']
      exact Nat.mod_eq_of_lt (by omega)
    rw [hvalue, Char.ofNat_toNat]
  all_goals
    simp only [List.mem_cons, List.not_mem_nil, or_false] at hb
  · rcases hb with rfl | rfl <;> rw [UInt8.toNat_ofNat'] at hascii <;> omega
  · rcases hb with rfl | rfl | rfl <;> rw [UInt8.toNat_ofNat'] at hascii <;> omega
  · rcases hb with rfl | rfl | rfl | rfl <;> rw [UInt8.toNat_ofNat'] at hascii <;> omega

/-- A character that a quoted text contains is the percent sign, an upper case digit, or a safe
one of the text. -/
theorem quote_mem {safe : Char → Bool} {text : List Char} {c : Char} (h : c ∈ quote safe text) :
    c = '%' ∨ (∃ n, n < 16 ∧ c = hexDigit n) ∨ safe c = true ∧ c ∈ text := by
  rw [quote, List.mem_flatMap] at h
  obtain ⟨d, hd, hbytes⟩ := h
  obtain ⟨b, hbyte, hquoted⟩ := List.mem_flatMap.mp hbytes
  have hb : b.toNat < 256 := UInt8.toNat_lt_size b
  rw [quoteByte] at hquoted
  split at hquoted
  · next hsafe =>
      obtain rfl := ofNat_of_mem_utf8EncodeChar hbyte hsafe.1
      rw [List.mem_singleton.mp hquoted]
      exact .inr (.inr ⟨hsafe.2, hd⟩)
  · simp only [escapeByte, List.mem_cons, List.not_mem_nil, or_false] at hquoted
    rcases hquoted with rfl | rfl | rfl
    · exact .inl rfl
    · exact .inr (.inl ⟨_, by omega, rfl⟩)
    · exact .inr (.inl ⟨_, by omega, rfl⟩)

theorem quote_append {safe : Char → Bool} (front back : List Char) :
    quote safe (front ++ back) = quote safe front ++ quote safe back :=
  List.flatMap_append

/-- Safe characters stand for themselves. -/
theorem quote_of_safe {safe : Char → Bool} {text : List Char}
    (h : ∀ c ∈ text, isAscii c = true ∧ safe c = true) : quote safe text = text := by
  induction text with
  | nil => rfl
  | cons c text ih =>
      obtain ⟨hascii, hsafe⟩ := h c List.mem_cons_self
      have hlt : c.toNat < 128 := of_decide_eq_true hascii
      have hencode : String.utf8EncodeChar c = [UInt8.ofNat c.toNat] :=
        if_pos (show c.toNat ≤ 0x7f by omega)
      have hvalue : (UInt8.ofNat c.toNat).toNat = c.toNat := by
        rw [UInt8.toNat_ofNat']
        exact Nat.mod_eq_of_lt (by omega)
      have hbyte : quoteByte safe (UInt8.ofNat c.toNat) = [c] := by
        rw [quoteByte, hvalue, Char.ofNat_toNat, if_pos ⟨hlt, hsafe⟩]
      have hrest := ih fun d hd => h d (List.mem_cons_of_mem c hd)
      rw [quote] at hrest
      rw [quote, List.flatMap_cons, hencode, List.flatMap_singleton, hbyte, hrest]
      rfl

theorem quoteByte_ne_nil (safe : Char → Bool) (b : UInt8) : quoteByte safe b ≠ [] := by
  rw [quoteByte]
  split
  · exact List.cons_ne_nil _ _
  · exact List.cons_ne_nil _ _

theorem quote_ne_nil {safe : Char → Bool} {text : List Char} (h : text ≠ []) :
    quote safe text ≠ [] := by
  intro hnil
  cases text with
  | nil => exact h rfl
  | cons c text =>
      rw [quote, List.flatMap_cons, List.append_eq_nil_iff, List.flatMap_eq_nil_iff] at hnil
      have hlength := String.length_utf8EncodeChar c
      have hpos : 0 < c.utf8Size := Char.utf8Size_pos c
      cases hencode : String.utf8EncodeChar c with
      | nil =>
          rw [hencode, List.length_nil] at hlength
          omega
      | cons b bytes =>
          have hb := hnil.1 b (hencode ▸ List.mem_cons_self)
          exact absurd hb (quoteByte_ne_nil safe b)

end Characters

end PercentEncoding
