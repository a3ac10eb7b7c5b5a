import Mathlib.Order.Nat
import SmartMedia.Library.Document
import SmartMedia.Library.PercentEncoding

/-!
# JSON texts

`dumps` and `loads` of Python's `json`, with their default options. A text is a list of characters;
the strings in a value are lists of code points, for an escape can name a surrogate that stands
alone. A number is kept as it is written.
-/
namespace Json
open PercentEncoding

inductive Scalar
  | null
  | bool (value : Bool)
  | number (literal : List Char)
  | string (points : List ℕ)
  deriving DecidableEq, Repr

abbrev Value := Document (List ℕ) Scalar

/-- A text as a string in a value. -/
def points (text : List Char) : List ℕ := text.map Char.toNat

section Strings

def hexDigits : List Char := "0123456789abcdef".toList

def hex4 (n : ℕ) : List Char :=
  [n / 4096 % 16, n / 256 % 16, n / 16 % 16, n % 16].map fun digit => hexDigits.getD digit '0'

def hex4? (a b c d : Char) : Option ℕ := do
  return (← hexValue a) * 4096 + (← hexValue b) * 256 + (← hexValue c) * 16 + (← hexValue d)

/-- The characters with an escape of their own. -/
def escapes : List (Char × ℕ) :=
  [('"', 34), ('\\', 92), ('b', 8), ('f', 12), ('n', 10), ('r', 13), ('t', 9)]

def escape? (c : Char) : Option ℕ := if c = '/' then some 47 else escapes.lookup c

/-- A code point as `ensure_ascii` writes it. -/
def escape (point : ℕ) : List Char :=
  match escapes.find? (·.2 = point) with
  | some (c, _) => ['\\', c]
  | none =>
      if 32 ≤ point ∧ point ≤ 126 then [Char.ofNat point]
      else if point < 0x10000 then '\\' :: 'u' :: hex4 point
      else
        '\\' :: 'u' :: hex4 (0xd800 + (point - 0x10000) / 0x400) ++
          '\\' :: 'u' :: hex4 (0xdc00 + (point - 0x10000) % 0x400)

def quote (text : List ℕ) : List Char := '"' :: (text.flatMap escape ++ ['"'])

def isHigh (unit : ℕ) : Bool := 0xd800 ≤ unit ∧ unit ≤ 0xdbff

def isLow (unit : ℕ) : Bool := 0xdc00 ≤ unit ∧ unit ≤ 0xdfff

/-- An escaped unit before the rest of its string; a high surrogate takes a low one with it. -/
def joinUnit (unit : ℕ) : List ℕ → List ℕ
  | [] => [unit]
  | next :: rest =>
      if isHigh unit ∧ isLow next then (0x10000 + (unit - 0xd800) * 0x400 + (next - 0xdc00)) :: rest
      else unit :: next :: rest

/-- The string after its opening quote, and the text after it. -/
def scanString : List Char → Option (List ℕ × List Char)
  | [] => none
  | c :: rest =>
      if c = '"' then some ([], rest)
      else if c = '\\' then
        match rest with
        | [] => none
        | e :: rest =>
            if e = 'u' then
              match rest with
              | a :: b :: c :: d :: rest =>
                  (hex4? a b c d).bind fun unit =>
                    (scanString rest).map fun (text, rest) => (joinUnit unit text, rest)
              | _ => none
            else
              (escape? e).bind fun point =>
                (scanString rest).map fun (text, rest) => (point :: text, rest)
      else if c.toNat < 32 then none
      else (scanString rest).map fun (text, rest) => (c.toNat :: text, rest)

end Strings

section Parser

/-- `JSONDecodeError`, or the `ValueError` for an integer of more than 4300 digits. -/
inductive LoadsError
  | decode
  | digits
  deriving DecidableEq, Repr

def isSpace (c : Char) : Bool := c ∈ [' ', '\t', '\n', '\r']

def skip (text : List Char) : List Char := text.dropWhile isSpace

/-- The literals of the language, and those that Python knows beside them. -/
def literals : List (List Char × Scalar) :=
  [("null".toList, .null), ("true".toList, .bool true), ("false".toList, .bool false),
    ("NaN".toList, .number "NaN".toList), ("Infinity".toList, .number "Infinity".toList),
    ("-Infinity".toList, .number "-Infinity".toList)]

def scanDigits (text : List Char) : List Char × List Char :=
  (text.takeWhile Char.isDigit, text.dropWhile Char.isDigit)

def scanSign (signs : List Char) : List Char → List Char × List Char
  | [] => ([], [])
  | c :: rest => if c ∈ signs then ([c], rest) else ([], c :: rest)

/-- `0|[1-9]\d*`. -/
def scanInteger : List Char → Option (List Char × List Char)
  | [] => none
  | c :: rest =>
      if c = '0' then some (['0'], rest)
      else if c.isDigit then some (c :: (scanDigits rest).1, (scanDigits rest).2)
      else none

/-- `(\.\d+)?`. -/
def scanFraction : List Char → List Char × List Char
  | '.' :: rest =>
      if (scanDigits rest).1 = [] then ([], '.' :: rest)
      else ('.' :: (scanDigits rest).1, (scanDigits rest).2)
  | text => ([], text)

/-- `([eE][-+]?\d+)?`. -/
def scanExponent : List Char → List Char × List Char
  | [] => ([], [])
  | e :: rest =>
      let (sign, unsigned) := scanSign ['-', '+'] rest
      if (e = 'e' ∨ e = 'E') ∧ (scanDigits unsigned).1 ≠ [] then
        (e :: sign ++ (scanDigits unsigned).1, (scanDigits unsigned).2)
      else ([], e :: rest)

/-- A number at the beginning of a text. -/
def scanNumber (text : List Char) : Except LoadsError (List Char × List Char) :=
  let (sign, unsigned) := scanSign ['-'] text
  match scanInteger unsigned with
  | none => .error .decode
  | some (integer, rest) =>
      let (fraction, rest) := scanFraction rest
      let (exponent, rest) := scanExponent rest
      if fraction = [] ∧ exponent = [] ∧ 4300 < integer.length then .error .digits
      else .ok (sign ++ integer ++ fraction ++ exponent, rest)

/-- `dict(pairs)`. -/
def ofPairs (pairs : List (List ℕ × Value)) : Value :=
  .dict (pairs.foldl (fun entries pair => Document.setEntry pair.1 pair.2 entries) [])

/-- The error that stands for the end of the fuel, which `loads` never comes to. -/
abbrev Scan := Except (Option LoadsError)

def fail {α : Type} : Scan α := .error (some .decode)

mutual

/-- The value at the beginning of a text. -/
def scanValue : ℕ → List Char → Scan (Value × List Char)
  | 0, _ => .error none
  | _ + 1, [] => fail
  | fuel + 1, c :: rest =>
      if c = '"' then
        match scanString rest with
        | none => fail
        | some (text, rest) => .ok (.scalar (.string text), rest)
      else if c = '{' then
        match skip rest with
        | '}' :: rest => .ok (.dict [], rest)
        | rest => (scanMembers fuel rest).map fun (pairs, rest) => (ofPairs pairs, rest)
      else if c = '[' then
        match skip rest with
        | ']' :: rest => .ok (.list [], rest)
        | rest => (scanItems fuel rest).map fun (items, rest) => (.list items, rest)
      else
        match literals.find? (·.1 <+: c :: rest) with
        | some (literal, value) => .ok (.scalar value, (c :: rest).drop literal.length)
        | none =>
            match scanNumber (c :: rest) with
            | .error e => .error (some e)
            | .ok (literal, rest) => .ok (.scalar (.number literal), rest)

/-- The members of an object, from the first key on, with its closing brace. -/
def scanMembers : ℕ → List Char → Scan (List (List ℕ × Value) × List Char)
  | 0, _ => .error none
  | fuel + 1, '"' :: rest =>
      match scanString rest with
      | none => fail
      | some (key, rest) =>
          match skip rest with
          | ':' :: rest => do
              let (value, rest) ← scanValue fuel (skip rest)
              match skip rest with
              | ',' :: rest =>
                  let (pairs, rest) ← scanMembers fuel (skip rest)
                  return ((key, value) :: pairs, rest)
              | '}' :: rest => return ([(key, value)], rest)
              | _ => fail
          | _ => fail
  | _ + 1, _ => fail

/-- The items of an array, with its closing bracket. -/
def scanItems : ℕ → List Char → Scan (List Value × List Char)
  | 0, _ => .error none
  | fuel + 1, text => do
      let (value, rest) ← scanValue fuel text
      match skip rest with
      | ',' :: rest =>
          let (items, rest) ← scanItems fuel (skip rest)
          return (value :: items, rest)
      | ']' :: rest => return ([value], rest)
      | _ => fail

end

end Parser

section Progress
variable {α β : Type} {n m : ℕ}

/-- A scan ends before the `n`-th last character of its text, or in an error of the language. -/
def Progress (n : ℕ) : Scan (α × List Char) → Prop
  | .ok (_, rest) => rest.length < n
  | .error e => e ≠ none

theorem progress_fail : Progress n (fail : Scan (α × List Char)) := nofun

theorem Progress.bind {x : Scan (α × List Char)} {f : α × List Char → Scan (β × List Char)}
    (hx : Progress n x) (hf : ∀ a rest, rest.length < n → Progress m (f (a, rest))) :
    Progress m (x >>= f) := by
  cases x with
  | error e => exact hx
  | ok result => exact hf result.1 result.2 hx

theorem Progress.map {x : Scan (α × List Char)} {f : α → β} (hx : Progress n x) (h : n ≤ m) :
    Progress m (x.map fun (a, rest) => (f a, rest)) := by
  cases x with
  | error e => exact hx
  | ok result => exact Nat.lt_of_lt_of_le hx h

theorem skip_length_le (text : List Char) : (skip text).length ≤ text.length :=
  (List.dropWhile_suffix _).length_le

theorem scanString_length {text rest : List Char} {string : List ℕ}
    (h : scanString text = some (string, rest)) : rest.length < text.length := by
  fun_induction scanString text generalizing string with
  | case1 => cases h
  | case2 =>
      cases h
      exact Nat.lt_succ_self _
  | case3 => cases h
  | case4 a b c d text hslash ih =>
      obtain ⟨unit, -, hunit⟩ := Option.bind_eq_some_iff.mp h
      obtain ⟨⟨string', rest'⟩, htext, hresult⟩ := Option.map_eq_some_iff.mp hunit
      cases hresult
      have hlt := ih htext
      simp only [List.length_cons]
      omega
  | case5 => cases h
  | case6 e text hu hslash ih =>
      obtain ⟨point, -, hpoint⟩ := Option.bind_eq_some_iff.mp h
      obtain ⟨⟨string', rest'⟩, htext, hresult⟩ := Option.map_eq_some_iff.mp hpoint
      cases hresult
      have hlt := ih htext
      simp only [List.length_cons]
      omega
  | case7 => cases h
  | case8 c text hquote hslash hcontrol ih =>
      obtain ⟨⟨string', rest'⟩, htext, hresult⟩ := Option.map_eq_some_iff.mp h
      cases hresult
      exact Nat.lt_succ_of_lt (ih htext)

theorem scanDigits_length_le (text : List Char) : (scanDigits text).2.length ≤ text.length :=
  (List.dropWhile_suffix _).length_le

theorem scanSign_length_le (signs text : List Char) : (scanSign signs text).2.length ≤ text.length := by
  cases text with
  | nil => exact le_rfl
  | cons c rest =>
      rw [scanSign]
      split
      · exact Nat.le_succ _
      · exact le_rfl

theorem scanInteger_length {text rest integer : List Char}
    (h : scanInteger text = some (integer, rest)) : rest.length < text.length := by
  cases text with
  | nil => cases h
  | cons c text =>
      rw [scanInteger] at h
      split_ifs at h with hzero hdigit
      · cases h
        exact Nat.lt_succ_self _
      · cases h
        exact Nat.lt_succ_of_le (scanDigits_length_le text)

theorem scanFraction_length_le (text : List Char) : (scanFraction text).2.length ≤ text.length := by
  unfold scanFraction
  split
  next rest =>
    split
    · exact le_rfl
    · exact Nat.le_succ_of_le (scanDigits_length_le rest)
  next => exact le_rfl

theorem scanExponent_length_le (text : List Char) : (scanExponent text).2.length ≤ text.length := by
  cases text with
  | nil => exact le_rfl
  | cons e rest =>
      rw [scanExponent]
      dsimp only
      split
      · exact Nat.le_succ_of_le ((scanDigits_length_le _).trans (scanSign_length_le _ rest))
      · exact le_rfl

theorem scanNumber_length {text rest literal : List Char}
    (h : scanNumber text = .ok (literal, rest)) : rest.length < text.length := by
  rw [scanNumber] at h
  dsimp only at h
  split at h
  · cases h
  next integer rest' hinteger =>
    split at h
    · cases h
    · cases h
      exact ((scanExponent_length_le _).trans (scanFraction_length_le _)).trans_lt
        ((scanInteger_length hinteger).trans_le (scanSign_length_le _ text))

theorem literal_length {literal : List Char} {value : Scalar} (h : (literal, value) ∈ literals) :
    0 < literal.length := by
  simp only [literals, List.mem_cons, Prod.mk.injEq, List.not_mem_nil, or_false] at h
  rcases h with ⟨rfl, -⟩ | ⟨rfl, -⟩ | ⟨rfl, -⟩ | ⟨rfl, -⟩ | ⟨rfl, -⟩ | ⟨rfl, -⟩ <;> decide

section Fuel
variable {fuel : ℕ} {text : List Char}

theorem scanValue_progress
    (hmembers : ∀ text : List Char, 2 * text.length + 1 < fuel →
      Progress text.length (scanMembers fuel text))
    (hitems : ∀ text : List Char, 2 * text.length + 1 < fuel →
      Progress text.length (scanItems fuel text))
    (hfuel : 2 * text.length < fuel + 1) : Progress text.length (scanValue (fuel + 1) text) := by
  cases text with
  | nil => exact progress_fail
  | cons c rest =>
      have hskip := skip_length_le rest
      rw [List.length_cons] at hfuel ⊢
      rw [scanValue]
      split_ifs
      · split
        · exact progress_fail
        next string rest' hstring => exact Nat.lt_succ_of_lt (scanString_length hstring)
      · split
        next rest' hrest =>
          rw [hrest, List.length_cons] at hskip
          exact Nat.lt_succ_of_lt hskip
        · exact (hmembers _ (by omega)).map (by omega)
      · split
        next rest' hrest =>
          rw [hrest, List.length_cons] at hskip
          exact Nat.lt_succ_of_lt hskip
        · exact (hitems _ (by omega)).map (by omega)
      · split
        next literal value hfind =>
          have hpos := literal_length (List.mem_of_find?_eq_some hfind)
          rw [Progress, List.length_drop, List.length_cons]
          omega
        next =>
          split
          · exact nofun
          next literal rest' hnumber => exact scanNumber_length hnumber

theorem scanMembers_progress
    (hvalue : ∀ text : List Char, 2 * text.length < fuel → Progress text.length (scanValue fuel text))
    (hmembers : ∀ text : List Char, 2 * text.length + 1 < fuel →
      Progress text.length (scanMembers fuel text))
    (hfuel : 2 * text.length + 1 < fuel + 1) :
    Progress text.length (scanMembers (fuel + 1) text) := by
  unfold scanMembers
  split
  next hzero => cases hzero
  next fuel' rest hfuel' =>
    obtain rfl := Nat.succ.inj hfuel'
    rw [List.length_cons] at hfuel ⊢
    split
    · exact progress_fail
    next key rest' hkey =>
      have hlength := scanString_length hkey
      have hskip := skip_length_le rest'
      split
      next rest'' hcolon =>
        rw [hcolon, List.length_cons] at hskip
        have hskip₂ := skip_length_le rest''
        refine (hvalue (skip rest'') (by omega)).bind fun value rest₁ hrest₁ => ?_
        have hskip₁ := skip_length_le rest₁
        dsimp only
        split
        next rest₂ hcomma =>
          rw [hcomma, List.length_cons] at hskip₁
          have hskip₃ := skip_length_le rest₂
          refine (hmembers (skip rest₂) (by omega)).bind fun pairs rest₃ hrest₃ => ?_
          change rest₃.length < _
          omega
        next rest₂ hbrace =>
          rw [hbrace, List.length_cons] at hskip₁
          change rest₂.length < _
          omega
        · exact progress_fail
      · exact progress_fail
  · exact progress_fail

theorem scanItems_progress
    (hvalue : ∀ text : List Char, 2 * text.length < fuel → Progress text.length (scanValue fuel text))
    (hitems : ∀ text : List Char, 2 * text.length + 1 < fuel →
      Progress text.length (scanItems fuel text))
    (hfuel : 2 * text.length + 1 < fuel + 1) :
    Progress text.length (scanItems (fuel + 1) text) := by
  rw [scanItems]
  refine (hvalue text (by omega)).bind fun value rest₁ hrest₁ => ?_
  have hskip₁ := skip_length_le rest₁
  dsimp only
  split
  next rest₂ hcomma =>
    rw [hcomma, List.length_cons] at hskip₁
    have hskip₂ := skip_length_le rest₂
    refine (hitems (skip rest₂) (by omega)).bind fun items rest₃ hrest₃ => ?_
    change rest₃.length < _
    omega
  next rest₂ hbracket =>
    rw [hbracket, List.length_cons] at hskip₁
    change rest₂.length < _
    omega
  · exact progress_fail

end Fuel

/-- Two units of fuel for a character are enough. -/
theorem scan_progress (fuel : ℕ) :
    (∀ text : List Char, 2 * text.length < fuel → Progress text.length (scanValue fuel text)) ∧
      (∀ text : List Char, 2 * text.length + 1 < fuel → Progress text.length (scanMembers fuel text)) ∧
        ∀ text : List Char, 2 * text.length + 1 < fuel → Progress text.length (scanItems fuel text) := by
  induction fuel with
  | zero => exact ⟨nofun, nofun, nofun⟩
  | succ fuel ih =>
      obtain ⟨hvalue, hmembers, hitems⟩ := ih
      exact ⟨fun _ => scanValue_progress hmembers hitems, fun _ => scanMembers_progress hvalue hmembers,
        fun _ => scanItems_progress hvalue hitems⟩

end Progress

section Loads

/-- `json.loads`. -/
def loads (text : List Char) : Except LoadsError Value :=
  if text.head? = some '\ufeff' then .error .decode
  else
    match h : scanValue (2 * (skip text).length + 1) (skip text) with
    | .ok (value, rest) => if skip rest = [] then .ok value else .error .decode
    | .error (some e) => .error e
    | .error none =>
        absurd rfl (by
          have hprogress := (scan_progress _).1 (skip text) (Nat.lt_succ_self _)
          rw [h] at hprogress
          exact hprogress)

theorem loads_of_scan {text rest : List Char} {value : Value} (hbom : text.head? ≠ some '\ufeff')
    (hscan : scanValue (2 * (skip text).length + 1) (skip text) = .ok (value, rest))
    (hrest : skip rest = []) : loads text = .ok value := by
  rw [loads, if_neg hbom]
  split
  next value' rest' h =>
    rw [hscan] at h
    cases h
    rw [if_pos hrest]
  next h =>
    rw [hscan] at h
    cases h
  next h =>
    rw [hscan] at h
    cases h

/-- What does not begin like a value is no JSON text. -/
theorem loads_of_fail {text : List Char}
    (hscan : scanValue (2 * (skip text).length + 1) (skip text) = fail) : loads text = .error .decode := by
  rw [loads]
  split
  · rfl
  · split
    next h =>
      rw [hscan] at h
      cases h
    next h =>
      rw [hscan] at h
      cases h
      rfl
    next h =>
      rw [hscan] at h
      cases h

end Loads

section Dumps

def Scalar.text : Scalar → List Char
  | .null => "null".toList
  | .bool true => "true".toList
  | .bool false => "false".toList
  | .number literal => literal
  | .string text => quote text

mutual

/-- `json.dumps`. -/
def dumps : Value → List Char
  | .scalar value => value.text
  | .list items => '[' :: (dumpItems items ++ [']'])
  | .dict entries => '{' :: (dumpMembers entries ++ ['}'])

def dumpItems : List Value → List Char
  | [] => []
  | [item] => dumps item
  | item :: next :: items => dumps item ++ ',' :: ' ' :: dumpItems (next :: items)

def dumpMembers : List (List ℕ × Value) → List Char
  | [] => []
  | [(key, value)] => quote key ++ ':' :: ' ' :: dumps value
  | (key, value) :: next :: entries =>
      quote key ++ ':' :: ' ' :: (dumps value ++ ',' :: ' ' :: dumpMembers (next :: entries))

end

/-- A code point of a character. -/
def IsPoint (point : ℕ) : Prop := point < 0x110000 ∧ ¬ (0xd800 ≤ point ∧ point ≤ 0xdfff)

theorem isPoint_toNat (c : Char) : IsPoint c.toNat := by
  obtain hlow | ⟨hhigh, hmax⟩ := c.valid
  · exact ⟨Nat.lt_trans hlow (by decide), fun hsurrogate => Nat.not_lt.mpr hsurrogate.1 hlow⟩
  · exact ⟨hmax, fun hsurrogate => Nat.not_lt.mpr hsurrogate.2 hhigh⟩

theorem isPoint_of_mem_points {text : List Char} {point : ℕ} (h : point ∈ points text) :
    IsPoint point := by
  obtain ⟨c, -, rfl⟩ := List.mem_map.mp h
  exact isPoint_toNat c

/-- A natural number that Python reads back. -/
def IsNatural (literal : List Char) : Prop :=
  (literal = ['0'] ∨
    ∃ c rest, literal = c :: rest ∧ c ≠ '0' ∧ c.isDigit = true ∧ ∀ d ∈ rest, d.isDigit = true) ∧
      literal.length ≤ 4300

def Scalar.Clean : Scalar → Prop
  | .null | .bool _ => True
  | .number literal => IsNatural literal
  | .string text => ∀ point ∈ text, IsPoint point

mutual

/-- Whole characters, natural numbers, and each key once. -/
def Clean : Value → Prop
  | .scalar value => value.Clean
  | .list items => CleanItems items
  | .dict entries => (entries.map Prod.fst).Nodup ∧ CleanMembers entries

def CleanItems : List Value → Prop
  | [] => True
  | item :: items => Clean item ∧ CleanItems items

def CleanMembers : List (List ℕ × Value) → Prop
  | [] => True
  | (key, value) :: entries => (∀ point ∈ key, IsPoint point) ∧ Clean value ∧ CleanMembers entries

end

/-- The text after a value in a text that `dumps` writes. -/
def Stops (rest : List Char) : Prop := ∀ c ∈ rest.head?, c ∈ [',', ']', '}']

end Dumps

section RoundTrip
variable {text rest : List Char} {n point : ℕ}

theorem hexValue_digit : ∀ digit < 16, hexValue (hexDigits.getD digit '0') = some digit := by
  decide

theorem scanString_unit (h : n < 0x10000) :
    scanString ('\\' :: 'u' :: (hex4 n ++ text)) =
      (scanString text).map fun (string, rest) => (joinUnit n string, rest) := by
  have hunit : hex4? (hexDigits.getD (n / 4096 % 16) '0') (hexDigits.getD (n / 256 % 16) '0')
      (hexDigits.getD (n / 16 % 16) '0') (hexDigits.getD (n % 16) '0') = some n := by
    simp only [hex4?, hexValue_digit _ (Nat.mod_lt _ (by decide : 16 > 0)), Option.bind_eq_bind,
      Option.bind_some, Option.pure_def, Option.some.injEq]
    omega
  simp only [hex4, List.map_cons, List.map_nil, List.cons_append, List.nil_append]
  rw [scanString, if_neg (by decide), if_pos rfl]
  simp only [if_pos, hunit, Option.bind_some]

theorem scanString_named {e : Char} (he : e ≠ 'u') (hpoint : escape? e = some point) :
    scanString ('\\' :: e :: text) =
      (scanString text).map fun (string, rest) => (point :: string, rest) := by
  rw [scanString.eq_def]
  simp [he, hpoint]

theorem scanString_close : scanString ('"' :: text) = some ([], text) := by
  rw [scanString.eq_def]
  exact if_pos rfl

theorem joinUnit_of_not_high (h : isHigh n = false) (string : List ℕ) :
    joinUnit n string = n :: string := by
  cases string with
  | nil => rfl
  | cons next rest => rw [joinUnit, h, if_neg (by simp)]

/-- What is written for a code point is read as the code point. -/
theorem scanString_escape (h : IsPoint point) :
    scanString (escape point ++ text) =
      (scanString text).map fun (string, rest) => (point :: string, rest) := by
  obtain ⟨hmax, hsurrogate⟩ := h
  rw [escape]
  split
  next c point' hfind =>
    have hmem := List.mem_of_find?_eq_some hfind
    obtain rfl : point' = point := by simpa using List.find?_some hfind
    simp only [escapes, List.mem_cons, Prod.mk.injEq, List.not_mem_nil, or_false] at hmem
    rcases hmem with ⟨rfl, rfl⟩ | ⟨rfl, rfl⟩ | ⟨rfl, rfl⟩ | ⟨rfl, rfl⟩ | ⟨rfl, rfl⟩ | ⟨rfl, rfl⟩ |
      ⟨rfl, rfl⟩ <;> exact scanString_named (by decide) rfl
  next hfind =>
    have hother : ∀ c q, (c, q) ∈ escapes → q ≠ point := fun c q hmem => by
      simpa using List.find?_eq_none.mp hfind (c, q) hmem
    split_ifs with hprintable hbasic
    · have hchar : (Char.ofNat point).toNat = point :=
        toNat_ofNat_ascii (by omega)
      have hquote : Char.ofNat point ≠ '"' := fun heq => hother '"' 34 (by decide) (by
        rw [← hchar, heq]
        rfl)
      have hslash : Char.ofNat point ≠ '\\' := fun heq => hother '\\' 92 (by decide) (by
        rw [← hchar, heq]
        rfl)
      rw [List.singleton_append, scanString.eq_def]
      simp only [if_neg hquote, if_neg hslash, hchar, if_neg (Nat.not_lt.mpr hprintable.1)]
    · have hhigh : isHigh point = false := by
        simp only [isHigh, decide_eq_false_iff_not]
        omega
      rw [List.cons_append, List.cons_append, scanString_unit hbasic]
      simp only [joinUnit_of_not_high hhigh]
    · rw [List.append_assoc]
      simp only [List.cons_append]
      rw [scanString_unit (by omega), scanString_unit (by omega)]
      cases scanString text with
      | none => rfl
      | some result =>
          have hhigh : isHigh (0xd800 + (point - 0x10000) / 0x400) = true := by
            simp only [isHigh, decide_eq_true_eq]
            omega
          have hlow : isLow (0xdc00 + (point - 0x10000) % 0x400) = true := by
            simp only [isLow, decide_eq_true_eq]
            omega
          have hnot : isHigh (0xdc00 + (point - 0x10000) % 0x400) = false := by
            simp only [isHigh, decide_eq_false_iff_not]
            omega
          simp only [Option.map_some, joinUnit_of_not_high hnot]
          rw [joinUnit, if_pos ⟨hhigh, hlow⟩]
          have hjoined : 0x10000 + (0xd800 + (point - 0x10000) / 0x400 - 0xd800) * 0x400 +
              (0xdc00 + (point - 0x10000) % 0x400 - 0xdc00) = point := by omega
          rw [hjoined]

theorem scanString_quote {string : List ℕ} (h : ∀ point ∈ string, IsPoint point) :
    scanString (string.flatMap escape ++ '"' :: text) = some (string, text) := by
  induction string with
  | nil => exact scanString_close
  | cons point string ih =>
      rw [List.flatMap_cons, List.append_assoc, scanString_escape (h point (List.mem_cons_self ..)),
        ih fun next hnext => h next (List.mem_cons_of_mem _ hnext)]
      rfl

theorem quote_append (string : List ℕ) (text : List Char) :
    quote string ++ text = '"' :: (string.flatMap escape ++ '"' :: text) := by
  rw [quote, List.cons_append, List.append_assoc]
  rfl

theorem skip_cons {c : Char} (h : isSpace c = false) (text : List Char) : skip (c :: text) = c :: text := by
  rw [skip, List.dropWhile_cons_of_neg (by rw [h]; exact Bool.false_ne_true)]

theorem digits_append {digits : List Char} (hdigits : ∀ d ∈ digits, d.isDigit = true)
    (hrest : ∀ c ∈ rest.head?, c.isDigit = false) : scanDigits (digits ++ rest) = (digits, rest) := by
  have hnone : rest.takeWhile Char.isDigit = [] ∧ rest.dropWhile Char.isDigit = rest := by
    cases rest with
    | nil => exact ⟨rfl, rfl⟩
    | cons c rest =>
        have hc := hrest c rfl
        exact ⟨List.takeWhile_cons_of_neg (by simp [hc]), List.dropWhile_cons_of_neg (by simp [hc])⟩
  rw [scanDigits, List.takeWhile_append_of_pos hdigits, List.dropWhile_append_of_pos hdigits, hnone.1,
    hnone.2, List.append_nil]

theorem Stops.head (h : Stops rest) :
    rest = [] ∨ ∃ c text, rest = c :: text ∧ (c = ',' ∨ c = ']' ∨ c = '}') := by
  cases rest with
  | nil => exact .inl rfl
  | cons c text => exact .inr ⟨c, text, rfl, by simpa using h c rfl⟩

theorem scanFraction_stops (h : Stops rest) : scanFraction rest = ([], rest) := by
  obtain rfl | ⟨c, text, rfl, rfl | rfl | rfl⟩ := h.head <;> rfl

theorem scanExponent_stops (h : Stops rest) : scanExponent rest = ([], rest) := by
  obtain rfl | ⟨c, text, rfl, hc⟩ := h.head
  · rfl
  · have hletter : ¬ (c = 'e' ∨ c = 'E') := by
      rcases hc with rfl | rfl | rfl <;> decide
    rw [scanExponent]
    exact if_neg fun hboth => hletter hboth.1

theorem scanNumber_natural {literal : List Char} (h : IsNatural literal) (hrest : Stops rest) :
    scanNumber (literal ++ rest) = .ok (literal, rest) := by
  obtain ⟨hdigits, hlength⟩ := h
  have hinteger : scanInteger (literal ++ rest) = some (literal, rest) := by
    obtain rfl | ⟨c, digits, rfl, hzero, hc, hdigits⟩ := hdigits
    · rfl
    · have hstop : ∀ d ∈ rest.head?, d.isDigit = false := by
        obtain rfl | ⟨d, text, rfl, hd⟩ := hrest.head
        · nofun
        · rintro _ ⟨⟩
          rcases hd with rfl | rfl | rfl <;> rfl
      rw [List.cons_append, scanInteger, if_neg hzero, if_pos hc, digits_append hdigits hstop]
  have hsign : scanSign ['-'] (literal ++ rest) = ([], literal ++ rest) := by
    obtain rfl | ⟨c, digits, rfl, -, hc, -⟩ := hdigits
    · rfl
    · rw [List.cons_append, scanSign]
      refine if_neg fun hmem => ?_
      obtain rfl := List.mem_singleton.mp hmem
      cases hc
  rw [scanNumber, hsign]
  dsimp only
  rw [hinteger]
  dsimp only
  rw [scanFraction_stops hrest]
  dsimp only
  rw [scanExponent_stops hrest]
  dsimp only
  rw [if_neg fun htoo => Nat.not_lt.mpr hlength htoo.2.2, List.nil_append, List.append_nil,
    List.append_nil]

/-- How a written value begins. -/
def Begins (c : Char) : Prop := isSpace c = false ∧ c ≠ ']' ∧ c ≠ '\ufeff'

theorem ne_of_isDigit {c d : Char} (hc : c.isDigit = true) (hd : d.isDigit = false) : c ≠ d := fun heq => by
  rw [heq, hd] at hc
  cases hc

theorem begins_of_isDigit {c : Char} (hc : c.isDigit = true) : Begins c := by
  refine ⟨?_, ne_of_isDigit hc rfl, ne_of_isDigit hc rfl⟩
  rw [isSpace, decide_eq_false_iff_not]
  intro hspace
  simp only [List.mem_cons, List.not_mem_nil, or_false] at hspace
  rcases hspace with h | h | h | h
  · exact ne_of_isDigit hc rfl h
  · exact ne_of_isDigit hc rfl h
  · exact ne_of_isDigit hc rfl h
  · exact ne_of_isDigit hc rfl h

theorem literals_heads : ∀ entry ∈ literals, entry.1.head?.map Char.isDigit = some false := by
  decide

theorem literals_find {c : Char} (hc : c.isDigit = true) (text : List Char) :
    literals.find? (·.1 <+: c :: text) = none := by
  rw [List.find?_eq_none]
  rintro ⟨literal, value⟩ hentry hprefix
  have hhead := literals_heads _ hentry
  cases literal with
  | nil => cases hhead
  | cons d literal =>
      obtain ⟨rfl, -⟩ := List.cons_prefix_cons.mp (of_decide_eq_true hprefix)
      exact ne_of_isDigit hc (Option.some.inj hhead) rfl

theorem dumps_begins {value : Value} (h : Clean value) : ∃ c text, dumps value = c :: text ∧ Begins c := by
  cases value with
  | scalar value =>
      cases value with
      | null => exact ⟨'n', _, rfl, rfl, by decide⟩
      | bool value =>
          cases value with
          | false => exact ⟨'f', _, rfl, rfl, by decide⟩
          | true => exact ⟨'t', _, rfl, rfl, by decide⟩
      | number literal =>
          have hnatural : IsNatural literal := h
          obtain rfl | ⟨c, digits, rfl, -, hc, -⟩ := hnatural.1
          · exact ⟨'0', _, rfl, rfl, by decide⟩
          · exact ⟨c, digits, rfl, begins_of_isDigit hc⟩
      | string string => exact ⟨'"', _, rfl, rfl, by decide⟩
  | list items => exact ⟨'[', _, rfl, rfl, by decide⟩
  | dict entries => exact ⟨'{', _, rfl, rfl, by decide⟩

theorem scanValue_scalar {value : Scalar} (h : value.Clean) (hrest : Stops rest) (fuel : ℕ) :
    scanValue (fuel + 1) (value.text ++ rest) = .ok (.scalar value, rest) := by
  cases value with
  | null => rfl
  | bool value =>
      cases value with
      | false => rfl
      | true => rfl
  | number literal =>
      have hnatural : IsNatural literal := h
      have hnumber := scanNumber_natural hnatural hrest
      obtain ⟨c, digits, rfl, hc⟩ : ∃ c digits, literal = c :: digits ∧ c.isDigit = true := by
        obtain rfl | ⟨c, digits, rfl, -, hc, -⟩ := hnatural.1
        · exact ⟨'0', [], rfl, rfl⟩
        · exact ⟨c, digits, rfl, hc⟩
      rw [Scalar.text, List.cons_append, scanValue, if_neg (ne_of_isDigit hc rfl),
        if_neg (ne_of_isDigit hc rfl), if_neg (ne_of_isDigit hc rfl), literals_find hc]
      dsimp only
      rw [← List.cons_append, hnumber]
  | string string =>
      rw [Scalar.text, quote_append, scanValue, if_pos rfl, scanString_quote h]

theorem setEntry_of_notMem {key : List ℕ} {value : Value} {entries : List (List ℕ × Value)}
    (h : key ∉ entries.map Prod.fst) :
    Document.setEntry key value entries = entries ++ [(key, value)] := by
  induction entries with
  | nil => rfl
  | cons entry entries ih =>
      obtain ⟨k, v⟩ := entry
      rw [List.map_cons, List.mem_cons, not_or] at h
      rw [Document.setEntry, if_neg (Ne.symm h.1), ih h.2]
      rfl

/-- Pairs with different keys are the entries of their dictionary. -/
theorem ofPairs_eq {pairs : List (List ℕ × Value)} (h : (pairs.map Prod.fst).Nodup) :
    ofPairs pairs = .dict pairs := by
  have hfold : ∀ front : List (List ℕ × Value), ((front ++ pairs).map Prod.fst).Nodup →
      pairs.foldl (fun entries pair => Document.setEntry pair.1 pair.2 entries) front = front ++ pairs := by
    induction pairs with
    | nil => exact fun front _ => (List.append_nil _).symm
    | cons pair pairs ih =>
        intro front hnodup
        rw [List.foldl_cons, setEntry_of_notMem (Document.notMem_front hnodup),
          ih (List.nodup_cons.mp h).2 (front ++ [pair]) (by simpa using hnodup), List.append_assoc]
        rfl
  rw [ofPairs, hfold [] h]
  rfl

theorem dumpItems_begins {item : Value} {items : List Value} (h : CleanItems (item :: items)) :
    ∃ c text, dumpItems (item :: items) = c :: text ∧ Begins c := by
  obtain ⟨c, text, hdumps, hc⟩ := dumps_begins h.1
  cases items with
  | nil => exact ⟨c, text, hdumps, hc⟩
  | cons next items =>
      refine ⟨c, text ++ ',' :: ' ' :: dumpItems (next :: items), ?_, hc⟩
      rw [dumpItems, hdumps]
      rfl

theorem skip_of_begins {c : Char} (hc : Begins c) (text : List Char) : skip (c :: text) = c :: text :=
  skip_cons hc.1 text

theorem stops_of_mem {c : Char} (h : c ∈ [',', ']', '}']) (text : List Char) : Stops (c :: text) := by
  rintro _ ⟨⟩
  exact h

section Separators
variable {fuel : ℕ} {item value : Value} {items : List Value} {key : List ℕ}
  {entries : List (List ℕ × Value)}

theorem scanItems_last (hvalue : scanValue fuel (dumps item ++ ']' :: rest) = .ok (item, ']' :: rest)) :
    scanItems (fuel + 1) (dumps item ++ ']' :: rest) = .ok ([item], rest) := by
  rw [scanItems, hvalue]
  rfl

theorem scanItems_next
    (hvalue : scanValue fuel (dumps item ++ ',' :: ' ' :: text) = .ok (item, ',' :: ' ' :: text))
    (hitems : scanItems fuel (skip text) = .ok (items, rest)) :
    scanItems (fuel + 1) (dumps item ++ ',' :: ' ' :: text) = .ok (item :: items, rest) := by
  rw [scanItems, hvalue]
  change (scanItems fuel (skip text) >>= _) = _
  rw [hitems]
  rfl

theorem skip_dumps (h : Clean value) (text : List Char) : skip (dumps value ++ text) = dumps value ++ text := by
  obtain ⟨c, begin, hdumps, hc⟩ := dumps_begins h
  rw [hdumps, List.cons_append, skip_of_begins hc]

theorem scanMembers_member (hkey : ∀ point ∈ key, IsPoint point) (h : Clean value) (text : List Char) :
    scanMembers (fuel + 1) (quote key ++ ':' :: ' ' :: (dumps value ++ text)) =
      (scanValue fuel (dumps value ++ text)).bind fun (value, rest) =>
        match skip rest with
        | ',' :: rest => do
            let (pairs, rest) ← scanMembers fuel (skip rest)
            return ((key, value) :: pairs, rest)
        | '}' :: rest => .ok ([(key, value)], rest)
        | _ => fail := by
  rw [quote_append, scanMembers, scanString_quote hkey]
  change (scanValue fuel (skip (dumps value ++ text))).bind _ = _
  rw [skip_dumps h]
  rfl

theorem scanMembers_last (hkey : ∀ point ∈ key, IsPoint point) (h : Clean value)
    (hvalue : scanValue fuel (dumps value ++ '}' :: rest) = .ok (value, '}' :: rest)) :
    scanMembers (fuel + 1) (quote key ++ ':' :: ' ' :: (dumps value ++ '}' :: rest)) =
      .ok ([(key, value)], rest) := by
  rw [scanMembers_member hkey h, hvalue]
  rfl

theorem scanMembers_next (hkey : ∀ point ∈ key, IsPoint point) (h : Clean value)
    (hvalue : scanValue fuel (dumps value ++ ',' :: ' ' :: text) = .ok (value, ',' :: ' ' :: text))
    (hentries : scanMembers fuel (skip text) = .ok (entries, rest)) :
    scanMembers (fuel + 1) (quote key ++ ':' :: ' ' :: (dumps value ++ ',' :: ' ' :: text)) =
      .ok ((key, value) :: entries, rest) := by
  rw [scanMembers_member hkey h, hvalue]
  change (scanMembers fuel (skip text) >>= _) = _
  rw [hentries]
  rfl

theorem dumpMembers_begins (entry : List ℕ × Value) (entries : List (List ℕ × Value)) :
    ∃ text, dumpMembers (entry :: entries) = '"' :: text := by
  obtain ⟨key, value⟩ := entry
  cases entries with
  | nil => exact ⟨_, rfl⟩
  | cons next entries => exact ⟨_, rfl⟩

theorem skip_dumpItems (h : CleanItems (item :: items)) (text : List Char) :
    skip (dumpItems (item :: items) ++ text) = dumpItems (item :: items) ++ text := by
  obtain ⟨c, begin, hbegin, hc⟩ := dumpItems_begins h
  rw [hbegin, List.cons_append, skip_of_begins hc]

theorem skip_dumpMembers (entry : List ℕ × Value) (entries : List (List ℕ × Value)) (text : List Char) :
    skip (dumpMembers (entry :: entries) ++ text) = dumpMembers (entry :: entries) ++ text := by
  obtain ⟨begin, hbegin⟩ := dumpMembers_begins entry entries
  rw [hbegin, List.cons_append, skip_cons rfl]

theorem dumps_list_append (items : List Value) (rest : List Char) :
    dumps (.list items) ++ rest = '[' :: (dumpItems items ++ ']' :: rest) := by
  rw [dumps, List.cons_append, List.append_assoc]
  rfl

theorem dumps_dict_append (entries : List (List ℕ × Value)) (rest : List Char) :
    dumps (.dict entries) ++ rest = '{' :: (dumpMembers entries ++ '}' :: rest) := by
  rw [dumps, List.cons_append, List.append_assoc]
  rfl

theorem dumpMembers_singleton_append (rest : List Char) :
    dumpMembers [(key, value)] ++ '}' :: rest =
      quote key ++ ':' :: ' ' :: (dumps value ++ '}' :: rest) := by
  rw [dumpMembers, List.append_assoc]
  rfl

theorem dumpMembers_cons_append (next : List ℕ × Value) (rest : List Char) :
    dumpMembers ((key, value) :: next :: entries) ++ '}' :: rest =
      quote key ++ ':' :: ' ' ::
        (dumps value ++ ',' :: ' ' :: (dumpMembers (next :: entries) ++ '}' :: rest)) := by
  rw [dumpMembers, List.append_assoc, List.cons_append, List.cons_append, List.append_assoc]
  rfl

theorem scanValue_list (h : CleanItems (item :: items))
    (hitems : scanItems fuel (dumpItems (item :: items) ++ ']' :: rest) = .ok (item :: items, rest)) :
    scanValue (fuel + 1) (dumps (.list (item :: items)) ++ rest) =
      .ok (.list (item :: items), rest) := by
  obtain ⟨c, text, hbegin, hc⟩ := dumpItems_begins h
  rw [dumps_list_append, scanValue, if_neg (by decide), if_neg (by decide), if_pos rfl,
    skip_dumpItems h]
  split
  next rest' hbracket =>
    rw [hbegin] at hbracket
    exact absurd (List.cons.inj hbracket).1 hc.2.1
  next =>
    rw [hitems]
    rfl

theorem scanValue_dict {entry : List ℕ × Value} (h : Clean (.dict (entry :: entries)))
    (hmembers : scanMembers fuel (dumpMembers (entry :: entries) ++ '}' :: rest) =
      .ok (entry :: entries, rest)) :
    scanValue (fuel + 1) (dumps (.dict (entry :: entries)) ++ rest) =
      .ok (.dict (entry :: entries), rest) := by
  obtain ⟨text, hbegin⟩ := dumpMembers_begins entry entries
  rw [dumps_dict_append, scanValue, if_neg (by decide), if_pos rfl, skip_dumpMembers]
  split
  next rest' hbrace =>
    rw [hbegin] at hbrace
    exact absurd (List.cons.inj hbrace).1 (by decide)
  next =>
    rw [hmembers, ← ofPairs_eq h.1]
    rfl

end Separators

/-- With enough fuel, what is written is read. -/
theorem scan_dumps (fuel : ℕ) :
    (∀ value rest, Clean value → Stops rest → 2 * (dumps value ++ rest).length < fuel →
      scanValue fuel (dumps value ++ rest) = .ok (value, rest)) ∧
    (∀ item items rest, CleanItems (item :: items) →
      2 * (dumpItems (item :: items) ++ ']' :: rest).length + 1 < fuel →
      scanItems fuel (dumpItems (item :: items) ++ ']' :: rest) = .ok (item :: items, rest)) ∧
    ∀ entry entries rest, CleanMembers (entry :: entries) →
      2 * (dumpMembers (entry :: entries) ++ '}' :: rest).length + 1 < fuel →
      scanMembers fuel (dumpMembers (entry :: entries) ++ '}' :: rest) = .ok (entry :: entries, rest) := by
  induction fuel with
  | zero => exact ⟨nofun, nofun, nofun⟩
  | succ fuel ih =>
      obtain ⟨hvalue, hitems, hmembers⟩ := ih
      refine ⟨fun value rest h hrest hfuel => ?_, fun item items rest h hfuel => ?_,
        fun entry entries rest h hfuel => ?_⟩
      · cases value with
        | scalar value => exact scanValue_scalar h hrest fuel
        | list items =>
            cases items with
            | nil => rfl
            | cons item items =>
                rw [dumps_list_append, List.length_cons] at hfuel
                exact scanValue_list h (hitems item items rest h (by omega))
        | dict entries =>
            cases entries with
            | nil => rfl
            | cons entry entries =>
                rw [dumps_dict_append, List.length_cons] at hfuel
                exact scanValue_dict h (hmembers entry entries rest h.2 (by omega))
      · cases items with
        | nil =>
            rw [dumpItems] at hfuel ⊢
            exact scanItems_last (hvalue item _ h.1 (stops_of_mem (by decide) _) (by omega))
        | cons next items =>
            rw [dumpItems, List.append_assoc, List.cons_append, List.cons_append] at hfuel ⊢
            refine scanItems_next (hvalue item _ h.1 (stops_of_mem (by decide) _) (by omega)) ?_
            rw [List.length_append, List.length_cons, List.length_cons] at hfuel
            rw [skip_dumpItems h.2]
            exact hitems next items rest h.2 (by omega)
      · obtain ⟨key, value⟩ := entry
        cases entries with
        | nil =>
            rw [dumpMembers_singleton_append] at hfuel ⊢
            rw [List.length_append, List.length_cons, List.length_cons] at hfuel
            exact scanMembers_last h.1 h.2.1
              (hvalue value _ h.2.1 (stops_of_mem (by decide) _) (by omega))
        | cons next entries =>
            rw [dumpMembers_cons_append] at hfuel ⊢
            rw [List.length_append, List.length_cons, List.length_cons] at hfuel
            refine scanMembers_next h.1 h.2.1
              (hvalue value _ h.2.1 (stops_of_mem (by decide) _) (by omega)) ?_
            rw [List.length_append, List.length_cons, List.length_cons] at hfuel
            rw [skip_dumpMembers]
            exact hmembers next entries rest h.2.2 (by omega)

/-- `loads` reads what `dumps` writes. -/
theorem loads_dumps {value : Value} (h : Clean value) : loads (dumps value) = .ok value := by
  obtain ⟨c, text, hdumps, hc⟩ := dumps_begins h
  have hskip : skip (dumps value) = dumps value := by
    rw [hdumps, skip_of_begins hc]
  refine @loads_of_scan _ [] _ ?_ ?_ rfl
  · rw [hdumps]
    exact fun hbom => hc.2.2 (Option.some.inj hbom)
  · have hscan := (scan_dumps (2 * (dumps value).length + 1)).1 value [] h nofun
    rw [List.append_nil] at hscan
    rw [hskip]
    exact hscan (Nat.lt_succ_self _)

end RoundTrip

end Json
