import Mathlib.Data.List.Infix
import Mathlib.Algebra.Order.Ring.Rat
import SmartMedia.Library.Document
import SmartMedia.Media.Paths

/-!
# Masking and restoring

`app/core/security.py` makes the copy of the configuration that a client sees, the helpers
of `app/api/system_config.py` put the masked values of what it sends back in place. The
regular expressions leave no choice: no alternative of a key is the beginning of another,
and neither a separator nor a value can begin with white space.
-/
namespace SmartMedia.Config

abbrev Text := List Char

/-- What a configuration holds besides lists and dictionaries. -/
inductive Scalar where
  | null
  | bool (b : Bool)
  | num (n : ℚ)
  | str (text : Text)
  deriving DecidableEq, Repr

abbrev Value := Document Text Scalar

abbrev Entries := List (Text × Value)

def Value.null : Value := .scalar .null

def Value.str (text : Text) : Value := .scalar (.str text)

/-- `SENSITIVE_FIELD_NAMES`. -/
def sensitiveFieldNames : List Text :=
  ["password", "passwd", "token", "api_key", "apikey", "secret", "cookie", "authorization", "auth",
    "key"].map String.toList

/-- `str.lower`, on the characters that it takes to ASCII letters; the names have no others. -/
def lowerChar (c : Char) : Text :=
  if c = '\u212a' then ['k']
  else if c = '\u0130' then ['i', '\u0307']
  else [c.toLower]

/-- `_should_mask_key` and `_is_sensitive_key`. -/
def isSensitiveKey (key : Text) : Bool :=
  sensitiveFieldNames.any fun name => name <:+: key.flatMap lowerChar

/-! ### `redact_sensitive` -/

/-- Equal up to case, for a lower case ASCII letter of a pattern. -/
def sameLetter (letter c : Char) : Bool :=
  c.toLower = letter || (letter = 'k' && c = '\u212a') || (letter = 's' && c = '\u017f') ||
    (letter = 'i' && (c = '\u0130' || c = '\u0131'))

/-- What follows a word. -/
def matchWord : Text → Text → Option Text
  | [], text => some text
  | letter :: word, c :: text => if sameLetter letter c then matchWord word text else none
  | _ :: _, [] => none

/-- `api[_-]?key`. -/
def matchApiKey (text : Text) : Option Text :=
  match matchWord "api".toList text with
  | some (c :: rest) =>
      if c = '_' ∨ c = '-' then matchWord "key".toList rest
      else matchWord "key".toList (c :: rest)
  | _ => none

/-- The first group of the first pattern. -/
def matchKey (text : Text) : Option Text :=
  matchApiKey text <|> matchWord "token".toList text <|> matchWord "password".toList text <|>
    matchWord "cookie".toList text <|> matchWord "authorization".toList text

/-- `[^\s,;]`. -/
def isValueChar (c : Char) : Bool := !Media.isSpace c && c ≠ ',' && c ≠ ';'

/-- A match of the first pattern at the beginning: its replacement and what follows it. -/
def matchAssignment (text : Text) : Option (Text × Text) := do
  let rest ← matchKey text
  let key := text.take (text.length - rest.length)
  match rest.dropWhile Media.isSpace with
  | [] => none
  | c :: rest =>
      if c = ':' ∨ c = '=' then
        let rest := rest.dropWhile Media.isSpace
        let value := rest.takeWhile isValueChar
        if value = [] then none else some (key ++ "=***".toList, rest.drop value.length)
      else none

/-- `[A-Za-z0-9\-._~+/]`, where case is ignored. -/
def isTokenChar (c : Char) : Bool :=
  c.isAlphanum || c ∈ ['-', '.', '_', '~', '+', '/'] ||
    c ∈ ['\u212a', '\u017f', '\u0130', '\u0131']

/-- A match of the second pattern, whose first group is the token. -/
def matchBearer (text : Text) : Option (Text × Text) := do
  let rest ← matchWord "bearer".toList text
  if (rest.head?.any Media.isSpace) = false then none
  let rest := rest.dropWhile Media.isSpace
  let token := rest.takeWhile isTokenChar
  if token = [] then none
  let rest := rest.drop token.length
  let padding := rest.takeWhile (· = '=')
  return (token ++ padding ++ "=***".toList, rest.drop padding.length)

/-- `pattern.sub`; the number counts the characters of a match still to be passed. -/
def substitute (matchAt : Text → Option (Text × Text)) : ℕ → Text → Text
  | _, [] => []
  | skip + 1, _ :: text => substitute matchAt skip text
  | 0, c :: text =>
      match matchAt (c :: text) with
      | none => c :: substitute matchAt 0 text
      | some (replacement, rest) =>
          replacement ++ substitute matchAt (text.length - rest.length) text

def redactSensitive (text : Text) : Text :=
  substitute matchBearer 0 (substitute matchAssignment 0 text)

/-! ### The copy that leaves -/

/-- `mask_secret` with its default lengths. -/
def maskSecret (text : Text) : Text :=
  if text.length ≤ 8 then List.replicate text.length '*'
  else text.take 4 ++ List.replicate (text.length - 8) '*' ++ text.drop (text.length - 4)

/-- What `mask_sensitive_data` puts for the value of a sensitive key. -/
def maskValue : Value → Value
  | .scalar (.str text) => Value.str (maskSecret text)
  | .scalar .null => Value.str []
  | _ => Value.str "***".toList

def redactScalar : Scalar → Scalar
  | .str text => .str (redactSensitive text)
  | scalar => scalar

mutual

def maskSensitiveData : Value → Value
  | .scalar scalar => .scalar (redactScalar scalar)
  | .list items => .list (maskItems items)
  | .dict entries => .dict (maskEntries entries)

def maskItems : List Value → List Value
  | [] => []
  | item :: items => maskSensitiveData item :: maskItems items

def maskEntries : Entries → Entries
  | [] => []
  | (key, value) :: entries =>
      (key, if isSensitiveKey key then maskValue value else maskSensitiveData value) ::
        maskEntries entries

end

/-! ### The way back -/

/-- `_is_masked_sensitive_value`. -/
def isMaskedSensitiveValue : Value → Value → Bool
  | .scalar (.str new), current =>
      new = "***".toList || new = [] ||
        match current with
        | .scalar (.str text) => text ≠ [] && new = maskSecret text
        | _ => false
  | _, _ => false

mutual

/-- `_restore_masked_sensitive_values`; what is missing in the current value is null. -/
def restoreMasked : Value → Value → Value
  | .dict incoming, .dict current => .dict (restoreEntries incoming current)
  | .list incoming, .list current => .list (restoreItems incoming current)
  | incoming, _ => incoming

def restoreEntries : Entries → Entries → Entries
  | [], _ => []
  | (key, value) :: incoming, current =>
      let found := (Document.getEntry key current).getD Value.null
      let restored :=
        if isSensitiveKey key && isMaskedSensitiveValue value found then found
        else restoreMasked value found
      (key, restored) :: restoreEntries incoming current

/-- Item by item: the current list runs along. -/
def restoreItems : List Value → List Value → List Value
  | [], _ => []
  | value :: incoming, current =>
      restoreMasked value (current.head?.getD Value.null) :: restoreItems incoming current.tail

end

/-- What `get_safe_config` answers. -/
def getSafeConfig (current : Value) : Value := maskSensitiveData current

/-- What the endpoint hands to `ConfigService.update_config`. -/
def mergedPayload (current payload : Value) : Value :=
  Document.mergeOver (some current) (restoreMasked payload current)

end SmartMedia.Config
