import SmartMedia.Library.Base64
import SmartMedia.Library.Json

/-!
# Encrypted values of the configuration

`app/core/encryption.py`. An encrypted value is the Base64 text of a JSON dictionary with its salt
and its ciphertext; an older one is the Base64 text of a Fernet token, under a fixed salt. Which
of the two a text is shows when it is read. An exception is `none`: `decrypt` turns every one
into a `ValueError`.
-/
namespace SmartMedia.Config.Encryption

abbrev Text := List Char
abbrev Bytes := List UInt8

/-- The package `cryptography`: PBKDF2 with SHA-256, and Fernet under a key; the number stands for the
time and the random octets of a token, and `none` is an `InvalidToken`. -/
structure Cryptography where
  derive : Bytes → Bytes → ℕ → Bytes
  encrypt : Text → ℕ → Bytes → Bytes
  decrypt : Text → Bytes → Option Bytes

section Octets

def utf8 (text : Text) : Bytes := text.flatMap String.utf8EncodeChar

def decodeUtf8 (bytes : Bytes) : Option Text := bytes.toByteArray.utf8Decode?.map Array.toList

@[simp] theorem decodeUtf8_utf8 (text : Text) : decodeUtf8 (utf8 text) = some text := by
  change text.utf8Encode.utf8Decode?.map Array.toList = some text
  rw [List.utf8Decode?_utf8Encode]
  rfl

def b64encode (bytes : Bytes) : Text := Base64.encode .standard bytes

/-- `base64.b64decode` of octets, whose non-ASCII ones are passed over, and of a text. -/
def b64decode (text : Text) : Option Bytes := Base64.decode .standard text

def b64decodeText (text : List ℕ) : Option Bytes :=
  if ∀ point ∈ text, point < 128 then b64decode (text.map Char.ofNat) else none

end Octets

section Encryptor
variable (crypto : Cryptography) (password : Text)

def iterations : ℕ := 600000

def legacySalt : Bytes := utf8 "static_salt_for_smart_media_config_encryption".toList

def legacyIterations : ℕ := 100000

def deriveKey (salt : Bytes) (iterations : ℕ) : Text :=
  Base64.encode .urlSafe (crypto.derive (utf8 password) salt iterations)

def encryptedData (salt ciphertext : Bytes) : Json.Value :=
  .dict [
    (Json.points "version".toList, .scalar (.number ['2'])),
    (Json.points "salt".toList, .scalar (.string (Json.points (b64encode salt)))),
    (Json.points "ciphertext".toList, .scalar (.string (Json.points (b64encode ciphertext))))]

def encrypt (salt : Bytes) (nonce : ℕ) (plaintext : Text) : Text :=
  let key := deriveKey crypto password salt iterations
  let ciphertext := crypto.encrypt key nonce (utf8 plaintext)
  b64encode (utf8 (Json.dumps (encryptedData salt ciphertext)))

def encryptLegacy (nonce : ℕ) (plaintext : Text) : Text :=
  let key := deriveKey crypto password legacySalt legacyIterations
  b64encode (crypto.encrypt key nonce (utf8 plaintext))

/-- Whether an exception is one that makes `decrypt` try the older format. -/
inductive Failure
  | unicode
  | other
  deriving DecidableEq, Repr

/-- What `b64decode` makes of a value. -/
def decodeField : Json.Value → Except Failure Bytes
  | .scalar (.string text) =>
      match b64decodeText text with
      | none => .error .other
      | some bytes => .ok bytes
  | _ => .error .other

def decryptNewFormat (salt ciphertext : Json.Value) : Except Failure Text := do
  let salt ← decodeField salt
  let ciphertext ← decodeField ciphertext
  match crypto.decrypt (deriveKey crypto password salt iterations) ciphertext with
  | none => .error .other
  | some bytes =>
      match decodeUtf8 bytes with
      | none => .error .unicode
      | some plaintext => .ok plaintext

def decryptLegacyFormat (encryptedText : Text) : Option Text := do
  let bytes ← b64decode encryptedText
  let plaintext ← crypto.decrypt (deriveKey crypto password legacySalt legacyIterations) bytes
  decodeUtf8 plaintext

/-- `json.loads(decoded.decode())`, where the older format is tried after some errors. -/
def loadDecoded (decoded : Bytes) : Except Failure Json.Value :=
  match decodeUtf8 decoded with
  | none => .error .unicode
  | some text =>
      match Json.loads text with
      | .ok data => .ok data
      | .error .decode => .error .unicode
      | .error .digits => .error .other

/-- The inner `try` of `decrypt`; `none` is no dictionary of the newer format. -/
def decryptDecoded (decoded : Bytes) : Except Failure (Option Text) := do
  match ← loadDecoded decoded with
  | .dict entries =>
      match Document.getEntry (Json.points "version".toList) entries,
        Document.getEntry (Json.points "salt".toList) entries,
        Document.getEntry (Json.points "ciphertext".toList) entries with
      | some _, some salt, some ciphertext =>
          return some (← decryptNewFormat crypto password salt ciphertext)
      | _, _, _ => return none
  | _ => return none

def decrypt (encryptedText : Text) : Option Text :=
  (b64decode encryptedText).bind fun decoded =>
    match decryptDecoded crypto password decoded with
    | .ok (some plaintext) => some plaintext
    | .ok none | .error .unicode => decryptLegacyFormat crypto password encryptedText
    | .error .other => none

end Encryptor

section Values
variable (crypto : Cryptography) (environment : Text) (given : Option Text)

/-- The password of `ConfigEncryption`, which is an error when it is empty. -/
def encryptionPassword : Option Text :=
  let password := given.getD environment
  if password = [] then none else some password

def encryptedPrefix : Text := "encrypted:".toList

def getEncryptedConfigValue (salt : Bytes) (nonce : ℕ) (configValue : Text) : Text :=
  if configValue = [] then configValue
  else
    match encryptionPassword environment given with
    | none => configValue
    | some password => encryptedPrefix ++ encrypt crypto password salt nonce configValue

def getDecryptedConfigValue (encryptedConfigValue : Text) : Option Text :=
  if encryptedConfigValue = [] ∨ ¬ encryptedPrefix <+: encryptedConfigValue then
    some encryptedConfigValue
  else
    (encryptionPassword environment given).bind fun password =>
      decrypt crypto password (encryptedConfigValue.drop 10)

end Values

section RoundTrip
variable {crypto : Cryptography}

@[simp] theorem b64decode_b64encode (bytes : Bytes) : b64decode (b64encode bytes) = some bytes :=
  Base64.decode_encode .standard bytes

theorem standard_ascii : ∀ c ∈ Base64.Alphabet.standard.digits, c.toNat < 128 := by
  have hall : Base64.Alphabet.standard.digits.all (fun c => decide (c.toNat < 128)) = true := rfl
  exact fun c hc => of_decide_eq_true (List.all_eq_true.mp hall c hc)

theorem b64encode_ascii {bytes : Bytes} {c : Char} (h : c ∈ b64encode bytes) : c.toNat < 128 := by
  rcases Base64.mem_encode h with hdigit | rfl
  · exact standard_ascii c hdigit
  · decide

@[simp] theorem b64decodeText_b64encode (bytes : Bytes) :
    b64decodeText (Json.points (b64encode bytes)) = some bytes := by
  have hascii : ∀ point ∈ Json.points (b64encode bytes), point < 128 := fun point hpoint => by
    obtain ⟨c, hc, rfl⟩ := List.mem_map.mp hpoint
    exact b64encode_ascii hc
  rw [b64decodeText, if_pos hascii, Json.points, List.map_map]
  have hid : Char.ofNat ∘ Char.toNat = id := funext Char.ofNat_toNat
  rw [hid, List.map_id, b64decode_b64encode]

theorem encryptedData_clean (salt ciphertext : Bytes) : Json.Clean (encryptedData salt ciphertext) := by
  have hpoints (text : Text) : ∀ point ∈ Json.points text, Json.IsPoint point := fun _ =>
    Json.isPoint_of_mem_points
  have hversion : Json.IsNatural ['2'] :=
    ⟨.inr ⟨'2', [], rfl, by decide, rfl, nofun⟩, by decide⟩
  have hkeys : [Json.points "version".toList, Json.points "salt".toList,
      Json.points "ciphertext".toList].Nodup := by decide
  exact ⟨hkeys, hpoints _, hversion, hpoints _, hpoints _, hpoints _, hpoints _, trivial⟩

theorem loadDecoded_dumps (salt ciphertext : Bytes) :
    loadDecoded (utf8 (Json.dumps (encryptedData salt ciphertext))) =
      .ok (encryptedData salt ciphertext) := by
  rw [loadDecoded, decodeUtf8_utf8]
  dsimp only
  rw [Json.loads_dumps (encryptedData_clean salt ciphertext)]

/-- A Fernet token begins with `g`, as no JSON text does. -/
theorem loadDecoded_token (body : Bytes) :
    loadDecoded (utf8 (Base64.encode .urlSafe (0x80 :: body))) = .error .unicode := by
  obtain ⟨text, hg⟩ : ∃ text, Base64.encode .urlSafe (0x80 :: body) = 'g' :: text := by
    match body with
    | [] => exact ⟨_, rfl⟩
    | [a] => exact ⟨_, rfl⟩
    | a :: b :: rest => exact ⟨_, rfl⟩
  rw [loadDecoded, decodeUtf8_utf8]
  dsimp only
  rw [hg, Json.loads_of_fail rfl]

theorem decryptNewFormat_encrypt (hdecrypt : ∀ key nonce data,
      crypto.decrypt key (crypto.encrypt key nonce data) = some data)
    (password plaintext : Text) (salt : Bytes) (nonce : ℕ) :
    decryptNewFormat crypto password (.scalar (.string (Json.points (b64encode salt))))
      (.scalar (.string (Json.points (b64encode
        (crypto.encrypt (deriveKey crypto password salt iterations) nonce (utf8 plaintext)))))) =
      .ok plaintext := by
  have hfield (bytes : Bytes) :
      decodeField (.scalar (.string (Json.points (b64encode bytes)))) = .ok bytes := by
    rw [decodeField, b64decodeText_b64encode]
  rw [decryptNewFormat, hfield, hfield]
  change (match crypto.decrypt _ (crypto.encrypt _ nonce (utf8 plaintext)) with
    | none => .error .other
    | some bytes =>
        match decodeUtf8 bytes with
        | none => .error .unicode
        | some plaintext => .ok plaintext : Except Failure Text) = _
  rw [hdecrypt]
  dsimp only
  rw [decodeUtf8_utf8]

theorem decrypt_encrypt (hdecrypt : ∀ key nonce data,
      crypto.decrypt key (crypto.encrypt key nonce data) = some data)
    (password plaintext : Text) (salt : Bytes) (nonce : ℕ) :
    decrypt crypto password (encrypt crypto password salt nonce plaintext) = some plaintext := by
  have hinner := decryptNewFormat_encrypt hdecrypt password plaintext salt nonce
  rw [decrypt, encrypt, b64decode_b64encode, Option.bind_some, decryptDecoded, loadDecoded_dumps]
  change (match (decryptNewFormat crypto password _ _ >>= fun plaintext => .ok (some plaintext) :
    Except Failure (Option Text)) with
    | .ok (some plaintext) => some plaintext
    | .ok none | .error .unicode => _
    | .error .other => none) = _
  rw [hinner]
  rfl

theorem decryptLegacyFormat_encryptLegacy (hdecrypt : ∀ key nonce data,
      crypto.decrypt key (crypto.encrypt key nonce data) = some data)
    (password plaintext : Text) (nonce : ℕ) :
    decryptLegacyFormat crypto password (encryptLegacy crypto password nonce plaintext) =
      some plaintext := by
  rw [decryptLegacyFormat, encryptLegacy, b64decode_b64encode]
  change (crypto.decrypt _ (crypto.encrypt _ nonce (utf8 plaintext))).bind decodeUtf8 = _
  rw [hdecrypt, Option.bind_some, decodeUtf8_utf8]

/-- Under one password, texts of both formats are told apart and read back. -/
theorem encrypted_round_trip (hdecrypt : ∀ key nonce data,
      crypto.decrypt key (crypto.encrypt key nonce data) = some data)
    (htoken : ∀ key nonce data, ∃ body,
      crypto.encrypt key nonce data = utf8 (Base64.encode .urlSafe (0x80 :: body)))
    (password plaintext : Text) (salt : Bytes) (nonce : ℕ) :
    decrypt crypto password (encrypt crypto password salt nonce plaintext) = some plaintext ∧
      decrypt crypto password (encryptLegacy crypto password nonce plaintext) = some plaintext := by
  refine ⟨decrypt_encrypt hdecrypt password plaintext salt nonce, ?_⟩
  obtain ⟨body, hbody⟩ :=
    htoken (deriveKey crypto password legacySalt legacyIterations) nonce (utf8 plaintext)
  have hdecoded : decryptDecoded crypto password
      (crypto.encrypt (deriveKey crypto password legacySalt legacyIterations) nonce (utf8 plaintext)) =
      .error .unicode := by
    rw [hbody, decryptDecoded, loadDecoded_token]
    rfl
  rw [decrypt, decryptLegacyFormat_encryptLegacy hdecrypt, encryptLegacy, b64decode_b64encode,
    Option.bind_some, hdecoded]

/-- A value is read back as it was exactly if it is empty, there is a password for it, or it does not look
like an encrypted one. -/
theorem config_value_round_trip (hdecrypt : ∀ key nonce data,
      crypto.decrypt key (crypto.encrypt key nonce data) = some data)
    (environment : Text) (given : Option Text) (salt : Bytes) (nonce : ℕ) (configValue : Text) :
    getDecryptedConfigValue crypto environment given
        (getEncryptedConfigValue crypto environment given salt nonce configValue) = some configValue ↔
      configValue = [] ∨ encryptionPassword environment given ≠ none ∨
        ¬ encryptedPrefix <+: configValue := by
  by_cases hempty : configValue = []
  · simp [getEncryptedConfigValue, getDecryptedConfigValue, hempty]
  rw [getEncryptedConfigValue, if_neg hempty]
  cases hpassword : encryptionPassword environment given with
  | some password =>
      have hdrop : (encryptedPrefix ++ encrypt crypto password salt nonce configValue).drop 10 =
          encrypt crypto password salt nonce configValue := List.drop_left' rfl
      have hprefixed : ¬ (encryptedPrefix ++ encrypt crypto password salt nonce configValue = [] ∨
          ¬ encryptedPrefix <+: encryptedPrefix ++ encrypt crypto password salt nonce configValue) :=
        not_or.mpr ⟨nofun, not_not.mpr (List.prefix_append ..)⟩
      dsimp only
      rw [getDecryptedConfigValue, if_neg hprefixed, hpassword, Option.bind_some, hdrop,
        decrypt_encrypt hdecrypt]
      exact iff_of_true rfl (.inr (.inl nofun))
  | none =>
      dsimp only
      rw [getDecryptedConfigValue, hpassword]
      by_cases hprefix : encryptedPrefix <+: configValue
      · rw [if_neg (not_or.mpr ⟨hempty, not_not.mpr hprefix⟩)]
        exact iff_of_false nofun fun h => h.elim hempty fun h => h.elim (absurd rfl) (absurd hprefix)
      · rw [if_pos (.inr hprefix)]
        exact iff_of_true rfl (.inr (.inr hprefix))

/-- A package whose tokens carry their data in the clear. -/
def sampleCryptography : Cryptography where
  derive password salt _ := password ++ salt
  encrypt _ _ data := utf8 (Base64.encode .urlSafe (0x80 :: data))
  decrypt _ token := ((decodeUtf8 token).bind (Base64.decode .urlSafe)).map List.tail

theorem sampleCryptography_decrypt (key : Text) (nonce : ℕ) (data : Bytes) :
    sampleCryptography.decrypt key (sampleCryptography.encrypt key nonce data) = some data := by
  change ((decodeUtf8 (utf8 (Base64.encode .urlSafe (0x80 :: data)))).bind _).map List.tail = _
  rw [decodeUtf8_utf8, Option.bind_some, Base64.decode_encode]
  rfl

theorem sample_round_trip :
    decrypt sampleCryptography ['p'] (encrypt sampleCryptography ['p'] [7] 0 ['v']) = some ['v'] ∧
      decrypt sampleCryptography ['p'] (encryptLegacy sampleCryptography ['p'] 0 ['v']) = some ['v'] :=
  encrypted_round_trip sampleCryptography_decrypt (fun _ _ data => ⟨data, rfl⟩) ['p'] ['v'] [7] 0

/-- Without a password, a value that looks encrypted is lost. -/
theorem sample_prefix_lost :
    getDecryptedConfigValue sampleCryptography [] none
        (getEncryptedConfigValue sampleCryptography [] none [7] 0 encryptedPrefix) = some encryptedPrefix ↔
      encryptedPrefix = [] ∨ encryptionPassword [] none ≠ none ∨ ¬ encryptedPrefix <+: encryptedPrefix :=
  config_value_round_trip sampleCryptography_decrypt [] none [7] 0 encryptedPrefix

end RoundTrip

end SmartMedia.Config.Encryption
