import SmartMedia.Config.Masking

/-!
# Sending the configuration back

The secrets come back whole: the mask of a value is recognised against that value. The
other strings come back as the redaction has made them, so that a configuration survives
exactly when there is nothing in it to redact.
-/
namespace SmartMedia.Config

/-- What `model_dump` yields: each dictionary has each key once. -/
structure StoredConfig where
  entries : Entries
  wellFormed : Document.WellFormed (.dict entries : Value)

def StoredConfig.value (config : StoredConfig) : Value := .dict config.entries

mutual

/-- The strings that are not below a sensitive key. -/
def plainStrings : Value → List Text
  | .scalar (.str text) => [text]
  | .scalar _ => []
  | .list items => plainStringsItems items
  | .dict entries => plainStringsEntries entries

def plainStringsItems : List Value → List Text
  | [] => []
  | item :: items => plainStrings item ++ plainStringsItems items

def plainStringsEntries : Entries → List Text
  | [] => []
  | (key, value) :: entries =>
      (if isSensitiveKey key then [] else plainStrings value) ++ plainStringsEntries entries

end

mutual

/-- The value with these strings redacted. -/
def redactPlain : Value → Value
  | .scalar scalar => .scalar (redactScalar scalar)
  | .list items => .list (redactPlainItems items)
  | .dict entries => .dict (redactPlainEntries entries)

def redactPlainItems : List Value → List Value
  | [] => []
  | item :: items => redactPlain item :: redactPlainItems items

def redactPlainEntries : Entries → Entries
  | [] => []
  | (key, value) :: entries =>
      (key, if isSensitiveKey key then value else redactPlain value) :: redactPlainEntries entries

end

/-- The mask of a value is recognised against it. -/
theorem isMasked_maskValue (value : Value) : isMaskedSensitiveValue (maskValue value) value = true := by
  cases value with
  | scalar scalar =>
      cases scalar with
      | str text =>
          by_cases htext : text = []
          · simp [maskValue, isMaskedSensitiveValue, Value.str, maskSecret, htext]
          · simp [maskValue, isMaskedSensitiveValue, Value.str, htext]
      | null => rfl
      | bool b => rfl
      | num n => rfl
  | list items => rfl
  | dict entries => rfl

mutual

/-- Restoring the masked copy gives the value with its plain strings redacted. -/
theorem restoreMasked_mask : ∀ {value : Value}, value.WellFormed →
    restoreMasked (maskSensitiveData value) value = redactPlain value
  | .scalar scalar, _ => by rw [maskSensitiveData, redactPlain]; simp [restoreMasked]
  | .list items, h => by
      rw [maskSensitiveData, restoreMasked, restoreItems_mask h, redactPlain]
  | .dict entries, h => by
      have hentries := restoreEntries_mask [] h.2 h.1
      rw [List.nil_append] at hentries
      rw [maskSensitiveData, restoreMasked, hentries, redactPlain]

theorem restoreItems_mask : ∀ {items : List Value}, Document.WellFormedItems items →
    restoreItems (maskItems items) items = redactPlainItems items
  | [], _ => rfl
  | item :: items, h => by
      rw [maskItems, restoreItems, redactPlainItems, List.head?_cons, Option.getD_some,
        List.tail_cons, restoreMasked_mask h.1, restoreItems_mask h.2]

/-- A value is looked up among all entries of its dictionary. -/
theorem restoreEntries_mask : ∀ (front : Entries) {entries : Entries},
    Document.WellFormedEntries entries → ((front ++ entries).map Prod.fst).Nodup →
      restoreEntries (maskEntries entries) (front ++ entries) = redactPlainEntries entries
  | _, [], _, _ => rfl
  | front, (key, value) :: entries, h, hnodup => by
      have hfront : key ∉ front.map Prod.fst := Document.notMem_front hnodup
      have hrest := restoreEntries_mask (front ++ [(key, value)]) h.2 (by simpa using hnodup)
      rw [List.append_assoc, List.singleton_append] at hrest
      rw [maskEntries, restoreEntries, redactPlainEntries, Document.getEntry_append_cons hfront,
        Option.getD_some, hrest]
      cases hkey : isSensitiveKey key with
      | true => simp [isMasked_maskValue]
      | false => simp [restoreMasked_mask h.1]

end

theorem redactPlainEntries_keys : ∀ entries : Entries,
    (redactPlainEntries entries).map Prod.fst = entries.map Prod.fst
  | [] => rfl
  | (key, value) :: entries => by
      rw [redactPlainEntries, List.map_cons, List.map_cons, redactPlainEntries_keys entries]

mutual

theorem covers_redactPlain : ∀ {value : Value}, value.WellFormed → value.Covers (redactPlain value)
  | .scalar _, _ => trivial
  | .list _, _ => trivial
  | .dict entries, h => by
      refine ⟨?_, covers_redactPlainEntries h.2⟩
      rw [redactPlainEntries_keys]
      exact h.1

theorem covers_redactPlainEntries : ∀ {entries : Entries}, Document.WellFormedEntries entries →
    Document.CoversEntries entries (redactPlainEntries entries)
  | [], _ => trivial
  | (key, value) :: entries, h => by
      refine ⟨rfl, ?_, covers_redactPlainEntries h.2⟩
      cases isSensitiveKey key with
      | true => exact h.1.covers_self
      | false => exact covers_redactPlain h.1

end

mutual

theorem redactPlain_eq_self : ∀ value : Value,
    redactPlain value = value ↔ ∀ text ∈ plainStrings value, redactSensitive text = text
  | .scalar (.str text) => by simp [redactPlain, redactScalar, plainStrings]
  | .scalar .null => by simp [redactPlain, redactScalar, plainStrings]
  | .scalar (.bool b) => by simp [redactPlain, redactScalar, plainStrings]
  | .scalar (.num n) => by simp [redactPlain, redactScalar, plainStrings]
  | .list items => by
      rw [redactPlain, Document.list.injEq, plainStrings]
      exact redactPlainItems_eq_self items
  | .dict entries => by
      rw [redactPlain, Document.dict.injEq, plainStrings]
      exact redactPlainEntries_eq_self entries

theorem redactPlainItems_eq_self : ∀ items : List Value,
    redactPlainItems items = items ↔ ∀ text ∈ plainStringsItems items, redactSensitive text = text
  | [] => by simp [redactPlainItems, plainStringsItems]
  | item :: items => by
      rw [redactPlainItems, List.cons.injEq, redactPlain_eq_self item, redactPlainItems_eq_self items,
        plainStringsItems, List.forall_mem_append]

theorem redactPlainEntries_eq_self : ∀ entries : Entries,
    redactPlainEntries entries = entries ↔
      ∀ text ∈ plainStringsEntries entries, redactSensitive text = text
  | [] => by simp [redactPlainEntries, plainStringsEntries]
  | (key, value) :: entries => by
      rw [redactPlainEntries, List.cons.injEq, Prod.mk.injEq, redactPlainEntries_eq_self entries,
        plainStringsEntries, List.forall_mem_append]
      cases isSensitiveKey key with
      | true => simp
      | false => simp [redactPlain_eq_self value]

end

/-- What the unchanged payload makes of the configuration. -/
theorem mergedPayload_getSafeConfig (config : StoredConfig) :
    mergedPayload config.value (getSafeConfig config.value) = redactPlain config.value := by
  have hrestored : restoreMasked (getSafeConfig config.value) config.value = redactPlain config.value :=
    restoreMasked_mask config.wellFormed
  rw [mergedPayload, hrestored]
  exact Document.mergeOver_eq (covers_redactPlain config.wellFormed)

/-- Sending back what was read changes nothing, if the validation of `AppConfig` leaves the
stored configuration as it is. -/
def Survives (config : StoredConfig) : Prop :=
  ∀ modelValidate : Value → Except String Value, modelValidate config.value = .ok config.value →
    modelValidate (mergedPayload config.value (getSafeConfig config.value)) = .ok config.value

/-- A media server's address with a token in it. -/
def tokenAddress : StoredConfig where
  entries := [("emby".toList, .dict
    [("url".toList, Value.str "http://emby:8096/?token=abc".toList),
      ("api_key".toList, Value.str "0123456789abcdef".toList)])]
  wellFormed := ⟨by decide, ⟨by decide, trivial, trivial, trivial⟩, trivial⟩

end SmartMedia.Config
