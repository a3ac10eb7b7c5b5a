import SmartMedia.Config.RoundTrip

/-!
# Editing a list in the masked copy

A client deletes, inserts and reorders items of the lists it has been shown. The restore
step pairs what comes back with the stored items by index: a secret is safe where it meets
itself there, and otherwise what is stored is another item's secret or the mask.
-/
namespace SmartMedia.Config

/-- An edited configuration, in which what the client kept still is what it was. -/
inductive Draft where
  | plain (scalar : Scalar)
  | secret (value : Value)
  | inserted (value : Value)
  | list (items : List Draft)
  | dict (fields : List (Text × Draft))

mutual

/-- The values of the sensitive keys, in order. -/
def secrets : Value → List Value
  | .scalar _ => []
  | .list items => secretsItems items
  | .dict entries => secretsEntries entries

def secretsItems : List Value → List Value
  | [] => []
  | item :: items => secrets item ++ secretsItems items

def secretsEntries : Entries → List Value
  | [] => []
  | (key, value) :: entries =>
      (if isSensitiveKey key then [value] else secrets value) ++ secretsEntries entries

end

namespace Draft

mutual

/-- What the client sends. -/
def payload : Draft → Value
  | .plain scalar => .scalar (redactScalar scalar)
  | .secret value => maskValue value
  | .inserted value => value
  | .list items => .list (payloadItems items)
  | .dict fields => .dict (payloadFields fields)

def payloadItems : List Draft → List Value
  | [] => []
  | item :: items => item.payload :: payloadItems items

def payloadFields : List (Text × Draft) → Entries
  | [] => []
  | (key, field) :: fields => (key, field.payload) :: payloadFields fields

end

/-- The secret that belongs at a sensitive key, unless the client has made up the value. -/
def own : Draft → Option Value
  | .secret value => some value
  | _ => none

mutual

/-- What belongs at the sensitive keys of the payload, in order. -/
def owns : Draft → List (Option Value)
  | .plain _ => []
  | .secret _ => []
  | .inserted value => (secrets value).map fun _ => none
  | .list items => ownsItems items
  | .dict fields => ownsFields fields

def ownsItems : List Draft → List (Option Value)
  | [] => []
  | item :: items => item.owns ++ ownsItems items

def ownsFields : List (Text × Draft) → List (Option Value)
  | [] => []
  | (key, field) :: fields =>
      (if isSensitiveKey key then [field.own] else field.owns) ++ ownsFields fields

end

mutual

/-- The draft differs from the value in its lists only: their items are inserted ones and
edits of items that stood there, in any order. -/
def EditOf : Draft → Value → Prop
  | .plain scalar, .scalar scalar' => scalar = scalar'
  | .list items, .list values => EditOfItems items values
  | .dict fields, .dict entries => EditOfFields fields entries
  | _, _ => False

def EditOfItems : List Draft → List Value → Prop
  | [], _ => True
  | item :: items, values =>
      ((∃ value, item = .inserted value) ∨ ∃ value ∈ values, item.EditOf value) ∧
        EditOfItems items values

def EditOfFields : List (Text × Draft) → Entries → Prop
  | [], [] => True
  | (key, field) :: fields, (key', value) :: entries =>
      key = key' ∧ (if isSensitiveKey key then field = .secret value else field.EditOf value) ∧
        EditOfFields fields entries
  | _, _ => False

end

end Draft

/-- A payload that a client can make of the masked copy by editing its lists. -/
structure ListEdit (config : StoredConfig) where
  draft : Draft
  editOf : draft.EditOf config.value

mutual

/-- The sensitive values that come in, each with the value it is compared with: the one at
its key and index in the current configuration, null where the key or the index is missing,
none where the restore step no longer compares. -/
def pairings : Value → Option Value → List (Value × Option Value)
  | .scalar _, _ => []
  | .list items, some (.list current) => pairingsItems items (some current)
  | .list items, _ => pairingsItems items none
  | .dict entries, some (.dict current) => pairingsEntries entries (some current)
  | .dict entries, _ => pairingsEntries entries none

def pairingsItems : List Value → Option (List Value) → List (Value × Option Value)
  | [], _ => []
  | item :: items, current =>
      pairings item (current.map fun values => values.head?.getD Value.null) ++
        pairingsItems items (current.map List.tail)

def pairingsEntries : Entries → Option Entries → List (Value × Option Value)
  | [], _ => []
  | (key, value) :: entries, current =>
      let found := current.map fun values => (Document.getEntry key values).getD Value.null
      (if isSensitiveKey key then [(value, found)] else pairings value found) ++
        pairingsEntries entries current

end

/-- What is stored at a sensitive key. -/
def restoreSecret (pairing : Value × Option Value) : Value :=
  match pairing.2 with
  | none => pairing.1
  | some found =>
      if isMaskedSensitiveValue pairing.1 found then found else restoreMasked pairing.1 found

/-- What stands for a secret in the masked copy, and is neither that secret nor empty. -/
def IsPlaceholder (current secret : Value) : Prop :=
  secret = Value.str "***".toList ∨
    ∃ value ∈ secrets current, secret = maskValue value ∧ secret ≠ value ∧ secret ≠ Value.str []

/-- Every kept secret is stored at its place, and no placeholder is stored as a secret. -/
def SecretsKept (config : StoredConfig) (edit : ListEdit config) : Prop :=
  let stored := mergedPayload config.value edit.draft.payload
  List.Forall₂ (fun own secret => ∀ value, own = some value → secret = value)
      edit.draft.owns (secrets stored) ∧
    ∀ secret ∈ secrets stored, ¬ IsPlaceholder config.value secret

/-- A kept secret meets itself, or is its own mask and not taken for another's. -/
def MeetsItself (value : Value) (found : Option Value) : Prop :=
  found = some value ∨
    maskValue value = value ∧ ∀ other, found = some other → isMaskedSensitiveValue value other = false

/-- The condition on a sensitive value of the payload. -/
def Safe (current : Value) (own : Option Value) (pairing : Value × Option Value) : Prop :=
  match own with
  | some value => MeetsItself value pairing.2 ∧ ¬ IsPlaceholder current value
  | none => ¬ IsPlaceholder current (restoreSecret pairing)

/-! ### The secrets of the stored configuration -/

mutual

theorem pairings_none : ∀ value : Value, (pairings value none).map restoreSecret = secrets value
  | .scalar _ => rfl
  | .list items => pairingsItems_none items
  | .dict entries => pairingsEntries_none entries

theorem pairingsItems_none : ∀ items : List Value,
    (pairingsItems items none).map restoreSecret = secretsItems items
  | [] => rfl
  | item :: items => by
      rw [pairingsItems, List.map_append, Option.map_none, Option.map_none, pairings_none item,
        pairingsItems_none items, secretsItems]

theorem pairingsEntries_none : ∀ entries : Entries,
    (pairingsEntries entries none).map restoreSecret = secretsEntries entries
  | [] => rfl
  | (key, value) :: entries => by
      rw [pairingsEntries, List.map_append, Option.map_none, pairingsEntries_none entries,
        secretsEntries]
      cases isSensitiveKey key with
      | true => rfl
      | false => exact congrArg (· ++ _) (pairings_none value)

end

mutual

/-- The restored secrets are those of the pairings. -/
theorem secrets_restoreMasked : ∀ incoming current : Value,
    secrets (restoreMasked incoming current) = (pairings incoming (some current)).map restoreSecret
  | .scalar _, _ => by rw [restoreMasked]; rfl; all_goals simp
  | .list items, .list current => by
      rw [restoreMasked, secrets, pairings]
      exact secretsItems_restore items current
  | .list items, .scalar scalar => (pairings_none (.list items)).symm
  | .list items, .dict entries => (pairings_none (.list items)).symm
  | .dict entries, .dict current => by
      rw [restoreMasked, secrets, pairings]
      exact secretsEntries_restore entries current
  | .dict entries, .scalar scalar => (pairings_none (.dict entries)).symm
  | .dict entries, .list items => (pairings_none (.dict entries)).symm

theorem secretsItems_restore : ∀ items current : List Value,
    secretsItems (restoreItems items current) = (pairingsItems items (some current)).map restoreSecret
  | [], _ => rfl
  | item :: items, current => by
      rw [restoreItems, secretsItems, pairingsItems, List.map_append, secrets_restoreMasked,
        secretsItems_restore]
      rfl

theorem secretsEntries_restore : ∀ entries current : Entries,
    secretsEntries (restoreEntries entries current) =
      (pairingsEntries entries (some current)).map restoreSecret
  | [], _ => rfl
  | (key, value) :: entries, current => by
      rw [restoreEntries, secretsEntries, pairingsEntries, List.map_append, secretsEntries_restore]
      cases isSensitiveKey key with
      | true => simp [restoreSecret]
      | false => simp [secrets_restoreMasked]

end

mutual

theorem pairings_fst : ∀ (value : Value) (current : Option Value),
    (pairings value current).map Prod.fst = secrets value
  | .scalar _, _ => rfl
  | .list items, some (.list current) => pairingsItems_fst items (some current)
  | .list items, some (.scalar _) => pairingsItems_fst items none
  | .list items, some (.dict _) => pairingsItems_fst items none
  | .list items, none => pairingsItems_fst items none
  | .dict entries, some (.dict current) => pairingsEntries_fst entries (some current)
  | .dict entries, some (.scalar _) => pairingsEntries_fst entries none
  | .dict entries, some (.list _) => pairingsEntries_fst entries none
  | .dict entries, none => pairingsEntries_fst entries none

theorem pairingsItems_fst : ∀ (items : List Value) (current : Option (List Value)),
    (pairingsItems items current).map Prod.fst = secretsItems items
  | [], _ => rfl
  | item :: items, current => by
      rw [pairingsItems, List.map_append, pairings_fst item, pairingsItems_fst items, secretsItems]

theorem pairingsEntries_fst : ∀ (entries : Entries) (current : Option Entries),
    (pairingsEntries entries current).map Prod.fst = secretsEntries entries
  | [], _ => rfl
  | (key, value) :: entries, current => by
      rw [pairingsEntries, List.map_append, pairingsEntries_fst entries, secretsEntries]
      cases isSensitiveKey key with
      | true => rfl
      | false => exact congrArg (· ++ _) (pairings_fst value _)

end

/-- At the place of a kept secret its mask comes in. -/
def CarriesMask (own : Option Value) (pairing : Value × Option Value) : Prop :=
  ∀ value, own = some value → pairing.1 = maskValue value

theorem carriesMask_inserted (value : Value) (current : Option Value) :
    List.Forall₂ CarriesMask (Draft.inserted value).owns (pairings value current) := by
  rw [Draft.owns, ← pairings_fst value current, List.map_map, List.forall₂_map_left_iff,
    List.forall₂_same]
  rintro pairing - value' h
  cases h

mutual

theorem carriesMask : ∀ {draft : Draft} {value : Value} (current : Option Value),
    draft.EditOf value → List.Forall₂ CarriesMask draft.owns (pairings draft.payload current)
  | .plain _, .scalar _, _, _ => by
      rw [Draft.owns, Draft.payload, pairings]
      exact .nil
  | .list items, .list values, current, h => by
      rw [Draft.owns, Draft.payload]
      match current with
      | some (.list current) => exact carriesMask_items (some current) h
      | some (.scalar _) => exact carriesMask_items none h
      | some (.dict _) => exact carriesMask_items none h
      | none => exact carriesMask_items none h
  | .dict fields, .dict entries, current, h => by
      rw [Draft.owns, Draft.payload]
      match current with
      | some (.dict current) => exact carriesMask_fields (some current) h
      | some (.scalar _) => exact carriesMask_fields none h
      | some (.list _) => exact carriesMask_fields none h
      | none => exact carriesMask_fields none h

theorem carriesMask_items : ∀ {items : List Draft} {values : List Value}
    (current : Option (List Value)), Draft.EditOfItems items values →
      List.Forall₂ CarriesMask (Draft.ownsItems items)
        (pairingsItems (Draft.payloadItems items) current)
  | [], _, _, _ => .nil
  | item :: items, values, current, h => by
      rw [Draft.ownsItems, Draft.payloadItems, pairingsItems]
      apply List.rel_append _ (carriesMask_items _ h.2)
      rcases h.1 with ⟨value, rfl⟩ | ⟨value, -, hitem⟩
      · exact carriesMask_inserted value _
      · exact carriesMask _ hitem

theorem carriesMask_fields : ∀ {fields : List (Text × Draft)} {entries : Entries}
    (current : Option Entries), Draft.EditOfFields fields entries →
      List.Forall₂ CarriesMask (Draft.ownsFields fields)
        (pairingsEntries (Draft.payloadFields fields) current)
  | [], [], _, _ => .nil
  | (key, field) :: fields, (key', value) :: entries, current, h => by
      obtain ⟨rfl, hfield, hrest⟩ := h
      rw [Draft.ownsFields, Draft.payloadFields, pairingsEntries]
      apply List.rel_append _ (carriesMask_fields _ hrest)
      cases hkey : isSensitiveKey key with
      | true =>
          rw [hkey, if_pos rfl] at hfield
          subst hfield
          refine .cons ?_ .nil
          intro value' hvalue
          rw [← Option.some.inj hvalue, Draft.payload]
      | false =>
          rw [hkey, if_neg Bool.false_ne_true] at hfield
          exact carriesMask _ hfield

end

/-! ### The merge takes the restored payload -/

theorem Draft.restoreEntries_keys : ∀ (fields : List (Text × Draft)) (entries current : Entries),
    Draft.EditOfFields fields entries →
      (restoreEntries (Draft.payloadFields fields) current).map Prod.fst = entries.map Prod.fst
  | [], [], _, _ => rfl
  | (key, field) :: fields, (key', value) :: entries, current, h => by
      obtain ⟨rfl, -, hrest⟩ := h
      rw [Draft.payloadFields, restoreEntries, List.map_cons, List.map_cons,
        Draft.restoreEntries_keys fields entries current hrest]

mutual

theorem Draft.covers : ∀ {draft : Draft} {value : Value}, draft.EditOf value → value.WellFormed →
    value.Covers (restoreMasked draft.payload value)
  | .plain _, .scalar _, _, _ => by
      rw [Draft.payload]
      trivial
  | .list items, .list values, _, _ => by
      rw [Draft.payload, restoreMasked]
      trivial
  | .dict fields, .dict entries, h, hwf => by
      rw [Draft.payload, restoreMasked]
      refine ⟨?_, Draft.covers_fields [] h hwf.2 hwf.1⟩
      rw [Draft.restoreEntries_keys fields entries entries h]
      exact hwf.1

theorem Draft.covers_fields : ∀ (front : Entries) {fields : List (Text × Draft)} {entries : Entries},
    Draft.EditOfFields fields entries → Document.WellFormedEntries entries →
      ((front ++ entries).map Prod.fst).Nodup →
        Document.CoversEntries entries
          (restoreEntries (Draft.payloadFields fields) (front ++ entries))
  | _, [], [], _, _, _ => trivial
  | front, (key, field) :: fields, (key', value) :: entries, h, hwf, hnodup => by
      obtain ⟨rfl, hfield, hrest⟩ := h
      have hfront : key ∉ front.map Prod.fst := Document.notMem_front hnodup
      have hcovers := Draft.covers_fields (front ++ [(key, value)]) hrest hwf.2 (by simpa using hnodup)
      rw [List.append_assoc, List.singleton_append] at hcovers
      rw [Draft.payloadFields, restoreEntries, Document.getEntry_append_cons hfront, Option.getD_some]
      refine ⟨rfl, ?_, hcovers⟩
      cases hkey : isSensitiveKey key with
      | true =>
          rw [hkey, if_pos rfl] at hfield
          subst hfield
          rw [Draft.payload, isMasked_maskValue]
          exact hwf.1.covers_self
      | false =>
          rw [hkey, if_neg Bool.false_ne_true] at hfield
          exact Draft.covers hfield hwf.1

end

/-! ### The exact condition -/

theorem restoreMasked_maskValue (value found : Value) :
    restoreMasked (maskValue value) found = maskValue value := by
  have hscalar : ∃ text, maskValue value = Value.str text := by
    cases value with
    | scalar scalar =>
        cases scalar with
        | str text => exact ⟨_, rfl⟩
        | null => exact ⟨_, rfl⟩
        | bool b => exact ⟨_, rfl⟩
        | num n => exact ⟨_, rfl⟩
    | list items => exact ⟨_, rfl⟩
    | dict entries => exact ⟨_, rfl⟩
  obtain ⟨text, htext⟩ := hscalar
  rw [htext, Value.str]
  simp [restoreMasked]

theorem restoreSecret_maskValue (value : Value) (found : Option Value) :
    restoreSecret (maskValue value, found) = value ↔ MeetsItself value found := by
  cases found with
  | none => simp [restoreSecret, MeetsItself]
  | some other =>
      rw [restoreSecret, MeetsItself]
      cases hmasked : isMaskedSensitiveValue (maskValue value) other with
      | true =>
          simp only [hmasked, if_pos, Option.some.injEq, forall_eq']
          constructor
          · intro h
            exact .inl h
          · rintro (h | ⟨hself, hother⟩)
            · exact h
            · rw [hself, hother] at hmasked
              cases hmasked
      | false =>
          simp only [hmasked, Bool.false_eq_true, if_false, restoreMasked_maskValue,
            Option.some.injEq, forall_eq']
          constructor
          · intro h
            exact .inr ⟨h, h ▸ hmasked⟩
          · rintro (h | h)
            · rw [h, isMasked_maskValue] at hmasked
              cases hmasked
            · exact h.1

theorem safe_iff {current : Value} {own : Option Value} {pairing : Value × Option Value}
    (hcarries : CarriesMask own pairing) :
    ((∀ value, own = some value → restoreSecret pairing = value) ∧
      ¬ IsPlaceholder current (restoreSecret pairing)) ↔ Safe current own pairing := by
  cases own with
  | none => simp [Safe]
  | some value =>
      have hsent : pairing = (maskValue value, pairing.2) := by rw [← hcarries value rfl]
      have hmeets : restoreSecret pairing = value ↔ MeetsItself value pairing.2 := by
        rw [hsent]
        exact restoreSecret_maskValue value pairing.2
      rw [Safe, ← hmeets]
      constructor
      · intro h
        have hstored := h.1 value rfl
        rw [hstored] at h
        exact ⟨hstored, h.2⟩
      · intro h
        rw [h.1]
        exact ⟨fun value' hvalue => Option.some.inj hvalue, h.2⟩

theorem safe_all {current : Value} {owns : List (Option Value)}
    {pairs : List (Value × Option Value)} (hcarries : List.Forall₂ CarriesMask owns pairs) :
    (List.Forall₂ (fun own pairing => ∀ value, own = some value → restoreSecret pairing = value)
        owns pairs ∧ ∀ pairing ∈ pairs, ¬ IsPlaceholder current (restoreSecret pairing)) ↔
      List.Forall₂ (Safe current) owns pairs := by
  induction hcarries with
  | nil => simp
  | cons hfirst _ ih =>
      rw [List.forall₂_cons, List.forall₂_cons, List.forall_mem_cons, ← ih, ← safe_iff hfirst]
      exact and_and_and_comm

/-- The secrets of what the client makes of the lists are kept exactly when each of them
meets itself in the stored configuration and none of them looks like a mask. -/
theorem secretsKept_iff (config : StoredConfig) (edit : ListEdit config) :
    SecretsKept config edit ↔
      List.Forall₂ (Safe config.value) edit.draft.owns
        (pairings edit.draft.payload (some config.value)) := by
  have hmerged : mergedPayload config.value edit.draft.payload =
      restoreMasked edit.draft.payload config.value :=
    Document.mergeOver_eq (edit.draft.covers edit.editOf config.wellFormed)
  rw [SecretsKept, hmerged, secrets_restoreMasked, List.forall₂_map_right_iff, List.forall_mem_map]
  exact safe_all (carriesMask (some config.value) edit.editOf)

/-- Two endpoints with a token each. -/
def twoEndpoints : StoredConfig where
  entries := [("endpoints".toList, .list
    [.dict [("token".toList, Value.str "first-endpoint".toList)],
      .dict [("token".toList, Value.str "second-endpoint".toList)]])]
  wellFormed := ⟨by decide, ⟨⟨by decide, trivial, trivial⟩, ⟨by decide, trivial, trivial⟩, trivial⟩,
    trivial⟩

/-- The first of them is deleted. -/
def deleteFirst : ListEdit twoEndpoints where
  draft := .dict [("endpoints".toList, .list
    [.dict [("token".toList, .secret (Value.str "second-endpoint".toList))]])]
  editOf := by
    refine ⟨rfl, ?_, trivial⟩
    refine ⟨.inr ⟨.dict [("token".toList, Value.str "second-endpoint".toList)], by simp, ?_⟩, trivial⟩
    exact ⟨rfl, rfl, trivial⟩

/-- The second endpoint's token is stored as `seco*******oint`. -/
theorem deleteFirst_not_kept : ¬ SecretsKept twoEndpoints deleteFirst := by
  intro h
  cases h.1 with
  | cons hfirst _ =>
      have htoken := hfirst _ rfl
      exact absurd (Document.scalar.inj htoken) (by decide)

end SmartMedia.Config
