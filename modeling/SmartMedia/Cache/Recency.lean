import SmartMedia.Cache.LRUCache
import SmartMedia.Library.Recency

/-!
# What the LRU cache guarantees

A history of calls has the last one in front. The value of the last `set` of a key is found unless
it has expired or as many other keys have been used since as the cache has room for.
-/
namespace SmartMedia.Cache.LRUCache
open Recency

variable {V : Type}

section Histories

/-- A call on the cache. -/
inductive Call (V : Type) where
  | get (key : Key)
  | contains (key : Key)
  | set (key : Key) (value : V) (ttl : Option ℚ)
  | delete (key : Key)
  | clear
  | cleanupExpired

/-- The cache after a call at `now`. -/
def call (c : LRUCache V) (now : ℚ) : Call V → LRUCache V
  | .get key => (c.get now key).2
  | .contains key => (c.contains now key).2
  | .set key value ttl => (c.set now key (some value) ttl).1
  | .delete key => (c.delete key).2
  | .clear => c.clear
  | .cleanupExpired => (c.cleanupExpired now).2

/-- The key that a call sets or reads successfully. -/
def usedKey (c : LRUCache V) (now : ℚ) : Call V → Option Key
  | .get key => if (c.get now key).1.isSome then some key else none
  | .contains key => if (c.contains now key).1 then some key else none
  | .set key _ _ => some key
  | .delete _ | .clear | .cleanupExpired => none

abbrev History (V : Type) := List (ℚ × Call V)

/-- The cache after a history. -/
def after (c : LRUCache V) : History V → LRUCache V
  | [] => c
  | event :: history => (c.after history).call event.1 event.2

/-- The other keys that have been used since the last use of the key. -/
def usedSince (c : LRUCache V) (key : Key) : History V → List Key
  | [] => []
  | event :: history =>
      match (c.after history).usedKey event.1 event.2 with
      | none => c.usedSince key history
      | some k => if k = key then [] else k :: c.usedSince key history

/-- What a `set` has written. -/
structure Written (V : Type) where
  value : V
  time : ℚ
  ttl : Option ℚ

/-- The last `set` of the key since it was deleted or the cache cleared. -/
def lastSet (key : Key) : History V → Option (Written V)
  | [] => none
  | event :: history =>
      match event.2 with
      | .set k value ttl => if k = key then some ⟨value, event.1, ttl⟩ else lastSet key history
      | .delete k => if k = key then none else lastSet key history
      | .clear => none
      | .get _ | .contains _ | .cleanupExpired => lastSet key history

def Written.entry (w : Written V) : Entry V := ⟨some w.value, w.time, w.ttl⟩

/-- The effective TTL is not over. -/
def Written.Fresh (w : Written V) (defaultTtl : Option ℚ) (now : ℚ) : Prop :=
  ∀ ttl, (w.ttl.orElse fun _ => defaultTtl) = some ttl → now - w.time ≤ ttl

end Histories

section Effects
variable {c c' : LRUCache V} {now : ℚ} {key k : Key} {e : Entry V} {value : Option V}
  {ttl : Option ℚ}

theorem expired_iff {w : Written V} : c.expired now w.entry = true ↔ ¬ w.Fresh c.ttl now := by
  rw [expired, Written.Fresh, Written.entry]
  cases w.ttl.orElse fun _ => c.ttl with
  | none => simp
  | some limit =>
      rw [decide_eq_true_iff]
      constructor
      · intro hlate hfresh
        exact absurd (hfresh limit rfl) (not_le.mpr hlate)
      · intro hlate
        by_contra hin
        refine hlate fun ttl httl => ?_
        rw [← Option.some_inj.mp httl]
        exact not_lt.mp hin

/-- A read finds nothing, removes an expired entry, or brings a live one to the front. -/
theorem get_cases (c : LRUCache V) (now : ℚ) (key : Key) :
    (c.cache.lookup key = none ∧ (c.get now key).1 = none ∧ (c.get now key).2.cache = c.cache) ∨
    (∃ e, c.cache.lookup key = some e ∧ c.expired now e = true ∧ (c.get now key).1 = none ∧
      (c.get now key).2.cache = c.cache.erase key) ∨
    ∃ e, c.cache.lookup key = some e ∧ c.expired now e = false ∧ (c.get now key).1 = e.value ∧
      (c.get now key).2.cache = c.cache.insert key e := by
  rw [get]
  cases he : c.cache.lookup key with
  | none => exact .inl ⟨rfl, rfl, count_cache _ _⟩
  | some e =>
      right
      by_cases hexpired : c.expired now e = true
      · simp only [hexpired]
        exact .inl ⟨e, rfl, hexpired, rfl, count_cache _ _⟩
      · simp only [hexpired]
        exact .inr ⟨e, rfl, Bool.eq_false_iff.mpr hexpired, rfl, count_cache _ _⟩

/-- The test for a key changes the cache as a read does. -/
theorem contains_cases (c : LRUCache V) (now : ℚ) (key : Key) :
    (c.contains now key).2.cache = (c.get now key).2.cache ∧
      ((c.contains now key).1 = true ↔ ∃ e, c.cache.lookup key = some e ∧ c.expired now e = false) := by
  rw [contains, get]
  cases he : c.cache.lookup key with
  | none => exact ⟨(count_cache _ _).symm, by simp⟩
  | some e =>
      by_cases hexpired : c.expired now e = true
      · simp only [hexpired]
        exact ⟨(count_cache _ _).trans (count_cache _ _).symm, by simp [hexpired]⟩
      · simp only [hexpired]
        exact ⟨(count_cache _ _).symm, by simp [hexpired]⟩

/-- A `set` makes room by removing the key that was used longest ago. -/
theorem set_cases (now : ℚ) (key : Key) (value : Option V) (ttl : Option ℚ)
    (hpos : 0 < c.maxsize) :
    (((c.cache.erase key).keys.length : ℤ) < c.maxsize ∧
      (c.set now key value ttl).1.cache = (c.cache.erase key).insert key ⟨value, now, ttl⟩) ∨
    ∃ oldest, c.maxsize ≤ (c.cache.erase key).keys.length ∧
      (c.cache.erase key).keys.getLast? = some oldest ∧
      (c.set now key value ttl).1.cache =
        ((c.cache.erase key).erase oldest).insert key ⟨value, now, ttl⟩ := by
  have hlength : (c.cache.erase key).keys.length = (c.cache.erase key).entries.length :=
    List.length_map _
  simp only [set, hlength]
  split_ifs with hsize
  · exact .inl ⟨hsize, count_cache _ _⟩
  · right
    cases hlast : (c.cache.erase key).keys.getLast? with
    | none =>
        rw [entries_eq_nil hlast] at hsize
        exact absurd hpos hsize
    | some oldest => exact ⟨oldest, not_lt.mp hsize, rfl, count_cache _ _⟩

theorem lookup_eraseAll (keys : List Key) (cache : AList fun _ : Key => Entry V) :
    (keys.foldl (fun cache key => cache.erase key) cache).entries.Sublist cache.entries ∧
      (k ∉ keys →
        (keys.foldl (fun cache key => cache.erase key) cache).lookup k = cache.lookup k) := by
  induction keys generalizing cache with
  | nil => exact ⟨List.Sublist.refl _, fun _ => rfl⟩
  | cons key keys ih =>
      obtain ⟨hsub, hlookup⟩ := ih (cache.erase key)
      refine ⟨hsub.trans (List.kerase_sublist key cache.entries), fun hk => ?_⟩
      rw [List.mem_cons, not_or] at hk
      rw [List.foldl_cons, hlookup hk.2, AList.lookup_erase_ne hk.1]

/-- The clean-up removes expired entries only. -/
theorem cleanupExpired_spec (c : LRUCache V) (now : ℚ) :
    (c.cleanupExpired now).2.cache.entries.Sublist c.cache.entries ∧
      ∀ k e, c.cache.lookup k = some e →
        (c.cleanupExpired now).2.cache.lookup k = some e ∨ c.expired now e = true := by
  have hcache : (c.cleanupExpired now).2.cache =
      (c.expiredKeys now).foldl (fun cache key => cache.erase key) c.cache := by
    simp only [cleanupExpired]
    split_ifs
    · rfl
    · exact count_cache _ _
  rw [hcache]
  refine ⟨(lookup_eraseAll (k := []) _ _).1, fun k e he => ?_⟩
  by_cases hk : k ∈ c.expiredKeys now
  · obtain ⟨entry, hentry, rfl⟩ := List.mem_map.mp hk
    obtain ⟨hmem, hexpired⟩ := List.mem_filter.mp hentry
    have hsame : c.cache.lookup entry.1 = some entry.2 :=
      AList.mem_lookup_iff.mpr (List.mem_reverse.mp hmem)
    rw [hsame] at he
    cases he
    exact .inr hexpired
  · rw [(lookup_eraseAll _ _).2 hk]
    exact .inl he

/-- The key is deleted, or the cache cleared. -/
def Call.Forgets (key : Key) : Call V → Prop
  | .delete k => k = key
  | .clear => True
  | .get _ | .contains _ | .set _ _ _ | .cleanupExpired => False

/-- What a call does to the cache, and which key it uses. -/
inductive Effect (c c' : LRUCache V) (now : ℚ) : Call V → Option Key → Prop
  /-- Expired or forgotten entries are removed. -/
  | removed (a : Call V) (hset : ∀ key value ttl, a ≠ .set key value ttl)
      (hsub : c'.cache.entries.Sublist c.cache.entries)
      (hkept : ∀ k e, c.cache.lookup k = some e →
        c'.cache.lookup k = some e ∨ c.expired now e = true ∨ a.Forgets k)
      (hforgotten : ∀ k, a.Forgets k → c'.cache.lookup k = none) : Effect c c' now a none
  /-- A live entry is brought to the front. -/
  | read (a : Call V) (key : Key) (e : Entry V) (hread : a = .get key ∨ a = .contains key)
      (hlookup : c.cache.lookup key = some e)
      (hcache : c'.cache = c.cache.insert key e) : Effect c c' now a (some key)
  /-- A new entry comes to the front, if need be at the expense of the last one. -/
  | written (key : Key) (value : V) (ttl : Option ℚ) (kept : AList fun _ : Key => Entry V)
      (hkept : (kept = c.cache.erase key ∧ (kept.keys.length : ℤ) < c.maxsize) ∨
        ∃ oldest, kept = (c.cache.erase key).erase oldest ∧
          c.maxsize ≤ (c.cache.erase key).keys.length ∧
          (c.cache.erase key).keys.getLast? = some oldest)
      (hcache : c'.cache = kept.insert key ⟨some value, now, ttl⟩) :
      Effect c c' now (.set key value ttl) (some key)

/-- There is an entry that has not expired. -/
def Live (c : LRUCache V) (now : ℚ) (key : Key) : Prop :=
  ∃ e, c.cache.lookup key = some e ∧ c.expired now e = false

theorem not_live_of_none (h : c.cache.lookup key = none) : ¬ c.Live now key := by
  rintro ⟨e, he, -⟩
  rw [h] at he
  cases he

theorem not_live_of_expired (h : c.cache.lookup key = some e) (hexpired : c.expired now e = true) :
    ¬ c.Live now key := by
  rintro ⟨e', he', halive⟩
  rw [h] at he'
  cases he'
  rw [hexpired] at halive
  cases halive

theorem read_effect {a : Call V} (hread : a = .get key ∨ a = .contains key)
    (hcache : c'.cache = (c.get now key).2.cache) :
    (¬ c.Live now key ∧ Effect c c' now a none) ∨ (c.Live now key ∧ Effect c c' now a (some key)) := by
  have hset : ∀ key value ttl, a ≠ .set key value ttl := by
    rintro k value ttl rfl
    rcases hread with h | h
    · cases h
    · cases h
  have hforgotten : ∀ k, ¬ a.Forgets k := by
    rcases hread with rfl | rfl
    · exact fun k => id
    · exact fun k => id
  rcases get_cases c now key with ⟨hnone, -, hsame⟩ | ⟨e, he, hexpired, -, herase⟩ |
    ⟨e, he, halive, -, hfront⟩
  · refine .inl ⟨not_live_of_none hnone, .removed a hset ?_ ?_ fun k h => absurd h (hforgotten k)⟩
    · rw [hcache, hsame]
    · rw [hcache, hsame]
      exact fun k e hk => .inl hk
  · refine .inl ⟨not_live_of_expired he hexpired,
      .removed a hset ?_ ?_ fun k h => absurd h (hforgotten k)⟩
    · rw [hcache, herase]
      exact List.kerase_sublist key c.cache.entries
    · rw [hcache, herase]
      intro k e' hk
      by_cases heq : k = key
      · subst heq
        rw [he] at hk
        cases hk
        exact .inr (.inl hexpired)
      · rw [AList.lookup_erase_ne heq]
        exact .inl hk
  · exact .inr ⟨⟨e, he, halive⟩, .read a key e hread he (hcache.trans hfront)⟩

theorem get_isSome_iff (hvalues : ∀ k e, c.cache.lookup k = some e → e.value.isSome = true) :
    (c.get now key).1.isSome = true ↔ c.Live now key := by
  rcases get_cases c now key with ⟨hnone, hresult, -⟩ | ⟨e, he, hexpired, hresult, -⟩ |
    ⟨e, he, halive, hresult, -⟩
  · rw [hresult]
    exact iff_of_false Bool.false_ne_true (not_live_of_none hnone)
  · rw [hresult]
    exact iff_of_false Bool.false_ne_true (not_live_of_expired he hexpired)
  · rw [hresult]
    exact iff_of_true (hvalues key e he) ⟨e, he, halive⟩

theorem call_effect (now : ℚ) (hpos : 0 < c.maxsize)
    (hvalues : ∀ k e, c.cache.lookup k = some e → e.value.isSome = true) (a : Call V) :
    Effect c (c.call now a) now a (c.usedKey now a) := by
  cases a with
  | get key =>
      rw [usedKey]
      rcases read_effect (.inl rfl) rfl with ⟨hdead, heffect⟩ | ⟨hlive, heffect⟩
      · rw [if_neg fun h => hdead ((get_isSome_iff hvalues).mp h)]
        exact heffect
      · rw [if_pos ((get_isSome_iff hvalues).mpr hlive)]
        exact heffect
  | contains key =>
      rw [usedKey]
      obtain ⟨hcache, hfound⟩ := contains_cases c now key
      rcases read_effect (.inr rfl) hcache with ⟨hdead, heffect⟩ | ⟨hlive, heffect⟩
      · rw [if_neg fun h => hdead (hfound.mp h)]
        exact heffect
      · rw [if_pos (hfound.mpr hlive)]
        exact heffect
  | set key value ttl =>
      rcases set_cases now key (some value) ttl hpos with
        ⟨hroom, hcache⟩ | ⟨oldest, hfull, hlast, hcache⟩
      · exact .written key value ttl _ (.inl ⟨rfl, hroom⟩) hcache
      · exact .written key value ttl _ (.inr ⟨oldest, rfl, hfull, hlast⟩) hcache
  | delete key =>
      have hcache : (c.delete key).2.cache = c.cache.erase key := by
        rw [delete]
        split_ifs with hmem
        · exact count_cache _ _
        · exact AList.ext (List.kerase_of_notMem_keys hmem).symm
      have hforgets : ∀ k, (Call.delete key : Call V).Forgets k ↔ key = k := fun k => Iff.rfl
      refine .removed _ (fun _ _ _ h => by cases h) ?_ (fun k e he => ?_) fun k h => ?_
      · rw [call, hcache]
        exact List.kerase_sublist key c.cache.entries
      · rw [call, hcache]
        by_cases hk : k = key
        · exact .inr (.inr hk.symm)
        · rw [AList.lookup_erase_ne hk]
          exact .inl he
      · obtain rfl := (hforgets k).mp h
        rw [call, hcache]
        exact AList.lookup_erase key c.cache
  | clear =>
      refine .removed _ (fun _ _ _ h => by cases h) (List.nil_sublist _)
        (fun k e he => .inr (.inr trivial)) fun k h => lookup_clear c k
  | cleanupExpired =>
      obtain ⟨hsub, hkept⟩ := cleanupExpired_spec c now
      refine .removed _ (fun _ _ _ h => by cases h) hsub (fun k e he => ?_) fun k h => h.elim
      exact (hkept k e he).imp_right .inl

end Effects

section Runs
variable {start : LRUCache V} {history : History V} {now : ℚ} {a : Call V} {key k : Key}
  {w : Written V}

theorem lastSet_of_forgets (h : a.Forgets k) : lastSet k ((now, a) :: history) = none := by
  cases a with
  | delete key => exact if_pos h
  | clear => rfl
  | get key => exact h.elim
  | contains key => exact h.elim
  | set key value ttl => exact h.elim
  | cleanupExpired => exact h.elim

theorem lastSet_of_not_forgets (hset : ∀ key value ttl, a ≠ .set key value ttl)
    (h : ¬ a.Forgets k) : lastSet k ((now, a) :: history) = lastSet k history := by
  cases a with
  | delete key => exact if_neg h
  | clear => exact absurd trivial h
  | get key => rfl
  | contains key => rfl
  | set key value ttl => exact absurd rfl (hset key value ttl)
  | cleanupExpired => rfl

theorem usedSince_cons (start : LRUCache V) (k : Key) (event : ℚ × Call V) (history : History V) :
    start.usedSince k (event :: history) =
      match (start.after history).usedKey event.1 event.2 with
      | none => start.usedSince k history
      | some k' => if k' = k then [] else k' :: start.usedSince k history := rfl

/-- How the cache is related to the history. -/
structure Consistent (start : LRUCache V) (history : History V) : Prop where
  maxsize : (start.after history).maxsize = start.maxsize
  ttl : (start.after history).ttl = start.ttl
  size : ((start.after history).cache.keys.length : ℤ) ≤ start.maxsize
  stored : ∀ k e, (start.after history).cache.lookup k = some e →
    ∃ w, lastSet k history = some w ∧ e = w.entry
  ahead : ∀ k ∈ (start.after history).cache.keys, ∀ x ∈ ahead k (start.after history).cache.keys,
    x ∈ start.usedSince k history
  missing : ∀ k w, lastSet k history = some w → (start.after history).cache.lookup k = none →
    (∃ event ∈ history, ¬ w.Fresh start.ttl event.1) ∨
      start.maxsize ≤ (start.usedSince k history).dedup.length

/-- A call leaves the configuration as it is. -/
theorem call_config (c : LRUCache V) (now : ℚ) (a : Call V) :
    (c.call now a).maxsize = c.maxsize ∧ (c.call now a).ttl = c.ttl := by
  cases a with
  | get key => exact ⟨get_maxsize, get_ttl⟩
  | contains key =>
      rw [call, contains]
      cases c.cache.lookup key with
      | none => exact ⟨rfl, rfl⟩
      | some e =>
          dsimp only
          split_ifs
          · exact ⟨count_maxsize _ _, count_ttl _ _⟩
          · exact ⟨rfl, rfl⟩
  | set key value ttl => exact ⟨set_maxsize, set_ttl⟩
  | delete key =>
      rw [call, delete]
      split_ifs
      · exact ⟨count_maxsize _ _, count_ttl _ _⟩
      · exact ⟨rfl, rfl⟩
  | clear => exact ⟨rfl, rfl⟩
  | cleanupExpired =>
      simp only [call, cleanupExpired]
      split_ifs
      · exact ⟨rfl, rfl⟩
      · exact ⟨count_maxsize _ _, count_ttl _ _⟩

theorem dedup_length_mono {l l' : List Key} (h : l ⊆ l') : l.dedup.length ≤ l'.dedup.length :=
  (l.nodup_dedup.subperm fun _ hx =>
    List.mem_dedup.mpr (h (List.mem_dedup.mp hx))).length_le

theorem Consistent.removed (h : Consistent start history)
    (hset : ∀ key value ttl, a ≠ .set key value ttl)
    (hused : (start.after history).usedKey now a = none)
    (hsub : ((start.after history).call now a).cache.entries.Sublist
      (start.after history).cache.entries)
    (hkept : ∀ k e, (start.after history).cache.lookup k = some e →
      ((start.after history).call now a).cache.lookup k = some e ∨
        (start.after history).expired now e = true ∨ a.Forgets k)
    (hforgotten : ∀ k, a.Forgets k → ((start.after history).call now a).cache.lookup k = none) :
    Consistent start ((now, a) :: history) := by
  obtain ⟨hmaxsize, httl⟩ := call_config (start.after history) now a
  have hkeys : ((start.after history).call now a).cache.keys.Sublist
      (start.after history).cache.keys := hsub.map Sigma.fst
  have hsame : ∀ k, start.usedSince k ((now, a) :: history) = start.usedSince k history := by
    intro k
    rw [usedSince_cons, hused]
  constructor
  · exact hmaxsize.trans h.maxsize
  · exact httl.trans h.ttl
  · exact le_trans (by exact_mod_cast hkeys.length_le) h.size
  · intro k e he
    have hforgets : ¬ a.Forgets k := by
      intro hf
      rw [after, hforgotten k hf] at he
      cases he
    rw [lastSet_of_not_forgets hset hforgets]
    exact h.stored k e (AList.mem_lookup_iff.mpr (hsub.mem (AList.mem_lookup_iff.mp he)))
  · intro k hk x hx
    rw [hsame]
    exact h.ahead k (hkeys.mem hk) x
      (mem_ahead_of_sublist hkeys (AList.keys_nodup _) hk hx)
  · intro k w hw hnone
    have hforgets : ¬ a.Forgets k := by
      intro hf
      rw [lastSet_of_forgets hf] at hw
      cases hw
    rw [lastSet_of_not_forgets hset hforgets] at hw
    rw [hsame]
    cases hlookup : (start.after history).cache.lookup k with
    | none =>
        refine (h.missing k w hw hlookup).imp_left ?_
        rintro ⟨event, hevent, hlate⟩
        exact ⟨event, List.mem_cons_of_mem _ hevent, hlate⟩
    | some e =>
        rcases hkept k e hlookup with hstill | hexpired | hf
        · rw [after, hstill] at hnone
          cases hnone
        · obtain ⟨w', hw', rfl⟩ := h.stored k e hlookup
          rw [hw] at hw'
          cases hw'
          rw [expired_iff, h.ttl] at hexpired
          exact .inl ⟨(now, a), List.mem_cons_self, hexpired⟩
        · exact absurd hf hforgets

theorem keys_insert (cache : AList fun _ : Key => Entry V) (key : Key) (e : Entry V) :
    (cache.insert key e).keys = key :: (cache.erase key).keys := rfl

theorem keys_erase_sublist (cache : AList fun _ : Key => Entry V) (key : Key) :
    (cache.erase key).keys.Sublist cache.keys :=
  (List.kerase_sublist key cache.entries).map Sigma.fst

theorem length_keys_erase {cache : AList fun _ : Key => Entry V} (h : key ∈ cache.keys) :
    (cache.erase key).keys.length + 1 = cache.keys.length := by
  have hlength := @List.length_erase_of_mem _ instBEqOfDecidableEq _ _ _ h
  have hpos := List.length_pos_of_mem h
  rw [AList.keys_erase, hlength]
  omega

theorem Consistent.read (h : Consistent start history) {e : Entry V}
    (hread : a = .get key ∨ a = .contains key)
    (hused : (start.after history).usedKey now a = some key)
    (hlookup : (start.after history).cache.lookup key = some e)
    (hcache : ((start.after history).call now a).cache =
      (start.after history).cache.insert key e) :
    Consistent start ((now, a) :: history) := by
  obtain ⟨hmaxsize, httl⟩ := call_config (start.after history) now a
  have hset : ∀ key value ttl, a ≠ .set key value ttl := by
    rintro k value ttl rfl
    rcases hread with h | h
    · cases h
    · cases h
  have hsame : ∀ k, lastSet k ((now, a) :: history) = lastSet k history := by
    intro k
    refine lastSet_of_not_forgets hset ?_
    rcases hread with rfl | rfl
    · exact id
    · exact id
  have hused : ∀ k, start.usedSince k ((now, a) :: history) =
      if key = k then [] else key :: start.usedSince k history := by
    intro k
    rw [usedSince_cons, hused]
  have hmem : key ∈ (start.after history).cache.keys := by
    rw [← AList.mem_keys, ← AList.lookup_isSome, hlookup]
    rfl
  have hkeys : ((start.after history).call now a).cache.keys =
      key :: ((start.after history).cache.erase key).keys := congrArg AList.keys hcache
  have hlookups : ∀ k, ((start.after history).call now a).cache.lookup k =
      (start.after history).cache.lookup k := by
    intro k
    rw [hcache]
    by_cases hk : k = key
    · rw [hk, AList.lookup_insert, hlookup]
    · rw [AList.lookup_insert_ne hk]
  constructor
  · exact hmaxsize.trans h.maxsize
  · exact httl.trans h.ttl
  · rw [after, hkeys, List.length_cons, length_keys_erase hmem]
    exact h.size
  · intro k e' he'
    rw [after, hlookups] at he'
    rw [hsame]
    exact h.stored k e' he'
  · intro k hk x hx
    rw [after, hkeys] at hk hx
    rw [hused]
    by_cases hkey : key = k
    · rw [hkey, ahead_cons_self] at hx
      cases hx
    · rw [if_neg hkey]
      rcases mem_ahead_of_front (keys_erase_sublist _ key) (AList.keys_nodup _) hkey hk hx with
        rfl | ⟨hold, hx⟩
      · exact List.mem_cons_self
      · exact List.mem_cons_of_mem _ (h.ahead k hold x hx)
  · intro k w hw hnone
    rw [hsame] at hw
    rw [after, hlookups] at hnone
    have hkey : key ≠ k := by
      rintro rfl
      rw [hlookup] at hnone
      cases hnone
    rw [hused, if_neg hkey]
    rcases h.missing k w hw hnone with ⟨event, hevent, hlate⟩ | hfull
    · exact .inl ⟨event, List.mem_cons_of_mem _ hevent, hlate⟩
    · refine .inr (hfull.trans ?_)
      exact_mod_cast dedup_length_mono (List.subset_cons_self key _)

theorem Consistent.written (h : Consistent start history) {value : V} {ttl : Option ℚ}
    {kept : AList fun _ : Key => Entry V}
    (hkept : (kept = (start.after history).cache.erase key ∧
        (kept.keys.length : ℤ) < (start.after history).maxsize) ∨
      ∃ oldest, kept = ((start.after history).cache.erase key).erase oldest ∧
        (start.after history).maxsize ≤ ((start.after history).cache.erase key).keys.length ∧
        ((start.after history).cache.erase key).keys.getLast? = some oldest)
    (hcache : ((start.after history).call now (.set key value ttl)).cache =
      kept.insert key ⟨some value, now, ttl⟩) :
    Consistent start ((now, .set key value ttl) :: history) := by
  obtain ⟨hmaxsize, httl⟩ := call_config (start.after history) now (.set key value ttl)
  have hsub : kept.entries.Sublist ((start.after history).cache.erase key).entries := by
    rcases hkept with ⟨rfl, -⟩ | ⟨oldest, rfl, -, -⟩
    · exact List.Sublist.refl _
    · exact List.kerase_sublist oldest _
  have hsub' : kept.entries.Sublist (start.after history).cache.entries :=
    hsub.trans (List.kerase_sublist key _)
  have hnew : key ∉ kept.keys := fun hmem =>
    (AList.mem_erase.mp (AList.mem_keys.mpr ((hsub.map Sigma.fst).mem hmem))).1 rfl
  have hkeys : ((start.after history).call now (.set key value ttl)).cache.keys = key :: kept.keys := by
    rw [hcache, keys_insert]
    exact congrArg (key :: ·) (congrArg List.keys (List.kerase_of_notMem_keys hnew))
  have hused : ∀ k, start.usedSince k ((now, .set key value ttl) :: history) =
      if key = k then [] else key :: start.usedSince k history := fun k => rfl
  have hlast : ∀ k, lastSet k ((now, .set key value ttl) :: history) =
      if key = k then some ⟨value, now, ttl⟩ else lastSet k history := fun k => rfl
  constructor
  · exact hmaxsize.trans h.maxsize
  · exact httl.trans h.ttl
  · have hlength : (kept.keys.length : ℤ) < start.maxsize := by
      rcases hkept with ⟨-, hroom⟩ | ⟨oldest, rfl, -, holdest⟩
      · rwa [h.maxsize] at hroom
      · have hless := (keys_erase_sublist (start.after history).cache key).length_le
        have hone := length_keys_erase (List.mem_of_getLast? holdest)
        have hsize := h.size
        omega
    rw [after, hkeys, List.length_cons]
    omega
  · intro k e' he'
    rw [hlast]
    rw [after, hcache] at he'
    by_cases hkey : key = k
    · subst hkey
      rw [AList.lookup_insert] at he'
      cases he'
      exact ⟨_, if_pos rfl, rfl⟩
    · rw [AList.lookup_insert_ne (Ne.symm hkey)] at he'
      rw [if_neg hkey]
      exact h.stored k e' (AList.mem_lookup_iff.mpr (hsub'.mem (AList.mem_lookup_iff.mp he')))
  · intro k hk x hx
    rw [after, hkeys] at hk hx
    rw [hused]
    by_cases hkey : key = k
    · rw [hkey, ahead_cons_self] at hx
      cases hx
    · rw [if_neg hkey]
      rcases mem_ahead_of_front (hsub'.map Sigma.fst) (AList.keys_nodup _) hkey hk hx with
        rfl | ⟨hold, hx⟩
      · exact List.mem_cons_self
      · exact List.mem_cons_of_mem _ (h.ahead k hold x hx)
  · intro k w hw hnone
    rw [hlast] at hw
    rw [after, hcache] at hnone
    have hkey : key ≠ k := by
      rintro rfl
      rw [AList.lookup_insert] at hnone
      cases hnone
    rw [if_neg hkey] at hw
    rw [AList.lookup_insert_ne (Ne.symm hkey)] at hnone
    rw [hused, if_neg hkey]
    have hgone : (start.after history).cache.lookup k = none →
        (∃ event ∈ (now, .set key value ttl) :: history, ¬ w.Fresh start.ttl event.1) ∨
          start.maxsize ≤ (key :: start.usedSince k history).dedup.length := by
      intro hlookup
      rcases h.missing k w hw hlookup with ⟨event, hevent, hlate⟩ | hfull
      · exact .inl ⟨event, List.mem_cons_of_mem _ hevent, hlate⟩
      · refine .inr (hfull.trans ?_)
        exact_mod_cast dedup_length_mono (List.subset_cons_self key _)
    rcases hkept with ⟨rfl, -⟩ | ⟨oldest, rfl, hfull, holdest⟩
    · rw [AList.lookup_erase_ne (Ne.symm hkey)] at hnone
      exact hgone hnone
    · by_cases heq : k = oldest
      · subst heq
        -- the key itself has made room for the new one
        refine .inr ?_
        rw [h.maxsize] at hfull
        refine hfull.trans ?_
        have hold := List.mem_of_getLast? holdest
        have herased := keys_erase_sublist (start.after history).cache key
        have hcount := length_le_of_last (AList.keys_nodup _) holdest
          (fun hmem => (AList.mem_erase.mp hmem).1 rfl) fun x hx =>
            h.ahead k (herased.mem hold) x
              (mem_ahead_of_sublist herased (AList.keys_nodup _) hold hx)
        exact_mod_cast hcount
      · rw [AList.lookup_erase_ne heq, AList.lookup_erase_ne (Ne.symm hkey)] at hnone
        exact hgone hnone

theorem Consistent.step (hpos : 0 < start.maxsize) (h : Consistent start history) (now : ℚ)
    (a : Call V) : Consistent start ((now, a) :: history) := by
  have hvalues : ∀ k e, (start.after history).cache.lookup k = some e → e.value.isSome = true := by
    intro k e he
    obtain ⟨w, -, rfl⟩ := h.stored k e he
    rfl
  have heffect := call_effect now (hpos.trans_eq h.maxsize.symm) hvalues a
  generalize hused : (start.after history).usedKey now a = used at heffect
  cases heffect with
  | removed _ hset hsub hkept hforgotten => exact h.removed hset hused hsub hkept hforgotten
  | read _ key e hread hlookup hcache => exact h.read hread hused hlookup hcache
  | written key value ttl kept hkept hcache => exact h.written hkept hcache

theorem consistent_new (maxsize : ℤ) (ttl : Option ℚ) (enableStats : Bool) (hpos : 0 < maxsize) :
    Consistent (new maxsize ttl enableStats : LRUCache V) [] where
  maxsize := rfl
  ttl := rfl
  size := hpos.le
  stored := fun k e h => by cases h
  ahead := fun k h => by cases h
  missing := fun k w h => by cases h

theorem consistent_after (maxsize : ℤ) (ttl : Option ℚ) (enableStats : Bool) (hpos : 0 < maxsize)
    (history : History V) : Consistent (new maxsize ttl enableStats) history := by
  induction history with
  | nil => exact consistent_new maxsize ttl enableStats hpos
  | cons event history ih => exact ih.step hpos event.1 event.2

theorem Written.Fresh.mono {limit : Option ℚ} {earlier : ℚ} (h : w.Fresh limit now)
    (hle : earlier ≤ now) : w.Fresh limit earlier :=
  fun ttl httl => (sub_le_sub_right hle w.time).trans (h ttl httl)

end Runs

section Guarantee

/-- The cache never holds more than its size; a read finds the value of the last `set` only, and not
after its TTL; and it finds that value unless as many other keys have been used since. -/
theorem lru_guarantee (maxsize : ℤ) (ttl : Option ℚ) (enableStats : Bool) (hpos : 1 ≤ maxsize)
    (history : History V) (now : ℚ) (hnow : ∀ event ∈ history, event.1 ≤ now) (key : Key) :
    let start : LRUCache V := new maxsize ttl enableStats
    let c := start.after history
    (c.cache.entries.length : ℤ) ≤ maxsize ∧
      (∀ v, (c.get now key).1 = some v →
        ∃ w, lastSet key history = some w ∧ w.value = v ∧ w.Fresh ttl now) ∧
      ∀ w, lastSet key history = some w → w.Fresh ttl now →
        ((start.usedSince key history).dedup.length : ℤ) < maxsize →
        (c.get now key).1 = some w.value := by
  have h := consistent_after maxsize ttl enableStats hpos history
  refine ⟨?_, fun v hv => ?_, fun w hw hfresh hfew => ?_⟩
  · have hsize := h.size
    rwa [AList.keys, List.keys, List.length_map] at hsize
  · obtain ⟨e, he, hvalue, halive⟩ := alive_of_get hv
    obtain ⟨w, hw, rfl⟩ := h.stored key e he
    refine ⟨w, hw, Option.some_inj.mp hvalue, ?_⟩
    by_contra hlate
    rw [expired_iff.mpr (by rwa [h.ttl])] at halive
    cases halive
  · rcases get_cases ((new maxsize ttl enableStats).after history) now key with
      ⟨hnone, -, -⟩ | ⟨e, he, hexpired, -, -⟩ | ⟨e, he, -, hresult, -⟩
    · rcases h.missing key w hw hnone with ⟨event, hevent, hlate⟩ | hfull
      · exact absurd (hfresh.mono (hnow event hevent)) hlate
      · exact absurd hfew (not_lt.mpr hfull)
    · obtain ⟨w', hw', rfl⟩ := h.stored key e he
      rw [hw] at hw'
      cases hw'
      rw [expired_iff, h.ttl] at hexpired
      exact absurd hfresh hexpired
    · obtain ⟨w', hw', rfl⟩ := h.stored key e he
      rw [hw] at hw'
      cases hw'
      exact hresult

/-- The value that was set last is found in time. -/
theorem singleEntry_found :
    (((new 1 (some 10) true : LRUCache ℕ).after [(3, .get ['b']), (0, .set ['a'] 7 none)]).get 10
      ['a']).1 = some 7 :=
  (lru_guarantee 1 (some 10) true le_rfl [(3, .get ['b']), (0, .set ['a'] 7 none)] 10
    (by simp; norm_num) ['a']).2.2 ⟨7, 0, none⟩ rfl
    (fun ttl h => by cases h; norm_num) (by decide +kernel)

end Guarantee

end SmartMedia.Cache.LRUCache
