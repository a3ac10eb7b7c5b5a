import Mathlib.Algebra.Order.Ring.Rat
import Mathlib.Data.List.Sort
import SmartMedia.Library.StableSort

/-!
# The cache of direct links

`LinkCacheLegacy` of `app/services/link_cache.py`. Its dictionary is a list of entries in the order
in which their keys were first set. A method holds the lock from its first access to the dictionary
to its last and awaits nothing there; each reading of `time.time()` is an argument of its own.
-/
namespace SmartMedia.Playback

structure CacheEntry where
  key : String
  value : String
  headers : List (String × String) := []
  ttl : ℚ
  createdAt : ℚ
  expiresAt : ℚ
  accessCount : ℕ := 0
  lastAccessedAt : ℚ
  deriving DecidableEq, Repr

namespace CacheEntry

def new (now : ℚ) (key value : String) (headers : List (String × String)) (ttl : ℚ) : CacheEntry :=
  { key, value, headers, ttl, createdAt := now, expiresAt := now + ttl, lastAccessedAt := now }

def isExpired (entry : CacheEntry) (now : ℚ) : Bool := entry.expiresAt < now

def touch (entry : CacheEntry) (now : ℚ) : CacheEntry :=
  { entry with accessCount := entry.accessCount + 1, lastAccessedAt := now }

end CacheEntry

structure LinkCache where
  defaultTtl : ℚ := 600
  maxSize : ℤ := 1000
  entries : List CacheEntry := []
  deriving DecidableEq, Repr

namespace LinkCache

def lookup (c : LinkCache) (key : String) : Option CacheEntry := c.entries.find? (·.key = key)

def remove (c : LinkCache) (key : String) : LinkCache :=
  { c with entries := c.entries.filter (·.key ≠ key) }

/-- `self._cache[entry.key] = entry`. -/
def assign (c : LinkCache) (entry : CacheEntry) : LinkCache :=
  { c with
    entries := if c.entries.any (·.key = entry.key) then
        c.entries.map fun old => if old.key = entry.key then entry else old
      else c.entries ++ [entry] }

/-- `get`, which reads the time for `is_expired` and for `touch`. -/
def get (c : LinkCache) (checked touched : ℚ) (key : String) : Option CacheEntry × LinkCache :=
  match c.lookup key with
  | none => (none, c)
  | some entry =>
      if entry.isExpired checked then (none, c.remove key)
      else (some (entry.touch touched), c.assign (entry.touch touched))

/-- `_cleanup_expired`, which reads the time for each entry. -/
def cleanupExpired (c : LinkCache) (checked : String → ℚ) : LinkCache :=
  { c with entries := c.entries.filter fun entry => !entry.isExpired (checked entry.key) }

/-- The entries in the order of their last access. -/
def sortedEntries (c : LinkCache) : List CacheEntry :=
  c.entries.insertionSort fun a b => a.lastAccessedAt ≤ b.lastAccessedAt

def evictCount (c : LinkCache) : ℕ := max 1 (c.sortedEntries.length / 10)

def oldestKeys (c : LinkCache) : List String := (c.sortedEntries.take c.evictCount).map (·.key)

def evictOldest (c : LinkCache) : LinkCache :=
  if c.entries = [] then c
  else { c with entries := c.entries.filter (·.key ∉ c.oldestKeys) }

/-- The dictionary before `set` assigns. -/
def makeRoom (c : LinkCache) (checked : String → ℚ) : LinkCache :=
  if c.maxSize ≤ c.entries.length then
    let cleaned := c.cleanupExpired checked
    if c.maxSize ≤ cleaned.entries.length then cleaned.evictOldest else cleaned
  else c

/-- `ttl or self.default_ttl`. -/
def cacheTtl (c : LinkCache) (ttl : Option ℚ) : ℚ := (ttl.filter (· ≠ 0)).getD c.defaultTtl

def set (c : LinkCache) (checked : String → ℚ) (created : ℚ) (key value : String)
    (headers : List (String × String)) (ttl : Option ℚ) : LinkCache :=
  (c.makeRoom checked).assign (.new created key value headers (c.cacheTtl ttl))

def clear (c : LinkCache) : LinkCache := { c with entries := [] }

/-- One turn of `_cleanup_loop`. -/
def cleanupTurn (c : LinkCache) (checked : String → ℚ) : LinkCache :=
  let cleaned := c.cleanupExpired checked
  if cleaned.maxSize < cleaned.entries.length then cleaned.evictOldest else cleaned

section Lemmas
variable {c : LinkCache} {checked : String → ℚ} {entry e : CacheEntry} {key : String}

/-- What the code keeps of the dictionary: distinct keys and a bounded size. -/
structure WellKept (c : LinkCache) : Prop where
  nodup : (c.entries.map (·.key)).Nodup
  bounded : (c.entries.length : ℤ) ≤ max 1 c.maxSize

theorem mem_of_lookup (h : c.lookup key = some e) : e ∈ c.entries ∧ e.key = key :=
  ⟨List.mem_of_find?_eq_some h, by simpa using List.find?_some h⟩

theorem mem_assign (h : e ∈ (c.assign entry).entries) : e = entry ∨ e ∈ c.entries := by
  rw [assign] at h
  dsimp only at h
  split_ifs at h
  · obtain ⟨old, hold, rfl⟩ := List.mem_map.mp h
    split_ifs
    · exact .inl rfl
    · exact .inr hold
  · rcases List.mem_append.mp h with h | h
    · exact .inr h
    · exact .inl (List.mem_singleton.mp h)

theorem map_key_assign : (c.assign entry).entries.map (·.key) =
    if entry.key ∈ c.entries.map (·.key) then c.entries.map (·.key)
    else c.entries.map (·.key) ++ [entry.key] := by
  have hany : c.entries.any (·.key = entry.key) = true ↔ entry.key ∈ c.entries.map (·.key) := by
    simp
  rw [assign]
  dsimp only
  by_cases hmem : entry.key ∈ c.entries.map (·.key)
  · rw [if_pos (hany.mpr hmem), if_pos hmem, List.map_map]
    apply List.map_congr_left
    intro old _
    rw [Function.comp_apply]
    split_ifs with hkey
    · exact hkey.symm
    · rfl
  · rw [if_neg (mt hany.mp hmem), if_neg hmem, List.map_append, List.map_singleton]

theorem nodup_assign (h : (c.entries.map (·.key)).Nodup) :
    ((c.assign entry).entries.map (·.key)).Nodup := by
  rw [map_key_assign]
  split_ifs with hmem
  · exact h
  · refine List.nodup_append.mpr ⟨h, List.nodup_singleton _, ?_⟩
    intro a ha b hb hab
    rw [List.mem_singleton.mp hb] at hab
    exact hmem (hab ▸ ha)

theorem length_assign : (c.assign entry).entries.length =
    if entry.key ∈ c.entries.map (·.key) then c.entries.length else c.entries.length + 1 := by
  have hlength : ((c.assign entry).entries.map (·.key)).length = _ :=
    congrArg List.length map_key_assign
  rw [List.length_map] at hlength
  rw [hlength]
  split_ifs
  · exact List.length_map _
  · rw [List.length_append, List.length_map, List.length_singleton]

/-- Removing entries keeps what is kept. -/
theorem WellKept.filter (h : c.WellKept) (p : CacheEntry → Bool) :
    WellKept { c with entries := c.entries.filter p } := by
  have hsub : (c.entries.filter p).Sublist c.entries := List.filter_sublist
  refine ⟨(hsub.map _).nodup h.nodup, ?_⟩
  exact le_trans (by exact_mod_cast hsub.length_le) h.bounded

theorem WellKept.remove (h : c.WellKept) (key : String) : (c.remove key).WellKept := h.filter _

theorem WellKept.cleanupExpired (h : c.WellKept) : (c.cleanupExpired checked).WellKept := h.filter _

theorem WellKept.evictOldest (h : c.WellKept) : c.evictOldest.WellKept := by
  rw [LinkCache.evictOldest]
  split_ifs
  · exact h
  · exact h.filter _

theorem WellKept.clear (c : LinkCache) : c.clear.WellKept :=
  ⟨List.nodup_nil, le_trans Int.one_nonneg (le_max_left 1 c.maxSize)⟩

/-- An entry that is there already is replaced. -/
theorem WellKept.replace (h : c.WellKept) (hmem : entry.key ∈ c.entries.map (·.key)) :
    (c.assign entry).WellKept := by
  refine ⟨nodup_assign h.nodup, ?_⟩
  rw [length_assign, if_pos hmem]
  exact h.bounded

theorem WellKept.get (h : c.WellKept) (checkedAt touched : ℚ) (key : String) :
    (c.get checkedAt touched key).2.WellKept := by
  rw [LinkCache.get]
  cases hlookup : c.lookup key with
  | none => exact h
  | some entry =>
      dsimp only
      split_ifs
      · exact h.remove key
      · obtain ⟨hmem, -⟩ := mem_of_lookup hlookup
        exact h.replace (List.mem_map.mpr ⟨entry, hmem, rfl⟩)

theorem sortedEntries_perm (c : LinkCache) : c.sortedEntries.Perm c.entries :=
  List.perm_insertionSort _ _

/-- An eviction takes away at least the oldest entry. -/
theorem length_evictOldest_lt (h : c.entries ≠ []) :
    c.evictOldest.entries.length < c.entries.length := by
  have hsorted : c.sortedEntries ≠ [] := by
    intro hnil
    have hperm := c.sortedEntries_perm
    rw [hnil] at hperm
    exact h hperm.nil_eq.symm
  obtain ⟨oldest, rest, hcons⟩ := List.exists_cons_of_ne_nil hsorted
  have hmem : oldest ∈ c.entries := by
    rw [← c.sortedEntries_perm.mem_iff, hcons]
    exact List.mem_cons_self
  have hcount : 0 < c.evictCount := lt_of_lt_of_le Nat.one_pos (le_max_left _ _)
  obtain ⟨n, hn⟩ := Nat.exists_eq_succ_of_ne_zero hcount.ne'
  have holdest : oldest.key ∈ c.oldestKeys := by
    rw [oldestKeys, hcons, hn, List.take_succ_cons, List.map_cons]
    exact List.mem_cons_self
  rw [evictOldest, if_neg h]
  apply List.length_filter_lt_length_iff_exists.mpr
  exact ⟨oldest, hmem, by simpa using holdest⟩

/-- What an eviction keeps has been accessed no earlier than what it takes away. -/
theorem WellKept.evicted_le {kept gone : CacheEntry} (h : c.WellKept)
    (hkept : kept ∈ c.evictOldest.entries) (hgone : gone ∈ c.entries)
    (hout : gone ∉ c.evictOldest.entries) : gone.lastAccessedAt ≤ kept.lastAccessedAt := by
  rw [LinkCache.evictOldest] at hkept hout
  split_ifs at hkept hout with hempty
  · exact absurd hgone hout
  · obtain ⟨hmem, hfree⟩ := List.mem_filter.mp hkept
    have htaken : gone.key ∈ c.oldestKeys := by
      by_contra hno
      exact hout (List.mem_filter.mpr ⟨hgone, decide_eq_true hno⟩)
    obtain ⟨first, hfirst, hkey⟩ := List.mem_map.mp htaken
    have hsorted : c.sortedEntries.Pairwise fun a b => a.lastAccessedAt ≤ b.lastAccessedAt :=
      StableSort.pairwise_insertionSort (r := fun a b => a.lastAccessedAt ≤ b.lastAccessedAt)
        (fun _ _ _ => le_trans) (fun _ _ => le_total _ _) c.entries
    rw [← List.take_append_drop c.evictCount c.sortedEntries, List.pairwise_append] at hsorted
    have hlast : kept ∈ c.sortedEntries.drop c.evictCount := by
      have hall := c.sortedEntries_perm.mem_iff.mpr hmem
      rw [← List.take_append_drop c.evictCount c.sortedEntries] at hall
      rcases List.mem_append.mp hall with hin | hin
      · exact absurd (List.mem_map_of_mem hin) (of_decide_eq_true hfree)
      · exact hin
    have hsame : first = gone := List.inj_on_of_nodup_map h.nodup
      (c.sortedEntries_perm.mem_iff.mp (List.mem_of_mem_take hfirst)) hgone hkey
    exact hsame ▸ hsorted.2.2 first hfirst kept hlast

/-- `set` makes room for one more entry, or empties the dictionary. -/
theorem makeRoom_length (h : c.WellKept) :
    ((c.makeRoom checked).entries.length : ℤ) < max 1 c.maxSize := by
  have hempty : ∀ d : LinkCache, d.entries = [] → (d.entries.length : ℤ) < max 1 c.maxSize := by
    intro d hd
    rw [hd]
    exact lt_of_lt_of_le Int.zero_lt_one (le_max_left 1 _)
  have hclean : ((c.cleanupExpired checked).entries.length : ℤ) ≤ _ := h.cleanupExpired.bounded
  rw [makeRoom]
  split_ifs with hfull
  · dsimp only
    split_ifs with hstill
    · by_cases hnil : (c.cleanupExpired checked).entries = []
      · rw [evictOldest, if_pos hnil]
        exact hempty _ hnil
      · have hlt := length_evictOldest_lt hnil
        have hle : ((c.cleanupExpired checked).entries.length : ℤ) ≤ max 1 c.maxSize := hclean
        omega
    · exact lt_of_lt_of_le (not_le.mp hstill) (le_max_right _ _)
  · exact lt_of_lt_of_le (not_le.mp hfull) (le_max_right _ _)

theorem makeRoom_settings : (c.makeRoom checked).maxSize = c.maxSize ∧
    (c.makeRoom checked).defaultTtl = c.defaultTtl := by
  rw [makeRoom]
  split_ifs
  · dsimp only
    split_ifs
    · rw [evictOldest]
      split_ifs <;> exact ⟨rfl, rfl⟩
    · exact ⟨rfl, rfl⟩
  · exact ⟨rfl, rfl⟩

theorem WellKept.makeRoom (h : c.WellKept) : (c.makeRoom checked).WellKept := by
  rw [LinkCache.makeRoom]
  split_ifs
  · dsimp only
    split_ifs
    · exact h.cleanupExpired.evictOldest
    · exact h.cleanupExpired
  · exact h

theorem WellKept.set (h : c.WellKept) (created : ℚ) (key value : String)
    (headers : List (String × String)) (ttl : Option ℚ) :
    (c.set checked created key value headers ttl).WellKept := by
  have hroom : ((c.makeRoom checked).entries.length : ℤ) < max 1 c.maxSize := makeRoom_length h
  refine ⟨nodup_assign h.makeRoom.nodup, ?_⟩
  have hmax : (c.set checked created key value headers ttl).maxSize = c.maxSize := makeRoom_settings.1
  rw [hmax, LinkCache.set, length_assign]
  split_ifs
  · exact hroom.le
  · push_cast
    omega

theorem WellKept.cleanupTurn (h : c.WellKept) : (c.cleanupTurn checked).WellKept := by
  rw [LinkCache.cleanupTurn]
  split_ifs
  · exact h.cleanupExpired.evictOldest
  · exact h.cleanupExpired

section Entries
variable {Q : CacheEntry → Prop} {checkedAt touched created : ℚ} {value : String}
  {headers : List (String × String)} {ttl : Option ℚ}

/-- What `get` returns is an entry that has not expired. -/
theorem mem_of_get (h : (c.get checkedAt touched key).1 = some e) :
    ∃ entry ∈ c.entries, entry.key = key ∧ e = entry.touch touched ∧ checkedAt ≤ entry.expiresAt := by
  rw [get] at h
  cases hlookup : c.lookup key with
  | none =>
      rw [hlookup] at h
      cases h
  | some entry =>
      simp only [hlookup] at h
      split_ifs at h with hexpired
      obtain ⟨hmem, hkey⟩ := mem_of_lookup hlookup
      refine ⟨entry, hmem, hkey, (Option.some.inj h).symm, ?_⟩
      rw [CacheEntry.isExpired, decide_eq_true_eq, not_lt] at hexpired
      exact hexpired

/-- Every operation but `set` leaves entries that were there, apart from their last access. -/
theorem forall_remove (h : ∀ e ∈ c.entries, Q e) : ∀ e ∈ (c.remove key).entries, Q e :=
  fun e he => h e (List.mem_of_mem_filter he)

theorem forall_assign (h : ∀ e ∈ c.entries, Q e) (hnew : Q entry) :
    ∀ e ∈ (c.assign entry).entries, Q e := by
  intro e he
  rcases mem_assign he with rfl | hold
  · exact hnew
  · exact h e hold

theorem forall_get (htouch : ∀ e now, Q e → Q (CacheEntry.touch e now)) (h : ∀ e ∈ c.entries, Q e) :
    ∀ e ∈ (c.get checkedAt touched key).2.entries, Q e := by
  rw [get]
  cases hlookup : c.lookup key with
  | none => exact h
  | some entry =>
      dsimp only
      split_ifs
      · exact forall_remove h
      · exact forall_assign h (htouch entry touched (h entry (mem_of_lookup hlookup).1))

theorem forall_evictOldest (h : ∀ e ∈ c.entries, Q e) : ∀ e ∈ c.evictOldest.entries, Q e := by
  rw [evictOldest]
  split_ifs
  · exact h
  · exact fun e he => h e (List.mem_of_mem_filter he)

theorem forall_cleanupExpired (h : ∀ e ∈ c.entries, Q e) :
    ∀ e ∈ (c.cleanupExpired checked).entries, Q e :=
  fun e he => h e (List.mem_of_mem_filter he)

theorem forall_cleanupTurn (h : ∀ e ∈ c.entries, Q e) : ∀ e ∈ (c.cleanupTurn checked).entries, Q e := by
  rw [cleanupTurn]
  split_ifs
  · exact forall_evictOldest (forall_cleanupExpired h)
  · exact forall_cleanupExpired h

theorem forall_set (h : ∀ e ∈ c.entries, Q e)
    (hnew : Q (.new created key value headers (c.cacheTtl ttl))) :
    ∀ e ∈ (c.set checked created key value headers ttl).entries, Q e := by
  have hroom : ∀ e ∈ (c.makeRoom checked).entries, Q e := by
    rw [makeRoom]
    split_ifs
    · dsimp only
      split_ifs
      · exact forall_evictOldest (forall_cleanupExpired h)
      · exact forall_cleanupExpired h
    · exact h
  exact forall_assign hroom hnew

end Entries

/-- The settings stay. -/
theorem get_settings (checkedAt touched : ℚ) (key : String) :
    (c.get checkedAt touched key).2.defaultTtl = c.defaultTtl ∧
      (c.get checkedAt touched key).2.maxSize = c.maxSize := by
  rw [get]
  cases c.lookup key with
  | none => exact ⟨rfl, rfl⟩
  | some entry =>
      dsimp only
      split_ifs <;> exact ⟨rfl, rfl⟩

theorem cleanupTurn_settings : (c.cleanupTurn checked).defaultTtl = c.defaultTtl ∧
    (c.cleanupTurn checked).maxSize = c.maxSize := by
  rw [cleanupTurn]
  split_ifs
  · rw [evictOldest]
    split_ifs <;> exact ⟨rfl, rfl⟩
  · exact ⟨rfl, rfl⟩

theorem set_settings (created : ℚ) (key value : String) (headers : List (String × String))
    (ttl : Option ℚ) :
    (c.set checked created key value headers ttl).defaultTtl = c.defaultTtl ∧
      (c.set checked created key value headers ttl).maxSize = c.maxSize :=
  ⟨makeRoom_settings.2, makeRoom_settings.1⟩

end Lemmas

end LinkCache

end SmartMedia.Playback
