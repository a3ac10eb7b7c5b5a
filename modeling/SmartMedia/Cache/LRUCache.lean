import Mathlib.Algebra.Order.Ring.Rat
import Mathlib.Data.List.AList
import Mathlib.Tactic.Linarith

/-!
# The LRU cache

`LRUCache` of `app/core/lru_cache.py`. An `OrderedDict` is an association list, the most
recently used key first; its keys are distinct by the type. A stored `None` is `none`.
Every method takes its reading of `time.time()`, which need not be monotone.
-/
namespace SmartMedia.Cache

abbrev Key := List Char

/-- `(value, timestamp, ttl)`. -/
structure Entry (V : Type) where
  value : Option V
  timestamp : ℚ
  ttl : Option ℚ
  deriving DecidableEq, Repr

structure LRUStats where
  hits : ℕ := 0
  misses : ℕ := 0
  sets : ℕ := 0
  deletes : ℕ := 0
  evictions : ℕ := 0
  expirations : ℕ := 0
  deriving DecidableEq, Repr

structure LRUCache (V : Type) where
  maxsize : ℤ
  ttl : Option ℚ
  enableStats : Bool
  cache : AList fun _ : Key => Entry V
  stats : LRUStats

variable {V : Type}

namespace LRUCache

def new (maxsize : ℤ) (ttl : Option ℚ) (enableStats : Bool) : LRUCache V where
  maxsize
  ttl
  enableStats
  cache := ∅
  stats := {}

/-- `if self.enable_stats`. -/
def count (c : LRUCache V) (change : LRUStats → LRUStats) : LRUCache V :=
  if c.enableStats then { c with stats := change c.stats } else c

/-- An entry's own TTL comes before the default one. -/
def expired (c : LRUCache V) (now : ℚ) (entry : Entry V) : Bool :=
  match entry.ttl.orElse fun _ => c.ttl with
  | none => false
  | some ttl => ttl < now - entry.timestamp

def get (c : LRUCache V) (now : ℚ) (key : Key) : Option V × LRUCache V :=
  match c.cache.lookup key with
  | none => (none, c.count fun s => { s with misses := s.misses + 1 })
  | some entry =>
      if c.expired now entry then
        (none, count { c with cache := c.cache.erase key } fun s =>
          { s with expirations := s.expirations + 1, misses := s.misses + 1 })
      else
        (entry.value, count { c with cache := c.cache.insert key entry } fun s =>
          { s with hits := s.hits + 1 })

/-- `set`; `popitem` of an empty dictionary raises. -/
def set (c : LRUCache V) (now : ℚ) (key : Key) (value : Option V) (ttl : Option ℚ) :
    LRUCache V × Option String :=
  let cache := c.cache.erase key
  let store (c : LRUCache V) (cache : AList fun _ : Key => Entry V) : LRUCache V :=
    count { c with cache := cache.insert key ⟨value, now, ttl⟩ } fun s =>
      { s with sets := s.sets + 1 }
  if (cache.entries.length : ℤ) < c.maxsize then (store c cache, none)
  else
    match cache.keys.getLast? with
    | none => ({ c with cache }, some "KeyError: 'dictionary is empty'")
    | some oldestKey =>
        (store (c.count fun s => { s with evictions := s.evictions + 1 })
          (cache.erase oldestKey), none)

def delete (c : LRUCache V) (key : Key) : Bool × LRUCache V :=
  if key ∈ c.cache then
    (true, count { c with cache := c.cache.erase key } fun s => { s with deletes := s.deletes + 1 })
  else (false, c)

def clear (c : LRUCache V) : LRUCache V := { c with cache := ∅ }

/-- The keys of the expired entries, in the order of the dictionary. -/
def expiredKeys (c : LRUCache V) (now : ℚ) : List Key :=
  (c.cache.entries.reverse.filter fun entry => c.expired now entry.2).map (·.1)

def cleanupExpired (c : LRUCache V) (now : ℚ) : ℕ × LRUCache V :=
  let keys := c.expiredKeys now
  let c' := { c with cache := keys.foldl (fun cache key => cache.erase key) c.cache }
  (keys.length,
    if keys = [] then c'
    else c'.count fun s => { s with expirations := s.expirations + keys.length })

/-- `__contains__`, which counts no hits and no misses. -/
def contains (c : LRUCache V) (now : ℚ) (key : Key) : Bool × LRUCache V :=
  match c.cache.lookup key with
  | none => (false, c)
  | some entry =>
      if c.expired now entry then
        (false, count { c with cache := c.cache.erase key } fun s =>
          { s with expirations := s.expirations + 1 })
      else (true, { c with cache := c.cache.insert key entry })

variable {c : LRUCache V} {now : ℚ} {key k : Key} {value : Option V} {ttl : Option ℚ}
  {e : Entry V}

@[simp] theorem count_cache (c : LRUCache V) (change : LRUStats → LRUStats) :
    (c.count change).cache = c.cache := by
  rw [count]
  split_ifs <;> rfl

theorem lookup_erase_of_some {cache : AList fun _ : Key => Entry V}
    (h : (cache.erase key).lookup k = some e) : cache.lookup k = some e := by
  by_cases hk : k = key
  · rw [hk, AList.lookup_erase] at h
    cases h
  · rwa [AList.lookup_erase_ne hk] at h

/-- `get` returns the value of an entry that is alive. -/
theorem alive_of_get {v : V} (h : (c.get now key).1 = some v) :
    ∃ e, c.cache.lookup key = some e ∧ e.value = some v ∧ c.expired now e = false := by
  rw [get] at h
  cases he : c.cache.lookup key with
  | none =>
      rw [he] at h
      cases h
  | some e =>
      simp only [he] at h
      split_ifs at h with hexpired
      exact ⟨e, rfl, h, Bool.eq_false_iff.mpr hexpired⟩

/-- `get` returns the value of an entry under the key. -/
theorem lookup_of_get {v : V} (h : (c.get now key).1 = some v) :
    ∃ e, c.cache.lookup key = some e ∧ e.value = some v := by
  obtain ⟨e, he, hv, -⟩ := alive_of_get h
  exact ⟨e, he, hv⟩

/-- The reading of an entry's own time finds it alive, whatever its TTL. -/
theorem exists_get {v : V} (h : c.cache.lookup key = some e) (hv : e.value = some v) :
    ∃ now, (c.get now key).1 = some v := by
  have hfresh : ∃ now, c.expired now e = false := by
    cases httl : e.ttl.orElse fun _ => c.ttl with
    | none => exact ⟨0, by rw [expired, httl]⟩
    | some t =>
        refine ⟨t + e.timestamp, ?_⟩
        rw [expired, httl]
        show decide (t < t + e.timestamp - e.timestamp) = false
        rw [add_sub_cancel_right]
        exact decide_eq_false (lt_irrefl t)
  obtain ⟨now, hnow⟩ := hfresh
  refine ⟨now, ?_⟩
  simp only [get, h, hnow]
  exact hv

/-- What is found after an operation was there before; only `set` adds an entry. -/
theorem lookup_get_of_some (h : (c.get now key).2.cache.lookup k = some e) :
    c.cache.lookup k = some e := by
  rw [get] at h
  cases he : c.cache.lookup key with
  | none =>
      simp only [he, count_cache] at h
      exact h
  | some entry =>
      simp only [he] at h
      split_ifs at h
      · rw [count_cache] at h
        exact lookup_erase_of_some h
      · rw [count_cache] at h
        by_cases hk : k = key
        · rw [hk] at h ⊢
          rw [he]
          rwa [AList.lookup_insert] at h
        · rwa [AList.lookup_insert_ne hk] at h

theorem lookup_set_of_some (h : (c.set now key value ttl).1.cache.lookup k = some e) :
    c.cache.lookup k = some e ∨
      k = key ∧ e = ⟨value, now, ttl⟩ ∧ (c.set now key value ttl).2 = none := by
  have hstore : ∀ {cache : AList fun _ : Key => Entry V},
      (∀ k e, cache.lookup k = some e → c.cache.lookup k = some e) →
      (cache.insert key ⟨value, now, ttl⟩).lookup k = some e →
      c.cache.lookup k = some e ∨ k = key ∧ e = ⟨value, now, ttl⟩ := by
    intro cache hsub hcache
    by_cases hk : k = key
    · rw [hk, AList.lookup_insert] at hcache
      exact .inr ⟨hk, (Option.some.inj hcache).symm⟩
    · rw [AList.lookup_insert_ne hk] at hcache
      exact .inl (hsub k e hcache)
  simp only [set] at h ⊢
  split_ifs at h ⊢ with hsize
  · rw [count_cache] at h
    rcases hstore (fun _ _ => lookup_erase_of_some) h with h | ⟨hk, he⟩
    · exact .inl h
    · exact .inr ⟨hk, he, rfl⟩
  · cases hlast : (c.cache.erase key).keys.getLast? with
    | none =>
        simp only [hlast] at h
        exact .inl (lookup_erase_of_some h)
    | some oldest =>
        simp only [hlast, count_cache] at h
        rcases hstore (fun _ _ he => lookup_erase_of_some (lookup_erase_of_some he)) h with
          h | ⟨hk, he⟩
        · exact .inl h
        · exact .inr ⟨hk, he, rfl⟩

/-- After `set` the key has the new entry or none. -/
theorem lookup_set_self (h : (c.set now key value ttl).1.cache.lookup key = some e) :
    e = ⟨value, now, ttl⟩ := by
  simp only [set] at h
  split_ifs at h
  · rw [count_cache, AList.lookup_insert] at h
    exact (Option.some.inj h).symm
  · cases hlast : (c.cache.erase key).keys.getLast? with
    | none =>
        simp only [hlast] at h
        rw [AList.lookup_erase] at h
        cases h
    | some oldest =>
        simp only [hlast, count_cache, AList.lookup_insert] at h
        exact (Option.some.inj h).symm

/-- A `set` that does not raise stores its entry. -/
theorem lookup_set_of_done (h : (c.set now key value ttl).2 = none) :
    (c.set now key value ttl).1.cache.lookup key = some ⟨value, now, ttl⟩ := by
  simp only [set] at h ⊢
  split_ifs at h ⊢
  · rw [count_cache, AList.lookup_insert]
  · cases hlast : (c.cache.erase key).keys.getLast? with
    | none =>
        rw [hlast] at h
        cases h
    | some oldest => rw [count_cache, AList.lookup_insert]

/-- Without a last key there is no entry. -/
theorem entries_eq_nil {cache : AList fun _ : Key => Entry V} (h : cache.keys.getLast? = none) :
    cache.entries = [] := by
  have hkeys : cache.entries.map Sigma.fst = [] := List.getLast?_eq_none_iff.mp h
  exact List.map_eq_nil_iff.mp hkeys

/-- Only a cache without room for a single entry raises. -/
theorem set_done_of_pos (h : 0 < c.maxsize) : (c.set now key value ttl).2 = none := by
  simp only [set]
  split_ifs with hsize
  · rfl
  · cases hlast : (c.cache.erase key).keys.getLast? with
    | none =>
        rw [entries_eq_nil hlast] at hsize
        exact absurd h hsize
    | some oldest => rfl

theorem lookup_delete_of_some (h : (c.delete key).2.cache.lookup k = some e) :
    c.cache.lookup k = some e := by
  rw [delete] at h
  split_ifs at h
  · rw [count_cache] at h
    exact lookup_erase_of_some h
  · exact h

@[simp] theorem count_ttl (c : LRUCache V) (change : LRUStats → LRUStats) :
    (c.count change).ttl = c.ttl := by
  rw [count]
  split_ifs
  · rfl
  · rfl

@[simp] theorem get_ttl : (c.get now key).2.ttl = c.ttl := by
  rw [get]
  cases c.cache.lookup key with
  | none => exact count_ttl c _
  | some entry =>
      dsimp only
      split_ifs
      · exact count_ttl _ _
      · exact count_ttl _ _

@[simp] theorem set_ttl : (c.set now key value ttl).1.ttl = c.ttl := by
  simp only [set]
  split_ifs
  · exact count_ttl _ _
  · cases (c.cache.erase key).keys.getLast? with
    | none => rfl
    | some oldest =>
        dsimp only
        rw [count_ttl]
        exact count_ttl c _

@[simp] theorem delete_ttl : (c.delete key).2.ttl = c.ttl := by
  rw [delete]
  split_ifs
  · exact count_ttl _ _
  · rfl

@[simp] theorem count_maxsize (c : LRUCache V) (change : LRUStats → LRUStats) :
    (c.count change).maxsize = c.maxsize := by
  rw [count]
  split_ifs
  · rfl
  · rfl

@[simp] theorem get_maxsize : (c.get now key).2.maxsize = c.maxsize := by
  rw [get]
  cases c.cache.lookup key with
  | none => exact count_maxsize c _
  | some entry =>
      dsimp only
      split_ifs
      · exact count_maxsize _ _
      · exact count_maxsize _ _

@[simp] theorem set_maxsize : (c.set now key value ttl).1.maxsize = c.maxsize := by
  simp only [set]
  split_ifs
  · exact count_maxsize _ _
  · cases (c.cache.erase key).keys.getLast? with
    | none => rfl
    | some oldest =>
        dsimp only
        rw [count_maxsize]
        exact count_maxsize c _

/-- The last moment at which `get` returns the entry. -/
def expiry (c : LRUCache V) (e : Entry V) : Option ℚ :=
  (e.ttl.orElse fun _ => c.ttl).map fun ttl => e.timestamp + ttl

theorem le_of_expiry {t : ℚ} (h : c.expired now e = false) (ht : c.expiry e = some t) : now ≤ t := by
  obtain ⟨ttl, httl, rfl⟩ := Option.map_eq_some_iff.mp ht
  rw [expired, httl] at h
  have hle := of_decide_eq_false h
  rw [not_lt] at hle
  linarith

theorem lookup_clear (c : LRUCache V) (k : Key) : c.clear.cache.lookup k = none := rfl

theorem lookup_cleanupExpired_of_some (h : (c.cleanupExpired now).2.cache.lookup k = some e) :
    c.cache.lookup k = some e := by
  have herase : ∀ (keys : List Key) (cache : AList fun _ : Key => Entry V),
      (keys.foldl (fun cache key => cache.erase key) cache).lookup k = some e →
      cache.lookup k = some e := by
    intro keys
    induction keys with
    | nil => exact fun cache hc => hc
    | cons key keys ih => exact fun cache hc => lookup_erase_of_some (ih _ hc)
  simp only [cleanupExpired] at h
  split_ifs at h
  · exact herase _ _ h
  · rw [count_cache] at h
    exact herase _ _ h

end LRUCache

end SmartMedia.Cache
