import SmartMedia.Cache.LRUCache
import Mathlib.Logic.Function.Basic

/-!
# The disk and the Redis layer

`DiskCache` of `app/services/disk_cache.py` and `RedisCacheBackend` of
`app/services/redis_cache.py`. SQLite and the Redis server are tables from keys to values
with a time of expiry. Every method logs its errors and goes on: where it is given
`ok = false` the statement raised, or there was no connection, and nothing was changed.
-/
namespace SmartMedia.Cache

/-- A row of `cache_entries`; the access statistics are left out. -/
structure Row (V : Type) where
  value : Option V
  expiresAt : Option ℚ
  deriving DecidableEq, Repr

structure DiskCache (V : Type) where
  defaultTtl : ℚ
  rows : Key → Option (Row V)

variable {V : Type}

/-- An entry of an updated table is the new one or was there before. -/
theorem eq_some_of_update {α : Type} {table : Key → Option α} {key k : Key} {entry : Option α} {a : α}
    (h : Function.update table key entry k = some a) :
    table k = some a ∨ k = key ∧ entry = some a := by
  by_cases hk : k = key
  · subst hk
    rw [Function.update_self] at h
    exact .inr ⟨rfl, h⟩
  · rw [Function.update_of_ne hk] at h
    exact .inl h

theorem eq_some_of_erase {α : Type} {table : Key → Option α} {key k : Key} {a : α}
    (h : Function.update table key none k = some a) : table k = some a := by
  rcases eq_some_of_update h with h | ⟨-, h⟩
  · exact h
  · cases h

namespace DiskCache

def new (defaultTtl : ℚ) : DiskCache V := { defaultTtl, rows := fun _ => none }

def expiry (c : DiskCache V) (now : ℚ) (ttl : Option ℚ) : Option ℚ :=
  match ttl.filter fun ttl => 0 < ttl with
  | some ttl => some (now + ttl)
  | none => if 0 < c.defaultTtl then some (now + c.defaultTtl) else none

def expired (now : ℚ) (row : Row V) : Bool := row.expiresAt.any fun expiresAt => expiresAt < now

/-- `get`; an expired row is deleted. -/
def get (c : DiskCache V) (now : ℚ) (key : Key) (ok : Bool) : Option V × DiskCache V :=
  match c.rows key with
  | none => (none, c)
  | some row =>
      if !ok then (none, c)
      else if expired now row then (none, { c with rows := Function.update c.rows key none })
      else (row.value, c)

/-- `INSERT OR REPLACE`. -/
def set (c : DiskCache V) (now : ℚ) (key : Key) (value : Option V) (ttl : Option ℚ) (ok : Bool) :
    DiskCache V :=
  if ok then
    { c with rows := Function.update c.rows key (some ⟨value, c.expiry now ttl⟩) }
  else c

def delete (c : DiskCache V) (key : Key) (ok : Bool) : DiskCache V :=
  if ok then { c with rows := Function.update c.rows key none } else c

def clear (c : DiskCache V) (ok : Bool) : DiskCache V :=
  if ok then { c with rows := fun _ => none } else c

def cleanupExpired (c : DiskCache V) (now : ℚ) (ok : Bool) : DiskCache V :=
  if ok then { c with rows := fun key => (c.rows key).filter fun row => !expired now row } else c

variable {c : DiskCache V} {now : ℚ} {key k : Key} {value : Option V} {ttl : Option ℚ} {ok : Bool}
  {row : Row V}

/-- What `get` returns is in a row that has not expired. -/
theorem row_of_get {v : V} (h : (c.get now key ok).1 = some v) :
    ∃ row, c.rows key = some row ∧ row.value = some v ∧ expired now row = false := by
  rw [get] at h
  cases hrow : c.rows key with
  | none =>
      rw [hrow] at h
      cases h
  | some row =>
      simp only [hrow] at h
      split_ifs at h with hok hexpired
      exact ⟨row, rfl, h, Bool.eq_false_iff.mpr hexpired⟩

/-- The rows after an operation were there before; only `set` adds one. -/
theorem rows_get (h : (c.get now key ok).2.rows k = some row) : c.rows k = some row := by
  rw [get] at h
  cases hrow : c.rows key with
  | none =>
      rw [hrow] at h
      exact h
  | some row' =>
      simp only [hrow] at h
      split_ifs at h
      · exact h
      · exact eq_some_of_erase h
      · exact h

theorem rows_set (h : (c.set now key value ttl ok).rows k = some row) :
    c.rows k = some row ∨ k = key ∧ row = ⟨value, c.expiry now ttl⟩ ∧ ok = true := by
  rw [set] at h
  split_ifs at h with hok
  · exact (eq_some_of_update h).imp_right fun h => ⟨h.1, (Option.some.inj h.2).symm, hok⟩
  · exact .inl h

theorem rows_delete (h : (c.delete key ok).rows k = some row) : c.rows k = some row := by
  rw [delete] at h
  split_ifs at h
  · exact eq_some_of_erase h
  · exact h

theorem rows_clear (h : (c.clear ok).rows k = some row) : c.rows k = some row := by
  rw [clear] at h
  split_ifs at h
  exact h

theorem rows_cleanupExpired (h : (c.cleanupExpired now ok).rows k = some row) :
    c.rows k = some row := by
  rw [cleanupExpired] at h
  split_ifs at h
  · exact (Option.filter_eq_some_iff.mp h).1
  · exact h

end DiskCache

/-- `local` is the cache of the client, `server` the table of the Redis server. -/
structure RedisCacheBackend (V : Type) where
  defaultTtl : ℚ
  localCache : LRUCache V
  server : Key → Option (Option V × ℚ)

namespace RedisCacheBackend

def new (localCacheSize : ℤ) (defaultTtl : ℚ) : RedisCacheBackend V where
  defaultTtl
  localCache := .new localCacheSize (some defaultTtl) true
  server := fun _ => none

/-- The first part of `get`: the local cache. -/
def getLocal (c : RedisCacheBackend V) (now : ℚ) (key : Key) : Option V × RedisCacheBackend V :=
  let (value, localCache) := c.localCache.get now key
  (value, { c with localCache })

/-- The reply of the server; a key is gone when its time is over. -/
def getServer (c : RedisCacheBackend V) (now : ℚ) (key : Key) (ok : Bool) : Option V :=
  if ok then ((c.server key).filter fun e => now < e.2).bind (·.1) else none

def setLocal (c : RedisCacheBackend V) (now : ℚ) (key : Key) (value : Option V) :
    RedisCacheBackend V :=
  { c with localCache := (c.localCache.set now key value none).1 }

/-- `SET key data EX expire_time`, which the server refuses for a time that is not positive. -/
def setServer (c : RedisCacheBackend V) (now : ℚ) (key : Key) (value : Option V) (ttl : Option ℚ)
    (ok : Bool) : RedisCacheBackend V :=
  let expireTime := ttl.getD c.defaultTtl
  if ok && 0 < expireTime then
    { c with server := Function.update c.server key (some (value, now + expireTime)) }
  else c

def deleteLocal (c : RedisCacheBackend V) (key : Key) : RedisCacheBackend V :=
  { c with localCache := (c.localCache.delete key).2 }

def deleteServer (c : RedisCacheBackend V) (key : Key) (ok : Bool) : RedisCacheBackend V :=
  if ok then { c with server := Function.update c.server key none } else c

def flushLocal (c : RedisCacheBackend V) : RedisCacheBackend V :=
  { c with localCache := c.localCache.clear }

def flushServer (c : RedisCacheBackend V) (ok : Bool) : RedisCacheBackend V :=
  if ok then { c with server := fun _ => none } else c

variable {c : RedisCacheBackend V} {now : ℚ} {key k : Key} {value : Option V} {ttl : Option ℚ}
  {ok : Bool} {e : Option V × ℚ}

@[simp] theorem setServer_localCache :
    (c.setServer now key value ttl ok).localCache = c.localCache := by
  rw [setServer]
  split_ifs
  · rfl
  · rfl

@[simp] theorem deleteServer_localCache : (c.deleteServer key ok).localCache = c.localCache := by
  rw [deleteServer]
  split_ifs
  · rfl
  · rfl

@[simp] theorem flushServer_localCache : (c.flushServer ok).localCache = c.localCache := by
  rw [flushServer]
  split_ifs
  · rfl
  · rfl

theorem server_of_get {v : V} (h : c.getServer now key ok = some v) :
    ∃ expiry, c.server key = some (some v, expiry) ∧ now < expiry := by
  rw [getServer] at h
  split_ifs at h
  obtain ⟨⟨value, expiry⟩, he, hvalue⟩ := Option.bind_eq_some_iff.mp h
  obtain ⟨hserver, halive⟩ := Option.filter_eq_some_iff.mp he
  refine ⟨expiry, ?_, of_decide_eq_true halive⟩
  rw [hserver]
  exact congrArg (fun value => some (value, expiry)) hvalue

theorem server_set (h : (c.setServer now key value ttl ok).server k = some e) :
    c.server k = some e ∨ k = key ∧ e = (value, now + ttl.getD c.defaultTtl) ∧ ok = true := by
  rw [setServer] at h
  split_ifs at h with hok
  · rw [Bool.and_eq_true] at hok
    exact (eq_some_of_update h).imp_right fun h => ⟨h.1, (Option.some.inj h.2).symm, hok.1⟩
  · exact .inl h

theorem server_delete (h : (c.deleteServer key ok).server k = some e) : c.server k = some e := by
  rw [deleteServer] at h
  split_ifs at h
  · exact eq_some_of_erase h
  · exact h

theorem server_flush (h : (c.flushServer ok).server k = some e) : c.server k = some e := by
  rw [flushServer] at h
  split_ifs at h
  exact h

end RedisCacheBackend

end SmartMedia.Cache
