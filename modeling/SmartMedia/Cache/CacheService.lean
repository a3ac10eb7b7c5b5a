import SmartMedia.Cache.CacheManager

/-!
# The cache services

`app/services/cache_service.py` and `LegacyCacheAdapter` of `app/core/cache_manager.py`.
The legacy service keeps an LRU cache of its own; the unified service and the adapter hand
their calls to the cache manager, each for one namespace.
-/
namespace SmartMedia.Cache

/-- The methods that the services share. Their `ttl` is `None` unless it is given. -/
inductive Operation (V : Type) where
  | get (key : Key)
  | set (key : Key) (value : Option V) (ttl : Option ℚ)
  | delete (key : Key)
  | clear
  | getOrSet (key : Key) (factory : Except String (Option V)) (ttl : Option ℚ)

structure MemoryCache (V : Type) where
  maxSize : ℤ
  defaultTtl : ℚ
  cache : LRUCache V

variable {V : Type}

namespace MemoryCache

def new (maxSize : ℤ) (defaultTtl : ℚ) : MemoryCache V where
  maxSize
  defaultTtl
  cache := .new maxSize (some defaultTtl) true

def get (c : MemoryCache V) (now : ℚ) (key : Key) : Option V × MemoryCache V :=
  let (value, cache) := c.cache.get now key
  (value, { c with cache })

def set (c : MemoryCache V) (now : ℚ) (key : Key) (value : Option V) (ttl : Option ℚ) :
    MemoryCache V × Option String :=
  let (cache, error) := c.cache.set now key value ttl
  ({ c with cache }, error)

def delete (c : MemoryCache V) (key : Key) : Bool × MemoryCache V :=
  let (deleted, cache) := c.cache.delete key
  (deleted, { c with cache })

def clear (c : MemoryCache V) : MemoryCache V := { c with cache := c.cache.clear }

/-- The second half of `get_or_set`. -/
def store (c : MemoryCache V) (now : ℚ) (key : Key) (value : Option V) (ttl : Option ℚ) :
    MemoryCache V × Outcome V :=
  match c.set now key value ttl with
  | (c, some error) => (c, .raised error)
  | (c, none) => (c, .value value)

end MemoryCache

/-- `CacheServiceLegacy` with the memory backend. -/
structure CacheServiceLegacy (V : Type) where
  defaultTtl : ℚ
  cache : MemoryCache V

namespace CacheServiceLegacy

def new (maxSize : ℤ) (defaultTtl : ℚ) : CacheServiceLegacy V where
  defaultTtl
  cache := .new maxSize defaultTtl

def perform (s : CacheServiceLegacy V) (now : ℕ → ℚ) : Operation V → CacheServiceLegacy V × Outcome V
  | .get key =>
      let (value, cache) := s.cache.get (now 0) key
      ({ s with cache }, .value value)
  | .set key value ttl =>
      match s.cache.set (now 0) key value ttl with
      | (cache, some error) => ({ s with cache }, .raised error)
      | (cache, none) => ({ s with cache }, .done)
  | .delete key =>
      let (deleted, cache) := s.cache.delete key
      ({ s with cache }, .deleted deleted)
  | .clear => ({ s with cache := s.cache.clear }, .done)
  | .getOrSet key factory ttl =>
      match s.cache.get (now 0) key with
      | (some value, cache) => ({ s with cache }, .value (some value))
      | (none, cache) =>
          match factory with
          | .error error => ({ s with cache }, .raised error)
          | .ok value =>
              let (cache, outcome) := cache.store (now 1) key value ttl
              ({ s with cache }, outcome)

end CacheServiceLegacy

/-- The `ttl` that a service passes on. -/
def passedTtl : Option ℚ → Ttl
  | none => .neverExpire
  | some ttl => .seconds ttl

/-- The method of the cache manager that an operation calls. -/
def Operation.call (namespace_ : CacheNamespace) : Operation V → Call V
  | .get key => .get namespace_ key
  | .set key value ttl => .set namespace_ key value (passedTtl ttl)
  | .delete key => .delete namespace_ key
  | .clear => .clearNamespace namespace_
  | .getOrSet key factory ttl => .getOrSet namespace_ key factory (passedTtl ttl)

structure CacheServiceUnified (V : Type) where
  cacheManager : CacheManager V
  namespace_ : CacheNamespace
  defaultTtl : ℚ
  maxSize : ℤ

namespace CacheServiceUnified

/-- The service takes its size and TTL from the manager. -/
def new (cacheManager : CacheManager V) : CacheServiceUnified V where
  cacheManager
  namespace_ := .general
  defaultTtl := (cacheManager.namespaces .general).defaultTtl
  maxSize := (cacheManager.namespaces .general).maxSize

def perform (s : CacheServiceUnified V) (now : ℕ → ℚ) (operation : Operation V) :
    CacheServiceUnified V × Outcome V :=
  let (cacheManager, outcome) := s.cacheManager.perform now (operation.call s.namespace_)
  ({ s with cacheManager }, outcome)

end CacheServiceUnified

structure LegacyCacheAdapter where
  cacheType : String
  namespace_ : CacheNamespace

namespace LegacyCacheAdapter

/-- `CACHE_TYPE_MAPPING`. -/
def cacheTypeMapping : List (String × CacheNamespace) :=
  [("link", .link), ("general", .general), ("tmdb", .tmdb), ("quark_api", .quarkApi),
    ("proxy", .proxy)]

def new (cacheType : String) : LegacyCacheAdapter where
  cacheType
  namespace_ := (cacheTypeMapping.lookup cacheType).getD .general

def perform (a : LegacyCacheAdapter) (s : CacheManager V) (now : ℕ → ℚ) (operation : Operation V) :
    CacheManager V × Outcome V :=
  s.perform now (operation.call a.namespace_)

end LegacyCacheAdapter

def getNamespacedCache (namespace_ : CacheNamespace) : LegacyCacheAdapter := .new namespace_.value

end SmartMedia.Cache
