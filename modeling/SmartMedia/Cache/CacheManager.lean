import Mathlib.Data.Finmap
import SmartMedia.Cache.LRUCache
import SmartMedia.Library.PartialRun

/-!
# The cache manager

`NamespacedCache` and `CacheManager` of `app/core/cache_manager.py`: one LRU cache for
each namespace, its keys prefixed with a version. A call takes its readings of the clock,
in the order in which it makes them.
-/
namespace SmartMedia.Cache

inductive CacheNamespace where
  | link | fileSize | tmdb | quarkApi | strm | emby | proxy | rename | scrape | general
  deriving DecidableEq, Repr

namespace CacheNamespace

def value : CacheNamespace → String
  | link => "link"
  | fileSize => "file_size"
  | tmdb => "tmdb"
  | quarkApi => "quark_api"
  | strm => "strm"
  | emby => "emby"
  | proxy => "proxy"
  | rename => "rename"
  | scrape => "scrape"
  | general => "general"

def all : List CacheNamespace :=
  [link, fileSize, tmdb, quarkApi, strm, emby, proxy, rename, scrape, general]

/-- `DEFAULT_NAMESPACE_TTLS`. -/
def defaultTtl : CacheNamespace → ℚ
  | link => 600
  | fileSize => 3600
  | tmdb => 86400
  | quarkApi => 300
  | strm => 3600
  | emby => 600
  | proxy => 600
  | rename => 1800
  | scrape => 3600
  | general => 600

/-- `DEFAULT_NAMESPACE_SIZES`. -/
def defaultSize : CacheNamespace → ℤ
  | link => 2000
  | fileSize => 1000
  | tmdb => 500
  | quarkApi => 1000
  | strm => 500
  | emby => 500
  | proxy => 1000
  | rename => 500
  | scrape => 500
  | general => 1000

/-- `NAMESPACE_DEPENDENCIES`. -/
def dependencies : CacheNamespace → List CacheNamespace
  | quarkApi => [link, fileSize, proxy]
  | link => [proxy]
  | tmdb => [rename, scrape]
  | emby => [strm]
  | _ => []

/-- The table names the dependents of dependents, too. -/
theorem dependencies_trans {a b c : CacheNamespace} (h : b ∈ a.dependencies)
    (h' : c ∈ b.dependencies) : c ∈ a.dependencies := by
  have hlink : b = link ∨ b.dependencies = [] := by
    cases a <;> simp only [dependencies, List.mem_cons, List.not_mem_nil, or_false] at h
    · exact .inr (by rw [h]; rfl)
    · rcases h with rfl | rfl
      · exact .inr rfl
      · exact .inr rfl
    · rcases h with rfl | rfl | rfl
      · exact .inl rfl
      · exact .inr rfl
      · exact .inr rfl
    · exact .inr (by rw [h]; rfl)
  rcases hlink with rfl | hnone
  · rw [List.mem_singleton.mp h']
    cases a <;> simp_all [dependencies]
  · rw [hnone] at h'
    cases h'

end CacheNamespace

structure CacheConfig where
  defaultTtls : CacheNamespace → Option ℚ := fun namespace_ => some namespace_.defaultTtl
  namespaceSizes : CacheNamespace → Option ℤ := fun namespace_ => some namespace_.defaultSize
  globalDefaultTtl : ℚ := 600
  globalDefaultSize : ℤ := 1000
  enableStats : Bool := true
  enableVersioning : Bool := true
  enableCrossNamespaceInvalidation : Bool := true

/-- The `ttl` argument: omitted, `None` or a number of seconds. -/
inductive Ttl where
  | useDefault
  | neverExpire
  | seconds (ttl : ℚ)
  deriving DecidableEq, Repr

structure NamespacedCache (V : Type) where
  namespace_ : CacheNamespace
  maxSize : ℤ
  defaultTtl : ℚ
  enableVersioning : Bool
  cache : LRUCache V
  version : ℕ
  versionUpdatedAt : ℚ

variable {V : Type}

namespace NamespacedCache

def new (namespace_ : CacheNamespace) (maxSize : ℤ) (defaultTtl : ℚ)
    (enableStats enableVersioning : Bool) (now : ℚ) : NamespacedCache V where
  namespace_
  maxSize
  defaultTtl
  enableVersioning
  cache := LRUCache.new maxSize (some defaultTtl) enableStats
  version := 1
  versionUpdatedAt := now

/-- `f"v{version}:{key}"` where versions are enabled. -/
def keyAt (enableVersioning : Bool) (version : ℕ) (key : Key) : Key :=
  if enableVersioning then 'v' :: (Nat.toDigits 10 version ++ ':' :: key) else key

def versionedKey (c : NamespacedCache V) (key : Key) : Key :=
  keyAt c.enableVersioning c.version key

def incrementVersion (c : NamespacedCache V) (now : ℚ) : NamespacedCache V :=
  { c with version := c.version + 1, versionUpdatedAt := now }

def get (c : NamespacedCache V) (now : ℚ) (key : Key) : Option V × NamespacedCache V :=
  let (value, cache) := c.cache.get now (c.versionedKey key)
  (value, { c with cache })

/-- `None` stands for ten years. -/
def effectiveTtl (c : NamespacedCache V) : Ttl → ℚ
  | .useDefault => c.defaultTtl
  | .neverExpire => 10 * 365 * 24 * 3600
  | .seconds ttl => ttl

def set (c : NamespacedCache V) (now : ℚ) (key : Key) (value : Option V) (ttl : Ttl) :
    NamespacedCache V × Option String :=
  let (cache, error) := c.cache.set now (c.versionedKey key) value (some (c.effectiveTtl ttl))
  ({ c with cache }, error)

def delete (c : NamespacedCache V) (key : Key) : Bool × NamespacedCache V :=
  let (deleted, cache) := c.cache.delete (c.versionedKey key)
  (deleted, { c with cache })

def clear (c : NamespacedCache V) : NamespacedCache V := { c with cache := c.cache.clear }

def cleanupExpired (c : NamespacedCache V) (now : ℚ) : ℕ × NamespacedCache V :=
  let (cleaned, cache) := c.cache.cleanupExpired now
  (cleaned, { c with cache })

end NamespacedCache

structure GlobalStats where
  totalHits : ℕ := 0
  totalMisses : ℕ := 0
  totalSets : ℕ := 0
  totalDeletes : ℕ := 0
  totalInvalidations : ℕ := 0
  deriving DecidableEq, Repr

/-- What `invalidate_related` returns. -/
structure InvalidationResult where
  primaryNamespace : String
  invalidatedKeys : List Key
  cascadedNamespaces : List String
  versionIncremented : Bool
  newVersion : Option ℕ
  deriving DecidableEq, Repr

structure InvalidationEvent where
  timestamp : ℚ
  namespace_ : String
  key : Option Key
  cascade : Bool
  result : InvalidationResult
  deriving DecidableEq, Repr

/-- What `increment_namespace_version` returns. -/
structure VersionResult where
  namespace_ : String
  newVersion : ℕ
  cascadedNamespaces : List String
  deriving DecidableEq, Repr

/-- The manager. `stored` is no field of the source: it lists what was stored so far. -/
structure CacheManager (V : Type) where
  config : CacheConfig
  namespaces : CacheNamespace → NamespacedCache V
  globalStats : GlobalStats
  invalidationLog : List InvalidationEvent
  stored : List (CacheNamespace × Key × Option V)

/-- A call on the manager. The factory of `get_or_set` returns a value or raises. -/
inductive Call (V : Type) where
  | get (namespace_ : CacheNamespace) (key : Key)
  | set (namespace_ : CacheNamespace) (key : Key) (value : Option V) (ttl : Ttl)
  | delete (namespace_ : CacheNamespace) (key : Key)
  | getMany (namespace_ : CacheNamespace) (keys : List Key)
  | setMany (namespace_ : CacheNamespace) (items : List (Key × Option V)) (ttl : Ttl)
  | deleteMany (namespace_ : CacheNamespace) (keys : List Key)
  | getOrSet (namespace_ : CacheNamespace) (key : Key) (factory : Except String (Option V))
      (ttl : Ttl)
  | clearNamespace (namespace_ : CacheNamespace)
  | clearAll
  | cleanup
  | invalidateRelated (namespace_ : CacheNamespace) (key : Option Key) (cascade : Bool)
  | incrementNamespaceVersion (namespace_ : CacheNamespace) (cascade : Bool)

/-- How a call ends. -/
inductive Outcome (V : Type) where
  | done
  | value (value : Option V)
  | values (results : Finmap fun _ : Key => V)
  | deleted (result : Bool)
  | count (n : ℕ)
  | invalidated (result : InvalidationResult)
  | incremented (result : VersionResult)
  | raised (error : String)

namespace CacheManager

/-- `_init_namespaces`. -/
def new (config : CacheConfig) (now : CacheNamespace → ℚ) : CacheManager V where
  config
  namespaces := fun namespace_ =>
    .new namespace_ ((config.namespaceSizes namespace_).getD config.globalDefaultSize)
      ((config.defaultTtls namespace_).getD config.globalDefaultTtl) config.enableStats
      config.enableVersioning (now namespace_)
  globalStats := {}
  invalidationLog := []
  stored := []

def count (s : CacheManager V) (change : GlobalStats → GlobalStats) : CacheManager V :=
  { s with globalStats := change s.globalStats }

def setCache (s : CacheManager V) (namespace_ : CacheNamespace) (c : NamespacedCache V) :
    CacheManager V :=
  { s with namespaces := Function.update s.namespaces namespace_ c }

def get (s : CacheManager V) (now : ℚ) (namespace_ : CacheNamespace) (key : Key) :
    Option V × CacheManager V :=
  let (value, cache) := (s.namespaces namespace_).get now key
  let s := s.setCache namespace_ cache
  (value, s.count fun g =>
    if value.isSome then { g with totalHits := g.totalHits + 1 }
    else { g with totalMisses := g.totalMisses + 1 })

def set (s : CacheManager V) (now : ℚ) (namespace_ : CacheNamespace) (key : Key)
    (value : Option V) (ttl : Ttl) : CacheManager V × Option String :=
  let (cache, error) := (s.namespaces namespace_).set now key value ttl
  let s := s.setCache namespace_ cache
  match error with
  | some error => (s, some error)
  | none =>
      (count { s with stored := s.stored ++ [(namespace_, key, value)] } fun g =>
        { g with totalSets := g.totalSets + 1 }, none)

def delete (s : CacheManager V) (namespace_ : CacheNamespace) (key : Key) :
    Bool × CacheManager V :=
  let (result, cache) := (s.namespaces namespace_).delete key
  let s := s.setCache namespace_ cache
  (result, s.count fun g =>
    if result then { g with totalDeletes := g.totalDeletes + 1 } else g)

/-- The loop of `get_many`. -/
def getMany (s : CacheManager V) (now : ℕ → ℚ) (namespace_ : CacheNamespace) :
    List Key → (Finmap fun _ : Key => V) → (Finmap fun _ : Key => V) × CacheManager V
  | [], results => (results, s)
  | key :: keys, results =>
      let (value, s) := s.get (now 0) namespace_ key
      let results := match value with
        | some v => results.insert key v
        | none => results
      s.getMany (now ∘ Nat.succ) namespace_ keys results

/-- The loop of `set_many`, which counts the keys. -/
def setMany (s : CacheManager V) (now : ℕ → ℚ) (namespace_ : CacheNamespace) (ttl : Ttl) :
    List (Key × Option V) → ℕ → CacheManager V × Outcome V
  | [], successCount => (s, .count successCount)
  | (key, value) :: items, successCount =>
      match s.set (now 0) namespace_ key value ttl with
      | (s, some error) => (s, .raised error)
      | (s, none) => s.setMany (now ∘ Nat.succ) namespace_ ttl items (successCount + 1)

def deleteMany (s : CacheManager V) (namespace_ : CacheNamespace) :
    List Key → ℕ → ℕ × CacheManager V
  | [], successCount => (successCount, s)
  | key :: keys, successCount =>
      let (result, s) := s.delete namespace_ key
      s.deleteMany namespace_ keys (if result then successCount + 1 else successCount)

/-- `get_or_set`; the value is returned after it was stored. -/
def getOrSet (s : CacheManager V) (now : ℕ → ℚ) (namespace_ : CacheNamespace) (key : Key)
    (factory : Except String (Option V)) (ttl : Ttl) : CacheManager V × Outcome V :=
  match s.get (now 0) namespace_ key with
  | (some v, s) => (s, .value (some v))
  | (none, s) =>
      match factory with
      | .error error => (s, .raised error)
      | .ok value =>
          match s.set (now 1) namespace_ key value ttl with
          | (s, some error) => (s, .raised error)
          | (s, none) => (s, .value value)

def clearNamespace (s : CacheManager V) (namespace_ : CacheNamespace) : CacheManager V :=
  s.setCache namespace_ (s.namespaces namespace_).clear

def clearAll (s : CacheManager V) : CacheManager V :=
  CacheNamespace.all.foldl clearNamespace s

/-- One pass of `_periodic_cleanup`. -/
def cleanup (s : CacheManager V) (now : ℕ → ℚ) : List CacheNamespace → ℕ → ℕ × CacheManager V
  | [], totalCleaned => (totalCleaned, s)
  | namespace_ :: namespaces, totalCleaned =>
      let (cleaned, cache) := (s.namespaces namespace_).cleanupExpired (now 0)
      (s.setCache namespace_ cache).cleanup (now ∘ Nat.succ) namespaces (totalCleaned + cleaned)

def addInvalidationLog (s : CacheManager V) (event : InvalidationEvent) : CacheManager V :=
  let log := s.invalidationLog ++ [event]
  { s with invalidationLog := log.drop (log.length - 100) }

/-- The namespaces a cascade reaches. -/
def cascaded (s : CacheManager V) (namespace_ : CacheNamespace) (cascade : Bool) :
    List CacheNamespace :=
  if cascade ∧ s.config.enableCrossNamespaceInvalidation then namespace_.dependencies else []

/-- A whole namespace: its version is raised, or without versions it is cleared. -/
def invalidateNamespace (s : CacheManager V) (now : ℚ) (namespace_ : CacheNamespace) :
    CacheManager V :=
  let cache := s.namespaces namespace_
  s.setCache namespace_
    (if s.config.enableVersioning then cache.incrementVersion now else cache.clear)

def raiseVersion (s : CacheManager V) (now : ℚ) (namespace_ : CacheNamespace) : CacheManager V :=
  s.setCache namespace_ ((s.namespaces namespace_).incrementVersion now)

/-- The loop over the dependent namespaces. -/
def forCascaded (change : CacheManager V → ℚ → CacheNamespace → CacheManager V)
    (s : CacheManager V) (now : ℕ → ℚ) : List CacheNamespace → CacheManager V
  | [] => s
  | namespace_ :: namespaces =>
      forCascaded change (change s (now 0) namespace_) (now ∘ Nat.succ) namespaces

def invalidateRelated (s : CacheManager V) (now : ℕ → ℚ) (namespace_ : CacheNamespace)
    (key : Option Key) (cascade : Bool) : InvalidationResult × CacheManager V :=
  let key' := key.getD []
  let (deleted, s₁) :=
    if key' ≠ [] then
      let (deleted, cache) := (s.namespaces namespace_).delete key'
      (deleted, s.setCache namespace_ cache)
    else (false, s.invalidateNamespace (now 1) namespace_)
  let dependents := s.cascaded namespace_ cascade
  let s₂ := forCascaded invalidateNamespace s₁ (now ∘ (· + 2)) dependents
  let versionIncremented := decide (key' = [] ∧ s.config.enableVersioning)
  let result := {
    primaryNamespace := namespace_.value
    invalidatedKeys := if deleted then [key'] else []
    cascadedNamespaces := dependents.map (·.value)
    versionIncremented
    newVersion := if versionIncremented then some (s₁.namespaces namespace_).version else none }
  let primary := if key' = [] ∨ deleted = true then 1 else 0
  (result, (s₂.count fun g =>
    { g with totalInvalidations := g.totalInvalidations + primary + dependents.length })
    |>.addInvalidationLog ⟨now 0, namespace_.value, key, cascade, result⟩)

def incrementNamespaceVersion (s : CacheManager V) (now : ℕ → ℚ) (namespace_ : CacheNamespace)
    (cascade : Bool) : VersionResult × CacheManager V :=
  let s₁ := s.raiseVersion (now 0) namespace_
  let dependents := s.cascaded namespace_ cascade
  let s₂ := forCascaded raiseVersion s₁ (now ∘ Nat.succ) dependents
  ({
    namespace_ := namespace_.value
    newVersion := (s₁.namespaces namespace_).version
    cascadedNamespaces := dependents.map (·.value) },
  s₂.count fun g =>
    { g with totalInvalidations := g.totalInvalidations + (1 + dependents.length) })

def perform (s : CacheManager V) (now : ℕ → ℚ) : Call V → CacheManager V × Outcome V
  | .get namespace_ key =>
      let (value, s) := s.get (now 0) namespace_ key
      (s, .value value)
  | .set namespace_ key value ttl =>
      match s.set (now 0) namespace_ key value ttl with
      | (s, some error) => (s, .raised error)
      | (s, none) => (s, .done)
  | .delete namespace_ key =>
      let (result, s) := s.delete namespace_ key
      (s, .deleted result)
  | .getMany namespace_ keys =>
      let (results, s) := s.getMany now namespace_ keys ∅
      (s, .values results)
  | .setMany namespace_ items ttl => s.setMany now namespace_ ttl items 0
  | .deleteMany namespace_ keys =>
      let (successCount, s) := s.deleteMany namespace_ keys 0
      (s, .count successCount)
  | .getOrSet namespace_ key factory ttl => s.getOrSet now namespace_ key factory ttl
  | .clearNamespace namespace_ => (s.clearNamespace namespace_, .done)
  | .clearAll => (s.clearAll, .done)
  | .cleanup =>
      let (cleaned, s) := s.cleanup now CacheNamespace.all 0
      (s, .count cleaned)
  | .invalidateRelated namespace_ key cascade =>
      let (result, s) := s.invalidateRelated now namespace_ key cascade
      (s, .invalidated result)
  | .incrementNamespaceVersion namespace_ cascade =>
      let (result, s) := s.incrementNamespaceVersion now namespace_ cascade
      (s, .incremented result)

/-- One call with its readings of the clock. -/
def step (s : CacheManager V) (request : (ℕ → ℚ) × Call V) : Option (CacheManager V) :=
  some (s.perform request.1 request.2).1

end CacheManager

end SmartMedia.Cache
