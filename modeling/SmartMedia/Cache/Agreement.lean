import SmartMedia.Cache.CacheService
import SmartMedia.Cache.Invalidation

/-!
# Do the two cache services agree?

Configured alike, both services keep the same entries in the same order, under keys with and
without a version. What differs is an omitted TTL: the legacy service leaves it to the
default one, the unified service stores ten years. They agree as long as no read finds an
entry that only one of the two has outlived.
-/
namespace SmartMedia.Cache
open PartialRun

variable {V : Type}

section Renaming
variable {f : Key → Key} {g : Entry V → Entry V} {a b : AList fun _ : Key => Entry V}

def renamed (f : Key → Key) (g : Entry V → Entry V) (s : Σ _ : Key, Entry V) : Σ _ : Key, Entry V :=
  ⟨f s.1, g s.2⟩

/-- The second table has the entries of the first one, in the same order. -/
def Renames (f : Key → Key) (g : Entry V → Entry V) (a b : AList fun _ : Key => Entry V) : Prop :=
  b.entries = a.entries.map (renamed f g)

theorem Renames.lookup (h : Renames f g a b) (hf : Function.Injective f) (key : Key) :
    b.lookup (f key) = (a.lookup key).map g := by
  rw [AList.lookup, h]
  exact @List.dlookup_map _ _ (fun _ => Entry V) (fun _ => Entry V) _ _ a.entries f hf (fun _ => g) key

theorem Renames.mem_iff (h : Renames f g a b) (hf : Function.Injective f) (key : Key) :
    f key ∈ b ↔ key ∈ a := by
  rw [← AList.lookup_isSome, ← AList.lookup_isSome, h.lookup hf, Option.isSome_map]

theorem Renames.erase (h : Renames f g a b) (hf : Function.Injective f) (key : Key) :
    Renames f g (a.erase key) (b.erase (f key)) := by
  have hpredicate : ((fun s : Σ _ : Key, Entry V => decide (f key = s.1)) ∘ renamed f g) =
      fun s => decide (key = s.1) :=
    funext fun s => decide_eq_decide.mpr hf.eq_iff
  change b.entries.eraseP _ = (a.entries.eraseP _).map _
  rw [h, List.eraseP_map, hpredicate]

theorem Renames.insert (h : Renames f g a b) (hf : Function.Injective f) (key : Key) (e : Entry V) :
    Renames f g (a.insert key e) (b.insert (f key) (g e)) :=
  congrArg (List.cons (renamed f g ⟨key, e⟩)) (h.erase hf key)

theorem Renames.length (h : Renames f g a b) : b.entries.length = a.entries.length := by
  rw [h, List.length_map]

theorem Renames.getLast? (h : Renames f g a b) : b.keys.getLast? = a.keys.getLast?.map f := by
  have hkeys : b.keys = a.keys.map f := by
    change b.entries.map _ = (a.entries.map _).map f
    rw [h, List.map_map, List.map_map]
    rfl
  rw [hkeys, List.getLast?_map]

end Renaming

namespace LRUCache
variable {f : Key → Key} {g : Entry V → Entry V} {c d : LRUCache V} {key : Key} {now : ℚ}
  {value : Option V} {ttl ttl' : Option ℚ}

/-- The second cache is the first one under other keys and TTLs. -/
structure Renames (f : Key → Key) (g : Entry V → Entry V) (c d : LRUCache V) : Prop where
  maxsize : d.maxsize = c.maxsize
  cache : Cache.Renames f g c.cache d.cache

theorem Renames.count (h : Renames f g c d) (change change' : LRUStats → LRUStats) :
    Renames f g (c.count change) (d.count change') where
  maxsize := by rw [count_maxsize, count_maxsize, h.maxsize]
  cache := by rw [count_cache, count_cache]; exact h.cache

theorem Renames.replace (h : Renames f g c d) {a b : AList fun _ : Key => Entry V}
    (hab : Cache.Renames f g a b) : Renames f g { c with cache := a } { d with cache := b } :=
  ⟨h.maxsize, hab⟩

theorem Renames.get (h : Renames f g c d) (hf : Function.Injective f)
    (hvalue : ∀ e, (g e).value = e.value)
    (hexpired : ∀ e, c.cache.lookup key = some e → d.expired now (g e) = c.expired now e) :
    (d.get now (f key)).1 = (c.get now key).1 ∧
      Renames f g (c.get now key).2 (d.get now (f key)).2 := by
  have hlookup := h.cache.lookup hf key
  rw [LRUCache.get, LRUCache.get, hlookup]
  cases he : c.cache.lookup key with
  | none =>
      refine ⟨rfl, ?_⟩
      dsimp only [Option.map_none]
      apply Renames.count
      exact h
  | some e =>
      have hend := hexpired e he
      simp only [Option.map_some, hend]
      split_ifs
      · refine ⟨rfl, ?_⟩
        dsimp only
        apply Renames.count
        exact h.replace (h.cache.erase hf key)
      · refine ⟨hvalue e, ?_⟩
        dsimp only
        apply Renames.count
        exact h.replace (h.cache.insert hf key e)

theorem Renames.set (h : Renames f g c d) (hf : Function.Injective f) (key : Key)
    (hentry : g ⟨value, now, ttl⟩ = ⟨value, now, ttl'⟩) :
    (d.set now (f key) value ttl').2 = (c.set now key value ttl).2 ∧
      Renames f g (c.set now key value ttl).1 (d.set now (f key) value ttl').1 := by
  have herase := h.cache.erase hf key
  have hinsert : ∀ {a b : AList fun _ : Key => Entry V}, Cache.Renames f g a b →
      Cache.Renames f g (a.insert key ⟨value, now, ttl⟩) (b.insert (f key) ⟨value, now, ttl'⟩) :=
    fun hab => hentry ▸ hab.insert hf key _
  have hroom : ((d.cache.erase (f key)).entries.length : ℤ) < d.maxsize ↔
      ((c.cache.erase key).entries.length : ℤ) < c.maxsize := by
    rw [herase.length, h.maxsize]
  by_cases hsize : ((c.cache.erase key).entries.length : ℤ) < c.maxsize
  · simp only [LRUCache.set, if_pos hsize, if_pos (hroom.mpr hsize)]
    refine ⟨trivial, ?_⟩
    apply Renames.count
    exact h.replace (hinsert herase)
  · simp only [LRUCache.set, if_neg hsize, if_neg (mt hroom.mp hsize), herase.getLast?]
    cases (c.cache.erase key).keys.getLast? with
    | none => exact ⟨rfl, h.replace herase⟩
    | some oldest =>
        refine ⟨rfl, ?_⟩
        dsimp only [Option.map_some]
        apply Renames.count
        apply Renames.replace
        · exact h.count _ _
        · exact hinsert (herase.erase hf oldest)

theorem Renames.delete (h : Renames f g c d) (hf : Function.Injective f) (key : Key) :
    (d.delete (f key)).1 = (c.delete key).1 ∧
      Renames f g (c.delete key).2 (d.delete (f key)).2 := by
  simp only [LRUCache.delete, h.cache.mem_iff hf]
  split_ifs
  · refine ⟨rfl, ?_⟩
    dsimp only
    apply Renames.count
    exact h.replace (h.cache.erase hf key)
  · exact ⟨rfl, h⟩

theorem Renames.clear (h : Renames f g c d) : Renames f g c.clear d.clear := ⟨h.maxsize, rfl⟩

end LRUCache

/-- What `None` stands for in the cache manager. -/
def tenYears : ℚ := 10 * 365 * 24 * 3600

/-- The unified service stores ten years where the legacy service stores no TTL. -/
def withTtl (e : Entry V) : Entry V := { e with ttl := some (e.ttl.getD tenYears) }

/-- The entry has outlived the default TTL and ten years, or neither. -/
def OutlivedAlike (defaultTtl now : ℚ) (e : Entry V) : Prop :=
  e.ttl = none → (defaultTtl < now - e.timestamp ↔ tenYears < now - e.timestamp)

/-- The namespace holds what the memory cache holds. -/
structure Mirrors (c : MemoryCache V) (d : NamespacedCache V) : Prop where
  renames : LRUCache.Renames d.versionedKey withTtl c.cache d.cache
  ttl : c.cache.ttl = some c.defaultTtl

namespace CacheManager
variable {m : CacheManager V} {n : CacheNamespace} {now : ℚ} {key : Key} {value : Option V} {ttl : Ttl}

theorem get_namespaces : (m.get now n key).2.namespaces =
    Function.update m.namespaces n ((m.namespaces n).get now key).2 := rfl

theorem delete_namespaces : (m.delete n key).2.namespaces =
    Function.update m.namespaces n ((m.namespaces n).delete key).2 := rfl

theorem set_namespaces : (m.set now n key value ttl).1.namespaces =
    Function.update m.namespaces n ((m.namespaces n).set now key value ttl).1 := by
  rw [set]
  cases hset : (m.namespaces n).set now key value ttl with
  | mk cache error =>
      cases error with
      | none => rfl
      | some error => rfl

theorem set_error :
    (m.set now n key value ttl).2 = ((m.namespaces n).set now key value ttl).2 := by
  rw [set]
  cases hset : (m.namespaces n).set now key value ttl with
  | mk cache error =>
      cases error with
      | none => rfl
      | some error => rfl

end CacheManager

namespace Mirrors
variable {c : MemoryCache V} {d : NamespacedCache V} {now : ℚ} {key : Key}

theorem versionedKey_injective (d : NamespacedCache V) : Function.Injective d.versionedKey :=
  fun _ _ h => (NamespacedCache.keyAt_injective h).1

theorem expired (h : Mirrors c d) {e : Entry V} (he : OutlivedAlike c.defaultTtl now e) :
    d.cache.expired now (withTtl e) = c.cache.expired now e := by
  cases httl : e.ttl with
  | none =>
      have hend := he httl
      simp only [LRUCache.expired, withTtl, httl, h.ttl]
      exact decide_eq_decide.mpr hend.symm
  | some ttl =>
      simp only [LRUCache.expired, withTtl, httl]
      rfl

theorem get (h : Mirrors c d) (he : ∀ e, c.cache.cache.lookup key = some e →
      OutlivedAlike c.defaultTtl now e) :
    (d.get now key).1 = (c.get now key).1 ∧ Mirrors (c.get now key).2 (d.get now key).2 := by
  have hcache := h.renames.get (versionedKey_injective d) (fun _ => rfl) fun e hlookup =>
    h.expired (he e hlookup)
  exact ⟨hcache.1, hcache.2, LRUCache.get_ttl.trans h.ttl⟩

theorem set (h : Mirrors c d) (now : ℚ) (key : Key) (value : Option V) (ttl : Option ℚ) :
    (d.set now key value (passedTtl ttl)).2 = (c.set now key value ttl).2 ∧
      Mirrors (c.set now key value ttl).1 (d.set now key value (passedTtl ttl)).1 := by
  have hentry : withTtl ⟨value, now, ttl⟩ = ⟨value, now, some (d.effectiveTtl (passedTtl ttl))⟩ := by
    cases ttl with
    | none => rfl
    | some ttl => rfl
  have hcache := h.renames.set (versionedKey_injective d) key hentry
  exact ⟨hcache.1, hcache.2, LRUCache.set_ttl.trans h.ttl⟩

theorem delete (h : Mirrors c d) (key : Key) :
    (d.delete key).1 = (c.delete key).1 ∧ Mirrors (c.delete key).2 (d.delete key).2 := by
  have hcache := h.renames.delete (versionedKey_injective d) key
  exact ⟨hcache.1, hcache.2, LRUCache.delete_ttl.trans h.ttl⟩

theorem clear (h : Mirrors c d) : Mirrors c.clear d.clear := ⟨h.renames.clear, h.ttl⟩

end Mirrors

/-- The entries that the operation reads have outlived both TTLs or neither. -/
def CacheServiceLegacy.ReadsAlike (s : CacheServiceLegacy V) (request : (ℕ → ℚ) × Operation V) :
    Prop :=
  match request.2 with
  | .get key | .getOrSet key _ _ => ∀ e, s.cache.cache.cache.lookup key = some e →
      OutlivedAlike s.cache.defaultTtl (request.1 0) e
  | _ => True

def CacheServiceLegacy.step (s : CacheServiceLegacy V) (request : (ℕ → ℚ) × Operation V) :
    Option (CacheServiceLegacy V) :=
  some (s.perform request.1 request.2).1

def CacheServiceLegacy.after (s : CacheServiceLegacy V) (requests : List ((ℕ → ℚ) × Operation V)) :
    CacheServiceLegacy V :=
  requests.foldl (fun s request => (s.perform request.1 request.2).1) s

def CacheServiceUnified.after (u : CacheServiceUnified V)
    (requests : List ((ℕ → ℚ) × Operation V)) : CacheServiceUnified V :=
  requests.foldl (fun u request => (u.perform request.1 request.2).1) u

/-- The results of all calls. -/
def CacheServiceLegacy.results (s : CacheServiceLegacy V) :
    List ((ℕ → ℚ) × Operation V) → List (Outcome V)
  | [] => []
  | request :: requests =>
      (s.perform request.1 request.2).2 :: results (s.perform request.1 request.2).1 requests

def CacheServiceUnified.results (s : CacheServiceUnified V) :
    List ((ℕ → ℚ) × Operation V) → List (Outcome V)
  | [] => []
  | request :: requests =>
      (s.perform request.1 request.2).2 :: results (s.perform request.1 request.2).1 requests

section Simulation
variable {s : CacheServiceLegacy V} {u : CacheServiceUnified V} {now : ℕ → ℚ}
  {operation : Operation V}

/-- The namespace of the unified service mirrors the cache of the legacy one. -/
def ServicesMirror (s : CacheServiceLegacy V) (u : CacheServiceUnified V) : Prop :=
  Mirrors s.cache (u.cacheManager.namespaces u.namespace_)

/-- The ends of `set` and of the second half of `get_or_set`. -/
def ending (error : Option String) (outcome : Outcome V) : Outcome V :=
  match error with
  | some error => .raised error
  | none => outcome

theorem MemoryCache.store_eq (c : MemoryCache V) (now : ℚ) (key : Key) (value : Option V)
    (ttl : Option ℚ) : c.store now key value ttl =
      ((c.set now key value ttl).1, ending (c.set now key value ttl).2 (.value value)) := by
  rw [MemoryCache.store]
  cases hset : c.set now key value ttl with
  | mk cache error =>
      cases error with
      | none => rfl
      | some error => rfl

theorem CacheServiceLegacy.perform_set (s : CacheServiceLegacy V) (now : ℕ → ℚ) (key : Key)
    (value : Option V) (ttl : Option ℚ) : s.perform now (.set key value ttl) =
      ({ s with cache := (s.cache.set (now 0) key value ttl).1 },
        ending (s.cache.set (now 0) key value ttl).2 .done) := by
  rw [perform]
  cases hset : s.cache.set (now 0) key value ttl with
  | mk cache error =>
      cases error with
      | none => rfl
      | some error => rfl

theorem CacheManager.perform_set (m : CacheManager V) (now : ℕ → ℚ) (n : CacheNamespace) (key : Key)
    (value : Option V) (ttl : Ttl) : m.perform now (.set n key value ttl) =
      ((m.set (now 0) n key value ttl).1, ending (m.set (now 0) n key value ttl).2 .done) := by
  rw [perform]
  cases hset : m.set (now 0) n key value ttl with
  | mk cache error =>
      cases error with
      | none => rfl
      | some error => rfl

theorem CacheServiceLegacy.perform_getOrSet (s : CacheServiceLegacy V) (now : ℕ → ℚ) (key : Key)
    (factory : Except String (Option V)) (ttl : Option ℚ) :
    s.perform now (.getOrSet key factory ttl) =
      let (found, c) := s.cache.get (now 0) key
      match found, factory with
      | some v, _ => ({ s with cache := c }, .value (some v))
      | none, .error error => ({ s with cache := c }, .raised error)
      | none, .ok value => ({ s with cache := (c.set (now 1) key value ttl).1 },
          ending (c.set (now 1) key value ttl).2 (.value value)) := by
  rw [perform]
  cases s.cache.get (now 0) key with
  | mk found c =>
      cases found with
      | some v => rfl
      | none =>
          cases factory with
          | error error => rfl
          | ok value =>
              dsimp only
              rw [MemoryCache.store_eq]

theorem CacheManager.getOrSet_eq (m : CacheManager V) (now : ℕ → ℚ) (n : CacheNamespace) (key : Key)
    (factory : Except String (Option V)) (ttl : Ttl) :
    m.getOrSet now n key factory ttl =
      let (found, m') := m.get (now 0) n key
      match found, factory with
      | some v, _ => (m', .value (some v))
      | none, .error error => (m', .raised error)
      | none, .ok value => ((m'.set (now 1) n key value ttl).1,
          ending (m'.set (now 1) n key value ttl).2 (.value value)) := by
  rw [getOrSet]
  cases m.get (now 0) n key with
  | mk found m' =>
      cases found with
      | some v => rfl
      | none =>
          cases factory with
          | error error => rfl
          | ok value =>
              dsimp only
              cases hset : m'.set (now 1) n key value ttl with
              | mk cache error =>
                  cases error with
                  | none => rfl
                  | some error => rfl

/-- Both services miss or both hit, and after a miss both store what the factory returns. -/
theorem ServicesMirror.getOrSet (h : ServicesMirror s u) (key : Key)
    (factory : Except String (Option V)) (ttl : Option ℚ)
    (hreads : s.ReadsAlike (now, .getOrSet key factory ttl)) :
    (u.perform now (.getOrSet key factory ttl)).2 = (s.perform now (.getOrSet key factory ttl)).2 ∧
      ServicesMirror (s.perform now (.getOrSet key factory ttl)).1
        (u.perform now (.getOrSet key factory ttl)).1 := by
  have hget := Mirrors.get h hreads
  have hmanager : (u.cacheManager.get (now 0) u.namespace_ key).1 = (s.cache.get (now 0) key).1 :=
    hget.1
  have hmirror : Mirrors (s.cache.get (now 0) key).2
      ((u.cacheManager.get (now 0) u.namespace_ key).2.namespaces u.namespace_) := by
    rw [CacheManager.get_namespaces, Function.update_self]
    exact hget.2
  have hcall : u.perform now (.getOrSet key factory ttl) =
      ({ u with cacheManager :=
          (u.cacheManager.getOrSet now u.namespace_ key factory (passedTtl ttl)).1 },
        (u.cacheManager.getOrSet now u.namespace_ key factory (passedTtl ttl)).2) := rfl
  rw [hcall, CacheServiceLegacy.perform_getOrSet, CacheManager.getOrSet_eq]
  generalize u.cacheManager.get (now 0) u.namespace_ key = reply at hmanager hmirror
  generalize s.cache.get (now 0) key = reply' at hmanager hmirror
  obtain ⟨found, m⟩ := reply
  obtain ⟨found', c⟩ := reply'
  obtain rfl : found = found' := hmanager
  cases found with
  | some v => exact ⟨rfl, hmirror⟩
  | none =>
      cases factory with
      | error error => exact ⟨rfl, hmirror⟩
      | ok value =>
          have hset := Mirrors.set hmirror (now 1) key value ttl
          constructor
          · change ending _ _ = ending _ _
            rw [CacheManager.set_error, hset.1]
          · change Mirrors _ ((m.set (now 1) u.namespace_ key value
              (passedTtl ttl)).1.namespaces u.namespace_)
            rw [CacheManager.set_namespaces, Function.update_self]
            exact hset.2

theorem ServicesMirror.perform (h : ServicesMirror s u) (hreads : s.ReadsAlike (now, operation)) :
    (u.perform now operation).2 = (s.perform now operation).2 ∧
      ServicesMirror (s.perform now operation).1 (u.perform now operation).1 := by
  cases operation with
  | get key =>
      have hget := Mirrors.get h hreads
      refine ⟨congrArg Outcome.value hget.1, ?_⟩
      change Mirrors _ ((u.cacheManager.get (now 0) u.namespace_ key).2.namespaces u.namespace_)
      rw [CacheManager.get_namespaces, Function.update_self]
      exact hget.2
  | set key value ttl =>
      have hset := Mirrors.set h (now 0) key value ttl
      rw [CacheServiceLegacy.perform_set]
      constructor
      · change (u.cacheManager.perform now (.set u.namespace_ key value (passedTtl ttl))).2 = _
        rw [CacheManager.perform_set, CacheManager.set_error, hset.1]
      · change Mirrors _ ((u.cacheManager.perform now
          (.set u.namespace_ key value (passedTtl ttl))).1.namespaces u.namespace_)
        rw [CacheManager.perform_set, CacheManager.set_namespaces, Function.update_self]
        exact hset.2
  | delete key =>
      have hdelete := Mirrors.delete h key
      refine ⟨congrArg Outcome.deleted hdelete.1, ?_⟩
      change Mirrors _ ((u.cacheManager.delete u.namespace_ key).2.namespaces u.namespace_)
      rw [CacheManager.delete_namespaces, Function.update_self]
      exact hdelete.2
  | clear =>
      refine ⟨rfl, ?_⟩
      change Mirrors s.cache.clear ((u.cacheManager.clearNamespace u.namespace_).namespaces u.namespace_)
      rw [CacheManager.clearNamespace, CacheManager.setCache]
      dsimp only
      rw [Function.update_self]
      exact Mirrors.clear h
  | getOrSet key factory ttl => exact h.getOrSet key factory ttl hreads

theorem CacheServiceLegacy.results_append (s : CacheServiceLegacy V)
    (before : List ((ℕ → ℚ) × Operation V)) (request : (ℕ → ℚ) × Operation V) :
    s.results (before ++ [request]) =
      s.results before ++ [((s.after before).perform request.1 request.2).2] := by
  induction before generalizing s with
  | nil => rfl
  | cons first before ih => exact congrArg (List.cons _) (ih _)

theorem CacheServiceUnified.results_append (u : CacheServiceUnified V)
    (before : List ((ℕ → ℚ) × Operation V)) (request : (ℕ → ℚ) × Operation V) :
    u.results (before ++ [request]) =
      u.results before ++ [((u.after before).perform request.1 request.2).2] := by
  induction before generalizing u with
  | nil => rfl
  | cons first before ih => exact congrArg (List.cons _) (ih _)

/-- The services mirror each other along a run whose reads find both alike. -/
theorem ServicesMirror.along (h : ServicesMirror s u) {requests : List ((ℕ → ℚ) × Operation V)}
    (hreads : Along CacheServiceLegacy.step CacheServiceLegacy.ReadsAlike s requests) :
    s.results requests = u.results requests ∧
      ServicesMirror (s.after requests) (u.after requests) := by
  induction requests generalizing s u with
  | nil => exact ⟨rfl, h⟩
  | cons request requests ih =>
      obtain ⟨now, operation⟩ := request
      have hperform := h.perform hreads.1
      have hrest := ih hperform.2 (hreads.2 _ rfl)
      exact ⟨congrArg₂ List.cons hperform.1.symm hrest.1, hrest.2⟩

/-- A `get` that finds a value which only one service has outlived tells them apart. -/
theorem ServicesMirror.get_ne (h : ServicesMirror s u) {key : Key} {e : Entry V} {v : V}
    (he : s.cache.cache.cache.lookup key = some e) (hv : e.value = some v)
    (hodd : ¬ OutlivedAlike s.cache.defaultTtl (now 0) e) :
    (s.perform now (.get key)).2 ≠ (u.perform now (.get key)).2 := by
  have hmirror : Mirrors s.cache (u.cacheManager.namespaces u.namespace_) := h
  set d := u.cacheManager.namespaces u.namespace_ with hd
  have he' : d.cache.cache.lookup (d.versionedKey key) = some (withTtl e) := by
    rw [hmirror.renames.cache.lookup (Mirrors.versionedKey_injective d), he, Option.map_some]
  intro hsame
  have hvalues : (s.cache.cache.get (now 0) key).1 = (d.cache.get (now 0) (d.versionedKey key)).1 :=
    Outcome.value.inj hsame
  have hexpired : s.cache.cache.expired (now 0) e ≠ d.cache.expired (now 0) (withTtl e) := by
    intro heq
    apply hodd
    intro httl
    simp only [LRUCache.expired, withTtl, httl, hmirror.ttl] at heq
    exact decide_eq_decide.mp heq
  rw [LRUCache.get, LRUCache.get, he, he'] at hvalues
  cases hlegacy : s.cache.cache.expired (now 0) e with
  | true =>
      have hunified : d.cache.expired (now 0) (withTtl e) = false := by
        rw [hlegacy] at hexpired
        exact Bool.eq_false_iff.mpr hexpired.symm
      simp only [hlegacy, hunified, if_true, Bool.false_eq_true, if_false] at hvalues
      exact Option.some_ne_none v (hvalues.trans hv).symm
  | false =>
      have hunified : d.cache.expired (now 0) (withTtl e) = true := by
        rw [hlegacy] at hexpired
        exact Bool.eq_true_of_not_eq_false hexpired.symm
      simp only [hlegacy, hunified, if_true, Bool.false_eq_true, if_false] at hvalues
      exact Option.some_ne_none v (hv.symm.trans hvalues)

end Simulation

section Configured
variable (config : CacheConfig) (start : CacheNamespace → ℚ)

/-- A legacy service of the size and the TTL that the manager has for its services. -/
def legacyService : CacheServiceLegacy V :=
  .new ((config.namespaceSizes .general).getD config.globalDefaultSize)
    ((config.defaultTtls .general).getD config.globalDefaultTtl)

def unifiedService : CacheServiceUnified V := .new (.new config start)

theorem servicesMirror_new :
    ServicesMirror (legacyService config : CacheServiceLegacy V) (unifiedService config start) :=
  ⟨⟨rfl, rfl⟩, rfl⟩

/-- The services agree as long as every entry that is read, if it was set without a TTL, is older
than the default TTL exactly if it is older than ten years; a `get` of a value for which this
fails tells them apart. -/
theorem services_agree (requests : List ((ℕ → ℚ) × Operation V))
    (hreads : Along CacheServiceLegacy.step CacheServiceLegacy.ReadsAlike (legacyService config)
      requests) :
    (legacyService config).results requests = (unifiedService config start).results requests ∧
      ∀ (now : ℕ → ℚ) (key : Key) (e : Entry V) (v : V),
        ((legacyService config).after requests).cache.cache.cache.lookup key = some e →
        e.value = some v →
        ¬ OutlivedAlike ((legacyService config).after requests).cache.defaultTtl (now 0) e →
        (legacyService config).results (requests ++ [(now, .get key)]) ≠
          (unifiedService config start).results (requests ++ [(now, .get key)]) := by
  have halong := (servicesMirror_new config start).along hreads
  refine ⟨halong.1, ?_⟩
  intro now key e v he hv hodd hsame
  rw [CacheServiceLegacy.results_append, CacheServiceUnified.results_append, halong.1] at hsame
  have hlast := List.singleton_inj.mp (List.append_cancel_left hsame)
  exact halong.2.get_ne he hv hodd hlast

end Configured

/-- A value without a TTL, which is read at the given time. -/
def readAt (now : ℚ) : List ((ℕ → ℚ) × Operation ℕ) :=
  [(fun _ => 0, .set ['k'] (some 7) none), (fun _ => now, .get ['k'])]

theorem agree_before_default :
    (legacyService {}).results (readAt 3) = (unifiedService {} fun _ => 0).results (readAt 3) := by
  have hreads : Along CacheServiceLegacy.step CacheServiceLegacy.ReadsAlike (legacyService {})
      (readAt 3) := by
    refine ⟨trivial, fun s hs => ⟨fun e he _ => ?_, fun _ _ => trivial⟩⟩
    obtain rfl := Option.some.inj hs
    obtain rfl : (⟨some 7, 0, none⟩ : Entry ℕ) = e := Option.some.inj he
    change (600 : ℚ) < 3 - 0 ↔ tenYears < 3 - 0
    decide +kernel
  exact (services_agree {} (fun _ => 0) (readAt 3) hreads).1

/-- After the default TTL only the unified service still returns the value. -/
theorem differ_after_default :
    (legacyService {}).results (readAt 601) ≠ (unifiedService {} fun _ => 0).results (readAt 601) := by
  intro hsame
  have hlegacy : (legacyService {}).results (readAt 601) = [.done, .value none] := by
    have hread : (((legacyService {}).perform (fun _ => 0)
        (.set ['k'] (some 7) none)).1.cache.get 601 ['k']).1 = none := by decide +kernel
    exact congrArg (fun value => [Outcome.done, .value value]) hread
  have hunified : (unifiedService {} fun _ => 0).results (readAt 601) = [.done, .value (some 7)] := by
    have hread : (((unifiedService {} fun _ => 0).perform (fun _ => 0)
        (.set ['k'] (some 7) none)).1.cacheManager.get 601 .general ['k']).1 = some 7 := by
      decide +kernel
    exact congrArg (fun value => [Outcome.done, .value value]) hread
  rw [hlegacy, hunified] at hsame
  have hvalue := Outcome.value.inj (List.cons.inj (List.cons.inj hsame).2).1
  exact absurd hvalue nofun

end SmartMedia.Cache
