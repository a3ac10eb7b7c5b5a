import SmartMedia.Cache.Namespaces

/-!
# Concurrent callers of `get_or_set`

`CacheManager.get_or_set` with an asynchronous factory is four steps: the lookup, the start
and the end of the factory, and the store. Any number of callers interleave with the other
methods, none of which waits for anything.

Values are opaque to the manager. Here a stored value also says whether a factory made it
and at which step that factory started.
-/
namespace SmartMedia.Cache.Concurrent
open CacheManager

inductive Origin
  | set
  | factory (started : ℕ)
  deriving DecidableEq, Repr

structure Made (V : Type) where
  value : V
  origin : Origin
  deriving DecidableEq, Repr

/-- A call of `get_or_set` that found nothing, up to its end. -/
inductive Caller (V : Type)
  | missed (namespace_ : CacheNamespace) (key : Key) (ttl : Ttl)
  | running (namespace_ : CacheNamespace) (key : Key) (ttl : Ttl) (started : ℕ)
  | finished (namespace_ : CacheNamespace) (key : Key) (ttl : Ttl) (started : ℕ) (value : Option V)
  | returned (result : Except String (Option V))

structure System (V : Type) where
  cacheManager : CacheManager (Made V)
  callers : List (Caller V) := []
  /-- The number of steps so far. -/
  time : ℕ := 0
  /-- The step at which the key was invalidated last, or 0. -/
  invalidated : CacheNamespace → Key → ℕ := fun _ _ => 0
  /-- The step of the last `set` for the key, unless a factory's value was stored since. -/
  lastSet : CacheNamespace → Key → Option ℕ := fun _ _ => none
  /-- Where the value of a `set` was replaced by one of a factory that had started before. -/
  overwritten : List (CacheNamespace × Key) := []

/-- The steps of `get_or_set` and the other methods. -/
inductive Action (V : Type)
  | lookup (namespace_ : CacheNamespace) (key : Key) (ttl : Ttl)
  | startFactory (i : ℕ)
  | endFactory (i : ℕ) (result : Except String (Option V))
  | store (i : ℕ)
  | get (namespace_ : CacheNamespace) (key : Key)
  | set (namespace_ : CacheNamespace) (key : Key) (value : Option V) (ttl : Ttl)
  | delete (namespace_ : CacheNamespace) (key : Key)
  | clearNamespace (namespace_ : CacheNamespace)
  | invalidateRelated (namespace_ : CacheNamespace) (key : Option Key) (cascade : Bool)
  | incrementNamespaceVersion (namespace_ : CacheNamespace) (cascade : Bool)

variable {V : Type}

namespace System

def new (config : CacheConfig) (start : CacheNamespace → ℚ) : System V where
  cacheManager := .new config start

/-- The key is in the cache, and a `set` that came after the step wrote it last. -/
def setSince (s : System V) (n : CacheNamespace) (key : Key) (started : ℕ) : Bool :=
  let c := s.cacheManager.namespaces n
  (c.cache.cache.lookup (c.versionedKey key)).isSome &&
    (s.lastSet n key).any fun step => started < step

def updateAt {α : Type} (f : CacheNamespace → Key → α) (n : CacheNamespace) (key : Key) (a : α) :
    CacheNamespace → Key → α :=
  fun n' key' => if n' = n ∧ key' = key then a else f n' key'

/-- An invalidation of the marked keys, which leaves the manager as given. -/
def invalidate (s : System V) (cacheManager : CacheManager (Made V))
    (marked : CacheNamespace → Key → Bool) : System V :=
  { s with
    cacheManager
    invalidated := fun n key => if marked n key then s.time + 1 else s.invalidated n key }

/-- The keys that an action invalidates. -/
def marks (s : System V) : Action V → CacheNamespace → Key → Bool
  | .delete namespace_ key, n, key' => n = namespace_ ∧ key' = key
  | .clearNamespace namespace_, n, _ => n = namespace_
  | .invalidateRelated namespace_ key cascade, n, key' =>
      (n = namespace_ ∧ (key.getD [] = [] ∨ key' = key.getD [])) ∨
        n ∈ s.cacheManager.cascaded namespace_ cascade
  | .incrementNamespaceVersion namespace_ cascade, n, _ =>
      n = namespace_ ∨ n ∈ s.cacheManager.cascaded namespace_ cascade
  | _, _, _ => false

/-- The last step of `get_or_set`. -/
def storeValue (s : System V) (now : ℚ) (i : ℕ) (n : CacheNamespace) (key : Key) (ttl : Ttl)
    (started : ℕ) (value : Option V) : System V :=
  match s.cacheManager.set now n key (value.map (⟨·, .factory started⟩)) ttl with
  | (cacheManager, some error) =>
      { s with cacheManager, callers := s.callers.set i (.returned (.error error)) }
  | (cacheManager, none) =>
      { s with
        cacheManager
        callers := s.callers.set i (.returned (.ok value))
        lastSet := updateAt s.lastSet n key none
        overwritten :=
          if s.setSince n key started then s.overwritten ++ [(n, key)] else s.overwritten }

/-- What an action does, the count of the steps apart. -/
def act (s : System V) (now : ℕ → ℚ) : Action V → Option (System V)
  | .lookup n key ttl =>
      let (found, cacheManager) := s.cacheManager.get (now 0) n key
      let caller := match found with
        | some made => .returned (.ok (some made.value))
        | none => .missed n key ttl
      some { s with cacheManager, callers := s.callers ++ [caller] }
  | .startFactory i =>
      match s.callers[i]? with
      | some (.missed n key ttl) =>
          some { s with callers := s.callers.set i (.running n key ttl (s.time + 1)) }
      | _ => none
  | .endFactory i result =>
      match s.callers[i]? with
      | some (.running n key ttl started) =>
          let caller := match result with
            | .ok value => .finished n key ttl started value
            | .error error => .returned (.error error)
          some { s with callers := s.callers.set i caller }
      | _ => none
  | .store i =>
      match s.callers[i]? with
      | some (.finished n key ttl started value) =>
          some (s.storeValue (now 0) i n key ttl started value)
      | _ => none
  | .get n key => some { s with cacheManager := (s.cacheManager.get (now 0) n key).2 }
  | .set n key value ttl =>
      match s.cacheManager.set (now 0) n key (value.map (⟨·, .set⟩)) ttl with
      | (cacheManager, some _) => some { s with cacheManager }
      | (cacheManager, none) =>
          some { s with cacheManager, lastSet := updateAt s.lastSet n key (some (s.time + 1)) }
  | .delete n key =>
      some (s.invalidate (s.cacheManager.delete n key).2 (s.marks (.delete n key)))
  | .clearNamespace n =>
      some (s.invalidate (s.cacheManager.clearNamespace n) (s.marks (.clearNamespace n)))
  | .invalidateRelated n key cascade =>
      some (s.invalidate (s.cacheManager.invalidateRelated now n key cascade).2
        (s.marks (.invalidateRelated n key cascade)))
  | .incrementNamespaceVersion n cascade =>
      some (s.invalidate (s.cacheManager.incrementNamespaceVersion now n cascade).2
        (s.marks (.incrementNamespaceVersion n cascade)))

/-- One step with its readings of the clock. -/
def step (s : System V) (event : (ℕ → ℚ) × Action V) : Option (System V) :=
  (s.act event.1 event.2).map fun s' => { s' with time := s.time + 1 }

/-- No `get` that starts now is answered with a value of a factory that started before the last
invalidation of the key. -/
def NoneStale (s : System V) : Prop :=
  ∀ (now : ℚ) (n : CacheNamespace) (key : Key) (made : Made V) (started : ℕ),
    (s.cacheManager.get now n key).1 = some made → made.origin = .factory started →
      s.invalidated n key < started

/-- What the callers rely on. -/
def Respected (s : System V) : Prop := s.NoneStale ∧ s.overwritten = []

/-- A `set` of the key finds room, or something to evict. -/
def HasRoom (c : LRUCache (Made V)) (key : Key) : Prop :=
  0 < c.maxsize ∨ (c.cache.erase key).entries ≠ []

/-- A factory's value is stored only if its key was neither invalidated since the factory started
nor holds the value of a later `set`, and versions are raised only where they count or no
value of a factory is stored. -/
def Undisturbed (s : System V) (event : (ℕ → ℚ) × Action V) : Prop :=
  match event.2 with
  | .store i =>
      match s.callers[i]? with
      | some (.finished n key _ started value) =>
          let c := s.cacheManager.namespaces n
          HasRoom c.cache (c.versionedKey key) →
            (value.isSome = true → s.invalidated n key < started) ∧ s.setSince n key started = false
      | _ => True
  | .incrementNamespaceVersion n cascade =>
      s.cacheManager.config.enableVersioning = true ∨
        ∀ n', Affects s.cacheManager.config n cascade n' → ∀ key e made started,
          s.cacheManager.entry n' key = some e → e.value = some made →
            made.origin ≠ .factory started
  | _ => True

end System

end SmartMedia.Cache.Concurrent
