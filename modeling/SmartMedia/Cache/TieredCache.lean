import SmartMedia.Cache.Layers
import SmartMedia.Library.PartialRun
import Mathlib.Data.Finset.Union
import Mathlib.Data.Finset.Range

/-!
# The tiered cache

`TieredCache` of `app/services/tiered_cache.py` with its memory, disk and Redis layers and
the worker that writes to the lower ones. The calls in flight and the worker are cut at
every call of a layer and interleave in any order; the clock never goes back.

Values are opaque to the cache. Here a stored value carries the number of the `set` that
stored it and the end of the TTL it was given there.
-/
namespace SmartMedia.Cache.Tiered

structure CacheConfig where
  enableL1 : Bool := true
  enableL2 : Bool := true
  enableL3 : Bool := false
  l1MaxSize : ℤ := 1000
  l1DefaultTtl : ℚ := 600
  l2DefaultTtl : ℚ := 3600
  l3DefaultTtl : ℚ := 7200

structure Stamped (V : Type) where
  value : V
  call : ℕ
  due : Option ℚ
  deriving DecidableEq, Repr

/-- What waits in `_write_queue`. -/
structure Pending (V : Type) where
  key : Key
  value : Option (Stamped V)
  ttl : Option ℚ

/-- The layer that comes next; `client` and `server` are the parts of the Redis layer. -/
inductive Stage
  | disk
  | client
  | server
  | done
  deriving DecidableEq, Repr

/-- The calls in flight. A `get` knows when it began and which values were already
replaced or removed then; a `delete` or `clear` knows what was set before it. -/
inductive Call (V : Type)
  | getting (key : Key) (began : ℚ) (stale : Finset ℕ) (stage : Stage)
  | filling (key : Key) (began : ℚ) (stale : Finset ℕ) (value : Stamped V) (source : Stage)
  | refilling (key : Key) (began : ℚ) (stale : Finset ℕ) (value : Stamped V)
  | removing (target : Option Key) (before : Key → Finset ℕ) (stage : Stage)
  | returned

inductive Writer (V : Type)
  | idle
  | writing (item : Pending V) (stage : Stage)

/-- What a `get` has returned. -/
structure Answer (V : Type) where
  key : Key
  began : ℚ
  stale : Finset ℕ
  value : Stamped V

structure TieredCache (V : Type) where
  config : CacheConfig
  l1 : Option (LRUCache (Stamped V))
  l2 : Option (DiskCache (Stamped V))
  l3 : Option (RedisCacheBackend (Stamped V))
  writeQueue : List (Pending V) := []
  writer : Writer V := .idle
  calls : List (Call V) := []
  clock : ℚ := 0
  /-- The number of the next `set`. -/
  nextCall : ℕ := 0
  /-- The `set` calls for a key that have returned. -/
  returnedSets : Key → Finset ℕ := fun _ => ∅
  /-- Those that a later `set`, `delete` or `clear` came after, and returned. -/
  stale : Key → Finset ℕ := fun _ => ∅
  answers : List (Answer V) := []

variable {V : Type}

namespace TieredCache

def newL1 (config : CacheConfig) : Option (LRUCache (Stamped V)) :=
  if config.enableL1 then some (.new config.l1MaxSize (some config.l1DefaultTtl) true) else none

/-- The client of the Redis layer keeps a thousand values. -/
def newL3 (config : CacheConfig) : Option (RedisCacheBackend (Stamped V)) :=
  if config.enableL3 then some (.new 1000 config.l3DefaultTtl) else none

def new (config : CacheConfig) : TieredCache V where
  config
  l1 := newL1 config
  l2 := if config.enableL2 then some (.new config.l2DefaultTtl) else none
  l3 := newL3 config

section
variable (c : TieredCache V) (now : ℚ)

def answer (a : Answer V) : TieredCache V := { c with answers := c.answers ++ [a] }

def setCall (i : ℕ) (call : Call V) : TieredCache V := { c with calls := c.calls.set i call }

/-- `get` up to its first wait: a hit in memory returns at once. -/
def get (key : Key) : TieredCache V :=
  let c' : TieredCache V := { c with l1 := c.l1.map fun l1 => (l1.get now key).2 }
  match c.l1.bind fun l1 => (l1.get now key).1 with
  | some value => c'.answer ⟨key, now, c.stale key, value⟩
  | none => { c' with calls := c.calls ++ [.getting key now (c.stale key) .disk] }

/-- `set` does not wait: the queue is unbounded. An error of the memory layer is logged. -/
def set (key : Key) (value : Option V) (ttl : Option ℚ) (persist : Bool) : TieredCache V :=
  let due := (ttl.filter fun ttl => 0 < ttl).map fun ttl => now + ttl
  let stored := value.map fun value => ⟨value, c.nextCall, due⟩
  { c with
    l1 := c.l1.map fun l1 => (l1.set now key stored ttl).1
    writeQueue :=
      if persist && (c.l2.isSome || c.l3.isSome) then c.writeQueue ++ [⟨key, stored, ttl⟩]
      else c.writeQueue
    nextCall := c.nextCall + 1
    returnedSets := Function.update c.returnedSets key (insert c.nextCall (c.returnedSets key))
    stale := Function.update c.stale key (c.stale key ∪ c.returnedSets key) }

/-- `delete` of a key, or `clear`, up to its first wait. -/
def remove (target : Option Key) : TieredCache V :=
  { c with
    l1 := c.l1.map fun l1 =>
      match target with
      | some key => (l1.delete key).2
      | none => l1.clear
    calls := c.calls ++ [.removing target
      (fun key => if target = none ∨ target = some key then c.returnedSets key else ∅) .disk] }

/-- A call in flight goes on; `ok = false` is an error that the layer logs. -/
def advance (i : ℕ) (ok : Bool) : Call V → Option (TieredCache V)
  | .getting key began stale .disk =>
      let c' : TieredCache V := { c with l2 := c.l2.map fun l2 => (l2.get now key ok).2 }
      match c.l2.bind fun l2 => (l2.get now key ok).1 with
      | some value => some (c'.setCall i (.filling key began stale value .disk))
      | none => some (c'.setCall i (.getting key began stale .client))
  | .getting key began stale .client =>
      let c' : TieredCache V := { c with l3 := c.l3.map fun l3 => (l3.getLocal now key).2 }
      match c.l3.bind fun l3 => (l3.getLocal now key).1 with
      | some value => some (c'.setCall i (.filling key began stale value .client))
      | none => some (c'.setCall i (.getting key began stale .server))
  | .getting key began stale .server =>
      match c.l3.bind fun l3 => l3.getServer now key ok with
      | some value => some (c.setCall i (.filling key began stale value .server))
      | none => some (c.setCall i .returned)
  | .filling key began stale value source =>
      let c' : TieredCache V :=
        { c with
          l1 := c.l1.map fun l1 => (l1.set now key (some value) none).1
          l3 := if source = .server then c.l3.map fun l3 => l3.setLocal now key (some value) else c.l3 }
      if c.l1.any fun l1 => (l1.set now key (some value) none).2.isSome then
        some (c'.setCall i .returned)
      else if source ≠ .disk ∧ c.l2.isSome then
        some (c'.setCall i (.refilling key began stale value))
      else some ((c'.setCall i .returned).answer ⟨key, began, stale, value⟩)
  | .refilling key began stale value =>
      let c' : TieredCache V := { c with l2 := c.l2.map fun l2 => l2.set now key (some value) none ok }
      some ((c'.setCall i .returned).answer ⟨key, began, stale, value⟩)
  | .removing target before .disk =>
      let c' : TieredCache V := { c with l2 := c.l2.map fun l2 =>
        match target with
        | some key => l2.delete key ok
        | none => l2.clear ok }
      some (c'.setCall i (.removing target before .client))
  | .removing target before .client =>
      let c' : TieredCache V := { c with l3 := c.l3.map fun l3 =>
        match target with
        | some key => l3.deleteLocal key
        | none => l3.flushLocal }
      some (c'.setCall i (.removing target before .server))
  | .removing target before .server =>
      let c' : TieredCache V := { c with l3 := c.l3.map fun l3 =>
        match target with
        | some key => l3.deleteServer key ok
        | none => l3.flushServer ok }
      some (c'.setCall i (.removing target before .done))
  | .removing _ before .done =>
      some ({ c with stale := fun key => c.stale key ∪ before key }.setCall i .returned)
  | .getting _ _ _ .done => none
  | .returned => none

/-- `_async_write_worker`. -/
def write (ok : Bool) : Option (TieredCache V) :=
  match c.writer with
  | .idle =>
      match c.writeQueue with
      | [] => none
      | item :: rest => some { c with writer := .writing item .disk, writeQueue := rest }
  | .writing item .disk =>
      some { c with
        l2 := c.l2.map fun l2 => l2.set now item.key item.value item.ttl ok
        writer := .writing item .client }
  | .writing item .client =>
      some { c with
        l3 := c.l3.map fun l3 => l3.setLocal now item.key item.value
        writer := .writing item .server }
  | .writing item .server =>
      some { c with
        l3 := c.l3.map fun l3 => l3.setServer now item.key item.value item.ttl ok
        writer := .idle }
  | .writing _ .done => none

/-- Another process on the same disk and Redis server. -/
def restart : TieredCache V :=
  { c with
    l1 := newL1 c.config
    l3 := c.l3.map fun l3 => { l3 with localCache := .new 1000 (some c.config.l3DefaultTtl) true }
    writeQueue := []
    writer := .idle
    calls := [] }

end

end TieredCache

inductive Action (V : Type)
  | get (key : Key)
  | set (key : Key) (value : Option V) (ttl : Option ℚ) (persist : Bool)
  /-- `delete` of a key or `clear`. -/
  | remove (target : Option Key)
  | advance (i : ℕ) (ok : Bool)
  | write (ok : Bool)
  /-- The periodic cleanup of the disk layer. -/
  | cleanup (ok : Bool)
  | restart

namespace TieredCache

def perform (c : TieredCache V) (now : ℚ) : Action V → Option (TieredCache V)
  | .get key => some (c.get now key)
  | .set key value ttl persist => some (c.set now key value ttl persist)
  | .remove target => some (c.remove target)
  | .advance i ok => (c.calls[i]?).bind fun call => c.advance now i ok call
  | .write ok => c.write now ok
  | .cleanup ok => some { c with l2 := c.l2.map fun l2 => l2.cleanupExpired now ok }
  | .restart => some c.restart

def step (c : TieredCache V) (event : ℚ × Action V) : Option (TieredCache V) :=
  if c.clock ≤ event.1 then
    (c.perform event.1 event.2).map fun c' => { c' with clock := event.1 }
  else none

end TieredCache

end SmartMedia.Cache.Tiered
