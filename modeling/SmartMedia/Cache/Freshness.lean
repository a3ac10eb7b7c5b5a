import SmartMedia.Cache.TieredCache

/-!
# Does a value outlive its TTL?

Every layer counts a TTL of its own from the moment it stores a value: the worker gives
the TTL of the `set` from the time of the write, a backfill the default one. A value is
never returned after the TTL of its `set` as long as every copy that is made of it ends no
later than that.
-/
namespace SmartMedia.Cache.Tiered

variable {V : Type}

/-- A copy until `expiry` does not outlive the TTL of its value. -/
def Stamped.EndsInTime (w : Stamped V) (expiry : Option ℚ) : Prop :=
  ∀ due, w.due = some due → ∃ t, expiry = some t ∧ t ≤ due

def EndsInTime (value : Option (Stamped V)) (expiry : Option ℚ) : Prop :=
  ∀ w, value = some w → w.EndsInTime expiry

/-- The TTL of the value was not over at `now`. -/
def Stamped.Alive (w : Stamped V) (now : ℚ) : Prop := ∀ due, w.due = some due → now ≤ due

def MemoryInTime (cache : LRUCache (Stamped V)) : Prop :=
  ∀ key e, cache.cache.lookup key = some e → EndsInTime e.value (cache.expiry e)

def DiskInTime (cache : DiskCache (Stamped V)) : Prop :=
  ∀ key row, cache.rows key = some row → EndsInTime row.value row.expiresAt

def ServerInTime (cache : RedisCacheBackend (Stamped V)) : Prop :=
  ∀ key e, cache.server key = some e → EndsInTime e.1 (some e.2)

section
variable {cache : LRUCache (Stamped V)} {disk : DiskCache (Stamped V)}
  {redis : RedisCacheBackend (Stamped V)} {key : Key} {now : ℚ} {ok : Bool} {ttl : Option ℚ}
  {value : Option (Stamped V)} {w : Stamped V}

theorem Stamped.Alive.mono {now' : ℚ} (h : w.Alive now') (hle : now ≤ now') : w.Alive now :=
  fun due hdue => hle.trans (h due hdue)

theorem MemoryInTime.get (h : MemoryInTime cache) : MemoryInTime (cache.get now key).2 := by
  intro k e he
  rw [LRUCache.expiry, LRUCache.get_ttl]
  exact h k e (LRUCache.lookup_get_of_some he)

theorem MemoryInTime.alive (h : MemoryInTime cache) (hget : (cache.get now key).1 = some w) :
    w.Alive now := by
  intro due hdue
  obtain ⟨e, he, hvalue, halive⟩ := LRUCache.alive_of_get hget
  obtain ⟨t, ht, hle⟩ := h key e he w hvalue due hdue
  exact (LRUCache.le_of_expiry halive ht).trans hle

theorem MemoryInTime.set (h : MemoryInTime cache)
    (hnew : EndsInTime value ((ttl.orElse fun _ => cache.ttl).map fun ttl => now + ttl)) :
    MemoryInTime (cache.set now key value ttl).1 := by
  intro k e he
  rw [LRUCache.expiry, LRUCache.set_ttl]
  rcases LRUCache.lookup_set_of_some he with hold | ⟨-, rfl, -⟩
  · exact h k e hold
  · exact hnew

theorem MemoryInTime.delete (h : MemoryInTime cache) : MemoryInTime (cache.delete key).2 := by
  intro k e he
  rw [LRUCache.expiry, LRUCache.delete_ttl]
  exact h k e (LRUCache.lookup_delete_of_some he)

theorem memoryInTime_clear (cache : LRUCache (Stamped V)) : MemoryInTime cache.clear := nofun

theorem DiskInTime.alive (h : DiskInTime disk) (hget : (disk.get now key ok).1 = some w) :
    w.Alive now := by
  intro due hdue
  obtain ⟨row, hrow, hvalue, halive⟩ := DiskCache.row_of_get hget
  obtain ⟨t, ht, hle⟩ := h key row hrow w hvalue due hdue
  rw [DiskCache.expired, ht, Option.any_some, decide_eq_false_iff_not, not_lt] at halive
  exact halive.trans hle

theorem DiskInTime.set (h : DiskInTime disk)
    (hnew : ok = true → EndsInTime value (disk.expiry now ttl)) :
    DiskInTime (disk.set now key value ttl ok) := by
  intro k row hrow
  rcases DiskCache.rows_set hrow with hold | ⟨-, rfl, hok⟩
  · exact h k row hold
  · exact hnew hok

theorem ServerInTime.alive (h : ServerInTime redis) (hget : redis.getServer now key ok = some w) :
    w.Alive now := by
  intro due hdue
  obtain ⟨expiry, he, hlt⟩ := RedisCacheBackend.server_of_get hget
  obtain ⟨t, ht, hle⟩ := h key _ he w rfl due hdue
  obtain rfl := Option.some.inj ht
  exact hlt.le.trans hle

theorem ServerInTime.set (h : ServerInTime redis)
    (hnew : ok = true → EndsInTime value (some (now + ttl.getD redis.defaultTtl))) :
    ServerInTime (redis.setServer now key value ttl ok) := by
  intro k e he
  rcases RedisCacheBackend.server_set he with hold | ⟨-, rfl, hok⟩
  · exact h k e hold
  · exact hnew hok

end

/-- A call in flight carries a value that was alive when the call began. -/
def Call.InTime (clock : ℚ) : Call V → Prop
  | .getting _ began _ _ => began ≤ clock
  | .filling _ began _ value _ => value.Alive began
  | .refilling _ began _ value => value.Alive began
  | .removing _ _ _ => True
  | .returned => True

namespace TieredCache

/-- No `get` has returned a value whose TTL was over when the call began. -/
def NoneOutlived (c : TieredCache V) : Prop := ∀ a ∈ c.answers, a.value.Alive a.began

/-- The copies that the worker or a backfill makes end no later than the TTL that their
value was set with. -/
def CopiesInTime (c : TieredCache V) (event : ℚ × Action V) : Prop :=
  match event.2 with
  | .advance i ok =>
      match c.calls[i]? with
      | some (.filling _ _ _ value source) =>
          (∀ l1, c.l1 = some l1 → value.EndsInTime (l1.ttl.map fun ttl => event.1 + ttl)) ∧
            (source = .server → ∀ l3, c.l3 = some l3 →
              value.EndsInTime (l3.localCache.ttl.map fun ttl => event.1 + ttl))
      | some (.refilling _ _ _ value) =>
          ok = true → ∀ l2, c.l2 = some l2 → value.EndsInTime (l2.expiry event.1 none)
      | _ => True
  | .write ok =>
      match c.writer with
      | .writing item .disk =>
          ok = true → ∀ l2, c.l2 = some l2 → EndsInTime item.value (l2.expiry event.1 item.ttl)
      | .writing item .client =>
          ∀ l3, c.l3 = some l3 →
            EndsInTime item.value (l3.localCache.ttl.map fun ttl => event.1 + ttl)
      | .writing item .server =>
          ok = true → ∀ l3, c.l3 = some l3 →
            EndsInTime item.value (some (event.1 + item.ttl.getD l3.defaultTtl))
      | _ => True
  | _ => True

/-- At `now`, every copy ends in time and no call in flight carries anything too old. -/
structure Timely (c : TieredCache V) (now : ℚ) : Prop where
  memory : ∀ l1 ∈ c.l1, MemoryInTime l1
  disk : ∀ l2 ∈ c.l2, DiskInTime l2
  client : ∀ l3 ∈ c.l3, MemoryInTime l3.localCache
  server : ∀ l3 ∈ c.l3, ServerInTime l3
  calls : ∀ call ∈ c.calls, call.InTime now
  answers : c.NoneOutlived

section
variable {c c' : TieredCache V} {key : Key} {now : ℚ} {ok : Bool} {i : ℕ} {call : Call V}

theorem Timely.mono {now' : ℚ} (h : c.Timely now) (hle : now ≤ now') : c.Timely now' := by
  refine ⟨h.memory, h.disk, h.client, h.server, fun call hcall => ?_, h.answers⟩
  have hin := h.calls call hcall
  cases call with
  | getting key began stale stage => exact le_trans hin hle
  | filling key began stale value source => exact hin
  | refilling key began stale value => exact hin
  | removing target before stage => trivial
  | returned => trivial

theorem Timely.setCall (h : c.Timely now) (i : ℕ) (call : Call V) (hcall : call.InTime now) : (c.setCall i call).Timely now := by
  refine ⟨h.memory, h.disk, h.client, h.server, fun call' hmem => ?_, h.answers⟩
  rcases List.mem_or_eq_of_mem_set hmem with hold | rfl
  · exact h.calls call' hold
  · exact hcall

theorem Timely.newCall (h : c.Timely now) (call : Call V) (hcall : call.InTime now) :
    Timely { c with calls := c.calls ++ [call] } now := by
  refine ⟨h.memory, h.disk, h.client, h.server, fun call' hmem => ?_, h.answers⟩
  rcases List.mem_append.mp hmem with hold | hnew
  · exact h.calls call' hold
  · rw [List.mem_singleton.mp hnew]
    exact hcall

theorem Timely.answer (h : c.Timely now) {a : Answer V} (ha : a.value.Alive a.began) :
    (c.answer a).Timely now := by
  refine ⟨h.memory, h.disk, h.client, h.server, h.calls, fun b hb => ?_⟩
  rcases List.mem_append.mp hb with hold | hnew
  · exact h.answers b hold
  · rw [List.mem_singleton.mp hnew]
    exact ha

/-- One layer changes. -/
theorem Timely.mapL1 (h : c.Timely now) {f : LRUCache (Stamped V) → LRUCache (Stamped V)}
    (hf : ∀ l1 ∈ c.l1, MemoryInTime l1 → MemoryInTime (f l1)) :
    Timely { c with l1 := c.l1.map f } now := by
  refine ⟨fun l1 hl1 => ?_, h.disk, h.client, h.server, h.calls, h.answers⟩
  obtain ⟨l1', hl1', rfl⟩ := Option.map_eq_some_iff.mp hl1
  exact hf l1' hl1' (h.memory l1' hl1')

theorem Timely.mapL2 (h : c.Timely now) {f : DiskCache (Stamped V) → DiskCache (Stamped V)}
    (hf : ∀ l2 ∈ c.l2, DiskInTime l2 → DiskInTime (f l2)) :
    Timely { c with l2 := c.l2.map f } now := by
  refine ⟨h.memory, fun l2 hl2 => ?_, h.client, h.server, h.calls, h.answers⟩
  obtain ⟨l2', hl2', rfl⟩ := Option.map_eq_some_iff.mp hl2
  exact hf l2' hl2' (h.disk l2' hl2')

theorem Timely.mapL3 (h : c.Timely now)
    {f : RedisCacheBackend (Stamped V) → RedisCacheBackend (Stamped V)}
    (hclient : ∀ l3 ∈ c.l3, MemoryInTime l3.localCache → MemoryInTime (f l3).localCache)
    (hserver : ∀ l3 ∈ c.l3, ServerInTime l3 → ServerInTime (f l3)) :
    Timely { c with l3 := c.l3.map f } now := by
  refine ⟨h.memory, h.disk, fun l3 hl3 => ?_, fun l3 hl3 => ?_, h.calls, h.answers⟩
  · obtain ⟨l3', hl3', rfl⟩ := Option.map_eq_some_iff.mp hl3
    exact hclient l3' hl3' (h.client l3' hl3')
  · obtain ⟨l3', hl3', rfl⟩ := Option.map_eq_some_iff.mp hl3
    exact hserver l3' hl3' (h.server l3' hl3')

theorem Timely.get (h : c.Timely now) (key : Key) : (c.get now key).Timely now := by
  have hmemory : Timely { c with l1 := c.l1.map fun l1 => (l1.get now key).2 } now :=
    h.mapL1 fun l1 _ hl1 => hl1.get
  rw [TieredCache.get]
  split
  · rename_i value hfound
    obtain ⟨l1, hl1, hget⟩ := Option.bind_eq_some_iff.mp hfound
    exact hmemory.answer ((h.memory l1 hl1).alive hget)
  · exact hmemory.newCall (.getting key now (c.stale key) .disk) le_rfl

/-- The copy in memory gets the TTL of the `set` itself. -/
theorem Timely.set (h : c.Timely now) {value : Option V} {ttl : Option ℚ} {persist : Bool} :
    (c.set now key value ttl persist).Timely now := by
  have hmemory := h.mapL1 (f := fun l1 => (l1.set now key (value.map fun value =>
    ⟨value, c.nextCall, (ttl.filter fun ttl => 0 < ttl).map fun ttl => now + ttl⟩) ttl).1)
      fun l1 _ hl1 => hl1.set fun w hw due hdue => ?_
  · exact ⟨hmemory.memory, h.disk, h.client, h.server, h.calls, h.answers⟩
  · obtain ⟨v, -, rfl⟩ := Option.map_eq_some_iff.mp hw
    obtain ⟨t, ht, rfl⟩ := Option.map_eq_some_iff.mp hdue
    obtain ⟨rfl, -⟩ := Option.filter_eq_some_iff.mp ht
    exact ⟨now + t, rfl, le_rfl⟩

theorem Timely.remove (h : c.Timely now) (target : Option Key) : (c.remove target).Timely now := by
  cases target with
  | some key =>
      have hmemory := h.mapL1 (f := fun l1 => (l1.delete key).2) fun l1 _ hl1 => hl1.delete
      exact hmemory.newCall (.removing (some key) _ .disk) trivial
  | none =>
      have hmemory := h.mapL1 (f := LRUCache.clear) fun l1 _ _ => memoryInTime_clear l1
      exact hmemory.newCall (.removing none _ .disk) trivial

theorem Timely.getting (h : c.Timely now) {began : ℚ} {stale : Finset ℕ} {stage : Stage}
    (hbegan : began ≤ now) (hs : c.advance now i ok (.getting key began stale stage) = some c') :
    c'.Timely now := by
  cases stage with
  | disk =>
      have hdisk : Timely { c with l2 := c.l2.map fun l2 => (l2.get now key ok).2 } now :=
        h.mapL2 fun l2 _ hl2 k row hrow => hl2 k row (DiskCache.rows_get hrow)
      simp only [TieredCache.advance] at hs
      split at hs
      · rename_i value hfound
        obtain rfl := Option.some.inj hs
        obtain ⟨l2, hl2, hget⟩ := Option.bind_eq_some_iff.mp hfound
        exact hdisk.setCall i _ (((h.disk l2 hl2).alive hget).mono hbegan)
      · obtain rfl := Option.some.inj hs
        exact hdisk.setCall i _ hbegan
  | client =>
      have hclient : Timely { c with l3 := c.l3.map fun l3 => (l3.getLocal now key).2 } now :=
        h.mapL3 (fun l3 _ hl3 => hl3.get) fun l3 _ hl3 => hl3
      simp only [TieredCache.advance] at hs
      split at hs
      · rename_i value hfound
        obtain rfl := Option.some.inj hs
        obtain ⟨l3, hl3, hget⟩ := Option.bind_eq_some_iff.mp hfound
        exact hclient.setCall i _ (((h.client l3 hl3).alive hget).mono hbegan)
      · obtain rfl := Option.some.inj hs
        exact hclient.setCall i _ hbegan
  | server =>
      simp only [TieredCache.advance] at hs
      split at hs
      · rename_i value hfound
        obtain rfl := Option.some.inj hs
        obtain ⟨l3, hl3, hget⟩ := Option.bind_eq_some_iff.mp hfound
        exact h.setCall i _ (((h.server l3 hl3).alive hget).mono hbegan)
      · obtain rfl := Option.some.inj hs
        exact h.setCall i _ trivial
  | done => cases hs

/-- A backfill, first into the client of the Redis layer and the memory. -/
theorem Timely.filling (h : c.Timely now) {began : ℚ} {stale : Finset ℕ} {value : Stamped V}
    {source : Stage} (halive : value.Alive began)
    (hmemory : ∀ l1, c.l1 = some l1 → value.EndsInTime (l1.ttl.map fun ttl => now + ttl))
    (hclient : source = .server → ∀ l3, c.l3 = some l3 →
      value.EndsInTime (l3.localCache.ttl.map fun ttl => now + ttl))
    (hs : c.advance now i ok (.filling key began stale value source) = some c') : c'.Timely now := by
  have hvalue : ∀ {expiry}, value.EndsInTime expiry → EndsInTime (some value) expiry := by
    rintro expiry hends w hw
    obtain rfl := Option.some.inj hw
    exact hends
  have hfilled : Timely { c with
      l1 := c.l1.map fun l1 => (l1.set now key (some value) none).1
      l3 := if source = .server then c.l3.map fun l3 => l3.setLocal now key (some value) else c.l3 }
      now := by
    split_ifs with hsource
    · refine (h.mapL1 fun l1 hl1 hin => hin.set (hvalue (hmemory l1 hl1))).mapL3
        (fun l3 hl3 hin => hin.set (hvalue (hclient hsource l3 hl3))) fun l3 _ hl3 => hl3
    · exact h.mapL1 fun l1 hl1 hin => hin.set (hvalue (hmemory l1 hl1))
  simp only [TieredCache.advance] at hs
  generalize (if source = .server then c.l3.map fun l3 => l3.setLocal now key (some value)
    else c.l3) = l3 at hs hfilled
  split_ifs at hs
  · obtain rfl := Option.some.inj hs
    exact hfilled.setCall i _ trivial
  · obtain rfl := Option.some.inj hs
    exact hfilled.setCall i _ halive
  · obtain rfl := Option.some.inj hs
    exact (hfilled.setCall i .returned trivial).answer halive

theorem Timely.removing (h : c.Timely now) {target : Option Key} {before : Key → Finset ℕ}
    {stage : Stage} (hs : c.advance now i ok (.removing target before stage) = some c') :
    c'.Timely now := by
  cases stage with
  | disk =>
      obtain rfl := Option.some.inj hs
      refine Timely.setCall (h.mapL2 fun l2 _ hl2 k row hrow => hl2 k row ?_) i _ trivial
      cases target with
      | some key => exact DiskCache.rows_delete hrow
      | none => exact DiskCache.rows_clear hrow
  | client =>
      obtain rfl := Option.some.inj hs
      refine Timely.setCall (h.mapL3 (fun l3 _ hl3 => ?_) fun l3 _ hl3 => ?_) i _ trivial
      · cases target with
        | some key => exact hl3.delete
        | none => exact memoryInTime_clear l3.localCache
      · cases target with
        | some key => exact hl3
        | none => exact hl3
  | server =>
      obtain rfl := Option.some.inj hs
      refine Timely.setCall (h.mapL3 (fun l3 _ hl3 => ?_) fun l3 _ hl3 => ?_) i _ trivial
      · cases target with
        | some key =>
            dsimp only
            rw [RedisCacheBackend.deleteServer_localCache]
            exact hl3
        | none =>
            dsimp only
            rw [RedisCacheBackend.flushServer_localCache]
            exact hl3
      · cases target with
        | some key => exact fun k e he => hl3 k e (RedisCacheBackend.server_delete he)
        | none => exact fun k e he => hl3 k e (RedisCacheBackend.server_flush he)
  | done =>
      obtain rfl := Option.some.inj hs
      refine Timely.setCall ?_ i .returned trivial
      exact ⟨h.memory, h.disk, h.client, h.server, h.calls, h.answers⟩

theorem Timely.write (h : c.Timely now) (hcopies : c.CopiesInTime (now, .write ok))
    (hs : c.write now ok = some c') : c'.Timely now := by
  rw [TieredCache.write] at hs
  simp only [CopiesInTime] at hcopies
  split at hs
  · split at hs
    · cases hs
    · obtain rfl := Option.some.inj hs
      exact ⟨h.memory, h.disk, h.client, h.server, h.calls, h.answers⟩
  · rename_i item hwriter
    obtain rfl := Option.some.inj hs
    rw [hwriter] at hcopies
    have hdisk := h.mapL2 (f := fun l2 => l2.set now item.key item.value item.ttl ok)
      fun l2 hl2 hin => hin.set fun hok => hcopies hok l2 hl2
    exact ⟨hdisk.memory, hdisk.disk, hdisk.client, hdisk.server, hdisk.calls, hdisk.answers⟩
  · rename_i item hwriter
    obtain rfl := Option.some.inj hs
    rw [hwriter] at hcopies
    have hclient := h.mapL3 (f := fun l3 => l3.setLocal now item.key item.value)
      (fun l3 hl3 hin => hin.set (hcopies l3 hl3)) fun l3 _ hl3 => hl3
    exact ⟨hclient.memory, hclient.disk, hclient.client, hclient.server, hclient.calls,
      hclient.answers⟩
  · rename_i item hwriter
    obtain rfl := Option.some.inj hs
    rw [hwriter] at hcopies
    have hserver := h.mapL3 (f := fun l3 => l3.setServer now item.key item.value item.ttl ok)
      (fun l3 hl3 hin => by
        rw [RedisCacheBackend.setServer_localCache]
        exact hin) fun l3 hl3 hin => hin.set fun hok => hcopies hok l3 hl3
    exact ⟨hserver.memory, hserver.disk, hserver.client, hserver.server, hserver.calls,
      hserver.answers⟩
  · cases hs

theorem Timely.restart (h : c.Timely now) : c.restart.Timely now := by
  refine ⟨fun l1 hl1 => ?_, h.disk, fun l3 hl3 => ?_, fun l3 hl3 => ?_,
    fun call hcall => absurd hcall List.not_mem_nil, h.answers⟩
  · replace hl1 : newL1 c.config = some l1 := hl1
    rw [newL1] at hl1
    split_ifs at hl1
    obtain rfl := Option.some.inj hl1
    exact nofun
  · obtain ⟨l3', hl3', rfl⟩ := Option.map_eq_some_iff.mp hl3
    exact nofun
  · obtain ⟨l3', hl3', rfl⟩ := Option.map_eq_some_iff.mp hl3
    exact h.server l3' hl3'

theorem Timely.perform (h : c.Timely now) {a : Action V} (hcopies : c.CopiesInTime (now, a))
    (hs : c.perform now a = some c') : c'.Timely now := by
  cases a with
  | get key => exact Option.some.inj hs ▸ h.get key
  | set key value ttl persist => exact Option.some.inj hs ▸ h.set
  | remove target => exact Option.some.inj hs ▸ h.remove target
  | advance i ok =>
      obtain ⟨call, hcall, hs⟩ := Option.bind_eq_some_iff.mp hs
      have hin := h.calls call (List.mem_of_getElem? hcall)
      simp only [CopiesInTime, hcall] at hcopies
      cases call with
      | getting key began stale stage => exact h.getting hin hs
      | filling key began stale value source => exact h.filling hin hcopies.1 hcopies.2 hs
      | refilling key began stale value =>
          obtain rfl := Option.some.inj hs
          refine Timely.answer (Timely.setCall (h.mapL2 fun l2 hl2 hdisk => hdisk.set fun hok => ?_) i
            .returned trivial) hin
          rintro w hw
          obtain rfl := Option.some.inj hw
          exact hcopies hok l2 hl2
      | removing target before stage => exact h.removing hs
      | returned => cases hs
  | write ok => exact h.write hcopies hs
  | cleanup ok =>
      obtain rfl := Option.some.inj hs
      exact h.mapL2 fun l2 _ hl2 k row hrow => hl2 k row (DiskCache.rows_cleanupExpired hrow)
  | restart => exact Option.some.inj hs ▸ h.restart

theorem Timely.step (h : c.Timely c.clock) {event : ℚ × Action V} (hcopies : c.CopiesInTime event)
    (hs : c.step event = some c') : c'.Timely c'.clock := by
  rw [TieredCache.step] at hs
  split_ifs at hs with hclock
  obtain ⟨d, hd, rfl⟩ := Option.map_eq_some_iff.mp hs
  have htimely : d.Timely event.1 := (h.mono hclock).perform hcopies hd
  exact ⟨htimely.memory, htimely.disk, htimely.client, htimely.server, htimely.calls, htimely.answers⟩

theorem timely_new (config : CacheConfig) : (new config : TieredCache V).Timely 0 := by
  refine ⟨fun l1 hl1 => ?_, fun l2 hl2 => ?_, fun l3 hl3 => ?_, fun l3 hl3 => ?_,
    fun call hcall => absurd hcall List.not_mem_nil, fun a ha => absurd ha List.not_mem_nil⟩
  · replace hl1 : newL1 config = some l1 := hl1
    rw [newL1] at hl1
    split_ifs at hl1
    obtain rfl := Option.some.inj hl1
    exact nofun
  · replace hl2 : (if config.enableL2 then some (DiskCache.new config.l2DefaultTtl) else none) =
      some l2 := hl2
    split_ifs at hl2
    obtain rfl := Option.some.inj hl2
    exact nofun
  · replace hl3 : newL3 config = some l3 := hl3
    rw [newL3] at hl3
    split_ifs at hl3
    obtain rfl := Option.some.inj hl3
    exact nofun
  · replace hl3 : newL3 config = some l3 := hl3
    rw [newL3] at hl3
    split_ifs at hl3
    obtain rfl := Option.some.inj hl3
    exact nofun

end

def link : Key := ['l']

/-- A link is set for ten seconds and read from memory in time. -/
def readInTime : List (ℚ × Action ℕ) :=
  [(0, .set link (some 1) (some 10) true), (10, .get link)]

/-- The worker writes it to the disk five seconds late, and the memory forgets it in time. -/
def readTooLate : List (ℚ × Action ℕ) :=
  [(0, .set link (some 1) (some 10) true), (5, .write true), (5, .write true), (12, .get link),
    (12, .advance 0 true), (12, .advance 0 true)]

end TieredCache

end SmartMedia.Cache.Tiered
