import SmartMedia.Cache.TieredCache

/-!
# Does an old value come back?

Values are copied from layer to layer, from the queue to the disk, and from a `get` in
flight back into memory. A value that was replaced or removed can be returned later
exactly as long as one of its copies is left somewhere, and no copy appears out of
nothing: so it is enough that none is left when the `set`, `delete` or `clear` returns.
-/
namespace SmartMedia.Cache.Tiered

variable {V : Type}

def InMemory (l1 : Option (LRUCache (Stamped V))) (key : Key) (w : Stamped V) : Prop :=
  ∃ cache e, l1 = some cache ∧ cache.cache.lookup key = some e ∧ e.value = some w

def OnDisk (l2 : Option (DiskCache (Stamped V))) (key : Key) (w : Stamped V) : Prop :=
  ∃ cache row, l2 = some cache ∧ cache.rows key = some row ∧ row.value = some w

def InClient (l3 : Option (RedisCacheBackend (Stamped V))) (key : Key) (w : Stamped V) : Prop :=
  ∃ cache e, l3 = some cache ∧ cache.localCache.cache.lookup key = some e ∧ e.value = some w

def OnServer (l3 : Option (RedisCacheBackend (Stamped V))) (key : Key) (w : Stamped V) : Prop :=
  ∃ cache expiry, l3 = some cache ∧ cache.server key = some (some w, expiry)

def Pending.Has (item : Pending V) (key : Key) (w : Stamped V) : Prop :=
  item.key = key ∧ item.value = some w

def Writer.Has (writer : Writer V) (key : Key) (w : Stamped V) : Prop :=
  match writer with
  | .idle => False
  | .writing item _ => item.Has key w

/-- A `get` that has found a value and is about to store it in the layers above. -/
def Call.Carries (call : Call V) (key : Key) (w : Stamped V) : Prop :=
  match call with
  | .filling key' _ _ value _ => key' = key ∧ value = w
  | .refilling key' _ _ value => key' = key ∧ value = w
  | _ => False

namespace TieredCache

/-- A copy outside of the memory layer. -/
inductive Below (c : TieredCache V) (key : Key) (w : Stamped V) : Prop
  | disk : OnDisk c.l2 key w → Below c key w
  | client : InClient c.l3 key w → Below c key w
  | server : OnServer c.l3 key w → Below c key w
  | queued {item : Pending V} : item ∈ c.writeQueue → item.Has key w → Below c key w
  | written : c.writer.Has key w → Below c key w
  | carried {call : Call V} : call ∈ c.calls → call.Carries key w → Below c key w

inductive Copy (c : TieredCache V) (key : Key) (w : Stamped V) : Prop
  | memory : InMemory c.l1 key w → Copy c key w
  | below : Below c key w → Copy c key w

end TieredCache

section
variable {l1 : Option (LRUCache (Stamped V))} {l2 : Option (DiskCache (Stamped V))}
  {l3 : Option (RedisCacheBackend (Stamped V))} {key k : Key} {w : Stamped V} {now : ℚ} {ok : Bool}
  {ttl : Option ℚ} {value : Option (Stamped V)}

theorem InMemory.of_map {f : LRUCache (Stamped V) → LRUCache (Stamped V)}
    (hf : ∀ cache e, (f cache).cache.lookup k = some e → cache.cache.lookup k = some e)
    (h : InMemory (l1.map f) k w) : InMemory l1 k w := by
  obtain ⟨cache, e, hcache, he, hw⟩ := h
  obtain ⟨cache', hcache', rfl⟩ := Option.map_eq_some_iff.mp hcache
  exact ⟨cache', e, hcache', hf cache' e he, hw⟩

theorem OnDisk.of_map {f : DiskCache (Stamped V) → DiskCache (Stamped V)}
    (hf : ∀ cache row, (f cache).rows k = some row → cache.rows k = some row)
    (h : OnDisk (l2.map f) k w) : OnDisk l2 k w := by
  obtain ⟨cache, row, hcache, hrow, hw⟩ := h
  obtain ⟨cache', hcache', rfl⟩ := Option.map_eq_some_iff.mp hcache
  exact ⟨cache', row, hcache', hf cache' row hrow, hw⟩

theorem InClient.of_map {f : RedisCacheBackend (Stamped V) → RedisCacheBackend (Stamped V)}
    (hf : ∀ cache e, (f cache).localCache.cache.lookup k = some e →
      cache.localCache.cache.lookup k = some e)
    (h : InClient (l3.map f) k w) : InClient l3 k w := by
  obtain ⟨cache, e, hcache, he, hw⟩ := h
  obtain ⟨cache', hcache', rfl⟩ := Option.map_eq_some_iff.mp hcache
  exact ⟨cache', e, hcache', hf cache' e he, hw⟩

theorem OnServer.of_map {f : RedisCacheBackend (Stamped V) → RedisCacheBackend (Stamped V)}
    (hf : ∀ cache e, (f cache).server k = some e → cache.server k = some e)
    (h : OnServer (l3.map f) k w) : OnServer l3 k w := by
  obtain ⟨cache, expiry, hcache, he⟩ := h
  obtain ⟨cache', hcache', rfl⟩ := Option.map_eq_some_iff.mp hcache
  exact ⟨cache', expiry, hcache', hf cache' _ he⟩

/-- A layer after it stored a value. -/
theorem InMemory.of_set
    (h : InMemory (l1.map fun cache => (cache.set now key value ttl).1) k w) :
    InMemory l1 k w ∧ k ≠ key ∨ k = key ∧ value = some w := by
  obtain ⟨cache, e, hcache, he, hw⟩ := h
  obtain ⟨cache', hcache', rfl⟩ := Option.map_eq_some_iff.mp hcache
  by_cases hk : k = key
  · subst hk
    rw [LRUCache.lookup_set_self he] at hw
    exact .inr ⟨rfl, hw⟩
  · rcases LRUCache.lookup_set_of_some he with hold | ⟨hkey, -⟩
    · exact .inl ⟨⟨cache', e, hcache', hold, hw⟩, hk⟩
    · exact absurd hkey hk

theorem OnDisk.of_set (h : OnDisk (l2.map fun cache => cache.set now key value ttl ok) k w) :
    OnDisk l2 k w ∨ k = key ∧ value = some w := by
  obtain ⟨cache, row, hcache, hrow, hw⟩ := h
  obtain ⟨cache', hcache', rfl⟩ := Option.map_eq_some_iff.mp hcache
  rcases DiskCache.rows_set hrow with hold | ⟨hk, rfl, -⟩
  · exact .inl ⟨cache', row, hcache', hold, hw⟩
  · exact .inr ⟨hk, hw⟩

theorem InClient.of_setLocal (h : InClient (l3.map fun cache => cache.setLocal now key value) k w) :
    InClient l3 k w ∨ k = key ∧ value = some w := by
  obtain ⟨cache, e, hcache, he, hw⟩ := h
  obtain ⟨cache', hcache', rfl⟩ := Option.map_eq_some_iff.mp hcache
  rcases LRUCache.lookup_set_of_some he with hold | ⟨hk, rfl, -⟩
  · exact .inl ⟨cache', e, hcache', hold, hw⟩
  · exact .inr ⟨hk, hw⟩

theorem OnServer.of_setServer
    (h : OnServer (l3.map fun cache => cache.setServer now key value ttl ok) k w) :
    OnServer l3 k w ∨ k = key ∧ value = some w := by
  obtain ⟨cache, expiry, hcache, he⟩ := h
  obtain ⟨cache', hcache', rfl⟩ := Option.map_eq_some_iff.mp hcache
  rcases RedisCacheBackend.server_set he with hold | ⟨hk, heq, -⟩
  · exact .inl ⟨cache', expiry, hcache', hold⟩
  · exact .inr ⟨hk, (Prod.mk.inj heq).1.symm⟩

/-- What a layer returns was in it. -/
theorem inMemory_of_get (h : (l1.bind fun cache => (cache.get now key).1) = some w) :
    InMemory l1 key w := by
  obtain ⟨cache, hcache, hget⟩ := Option.bind_eq_some_iff.mp h
  obtain ⟨e, he, hw⟩ := LRUCache.lookup_of_get hget
  exact ⟨cache, e, hcache, he, hw⟩

theorem onDisk_of_get (h : (l2.bind fun cache => (cache.get now key ok).1) = some w) :
    OnDisk l2 key w := by
  obtain ⟨cache, hcache, hget⟩ := Option.bind_eq_some_iff.mp h
  obtain ⟨row, hrow, hw, -⟩ := DiskCache.row_of_get hget
  exact ⟨cache, row, hcache, hrow, hw⟩

theorem inClient_of_get (h : (l3.bind fun cache => (cache.getLocal now key).1) = some w) :
    InClient l3 key w := by
  obtain ⟨cache, hcache, hget⟩ := Option.bind_eq_some_iff.mp h
  obtain ⟨e, he, hw⟩ := LRUCache.lookup_of_get hget
  exact ⟨cache, e, hcache, he, hw⟩

theorem onServer_of_get (h : (l3.bind fun cache => cache.getServer now key ok) = some w) :
    OnServer l3 key w := by
  obtain ⟨cache, hcache, hget⟩ := Option.bind_eq_some_iff.mp h
  obtain ⟨expiry, he, -⟩ := RedisCacheBackend.server_of_get hget
  exact ⟨cache, expiry, hcache, he⟩

end

namespace TieredCache

section
variable {c c' : TieredCache V} {key k : Key} {w : Stamped V} {now : ℚ} {ok : Bool} {i : ℕ}

theorem Copy.of_parts (h : Copy c' k w) (hmemory : InMemory c'.l1 k w → Copy c k w)
    (hdisk : OnDisk c'.l2 k w → Copy c k w) (hclient : InClient c'.l3 k w → Copy c k w)
    (hserver : OnServer c'.l3 k w → Copy c k w)
    (hqueue : ∀ item ∈ c'.writeQueue, item.Has k w → Copy c k w)
    (hwriter : c'.writer.Has k w → Copy c k w)
    (hcalls : ∀ call ∈ c'.calls, call.Carries k w → Copy c k w) : Copy c k w := by
  cases h with
  | memory h => exact hmemory h
  | below h =>
      cases h with
      | disk h => exact hdisk h
      | client h => exact hclient h
      | server h => exact hserver h
      | queued hitem h => exact hqueue _ hitem h
      | written h => exact hwriter h
      | carried hcall h => exact hcalls _ hcall h

section
variable (c : TieredCache V)

theorem Copy.inMemory (h : InMemory c.l1 k w) : Copy c k w := .memory h

theorem Copy.disk (h : OnDisk c.l2 k w) : Copy c k w := .below (.disk h)

theorem Copy.client (h : InClient c.l3 k w) : Copy c k w := .below (.client h)

theorem Copy.server (h : OnServer c.l3 k w) : Copy c k w := .below (.server h)

theorem Copy.queued : ∀ item ∈ c.writeQueue, item.Has k w → Copy c k w :=
  fun _ hitem h => .below (.queued hitem h)

theorem Copy.written (h : c.writer.Has k w) : Copy c k w := .below (.written h)

theorem Copy.carried : ∀ call ∈ c.calls, call.Carries k w → Copy c k w :=
  fun _ hcall h => .below (.carried hcall h)

end

/-- Of a call that goes on, only what it carries now is new. -/
theorem Copy.carried_set (c : TieredCache V) (i : ℕ) {call : Call V}
    (hcall : call.Carries k w → Copy c k w) :
    ∀ call' ∈ c.calls.set i call, call'.Carries k w → Copy c k w := by
  intro call' hmem hcarries
  rcases List.mem_or_eq_of_mem_set hmem with hold | rfl
  · exact Copy.carried c call' hold hcarries
  · exact hcall hcarries

theorem Copy.carried_new (c : TieredCache V) {call : Call V} (hcall : ¬ call.Carries k w) :
    ∀ call' ∈ c.calls ++ [call], call'.Carries k w → Copy c k w := by
  intro call' hmem hcarries
  rcases List.mem_append.mp hmem with hold | hnew
  · exact Copy.carried c call' hold hcarries
  · rw [List.mem_singleton.mp hnew] at hcarries
    exact absurd hcarries hcall

theorem copy_get (h : Copy (c.get now key) k w) : Copy c k w := by
  rw [get] at h
  have hmemory : InMemory (c.l1.map fun l1 => (l1.get now key).2) k w → Copy c k w := fun h =>
    .memory (h.of_map fun _ _ => LRUCache.lookup_get_of_some)
  cases hfound : c.l1.bind fun l1 => (l1.get now key).1 with
  | some value =>
      rw [hfound] at h
      exact h.of_parts hmemory (Copy.disk c) (Copy.client c) (Copy.server c) (Copy.queued c)
        (Copy.written c) (Copy.carried c)
  | none =>
      rw [hfound] at h
      exact h.of_parts hmemory (Copy.disk c) (Copy.client c) (Copy.server c) (Copy.queued c)
        (Copy.written c) (Copy.carried_new c id)

theorem copy_remove {target : Option Key} (h : Copy (c.remove target) k w) : Copy c k w := by
  refine h.of_parts (fun h => .memory (h.of_map fun cache e he => ?_)) (Copy.disk c)
    (Copy.client c) (Copy.server c) (Copy.queued c) (Copy.written c) (Copy.carried_new c id)
  cases target with
  | some key => exact LRUCache.lookup_delete_of_some he
  | none => cases he

theorem copy_write (hs : c.write now ok = some c') (h : Copy c' k w) : Copy c k w := by
  rw [write] at hs
  cases hwriter : c.writer with
  | idle =>
      cases hqueue : c.writeQueue with
      | nil => simp [hwriter, hqueue] at hs
      | cons item rest =>
          simp only [hwriter, hqueue, Option.some.injEq] at hs
          subst hs
          refine h.of_parts (Copy.inMemory c) (Copy.disk c) (Copy.client c) (Copy.server c) (fun item' hitem hhas => ?_)
            (fun hhas => ?_) (Copy.carried c)
          · exact Copy.queued c item' (hqueue ▸ List.mem_cons_of_mem item hitem) hhas
          · exact Copy.queued c item (hqueue ▸ List.mem_cons_self) hhas
  | writing item stage =>
      have hitem : item.Has k w → Copy c k w := by
        intro hhas
        refine Copy.written c ?_
        rw [hwriter]
        exact hhas
      have hstored : k = item.key ∧ item.value = some w → Copy c k w := fun h => hitem ⟨h.1.symm, h.2⟩
      cases stage with
      | disk =>
          simp only [hwriter, Option.some.injEq] at hs
          subst hs
          exact h.of_parts (Copy.inMemory c) (fun h => h.of_set.elim (Copy.disk c) hstored) (Copy.client c)
            (Copy.server c) (Copy.queued c) hitem (Copy.carried c)
      | client =>
          simp only [hwriter, Option.some.injEq] at hs
          subst hs
          exact h.of_parts (Copy.inMemory c) (Copy.disk c) (fun h => h.of_setLocal.elim (Copy.client c) hstored)
            (fun h => Copy.server c (OnServer.of_map (f := (·.setLocal now item.key item.value))
              (fun _ _ he => he) h)) (Copy.queued c) hitem (Copy.carried c)
      | server =>
          simp only [hwriter, Option.some.injEq] at hs
          subst hs
          refine h.of_parts (Copy.inMemory c) (Copy.disk c)
            (fun h => Copy.client c (h.of_map fun cache e he => ?_))
            (fun h => h.of_setServer.elim (Copy.server c) hstored) (Copy.queued c) (fun h => h.elim)
            (Copy.carried c)
          rwa [RedisCacheBackend.setServer_localCache] at he
      | done => simp [hwriter] at hs

/-- A layer of the cache after `delete` or `clear`. -/
theorem copy_removing {target : Option Key} {before : Key → Finset ℕ} {stage : Stage}
    (hs : c.advance now i ok (.removing target before stage) = some c') (h : Copy c' k w) :
    Copy c k w := by
  cases stage with
  | disk =>
      obtain rfl := Option.some.inj hs
      refine h.of_parts (Copy.inMemory c) (fun h => Copy.disk c (h.of_map fun cache row hrow => ?_))
        (Copy.client c) (Copy.server c) (Copy.queued c) (Copy.written c) (Copy.carried_set c i (by exact False.elim))
      cases target with
      | some key => exact DiskCache.rows_delete hrow
      | none => exact DiskCache.rows_clear hrow
  | client =>
      obtain rfl := Option.some.inj hs
      refine h.of_parts (Copy.inMemory c) (Copy.disk c)
        (fun h => Copy.client c (h.of_map fun cache e he => ?_))
        (fun h => Copy.server c (h.of_map fun cache e he => ?_)) (Copy.queued c) (Copy.written c)
        (Copy.carried_set c i (by exact False.elim))
      · cases target with
        | some key => exact LRUCache.lookup_delete_of_some he
        | none => cases he
      · cases target with
        | some key => exact he
        | none => exact he
  | server =>
      obtain rfl := Option.some.inj hs
      refine h.of_parts (Copy.inMemory c) (Copy.disk c)
        (fun h => Copy.client c (h.of_map fun cache e he => ?_))
        (fun h => Copy.server c (h.of_map fun cache e he => ?_)) (Copy.queued c) (Copy.written c)
        (Copy.carried_set c i (by exact False.elim))
      · cases target with
        | some key =>
            dsimp only at he
            rwa [RedisCacheBackend.deleteServer_localCache] at he
        | none =>
            dsimp only at he
            rwa [RedisCacheBackend.flushServer_localCache] at he
      · cases target with
        | some key => exact RedisCacheBackend.server_delete he
        | none => exact RedisCacheBackend.server_flush he
  | done =>
      obtain rfl := Option.some.inj hs
      exact h.of_parts (Copy.inMemory c) (Copy.disk c) (Copy.client c) (Copy.server c) (Copy.queued c)
        (Copy.written c) (Copy.carried_set c i (by exact False.elim))

/-- A `get` looks for the value in the next layer. -/
theorem copy_getting {began : ℚ} {stale : Finset ℕ} {stage : Stage}
    (hs : c.advance now i ok (.getting key began stale stage) = some c') (h : Copy c' k w) :
    Copy c k w := by
  cases stage with
  | disk =>
      have hdisk : OnDisk (c.l2.map fun l2 => (l2.get now key ok).2) k w → Copy c k w := fun h =>
        Copy.disk c (h.of_map fun _ _ => DiskCache.rows_get)
      cases hfound : c.l2.bind fun l2 => (l2.get now key ok).1 with
      | some value =>
          simp only [advance, hfound, Option.some.injEq] at hs
          subst hs
          refine h.of_parts (Copy.inMemory c) hdisk (Copy.client c) (Copy.server c) (Copy.queued c)
            (Copy.written c) (Copy.carried_set c i ?_)
          rintro ⟨rfl, rfl⟩
          exact Copy.disk c (onDisk_of_get hfound)
      | none =>
          simp only [advance, hfound, Option.some.injEq] at hs
          subst hs
          exact h.of_parts (Copy.inMemory c) hdisk (Copy.client c) (Copy.server c) (Copy.queued c)
            (Copy.written c) (Copy.carried_set c i (by exact False.elim))
  | client =>
      have hclient : InClient (c.l3.map fun l3 => (l3.getLocal now key).2) k w → Copy c k w := fun h =>
        Copy.client c (h.of_map fun _ _ => LRUCache.lookup_get_of_some)
      have hserver : OnServer (c.l3.map fun l3 => (l3.getLocal now key).2) k w → Copy c k w := fun h =>
        Copy.server c (OnServer.of_map (f := fun l3 => (l3.getLocal now key).2) (fun _ _ he => he) h)
      cases hfound : c.l3.bind fun l3 => (l3.getLocal now key).1 with
      | some value =>
          simp only [advance, hfound, Option.some.injEq] at hs
          subst hs
          refine h.of_parts (Copy.inMemory c) (Copy.disk c) hclient hserver (Copy.queued c)
            (Copy.written c) (Copy.carried_set c i ?_)
          rintro ⟨rfl, rfl⟩
          exact Copy.client c (inClient_of_get hfound)
      | none =>
          simp only [advance, hfound, Option.some.injEq] at hs
          subst hs
          exact h.of_parts (Copy.inMemory c) (Copy.disk c) hclient hserver (Copy.queued c)
            (Copy.written c) (Copy.carried_set c i (by exact False.elim))
  | server =>
      cases hfound : c.l3.bind fun l3 => l3.getServer now key ok with
      | some value =>
          simp only [advance, hfound, Option.some.injEq] at hs
          subst hs
          refine h.of_parts (Copy.inMemory c) (Copy.disk c) (Copy.client c) (Copy.server c)
            (Copy.queued c) (Copy.written c) (Copy.carried_set c i ?_)
          rintro ⟨rfl, rfl⟩
          exact Copy.server c (onServer_of_get hfound)
      | none =>
          simp only [advance, hfound, Option.some.injEq] at hs
          subst hs
          exact h.of_parts (Copy.inMemory c) (Copy.disk c) (Copy.client c) (Copy.server c)
            (Copy.queued c) (Copy.written c) (Copy.carried_set c i (by exact False.elim))
  | done => cases hs

/-- A `get` stores what it carries in the layers above. -/
theorem copy_filling {began : ℚ} {stale : Finset ℕ} {value : Stamped V} {source : Stage}
    (hcall : Call.filling key began stale value source ∈ c.calls)
    (hs : c.advance now i ok (.filling key began stale value source) = some c') (h : Copy c' k w) :
    Copy c k w := by
  have hcarried : k = key ∧ some value = some w → Copy c k w := by
    rintro ⟨rfl, hvalue⟩
    exact Copy.carried c _ hcall ⟨rfl, Option.some.inj hvalue⟩
  have hmemory : InMemory (c.l1.map fun l1 => (l1.set now key (some value) none).1) k w →
      Copy c k w := fun h => h.of_set.elim (fun h => Copy.inMemory c h.1) hcarried
  have hclient : InClient (if source = .server then
      c.l3.map fun l3 => l3.setLocal now key (some value) else c.l3) k w → Copy c k w := by
    split_ifs
    · exact fun h => h.of_setLocal.elim (Copy.client c) hcarried
    · exact Copy.client c
  have hserver : OnServer (if source = .server then
      c.l3.map fun l3 => l3.setLocal now key (some value) else c.l3) k w → Copy c k w := by
    split_ifs
    · exact fun h => Copy.server c (OnServer.of_map (f := (·.setLocal now key (some value)))
        (fun _ _ he => he) h)
    · exact Copy.server c
  have hgoes : Call.Carries (.refilling key began stale value) k w → Copy c k w := by
    rintro ⟨rfl, rfl⟩
    exact hcarried ⟨rfl, rfl⟩
  simp only [advance] at hs
  generalize (if source = .server then c.l3.map fun l3 => l3.setLocal now key (some value)
    else c.l3) = l3 at hs hclient hserver
  split_ifs at hs
  · obtain rfl := Option.some.inj hs
    exact h.of_parts hmemory (Copy.disk c) hclient hserver (Copy.queued c) (Copy.written c)
      (Copy.carried_set c i (by exact False.elim))
  · obtain rfl := Option.some.inj hs
    exact h.of_parts hmemory (Copy.disk c) hclient hserver (Copy.queued c) (Copy.written c)
      (Copy.carried_set c i hgoes)
  · obtain rfl := Option.some.inj hs
    exact h.of_parts hmemory (Copy.disk c) hclient hserver (Copy.queued c) (Copy.written c)
      (Copy.carried_set c i (by exact False.elim))

theorem copy_advance {call : Call V} (hcall : c.calls[i]? = some call)
    (hs : c.advance now i ok call = some c') (h : Copy c' k w) : Copy c k w := by
  cases call with
  | getting key began stale stage => exact copy_getting hs h
  | filling key began stale value source => exact copy_filling (List.mem_of_getElem? hcall) hs h
  | refilling key began stale value =>
      obtain rfl := Option.some.inj hs
      have hcarried : k = key ∧ some value = some w → Copy c k w := by
        rintro ⟨rfl, hvalue⟩
        exact Copy.carried c _ (List.mem_of_getElem? hcall) ⟨rfl, Option.some.inj hvalue⟩
      exact h.of_parts (Copy.inMemory c) (fun h => h.of_set.elim (Copy.disk c) hcarried)
        (Copy.client c) (Copy.server c) (Copy.queued c) (Copy.written c)
        (Copy.carried_set c i (by exact False.elim))
  | removing target before stage => exact copy_removing hs h
  | returned => cases hs

theorem copy_cleanup (h : Copy { c with l2 := c.l2.map fun l2 => l2.cleanupExpired now ok } k w) :
    Copy c k w :=
  h.of_parts (Copy.inMemory c) (fun h => Copy.disk c (h.of_map fun _ _ => DiskCache.rows_cleanupExpired))
    (Copy.client c) (Copy.server c) (Copy.queued c) (Copy.written c) (Copy.carried c)

theorem copy_restart (h : Copy c.restart k w) : Copy c k w := by
  refine h.of_parts (fun h => ?_) (Copy.disk c) (fun h => ?_) (fun h => ?_) (fun item hitem => ?_)
    (fun h => h.elim) (fun call hcall => ?_)
  · obtain ⟨cache, e, hcache, he, -⟩ := h
    replace hcache : newL1 c.config = some cache := hcache
    rw [newL1] at hcache
    split_ifs at hcache
    obtain rfl := Option.some.inj hcache
    cases he
  · obtain ⟨cache, e, hcache, he, -⟩ := h
    obtain ⟨cache', -, rfl⟩ := Option.map_eq_some_iff.mp hcache
    cases he
  · obtain ⟨cache, expiry, hcache, he⟩ := h
    obtain ⟨cache', hcache', rfl⟩ := Option.map_eq_some_iff.mp hcache
    exact Copy.server c ⟨cache', expiry, hcache', he⟩
  · exact absurd hitem List.not_mem_nil
  · exact absurd hcall List.not_mem_nil

/-- `set` makes copies of its own value only, and replaces the one in memory. -/
theorem copy_set {value : Option V} {ttl : Option ℚ} {persist : Bool}
    (h : Copy (c.set now key value ttl persist) k w) :
    k = key ∧ w.call = c.nextCall ∨ Below c k w ∨ k ≠ key ∧ Copy c k w := by
  have hnew : k = key ∧ (value.map fun value => (⟨value, c.nextCall,
      (ttl.filter fun ttl => 0 < ttl).map fun ttl => now + ttl⟩ : Stamped V)) = some w →
      k = key ∧ w.call = c.nextCall := by
    rintro ⟨rfl, hstored⟩
    obtain ⟨value, -, rfl⟩ := Option.map_eq_some_iff.mp hstored
    exact ⟨rfl, rfl⟩
  cases h with
  | memory h =>
      rcases InMemory.of_set h with ⟨hold, hne⟩ | hstored
      · exact .inr (.inr ⟨hne, .memory hold⟩)
      · exact .inl (hnew hstored)
  | below h =>
      cases h with
      | disk h => exact .inr (.inl (.disk h))
      | client h => exact .inr (.inl (.client h))
      | server h => exact .inr (.inl (.server h))
      | @queued item hitem h =>
          replace hitem : item ∈ if persist && (c.l2.isSome || c.l3.isSome) then
            c.writeQueue ++ [⟨key, _, ttl⟩] else c.writeQueue := hitem
          split_ifs at hitem
          · rcases List.mem_append.mp hitem with hold | hlast
            · exact .inr (.inl (.queued hold h))
            · rw [List.mem_singleton.mp hlast] at h
              exact .inl (hnew ⟨h.1.symm, h.2⟩)
          · exact .inr (.inl (.queued hitem h))
      | written h => exact .inr (.inl (.written h))
      | carried hcall h => exact .inr (.inl (.carried hcall h))

end

/-- No `get` has returned a value that was replaced or removed before it began. -/
def NoneResurrected (c : TieredCache V) : Prop := ∀ a ∈ c.answers, a.value.call ∉ a.stale

/-- When a `set`, `delete` or `clear` returns, no copy is left of a value that was set for
the key before: for a `set`, no copy below the memory layer. -/
def Settles (c : TieredCache V) (event : ℚ × Action V) : Prop :=
  match event.2 with
  | .set key _ _ _ => ∀ w, Below c key w → w.call ∉ c.returnedSets key
  | .advance i _ =>
      match c.calls[i]? with
      | some (.removing _ before .done) => ∀ key w, Copy c key w → w.call ∉ before key
      | _ => True
  | _ => True

/-- What a call in flight knows about the past is true. -/
def Fits (c : TieredCache V) : Call V → Prop
  | .getting key _ stale _ => stale ⊆ c.stale key
  | .filling key _ stale _ _ => stale ⊆ c.stale key
  | .refilling key _ stale _ => stale ⊆ c.stale key
  | .removing _ before _ => ∀ key, ∀ n ∈ before key, n < c.nextCall
  | .returned => True

structure Fresh (c : TieredCache V) : Prop where
  copies : ∀ key w, Copy c key w → w.call ∉ c.stale key ∧ w.call < c.nextCall
  stale : ∀ key, ∀ n ∈ c.stale key, n < c.nextCall
  returnedSets : ∀ key, ∀ n ∈ c.returnedSets key, n < c.nextCall
  calls : ∀ call ∈ c.calls, c.Fits call
  answers : c.NoneResurrected

section
variable {c c' : TieredCache V} {key k : Key} {w : Stamped V} {now : ℚ} {ok : Bool} {i : ℕ}
  {call : Call V}

theorem Fits.mono (h : c.Fits call) (hstale : ∀ key, c.stale key ⊆ c'.stale key)
    (hnext : c.nextCall ≤ c'.nextCall) : c'.Fits call := by
  cases call with
  | getting key began stale stage => exact Finset.Subset.trans h (hstale key)
  | filling key began stale value source => exact Finset.Subset.trans h (hstale key)
  | refilling key began stale value => exact Finset.Subset.trans h (hstale key)
  | removing target before stage => exact fun key n hn => (h key n hn).trans_le hnext
  | returned => trivial

/-- The rule for steps that set and remove nothing. -/
theorem Fresh.of_same (h : c.Fresh) (hnext : c'.nextCall = c.nextCall)
    (hreturned : c'.returnedSets = c.returnedSets) (hstale : c'.stale = c.stale)
    (hcopies : ∀ k w, Copy c' k w → Copy c k w) (hcalls : ∀ call ∈ c'.calls, c.Fits call)
    (hanswers : c'.NoneResurrected) : c'.Fresh := by
  refine ⟨fun key w hcopy => ?_, ?_, ?_, fun call hcall => ?_, hanswers⟩
  · rw [hstale, hnext]
    exact h.copies key w (hcopies key w hcopy)
  · rw [hstale, hnext]
    exact h.stale
  · rw [hreturned, hnext]
    exact h.returnedSets
  · exact (hcalls call hcall).mono (fun key => (congrFun hstale key).symm.subset) hnext.ge

theorem Fresh.get (h : c.Fresh) (now : ℚ) (key : Key) : (c.get now key).Fresh := by
  have hcopies : ∀ k w, Copy (c.get now key) k w → Copy c k w := fun _ _ => copy_get
  cases hfound : c.l1.bind fun l1 => (l1.get now key).1 with
  | some value =>
      have hget : c.get now key = ({ c with l1 := c.l1.map fun l1 => (l1.get now key).2 } :
          TieredCache V).answer ⟨key, now, c.stale key, value⟩ := by
        rw [TieredCache.get, hfound]
      rw [hget] at hcopies ⊢
      refine h.of_same rfl rfl rfl hcopies h.calls fun a ha => ?_
      rcases List.mem_append.mp ha with hold | hnew
      · exact h.answers a hold
      · rw [List.mem_singleton.mp hnew]
        exact (h.copies key value (.memory (inMemory_of_get hfound))).1
  | none =>
      have hget : c.get now key = { c with
          l1 := c.l1.map fun l1 => (l1.get now key).2
          calls := c.calls ++ [.getting key now (c.stale key) .disk] } := by
        rw [TieredCache.get, hfound]
      rw [hget] at hcopies ⊢
      refine h.of_same rfl rfl rfl hcopies (fun call hcall => ?_) h.answers
      rcases List.mem_append.mp hcall with hold | hnew
      · exact h.calls call hold
      · rw [List.mem_singleton.mp hnew]
        exact Finset.Subset.refl _

theorem Fresh.remove (h : c.Fresh) (target : Option Key) : (c.remove target).Fresh := by
  refine h.of_same rfl rfl rfl (fun _ _ => copy_remove) (fun call hcall => ?_) h.answers
  rcases List.mem_append.mp hcall with hold | hnew
  · exact h.calls call hold
  · rw [List.mem_singleton.mp hnew]
    intro key n hn
    dsimp only at hn
    split_ifs at hn
    · exact h.returnedSets key n hn
    · exact absurd hn (Finset.notMem_empty n)

theorem Fresh.set (h : c.Fresh) {value : Option V} {ttl : Option ℚ} {persist : Bool}
    (hsettles : ∀ w, Below c key w → w.call ∉ c.returnedSets key) :
    (c.set now key value ttl persist).Fresh := by
  have hstale : ∀ k, (c.set now key value ttl persist).stale k =
      if k = key then c.stale key ∪ c.returnedSets key else c.stale k := by
    intro k
    exact Function.update_apply c.stale key _ k
  have hreturned : ∀ k, (c.set now key value ttl persist).returnedSets k =
      if k = key then insert c.nextCall (c.returnedSets key) else c.returnedSets k := by
    intro k
    exact Function.update_apply c.returnedSets key _ k
  have hnext : (c.set now key value ttl persist).nextCall = c.nextCall + 1 := rfl
  refine ⟨fun k w hcopy => ?_, fun k n hn => ?_, fun k n hn => ?_, fun call hcall => ?_, h.answers⟩
  · rw [hstale, hnext]
    rcases copy_set hcopy with ⟨rfl, hnew⟩ | hbelow | ⟨hne, hold⟩
    · rw [if_pos rfl, hnew, Finset.mem_union]
      refine ⟨?_, Nat.lt_succ_self _⟩
      rintro (hmem | hmem)
      · exact lt_irrefl _ (h.stale _ _ hmem)
      · exact lt_irrefl _ (h.returnedSets _ _ hmem)
    · obtain ⟨hfresh, hlt⟩ := h.copies k w (.below hbelow)
      refine ⟨?_, Nat.lt_succ_of_lt hlt⟩
      split_ifs with hk
      · subst hk
        rw [Finset.mem_union]
        exact not_or_intro hfresh (hsettles w hbelow)
      · exact hfresh
    · obtain ⟨hfresh, hlt⟩ := h.copies k w hold
      rw [if_neg hne]
      exact ⟨hfresh, Nat.lt_succ_of_lt hlt⟩
  · rw [hstale] at hn
    rw [hnext]
    refine Nat.lt_succ_of_lt ?_
    split_ifs at hn
    · rcases Finset.mem_union.mp hn with hn | hn
      · exact h.stale _ n hn
      · exact h.returnedSets _ n hn
    · exact h.stale k n hn
  · rw [hreturned] at hn
    rw [hnext]
    split_ifs at hn
    · rcases Finset.mem_insert.mp hn with rfl | hn
      · exact Nat.lt_succ_self _
      · exact Nat.lt_succ_of_lt (h.returnedSets _ n hn)
    · exact Nat.lt_succ_of_lt (h.returnedSets k n hn)
  · have hgrown : ∀ k, c.stale k ⊆ (c.set now key value ttl persist).stale k := by
      intro k
      rw [hstale]
      split_ifs with hk
      · subst hk
        exact Finset.subset_union_left
      · exact Finset.Subset.refl _
    exact (h.calls call hcall).mono hgrown (Nat.le_succ _)

/-- One call goes on, and nothing else changes but the layers and the answers. -/
structure GoesOn (c c' : TieredCache V) (i : ℕ) (call : Call V) : Prop where
  nextCall : c'.nextCall = c.nextCall
  returnedSets : c'.returnedSets = c.returnedSets
  stale : c'.stale = c.stale
  calls : c'.calls = c.calls.set i call
  answers : c'.answers = c.answers

theorem Fresh.goesOn (h : c.Fresh) (hgoes : GoesOn c c' i call)
    (hcopies : ∀ k w, Copy c' k w → Copy c k w) (hfits : c.Fits call) : c'.Fresh := by
  refine h.of_same hgoes.nextCall hgoes.returnedSets hgoes.stale hcopies (fun call' hmem => ?_) ?_
  · rw [hgoes.calls] at hmem
    rcases List.mem_or_eq_of_mem_set hmem with hold | rfl
    · exact h.calls call' hold
    · exact hfits
  · intro a ha
    rw [hgoes.answers] at ha
    exact h.answers a ha

theorem Copy.of_answer {a : Answer V} (h : Copy (c.answer a) k w) : Copy c k w :=
  h.of_parts (Copy.inMemory c) (Copy.disk c) (Copy.client c) (Copy.server c) (Copy.queued c)
    (Copy.written c) (Copy.carried c)

theorem Copy.answer (h : Copy c k w) (a : Answer V) : Copy (c.answer a) k w :=
  h.of_parts (Copy.inMemory (c.answer a)) (Copy.disk (c.answer a)) (Copy.client (c.answer a))
    (Copy.server (c.answer a)) (Copy.queued (c.answer a)) (Copy.written (c.answer a))
    (Copy.carried (c.answer a))

theorem Fresh.answer (h : c.Fresh) {a : Answer V} (ha : a.value.call ∉ a.stale) :
    (c.answer a).Fresh := by
  refine ⟨fun k w hcopy => h.copies k w hcopy.of_answer, h.stale, h.returnedSets, h.calls,
    fun b hb => ?_⟩
  rcases List.mem_append.mp hb with hold | hnew
  · exact h.answers b hold
  · rw [List.mem_singleton.mp hnew]
    exact ha

theorem Fresh.advance (h : c.Fresh) (hcall : c.calls[i]? = some call)
    (hsettles : ∀ target before, call = .removing target before .done →
      ∀ key w, Copy c key w → w.call ∉ before key)
    (hs : c.advance now i ok call = some c') : c'.Fresh := by
  have hcopies : ∀ k w, Copy c' k w → Copy c k w := fun _ _ => copy_advance hcall hs
  have hmem := List.mem_of_getElem? hcall
  have hfits := h.calls call hmem
  cases call with
  | getting key began stale stage =>
      cases stage with
      | disk =>
          simp only [TieredCache.advance] at hs
          split at hs
          · obtain rfl := Option.some.inj hs
            exact h.goesOn ⟨rfl, rfl, rfl, rfl, rfl⟩ hcopies hfits
          · obtain rfl := Option.some.inj hs
            exact h.goesOn ⟨rfl, rfl, rfl, rfl, rfl⟩ hcopies hfits
      | client =>
          simp only [TieredCache.advance] at hs
          split at hs
          · obtain rfl := Option.some.inj hs
            exact h.goesOn ⟨rfl, rfl, rfl, rfl, rfl⟩ hcopies hfits
          · obtain rfl := Option.some.inj hs
            exact h.goesOn ⟨rfl, rfl, rfl, rfl, rfl⟩ hcopies hfits
      | server =>
          simp only [TieredCache.advance] at hs
          split at hs
          · obtain rfl := Option.some.inj hs
            exact h.goesOn ⟨rfl, rfl, rfl, rfl, rfl⟩ hcopies hfits
          · obtain rfl := Option.some.inj hs
            exact h.goesOn ⟨rfl, rfl, rfl, rfl, rfl⟩ hcopies trivial
      | done => cases hs
  | filling key began stale value source =>
      have hgood : value.call ∉ stale := fun hin =>
        (h.copies key value (Copy.carried c _ hmem ⟨rfl, rfl⟩)).1 (hfits hin)
      simp only [TieredCache.advance] at hs
      generalize (if source = .server then c.l3.map fun l3 => l3.setLocal now key (some value)
        else c.l3) = l3 at hs
      split_ifs at hs
      · obtain rfl := Option.some.inj hs
        exact h.goesOn ⟨rfl, rfl, rfl, rfl, rfl⟩ hcopies trivial
      · obtain rfl := Option.some.inj hs
        exact h.goesOn ⟨rfl, rfl, rfl, rfl, rfl⟩ hcopies hfits
      · obtain rfl := Option.some.inj hs
        refine Fresh.answer ?_ hgood
        exact h.goesOn ⟨rfl, rfl, rfl, rfl, rfl⟩ (fun k w hcopy => hcopies k w (hcopy.answer _)) trivial
  | refilling key began stale value =>
      have hgood : value.call ∉ stale := fun hin =>
        (h.copies key value (Copy.carried c _ hmem ⟨rfl, rfl⟩)).1 (hfits hin)
      obtain rfl := Option.some.inj hs
      refine Fresh.answer ?_ hgood
      exact h.goesOn ⟨rfl, rfl, rfl, rfl, rfl⟩ (fun k w hcopy => hcopies k w (hcopy.answer _)) trivial
  | removing target before stage =>
      cases stage with
      | disk =>
          obtain rfl := Option.some.inj hs
          exact h.goesOn ⟨rfl, rfl, rfl, rfl, rfl⟩ hcopies hfits
      | client =>
          obtain rfl := Option.some.inj hs
          exact h.goesOn ⟨rfl, rfl, rfl, rfl, rfl⟩ hcopies hfits
      | server =>
          obtain rfl := Option.some.inj hs
          exact h.goesOn ⟨rfl, rfl, rfl, rfl, rfl⟩ hcopies hfits
      | done =>
          obtain rfl := Option.some.inj hs
          refine ⟨fun k w hcopy => ?_, fun k n hn => ?_, h.returnedSets, fun call hcall' => ?_, h.answers⟩
          · obtain ⟨hfresh, hlt⟩ := h.copies k w (hcopies k w hcopy)
            refine ⟨fun hin => ?_, hlt⟩
            rcases Finset.mem_union.mp hin with hin | hin
            · exact hfresh hin
            · exact hsettles target before rfl k w (hcopies k w hcopy) hin
          · rcases Finset.mem_union.mp hn with hn | hn
            · exact h.stale k n hn
            · exact hfits k n hn
          · have hold : c.Fits call := by
              rcases List.mem_or_eq_of_mem_set hcall' with hold | rfl
              · exact h.calls call hold
              · trivial
            exact hold.mono (fun k => Finset.subset_union_left) le_rfl
  | returned => cases hs

theorem Fresh.write (h : c.Fresh) (hs : c.write now ok = some c') : c'.Fresh := by
  have hcopies : ∀ k w, Copy c' k w → Copy c k w := fun _ _ => copy_write hs
  rw [TieredCache.write] at hs
  split at hs
  · split at hs
    · cases hs
    · obtain rfl := Option.some.inj hs
      exact h.of_same rfl rfl rfl hcopies h.calls h.answers
  · obtain rfl := Option.some.inj hs
    exact h.of_same rfl rfl rfl hcopies h.calls h.answers
  · obtain rfl := Option.some.inj hs
    exact h.of_same rfl rfl rfl hcopies h.calls h.answers
  · obtain rfl := Option.some.inj hs
    exact h.of_same rfl rfl rfl hcopies h.calls h.answers
  · cases hs

theorem Fresh.perform (h : c.Fresh) {a : Action V} (hsettles : c.Settles (now, a))
    (hs : c.perform now a = some c') : c'.Fresh := by
  cases a with
  | get key => exact Option.some.inj hs ▸ h.get now key
  | set key value ttl persist => exact Option.some.inj hs ▸ h.set hsettles
  | remove target => exact Option.some.inj hs ▸ h.remove target
  | advance i ok =>
      obtain ⟨call, hcall, hs⟩ := Option.bind_eq_some_iff.mp hs
      refine h.advance hcall (fun target before he => ?_) hs
      subst he
      simpa only [Settles, hcall] using hsettles
  | write ok => exact h.write hs
  | cleanup ok =>
      obtain rfl := Option.some.inj hs
      exact h.of_same rfl rfl rfl (fun _ _ => copy_cleanup) h.calls h.answers
  | restart =>
      obtain rfl := Option.some.inj hs
      exact h.of_same rfl rfl rfl (fun _ _ => copy_restart) (fun call hcall => absurd hcall
        List.not_mem_nil) h.answers

theorem Fresh.step (h : c.Fresh) {event : ℚ × Action V} (hsettles : c.Settles event)
    (hs : c.step event = some c') : c'.Fresh := by
  rw [TieredCache.step] at hs
  split_ifs at hs
  obtain ⟨d, hd, rfl⟩ := Option.map_eq_some_iff.mp hs
  have hfresh : d.Fresh := h.perform hsettles hd
  refine hfresh.of_same rfl rfl rfl (fun k w hcopy => ?_) hfresh.calls hfresh.answers
  exact hcopy.of_parts (Copy.inMemory d) (Copy.disk d) (Copy.client d) (Copy.server d) (Copy.queued d)
    (Copy.written d) (Copy.carried d)

theorem fresh_new (config : CacheConfig) : (new config : TieredCache V).Fresh := by
  refine ⟨fun key w hcopy => ?_, fun key n hn => absurd hn (Finset.notMem_empty n),
    fun key n hn => absurd hn (Finset.notMem_empty n), fun call hcall => absurd hcall List.not_mem_nil,
    fun a ha => absurd ha List.not_mem_nil⟩
  exfalso
  cases hcopy with
  | memory h =>
      obtain ⟨cache, e, hcache, he, -⟩ := h
      replace hcache : newL1 config = some cache := hcache
      rw [newL1] at hcache
      split_ifs at hcache
      obtain rfl := Option.some.inj hcache
      cases he
  | below h =>
      cases h with
      | disk h =>
          obtain ⟨cache, row, hcache, hrow, -⟩ := h
          replace hcache : (if config.enableL2 then some (DiskCache.new config.l2DefaultTtl) else none) =
            some cache := hcache
          split_ifs at hcache
          obtain rfl := Option.some.inj hcache
          cases hrow
      | client h =>
          obtain ⟨cache, e, hcache, he, -⟩ := h
          replace hcache : newL3 config = some cache := hcache
          rw [newL3] at hcache
          split_ifs at hcache
          obtain rfl := Option.some.inj hcache
          cases he
      | server h =>
          obtain ⟨cache, expiry, hcache, he⟩ := h
          replace hcache : newL3 config = some cache := hcache
          rw [newL3] at hcache
          split_ifs at hcache
          obtain rfl := Option.some.inj hcache
          cases he
      | queued hitem => exact absurd hitem List.not_mem_nil
      | written h => exact h
      | carried hcall => exact absurd hcall List.not_mem_nil

end

def item : Key := ['k']

/-- A value is set, written to the disk and read. -/
def setAndRead : List (ℚ × Action ℕ) :=
  [(0, .set item (some 1) (some 60) true), (1, .write true), (1, .write true), (1, .write true),
    (1, .write true), (2, .get item)]

/-- A value is set and deleted before the worker writes it to the disk. -/
def deletedBeforeWritten : List (ℚ × Action ℕ) :=
  [(0, .set item (some 1) none true), (1, .remove (some item)), (1, .advance 0 true),
    (1, .advance 0 true), (1, .advance 0 true), (1, .advance 0 true), (2, .write true),
    (2, .write true), (3, .get item), (3, .advance 1 true), (3, .advance 1 true)]

end TieredCache

end SmartMedia.Cache.Tiered
