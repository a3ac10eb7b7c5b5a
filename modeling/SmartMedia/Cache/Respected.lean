import SmartMedia.Cache.GetOrSet

/-!
# Does `get_or_set` respect an invalidation?

A factory's value is stored whatever has happened to the key meanwhile, under the version
that the namespace has by then. No stale value can be found, and no later `set` is lost,
exactly in the runs whose stores come undisturbed.
-/
namespace SmartMedia.Cache.Concurrent
open PartialRun CacheManager

variable {V : Type}

section Room
variable {c : LRUCache (Made V)} {now : ℚ} {key : Key} {value : Option (Made V)} {ttl : Option ℚ}

theorem set_done_iff : (c.set now key value ttl).2 = none ↔ System.HasRoom c key := by
  constructor
  · intro hdone
    by_contra hroom
    obtain ⟨hsize, hempty⟩ := not_or.mp hroom
    rw [ne_eq, not_not] at hempty
    have hfull : ¬ ((c.cache.erase key).entries.length : ℤ) < c.maxsize := by
      rw [hempty]
      exact hsize
    have hlast : (c.cache.erase key).keys.getLast? = none := by
      change ((c.cache.erase key).entries.map Sigma.fst).getLast? = none
      rw [hempty]
      rfl
    simp only [LRUCache.set, if_neg hfull, hlast] at hdone
    cases hdone
  · rintro (hsize | hentries)
    · exact LRUCache.set_done_of_pos hsize
    · simp only [LRUCache.set]
      split_ifs
      · rfl
      · cases hlast : (c.cache.erase key).keys.getLast? with
        | none => exact absurd (LRUCache.entries_eq_nil hlast) hentries
        | some oldest => rfl

end Room

section Versions
variable {m t : CacheManager (Made V)} {n n' : CacheNamespace} {key : Key} {now : ℚ}

theorem version_update {c : NamespacedCache (Made V)} (ht : t.namespaces = Function.update m.namespaces n c)
    (hc : c.version = m.version n) : t.version n' = m.version n' := by
  rw [version, version, ht, Function.update_apply]
  split_ifs with h
  · rw [h, hc]
    rfl
  · rfl

theorem version_get : (m.get now n key).2.version n' = m.version n' :=
  version_update get_namespaces rfl

theorem version_delete : (m.delete n key).2.version n' = m.version n' :=
  version_update delete_namespaces rfl

theorem version_set {value : Option (Made V)} {ttl : Ttl} :
    (m.set now n key value ttl).1.version n' = m.version n' :=
  version_update set_namespaces rfl

/-- A cascade leaves the other namespaces as they are. -/
theorem namespaces_forCascaded
    {change : CacheManager (Made V) → ℚ → CacheNamespace → CacheManager (Made V)}
    (hchange : ∀ m now n, n' ≠ n → (change m now n).namespaces n' = m.namespaces n')
    {namespaces : List CacheNamespace} (hn : n' ∉ namespaces) (now : ℕ → ℚ) :
    (forCascaded change m now namespaces).namespaces n' = m.namespaces n' := by
  induction namespaces generalizing m now with
  | nil => rfl
  | cons first namespaces ih =>
      rw [List.mem_cons, not_or] at hn
      exact (ih hn.2 _).trans (hchange m (now 0) first hn.1)

theorem namespaces_raiseVersion (hn : n' ≠ n) :
    (m.raiseVersion now n).namespaces n' = m.namespaces n' := Function.update_of_ne hn _ _

theorem namespaces_invalidateNamespace (hn : n' ≠ n) :
    (m.invalidateNamespace now n).namespaces n' = m.namespaces n' := Function.update_of_ne hn _ _

end Versions

section Fresh
variable {m t : CacheManager (Made V)} {since : List (CacheNamespace × Key × Option (Made V))}
  {invalidated : CacheNamespace → Key → ℕ}

/-- What can be found was made by no factory that started before the last invalidation. -/
def Fresh (m : CacheManager (Made V)) (invalidated : CacheNamespace → Key → ℕ) : Prop :=
  ∀ n key e made started, m.entry n (m.keyOf n (m.version n) key) = some e → e.value = some made →
    made.origin = .factory started → invalidated n key < started

theorem noneStale_iff {s : System V} : s.NoneStale ↔ Fresh s.cacheManager s.invalidated := by
  constructor
  · intro h n key e made started he hvalue horigin
    obtain ⟨now, hget⟩ := LRUCache.exists_get he hvalue
    exact h now n key made started hget horigin
  · intro h now n key made started hget horigin
    obtain ⟨e, he, hvalue⟩ := found_of_get now hget
    exact h n key e made started he hvalue horigin

/-- Between two versions, entries that are stored have to be fresh themselves. -/
theorem Fresh.later (h : Fresh m invalidated) (hl : Later m t since)
    (hversion : ∀ n, t.version n = m.version n)
    (hsince : ∀ n key made started, (n, key, some made) ∈ since → made.origin = .factory started →
      invalidated n key < started) : Fresh t invalidated := by
  intro n key e made started he hvalue horigin
  rw [hl.keyOf, hversion] at he
  rcases hl.entries n _ e he with he | ⟨_, key', _, _, hx, hmem⟩
  · exact h n key e made started he hvalue horigin
  · obtain ⟨rfl, -⟩ := NamespacedCache.keyAt_injective hx
    rw [hvalue] at hmem
    exact hsince n key made started hmem horigin

/-- After an invalidation no value of a factory may be left under the marked keys. -/
theorem Fresh.invalidate (h : Fresh m invalidated) (hl : Later m t [])
    {marked : CacheNamespace → Key → Bool} {time : ℕ}
    (hkept : ∀ n key, marked n key = false → t.version n = m.version n)
    (hgone : ∀ n key, marked n key = true → ∀ e made started,
      t.entry n (t.keyOf n (t.version n) key) = some e → e.value = some made →
        made.origin ≠ .factory started) :
    Fresh t fun n key => if marked n key then time else invalidated n key := by
  intro n key e made started he hvalue horigin
  cases hmark : marked n key with
  | true => exact absurd horigin (hgone n key hmark e made started he hvalue)
  | false =>
      dsimp only
      rw [hmark, if_neg Bool.false_ne_true]
      rw [hl.keyOf, hkept n key hmark] at he
      rcases hl.entries n _ e he with he | ⟨_, _, _, _, _, hmem⟩
      · exact h n key e made started he hvalue horigin
      · cases hmem

/-- Where the namespace is expelled nothing is left. -/
theorem gone_of_expelled {n : CacheNamespace} (h : t.Expelled n) {key : Key} {e : Entry (Made V)}
    {made : Made V} {started : ℕ} (he : t.entry n (t.keyOf n (t.version n) key) = some e)
    (hvalue : e.value = some made) : made.origin ≠ .factory started :=
  absurd (hvalue.symm.trans (h _ key e le_rfl he)) nofun

/-- An entry under the key itself is gone after `delete`. -/
theorem lookup_delete_self (c : LRUCache (Made V)) (key : Key) :
    (c.delete key).2.cache.lookup key = none := by
  rw [LRUCache.delete]
  split_ifs with hmem
  · rw [LRUCache.count_cache, AList.lookup_erase]
  · exact AList.lookup_eq_none.mpr hmem

theorem entry_delete_self (m : CacheManager (Made V)) (n : CacheNamespace) (key : Key) :
    (m.delete n key).2.entry n ((m.delete n key).2.keyOf n ((m.delete n key).2.version n) key) =
      none := by
  rw [version_delete, (delete_later m n key).keyOf, entry, delete_namespaces, Function.update_self]
  exact lookup_delete_self (m.namespaces n).cache _

end Fresh

section Invalidations
variable {m : CacheManager (Made V)} {n n' : CacheNamespace} {now : ℕ → ℚ} {cascade : Bool}

theorem namespaces_incrementNamespaceVersion (hn : n' ≠ n) (hcascade : n' ∉ m.cascaded n cascade) :
    (m.incrementNamespaceVersion now n cascade).2.namespaces n' = m.namespaces n' :=
  (namespaces_forCascaded (fun _ _ _ => namespaces_raiseVersion) hcascade _).trans
    (namespaces_raiseVersion hn)

/-- The state in which the cascade of `invalidate_related` begins. -/
def primary (m : CacheManager (Made V)) (now : ℚ) (n : CacheNamespace) (key : Key) :
    CacheManager (Made V) :=
  if key ≠ [] then m.setCache n ((m.namespaces n).delete key).2 else m.invalidateNamespace now n

theorem namespaces_invalidateRelated (m : CacheManager (Made V)) (now : ℕ → ℚ) (n : CacheNamespace)
    (key : Option Key) (cascade : Bool) :
    (m.invalidateRelated now n key cascade).2.namespaces =
      (forCascaded invalidateNamespace (primary m (now 1) n (key.getD [])) (now ∘ (· + 2))
        (m.cascaded n cascade)).namespaces := by
  rw [primary, invalidateRelated]
  split_ifs
  · rfl
  · rfl

theorem namespaces_primary (hn : n' ≠ n) (key : Key) (now : ℚ) :
    (primary m now n key).namespaces n' = m.namespaces n' := by
  rw [primary]
  split_ifs
  · exact Function.update_of_ne hn _ _
  · exact namespaces_invalidateNamespace hn

theorem primary_later (key : Key) (now : ℚ) : Later m (primary m now n key) [] := by
  rw [primary]
  split_ifs
  · exact .setCache _ rfl le_rfl fun _ _ => LRUCache.lookup_delete_of_some
  · exact invalidateNamespace_later m now n

/-- Whatever is cascaded to is expelled, also when only one key is invalidated. -/
theorem expelled_cascaded (h : m.Proper) (key : Option Key) (hn : n' ∈ m.cascaded n cascade) :
    (m.invalidateRelated now n key cascade).2.Expelled n' := by
  have hexpelled : (forCascaded invalidateNamespace (primary m (now 1) n (key.getD []))
      (now ∘ (· + 2)) (m.cascaded n cascade)).Expelled n' :=
    expelled_forCascaded invalidateNamespace_later
      (fun t now n hl => (h.later hl).expelled_invalidateNamespace now n) _ hn (primary_later _ _)
  intro version key' e hversion he
  have hsame := congrFun (namespaces_invalidateRelated m now n key cascade) n'
  rw [CacheManager.version, hsame] at hversion
  rw [entry, keyOf, hsame] at he
  exact hexpelled version key' e hversion he

variable {invalidated : CacheNamespace → Key → ℕ} {time : ℕ}

theorem Fresh.delete (h : Fresh m invalidated) (key : Key) :
    Fresh (m.delete n key).2 fun n' key' =>
      if decide (n' = n ∧ key' = key) then time else invalidated n' key' := by
  apply h.invalidate (delete_later m n key)
  · exact fun _ _ _ => version_delete
  · intro n' key' hmark e made started he _
    obtain ⟨rfl, rfl⟩ := of_decide_eq_true hmark
    rw [entry_delete_self] at he
    cases he

theorem Fresh.clearNamespace (h : Fresh m invalidated) :
    Fresh (m.clearNamespace n) fun n' key' =>
      if decide (n' = n) then time else invalidated n' key' := by
  apply h.invalidate (clearNamespace_later m n)
  · exact fun _ _ _ => version_update rfl rfl
  · intro n' key' hmark e made started he hvalue
    obtain rfl := of_decide_eq_true hmark
    exact gone_of_expelled (expelled_clearNamespace m n') he hvalue

theorem Fresh.invalidateRelated (h : Fresh m invalidated) (hp : m.Proper) (key : Option Key) :
    Fresh (m.invalidateRelated now n key cascade).2 fun n' key' =>
      if decide ((n' = n ∧ (key.getD [] = [] ∨ key' = key.getD [])) ∨ n' ∈ m.cascaded n cascade)
        then time else invalidated n' key' := by
  have hsame : ∀ n', n' ∉ m.cascaded n cascade → (m.invalidateRelated now n key cascade).2.namespaces n' =
      (primary m (now 1) n (key.getD [])).namespaces n' := by
    intro n' hcascade
    rw [namespaces_invalidateRelated]
    exact namespaces_forCascaded (fun _ _ _ => namespaces_invalidateNamespace) hcascade _
  have hdelete : key.getD [] ≠ [] → (primary m (now 1) n (key.getD [])).namespaces =
      (m.delete n (key.getD [])).2.namespaces := by
    intro hkey
    rw [primary, if_pos hkey]
    rfl
  apply h.invalidate (invalidateRelated_later m now n key cascade)
  · intro n' key' hmark
    have hunmarked := of_decide_eq_false hmark
    rw [not_or] at hunmarked
    rw [CacheManager.version, hsame n' hunmarked.2]
    by_cases hn : n' = n
    · subst hn
      have hkey : key.getD [] ≠ [] := fun hnil => hunmarked.1 ⟨rfl, .inl hnil⟩
      rw [hdelete hkey]
      exact version_delete
    · rw [namespaces_primary hn]
      rfl
  · intro n' key' hmark e made started he hvalue
    by_cases hcascade : n' ∈ m.cascaded n cascade
    · exact gone_of_expelled (expelled_cascaded hp key hcascade) he hvalue
    · rcases of_decide_eq_true hmark with ⟨rfl, hkey⟩ | hmem
      · by_cases hnil : key.getD [] = []
        · exact gone_of_expelled (hp.expelled_invalidateRelated now hnil (.inl rfl)) he hvalue
        · obtain rfl := hkey.resolve_left hnil
          rw [entry, keyOf, CacheManager.version, hsame n' hcascade, hdelete hnil] at he
          have hnone := entry_delete_self m n' (key.getD [])
          rw [entry, keyOf, CacheManager.version] at hnone
          rw [hnone] at he
          cases he
      · exact absurd hmem hcascade

/-- Raising a version that is no part of the keys drops nothing, and may do so only where no value
of a factory is stored. -/
theorem Fresh.incrementNamespaceVersion (h : Fresh m invalidated) (hp : m.Proper)
    (hcounts : m.config.enableVersioning = true ∨ ∀ n', Affects m.config n cascade n' →
      ∀ key e made started, m.entry n' key = some e → e.value = some made →
        made.origin ≠ .factory started) :
    Fresh (m.incrementNamespaceVersion now n cascade).2 fun n' key' =>
      if decide (n' = n ∨ n' ∈ m.cascaded n cascade) then time else invalidated n' key' := by
  apply h.invalidate (incrementNamespaceVersion_later m now n cascade)
  · intro n' key' hmark
    have hunmarked := of_decide_eq_false hmark
    rw [not_or] at hunmarked
    rw [CacheManager.version, namespaces_incrementNamespaceVersion hunmarked.1 hunmarked.2]
    rfl
  · intro n' key' hmark e made started he hvalue
    have haffects : Affects m.config n cascade n' := affects_iff.mpr (of_decide_eq_true hmark)
    rcases hcounts with hv | hnone
    · exact gone_of_expelled (hp.expelled_incrementNamespaceVersion hv now haffects) he hvalue
    · rw [incrementNamespaceVersion_entry] at he
      exact hnone n' haffects _ e made started he hvalue

end Invalidations

section Sound

/-- The factory of the caller has started by the given step. -/
def Caller.StartedBy (time : ℕ) : Caller V → Prop
  | .running _ _ _ started => started ≤ time
  | .finished _ _ _ started _ => started ≤ time
  | _ => True

/-- What holds in every run. -/
structure Sound (s : System V) : Prop where
  proper : s.cacheManager.Proper
  stored : ∀ n x e made started, s.cacheManager.entry n x = some e → e.value = some made →
    made.origin = .factory started → started ≤ s.time
  callers : ∀ caller ∈ s.callers, caller.StartedBy s.time

variable {s s' u : System V} {now : ℕ → ℚ} {action : Action V}

theorem sound_new (config : CacheConfig) (start : CacheNamespace → ℚ) :
    Sound (System.new config start : System V) where
  proper := proper_new config start
  stored _ _ _ _ _ he := nomatch he
  callers _ hmem := nomatch hmem

theorem storeValue_cacheManager (s : System V) (now : ℚ) (i : ℕ) (n : CacheNamespace) (key : Key)
    (ttl : Ttl) (started : ℕ) (value : Option V) :
    (s.storeValue now i n key ttl started value).cacheManager =
      (s.cacheManager.set now n key (value.map (⟨·, .factory started⟩)) ttl).1 := by
  rw [System.storeValue]
  cases s.cacheManager.set now n key (value.map (⟨·, .factory started⟩)) ttl with
  | mk m error =>
      cases error with
      | none => rfl
      | some error => rfl

theorem storeValue_frame (s : System V) (now : ℚ) (i : ℕ) (n : CacheNamespace) (key : Key)
    (ttl : Ttl) (started : ℕ) (value : Option V) :
    (s.storeValue now i n key ttl started value).invalidated = s.invalidated ∧
      ∃ result, (s.storeValue now i n key ttl started value).callers =
        s.callers.set i (.returned result) := by
  rw [System.storeValue]
  cases s.cacheManager.set now n key (value.map (⟨·, .factory started⟩)) ttl with
  | mk m error =>
      cases error with
      | none => exact ⟨rfl, _, rfl⟩
      | some error => exact ⟨rfl, _, rfl⟩

theorem storeValue_overwritten (s : System V) (now : ℚ) (i : ℕ) (n : CacheNamespace) (key : Key)
    (ttl : Ttl) (started : ℕ) (value : Option V) :
    (s.storeValue now i n key ttl started value).overwritten =
      if (s.cacheManager.set now n key (value.map (⟨·, .factory started⟩)) ttl).2 = none ∧
        s.setSince n key started = true then s.overwritten ++ [(n, key)] else s.overwritten := by
  rw [System.storeValue]
  cases s.cacheManager.set now n key (value.map (⟨·, .factory started⟩)) ttl with
  | mk m error =>
      cases error with
      | none => simp
      | some error => rfl

/-- `set` by another caller. -/
theorem act_set {n : CacheNamespace} {key : Key} {value : Option V} {ttl : Ttl}
    (h : s.act now (.set n key value ttl) = some u) :
    u.cacheManager = (s.cacheManager.set (now 0) n key (value.map (⟨·, .set⟩)) ttl).1 ∧
      u.invalidated = s.invalidated ∧ u.callers = s.callers ∧ u.overwritten = s.overwritten := by
  rw [System.act] at h
  cases hset : s.cacheManager.set (now 0) n key (value.map (⟨·, .set⟩)) ttl with
  | mk m error =>
      rw [hset] at h
      cases error with
      | none =>
          obtain rfl := Option.some.inj h
          exact ⟨rfl, rfl, rfl, rfl⟩
      | some error =>
          obtain rfl := Option.some.inj h
          exact ⟨rfl, rfl, rfl, rfl⟩

theorem set_leads (m : CacheManager (Made V)) (now : ℚ) (n : CacheNamespace) (key : Key)
    (value : Option V) (origin : Origin) (ttl : Ttl) :
    ∃ since, Later m (m.set now n key (value.map (⟨·, origin⟩)) ttl).1 since ∧
      ∀ n' key' made, (n', key', some made) ∈ since →
        n' = n ∧ key' = key ∧ made.origin = origin ∧ value.isSome = true ∧
          (m.set now n key (value.map (⟨·, origin⟩)) ttl).2 = none := by
  refine ⟨_, set_later m now n key (value.map (⟨·, origin⟩)) ttl, ?_⟩
  intro n' key' made hmem
  split_ifs at hmem with hdone
  · obtain ⟨rfl, hrest⟩ := Prod.mk.inj (List.mem_singleton.mp hmem)
    obtain ⟨rfl, hvalue⟩ := Prod.mk.inj hrest
    obtain ⟨v, rfl, rfl⟩ := Option.map_eq_some_iff.mp hvalue.symm
    exact ⟨rfl, rfl, rfl, rfl, hdone⟩
  · cases hmem

/-- What an action does to the manager: a value that it stores comes from a `set` or from the
factory of a caller. -/
theorem act_later (h : s.act now action = some u) :
    ∃ since, Later s.cacheManager u.cacheManager since ∧
      ∀ n key made started, (n, key, some made) ∈ since → made.origin = .factory started →
        ∃ n key ttl value, Caller.finished n key ttl started value ∈ s.callers := by
  cases action with
  | lookup n key ttl =>
      obtain rfl := Option.some.inj h
      exact ⟨[], get_later _ _ _ _, nofun⟩
  | startFactory i =>
      rw [System.act] at h
      split at h
      · obtain rfl := Option.some.inj h
        exact ⟨[], .refl _, nofun⟩
      · cases h
  | endFactory i result =>
      rw [System.act] at h
      split at h
      · obtain rfl := Option.some.inj h
        exact ⟨[], .refl _, nofun⟩
      · cases h
  | store i =>
      rw [System.act] at h
      split at h
      · next n key ttl started value hcaller =>
          obtain rfl := Option.some.inj h
          obtain ⟨since, hl, hsince⟩ := set_leads s.cacheManager (now 0) n key value
            (.factory started) ttl
          rw [storeValue_cacheManager]
          refine ⟨since, hl, fun n' key' made started' hmem horigin => ?_⟩
          obtain ⟨-, -, hmade, -⟩ := hsince n' key' made hmem
          obtain rfl := Origin.factory.inj (hmade.symm.trans horigin)
          exact ⟨n, key, ttl, value, List.mem_of_getElem? hcaller⟩
      · cases h
  | get n key =>
      obtain rfl := Option.some.inj h
      exact ⟨[], get_later _ _ _ _, nofun⟩
  | set n key value ttl =>
      obtain ⟨since, hl, hsince⟩ := set_leads s.cacheManager (now 0) n key value .set ttl
      rw [(act_set h).1]
      refine ⟨since, hl, fun n' key' made started' hmem horigin => ?_⟩
      obtain ⟨-, -, hmade, -⟩ := hsince n' key' made hmem
      exact absurd (hmade.symm.trans horigin) nofun
  | delete n key =>
      obtain rfl := Option.some.inj h
      exact ⟨[], delete_later _ _ _, nofun⟩
  | clearNamespace n =>
      obtain rfl := Option.some.inj h
      exact ⟨[], clearNamespace_later _ _, nofun⟩
  | invalidateRelated n key cascade =>
      obtain rfl := Option.some.inj h
      exact ⟨[], invalidateRelated_later _ _ _ _ _, nofun⟩
  | incrementNamespaceVersion n cascade =>
      obtain rfl := Option.some.inj h
      exact ⟨[], incrementNamespaceVersion_later _ _ _ _, nofun⟩

theorem Caller.StartedBy.mono {caller : Caller V} {time time' : ℕ} (h : caller.StartedBy time)
    (hle : time ≤ time') : caller.StartedBy time' := by
  cases caller with
  | missed n key ttl => trivial
  | running n key ttl started => exact le_trans h hle
  | finished n key ttl started value => exact le_trans h hle
  | returned result => trivial

theorem Sound.act_callers (hs : Sound s) (h : s.act now action = some u) :
    ∀ caller ∈ u.callers, caller.StartedBy (s.time + 1) := by
  have hold : ∀ caller ∈ s.callers, caller.StartedBy (s.time + 1) := fun caller hmem =>
    (hs.callers caller hmem).mono (Nat.le_succ _)
  have hset : ∀ (i : ℕ) (new : Caller V), new.StartedBy (s.time + 1) →
      ∀ caller ∈ s.callers.set i new, caller.StartedBy (s.time + 1) := by
    intro i new hnew caller hmem
    rcases List.mem_or_eq_of_mem_set hmem with hmem | rfl
    · exact hold caller hmem
    · exact hnew
  cases action with
  | lookup n key ttl =>
      obtain rfl := Option.some.inj h
      intro caller hmem
      rcases List.mem_append.mp hmem with hmem | hmem
      · exact hold caller hmem
      · rw [List.mem_singleton.mp hmem]
        split
        · trivial
        · trivial
  | startFactory i =>
      rw [System.act] at h
      split at h
      · obtain rfl := Option.some.inj h
        exact hset i _ (Nat.le_refl _)
      · cases h
  | endFactory i result =>
      rw [System.act] at h
      split at h
      · next n key ttl started hcaller =>
          obtain rfl := Option.some.inj h
          have hstarted := hold _ (List.mem_of_getElem? hcaller)
          apply hset i
          cases result with
          | ok value => exact hstarted
          | error error => trivial
      · cases h
  | store i =>
      rw [System.act] at h
      split at h
      · next n key ttl started value hcaller =>
          obtain rfl := Option.some.inj h
          obtain ⟨-, result, hcallers⟩ := storeValue_frame s (now 0) i n key ttl started value
          rw [hcallers]
          exact hset i _ trivial
      · cases h
  | set n key value ttl =>
      rw [(act_set h).2.2.1]
      exact hold
  | _ =>
      obtain rfl := Option.some.inj h
      exact hold

theorem step_eq_some {event : (ℕ → ℚ) × Action V} : s.step event = some s' ↔
    ∃ u, s.act event.1 event.2 = some u ∧ s' = { u with time := s.time + 1 } := by
  rw [System.step, Option.map_eq_some_iff]
  exact exists_congr fun u => and_congr_right fun _ => eq_comm

theorem Sound.step {event : (ℕ → ℚ) × Action V} (hs : Sound s) (h : s.step event = some s') :
    Sound s' := by
  obtain ⟨u, hact, rfl⟩ := step_eq_some.mp h
  obtain ⟨since, hl, hsince⟩ := act_later hact
  have hcallers := hs.act_callers hact
  refine ⟨hs.proper.later hl, ?_, hcallers⟩
  intro n x e made started he hvalue horigin
  rcases hl.entries n x e he with he | ⟨_, key, _, _, _, hmem⟩
  · exact (hs.stored n x e made started he hvalue horigin).trans (Nat.le_succ _)
  · rw [hvalue] at hmem
    obtain ⟨n', key', ttl, value, hcaller⟩ := hsince n key made started hmem horigin
    exact le_trans (hs.callers _ hcaller) (Nat.le_succ _)

end Sound

section Steps
variable {s s' u : System V} {now : ℕ → ℚ} {n : CacheNamespace} {key : Key}

theorem respected_of_fresh (hr : s.Respected)
    (hfresh : Fresh s.cacheManager s.invalidated → Fresh u.cacheManager u.invalidated)
    (hlost : u.overwritten = s.overwritten) : u.Respected :=
  ⟨noneStale_iff.mpr (hfresh (noneStale_iff.mp hr.1)), hlost.trans hr.2⟩

theorem hasRoom_iff {m : CacheManager (Made V)} {now : ℚ} {value : Option (Made V)} {ttl : Ttl} :
    System.HasRoom (m.namespaces n).cache ((m.namespaces n).versionedKey key) ↔
      (m.set now n key value ttl).2 = none := by
  rw [set_error]
  exact set_done_iff.symm

/-- A `set` that does not raise leaves its entry under the current version. -/
theorem entry_set_self {m : CacheManager (Made V)} {now : ℚ} {value : Option (Made V)} {ttl : Ttl}
    (hdone : (m.set now n key value ttl).2 = none) :
    (m.set now n key value ttl).1.entry n ((m.set now n key value ttl).1.keyOf n
        ((m.set now n key value ttl).1.version n) key) =
      some ⟨value, now, some ((m.namespaces n).effectiveTtl ttl)⟩ := by
  rw [version_set, (set_later m now n key value ttl).keyOf, entry, set_namespaces,
    Function.update_self]
  rw [set_error] at hdone
  exact LRUCache.lookup_set_of_done hdone

/-- The step that matters: a value is stored some time after its factory started. -/
theorem respected_store (hr : s.Respected) (i : ℕ) (ttl : Ttl) (started : ℕ) (value : Option V)
    (now : ℚ) : (s.storeValue now i n key ttl started value).Respected ↔
      (System.HasRoom (s.cacheManager.namespaces n).cache
          ((s.cacheManager.namespaces n).versionedKey key) →
        (value.isSome = true → s.invalidated n key < started) ∧
          s.setSince n key started = false) := by
  have hinvalidated := (storeValue_frame s now i n key ttl started value).1
  have hlost := storeValue_overwritten s now i n key ttl started value
  set m := s.cacheManager with hm
  set stored : Option (Made V) := value.map (⟨·, .factory started⟩) with hstored
  constructor
  · rintro ⟨hstale, hnone⟩ hroom
    have hdone : (m.set now n key stored ttl).2 = none := hasRoom_iff.mp hroom
    constructor
    · intro hvalue
      obtain ⟨v, rfl⟩ := Option.isSome_iff_exists.mp hvalue
      have hfresh := noneStale_iff.mp hstale
      rw [storeValue_cacheManager, hinvalidated] at hfresh
      exact hfresh n key _ _ started (entry_set_self hdone) rfl rfl
    · by_contra hsince
      rw [Bool.not_eq_false] at hsince
      rw [hnone, if_pos ⟨hdone, hsince⟩] at hlost
      exact absurd hlost.symm (List.append_ne_nil_of_right_ne_nil _ (List.cons_ne_nil _ _))
  · intro hclean
    apply respected_of_fresh hr
    · intro hfresh
      obtain ⟨since, hl, hsince⟩ := set_leads m now n key value (.factory started) ttl
      rw [storeValue_cacheManager, hinvalidated]
      apply hfresh.later hl fun _ => version_set
      intro n' key' made started' hmem horigin
      obtain ⟨rfl, rfl, hmade, hvalue, hdone⟩ := hsince n' key' made hmem
      obtain rfl := Origin.factory.inj (hmade.symm.trans horigin)
      exact (hclean (hasRoom_iff.mpr hdone)).1 hvalue
    · rw [hlost, if_neg]
      rintro ⟨hdone, hset⟩
      rw [(hclean (hasRoom_iff.mpr hdone)).2] at hset
      exact absurd hset Bool.false_ne_true

/-- A version that is raised without effect leaves stale values exactly where there are values of
factories. -/
theorem respected_increment (hs : Sound s) (hr : s.Respected) (cascade : Bool)
    (h : s.act now (.incrementNamespaceVersion n cascade) = some u) :
    u.Respected ↔ s.Undisturbed (now, .incrementNamespaceVersion n cascade) := by
  obtain rfl := Option.some.inj h
  constructor
  · rintro ⟨hstale, -⟩
    by_cases hv : s.cacheManager.config.enableVersioning = true
    · exact .inl hv
    · refine .inr fun n' haffects x e made started he hvalue horigin => ?_
      set t := (s.cacheManager.incrementNamespaceVersion now n cascade).2 with ht
      have hl : Later s.cacheManager t [] := incrementNamespaceVersion_later _ _ _ _
      have hplain : ∀ version, t.keyOf n' version x = x := by
        intro version
        rw [hl.keyOf, keyOf, hs.proper.uniform n', Bool.not_eq_true _ |>.mp hv]
        rfl
      have hentry : t.entry n' (t.keyOf n' (t.version n') x) = some e := by
        rw [hplain, incrementNamespaceVersion_entry]
        exact he
      have hmark : s.marks (.incrementNamespaceVersion n cascade) n' x = true :=
        decide_eq_true (affects_iff.mp haffects)
      have hlate := noneStale_iff.mp hstale n' x e made started hentry hvalue horigin
      change (if s.marks (.incrementNamespaceVersion n cascade) n' x then s.time + 1 else _) < _ at hlate
      rw [if_pos hmark] at hlate
      have hearly := hs.stored n' x e made started he hvalue horigin
      omega
  · intro hcounts
    apply respected_of_fresh hr
    · exact fun hfresh => hfresh.incrementNamespaceVersion hs.proper hcounts
    · rfl

/-- A step keeps what the callers rely on exactly if it is undisturbed. -/
theorem respected_step {event : (ℕ → ℚ) × Action V} (hs : Sound s) (hr : s.Respected)
    (h : s.step event = some s') : s'.Respected ↔ s.Undisturbed event := by
  obtain ⟨u, hact, rfl⟩ := step_eq_some.mp h
  change u.Respected ↔ _
  obtain ⟨now, action⟩ := event
  cases action with
  | lookup n key ttl =>
      obtain rfl := Option.some.inj hact
      refine iff_of_true (respected_of_fresh hr (fun hfresh => ?_) rfl) trivial
      exact hfresh.later (get_later _ _ _ _) (fun _ => version_get) nofun
  | startFactory i =>
      simp only [System.act] at hact
      split at hact
      · obtain rfl := Option.some.inj hact
        exact iff_of_true hr trivial
      · cases hact
  | endFactory i result =>
      simp only [System.act] at hact
      split at hact
      · obtain rfl := Option.some.inj hact
        exact iff_of_true hr trivial
      · cases hact
  | store i =>
      simp only [System.act] at hact
      split at hact
      · next n key ttl started value hcaller =>
          obtain rfl := Option.some.inj hact
          simp only [System.Undisturbed, hcaller]
          exact respected_store hr i ttl started value (now 0)
      · cases hact
  | get n key =>
      obtain rfl := Option.some.inj hact
      refine iff_of_true (respected_of_fresh hr (fun hfresh => ?_) rfl) trivial
      exact hfresh.later (get_later _ _ _ _) (fun _ => version_get) nofun
  | set n key value ttl =>
      obtain ⟨hmanager, hinvalidated, -, hlost⟩ := act_set hact
      refine iff_of_true (respected_of_fresh hr (fun hfresh => ?_) hlost) trivial
      obtain ⟨since, hl, hsince⟩ := set_leads s.cacheManager (now 0) n key value .set ttl
      rw [hmanager, hinvalidated]
      apply hfresh.later hl fun _ => version_set
      intro n' key' made started hmem horigin
      obtain ⟨-, -, hmade, -, -⟩ := hsince n' key' made hmem
      exact absurd (hmade.symm.trans horigin) nofun
  | delete n key =>
      obtain rfl := Option.some.inj hact
      exact iff_of_true (respected_of_fresh hr (fun hfresh => hfresh.delete key) rfl) trivial
  | clearNamespace n =>
      obtain rfl := Option.some.inj hact
      exact iff_of_true (respected_of_fresh hr (fun hfresh => hfresh.clearNamespace) rfl) trivial
  | invalidateRelated n key cascade =>
      obtain rfl := Option.some.inj hact
      refine iff_of_true (respected_of_fresh hr (fun hfresh => ?_) rfl) trivial
      exact hfresh.invalidateRelated hs.proper key
  | incrementNamespaceVersion n cascade => exact respected_increment hs hr cascade hact

end Steps

section Runs
variable (config : CacheConfig) (start : CacheNamespace → ℚ)

theorem respected_new : (System.new config start : System V).Respected :=
  ⟨noneStale_iff.mpr nofun, rfl⟩

/-- In a run no stale value can ever be found and no later `set` is lost, exactly if all its stores
and version changes are undisturbed. -/
theorem respected_iff_undisturbed {events : List ((ℕ → ℚ) × Action V)} {t : System V}
    (hrun : exec System.step (System.new config start) events = some t) :
    Throughout System.step System.Respected (System.new config start) events ↔
      Along System.step System.Undisturbed (System.new config start) events := by
  have hboth : Throughout System.step (fun s : System V => Sound s ∧ s.Respected)
      (System.new config start) events ↔
        Along System.step System.Undisturbed (System.new config start) events := by
    refine throughout_iff_along (fun s event s' hs hstep => ?_)
      ⟨sound_new config start, respected_new config start⟩ hrun
    rw [and_iff_right (hs.1.step hstep)]
    exact respected_step hs.1 hs.2 hstep
  rw [← hboth]
  constructor
  · intro h pre hpre u hu
    have hsound : Sound u := invariant_of_step (fun s event s' hs hstep => Sound.step hs hstep)
      (sound_new config start) hu
    exact ⟨hsound, h pre hpre u hu⟩
  · exact fun h pre hpre u hu => (h pre hpre u hu).2

end Runs

/-- A call of `get_or_set`, with something else while the factory runs. -/
def callWith (between : List (Action ℕ)) : List ((ℕ → ℚ) × Action ℕ) :=
  let begun : List (Action ℕ) := [.lookup .link ['k'] .useDefault, .startFactory 0]
  let ended : List (Action ℕ) := [.endFactory 0 (.ok (some 7)), .store 0]
  (begun ++ between ++ ended).map fun action => (fun _ => 0, action)

theorem alone_respected :
    Throughout System.step System.Respected (System.new {} fun _ => 0) (callWith []) := by
  have hclean : Along System.step System.Undisturbed (System.new {} fun _ => 0) (callWith []) := by
    refine ⟨trivial, fun s₁ h₁ => ⟨trivial, fun s₂ h₂ => ⟨trivial, fun s₃ h₃ => ⟨?_, fun _ _ => trivial⟩⟩⟩⟩
    obtain rfl := Option.some.inj h₁
    obtain rfl := Option.some.inj h₂
    obtain rfl := Option.some.inj h₃
    intro _
    exact ⟨fun _ => by decide, by decide +kernel⟩
  cases hrun : exec System.step (System.new {} fun _ => 0) (callWith []) with
  | none => exact absurd hrun nofun
  | some t => exact (respected_iff_undisturbed {} (fun _ => 0) hrun).mpr hclean

/-- An invalidation while the factory runs does not keep its value out, and the value of a `set`
in between is lost. -/
theorem disturbed_calls :
    ¬ Throughout System.step System.NoneStale (System.new {} fun _ => 0)
        (callWith [.invalidateRelated .link none true]) ∧
      ¬ Throughout System.step (fun s => s.overwritten = []) (System.new {} fun _ => 0)
        (callWith [.set .link ['k'] (some 8) .useDefault]) := by
  constructor
  · intro h
    have hend : (exec System.step (System.new {} fun _ => 0)
        (callWith [.invalidateRelated .link none true])).map (fun t =>
          ((t.cacheManager.get 0 .link ['k']).1, t.invalidated .link ['k'])) =
        some (some ⟨7, .factory 2⟩, 3) := by
      decide +kernel
    obtain ⟨t, hrun, hfound⟩ := Option.map_eq_some_iff.mp hend
    obtain ⟨hget, hinvalidated⟩ := Prod.mk.inj hfound
    have hlate := h _ (List.prefix_refl _) t hrun 0 .link ['k'] ⟨7, .factory 2⟩ 2 hget rfl
    omega
  · intro h
    have hend : (exec System.step (System.new {} fun _ => 0)
        (callWith [.set .link ['k'] (some 8) .useDefault])).map (·.overwritten) =
        some [(.link, ['k'])] := by
      decide +kernel
    obtain ⟨t, hrun, hlost⟩ := Option.map_eq_some_iff.mp hend
    have hnone := h _ (List.prefix_refl _) t hrun
    exact absurd (hnone.symm.trans hlost) nofun

end SmartMedia.Cache.Concurrent
