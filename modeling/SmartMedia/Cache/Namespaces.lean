import SmartMedia.Cache.Agreement

/-!
# Are the namespaces isolated?

`get_namespaced_cache` looks the namespace up by its name in a table of five names; every
other name stands for the general namespace. Calls through the adapter change no other
namespace than that one, so that all depends on the table.
-/
namespace SmartMedia.Cache
open PartialRun CacheManager

variable {V : Type}

def LegacyCacheAdapter.run (a : LegacyCacheAdapter) (s : CacheManager V)
    (operations : List ((ℕ → ℚ) × Operation V)) : CacheManager V :=
  operations.foldl (fun s operation => (a.perform s operation.1 operation.2).1) s

/-- Calls through the first adapter change no result of a `get` for the second namespace. -/
def Isolated (n₁ n₂ : CacheNamespace) : Prop :=
  ∀ (V : Type) (config : CacheConfig) (start : CacheNamespace → ℚ)
    (before : List ((ℕ → ℚ) × Call V)) (s : CacheManager V),
    exec step (new config start) before = some s →
    ∀ (operations : List ((ℕ → ℚ) × Operation V)) (now : ℕ → ℚ) (key : Key),
      let t := (getNamespacedCache n₁).run s operations
      ((getNamespacedCache n₂).perform t now (.get key)).2 =
          ((getNamespacedCache n₂).perform s now (.get key)).2 ∧
        (t.get (now 0) n₂ key).1 = (s.get (now 0) n₂ key).1

/-- What is set through the adapter is found in the namespace until its TTL is over, and it is
gone after `invalidate_related` of the namespace. -/
def SetsItsOwn (n : CacheNamespace) : Prop :=
  ∀ (V : Type) (config : CacheConfig) (start : CacheNamespace → ℚ)
    (before : List ((ℕ → ℚ) × Call V)) (s : CacheManager V),
    exec step (new config start) before = some s →
    ∀ (now : ℕ → ℚ) (key : Key) (value : Option V) (ttl : Option ℚ),
      let reply := (getNamespacedCache n).perform s now (.set key value ttl)
      reply.2 = .done →
        (∀ later, later - now 0 ≤ ttl.getD tenYears → (reply.1.get later n key).1 = value) ∧
          ∀ (now' : ℕ → ℚ) (cascade : Bool) (later : ℕ → ℚ),
            let dropped := (reply.1.invalidateRelated now' n none cascade).2
            (dropped.get (later 0) n key).1 = none ∧
              ((getNamespacedCache n).perform dropped later (.get key)).2 = .value none

section Frame
variable {s : CacheManager V} {now : ℕ → ℚ} {m n : CacheNamespace}

/-- An operation for one namespace leaves the others as they are. -/
theorem namespaces_perform_call (operation : Operation V) (hn : n ≠ m) :
    (s.perform now (operation.call m)).1.namespaces n = s.namespaces n := by
  have hget : ∀ key, (s.get (now 0) m key).2.namespaces n = s.namespaces n := by
    intro key
    rw [get_namespaces, Function.update_of_ne hn]
  have hset : ∀ (t : CacheManager V) now key value ttl,
      (t.set now m key value ttl).1.namespaces n = t.namespaces n := by
    intro t now key value ttl
    rw [set_namespaces, Function.update_of_ne hn]
  cases operation with
  | get key => exact hget key
  | set key value ttl =>
      rw [Operation.call, perform_set]
      exact hset s _ _ _ _
  | delete key =>
      change (s.delete m key).2.namespaces n = s.namespaces n
      rw [delete_namespaces, Function.update_of_ne hn]
  | clear => exact Function.update_of_ne hn _ _
  | getOrSet key factory ttl =>
      change (s.getOrSet now m key factory (passedTtl ttl)).1.namespaces n = s.namespaces n
      have hfound := hget key
      rw [getOrSet_eq]
      generalize s.get (now 0) m key = reply at hfound
      obtain ⟨found, t⟩ := reply
      cases found with
      | some v => exact hfound
      | none =>
          cases factory with
          | error error => exact hfound
          | ok value => exact (hset t _ _ _ _).trans hfound

theorem namespaces_run (a : LegacyCacheAdapter) (operations : List ((ℕ → ℚ) × Operation V))
    (hn : n ≠ a.namespace_) : (a.run s operations).namespaces n = s.namespaces n := by
  induction operations generalizing s with
  | nil => rfl
  | cons operation operations ih =>
      exact ih.trans (namespaces_perform_call operation.2 hn)

theorem get_congr {t : CacheManager V} (h : t.namespaces n = s.namespaces n) (now : ℚ) (key : Key) :
    (t.get now n key).1 = (s.get now n key).1 := by
  change ((t.namespaces n).get now key).1 = ((s.namespaces n).get now key).1
  rw [h]

end Frame

section Table
variable {n n₁ n₂ : CacheNamespace}

theorem isolated_of_ne
    (hadapter : (getNamespacedCache n₁).namespace_ ≠ (getNamespacedCache n₂).namespace_)
    (hmanager : (getNamespacedCache n₁).namespace_ ≠ n₂) : Isolated n₁ n₂ := by
  intro V config start before s _ operations now key t
  constructor
  · exact congrArg Outcome.value (get_congr (namespaces_run _ operations hadapter.symm) (now 0) key)
  · exact get_congr (namespaces_run _ operations hmanager.symm) (now 0) key

/-- A manager with one value in the general configuration, set through the adapter. -/
def withOne (n : CacheNamespace) : CacheManager ℕ :=
  (getNamespacedCache n).run (new {} fun _ => 0) [(fun _ => 0, .set ['k'] (some 7) none)]

theorem get_withOne (n : CacheNamespace) :
    ((withOne n).get 0 (getNamespacedCache n).namespace_ ['k']).1 = some 7 := by
  cases n <;> decide +kernel

theorem Isolated.ne_adapter (h : Isolated n₁ n₂) :
    (getNamespacedCache n₁).namespace_ ≠ (getNamespacedCache n₂).namespace_ := by
  intro hshared
  have hboth := (h ℕ {} (fun _ => 0) [] _ rfl [(fun _ => 0, .set ['k'] (some 7) none)] (fun _ => 0)
    ['k']).1
  have hvalue : ((withOne n₁).get 0 (getNamespacedCache n₂).namespace_ ['k']).1 = none :=
    Outcome.value.inj hboth
  rw [← hshared, get_withOne] at hvalue
  exact absurd hvalue nofun

theorem Isolated.ne_manager (h : Isolated n₁ n₂) : (getNamespacedCache n₁).namespace_ ≠ n₂ := by
  rintro rfl
  have hvalue := (h ℕ {} (fun _ => 0) [] _ rfl [(fun _ => 0, .set ['k'] (some 7) none)] (fun _ => 0)
    ['k']).2
  exact absurd ((get_withOne n₁).symm.trans hvalue) nofun

theorem SetsItsOwn.eq (h : SetsItsOwn n) : (getNamespacedCache n).namespace_ = n := by
  by_contra hne
  have hdone : ((getNamespacedCache n).perform (new {} fun _ => 0 : CacheManager ℕ) (fun _ => 0)
      (.set ['k'] (some 7) none)).2 = .done := by
    have hset : ((new {} fun _ => 0 : CacheManager ℕ).set 0 (getNamespacedCache n).namespace_ ['k']
        (some 7) .neverExpire).2 = none := by
      rw [set_error]
      apply LRUCache.set_done_of_pos
      cases n <;> decide
    change ((new {} fun _ => 0 : CacheManager ℕ).perform _
      (.set (getNamespacedCache n).namespace_ ['k'] (some 7) .neverExpire)).2 = _
    rw [perform_set, hset]
    rfl
  have hvalue := (h ℕ {} (fun _ => 0) [] _ rfl (fun _ => 0) ['k'] (some 7) none hdone).1 0
    (by decide +kernel)
  have hother : ((withOne n).get 0 n ['k']).1 = ((new {} fun _ => 0 : CacheManager ℕ).get 0 n ['k']).1 :=
    get_congr (namespaces_run _ _ (Ne.symm hne)) 0 ['k']
  exact absurd (hvalue.symm.trans hother) nofun

/-- An expelled value is not found any more. -/
theorem get_of_expelled {s : CacheManager V} (h : s.Expelled n) (now : ℚ) (key : Key) :
    (s.get now n key).1 = none := by
  by_contra hfound
  obtain ⟨v, hv⟩ := Option.ne_none_iff_exists'.mp hfound
  obtain ⟨e, he, hvalue⟩ := found_of_get now hv
  exact absurd (hvalue.symm.trans (h _ key e le_rfl he)) nofun

/-- After a `set` that did not raise the value is found until its TTL is over. -/
theorem get_of_set {s : CacheManager V} {now later : ℚ} {key : Key} {value : Option V} {ttl : Ttl}
    (hdone : (s.set now n key value ttl).2 = none)
    (hlater : later - now ≤ (s.namespaces n).effectiveTtl ttl) :
    ((s.set now n key value ttl).1.get later n key).1 = value := by
  set c := s.namespaces n with hc
  rw [set_error, ← hc] at hdone
  have hentry := LRUCache.lookup_set_of_done hdone
  have halive : LRUCache.expired (c.cache.set now (c.versionedKey key) value
      (some (c.effectiveTtl ttl))).1 later ⟨value, now, some (c.effectiveTtl ttl)⟩ = false :=
    decide_eq_false (not_lt.mpr hlater)
  change (((s.set now n key value ttl).1.namespaces n).get later key).1 = value
  rw [set_namespaces, Function.update_self]
  change (LRUCache.get (c.cache.set now (c.versionedKey key) value (some (c.effectiveTtl ttl))).1 later
    (c.versionedKey key)).1 = value
  rw [LRUCache.get, hentry]
  simp only [halive, Bool.false_eq_true, if_false]

theorem setsItsOwn_of_eq (hn : (getNamespacedCache n).namespace_ = n) : SetsItsOwn n := by
  intro V config start before s hrun now key value ttl reply hdone
  have hreply : reply = ((s.set (now 0) n key value (passedTtl ttl)).1,
      ending (s.set (now 0) n key value (passedTtl ttl)).2 .done) := by
    change s.perform now (.set (getNamespacedCache n).namespace_ key value (passedTtl ttl)) = _
    rw [hn, perform_set]
  rw [hreply] at hdone ⊢
  have hset : (s.set (now 0) n key value (passedTtl ttl)).2 = none := by
    cases herror : (s.set (now 0) n key value (passedTtl ttl)).2 with
    | none => rfl
    | some error =>
        rw [herror] at hdone
        exact nomatch hdone
  constructor
  · intro later hlater
    apply get_of_set hset
    cases ttl with
    | none => exact hlater
    | some ttl => exact hlater
  · intro now' cascade later dropped
    obtain ⟨since, hleads⟩ := exec_leads hrun
    have hproper : (s.set (now 0) n key value (passedTtl ttl)).1.Proper :=
      ((proper_new config start).later hleads).later (set_later s (now 0) n key value (passedTtl ttl))
    have hexpelled : dropped.Expelled n := hproper.expelled_invalidateRelated now' rfl (.inl rfl)
    constructor
    · exact get_of_expelled hexpelled (later 0) key
    · change Outcome.value (dropped.get (later 0) (getNamespacedCache n).namespace_ key).1 = _
      rw [hn, get_of_expelled hexpelled]

/-- The namespaces whose name the table has. -/
theorem namespace_eq_iff : (getNamespacedCache n).namespace_ = n ↔
    n ∈ [CacheNamespace.link, .general, .tmdb, .quarkApi, .proxy] := by
  cases n <;> decide

/-- Two namespaces are isolated exactly if the first adapter stands for neither the second
namespace nor the one that the second adapter stands for, and an adapter works on its own
namespace exactly if the table has its name. -/
theorem isolated_and_setsItsOwn_iff (n₁ n₂ n : CacheNamespace) :
    (Isolated n₁ n₂ ↔
      (getNamespacedCache n₁).namespace_ ≠ (getNamespacedCache n₂).namespace_ ∧
        (getNamespacedCache n₁).namespace_ ≠ n₂) ∧
      (SetsItsOwn n ↔ (getNamespacedCache n).namespace_ = n) := by
  constructor
  · constructor
    · exact fun h => ⟨h.ne_adapter, h.ne_manager⟩
    · exact fun h => isolated_of_ne h.1 h.2
  · exact ⟨fun h => h.eq, setsItsOwn_of_eq⟩

/-- `rename` and `scrape` share the general namespace, which is the namespace of neither. -/
theorem rename_scrape_collapse : ¬ Isolated .rename .scrape ∧ ¬ SetsItsOwn .rename := by
  constructor
  · exact fun h => h.ne_adapter rfl
  · exact fun h => absurd h.eq (by decide)

end Table

end SmartMedia.Cache
