import SmartMedia.Cache.CacheManager

/-!
# What an invalidation leaves behind

What any calls can do to the entries is said once, by `Later`: an entry found after them
was there before or was stored by them, at a version that came up in between.
-/
namespace SmartMedia.Cache

open PartialRun

variable {V : Type}

namespace NamespacedCache

/-- Keys of different versions, or of different keys, are different. -/
theorem keyAt_injective {enableVersioning : Bool} {m n : ℕ} {key key' : Key}
    (h : keyAt enableVersioning m key = keyAt enableVersioning n key') :
    key = key' ∧ (enableVersioning = true → m = n) := by
  cases enableVersioning with
  | false => exact ⟨h, fun hv => absurd hv (by decide)⟩
  | true =>
      have hnot : ∀ n, ∀ c ∈ Nat.toDigits 10 n, (c != ':') = true := by
        intro n c hc
        have hdigit := Nat.isDigit_of_mem_toDigits (by decide) (by decide) hc
        rw [bne_iff_ne]
        intro he
        rw [he] at hdigit
        exact absurd hdigit (by decide)
      have htake : ∀ n (rest : Key), (Nat.toDigits 10 n ++ ':' :: rest).takeWhile (· != ':') =
          Nat.toDigits 10 n := by
        intro n rest
        rw [List.takeWhile_append_of_pos (hnot n), List.takeWhile_cons_of_neg (by decide),
          List.append_nil]
      have hrest := (List.cons.inj h).2
      have hdigits : Nat.toDigits 10 m = Nat.toDigits 10 n := by
        rw [← htake m key, hrest, htake]
      rw [hdigits, List.append_cancel_left_eq] at hrest
      refine ⟨(List.cons.inj hrest).2, fun _ => ?_⟩
      rw [← Nat.ofDigitChars_ten_toDigits (n := m), hdigits, Nat.ofDigitChars_ten_toDigits]

end NamespacedCache

namespace Call

/-- The calls that invalidate a whole namespace. -/
def invalidates : Call V → Option (CacheNamespace × Bool)
  | .invalidateRelated n none cascade => some (n, cascade)
  | .invalidateRelated n (some []) cascade => some (n, cascade)
  | .incrementNamespaceVersion n cascade => some (n, cascade)
  | _ => none

def isRelated : Call V → Bool
  | .invalidateRelated _ _ _ => true
  | _ => false

end Call

namespace CacheManager

/-- The entry under a key of the LRU cache of a namespace. -/
def entry (s : CacheManager V) (namespace_ : CacheNamespace) (x : Key) : Option (Entry V) :=
  (s.namespaces namespace_).cache.cache.lookup x

def version (s : CacheManager V) (namespace_ : CacheNamespace) : ℕ :=
  (s.namespaces namespace_).version

def keyOf (s : CacheManager V) (namespace_ : CacheNamespace) (version : ℕ) (key : Key) : Key :=
  NamespacedCache.keyAt (s.namespaces namespace_).enableVersioning version key

/-- What calls that store `since` can lead to. -/
structure Later (s t : CacheManager V) (since : List (CacheNamespace × Key × Option V)) :
    Prop where
  config : t.config = s.config
  stored : t.stored = s.stored ++ since
  versioning : ∀ n, (t.namespaces n).enableVersioning = (s.namespaces n).enableVersioning
  version : ∀ n, s.version n ≤ t.version n
  entries : ∀ n x e, t.entry n x = some e → s.entry n x = some e ∨
    ∃ m key, s.version n ≤ m ∧ m ≤ t.version n ∧ x = s.keyOf n m key ∧ (n, key, e.value) ∈ since

section Later
variable {s t u : CacheManager V} {since more : List (CacheNamespace × Key × Option V)}
  {n : CacheNamespace} {now : ℚ} {key : Key}

theorem Later.keyOf (h : Later s t since) (m : ℕ) (key : Key) :
    t.keyOf n m key = s.keyOf n m key := by
  rw [CacheManager.keyOf, CacheManager.keyOf, h.versioning]

theorem Later.of_same (hc : t.config = s.config) (hs : t.stored = s.stored)
    (hn : t.namespaces = s.namespaces) : Later s t [] where
  config := hc
  stored := by rw [hs, List.append_nil]
  versioning _ := by rw [hn]
  version _ := by rw [CacheManager.version, CacheManager.version, hn]
  entries _ _ _ he := by
    rw [CacheManager.entry, hn] at he
    exact .inl he

theorem Later.refl (s : CacheManager V) : Later s s [] := .of_same rfl rfl rfl

theorem Later.trans (h : Later s t since) (h' : Later t u more) : Later s u (since ++ more) where
  config := h'.config.trans h.config
  stored := by rw [h'.stored, h.stored, List.append_assoc]
  versioning n := (h'.versioning n).trans (h.versioning n)
  version n := (h.version n).trans (h'.version n)
  entries := by
    intro n x e he
    rcases h'.entries n x e he with ht | ⟨m, key, hm, hm', hx, hmem⟩
    · rcases h.entries n x e ht with hs | ⟨m, key, hm, hm', hx, hmem⟩
      · exact .inl hs
      · exact .inr ⟨m, key, hm, hm'.trans (h'.version n), hx, List.mem_append_left _ hmem⟩
    · refine .inr ⟨m, key, (h.version n).trans hm, hm', ?_, List.mem_append_right _ hmem⟩
      rw [hx, h.keyOf]

/-- One namespace gets a cache with no new entries but those stored. -/
theorem Later.of_update (c : NamespacedCache V) (hc : t.config = s.config)
    (hs : t.stored = s.stored ++ since) (hn : t.namespaces = Function.update s.namespaces n c)
    (hv : c.enableVersioning = (s.namespaces n).enableVersioning) (hle : s.version n ≤ c.version)
    (he : ∀ x e, c.cache.cache.lookup x = some e → s.entry n x = some e ∨
      ∃ key, x = s.keyOf n (s.version n) key ∧ (n, key, e.value) ∈ since) : Later s t since := by
  have hat : ∀ n', t.namespaces n' = if n' = n then c else s.namespaces n' := by
    intro n'
    rw [hn, Function.update_apply]
  have hversion : ∀ n', s.version n' ≤ t.version n' := by
    intro n'
    rw [CacheManager.version, CacheManager.version, hat]
    split_ifs with h
    · rw [h]
      exact hle
    · exact le_rfl
  refine ⟨hc, hs, fun n' => ?_, hversion, fun n' x e hx => ?_⟩
  · rw [hat]
    split_ifs with h
    · rw [h, hv]
    · rfl
  · rw [CacheManager.entry, hat] at hx
    split_ifs at hx with h
    · rw [h]
      rcases he x e hx with hx | ⟨key, hkey, hmem⟩
      · exact .inl hx
      · exact .inr ⟨s.version n, key, le_rfl, hversion n, hkey, hmem⟩
    · exact .inl hx

theorem Later.setCache (c : NamespacedCache V)
    (hv : c.enableVersioning = (s.namespaces n).enableVersioning) (hle : s.version n ≤ c.version)
    (he : ∀ x e, c.cache.cache.lookup x = some e → s.entry n x = some e) :
    Later s (s.setCache n c) [] :=
  .of_update c rfl (List.append_nil _).symm rfl hv hle fun x e hx => .inl (he x e hx)

theorem Later.count (h : Later s t since) (change : GlobalStats → GlobalStats) :
    Later s (t.count change) since :=
  ⟨h.config, h.stored, h.versioning, h.version, h.entries⟩

theorem get_later (s : CacheManager V) (now : ℚ) (n : CacheNamespace) (key : Key) :
    Later s (s.get now n key).2 [] := by
  have hcache := Later.setCache ((s.namespaces n).get now key).2 rfl le_rfl fun x e =>
    LRUCache.lookup_get_of_some
  exact hcache.count fun g =>
    if ((s.namespaces n).get now key).1.isSome then { g with totalHits := g.totalHits + 1 }
    else { g with totalMisses := g.totalMisses + 1 }

theorem delete_later (s : CacheManager V) (n : CacheNamespace) (key : Key) :
    Later s (s.delete n key).2 [] := by
  have hcache := Later.setCache ((s.namespaces n).delete key).2 rfl le_rfl fun x e =>
    LRUCache.lookup_delete_of_some
  exact hcache.count fun g =>
    if ((s.namespaces n).delete key).1 then { g with totalDeletes := g.totalDeletes + 1 } else g

theorem set_later (s : CacheManager V) (now : ℚ) (n : CacheNamespace) (key : Key)
    (value : Option V) (ttl : Ttl) :
    Later s (s.set now n key value ttl).1
      (if (s.set now n key value ttl).2 = none then [(n, key, value)] else []) := by
  let c := s.namespaces n
  let change := c.cache.set now (c.versionedKey key) value (some (c.effectiveTtl ttl))
  have hentries : ∀ x e, change.1.cache.lookup x = some e → s.entry n x = some e ∨
      x = s.keyOf n (s.version n) key ∧ e.value = value ∧ change.2 = none := by
    intro x e hx
    rcases LRUCache.lookup_set_of_some hx with h | ⟨hk, he, hnone⟩
    · exact .inl h
    · exact .inr ⟨hk, by rw [he], hnone⟩
  have hcache : (s.namespaces n).set now key value ttl = ({ c with cache := change.1 }, change.2) :=
    rfl
  cases herror : change.2 with
  | some error =>
      have hset : s.set now n key value ttl =
          (s.setCache n { c with cache := change.1 }, some error) := by
        rw [CacheManager.set, hcache]
        simp only [herror]
      rw [hset, if_neg (by simp)]
      refine .setCache _ rfl le_rfl fun x e hx => ?_
      rcases hentries x e hx with h | ⟨-, -, hnone⟩
      · exact h
      · rw [herror] at hnone
        cases hnone
  | none =>
      have hset : s.set now n key value ttl = (CacheManager.count { s.setCache n
          { c with cache := change.1 } with stored := s.stored ++ [(n, key, value)] } fun g =>
            { g with totalSets := g.totalSets + 1 }, none) := by
        rw [CacheManager.set, hcache]
        simp only [herror]
        rfl
      rw [hset, if_pos rfl]
      have hadds : Later s { s.setCache n { c with cache := change.1 } with
          stored := s.stored ++ [(n, key, value)] } [(n, key, value)] := by
        refine .of_update { c with cache := change.1 } rfl rfl rfl rfl le_rfl fun x e hx => ?_
        rcases hentries x e hx with he | ⟨hk, he, -⟩
        · exact .inl he
        · exact .inr ⟨key, hk, by rw [he]; exact List.mem_cons_self⟩
      exact hadds.count fun g => { g with totalSets := g.totalSets + 1 }

/-- Calls that stored something. -/
def Leads (s t : CacheManager V) : Prop := ∃ since, Later s t since

theorem Leads.trans (h : Leads s t) (h' : Leads t u) : Leads s u := by
  obtain ⟨since, h⟩ := h
  obtain ⟨more, h'⟩ := h'
  exact ⟨since ++ more, h.trans h'⟩

theorem Later.trans_nil (h : Later s t []) (h' : Later t u []) : Later s u [] := h.trans h'

theorem getMany_later (now : ℕ → ℚ) (n : CacheNamespace) (keys : List Key)
    (results : Finmap fun _ : Key => V) (s : CacheManager V) :
    Later s (s.getMany now n keys results).2 [] := by
  induction keys generalizing s now results with
  | nil => exact .refl s
  | cons key keys ih => exact (get_later s (now 0) n key).trans_nil (ih _ _ _)

theorem setMany_leads (now : ℕ → ℚ) (n : CacheNamespace) (ttl : Ttl)
    (items : List (Key × Option V)) (successCount : ℕ) (s : CacheManager V) :
    Leads s (s.setMany now n ttl items successCount).1 := by
  induction items generalizing s now successCount with
  | nil => exact ⟨[], .refl s⟩
  | cons item items ih =>
      obtain ⟨key, value⟩ := item
      have hset : Leads s (s.set (now 0) n key value ttl).1 := ⟨_, set_later s _ n key value ttl⟩
      rw [setMany]
      rcases hrun : s.set (now 0) n key value ttl with ⟨t, _ | error⟩
      · rw [hrun] at hset
        exact hset.trans (ih _ _ t)
      · rw [hrun] at hset
        exact hset

theorem deleteMany_later (n : CacheNamespace) (keys : List Key) (successCount : ℕ)
    (s : CacheManager V) : Later s (s.deleteMany n keys successCount).2 [] := by
  induction keys generalizing s successCount with
  | nil => exact .refl s
  | cons key keys ih => exact (delete_later s n key).trans_nil (ih _ _)

theorem getOrSet_leads (s : CacheManager V) (now : ℕ → ℚ) (n : CacheNamespace) (key : Key)
    (factory : Except String (Option V)) (ttl : Ttl) :
    Leads s (s.getOrSet now n key factory ttl).1 := by
  have hget : Leads s (s.get (now 0) n key).2 := ⟨[], get_later s _ n key⟩
  rw [getOrSet]
  rcases hrun : s.get (now 0) n key with ⟨_ | v, t⟩
  · rw [hrun] at hget
    cases factory with
    | error error => exact hget
    | ok value =>
        have hset : Leads t (t.set (now 1) n key value ttl).1 := ⟨_, set_later t _ n key value ttl⟩
        rcases hrun' : t.set (now 1) n key value ttl with ⟨u, _ | error⟩
        · rw [hrun'] at hset
          simp only [hrun']
          exact hget.trans hset
        · rw [hrun'] at hset
          simp only [hrun']
          exact hget.trans hset
  · rw [hrun] at hget
    exact hget

theorem clearNamespace_later (s : CacheManager V) (n : CacheNamespace) :
    Later s (s.clearNamespace n) [] :=
  .setCache _ rfl le_rfl fun x _ h => by
    have hnone : (s.namespaces n).clear.cache.cache.lookup x = none := LRUCache.lookup_clear _ x
    rw [hnone] at h
    cases h

theorem clearAll_later (s : CacheManager V) : Later s s.clearAll [] := by
  rw [clearAll]
  generalize CacheNamespace.all = namespaces
  induction namespaces generalizing s with
  | nil => exact .refl s
  | cons n namespaces ih => exact (clearNamespace_later s n).trans_nil (ih _)

theorem cleanup_later (now : ℕ → ℚ) (namespaces : List CacheNamespace) (totalCleaned : ℕ)
    (s : CacheManager V) : Later s (s.cleanup now namespaces totalCleaned).2 [] := by
  induction namespaces generalizing s now totalCleaned with
  | nil => exact .refl s
  | cons n namespaces ih =>
      have hcache := Later.setCache ((s.namespaces n).cleanupExpired (now 0)).2 rfl le_rfl
        fun x e => LRUCache.lookup_cleanupExpired_of_some
      exact hcache.trans_nil (ih _ _ _)

theorem raiseVersion_later (s : CacheManager V) (now : ℚ) (n : CacheNamespace) :
    Later s (s.raiseVersion now n) [] :=
  .setCache _ rfl (Nat.le_succ _) fun _ _ h => h

theorem invalidateNamespace_later (s : CacheManager V) (now : ℚ) (n : CacheNamespace) :
    Later s (s.invalidateNamespace now n) [] := by
  cases hv : s.config.enableVersioning with
  | true =>
      have heq : s.invalidateNamespace now n = s.raiseVersion now n := by
        rw [invalidateNamespace, hv, if_pos rfl, raiseVersion]
      rw [heq]
      exact raiseVersion_later s now n
  | false =>
      have heq : s.invalidateNamespace now n = s.clearNamespace n := by
        rw [invalidateNamespace, hv, if_neg (by decide), clearNamespace]
      rw [heq]
      exact clearNamespace_later s n

theorem forCascaded_later {change : CacheManager V → ℚ → CacheNamespace → CacheManager V}
    (hchange : ∀ s now n, Later s (change s now n) []) (now : ℕ → ℚ)
    (namespaces : List CacheNamespace) (s : CacheManager V) :
    Later s (forCascaded change s now namespaces) [] := by
  induction namespaces generalizing s now with
  | nil => exact .refl s
  | cons n namespaces ih => exact (hchange s (now 0) n).trans_nil (ih _ _)

theorem invalidateRelated_later (s : CacheManager V) (now : ℕ → ℚ) (n : CacheNamespace)
    (key : Option Key) (cascade : Bool) :
    Later s (s.invalidateRelated now n key cascade).2 [] := by
  have hrest := forCascaded_later (V := V) invalidateNamespace_later
  by_cases hkey : key.getD [] ≠ []
  · have hfirst := Later.setCache ((s.namespaces n).delete (key.getD [])).2 rfl le_rfl
      fun x e => LRUCache.lookup_delete_of_some
    simp only [invalidateRelated, if_pos hkey]
    exact (hfirst.trans_nil (hrest _ _ _)).trans_nil (.of_same rfl rfl rfl)
  · simp only [invalidateRelated, if_neg hkey]
    exact ((invalidateNamespace_later s _ n).trans_nil (hrest _ _ _)).trans_nil
      (.of_same rfl rfl rfl)

theorem incrementNamespaceVersion_later (s : CacheManager V) (now : ℕ → ℚ) (n : CacheNamespace)
    (cascade : Bool) : Later s (s.incrementNamespaceVersion now n cascade).2 [] :=
  ((raiseVersion_later s _ n).trans_nil (forCascaded_later raiseVersion_later _ _ _)).trans_nil
    (.of_same rfl rfl rfl)

theorem perform_leads (s : CacheManager V) (now : ℕ → ℚ) (call : Call V) :
    Leads s (s.perform now call).1 := by
  cases call with
  | get n key => exact ⟨[], get_later s _ n key⟩
  | set n key value ttl =>
      have hset : Leads s (s.set (now 0) n key value ttl).1 := ⟨_, set_later s _ n key value ttl⟩
      rw [perform]
      rcases hrun : s.set (now 0) n key value ttl with ⟨t, _ | error⟩
      · rw [hrun] at hset
        exact hset
      · rw [hrun] at hset
        exact hset
  | delete n key => exact ⟨[], delete_later s n key⟩
  | getMany n keys => exact ⟨[], getMany_later now n keys ∅ s⟩
  | setMany n items ttl => exact setMany_leads now n ttl items 0 s
  | deleteMany n keys => exact ⟨[], deleteMany_later n keys 0 s⟩
  | getOrSet n key factory ttl => exact getOrSet_leads s now n key factory ttl
  | clearNamespace n => exact ⟨[], clearNamespace_later s n⟩
  | clearAll => exact ⟨[], clearAll_later s⟩
  | cleanup => exact ⟨[], cleanup_later now CacheNamespace.all 0 s⟩
  | invalidateRelated n key cascade => exact ⟨[], invalidateRelated_later s now n key cascade⟩
  | incrementNamespaceVersion n cascade =>
      exact ⟨[], incrementNamespaceVersion_later s now n cascade⟩

/-- What whole runs lead to. -/
theorem exec_leads {requests : List ((ℕ → ℚ) × Call V)} (h : exec step s requests = some t) :
    Leads s t := by
  refine invariant_of_step (I := fun u => Leads s u) (fun u request u' hu hstep => ?_)
    ⟨[], .refl s⟩ h
  rw [← Option.some.inj hstep]
  exact hu.trans (perform_leads u request.1 request.2)

end Later

section Returning
variable {s t : CacheManager V} {n : CacheNamespace} {key : Key} {v : V}

/-- What a call returns for a key. -/
def Returns (n : CacheNamespace) (key : Key) (v : V) : Call V → Outcome V → Prop
  | .get n' key', .value x => n' = n ∧ key' = key ∧ x = some v
  | .getOrSet n' key' _ _, .value x => n' = n ∧ key' = key ∧ x = some v
  | .getMany n' _, .values results => n' = n ∧ results.lookup key = some v
  | _, _ => False

/-- A value that can be found under a key. -/
def Found (s : CacheManager V) (n : CacheNamespace) (key : Key) (v : V) : Prop :=
  ∃ e, s.entry n (s.keyOf n (s.version n) key) = some e ∧ e.value = some v

theorem found_of_get (now : ℚ) (h : (s.get now n key).1 = some v) : s.Found n key v :=
  LRUCache.lookup_of_get h

/-- A single `get` uncovers no other value. -/
theorem Found.of_get {now : ℚ} {key' : Key} (h : Found (s.get now n key').2 n key v) :
    s.Found n key v := by
  obtain ⟨e, he, hv⟩ := h
  have hlater := get_later s now n key'
  have hversion : (s.get now n key').2.version n = s.version n := by
    show ((Function.update s.namespaces n ((s.namespaces n).get now key').2) n).version = _
    rw [Function.update_self]
    rfl
  rw [hlater.keyOf, hversion] at he
  rcases hlater.entries n _ e he with he | ⟨m, key'', -, -, -, hmem⟩
  · exact ⟨e, he, hv⟩
  · cases hmem

theorem getMany_returns (now : ℕ → ℚ) (n : CacheNamespace) (keys : List Key)
    (results : Finmap fun _ : Key => V) (s : CacheManager V)
    (h : (s.getMany now n keys results).1.lookup key = some v) :
    results.lookup key = some v ∨ s.Found n key v := by
  induction keys generalizing s now results with
  | nil => exact .inl h
  | cons first keys ih =>
      have hnext : (s.getMany now n (first :: keys) results).1 =
          ((s.get (now 0) n first).2.getMany (now ∘ Nat.succ) n keys
            ((s.get (now 0) n first).1.elim results fun v => results.insert first v)).1 := by
        rw [getMany]
        rcases s.get (now 0) n first with ⟨_ | v, t⟩ <;> rfl
      rw [hnext] at h
      rcases ih _ _ _ h with hfirst | hfound
      · cases hvalue : (s.get (now 0) n first).1 with
        | none =>
            rw [hvalue] at hfirst
            exact .inl hfirst
        | some w =>
            rw [hvalue, Option.elim_some] at hfirst
            by_cases hkey : key = first
            · subst hkey
              obtain rfl : w = v := by
                rw [Finmap.lookup_insert] at hfirst
                exact Option.some.inj hfirst
              exact .inr (found_of_get _ hvalue)
            · rw [Finmap.lookup_insert_of_ne _ hkey] at hfirst
              exact .inl hfirst
      · exact .inr hfound.of_get

/-- What a call returns it found, or has just stored. -/
theorem returned_from (now : ℕ → ℚ) (call : Call V)
    (h : Returns n key v call (s.perform now call).2) : s.Found n key v ∨
      (n, key, some v) ∈ (s.perform now call).1.stored.drop s.stored.length := by
  cases call with
  | get n' key' =>
      obtain ⟨rfl, rfl, hv⟩ := h
      exact .inl (found_of_get _ hv)
  | getMany n' keys =>
      obtain ⟨rfl, hv⟩ := h
      rcases getMany_returns now n' keys ∅ s hv with hempty | hfound
      · rw [Finmap.lookup_empty] at hempty
        cases hempty
      · exact .inl hfound
  | getOrSet n' key' factory ttl =>
      have hstored := (get_later s (now 0) n' key').stored
      rw [List.append_nil] at hstored
      simp only [perform, getOrSet] at h ⊢
      rcases hrun : s.get (now 0) n' key' with ⟨_ | w, t⟩
      · rw [hrun] at hstored
        simp only [hrun] at h ⊢
        cases factory with
        | error error => exact absurd h id
        | ok value =>
            have hset := (set_later t (now 1) n' key' value ttl).stored
            rcases hrun' : t.set (now 1) n' key' value ttl with ⟨u, _ | error⟩
            · obtain ⟨rfl, rfl, hv⟩ : n' = n ∧ key' = key ∧ value = some v := by
                simp only [hrun'] at h
                exact h
              rw [hrun', if_pos rfl, hstored] at hset
              simp only [hrun']
              rw [hset, List.drop_left, hv]
              exact .inr List.mem_cons_self
            · simp only [hrun'] at h
              exact absurd h id
      · simp only [hrun] at h
        obtain ⟨rfl, rfl, hv⟩ := h
        refine .inl (found_of_get (now 0) ?_)
        rw [hrun]
        exact hv
  | _ => exact absurd h id

end Returning

section Expelling
variable {s t : CacheManager V} {since : List (CacheNamespace × Key × Option V)}
  {n : CacheNamespace}

/-- No entry of the namespace that can still be found has a value. -/
def Expelled (s : CacheManager V) (n : CacheNamespace) : Prop :=
  ∀ m key e, s.version n ≤ m → s.entry n (s.keyOf n m key) = some e → e.value = none

/-- The keys belong to versions that came up. -/
def Bounded (s : CacheManager V) (n : CacheNamespace) : Prop :=
  ∀ x e, s.entry n x = some e → ∃ m key, m ≤ s.version n ∧ x = s.keyOf n m key

theorem Expelled.later (h : s.Expelled n) (hl : Later s t []) : t.Expelled n := by
  intro m key e hm he
  rw [hl.keyOf] at he
  rcases hl.entries n _ e he with he | ⟨m', key', -, -, -, hmem⟩
  · exact h m key e ((hl.version n).trans hm) he
  · cases hmem

theorem Bounded.later (h : s.Bounded n) (hl : Later s t since) : t.Bounded n := by
  intro x e he
  rcases hl.entries n x e he with he | ⟨m, key, -, hm, hx, -⟩
  · obtain ⟨m, key, hm, hx⟩ := h x e he
    exact ⟨m, key, hm.trans (hl.version n), by rw [hx, hl.keyOf]⟩
  · exact ⟨m, key, hm, by rw [hx, hl.keyOf]⟩

theorem bounded_new (config : CacheConfig) (now : CacheNamespace → ℚ) :
    (new config now : CacheManager V).Bounded n := by
  intro x e he
  cases he

/-- Behind an invalidation, whatever is found in the namespace was stored since. -/
theorem Expelled.stored_since (h : s.Expelled n) (hl : Later s t since) {key : Key} {v : V}
    (hf : t.Found n key v) : (n, key, some v) ∈ since := by
  obtain ⟨e, he, hv⟩ := hf
  rw [hl.keyOf] at he
  rcases hl.entries n _ e he with he | ⟨m, key', -, -, hx, hmem⟩
  · rw [h _ key e (hl.version n) he] at hv
    cases hv
  · obtain ⟨rfl, -⟩ := NamespacedCache.keyAt_injective hx
    rwa [hv] at hmem

/-- Raising the version leaves the entries out of reach, where keys have versions. -/
theorem expelled_raiseVersion (hv : (s.namespaces n).enableVersioning = true) (hb : s.Bounded n)
    (now : ℚ) : (s.raiseVersion now n).Expelled n := by
  intro m key e hm he
  have hl := raiseVersion_later s now n
  have hversion : (s.raiseVersion now n).version n = s.version n + 1 := by
    show ((Function.update s.namespaces n ((s.namespaces n).incrementVersion now)) n).version = _
    rw [Function.update_self]
    rfl
  rw [hl.keyOf] at he
  rcases hl.entries n _ e he with he | ⟨m', key', -, -, -, hmem⟩
  · obtain ⟨m', key', hm', hx⟩ := hb _ e he
    obtain ⟨-, hsame⟩ := NamespacedCache.keyAt_injective hx
    rw [hsame hv, hversion] at hm
    omega
  · cases hmem

theorem expelled_clearNamespace (s : CacheManager V) (n : CacheNamespace) :
    (s.clearNamespace n).Expelled n := by
  intro m key e _ he
  rw [entry, clearNamespace, setCache] at he
  simp only [Function.update_self] at he
  cases he

/-- A cascade changes one namespace after the other. -/
theorem expelled_forCascaded
    {change : CacheManager V → ℚ → CacheNamespace → CacheManager V}
    (hlater : ∀ s now n, Later s (change s now n) [])
    (hchange : ∀ t now n, Later s t [] → (change t now n).Expelled n) (now : ℕ → ℚ)
    {namespaces : List CacheNamespace} (hn : n ∈ namespaces) (ht : Later s t []) :
    (forCascaded change t now namespaces).Expelled n := by
  induction namespaces generalizing t now with
  | nil => cases hn
  | cons first namespaces ih =>
      rw [forCascaded]
      rcases List.mem_cons.mp hn with rfl | hn
      · exact (hchange t (now 0) n ht).later (forCascaded_later hlater _ _ _)
      · exact ih _ hn (ht.trans_nil (hlater t _ first))

end Expelling

section Completeness
variable {s t : CacheManager V} {since : List (CacheNamespace × Key × Option V)}
  {n : CacheNamespace}

/-- What every run keeps: one setting for all namespaces, and bounded keys. -/
structure Proper (s : CacheManager V) : Prop where
  uniform : ∀ n, (s.namespaces n).enableVersioning = s.config.enableVersioning
  bounded : ∀ n, s.Bounded n

theorem Proper.later (h : s.Proper) (hl : Later s t since) : t.Proper where
  uniform n := by rw [hl.versioning, hl.config, h.uniform]
  bounded n := (h.bounded n).later hl

theorem proper_new (config : CacheConfig) (now : CacheNamespace → ℚ) :
    (new config now : CacheManager V).Proper := ⟨fun _ => rfl, fun _ => bounded_new config now⟩

/-- The namespaces an invalidation is about. -/
def Affects (config : CacheConfig) (n : CacheNamespace) (cascade : Bool) (n' : CacheNamespace) :
    Prop :=
  n' = n ∨ cascade = true ∧ config.enableCrossNamespaceInvalidation = true ∧ n' ∈ n.dependencies

theorem affects_iff {cascade : Bool} {n' : CacheNamespace} :
    Affects s.config n cascade n' ↔ n' = n ∨ n' ∈ s.cascaded n cascade := by
  rw [Affects, cascaded]
  by_cases h : cascade = true ∧ s.config.enableCrossNamespaceInvalidation = true
  · rw [if_pos h, ← and_assoc, and_iff_right h]
  · rw [if_neg h, ← and_assoc, iff_false_intro h, false_and]
    simp

theorem Proper.expelled_invalidateNamespace (h : s.Proper) (now : ℚ) (n : CacheNamespace) :
    (s.invalidateNamespace now n).Expelled n := by
  cases hv : s.config.enableVersioning with
  | true =>
      have heq : s.invalidateNamespace now n = s.raiseVersion now n := by
        rw [invalidateNamespace, hv, if_pos rfl, raiseVersion]
      rw [heq]
      exact expelled_raiseVersion ((h.uniform n).trans hv) (h.bounded n) now
  | false =>
      have heq : s.invalidateNamespace now n = s.clearNamespace n := by
        rw [invalidateNamespace, hv, if_neg (by decide), clearNamespace]
      rw [heq]
      exact expelled_clearNamespace s n

/-- The two cascades, the namespace itself first. -/
theorem expelled_cascade {change : CacheManager V → ℚ → CacheNamespace → CacheManager V}
    (hlater : ∀ s now n, Later s (change s now n) [])
    (hchange : ∀ t now n, Later s t [] → (change t now n).Expelled n) {cascade : Bool}
    {n' : CacheNamespace} (ha : Affects s.config n cascade n') (first : ℚ) (now : ℕ → ℚ) :
    (forCascaded change (change s first n) now (s.cascaded n cascade)).Expelled n' := by
  rcases affects_iff.mp ha with rfl | hmem
  · exact (hchange s first n' (.refl s)).later (forCascaded_later hlater _ _ _)
  · exact expelled_forCascaded hlater hchange now hmem (hlater s first n)

theorem Proper.expelled_invalidateRelated (h : s.Proper) (now : ℕ → ℚ) {key : Option Key}
    (hkey : key.getD [] = []) {cascade : Bool} {n' : CacheNamespace}
    (ha : Affects s.config n cascade n') :
    (s.invalidateRelated now n key cascade).2.Expelled n' := by
  have hcascade := expelled_cascade (V := V) invalidateNamespace_later
    (fun t now n hl => (h.later hl).expelled_invalidateNamespace now n) ha (now 1) (now ∘ (· + 2))
  simp only [invalidateRelated, if_neg (not_not.mpr hkey)]
  exact hcascade.later (.of_same rfl rfl rfl)

theorem Proper.expelled_incrementNamespaceVersion (h : s.Proper)
    (hv : s.config.enableVersioning = true) (now : ℕ → ℚ) {cascade : Bool} {n' : CacheNamespace}
    (ha : Affects s.config n cascade n') :
    (s.incrementNamespaceVersion now n cascade).2.Expelled n' := by
  have hcascade := expelled_cascade (V := V) raiseVersion_later (fun t now n hl =>
    expelled_raiseVersion (((h.later hl).uniform n).trans (by rw [hl.config, hv]))
      ((h.later hl).bounded n) now) ha (now 0) (now ∘ Nat.succ)
  exact hcascade.later (.of_same rfl rfl rfl)

/-- Raising versions leaves every entry where it is. -/
theorem incrementNamespaceVersion_entry (now : ℕ → ℚ) (cascade : Bool) (n' : CacheNamespace)
    (x : Key) : (s.incrementNamespaceVersion now n cascade).2.entry n' x = s.entry n' x := by
  have hone : ∀ (t : CacheManager V) (now : ℚ) (n : CacheNamespace),
      (t.raiseVersion now n).entry n' x = t.entry n' x := by
    intro t now n
    rw [entry, raiseVersion, setCache]
    simp only [Function.update_apply]
    split_ifs with h
    · rw [h]
      rfl
    · rfl
  have hall : ∀ (namespaces : List CacheNamespace) (now : ℕ → ℚ) (t : CacheManager V),
      (forCascaded raiseVersion t now namespaces).entry n' x = t.entry n' x := by
    intro namespaces
    induction namespaces with
    | nil => exact fun now t => rfl
    | cons first namespaces ih => exact fun now t => (ih _ _).trans (hone t (now 0) first)
  exact (hall _ _ _).trans (hone s (now 0) n)

/-- From a state on, every value returned for the namespace was stored later. -/
def Complete (s : CacheManager V) (n : CacheNamespace) : Prop :=
  ∀ later t, exec step s later = some t → ∀ now call key v,
    Returns n key v call (t.perform now call).2 →
      (n, key, some v) ∈ (t.perform now call).1.stored.drop s.stored.length

theorem Expelled.complete (h : s.Expelled n) : s.Complete n := by
  intro later t hrun now call key v hreturns
  obtain ⟨since, hl⟩ := exec_leads hrun
  obtain ⟨more, hl'⟩ := perform_leads t now call
  rw [(hl.trans hl').stored, List.drop_left]
  rcases returned_from now call hreturns with hfound | hnew
  · exact List.mem_append_left _ (h.stored_since hl hfound)
  · rw [hl'.stored, List.drop_left] at hnew
    exact List.mem_append_right _ hnew

/-- Without versions, a value that stays is returned by some `get`. -/
theorem Complete.no_value (h : s.Complete n) (hv : (s.namespaces n).enableVersioning = false)
    {x : Key} {e : Entry V} (he : s.entry n x = some e) : e.value = none := by
  cases hvalue : e.value with
  | none => rfl
  | some v =>
      exfalso
      obtain ⟨now, hget⟩ := LRUCache.exists_get he hvalue
      have hkey : (s.namespaces n).versionedKey x = x := by
        rw [NamespacedCache.versionedKey, NamespacedCache.keyAt, hv]
        rfl
      have hreturned : (s.get now n x).1 = some v := by
        show ((s.namespaces n).cache.get now ((s.namespaces n).versionedKey x)).1 = some v
        rw [hkey, hget]
      have hmem := h [] s rfl (fun _ => now) (.get n x) x v ⟨rfl, rfl, hreturned⟩
      have hsame : (s.get now n x).2.stored = s.stored := (get_later s now n x).stored.trans
        (List.append_nil _)
      have hdrop : (s.perform (fun _ => now) (.get n x)).1.stored.drop s.stored.length = [] := by
        show (s.get now n x).2.stored.drop s.stored.length = []
        rw [hsame, List.drop_length]
      rw [hdrop] at hmem
      cases hmem

/-- After any run, the invalidation of a whole namespace is complete exactly if keys have
versions, or it is `invalidate_related`, or there was no value to invalidate. -/
theorem invalidation_complete_iff (config : CacheConfig) (start : CacheNamespace → ℚ)
    (before : List ((ℕ → ℚ) × Call V)) (hrun : exec step (new config start) before = some s)
    (now : ℕ → ℚ) {call : Call V} {cascade : Bool} (hcall : call.invalidates = some (n, cascade)) :
    (∀ n', Affects config n cascade n' → (s.perform now call).1.Complete n') ↔
      config.enableVersioning = true ∨ call.isRelated = true ∨
        ∀ n', Affects config n cascade n' → ∀ x e, s.entry n' x = some e → e.value = none := by
  obtain ⟨since, hl⟩ := exec_leads hrun
  have hproper : s.Proper := (proper_new config start).later hl
  have hconfig : s.config = config := hl.config
  subst hconfig
  constructor
  · intro hcomplete
    by_cases hv : s.config.enableVersioning = true
    · exact .inl hv
    rw [Bool.not_eq_true] at hv
    cases call with
    | invalidateRelated n₁ key cascade₁ => exact .inr (.inl rfl)
    | incrementNamespaceVersion n₁ cascade₁ =>
        refine .inr (.inr fun n' ha x e he => ?_)
        refine (hcomplete n' ha).no_value ?_ (x := x) ?_
        · have hlater := incrementNamespaceVersion_later s now n₁ cascade₁
          exact (hlater.versioning n').trans ((hproper.uniform n').trans hv)
        · exact (incrementNamespaceVersion_entry now cascade₁ n' x).trans he
    | _ => cases hcall
  · intro hcond n' ha
    refine Expelled.complete ?_
    have hsettled : (∀ n', Affects s.config n cascade n' → ∀ x e, s.entry n' x = some e →
        e.value = none) → s.Expelled n' := fun hnone m key e _ he => hnone n' ha _ e he
    cases call with
    | invalidateRelated n₁ key cascade₁ =>
        have hkey : key.getD [] = [] ∧ n₁ = n ∧ cascade₁ = cascade := by
          rcases key with _ | _ | ⟨c, cs⟩
          · cases hcall
            exact ⟨rfl, rfl, rfl⟩
          · cases hcall
            exact ⟨rfl, rfl, rfl⟩
          · cases hcall
        obtain ⟨hkey, rfl, rfl⟩ := hkey
        exact hproper.expelled_invalidateRelated now hkey ha
    | incrementNamespaceVersion n₁ cascade₁ =>
        cases hcall
        rcases hcond with hv | hrelated | hnone
        · exact hproper.expelled_incrementNamespaceVersion hv now ha
        · exact absurd hrelated Bool.false_ne_true
        · exact (hsettled hnone).later (incrementNamespaceVersion_later s now n cascade)
    | _ => cases hcall

end Completeness

/-- A value under the key `k`, and then a raised version. -/
def raisedAfterStore (config : CacheConfig) (n : CacheNamespace) : CacheManager ℕ :=
  let stored := ((new config fun _ => 0).perform (fun _ => 1) (.set n ['k'] (some 7) .useDefault)).1
  (stored.perform (fun _ => 2) (.incrementNamespaceVersion .link true)).1

theorem raised_complete : (raisedAfterStore {} .proxy).Complete .proxy := by
  have hall := (invalidation_complete_iff {} (fun _ => 0)
    [(fun _ => 1, .set .proxy ['k'] (some 7) .useDefault)] rfl (fun _ => 2)
      (rfl : (Call.incrementNamespaceVersion .link true).invalidates = _)).mpr (.inl rfl)
  exact hall .proxy (.inr ⟨rfl, rfl, by decide⟩)

/-- Without versions the value is returned after the version was raised. -/
theorem value_survives :
    ¬ (raisedAfterStore { enableVersioning := false } .link).Complete .link := by
  intro h
  have hreturned : ((raisedAfterStore { enableVersioning := false } .link).get 3 .link ['k']).1 =
      some 7 := by decide +kernel
  have hmem := h [] _ rfl (fun _ => 3) (.get .link ['k']) ['k'] 7 ⟨rfl, rfl, hreturned⟩
  have hnone : ((raisedAfterStore { enableVersioning := false } .link).perform (fun _ => 3)
      (.get .link ['k'])).1.stored.drop
        (raisedAfterStore { enableVersioning := false } .link).stored.length = [] := by
    decide +kernel
  rw [hnone] at hmem
  cases hmem

end CacheManager

end SmartMedia.Cache
