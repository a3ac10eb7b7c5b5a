import SmartMedia.Cache.LRUCache

/-!
# The two-level LRU cache

`MultiLevelLRUCache` of `app/core/lru_cache.py`. A value that is found in the second level is put
into the first one with a new timestamp, so it may be returned until the TTL of the first level
after that is over. All readings of the clock in one call are the same.
-/
namespace SmartMedia.Cache
open LRUCache

structure LevelStats where
  l1Hits : ℕ := 0
  l2Hits : ℕ := 0
  misses : ℕ := 0

structure MultiLevelLRUCache (V : Type) where
  l1Cache : LRUCache V
  l2Cache : LRUCache V
  stats : LevelStats

namespace MultiLevelLRUCache
variable {V : Type}

section Model

def new (l1Maxsize l2Maxsize : ℤ) (l1Ttl l2Ttl : Option ℚ) : MultiLevelLRUCache V where
  l1Cache := .new l1Maxsize l1Ttl true
  l2Cache := .new l2Maxsize l2Ttl true
  stats := {}

/-- `get`; the value, or the message of what the first level raises. -/
def get (c : MultiLevelLRUCache V) (now : ℚ) (key : Key) :
    Except String (Option V) × MultiLevelLRUCache V :=
  let (value, l1Cache) := c.l1Cache.get now key
  if value.isSome then
    (.ok value, { c with l1Cache, stats := { c.stats with l1Hits := c.stats.l1Hits + 1 } })
  else
    let (value, l2Cache) := c.l2Cache.get now key
    if value.isSome then
      let stats := { c.stats with l2Hits := c.stats.l2Hits + 1 }
      -- the value is promoted to the first level
      match l1Cache.set now key value none with
      | (l1Cache, none) => (.ok value, { l1Cache, l2Cache, stats })
      | (l1Cache, some message) => (.error message, { l1Cache, l2Cache, stats })
    else
      (.ok none, { l1Cache, l2Cache, stats := { c.stats with misses := c.stats.misses + 1 } })

/-- `set`; both levels, unless the first one raises. -/
def set (c : MultiLevelLRUCache V) (now : ℚ) (key : Key) (value : Option V) :
    MultiLevelLRUCache V × Option String :=
  match c.l1Cache.set now key value none with
  | (l1Cache, some message) => ({ c with l1Cache }, some message)
  | (l1Cache, none) =>
      let (l2Cache, error) := c.l2Cache.set now key value none
      ({ c with l1Cache, l2Cache }, error)

end Model

section Histories

inductive Call (V : Type) where
  | get (key : Key)
  | set (key : Key) (value : Option V)

def call (c : MultiLevelLRUCache V) (now : ℚ) : Call V → MultiLevelLRUCache V
  | .get key => (c.get now key).2
  | .set key value => (c.set now key value).1

/-- The calls with their times, the last one in front. -/
abbrev History (V : Type) := List (ℚ × Call V)

def after (c : MultiLevelLRUCache V) : History V → MultiLevelLRUCache V
  | [] => c
  | event :: history => (c.after history).call event.1 event.2

/-- The value and the time of the last `set` of the key. -/
def lastSet (key : Key) : History V → Option (Option V × ℚ)
  | [] => none
  | event :: history =>
      match event.2 with
      | .set k value => if k = key then some (value, event.1) else lastSet key history
      | .get _ => lastSet key history

/-- What a read at any later time returns is the value that was set last, and not older than the
TTL of the second level. -/
def Fresh (start : MultiLevelLRUCache V) (history : History V) : Prop :=
  ∀ now, (∀ event ∈ history, event.1 ≤ now) → ∀ key v,
    ((start.after history).get now key).1 = .ok (some v) →
      ∃ time, lastSet key history = some (some v, time) ∧
        ∀ ttl, start.l2Cache.ttl = some ttl → now - time ≤ ttl

/-- A read finds a value in the second level only, and leaves it in the first one for longer than it
has left in the second. -/
def PromotesLate (c : MultiLevelLRUCache V) (now : ℚ) (key : Key) : Prop :=
  (c.l1Cache.get now key).1 = none ∧ (c.l2Cache.get now key).1.isSome = true ∧
    ∃ e l1Ttl l2Ttl, c.l2Cache.cache.lookup key = some e ∧ c.l1Cache.ttl = some l1Ttl ∧
      c.l2Cache.ttl = some l2Ttl ∧ l2Ttl < now - e.timestamp + l1Ttl

end Histories

section Cases
variable {c : MultiLevelLRUCache V} {now : ℚ} {key k : Key} {value : Option V} {e : Entry V}

/-- A read that is answered by the first level, by the second one, or by none. -/
theorem get_cases (c : MultiLevelLRUCache V) (now : ℚ) (key : Key) :
    (∃ v, (c.l1Cache.get now key).1 = some v ∧ (c.get now key).1 = .ok (some v) ∧
      (c.get now key).2.l1Cache = (c.l1Cache.get now key).2 ∧
      (c.get now key).2.l2Cache = c.l2Cache) ∨
    (∃ v, (c.l1Cache.get now key).1 = none ∧ (c.l2Cache.get now key).1 = some v ∧
      ((c.get now key).1 = .ok (some v) ∨ ∃ message, (c.get now key).1 = .error message) ∧
      (c.get now key).2.l1Cache = ((c.l1Cache.get now key).2.set now key (some v) none).1 ∧
      (c.get now key).2.l2Cache = (c.l2Cache.get now key).2) ∨
    ((c.l1Cache.get now key).1 = none ∧ (c.l2Cache.get now key).1 = none ∧
      (c.get now key).1 = .ok none ∧ (c.get now key).2.l1Cache = (c.l1Cache.get now key).2 ∧
      (c.get now key).2.l2Cache = (c.l2Cache.get now key).2) := by
  rw [get]
  cases hfirst : (c.l1Cache.get now key).1 with
  | some v => exact .inl ⟨v, rfl, by simp [hfirst]⟩
  | none =>
      right
      cases hsecond : (c.l2Cache.get now key).1 with
      | none => exact .inr (by simp [hfirst, hsecond])
      | some v =>
          refine .inl ⟨v, rfl, rfl, ?_⟩
          rcases hset : (c.l1Cache.get now key).2.set now key (some v) none with ⟨l1Cache, _ | message⟩
          · simp [hfirst, hsecond, hset]
          · simp [hfirst, hsecond, hset]

theorem set_cases (c : MultiLevelLRUCache V) (now : ℚ) (key : Key) (value : Option V) :
    (c.set now key value).1.l1Cache = (c.l1Cache.set now key value none).1 ∧
      ((c.l1Cache.set now key value none).2 = none ∧
          (c.set now key value).1.l2Cache = (c.l2Cache.set now key value none).1 ∨
        (c.l1Cache.set now key value none).2 ≠ none ∧
          (c.set now key value).1.l2Cache = c.l2Cache) := by
  rw [set]
  rcases hset : c.l1Cache.set now key value none with ⟨l1Cache, _ | message⟩
  · simp
  · simp

end Cases

section Invariant
variable {start : MultiLevelLRUCache V} {history : History V} {now : ℚ} {key k : Key}
  {value : Option V}

/-- How the levels are related to the history. -/
structure Current (start : MultiLevelLRUCache V) (history : History V) : Prop where
  l1_ttl : (start.after history).l1Cache.ttl = start.l1Cache.ttl
  l2_ttl : (start.after history).l2Cache.ttl = start.l2Cache.ttl
  l1_maxsize : (start.after history).l1Cache.maxsize = start.l1Cache.maxsize
  l1_current : ∀ k e, (start.after history).l1Cache.cache.lookup k = some e →
    e.ttl = none ∧ ∃ time, lastSet k history = some (e.value, time)
  l2_current : ∀ k e, (start.after history).l2Cache.cache.lookup k = some e →
    e.ttl = none ∧ lastSet k history = some (e.value, e.timestamp)
  /-- A first level without room raises before the second one gets anything. -/
  empty : start.l1Cache.maxsize ≤ 0 → ∀ k, (start.after history).l1Cache.cache.lookup k = none ∧
    (start.after history).l2Cache.cache.lookup k = none

theorem current_new (l1Maxsize l2Maxsize : ℤ) (l1Ttl l2Ttl : Option ℚ) :
    Current (new l1Maxsize l2Maxsize l1Ttl l2Ttl : MultiLevelLRUCache V) [] where
  l1_ttl := rfl
  l2_ttl := rfl
  l1_maxsize := rfl
  l1_current := fun k e h => by cases h
  l2_current := fun k e h => by cases h
  empty := fun _ k => ⟨rfl, rfl⟩

/-- What is left to show of the levels after a call. -/
theorem Current.of_levels {event : ℚ × Call V} {l1Cache l2Cache : LRUCache V}
    (hl1 : (start.after (event :: history)).l1Cache = l1Cache)
    (hl2 : (start.after (event :: history)).l2Cache = l2Cache)
    (hconfig : l1Cache.ttl = start.l1Cache.ttl ∧ l2Cache.ttl = start.l2Cache.ttl ∧
      l1Cache.maxsize = start.l1Cache.maxsize)
    (hcurrent : ∀ k e, l1Cache.cache.lookup k = some e →
      e.ttl = none ∧ ∃ time, lastSet k (event :: history) = some (e.value, time))
    (hcurrent' : ∀ k e, l2Cache.cache.lookup k = some e →
      e.ttl = none ∧ lastSet k (event :: history) = some (e.value, e.timestamp))
    (hempty : start.l1Cache.maxsize ≤ 0 → ∀ k,
      l1Cache.cache.lookup k = none ∧ l2Cache.cache.lookup k = none) :
    Current start (event :: history) := by
  subst hl1 hl2
  exact ⟨hconfig.1, hconfig.2.1, hconfig.2.2, hcurrent, hcurrent', hempty⟩

theorem lookup_none_of_get {c : LRUCache V} (h : c.cache.lookup k = none) :
    (c.get now key).2.cache.lookup k = none := by
  by_contra hsome
  obtain ⟨e, he⟩ := Option.ne_none_iff_exists'.mp hsome
  rw [lookup_get_of_some he] at h
  cases h

/-- A cache without room stays empty, and a `set` raises. -/
theorem set_raises {c : LRUCache V} {ttl : Option ℚ} (hsize : c.maxsize ≤ 0)
    (hempty : ∀ k, c.cache.lookup k = none) :
    (c.set now key value ttl).2 ≠ none ∧
      ∀ k, (c.set now key value ttl).1.cache.lookup k = none := by
  have herase : ∀ k, (c.cache.erase key).lookup k = none := by
    intro k
    by_contra hsome
    obtain ⟨e, he⟩ := Option.ne_none_iff_exists'.mp hsome
    have hold := lookup_erase_of_some he
    rw [hempty k] at hold
    cases hold
  have hroom : ¬ ((c.cache.erase key).entries.length : ℤ) < c.maxsize := by omega
  have hlast : (c.cache.erase key).keys.getLast? = none := by
    by_contra hsome
    obtain ⟨oldest, holdest⟩ := Option.ne_none_iff_exists'.mp hsome
    have hmem := AList.lookup_isSome.mpr (AList.mem_keys.mpr (List.mem_of_getLast? holdest))
    rw [herase oldest] at hmem
    cases hmem
  simp only [LRUCache.set, if_neg hroom, hlast]
  exact ⟨Option.some_ne_none _, herase⟩

theorem Current.get (h : Current start history) (now : ℚ) (key : Key) :
    Current start ((now, .get key) :: history) := by
  have hl1 : ∀ k e, ((start.after history).l1Cache.get now key).2.cache.lookup k = some e →
      e.ttl = none ∧ ∃ time, lastSet k history = some (e.value, time) :=
    fun k e he => h.l1_current k e (lookup_get_of_some he)
  have hl2 : ∀ k e, ((start.after history).l2Cache.get now key).2.cache.lookup k = some e →
      e.ttl = none ∧ lastSet k history = some (e.value, e.timestamp) :=
    fun k e he => h.l2_current k e (lookup_get_of_some he)
  rcases get_cases (start.after history) now key with ⟨v, -, -, hfirst, hsecond⟩ |
    ⟨v, -, hv, -, hfirst, hsecond⟩ | ⟨-, -, -, hfirst, hsecond⟩
  · exact .of_levels hfirst hsecond
      ⟨get_ttl.trans h.l1_ttl, h.l2_ttl, get_maxsize.trans h.l1_maxsize⟩ hl1 h.l2_current
      fun hsize k => ⟨lookup_none_of_get (h.empty hsize k).1, (h.empty hsize k).2⟩
  · refine .of_levels hfirst hsecond ⟨set_ttl.trans (get_ttl.trans h.l1_ttl),
      get_ttl.trans h.l2_ttl, set_maxsize.trans (get_maxsize.trans h.l1_maxsize)⟩ ?_ hl2 ?_
    · intro k e he
      rcases lookup_set_of_some he with hold | ⟨rfl, rfl, -⟩
      · exact hl1 k e hold
      · -- the promoted value is the one that the second level has
        obtain ⟨e, he, hvalue⟩ := lookup_of_get hv
        refine ⟨rfl, e.timestamp, ?_⟩
        have hlast := (h.l2_current k e he).2
        rw [hvalue] at hlast
        exact hlast
    · intro hsize
      obtain ⟨e, he, -⟩ := lookup_of_get hv
      rw [(h.empty hsize key).2] at he
      cases he
  · exact .of_levels hfirst hsecond ⟨get_ttl.trans h.l1_ttl, get_ttl.trans h.l2_ttl,
      get_maxsize.trans h.l1_maxsize⟩ hl1 hl2
      fun hsize k => ⟨lookup_none_of_get (h.empty hsize k).1, lookup_none_of_get (h.empty hsize k).2⟩

theorem Current.set (h : Current start history) (now : ℚ) (key : Key) (value : Option V) :
    Current start ((now, .set key value) :: history) := by
  have hlast : ∀ k, lastSet k ((now, .set key value) :: history) =
      if key = k then some (value, now) else lastSet k history := fun k => rfl
  obtain ⟨hfirst, hsecond⟩ := set_cases (start.after history) now key value
  have hl1 : ∀ k e, ((start.after history).l1Cache.set now key value none).1.cache.lookup k =
      some e → e.ttl = none ∧
        ∃ time, lastSet k ((now, .set key value) :: history) = some (e.value, time) := by
    intro k e he
    rw [hlast]
    by_cases hkey : key = k
    · subst hkey
      obtain rfl := lookup_set_self he
      exact ⟨rfl, now, if_pos rfl⟩
    · rw [if_neg hkey]
      rcases lookup_set_of_some he with hold | ⟨heq, -, -⟩
      · exact h.l1_current k e hold
      · exact absurd heq.symm hkey
  rcases hsecond with ⟨hdone, hsecond⟩ | ⟨hraised, hsecond⟩
  · refine .of_levels hfirst hsecond ⟨set_ttl.trans h.l1_ttl, set_ttl.trans h.l2_ttl,
      set_maxsize.trans h.l1_maxsize⟩ hl1 ?_ ?_
    · intro k e he
      rw [hlast]
      by_cases hkey : key = k
      · subst hkey
        obtain rfl := lookup_set_self he
        exact ⟨rfl, if_pos rfl⟩
      · rw [if_neg hkey]
        rcases lookup_set_of_some he with hold | ⟨heq, -, -⟩
        · exact h.l2_current k e hold
        · exact absurd heq.symm hkey
    · intro hsize
      have hl1size : (start.after history).l1Cache.maxsize ≤ 0 := h.l1_maxsize.trans_le hsize
      exact absurd hdone (set_raises hl1size fun k => (h.empty hsize k).1).1
  · have hsize : start.l1Cache.maxsize ≤ 0 := by
      by_contra hpos
      refine hraised (set_done_of_pos ?_)
      rw [h.l1_maxsize]
      exact not_le.mp hpos
    refine .of_levels hfirst hsecond ⟨set_ttl.trans h.l1_ttl, h.l2_ttl,
      set_maxsize.trans h.l1_maxsize⟩ hl1 ?_ fun hsize k => ⟨?_, (h.empty hsize k).2⟩
    · intro k e he
      rw [(h.empty hsize k).2] at he
      cases he
    · exact (set_raises (h.l1_maxsize.trans_le hsize) fun k => (h.empty hsize k).1).2 k

theorem current_after (l1Maxsize l2Maxsize : ℤ) (l1Ttl l2Ttl : Option ℚ) (history : History V) :
    Current (new l1Maxsize l2Maxsize l1Ttl l2Ttl) history := by
  induction history with
  | nil => exact current_new l1Maxsize l2Maxsize l1Ttl l2Ttl
  | cons event history ih =>
      obtain ⟨now, a⟩ := event
      cases a with
      | get key => exact ih.get now key
      | set key value => exact ih.set now key value

end Invariant

section Ages
variable {start : MultiLevelLRUCache V} {history past : History V} {now : ℚ} {key : Key}

/-- The first TTL is not the longer one; none is the longest. -/
def TtlLe (l1Ttl l2Ttl : Option ℚ) : Prop := ∀ t, l2Ttl = some t → ∃ s, l1Ttl = some s ∧ s ≤ t

/-- What is in the first level ends no later than the TTL of the second level after its `set`. -/
def EndsInTime (start : MultiLevelLRUCache V) (history : History V) : Prop :=
  ∀ k e, (start.after history).l1Cache.cache.lookup k = some e →
    ∀ value time, lastSet k history = some (value, time) →
      ∀ s t, start.l1Cache.ttl = some s → start.l2Cache.ttl = some t → e.timestamp - time + s ≤ t

theorem EndsInTime.get (h : EndsInTime start history) (hcurrent : Current start history)
    (hlate : ¬ PromotesLate (start.after history) now key) :
    EndsInTime start ((now, .get key) :: history) := by
  have hold : ∀ k e, ((start.after history).l1Cache.get now key).2.cache.lookup k = some e →
      ∀ value time, lastSet k history = some (value, time) →
        ∀ s t, start.l1Cache.ttl = some s → start.l2Cache.ttl = some t →
          e.timestamp - time + s ≤ t :=
    fun k e he => h k e (lookup_get_of_some he)
  intro k e he
  rw [after, call] at he
  rcases get_cases (start.after history) now key with ⟨v, -, -, hfirst, -⟩ |
    ⟨v, hnone, hv, -, hfirst, -⟩ | ⟨-, -, -, hfirst, -⟩
  · rw [hfirst] at he
    exact hold k e he
  · rw [hfirst] at he
    rcases lookup_set_of_some he with he | ⟨rfl, rfl, -⟩
    · exact hold k e he
    · intro value time hlast s t hs ht
      obtain ⟨e, he, hvalue⟩ := lookup_of_get hv
      have hsecond := (hcurrent.l2_current k e he).2
      rw [lastSet, hsecond] at hlast
      cases hlast
      by_contra hover
      refine hlate ⟨hnone, by rw [hv]; rfl, e, s, t, he, hcurrent.l1_ttl.trans hs,
        hcurrent.l2_ttl.trans ht, not_le.mp hover⟩
  · rw [hfirst] at he
    exact hold k e he

theorem EndsInTime.set (h : EndsInTime start history)
    (httl : TtlLe start.l1Cache.ttl start.l2Cache.ttl) (value : Option V) :
    EndsInTime start ((now, .set key value) :: history) := by
  intro k e he value' time hlast s t hs ht
  have hfirst := (set_cases (start.after history) now key value).1
  rw [after, call, hfirst] at he
  have hlast' : (if key = k then some (value, now) else lastSet k history) = some (value', time) :=
    hlast
  by_cases hkey : key = k
  · subst hkey
    rw [if_pos rfl] at hlast'
    cases hlast'
    obtain rfl := lookup_set_self he
    obtain ⟨s', hs', hle⟩ := httl t ht
    rw [hs] at hs'
    cases hs'
    rwa [sub_self, zero_add]
  · rw [if_neg hkey] at hlast'
    rcases lookup_set_of_some he with hold | ⟨heq, -, -⟩
    · exact h k e hold value' time hlast' s t hs ht
    · exact absurd heq.symm hkey

/-- An entry that a level answers with is not older than the TTL of the level. -/
theorem age_le_of_get {c : LRUCache V} {v : V} {s : ℚ} (hv : (c.get now key).1 = some v)
    (hown : ∀ e, c.cache.lookup key = some e → e.ttl = none) (hs : c.ttl = some s) :
    ∃ e, c.cache.lookup key = some e ∧ e.value = some v ∧ now - e.timestamp ≤ s := by
  obtain ⟨e, he, hvalue, halive⟩ := alive_of_get hv
  refine ⟨e, he, hvalue, ?_⟩
  have hexpiry : c.expiry e = some (e.timestamp + s) := by
    rw [expiry, hown e he, hs]
    rfl
  exact sub_le_iff_le_add'.mpr (le_of_expiry halive hexpiry)

theorem fresh_of_endsInTime (h : EndsInTime start history) (hcurrent : Current start history)
    (httl : TtlLe start.l1Cache.ttl start.l2Cache.ttl) : Fresh start history := by
  intro now _ key v hget
  rcases get_cases (start.after history) now key with ⟨v', hv, hresult, -⟩ |
    ⟨v', -, hv, hresult, -⟩ | ⟨-, -, hresult, -⟩
  · rw [hresult] at hget
    cases hget
    obtain ⟨e, he, hvalue⟩ := lookup_of_get hv
    obtain ⟨-, time, hlast⟩ := hcurrent.l1_current key e he
    refine ⟨time, hvalue ▸ hlast, fun t ht => ?_⟩
    obtain ⟨s, hs, -⟩ := httl t ht
    obtain ⟨e', he', -, hage⟩ := age_le_of_get hv (fun e he => (hcurrent.l1_current key e he).1)
      (hcurrent.l1_ttl.trans hs)
    rw [he] at he'
    cases he'
    have hends := h key e he e.value time hlast s t hs ht
    linarith
  · obtain rfl : v' = v := by
      rcases hresult with hresult | ⟨message, hresult⟩
      · rw [hresult] at hget
        cases hget
        rfl
      · rw [hresult] at hget
        cases hget
    obtain ⟨e, he, hvalue⟩ := lookup_of_get hv
    refine ⟨e.timestamp, hvalue ▸ (hcurrent.l2_current key e he).2, fun t ht => ?_⟩
    obtain ⟨e', he', -, hage⟩ := age_le_of_get hv (fun e he => (hcurrent.l2_current key e he).1)
      (hcurrent.l2_ttl.trans ht)
    rw [he] at he'
    cases he'
    exact hage
  · rw [hresult] at hget
    cases hget

/-- After a late promotion there is a time at which the value is returned too late. -/
theorem not_fresh_of_promotesLate (hcurrent : Current start history)
    (hnow : ∀ event ∈ history, event.1 ≤ now)
    (hlate : PromotesLate (start.after history) now key) :
    ¬ Fresh start ((now, .get key) :: history) := by
  obtain ⟨hnone, hsome, e, s, t, he, hs, ht, hover⟩ := hlate
  obtain ⟨v, hv⟩ := Option.isSome_iff_exists.mp hsome
  obtain ⟨e', he', hvalue, hage⟩ :=
    age_le_of_get hv (fun e he => (hcurrent.l2_current key e he).1) ht
  rw [he] at he'
  cases he'
  have hpos : 0 < start.l1Cache.maxsize := by
    by_contra hsize
    rw [(hcurrent.empty (not_lt.mp hsize) key).2] at he
    cases he
  intro hfresh
  have hset : (((start.after history).l1Cache.get now key).2.set now key (some v) none).2 = none := by
    refine set_done_of_pos ?_
    rw [get_maxsize, hcurrent.l1_maxsize]
    exact hpos
  have hpromoted : (start.after ((now, .get key) :: history)).l1Cache =
      (((start.after history).l1Cache.get now key).2.set now key (some v) none).1 := by
    rcases get_cases (start.after history) now key with ⟨v', hv', -⟩ |
      ⟨v', -, hv', -, hfirst, -⟩ | ⟨-, hv', -⟩
    · rw [hnone] at hv'
      cases hv'
    · rw [hv] at hv'
      cases hv'
      exact hfirst
    · rw [hv] at hv'
      cases hv'
  have hlookup := lookup_set_of_done hset
  rw [← hpromoted] at hlookup
  have halive : (start.after ((now, .get key) :: history)).l1Cache.expired (now + s)
      ⟨some v, now, none⟩ = false := by
    have hl1 : (start.after ((now, .get key) :: history)).l1Cache.ttl = some s := by
      rw [hpromoted, set_ttl, get_ttl, hs]
    rw [expired, hl1]
    refine decide_eq_false (not_lt.mpr ?_)
    rw [add_sub_cancel_left]
  have hread : ((start.after ((now, .get key) :: history)).get (now + s) key).1 = .ok (some v) := by
    have hfirst : ((start.after ((now, .get key) :: history)).l1Cache.get (now + s) key).1 = some v := by
      simp only [LRUCache.get, hlookup, halive]
      rfl
    rcases get_cases (start.after ((now, .get key) :: history)) (now + s) key with
      ⟨v', hv', hresult, -⟩ | ⟨v', hv', -⟩ | ⟨hv', -⟩
    · rw [hfirst] at hv'
      cases hv'
      exact hresult
    · rw [hfirst] at hv'
      cases hv'
    · rw [hfirst] at hv'
      cases hv'
  have hs0 : 0 ≤ s := by linarith
  have hbefore : ∀ event ∈ (now, .get key) :: history, event.1 ≤ now + s := by
    intro event hevent
    rcases List.mem_cons.mp hevent with rfl | hevent
    · exact le_add_of_nonneg_right hs0
    · exact (hnow event hevent).trans (le_add_of_nonneg_right hs0)
  obtain ⟨time, hlast, hle⟩ := hfresh (now + s) hbefore key v hread
  have hsecond : lastSet key history = some (some v, time) := hlast
  rw [(hcurrent.l2_current key e he).2] at hsecond
  obtain rfl : e.timestamp = time := (Prod.ext_iff.mp (Option.some_inj.mp hsecond)).2
  have hlimit := hle t (hcurrent.l2_ttl.symm.trans ht)
  linarith

/-- In every state of a run the reads are fresh exactly if no read of the run promotes a value
late. -/
theorem fresh_iff (l1Maxsize l2Maxsize : ℤ) (l1Ttl l2Ttl : Option ℚ) (httl : TtlLe l1Ttl l2Ttl)
    (history : History V)
    (htimes : history.Pairwise fun later earlier => earlier.1 ≤ later.1) :
    (∀ past, past <:+ history → Fresh (new l1Maxsize l2Maxsize l1Ttl l2Ttl) past) ↔
      ∀ past now key, (now, .get key) :: past <:+ history →
        ¬ PromotesLate ((new l1Maxsize l2Maxsize l1Ttl l2Ttl).after past) now key := by
  have hcurrent := current_after (V := V) l1Maxsize l2Maxsize l1Ttl l2Ttl
  constructor
  · intro hfresh past now key hsuffix hlate
    refine not_fresh_of_promotesLate (hcurrent past) (fun event hevent => ?_) hlate
      (hfresh _ hsuffix)
    exact (List.pairwise_cons.mp (htimes.sublist hsuffix.sublist)).1 event hevent
  · intro hlate past hsuffix
    refine fresh_of_endsInTime ?_ (hcurrent past) httl
    induction past with
    | nil => exact fun k e h => by cases h
    | cons event past ih =>
        have hbefore := ih ((List.suffix_cons event past).trans hsuffix)
        obtain ⟨now, a⟩ := event
        cases a with
        | get key => exact hbefore.get (hcurrent past) (hlate past now key hsuffix)
        | set key value => exact hbefore.set httl value

end Ages

section Samples

/-- With the default TTLs, a value is read again 3650 s after it was set. -/
theorem promoted_outlives : ¬ ∀ past : History ℕ,
    past <:+ [(3600, .get ['k']), (0, .set ['k'] (some 7))] →
      Fresh (new 100 1000 (some 60) (some 3600)) past := by
  intro h
  have hfresh := h _ (List.suffix_refl _)
  have hread : (((new 100 1000 (some 60) (some 3600)).after
      [(3600, .get ['k']), (0, .set ['k'] (some 7))]).get 3650 ['k']).1 = .ok (some 7) := by
    decide +kernel
  obtain ⟨time, hlast, hle⟩ := hfresh 3650 (by simp; norm_num) ['k'] 7 hread
  cases hlast
  have hlimit := hle 3600 rfl
  norm_num at hlimit

/-- A value that is promoted early is never returned too late. -/
theorem promotedEarly_fresh :
    Fresh (new 100 1000 (some 60) (some 3600)) [(61, .get ['k']), (0, .set ['k'] (some 7))] := by
  refine (fresh_iff 100 1000 (some 60) (some 3600) ?_ _ (by simp)).mpr ?_ _ (List.suffix_refl _)
  · intro t ht
    cases ht
    exact ⟨60, rfl, by norm_num⟩
  · rintro past now key hsuffix ⟨-, -, e, s, t, he, hs, ht, hover⟩
    rw [List.suffix_cons_iff, List.suffix_cons_iff] at hsuffix
    rcases hsuffix with hfirst | hsecond | hnil
    · cases hfirst
      cases he
      cases hs
      cases ht
      norm_num at hover
    · cases hsecond
    · cases List.suffix_nil.mp hnil

end Samples

end MultiLevelLRUCache

end SmartMedia.Cache
