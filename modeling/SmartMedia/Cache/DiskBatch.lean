import SmartMedia.Cache.Layers
import SmartMedia.Library.ExpiringMap

/-!
# The disk cache: batches and cleanup

`get_many`, `set_many`, `exists` and the cleanup of `app/services/disk_cache.py`. `readable` and
`serializable` tell for which keys the data can be read back and written. A batch is the loop of
its single calls, and a cleanup goes unnoticed by everybody who reads the clock behind it.
-/
namespace SmartMedia.Cache
open ExpiringMap

variable {V : Type}

namespace DiskCache

/-- A row is read as long as it has not expired. -/
def fresh (now : ℚ) (row : Row V) : Bool := !expired now row

/-- The row that `get_many` finds for a key: `results` and `expired_keys` are made of these. -/
def getMany (c : DiskCache V) (now : ℚ) (keys : List Key) (readable : Key → Bool) (ok : Bool) :
    (Key → Option (Option V)) × DiskCache V :=
  if keys = [] ∨ ok = false then (fun _ => none, c)
  else
    (fun key =>
      if keys.contains key && readable key then ((c.rows key).filter (fresh now)).map (·.value)
      else none,
     { c with rows := fun key =>
        if keys.contains key then (c.rows key).filter (fresh now) else c.rows key })

/-- `INSERT OR REPLACE` of a row. -/
def insert (c : DiskCache V) (key : Key) (row : Row V) : DiskCache V :=
  { c with rows := Function.update c.rows key (some row) }

/-- The loop of `set_many`. -/
def insertMany (c : DiskCache V) (expiresAt : Option ℚ) (serializable : Key → Bool) :
    List (Key × Option V) → ℕ → ℕ × DiskCache V
  | [], successCount => (successCount, c)
  | (key, value) :: items, successCount =>
      if serializable key then
        (c.insert key ⟨value, expiresAt⟩).insertMany expiresAt serializable items (successCount + 1)
      else c.insertMany expiresAt serializable items successCount

/-- Without its `commit` no row is written. -/
def setMany (c : DiskCache V) (now : ℚ) (items : List (Key × Option V)) (ttl : Option ℚ)
    (serializable : Key → Bool) (ok : Bool) : ℕ × DiskCache V :=
  if items = [] ∨ ok = false then (0, c)
  else c.insertMany (c.expiry now ttl) serializable items 0

/-- `exists`, which asks for a time behind `now`. -/
def keyExists (c : DiskCache V) (now : ℚ) (key : Key) (ok : Bool) : Bool :=
  ok && (c.rows key).any fun row => row.expiresAt.all fun expiresAt => now < expiresAt

end DiskCache

/-- The calls of a disk cache; each reads the clock once. -/
inductive DiskCall (V : Type)
  | get (key : Key) (ok : Bool)
  | set (key : Key) (value : Option V) (ttl : Option ℚ) (ok : Bool)
  | delete (key : Key) (ok : Bool)
  | clear (ok : Bool)
  | cleanupExpired (ok : Bool)
  | keyExists (key : Key) (ok : Bool)
  | getMany (keys : List Key) (readable : Key → Bool) (ok : Bool)
  | setMany (items : List (Key × Option V)) (ttl : Option ℚ) (serializable : Key → Bool) (ok : Bool)

/-- What a call returns; the numbers of deleted rows are left out. -/
inductive DiskAnswer (V : Type)
  | value (v : Option V)
  | flag (b : Bool)
  | values (results : Key → Option (Option V))
  | count (n : ℕ)
  | done

namespace DiskCall

def apply (now : ℚ) (c : DiskCache V) : DiskCall V → DiskAnswer V × DiskCache V
  | .get key ok => (.value (c.get now key ok).1, (c.get now key ok).2)
  | .set key value ttl ok => (.flag ok, c.set now key value ttl ok)
  | .delete key ok => (.done, c.delete key ok)
  | .clear ok => (.flag ok, c.clear ok)
  | .cleanupExpired ok => (.done, c.cleanupExpired now ok)
  | .keyExists key ok => (.flag (c.keyExists now key ok), c)
  | .getMany keys readable ok =>
      (.values (c.getMany now keys readable ok).1, (c.getMany now keys readable ok).2)
  | .setMany items ttl serializable ok =>
      (.count (c.setMany now items ttl serializable ok).1, (c.setMany now items ttl serializable ok).2)

/-- The calls whose answers depend on what is stored. -/
def isRead : DiskCall V → Bool
  | .get .. | .keyExists .. | .getMany .. => true
  | _ => false

def isCleanup : DiskCall V → Bool
  | .cleanupExpired _ => true
  | _ => false

end DiskCall

namespace DiskCache

/-- The answers to the calls that are no cleanups, each with the time that it read. -/
def answers (c : DiskCache V) : List (ℚ × DiskCall V) → List (DiskAnswer V)
  | [] => []
  | (now, call) :: calls =>
      let answered := call.apply now c
      if call.isCleanup then answers answered.2 calls else answered.1 :: answers answered.2 calls

def withoutCleanups (calls : List (ℚ × DiskCall V)) : List (ℚ × DiskCall V) :=
  calls.filter fun call => !call.2.isCleanup

/-- No call that reads has read the clock before a call that it comes after. -/
def Timely (calls : List (ℚ × DiskCall V)) : Prop :=
  calls.Pairwise fun call later => later.2.isRead = true → call.1 ≤ later.1

/-- `get` for one key after the other. -/
def gets (c : DiskCache V) (now : ℚ) (readable : Key → Bool) : List Key → List (Option V) × DiskCache V
  | [] => ([], c)
  | key :: keys =>
      let got := c.get now key true
      let rest := got.2.gets now readable keys
      (got.1.filter (fun _ => readable key) :: rest.1, rest.2)

/-- `set` for one item after the other. -/
def sets (c : DiskCache V) (now : ℚ) (ttl : Option ℚ) (serializable : Key → Bool)
    (items : List (Key × Option V)) : DiskCache V :=
  items.foldl (fun c item => c.set now item.1 item.2 ttl (serializable item.1)) c

section Reading
variable {c c' : DiskCache V} {now : ℚ} {key k : Key} {keys : List Key} {ok : Bool}
  {readable : Key → Bool} {P : ℚ → Prop}

theorem fresh_expires : Expires (fresh (V := V)) := by
  intro s t row hst ht
  rw [fresh, expired] at ht ⊢
  cases hexpires : row.expiresAt with
  | none => rfl
  | some expiresAt =>
      rw [hexpires, Option.any_some, Bool.not_eq_true', decide_eq_false_iff_not, not_lt] at ht
      rw [Option.any_some, Bool.not_eq_true', decide_eq_false_iff_not, not_lt]
      exact hst.trans ht

/-- What `get` returns is what a reader sees. -/
theorem get_fst : (c.get now key ok).1 =
    if ok then (view fresh now c.rows key).bind (·.value) else none := by
  rw [get, view]
  cases c.rows key with
  | none => split_ifs <;> rfl
  | some row =>
      dsimp only
      cases ok with
      | false => rfl
      | true =>
          rw [Option.filter_some, fresh]
          cases expired now row <;> rfl

theorem get_pruned (k : Key) : (c.get now key ok).2.rows k = c.rows k ∨
    (c.get now key ok).2.rows k = (c.rows k).filter (fresh now) := by
  rw [get]
  cases hrow : c.rows key with
  | none => exact .inl rfl
  | some row =>
      dsimp only
      split_ifs with hok hexpired
      · exact .inl rfl
      · dsimp only
        by_cases hk : k = key
        · right
          rw [hk, hrow, Function.update_self, Option.filter_some, fresh, hexpired]
          rfl
        · exact .inl (Function.update_of_ne hk _ _)
      · exact .inl rfl

theorem get_rows_of_ok : (c.get now key true).2.rows =
    Function.update c.rows key ((c.rows key).filter (fresh now)) := by
  rw [get]
  cases hrow : c.rows key with
  | none =>
      have hsame : Function.update c.rows key none = c.rows := by rw [← hrow, Function.update_eq_self]
      exact hsame.symm
  | some row =>
      dsimp only
      rw [if_neg (by simp), Option.filter_some, fresh]
      cases hexpired : expired now row with
      | true => rfl
      | false =>
          rw [if_neg Bool.false_ne_true]
          change c.rows = Function.update c.rows key (some row)
          rw [← hrow, Function.update_eq_self]

theorem get_defaultTtl : (c.get now key ok).2.defaultTtl = c.defaultTtl := by
  rw [get]
  cases c.rows key with
  | none => rfl
  | some row =>
      dsimp only
      split_ifs <;> rfl

theorem any_filter {α : Type} {p q : α → Bool} (h : ∀ a, q a = true → p a = true) (x : Option α) :
    (x.filter p).any q = x.any q := by
  cases x with
  | none => rfl
  | some a =>
      rw [Option.filter_some]
      split_ifs with hp
      · rfl
      · exact (Bool.eq_false_iff.mpr fun hq => hp (h a hq)).symm

theorem keyExists_eq : c.keyExists now key ok =
    (ok && (view fresh now c.rows key).any fun row => row.expiresAt.all fun expiresAt => now < expiresAt) := by
  rw [keyExists, view, any_filter]
  intro row hrow
  rw [fresh, expired]
  cases hexpires : row.expiresAt with
  | none => rfl
  | some expiresAt =>
      rw [hexpires, Option.all_some, decide_eq_true_eq] at hrow
      rw [Option.any_some, decide_eq_false (not_lt.mpr hrow.le)]
      rfl

/-- Two caches that later readers cannot tell apart. -/
structure Alike (P : ℚ → Prop) (c c' : DiskCache V) : Prop where
  defaultTtl : c.defaultTtl = c'.defaultTtl
  rows : Agree fresh P c.rows c'.rows

/-- Rows that have expired are taken away on both sides. -/
theorem Alike.pruned {d d' : DiskCache V} (h : Alike P c c') (hd : d.defaultTtl = c.defaultTtl)
    (hd' : d'.defaultTtl = c'.defaultTtl)
    (hrows : ∀ k, d.rows k = c.rows k ∨ d.rows k = (c.rows k).filter (fresh now))
    (hrows' : ∀ k, d'.rows k = c'.rows k ∨ d'.rows k = (c'.rows k).filter (fresh now)) :
    Alike (fun t => P t ∧ now ≤ t) d d' := by
  refine ⟨by rw [hd, hd', h.defaultTtl], ?_⟩
  have hleft := h.rows.of_pruned fresh_expires hrows
  have hboth := hleft.symm.of_pruned fresh_expires hrows'
  exact hboth.symm.mono fun t ht => ⟨ht, ht.2⟩

theorem Alike.mono {Q : ℚ → Prop} (h : Alike P c c') (hPQ : ∀ t, Q t → P t) : Alike Q c c' :=
  ⟨h.defaultTtl, h.rows.mono hPQ⟩

end Reading

section Calls
variable {c c' : DiskCache V} {now : ℚ} {key : Key} {keys : List Key} {ok : Bool} {P : ℚ → Prop}
  {readable serializable : Key → Bool} {ttl expiresAt : Option ℚ} {value : Option V}
  {items : List (Key × Option V)} {call : DiskCall V}

theorem Alike.insert (h : Alike P c c') (key : Key) (row : Row V) :
    Alike P (c.insert key row) (c'.insert key row) :=
  ⟨h.defaultTtl, h.rows.update key (some row)⟩

theorem Alike.expiry (h : Alike P c c') : c.expiry now ttl = c'.expiry now ttl := by
  rw [DiskCache.expiry, DiskCache.expiry, h.defaultTtl]

theorem Alike.insertMany (h : Alike P c c') (n : ℕ) :
    (c.insertMany expiresAt serializable items n).1 = (c'.insertMany expiresAt serializable items n).1 ∧
      Alike P (c.insertMany expiresAt serializable items n).2
        (c'.insertMany expiresAt serializable items n).2 := by
  induction items generalizing c c' n with
  | nil => exact ⟨rfl, h⟩
  | cons item items ih =>
      obtain ⟨key, value⟩ := item
      rw [DiskCache.insertMany, DiskCache.insertMany]
      split_ifs
      · exact ih (h.insert key ⟨value, expiresAt⟩) (n + 1)
      · exact ih h n

theorem Alike.set (h : Alike P c c') :
    Alike P (c.set now key value ttl ok) (c'.set now key value ttl ok) := by
  rw [DiskCache.set, DiskCache.set, h.expiry]
  split_ifs
  · exact h.insert key _
  · exact h

theorem Alike.delete (h : Alike P c c') : Alike P (c.delete key ok) (c'.delete key ok) := by
  rw [DiskCache.delete, DiskCache.delete]
  split_ifs
  · exact ⟨h.defaultTtl, h.rows.update key none⟩
  · exact h

theorem Alike.clear (h : Alike P c c') : Alike P (c.clear ok) (c'.clear ok) := by
  rw [DiskCache.clear, DiskCache.clear]
  split_ifs
  · exact ⟨h.defaultTtl, .refl _⟩
  · exact h

theorem Alike.setMany (h : Alike P c c') :
    (c.setMany now items ttl serializable ok).1 = (c'.setMany now items ttl serializable ok).1 ∧
      Alike P (c.setMany now items ttl serializable ok).2
        (c'.setMany now items ttl serializable ok).2 := by
  rw [DiskCache.setMany, DiskCache.setMany, h.expiry]
  split_ifs
  · exact ⟨rfl, h⟩
  · exact h.insertMany 0

theorem cleanupExpired_pruned (k : Key) : (c.cleanupExpired now ok).rows k = c.rows k ∨
    (c.cleanupExpired now ok).rows k = (c.rows k).filter (fresh now) := by
  rw [cleanupExpired]
  split_ifs
  · exact .inr rfl
  · exact .inl rfl

theorem cleanupExpired_defaultTtl : (c.cleanupExpired now ok).defaultTtl = c.defaultTtl := by
  rw [cleanupExpired]
  split_ifs <;> rfl

theorem getMany_pruned (k : Key) : (c.getMany now keys readable ok).2.rows k = c.rows k ∨
    (c.getMany now keys readable ok).2.rows k = (c.rows k).filter (fresh now) := by
  rw [getMany]
  split_ifs
  · exact .inl rfl
  · dsimp only
    split_ifs
    · exact .inr rfl
    · exact .inl rfl

theorem getMany_defaultTtl : (c.getMany now keys readable ok).2.defaultTtl = c.defaultTtl := by
  rw [getMany]
  split_ifs <;> rfl

/-- A cleanup on one side only. -/
theorem Alike.cleanup_left (h : Alike P c c') :
    Alike (fun t => P t ∧ now ≤ t) (c.cleanupExpired now ok) c' :=
  h.pruned cleanupExpired_defaultTtl rfl cleanupExpired_pruned fun _ => .inl rfl

/-- The same call on both sides: the same answer, when it reads the clock in time. -/
theorem Alike.apply (h : Alike P c c') (hread : call.isRead = true → P now) :
    (call.apply now c).1 = (call.apply now c').1 ∧
      Alike (fun t => P t ∧ now ≤ t) (call.apply now c).2 (call.apply now c').2 := by
  have hview : P now → view fresh now c.rows = view fresh now c'.rows := h.rows now
  have hweak {d d' : DiskCache V} (hd : Alike P d d') : Alike (fun t => P t ∧ now ≤ t) d d' :=
    hd.mono fun _ ht => ht.1
  cases call with
  | get key ok =>
      refine ⟨?_, h.pruned get_defaultTtl get_defaultTtl get_pruned get_pruned⟩
      rw [DiskCall.apply, DiskCall.apply, get_fst, get_fst, hview (hread rfl)]
  | set key value ttl ok => exact ⟨rfl, hweak h.set⟩
  | delete key ok => exact ⟨rfl, hweak h.delete⟩
  | clear ok => exact ⟨rfl, hweak h.clear⟩
  | cleanupExpired ok =>
      exact ⟨rfl, h.pruned cleanupExpired_defaultTtl cleanupExpired_defaultTtl cleanupExpired_pruned
        cleanupExpired_pruned⟩
  | keyExists key ok =>
      refine ⟨?_, hweak h⟩
      rw [DiskCall.apply, DiskCall.apply, keyExists_eq, keyExists_eq, hview (hread rfl)]
  | getMany keys readable ok =>
      refine ⟨?_, h.pruned getMany_defaultTtl getMany_defaultTtl getMany_pruned getMany_pruned⟩
      have hrow (key : Key) : (c.rows key).filter (fresh now) = (c'.rows key).filter (fresh now) :=
        congrFun (hview (hread rfl)) key
      rw [DiskCall.apply, DiskCall.apply, getMany, getMany]
      split_ifs
      · rfl
      · simp only [hrow]
  | setMany items ttl serializable ok =>
      exact ⟨congrArg DiskAnswer.count h.setMany.1, hweak h.setMany.2⟩

theorem Alike.answers {calls : List (ℚ × DiskCall V)} (h : Alike P c c') (htimely : Timely calls)
    (hreads : ∀ call ∈ calls, call.2.isRead = true → P call.1) :
    c.answers calls = c'.answers (withoutCleanups calls) := by
  induction calls generalizing c c' P with
  | nil => rfl
  | cons call calls ih =>
      obtain ⟨now, call⟩ := call
      rw [Timely, List.pairwise_cons] at htimely
      have hlater : ∀ later ∈ calls, later.2.isRead = true → P later.1 ∧ now ≤ later.1 :=
        fun later hmem hread =>
          ⟨hreads later (List.mem_cons_of_mem _ hmem) hread, htimely.1 later hmem hread⟩
      rw [DiskCache.answers, withoutCleanups]
      cases hcall : call.isCleanup with
      | true =>
          rw [List.filter_cons_of_neg (by simp [hcall]), if_pos rfl]
          cases call with
          | cleanupExpired ok => exact ih h.cleanup_left htimely.2 hlater
          | get | set | delete | clear | keyExists | getMany | setMany => cases hcall
      | false =>
          obtain ⟨hanswer, hnext⟩ := h.apply (hreads (now, call) List.mem_cons_self)
          rw [List.filter_cons_of_pos (by simp [hcall]), DiskCache.answers, if_neg Bool.false_ne_true, hcall,
            if_neg Bool.false_ne_true, hanswer]
          exact congrArg _ (ih hnext htimely.2 hlater)

/-- An entry is written, cleaned up after it has expired, and asked for. -/
def expiredEntry : List (ℚ × DiskCall ℕ) :=
  [(0, .set ['k'] (some 1) (some 5) true), (6, .cleanupExpired true), (7, .get ['k'] true)]

/-- After `get` for some keys, as `get_many` leaves the rows. -/
theorem rows_gets : (c.gets now readable keys).2 = { c with
    rows := fun key => if key ∈ keys then (c.rows key).filter (fresh now) else c.rows key } := by
  induction keys generalizing c with
  | nil => rfl
  | cons first keys ih =>
      rw [gets, ih, get_rows_of_ok, get_defaultTtl]
      congr 1
      funext key
      by_cases hfirst : key = first
      · subst hfirst
        rw [Function.update_self, if_pos List.mem_cons_self]
        split_ifs
        · rw [Option.filter_filter]
          simp only [Bool.and_self]
        · rfl
      · rw [Function.update_of_ne hfirst]
        simp only [List.mem_cons, hfirst, false_or]

/-- Each `get` of the loop returns what it would return alone. -/
theorem answers_gets : (c.gets now readable keys).1 =
    keys.map fun key => ((view fresh now c.rows key).bind (·.value)).filter fun _ => readable key := by
  induction keys generalizing c with
  | nil => rfl
  | cons first keys ih =>
      have hview : view fresh now (c.get now first true).2.rows = view fresh now c.rows := by
        have hagree : Agree fresh (fun t => now ≤ t) c.rows (c.get now first true).2.rows :=
          agree_of_pruned fresh_expires get_pruned
        exact (hagree now le_rfl).symm
      rw [gets, ih, hview, get_fst, if_pos rfl, List.map_cons]

theorem join_getMany (hkey : key ∈ keys) :
    ((c.getMany now keys readable true).1 key).join =
      ((view fresh now c.rows key).bind (·.value)).filter fun _ => readable key := by
  rw [getMany, if_neg (by simp [List.ne_nil_of_mem hkey])]
  dsimp only
  rw [view]
  cases hreadable : readable key with
  | true =>
      rw [Bool.and_true, if_pos (List.contains_iff_mem.mpr hkey)]
      cases (c.rows key).filter (fresh now) with
      | none => rfl
      | some row => cases hvalue : row.value <;> simp [hvalue, Option.filter_some]
  | false => simp

theorem insertMany_eq (expiresAt : Option ℚ) (hexpiry : c.expiry now ttl = expiresAt) (n : ℕ) :
    c.insertMany expiresAt serializable items n =
      (n + items.countP (serializable ·.1), c.sets now ttl serializable items) := by
  induction items generalizing c n with
  | nil => rfl
  | cons item items ih =>
      obtain ⟨key, value⟩ := item
      rw [insertMany, sets, List.foldl_cons, List.countP_cons]
      split_ifs with hkey
      · have hset : c.set now key value ttl true = c.insert key ⟨value, expiresAt⟩ := by
          rw [DiskCache.set, if_pos rfl, hexpiry, DiskCache.insert]
        have hinsert : (c.insert key ⟨value, expiresAt⟩).expiry now ttl = expiresAt := hexpiry
        rw [ih hinsert, sets, hkey, hset]
        congr 1
        omega
      · have hset : c.set now key value ttl (serializable key) = c := by
          rw [DiskCache.set, if_neg hkey]
        rw [ih hexpiry, sets, hset]
        rfl

end Calls

end DiskCache

end SmartMedia.Cache
