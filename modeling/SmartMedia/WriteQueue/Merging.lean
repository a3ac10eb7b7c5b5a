import SmartMedia.WriteQueue.DrainOrder

/-!
# Is a merged write the writes it stands for?

A submit with a merge key that waits in the cache leaves its data in the cached task and
nothing else: its operation, model, priority and callback are dropped, and its place in
the heap is that of the first submit. Here the queue is filled by any sequence of submits
and then drained by one worker, with and without the merge keys.
-/
set_option linter.unusedSectionVars false

namespace SmartMedia.WriteQueue

universe u

variable {V : Type u} [DecidableEq V]

/-- `old_task.data.update(data)`. -/
def Write.merge (w : Write V) (data : Data V) : Write V := { w with data := data ∪ w.data }

/-- The submit without its merge key. -/
def Submission.unkeyed (sub : Submission V) : Submission V := { sub with mergeKey := none }

section
variable (subs : List (Submission V))

/-- The write of the `n`-th submit. -/
def writeAt (n : ℕ) : Write V := ((subs[n]?).map Submission.write).getD ⟨.delete, "", ∅⟩

def priorityAt (n : ℕ) : ℤ := ((subs[n]?).map fun sub => sub.priority.value).getD 0

/-- The submit whose task has the data of the `n`-th: the first one with its merge key. -/
def owner (n : ℕ) : ℕ :=
  match (subs[n]?).bind Submission.key with
  | none => n
  | some key => (subs.findIdx? fun sub => sub.key = some key).getD n

/-- The submits that the task of the `o`-th stands for. -/
def chain (o : ℕ) : List ℕ := (List.range subs.length).filter fun n => owner subs n = o

/-- What that task writes. -/
def mergedAt (o : ℕ) : Write V :=
  ((chain subs o).filter (· ≠ o)).foldl (fun w n => w.merge (writeAt subs n).data) (writeAt subs o)

/-- The order in which two tasks leave the heap. -/
def LeavesBefore (i j : ℕ) : Prop :=
  priorityAt subs j < priorityAt subs i ∨ priorityAt subs i = priorityAt subs j ∧ i < j

end

section
variable {subs : List (Submission V)} {sub : Submission V} {n o : ℕ}

theorem getElem?_snoc (h : n < subs.length) : (subs ++ [sub])[n]? = subs[n]? :=
  List.getElem?_append_left h

theorem writeAt_snoc (h : n < subs.length) : writeAt (subs ++ [sub]) n = writeAt subs n := by
  rw [writeAt, writeAt, getElem?_snoc h]

theorem priorityAt_snoc (h : n < subs.length) :
    priorityAt (subs ++ [sub]) n = priorityAt subs n := by
  rw [priorityAt, priorityAt, getElem?_snoc h]

/-- The first submit with a key does not come after the others. -/
theorem owner_le (n : ℕ) : owner subs n ≤ n := by
  rw [owner]
  split
  · exact le_rfl
  · rename_i key hkey
    obtain ⟨sub, hsub, hsome⟩ := Option.bind_eq_some_iff.mp hkey
    cases hfind : subs.findIdx? fun sub => sub.key = some key with
    | none => exact le_rfl
    | some j =>
        rw [Option.getD_some]
        obtain ⟨hj, -, hfirst⟩ := List.findIdx?_eq_some_iff_getElem.mp hfind
        by_contra hlt
        obtain ⟨hn, rfl⟩ := List.getElem?_eq_some_iff.mp hsub
        exact hfirst n (by omega) (decide_eq_true hsome)

theorem owner_snoc (h : n < subs.length) : owner (subs ++ [sub]) n = owner subs n := by
  rw [owner, owner, getElem?_snoc h]
  cases hkey : (subs[n]?).bind Submission.key with
  | none => rfl
  | some key =>
      obtain ⟨sub', hsub, hsome⟩ := Option.bind_eq_some_iff.mp hkey
      have hmem : sub' ∈ subs := List.mem_of_getElem? hsub
      have hfind : (subs.findIdx? fun sub => sub.key = some key).isSome := by
        rw [List.findIdx?_isSome, List.any_eq_true]
        exact ⟨sub', hmem, decide_eq_true hsome⟩
      obtain ⟨j, hj⟩ := Option.isSome_iff_exists.mp hfind
      simp only [List.findIdx?_append, hj, Option.some_or]

/-- The owner of a submit that was absorbed, or not, by what was submitted before. -/
theorem owner_last : owner (subs ++ [sub]) subs.length =
    match sub.key with
    | none => subs.length
    | some key => (subs.findIdx? fun sub => sub.key = some key).getD subs.length := by
  rw [owner, List.getElem?_concat_length, Option.bind_some]
  cases hkey : sub.key with
  | none => rfl
  | some key =>
      simp only [List.findIdx?_append]
      cases subs.findIdx? fun sub => sub.key = some key with
      | some j => rfl
      | none => simp [List.findIdx?_cons, hkey]

theorem chain_snoc : chain (subs ++ [sub]) o =
    chain subs o ++ if owner (subs ++ [sub]) subs.length = o then [subs.length] else [] := by
  rw [chain, chain, List.length_append, List.length_singleton, List.range_succ, List.filter_append]
  refine congrArg₂ _ (List.filter_congr fun n hn => ?_) ?_
  · rw [owner_snoc (List.mem_range.mp hn)]
  · rw [List.filter_singleton]
    simp

theorem mem_chain : n ∈ chain subs o ↔ n < subs.length ∧ owner subs n = o := by
  rw [chain, List.mem_filter, List.mem_range, decide_eq_true_iff]

/-- One more submit, absorbed by the task `o` or not. -/
theorem mergedAt_snoc (ho : o < subs.length) : mergedAt (subs ++ [sub]) o =
    if owner (subs ++ [sub]) subs.length = o then (mergedAt subs o).merge sub.write.data
    else mergedAt subs o := by
  have hold : ((chain subs o).filter (· ≠ o)).foldl
      (fun w n => w.merge (writeAt (subs ++ [sub]) n).data) (writeAt (subs ++ [sub]) o) =
        mergedAt subs o := by
    rw [mergedAt, writeAt_snoc ho]
    refine List.foldl_ext _ _ _ fun w n hn => ?_
    rw [writeAt_snoc (mem_chain.mp (List.mem_of_mem_filter hn)).1]
  rw [mergedAt, chain_snoc, List.filter_append, List.foldl_append, hold]
  split_ifs with howner
  · have hne : subs.length ≠ o := ho.ne'
    have hlast : writeAt (subs ++ [sub]) subs.length = sub.write := by
      rw [writeAt, List.getElem?_concat_length]
      rfl
    rw [List.filter_singleton, decide_eq_true hne]
    simp [hlast]
  · rfl

/-- A submit that nothing was absorbed into yet. -/
theorem mergedAt_last (howner : owner (subs ++ [sub]) subs.length = subs.length) :
    mergedAt (subs ++ [sub]) subs.length = sub.write := by
  have hnone : chain subs subs.length = [] := by
    refine List.filter_eq_nil_iff.mpr fun n hn => ?_
    have hlt := List.mem_range.mp hn
    have hle : owner subs n ≤ n := owner_le n
    simp only [decide_eq_true_eq]
    omega
  rw [mergedAt, chain_snoc, hnone, if_pos howner, writeAt, List.getElem?_concat_length]
  simp

theorem leavesBefore_snoc {i j : ℕ} (hi : i < subs.length) (hj : j < subs.length) :
    LeavesBefore (subs ++ [sub]) i j ↔ LeavesBefore subs i j := by
  rw [LeavesBefore, LeavesBefore, priorityAt_snoc hi, priorityAt_snoc hj]

end

/-- A task that no worker has seen. -/
structure Untouched (t : WriteTask V) (sub : Submission V) : Prop where
  priority : t.priority = -sub.priority.value
  callback : t.callback = sub.callback
  retryCount : t.retryCount = 0
  failed : t.failed = 0
  told : t.told = []

theorem untouched_task (sub : Submission V) (n : ℕ) : Untouched (sub.task n) sub :=
  ⟨rfl, rfl, rfl, rfl, rfl⟩

theorem Untouched.merge {t : WriteTask V} {sub : Submission V} (h : Untouched t sub)
    (data : Data V) : Untouched (t.merge data) sub :=
  ⟨h.priority, h.callback, rfl, h.failed, h.told⟩

/-- Inserting into a list that is in order. -/
theorem pairwise_orderedInsert {r : ℕ → ℕ → Bool} {p : ℕ → ℕ → Prop} {l : List ℕ} {i : ℕ}
    (hl : l.Pairwise p) (hfirst : ∀ j ∈ l, r i j = true → p i j)
    (hlater : ∀ j ∈ l, ¬ r i j = true → p j i)
    (htrans : ∀ j ∈ l, ∀ k ∈ l, p i j → p j k → p i k) :
    (l.orderedInsert (fun i j => r i j) i).Pairwise p := by
  induction l with
  | nil => exact List.pairwise_singleton _ _
  | cons j l ih =>
      rw [List.pairwise_cons] at hl
      rw [List.forall_mem_cons] at hfirst hlater
      rw [List.orderedInsert_cons]
      split_ifs with hr
      · refine List.pairwise_cons.mpr ⟨fun k hk => ?_, List.pairwise_cons.mpr hl⟩
        rcases List.mem_cons.mp hk with rfl | hk
        · exact hfirst.1 hr
        · exact htrans j List.mem_cons_self k (List.mem_cons_of_mem j hk) (hfirst.1 hr) (hl.1 k hk)
      · refine List.pairwise_cons.mpr ⟨fun k hk => ?_, ?_⟩
        · rcases (List.mem_orderedInsert _).mp hk with rfl | hk
          · exact hlater.1 hr
          · exact hl.1 k hk
        · exact ih hl.2 hfirst.2 hlater.2 fun k hk k' hk' =>
            htrans k (List.mem_cons_of_mem j hk) k' (List.mem_cons_of_mem j hk')

namespace AsyncWriteQueue

/-- A sequence of submits. -/
def submitAll (q : AsyncWriteQueue V) (subs : List (Submission V)) : AsyncWriteQueue V :=
  subs.foldl (fun q sub => (q.submit sub).1) q

/-- The queue after these submits: one object for each, in the heap the tasks that own
their data, and the cached keys. -/
structure Filled (subs : List (Submission V)) (q : AsyncWriteQueue V) : Prop where
  running : q.running = true
  length : q.objects.length = subs.length
  object : ∀ n sub, subs[n]? = some sub → ∃ t, q.objects[n]? = some t ∧ Untouched t sub ∧
    t.sequence = n + 1 ∧ (owner subs n = n → t.write = mergedAt subs n)
  mem_queue : ∀ n, n ∈ q.queue ↔ n < subs.length ∧ owner subs n = n
  nodup : q.queue.Nodup
  sorted : q.queue.Pairwise (LeavesBefore subs)
  cache : ∀ key, q.mergeCache.lookup key = subs.findIdx? fun sub => sub.key = some key

variable {q : AsyncWriteQueue V} {subs : List (Submission V)} {sub : Submission V}

theorem Filled.queue_length (h : Filled subs q) : q.queue.length ≤ subs.length := by
  have hsub : q.queue ⊆ List.range subs.length := fun n hn =>
    List.mem_range.mpr ((h.mem_queue n).mp hn).1
  have hle := (List.subperm_of_subset h.nodup hsub).length_le
  rwa [List.length_range] at hle

/-- The fields that a submit leaves alone. -/
theorem submit_frame (q : AsyncWriteQueue V) (sub : Submission V) :
    (q.submit sub).1.workers = q.workers ∧ (q.submit sub).1.db = q.db ∧
      (q.submit sub).1.maxQueueSize = q.maxQueueSize ∧ (q.submit sub).1.batchSize = q.batchSize := by
  have hout := submitted q sub
  generalize q.submit sub = out at hout ⊢
  cases hout with
  | notRunning => exact ⟨rfl, rfl, rfl, rfl⟩
  | merged => exact ⟨rfl, rfl, rfl, rfl⟩
  | full => exact ⟨rfl, rfl, rfl, rfl⟩
  | accepted => exact ⟨rfl, rfl, rfl, rfl⟩

/-- A submit that is absorbed. -/
theorem Filled.merged (h : Filled subs q) {key : String} {j : ℕ} (hkey : sub.key = some key)
    (hlook : q.mergeCache.lookup key = some j) :
    Filled (subs ++ [sub]) ((q.created sub).mergeInto j sub.write.data) := by
  have hfind : (subs.findIdx? fun sub => sub.key = some key) = some j := (h.cache key).symm.trans hlook
  have hj : j < subs.length := (List.findIdx?_eq_some_iff_getElem.mp hfind).1
  have howner : owner (subs ++ [sub]) subs.length = j := by
    rw [owner_last, hkey]
    simp only [hfind, Option.getD_some]
  have hobjects : ∀ n, ((q.created sub).mergeInto j sub.write.data).objects[n]? =
      (q.objects ++ [sub.task (q.objects.length + 1)])[n]?.map fun t =>
        if j = n then t.merge sub.write.data else t := by
    intro n
    show ((q.objects ++ [sub.task (q.objects.length + 1)]).modify j _)[n]? = _
    rw [List.getElem?_modify]
    by_cases hjn : j = n
    · simp [hjn]
    · simp [hjn]
  refine ⟨h.running, ?_, fun n sub' hsub => ?_, fun n => ?_, h.nodup, ?_, fun key' => ?_⟩
  · show ((q.objects ++ [_]).modify j _).length = _
    rw [List.length_modify, List.length_append, List.length_append, h.length]
    rfl
  · rw [hobjects]
    rcases Nat.lt_or_ge n subs.length with hn | hn
    · rw [getElem?_snoc hn] at hsub
      obtain ⟨t, ht, huntouched, hsequence, hwrite⟩ := h.object n sub' hsub
      rw [List.getElem?_append_left (h.length ▸ hn), ht, Option.map_some]
      refine ⟨_, rfl, ?_, ?_, fun hown => ?_⟩
      · split_ifs
        · exact huntouched.merge _
        · exact huntouched
      · split_ifs
        · exact hsequence
        · exact hsequence
      · rw [owner_snoc hn] at hown
        rw [mergedAt_snoc hn, howner, ← hwrite hown]
        split_ifs
        · rfl
        · rfl
    · obtain rfl : n = subs.length := by
        have hlt := (List.getElem?_eq_some_iff.mp hsub).1
        rw [List.length_append, List.length_singleton] at hlt
        omega
      obtain rfl : sub = sub' := by simpa using hsub
      rw [← h.length, List.getElem?_concat_length, Option.map_some, h.length, if_neg hj.ne]
      refine ⟨_, rfl, untouched_task _ _, rfl, fun hown => ?_⟩
      rw [howner] at hown
      exact absurd hown hj.ne
  · show n ∈ q.queue ↔ _
    rw [h.mem_queue, List.length_append, List.length_singleton]
    rcases Nat.lt_or_ge n subs.length with hn | hn
    · rw [owner_snoc hn]
      have hlt : n < subs.length + 1 := by omega
      simp [hn, hlt]
    · constructor
      · intro hmem
        omega
      · rintro ⟨hlt, hown⟩
        obtain rfl : n = subs.length := by omega
        rw [howner] at hown
        omega
  · refine h.sorted.imp_of_mem fun {i k} hi hk hbefore => ?_
    exact (leavesBefore_snoc ((h.mem_queue i).mp hi).1 ((h.mem_queue k).mp hk).1).mpr hbefore
  · show q.mergeCache.lookup key' = _
    rw [h.cache, List.findIdx?_append]
    by_cases hsame : key' = key
    · rw [hsame, hfind]
      rfl
    · have hnone : ([sub].findIdx? fun sub => sub.key = some key') = none := by
        have hne : key ≠ key' := fun he => hsame he.symm
        simp [List.findIdx?_cons, hkey, hne]
      rw [hnone]
      simp

theorem objects_enqueued (n : ℕ) : ((q.cached sub).enqueued q.objects.length).objects[n]? =
    (q.objects ++ [sub.task (q.objects.length + 1)])[n]?.map fun t =>
      if q.objects.length = n then { t with enqueued := true } else t := by
  show ((q.objects ++ [sub.task (q.objects.length + 1)]).modify q.objects.length _)[n]? = _
  rw [List.getElem?_modify]
  by_cases hn : q.objects.length = n
  · simp [hn]
  · simp [hn]

theorem Filled.enqueued_old (h : Filled subs q) {n : ℕ} (hn : n < subs.length) :
    ((q.cached sub).enqueued q.objects.length).objects[n]? = q.objects[n]? := by
  have hne : q.objects.length ≠ n := by
    rw [h.length]
    exact hn.ne'
  rw [objects_enqueued, List.getElem?_append_left (h.length ▸ hn)]
  simp [hne]

theorem Filled.enqueued_last (h : Filled subs q) :
    ((q.cached sub).enqueued q.objects.length).objects[subs.length]? =
      some { sub.task (subs.length + 1) with enqueued := true } := by
  rw [objects_enqueued, ← h.length, List.getElem?_concat_length]
  simp

/-- The new task is compared with the queued ones as the submissions are. -/
theorem Filled.enqueued_before (h : Filled subs q) {j : ℕ} (hj : j ∈ q.queue) :
    ((q.cached sub).enqueued q.objects.length).before subs.length j = true ↔
      LeavesBefore (subs ++ [sub]) subs.length j := by
  have hlt := ((h.mem_queue j).mp hj).1
  obtain ⟨t, ht, huntouched, hsequence, -⟩ := h.object j _ (List.getElem?_eq_getElem hlt)
  have hprio : t.priority = -priorityAt (subs ++ [sub]) j := by
    rw [huntouched.priority, priorityAt_snoc hlt, priorityAt, List.getElem?_eq_getElem hlt]
    rfl
  have hsub : priorityAt (subs ++ [sub]) subs.length = sub.priority.value := by
    rw [priorityAt, List.getElem?_concat_length]
    rfl
  have hnew : (sub.task (subs.length + 1)).priority = -sub.priority.value := rfl
  have hnewSequence : (sub.task (subs.length + 1)).sequence = subs.length + 1 := rfl
  rw [before, h.enqueued_last, h.enqueued_old hlt, ht]
  simp only [WriteTask.before, Bool.or_eq_true, Bool.and_eq_true, decide_eq_true_eq, hnew,
    hnewSequence, hsequence, hprio, LeavesBefore, hsub]
  omega

theorem Filled.enqueued_sorted (h : Filled subs q) :
    ((q.cached sub).enqueued q.objects.length).queue.Pairwise (LeavesBefore (subs ++ [sub])) := by
  have hinsert : ((q.cached sub).enqueued q.objects.length).queue = q.queue.orderedInsert
      (fun i j => ((q.cached sub).enqueued q.objects.length).before i j) subs.length := by
    rw [← h.length]
    rfl
  rw [hinsert]
  refine pairwise_orderedInsert ?_ (fun j hj hr => (h.enqueued_before hj).mp hr) (fun j hj hr => ?_)
    fun j hj k hk hij hjk => ?_
  · refine h.sorted.imp_of_mem fun {i k} hi hk hleaves => ?_
    exact (leavesBefore_snoc ((h.mem_queue i).mp hi).1 ((h.mem_queue k).mp hk).1).mpr hleaves
  · have hlt := ((h.mem_queue j).mp hj).1
    rw [h.enqueued_before hj, LeavesBefore] at hr
    rw [LeavesBefore]
    omega
  · rw [LeavesBefore] at hij hjk ⊢
    omega

/-- A submit that gets a place in the heap. -/
theorem Filled.accepted (h : Filled subs q)
    (hnew : ∀ key, sub.key = some key → q.mergeCache.lookup key = none) :
    Filled (subs ++ [sub]) ((q.cached sub).enqueued q.objects.length) := by
  have howner : owner (subs ++ [sub]) subs.length = subs.length := by
    rw [owner_last]
    cases hkey : sub.key with
    | none => rfl
    | some key =>
        have hnone := hnew key hkey
        rw [h.cache] at hnone
        simp only [hnone, Option.getD_none]
  refine ⟨h.running, ?_, fun n sub' hsub => ?_, fun n => ?_, ?_, h.enqueued_sorted,
    fun key' => ?_⟩
  · show ((q.objects ++ [_]).modify _ _).length = _
    rw [List.length_modify, List.length_append, List.length_append, h.length]
    rfl
  · rcases Nat.lt_or_ge n subs.length with hn | hn
    · rw [getElem?_snoc hn] at hsub
      obtain ⟨t, ht, huntouched, hsequence, hwrite⟩ := h.object n sub' hsub
      refine ⟨t, (h.enqueued_old hn).trans ht, huntouched, hsequence, fun hown => ?_⟩
      rw [owner_snoc hn] at hown
      rw [mergedAt_snoc hn, howner, if_neg hn.ne', hwrite hown]
    · obtain rfl : n = subs.length := by
        have hlt := (List.getElem?_eq_some_iff.mp hsub).1
        rw [List.length_append, List.length_singleton] at hlt
        omega
      obtain rfl : sub = sub' := by simpa using hsub
      refine ⟨_, h.enqueued_last, ⟨rfl, rfl, rfl, rfl, rfl⟩, rfl, fun hown => ?_⟩
      rw [mergedAt_last hown]
      rfl
  · have hmem : n ∈ ((q.cached sub).enqueued q.objects.length).queue ↔
        n = q.objects.length ∨ n ∈ q.queue := List.mem_orderedInsert _
    rw [hmem, h.mem_queue, h.length, List.length_append, List.length_singleton]
    rcases Nat.lt_or_ge n subs.length with hn | hn
    · rw [owner_snoc hn]
      have hlt : n < subs.length + 1 := by omega
      simp [hn, hlt, hn.ne]
    · constructor
      · rintro (rfl | hmem)
        · exact ⟨Nat.lt_succ_self _, howner⟩
        · omega
      · rintro ⟨hlt, -⟩
        omega
  · have hperm : ((q.cached sub).enqueued q.objects.length).queue.Perm (q.objects.length :: q.queue) :=
      List.perm_orderedInsert _ _ _
    rw [hperm.nodup_iff, List.nodup_cons]
    refine ⟨fun hmem => ?_, h.nodup⟩
    have hlt := ((h.mem_queue _).mp hmem).1
    rw [h.length] at hlt
    exact lt_irrefl _ hlt
  · have happend : ((q.cached sub).enqueued q.objects.length).mergeCache =
        q.mergeCache ++ (sub.key.map fun key => (key, q.objects.length)).toList := rfl
    rw [happend, List.lookup_append, h.cache, List.findIdx?_append]
    refine congrArg _ ?_
    cases hkey : sub.key with
    | none => simp [List.findIdx?_cons, hkey]
    | some key =>
        by_cases hsame : key = key'
        · simp [List.findIdx?_cons, hkey, hsame, h.length]
        · have hne : (key' == key) = false := beq_eq_false_iff_ne.mpr (Ne.symm hsame)
          simp [List.findIdx?_cons, List.lookup_cons, hkey, hsame, hne]

theorem Filled.submit (h : Filled subs q) (hroom : subs.length < q.maxQueueSize) :
    Filled (subs ++ [sub]) (q.submit sub).1 ∧ ∃ j, (q.submit sub).2 = .ok j := by
  have hout := submitted q sub
  generalize q.submit sub = out at hout ⊢
  cases hout with
  | notRunning hstopped =>
      rw [h.running] at hstopped
      cases hstopped
  | @merged key j _ hkey hlook => exact ⟨h.merged hkey hlook, j, rfl⟩
  | full _ _ hfull =>
      have hlen := h.queue_length
      omega
  | accepted _ hnew _ => exact ⟨h.accepted hnew, _, rfl⟩

theorem submitAll_snoc (q : AsyncWriteQueue V) (subs : List (Submission V)) (sub : Submission V) :
    q.submitAll (subs ++ [sub]) = ((q.submitAll subs).submit sub).1 := by
  rw [submitAll, List.foldl_append]
  rfl

/-- With room for all, every submit is accepted. -/
theorem filled_submitAll (hq : Filled [] q) (hroom : subs.length ≤ q.maxQueueSize) :
    Filled subs (q.submitAll subs) ∧ (q.submitAll subs).workers = q.workers ∧
      (q.submitAll subs).db = q.db ∧ (q.submitAll subs).maxQueueSize = q.maxQueueSize := by
  induction subs using List.reverseRecOn with
  | nil => exact ⟨hq, rfl, rfl, rfl⟩
  | append_singleton subs sub ih =>
      rw [List.length_append, List.length_singleton] at hroom
      obtain ⟨hfilled, hworkers, hdb, hsize⟩ := ih (by omega)
      obtain ⟨hworkers', hdb', hsize', -⟩ := submit_frame (q.submitAll subs) sub
      rw [submitAll_snoc]
      refine ⟨(hfilled.submit (by omega)).1, hworkers'.trans hworkers, hdb'.trans hdb,
        hsize'.trans hsize⟩

/-- Every submit of the sequence returns a task id. -/
theorem submitAll_accepted {pre post : List (Submission V)} (hq : Filled [] q)
    (hroom : (pre ++ sub :: post).length ≤ q.maxQueueSize) :
    ∃ j, ((q.submitAll pre).submit sub).2 = .ok j := by
  rw [List.length_append, List.length_cons] at hroom
  have hpre : pre.length ≤ q.maxQueueSize := by omega
  obtain ⟨hfilled, -, -, hsize⟩ := filled_submitAll hq hpre
  exact (hfilled.submit (by omega)).2

/-- The queue filled by these submits. -/
def filledQueue (maxQueueSize batchSize maxWorkers : ℕ) (db : String → Table V)
    (subs : List (Submission V)) : AsyncWriteQueue V :=
  (initial maxQueueSize batchSize maxWorkers db).startWorkers.submitAll subs

theorem filled_filledQueue {maxQueueSize batchSize maxWorkers : ℕ} {db : String → Table V}
    (hroom : subs.length ≤ maxQueueSize) :
    Filled subs (filledQueue maxQueueSize batchSize maxWorkers db subs) ∧
      (filledQueue maxQueueSize batchSize maxWorkers db subs).db = db := by
  have hstart : Filled [] (initial maxQueueSize batchSize maxWorkers db).startWorkers := by
    refine ⟨rfl, rfl, fun n sub h => ?_, fun n => ?_, .nil, .nil, fun key => rfl⟩
    · cases h
    · simp [startWorkers, initial]
  obtain ⟨hfilled, -, hdb, -⟩ := filled_submitAll hstart hroom
  exact ⟨hfilled, hdb⟩

theorem Filled.writes (h : Filled subs q) {is : List ℕ} (his : ∀ i ∈ is, i ∈ q.queue) :
    q.writes is = is.map fun i => (i, mergedAt subs i) := by
  induction is with
  | nil => rfl
  | cons i is ih =>
      rw [List.forall_mem_cons] at his
      obtain ⟨hlt, hown⟩ := (h.mem_queue i).mp his.1
      obtain ⟨t, ht, -, -, hwrite⟩ := h.object i _ (List.getElem?_eq_getElem hlt)
      rw [writes_cons ht, ih his.2, List.map_cons, hwrite hown]

theorem Filled.valid (h : Filled subs q) : ∀ i ∈ q.queue, i < q.objects.length := by
  intro i hi
  rw [h.length]
  exact ((h.mem_queue i).mp hi).1

/-- The callbacks: those of the tasks in the heap are called, the others never. -/
theorem Filled.called_iff {models : Models V} {batches : List (List ℕ)} (h : Filled subs q)
    (hsplit : q.Splits batches) (hno : (q.drain models batches).NoFailures) :
    (∀ n < subs.length, (q.drain models batches).Called n) ↔
      ∀ n sub, subs[n]? = some sub → owner subs n ≠ n → sub.callback = false := by
  have hvalid : ∀ i ∈ batches.flatten, i < q.objects.length := hsplit.flatten ▸ h.valid
  have hnodup : batches.flatten.Nodup := hsplit.flatten ▸ h.nodup
  have houtside : ∀ n, owner subs n ≠ n →
      (q.drain models batches).objects[n]? = q.objects[n]? := by
    intro n hown
    refine drain_untouched hvalid fun hmem => hown ?_
    exact ((h.mem_queue n).mp (hsplit.flatten ▸ hmem)).2
  constructor
  · intro hcalled n sub hsub hown
    obtain ⟨t, ht, huntouched, -⟩ := h.object n sub hsub
    have hlt := (List.getElem?_eq_some_iff.mp hsub).1
    by_contra hcallback
    refine hcalled n hlt t ((houtside n hown).trans ht) ?_ huntouched.told
    rw [huntouched.callback]
    simpa using hcallback
  · intro hnone n hn t ht hcallback
    by_cases hown : owner subs n = n
    · have hmem : n ∈ batches.flatten := hsplit.flatten ▸ (h.mem_queue n).mpr ⟨hn, hown⟩
      exact (drain_ok hnodup hvalid hno).2 n hmem t ht hcallback
    · obtain ⟨t', ht', huntouched, -⟩ := h.object n _ (List.getElem?_eq_getElem hn)
      rw [houtside n hown, ht'] at ht
      obtain rfl := Option.some.inj ht
      rw [huntouched.callback, hnone n _ (List.getElem?_eq_getElem hn) hown] at hcallback
      cases hcallback

/-- The table of a model is what the writes of the drained tasks make of it one by one. -/
theorem Filled.table {models : Models V} {batches : List (List ℕ)} {m : String} (h : Filled subs q)
    (hsplit : q.Splits batches) (hno : (q.drain models batches).NoFailures)
    (hsteady : ∀ i ∈ q.queue, (mergedAt subs i).Steady models)
    (hcalm : (∀ i ∈ q.queue, (mergedAt subs i).modelClass = m →
        (mergedAt subs i).waits models = false) ∨
      ∀ i ∈ q.queue, (mergedAt subs i).modelClass = m →
        (mergedAt subs i).commitsItself models = false) :
    (drainOrder models (mergedAt subs) m batches).foldlM
      (fun table i => (mergedAt subs i).alone models table) (q.db m) =
        some ((q.drain models batches).db m) := by
  have hvalid : ∀ i ∈ batches.flatten, i < q.objects.length := hsplit.flatten ▸ h.valid
  have htable := (drain_ok (hsplit.flatten ▸ h.nodup) hvalid hno).1 m
  have hwrites : batches.map q.writes = batches.map fun is => is.map fun i => (i, mergedAt subs i) := by
    refine List.map_congr_left fun is his => h.writes fun i hi => ?_
    rw [← hsplit.flatten]
    exact List.mem_flatten_of_mem his hi
  rw [hwrites] at htable
  rw [← hsplit.flatten] at hsteady hcalm
  exact modelSteps_drainOrder hsteady hcalm htable

end AsyncWriteQueue

end SmartMedia.WriteQueue
