import SmartMedia.WriteQueue.Merging

/-!
# The drained queue with and without merge keys

With the keys the writes of a key move to the place of the first one and become one
write. Both drains apply the same writes to a table when that one write does what they do
one after the other and no two writes of a model that do not commute change places.
-/
set_option linter.unusedSectionVars false

namespace SmartMedia.WriteQueue

universe u

variable {V : Type u} [DecidableEq V]

section
variable {subs : List (Submission V)} {n o : ℕ}

theorem getElem?_unkeyed (subs : List (Submission V)) (n : ℕ) :
    (subs.map Submission.unkeyed)[n]? = (subs[n]?).map Submission.unkeyed := List.getElem?_map

theorem writeAt_unkeyed : writeAt (subs.map Submission.unkeyed) n = writeAt subs n := by
  rw [writeAt, writeAt, getElem?_unkeyed, Option.map_map]
  rfl

theorem priorityAt_unkeyed : priorityAt (subs.map Submission.unkeyed) n = priorityAt subs n := by
  rw [priorityAt, priorityAt, getElem?_unkeyed, Option.map_map]
  rfl

theorem leavesBefore_unkeyed {i j : ℕ} :
    LeavesBefore (subs.map Submission.unkeyed) i j ↔ LeavesBefore subs i j := by
  rw [LeavesBefore, LeavesBefore, priorityAt_unkeyed, priorityAt_unkeyed]

/-- Without keys no submit is absorbed. -/
theorem owner_unkeyed : owner (subs.map Submission.unkeyed) n = n := by
  have hkey : ((subs.map Submission.unkeyed)[n]?).bind Submission.key = none := by
    rw [getElem?_unkeyed]
    cases subs[n]? with
    | none => rfl
    | some sub => rfl
  rw [owner, hkey]

theorem mergedAt_unkeyed : mergedAt (subs.map Submission.unkeyed) n = writeAt subs n := by
  have hnone : (chain (subs.map Submission.unkeyed) n).filter (· ≠ n) = [] := by
    refine List.filter_eq_nil_iff.mpr fun k hk => ?_
    have howner := (mem_chain.mp hk).2
    rw [owner_unkeyed] at howner
    simp [howner]
  rw [mergedAt, hnone, writeAt_unkeyed]
  rfl

/-- The task that a submit went to was not absorbed itself. -/
theorem owner_owner : owner subs (owner subs n) = owner subs n := by
  cases hkey : (subs[n]?).bind Submission.key with
  | none =>
      have hself : owner subs n = n := by rw [owner, hkey]
      rw [hself, hself]
  | some key =>
      have howner : owner subs n = (subs.findIdx? fun sub => sub.key = some key).getD n := by
        rw [owner, hkey]
      cases hfind : subs.findIdx? fun sub => sub.key = some key with
      | none =>
          rw [hfind, Option.getD_none] at howner
          rw [howner, howner]
      | some j =>
          rw [hfind, Option.getD_some] at howner
          obtain ⟨hj, hsome, -⟩ := List.findIdx?_eq_some_iff_getElem.mp hfind
          have hkeyj : (subs[j]?).bind Submission.key = some key := by
            rw [List.getElem?_eq_getElem hj]
            exact of_decide_eq_true hsome
          rw [howner, owner, hkeyj]
          simp only [hfind, Option.getD_some]

/-- A merge keeps the operation and the model. -/
theorem mergedAt_shape (subs : List (Submission V)) (o : ℕ) :
    (mergedAt subs o).operation = (writeAt subs o).operation ∧
      (mergedAt subs o).modelClass = (writeAt subs o).modelClass := by
  have hfold : ∀ (ns : List ℕ) (w : Write V),
      (ns.foldl (fun w n => w.merge (writeAt subs n).data) w).operation = w.operation ∧
        (ns.foldl (fun w n => w.merge (writeAt subs n).data) w).modelClass = w.modelClass := by
    intro ns
    induction ns with
    | nil => exact fun w => ⟨rfl, rfl⟩
    | cons n ns ih => exact fun w => ih (w.merge (writeAt subs n).data)
  exact hfold _ _

theorem waits_mergedAt (models : Models V) :
    (mergedAt subs o).waits models = (writeAt subs o).waits models := by
  obtain ⟨hop, hmodel⟩ := mergedAt_shape subs o
  rw [Write.waits, Write.waits, hop, hmodel]

theorem commitsItself_mergedAt (models : Models V) :
    (mergedAt subs o).commitsItself models = (writeAt subs o).commitsItself models := by
  obtain ⟨hop, hmodel⟩ := mergedAt_shape subs o
  rw [Write.commitsItself, Write.commitsItself, hop, hmodel]

theorem leavesBefore_asymm {i j : ℕ} (h : LeavesBefore subs i j) : ¬ LeavesBefore subs j i := by
  rw [LeavesBefore] at h ⊢
  omega

end

/-- The first task leaves the heap before the second, and its write does not wait longer. -/
def Precedes (models : Models V) (subs : List (Submission V)) (a b : ℕ) : Prop :=
  LeavesBefore subs a b ∧ ((writeAt subs a).waits models = true → (writeAt subs b).waits models = true)

/-- The first write comes before the second, with the keys and without them. -/
def Kept (models : Models V) (subs : List (Submission V)) (a b : ℕ) : Prop :=
  Precedes models subs a b ∧
    if owner subs a = owner subs b then a < b
    else Precedes models subs (owner subs a) (owner subs b)

/-- The keys change nothing: a key has one model, its merged write does what its writes do
one after the other, and writes of one model that change places commute. -/
structure Mergeable (models : Models V) (subs : List (Submission V)) : Prop where
  steady : ∀ n < subs.length, (writeAt subs n).Steady models ∧ (mergedAt subs n).Steady models
  calm : ∀ m, (∀ n < subs.length, (writeAt subs n).modelClass = m →
      (writeAt subs n).waits models = false) ∨
    ∀ n < subs.length, (writeAt subs n).modelClass = m → (writeAt subs n).commitsItself models = false
  model : ∀ n < subs.length, (writeAt subs (owner subs n)).modelClass = (writeAt subs n).modelClass
  merged : ∀ o < subs.length, owner subs o = o → ∀ table, (mergedAt subs o).alone models table =
    (chain subs o).foldlM (fun table n => (writeAt subs n).alone models table) table
  order : ∀ a < subs.length, ∀ b < subs.length, a ≠ b →
    (writeAt subs a).modelClass = (writeAt subs b).modelClass →
      Kept models subs a b ∨ Kept models subs b a ∨
        Reorder.Commutes (fun table n => (writeAt subs n).alone models table) a b

section
variable {models : Models V} {subs : List (Submission V)} {q q' : AsyncWriteQueue V}
  {batches batches' : List (List ℕ)} {m : String} {a b n : ℕ}

open AsyncWriteQueue

/-- The submits of a model in the order in which the merged tasks apply their writes. -/
def mergedOrder (models : Models V) (subs : List (Submission V)) (m : String)
    (batches : List (List ℕ)) : List ℕ :=
  (drainOrder models (mergedAt subs) m batches).flatMap (chain subs)

theorem owner_lt (h : n < subs.length) : owner subs n < subs.length := (owner_le n).trans_lt h

theorem AsyncWriteQueue.Filled.owner_mem (h : Filled subs q) (hn : n < subs.length) :
    owner subs n ∈ q.queue := (h.mem_queue _).mpr ⟨owner_lt hn, owner_owner⟩

/-- The heap has two tasks in the order in which they leave it. -/
theorem AsyncWriteQueue.Filled.pair_queue (h : Filled subs q) (ha : a ∈ q.queue) (hb : b ∈ q.queue)
    (hleaves : LeavesBefore subs a b) : [a, b].Sublist q.queue := by
  refine Reorder.pair_of_pairwise h.sorted ha hb ?_ (leavesBefore_asymm hleaves)
  rintro rfl
  exact leavesBefore_asymm hleaves hleaves

theorem mem_mergedOrder (h : Filled subs q) (hsplit : q.Splits batches)
    (hmodel : ∀ n < subs.length,
      (writeAt subs (owner subs n)).modelClass = (writeAt subs n).modelClass) :
    n ∈ mergedOrder models subs m batches ↔ n < subs.length ∧ (writeAt subs n).modelClass = m := by
  rw [mergedOrder, List.mem_flatMap]
  simp only [mem_drainOrder, mem_chain, hsplit.flatten, (mergedAt_shape subs _).2]
  constructor
  · rintro ⟨o, ⟨-, hm⟩, hn, rfl⟩
    exact ⟨hn, (hmodel n hn).symm.trans hm⟩
  · rintro ⟨hn, hm⟩
    exact ⟨owner subs n, ⟨h.owner_mem hn, (hmodel n hn).trans hm⟩, hn, rfl⟩

theorem nodup_mergedOrder (h : Filled subs q) (hsplit : q.Splits batches) :
    (mergedOrder models subs m batches).Nodup := by
  rw [mergedOrder, List.nodup_flatMap]
  refine ⟨fun o _ => List.nodup_range.filter _, ?_⟩
  have hnodup : (drainOrder models (mergedAt subs) m batches).Nodup :=
    nodup_drainOrder (hsplit.flatten ▸ h.nodup)
  refine hnodup.imp fun {o p} hne k hk hk' => hne ?_
  rw [← (mem_chain.mp hk).2, ← (mem_chain.mp hk').2]

/-- Two writes of a model that the drained tasks apply in the order of the heap. -/
theorem AsyncWriteQueue.Filled.pair_drained (h : Filled subs q) (hsplit : q.Splits batches)
    (ha : a ∈ q.queue) (hb : b ∈ q.queue) (hma : (writeAt subs a).modelClass = m)
    (hmb : (writeAt subs b).modelClass = m) (hprecedes : Precedes models subs a b) :
    [a, b].Sublist (drainOrder models (mergedAt subs) m batches) := by
  refine pair_drainOrder ?_ ((mergedAt_shape subs a).2.trans hma)
    ((mergedAt_shape subs b).2.trans hmb) ?_
  · rw [hsplit.flatten]
    exact h.pair_queue ha hb hprecedes.1
  · rw [waits_mergedAt, waits_mergedAt]
    exact hprecedes.2

theorem pair_mergedOrder (h : Filled subs q) (hsplit : q.Splits batches)
    (hmodel : ∀ n < subs.length,
      (writeAt subs (owner subs n)).modelClass = (writeAt subs n).modelClass)
    (ha : a < subs.length) (hb : b < subs.length) (hma : (writeAt subs a).modelClass = m)
    (hmb : (writeAt subs b).modelClass = m) (hkept : Kept models subs a b) :
    [a, b].Sublist (mergedOrder models subs m batches) := by
  have hmA : (writeAt subs (owner subs a)).modelClass = m := (hmodel a ha).trans hma
  have hmB : (writeAt subs (owner subs b)).modelClass = m := (hmodel b hb).trans hmb
  have howners := hkept.2
  split_ifs at howners with hsame
  · -- one task: its chain is in the order of the submits
    have hsorted : (chain subs (owner subs a)).Pairwise (· < ·) :=
      List.pairwise_lt_range.sublist List.filter_sublist
    have hchain : [a, b].Sublist (chain subs (owner subs a)) :=
      Reorder.pair_of_pairwise hsorted (mem_chain.mpr ⟨ha, rfl⟩) (mem_chain.mpr ⟨hb, hsame.symm⟩)
        howners.ne (by omega)
    have hmem : owner subs a ∈ drainOrder models (mergedAt subs) m batches := by
      rw [mem_drainOrder, hsplit.flatten, (mergedAt_shape subs _).2]
      exact ⟨h.owner_mem ha, hmA⟩
    refine hchain.trans ?_
    rw [mergedOrder, List.flatMap_def]
    exact List.sublist_flatten_of_mem (List.mem_map_of_mem hmem)
  · have htasks := h.pair_drained hsplit (h.owner_mem ha) (h.owner_mem hb) hmA hmB howners
    exact Reorder.pair_flatMap_of_mem htasks (mem_chain.mpr ⟨ha, rfl⟩) (mem_chain.mpr ⟨hb, rfl⟩)

/-- The same writes, one after the other, with the keys and without them. -/
theorem mergedOrder_foldlM (hq : Filled subs q) (hq' : Filled (subs.map Submission.unkeyed) q')
    (hsplit : q.Splits batches) (hsplit' : q'.Splits batches') (hmerge : Mergeable models subs)
    (m : String) (table : Table V) :
    (mergedOrder models subs m batches).foldlM
        (fun table n => (writeAt subs n).alone models table) table =
      (drainOrder models (writeAt subs) m batches').foldlM
        (fun table n => (writeAt subs n).alone models table) table := by
  have hwrite : mergedAt (subs.map Submission.unkeyed) = writeAt subs :=
    funext fun n => mergedAt_unkeyed
  have hlength : (subs.map Submission.unkeyed).length = subs.length := List.length_map _
  have hmem := @mem_mergedOrder V _ models subs q batches m
  have hmem' : ∀ n, n ∈ drainOrder models (writeAt subs) m batches' ↔
      n < subs.length ∧ (writeAt subs n).modelClass = m := by
    intro n
    rw [mem_drainOrder, hsplit'.flatten, hq'.mem_queue, owner_unkeyed, hlength]
    simp
  have hnodup : (mergedOrder models subs m batches).Nodup := nodup_mergedOrder hq hsplit
  have hnodup' : (drainOrder models (writeAt subs) m batches').Nodup :=
    nodup_drainOrder (hsplit'.flatten ▸ hq'.nodup)
  have hperm : (mergedOrder models subs m batches).Perm (drainOrder models (writeAt subs) m batches') :=
    (List.perm_ext_iff_of_nodup hnodup hnodup').mpr fun n => by
      rw [hmem hq hsplit hmerge.model, hmem']
  refine Reorder.foldlM_eq hperm hnodup (fun a b hab hba => ?_) table
  have ha := (hmem hq hsplit hmerge.model).mp (hab.subset List.mem_cons_self)
  have hb := (hmem hq hsplit hmerge.model).mp (hab.subset (List.mem_cons_of_mem a List.mem_cons_self))
  have hne : a ≠ b := by
    rintro rfl
    exact Reorder.not_both_orders hnodup hab hab
  rcases hmerge.order a ha.1 b hb.1 hne (ha.2.trans hb.2.symm) with hkept | hkept | hcommutes
  · -- without the keys the pair is in the order of the heap as well
    have hin : ∀ {n}, n < subs.length → n ∈ q'.queue := by
      intro n hn
      exact (hq'.mem_queue n).mpr ⟨hlength ▸ hn, owner_unkeyed⟩
    have hprecedes : Precedes models (subs.map Submission.unkeyed) a b := by
      refine ⟨leavesBefore_unkeyed.mpr hkept.1.1, ?_⟩
      rw [writeAt_unkeyed, writeAt_unkeyed]
      exact hkept.1.2
    have hof : ∀ n, (writeAt (subs.map Submission.unkeyed) n).modelClass =
        (writeAt subs n).modelClass := fun n => congrArg Write.modelClass writeAt_unkeyed
    have hpair := hq'.pair_drained hsplit' (hin ha.1) (hin hb.1) ((hof a).trans ha.2)
      ((hof b).trans hb.2) hprecedes
    rw [hwrite] at hpair
    exact (Reorder.not_both_orders hnodup' hpair hba).elim
  · have hpair := pair_mergedOrder (m := m) hq hsplit hmerge.model hb.1 ha.1 hb.2 ha.2 hkept
    exact (Reorder.not_both_orders hnodup hab hpair).elim
  · exact hcommutes

theorem alone_update_of_key {w : Write V} {id : V} (hop : w.operation = .update)
    (hkey : models.key w.data "id" = some id) (table : Table V) :
    w.alone models table =
      some (((Session.begin table).assign id (w.data.erase "id")).rows) := by
  rw [alone_update hop, hkey]

theorem erase_union_data (data data' : Data V) (field : String) :
    (data ∪ data').erase field = data.erase field ∪ data'.erase field := by
  refine Finmap.ext_lookup fun field' => ?_
  by_cases hfield : field' = field
  · subst hfield
    have hnot : field' ∉ data.erase field' := by simp
    rw [Finmap.lookup_erase, Finmap.lookup_union_right hnot, Finmap.lookup_erase]
  · rw [Finmap.lookup_erase_ne hfield]
    by_cases hmem : field' ∈ data
    · have hmem' : field' ∈ data.erase field := Finmap.mem_erase.mpr ⟨hfield, hmem⟩
      rw [Finmap.lookup_union_left hmem, Finmap.lookup_union_left hmem',
        Finmap.lookup_erase_ne hfield]
    · have hmem' : field' ∉ data.erase field := fun h => hmem (Finmap.mem_erase.mp h).2
      rw [Finmap.lookup_union_right hmem, Finmap.lookup_union_right hmem',
        Finmap.lookup_erase_ne hfield]

theorem key_union {data data' : Data V} {field : String} {v : V}
    (h : models.key data field = some v) : models.key (data ∪ data') field = some v := by
  obtain ⟨hlookup, htruthy⟩ := Option.filter_eq_some_iff.mp h
  have hmem : field ∈ data := Finmap.mem_of_lookup_eq_some hlookup
  rw [Models.key, Finmap.lookup_union_left hmem]
  exact h

/-- Two UPDATEs of a row are one UPDATE with the later data over the earlier. -/
theorem update_merge {w w' : Write V} {id : V} (hop : w.operation = .update)
    (hop' : w'.operation = .update) (hkey : models.key w.data "id" = some id)
    (hkey' : models.key w'.data "id" = some id) (table : Table V) :
    (w.merge w'.data).alone models table = (w.alone models table).bind (w'.alone models ·) := by
  have hkeys : models.key (w.merge w'.data).data "id" = some id := key_union hkey'
  have hopm : (w.merge w'.data).operation = .update := hop
  rw [alone_update_of_key hopm hkeys, alone_update_of_key hop hkey, Option.bind_some,
    alone_update_of_key hop' hkey']
  have hdata : (w.merge w'.data).data.erase "id" = w'.data.erase "id" ∪ w.data.erase "id" :=
    erase_union_data w'.data w.data "id"
  rw [hdata]
  cases hrow : table.lookup id with
  | none => simp [Session.assign, Session.begin, hrow]
  | some row =>
      simp [Session.assign, Session.begin, hrow, Finmap.lookup_insert, Finmap.insert_insert,
        Finmap.union_assoc]

/-- The owner comes first in its chain. -/
theorem chain_eq_cons (ho : n < subs.length) (howner : owner subs n = n) :
    chain subs n = n :: (chain subs n).filter (· ≠ n) := by
  have hsorted : (chain subs n).Pairwise (· < ·) :=
    List.pairwise_lt_range.sublist List.filter_sublist
  have hmem : n ∈ chain subs n := mem_chain.mpr ⟨ho, howner⟩
  have hfirst : ∀ k ∈ chain subs n, n ≤ k := by
    intro k hk
    rw [← (mem_chain.mp hk).2]
    exact owner_le k
  cases hchain : chain subs n with
  | nil =>
      rw [hchain] at hmem
      exact absurd hmem List.not_mem_nil
  | cons k ks =>
      rw [hchain] at hsorted hmem hfirst
      rw [List.pairwise_cons] at hsorted
      have hk : k = n := by
        rcases List.mem_cons.mp hmem with hn | hn
        · exact hn.symm
        · have hlt := hsorted.1 n hn
          have hle := hfirst k List.mem_cons_self
          omega
      subst hk
      have hrest : (k :: ks).filter (· ≠ k) = ks := by
        rw [List.filter_cons_of_neg (by simp)]
        refine List.filter_eq_self.mpr fun j hj => ?_
        have hlt := hsorted.1 j hj
        simpa using hlt.ne'
      rw [hrest]

/-- The submits with a key that are all UPDATEs of one row merge into what they do one
after the other. -/
theorem updates_merge {id : V} (ho : n < subs.length) (howner : owner subs n = n)
    (h : ∀ k ∈ chain subs n, (writeAt subs k).operation = .update ∧
      models.key (writeAt subs k).data "id" = some id) (table : Table V) :
    (mergedAt subs n).alone models table =
      (chain subs n).foldlM (fun table k => (writeAt subs k).alone models table) table := by
  have hfold : ∀ (ks : List ℕ) (w : Write V), w.operation = .update →
      models.key w.data "id" = some id →
      (∀ k ∈ ks, (writeAt subs k).operation = .update ∧
        models.key (writeAt subs k).data "id" = some id) →
      (ks.foldl (fun w k => w.merge (writeAt subs k).data) w).alone models table =
        (w.alone models table).bind fun table =>
          ks.foldlM (fun table k => (writeAt subs k).alone models table) table := by
    intro ks
    induction ks with
    | nil =>
        intro w _ _ _
        exact (Option.bind_fun_some _).symm
    | cons k ks ih =>
        intro w hop hkey hks
        rw [List.forall_mem_cons] at hks
        have hnext : models.key (w.merge (writeAt subs k).data).data "id" = some id :=
          key_union hks.1.2
        rw [List.foldl_cons, ih (w.merge (writeAt subs k).data) hop hnext hks.2,
          update_merge hop hks.1.1 hkey hks.1.2, Option.bind_assoc]
        rfl
  rw [chain_eq_cons ho howner, List.foldlM_cons, mergedAt]
  have hfirst := h n (mem_chain.mpr ⟨ho, howner⟩)
  exact hfold _ _ hfirst.1 hfirst.2 fun k hk => h k (List.mem_of_mem_filter hk)

end

namespace AsyncWriteQueue

section
variable {models : Models V} {subs : List (Submission V)} {q : AsyncWriteQueue V}
  {batches : List (List ℕ)} {m : String}

/-- The table that the merged tasks leave behind. -/
theorem Filled.table_merged (h : Filled subs q) (hsplit : q.Splits batches)
    (hno : (q.drain models batches).NoFailures) (hmerge : Mergeable models subs) :
    (mergedOrder models subs m batches).foldlM
        (fun table n => (writeAt subs n).alone models table) (q.db m) =
      some ((q.drain models batches).db m) := by
  have hmem : ∀ i ∈ q.queue, i < subs.length ∧ owner subs i = i := fun i hi => (h.mem_queue i).mp hi
  have hsteady : ∀ i ∈ q.queue, (mergedAt subs i).Steady models :=
    fun i hi => (hmerge.steady i (hmem i hi).1).2
  have hcalm : (∀ i ∈ q.queue, (mergedAt subs i).modelClass = m →
        (mergedAt subs i).waits models = false) ∨
      ∀ i ∈ q.queue, (mergedAt subs i).modelClass = m →
        (mergedAt subs i).commitsItself models = false := by
    simp only [waits_mergedAt, commitsItself_mergedAt, (mergedAt_shape subs _).2]
    exact (hmerge.calm m).imp (fun h i hi => h i (hmem i hi).1) fun h i hi => h i (hmem i hi).1
  rw [← h.table hsplit hno hsteady hcalm, mergedOrder]
  refine (Reorder.foldlM_flatMap (fun o ho table => ?_) (q.db m)).symm
  have hqueue : o ∈ q.queue := hsplit.flatten ▸ (mem_drainOrder.mp ho).1
  exact hmerge.merged o (hmem o hqueue).1 (hmem o hqueue).2 table

/-- The table that the tasks of the same submits without keys leave behind. -/
theorem Filled.table_unkeyed (h : Filled (subs.map Submission.unkeyed) q) (hsplit : q.Splits batches)
    (hno : (q.drain models batches).NoFailures) (hmerge : Mergeable models subs) :
    (drainOrder models (writeAt subs) m batches).foldlM
        (fun table n => (writeAt subs n).alone models table) (q.db m) =
      some ((q.drain models batches).db m) := by
  have hwrite : mergedAt (subs.map Submission.unkeyed) = writeAt subs :=
    funext fun n => mergedAt_unkeyed
  have hmem : ∀ i ∈ q.queue, i < subs.length := by
    intro i hi
    have hlt := ((h.mem_queue i).mp hi).1
    rwa [List.length_map] at hlt
  have htable := @h.table _ _ _ _ models batches m hsplit hno
  rw [hwrite] at htable
  refine htable (fun i hi => (hmerge.steady i (hmem i hi)).1) ?_
  exact (hmerge.calm m).imp (fun h i hi => h i (hmem i hi)) fun h i hi => h i (hmem i hi)

end

/-- Starting, submitting and draining is a run of the queue. -/
theorem exec_filledQueue {models : Models V} {maxQueueSize batchSize maxWorkers : ℕ}
    {db : String → Table V} {subs : List (Submission V)} {batches : List (List ℕ)}
    (hroom : subs.length ≤ maxQueueSize) (hworkers : 0 < maxWorkers)
    (hsplit : (filledQueue maxQueueSize batchSize maxWorkers db subs).Splits batches)
    (hno : ((filledQueue maxQueueSize batchSize maxWorkers db subs).drain models
      batches).NoFailures) :
    PartialRun.exec (step models) (initial maxQueueSize batchSize maxWorkers db)
      (.start :: (subs.map .submit ++
        (filledQueue maxQueueSize batchSize maxWorkers db subs).drainActions models batches)) =
          some ((filledQueue maxQueueSize batchSize maxWorkers db subs).drain models batches) := by
  have hsubmits : ∀ (subs : List (Submission V)) (q : AsyncWriteQueue V),
      PartialRun.exec (step models) q (subs.map .submit) = some (q.submitAll subs) := by
    intro subs
    induction subs with
    | nil => exact fun q => rfl
    | cons sub subs ih =>
        intro q
        rw [List.map_cons, PartialRun.exec_cons]
        exact ih (q.submit sub).1
  have hfilled : Filled subs (filledQueue maxQueueSize batchSize maxWorkers db subs) ∧ _ :=
    filled_filledQueue hroom
  have hsame : ∀ (subs : List (Submission V)) (q : AsyncWriteQueue V),
      (q.submitAll subs).workers = q.workers := by
    intro subs
    induction subs with
    | nil => exact fun q => rfl
    | cons sub subs ih =>
        intro q
        exact (ih (q.submit sub).1).trans (submit_frame q sub).1
  have hlooping : (filledQueue maxQueueSize batchSize maxWorkers db subs).workers =
      .looping :: List.replicate (maxWorkers - 1) .looping := by
    rw [filledQueue, hsame, ← List.replicate_succ, Nat.sub_add_cancel hworkers]
    rfl
  have hdrain := exec_drain hlooping hfilled.1.running hsplit hfilled.1.nodup hfilled.1.valid hno
  rw [PartialRun.exec_cons]
  show PartialRun.exec (step models) (initial maxQueueSize batchSize maxWorkers db).startWorkers _ = _
  rw [PartialRun.exec_append, hsubmits, Option.bind_some]
  exact hdrain

/-- Two UPDATEs of the row with one key. -/
def twoUpdates : List (Submission ℕ) :=
  [{ write := ⟨.update, "Item", kwargs [("id", 7), ("name", 2)]⟩, callback := true, mergeKey := some "k" },
    { write := ⟨.update, "Item", kwargs [("id", 7), ("size", 3)]⟩, mergeKey := some "k" }]

theorem twoUpdates_mergeable : Mergeable plainModels twoUpdates := by
  have hupdate : ∀ n < twoUpdates.length, (writeAt twoUpdates n).operation = .update := by
    decide +kernel
  have hrow : ∀ o < twoUpdates.length, ∀ n ∈ chain twoUpdates o,
      (writeAt twoUpdates n).operation = .update ∧
        plainModels.key (writeAt twoUpdates n).data "id" = some 7 := by decide +kernel
  have hwaits : ∀ n < twoUpdates.length, (writeAt twoUpdates n).waits plainModels = false := by
    decide +kernel
  have hkept : ∀ a < twoUpdates.length, ∀ b < twoUpdates.length, a < b →
      LeavesBefore twoUpdates a b ∧ owner twoUpdates a = owner twoUpdates b := by
    unfold LeavesBefore
    decide +kernel
  have hordered : ∀ a < twoUpdates.length, ∀ b < twoUpdates.length, a < b →
      Kept plainModels twoUpdates a b := by
    intro a ha b hb hlt
    obtain ⟨hleaves, howner⟩ := hkept a ha b hb hlt
    refine ⟨⟨hleaves, fun h => ?_⟩, ?_⟩
    · rw [hwaits a ha] at h
      cases h
    · rw [if_pos howner]
      exact hlt
  refine ⟨fun n hn => ⟨fun h => ?_, fun h => ?_⟩, fun m => .inl fun n hn _ => hwaits n hn,
    by decide +kernel, fun o ho howner table => updates_merge ho howner (hrow o ho) table,
    fun a ha b hb hne _ => ?_⟩
  · rw [hupdate n hn] at h
    cases h
  · rw [(mergedAt_shape twoUpdates n).1, hupdate n hn] at h
    cases h
  · rcases Nat.lt_or_gt_of_ne hne with hlt | hlt
    · exact .inl (hordered a ha b hb hlt)
    · exact .inr (.inl (hordered b hb a ha hlt))

/-- Two INSERTs with one key. -/
def twoInserts : List (Submission ℕ) :=
  [{ write := ⟨.insert, "Item", kwargs [("id", 8), ("name", 2)]⟩, callback := true, mergeKey := some "k" },
    { write := ⟨.insert, "Item", kwargs [("id", 9), ("name", 3)]⟩, callback := true, mergeKey := some "k" }]

end AsyncWriteQueue

end SmartMedia.WriteQueue
