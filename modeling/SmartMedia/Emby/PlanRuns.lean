import SmartMedia.Library.PartialRun
import SmartMedia.Emby.DeletePlan

/-!
# Repeated execution of a delete plan

A plan is marked as executed by its first call, so that its rows are deleted once. The later
calls count the execution statuses that are stored on the items, and the first call stores
none: it only marks the loaded list.
-/
namespace SmartMedia.Emby
open PartialRun Media PythonText

/-- What happens to a plan and to the media rows; the rows may change between the calls. -/
inductive Event
  | execute (call : ExecuteCall)
  | sync (media : MediaTable)

def step (s : State) : Event → Option State
  | .execute call =>
      match executeDeletePlan s call with
      | .ok outcome => some outcome.next
      | .error _ => some s
  | .sync media => some { s with media := media }

/-- The outcomes of the calls that do not raise, in their order. -/
def outcomes : State → List Event → List Executed
  | _, [] => []
  | s, .execute call :: events =>
      match executeDeletePlan s call with
      | .ok outcome => outcome :: outcomes outcome.next events
      | .error _ => outcomes s events
  | s, .sync media :: events => outcomes { s with media := media } events

/-- A reply counts the items by the execution status that is stored on them. -/
structure Consistent (outcome : Executed) : Prop where
  executed : outcome.reply.executedItems = countStatus .executed outcome.next.plan.items
  skipped : outcome.reply.skippedItems = countStatus .skipped outcome.next.plan.items
  status : outcome.reply.status =
    statusOf outcome.reply.executedItems outcome.reply.skippedItems

structure SameReport (reply reply' : Reply) : Prop where
  executed : reply.executedItems = reply'.executedItems
  skipped : reply.skippedItems = reply'.skippedItems
  status : reply.status = reply'.status

/-- The calls delete a row at most once and report what the first one reported, which is what
is stored. -/
structure IdempotentAndTruthful (s : State) (events : List Event) : Prop where
  once : (((outcomes s events).flatMap (·.deleted)).map (·.embyId)).Nodup
  same : ∀ first ∈ (outcomes s events).head?, ∀ outcome ∈ outcomes s events,
    SameReport outcome.reply first.reply
  consistent : ∀ outcome ∈ outcomes s events, Consistent outcome

/-- A call that is not blocked finds a plan without items, or one that was executed with the
status of its stored items. -/
def Fits (s : State) : Event → Prop
  | .execute call => call.deleteExecuteEnabled = true →
      if s.plan.executed then
        s.plan.status =
          statusOf (countStatus .executed s.plan.items) (countStatus .skipped s.plan.items)
      else s.plan.items = []
  | .sync _ => True

section Items
variable {media : MediaTable} {items : List PlanItem} {loop : Loop} {item : PlanItem}

theorem execute_counts :
    (loop.execute media item).executedCount + (loop.execute media item).skippedCount =
      loop.executedCount + loop.skippedCount + 1 := by
  unfold Loop.execute
  split
  · simp only [Loop.skip]
    omega
  · split
    · simp only [Loop.skip]
      omega
    · simp only
      omega

theorem foldl_counts : (items.foldl (Loop.execute media) loop).executedCount +
    (items.foldl (Loop.execute media) loop).skippedCount =
      loop.executedCount + loop.skippedCount + items.length := by
  induction items generalizing loop with
  | nil => rfl
  | cons item items ih =>
      rw [List.foldl_cons, ih, execute_counts, List.length_cons]
      omega

/-- Every item is counted once. -/
theorem executeItems_counts : (executeItems media items).executedCount +
    (executeItems media items).skippedCount = items.length := by
  rw [executeItems, foldl_counts]
  exact Nat.zero_add _

/-- The marked rows are distinct, and rows that an id was found for. -/
structure Marked (media : MediaTable) (deleted : List EmbyMediaItem) : Prop where
  nodup : deleted.Nodup
  found : ∀ row ∈ deleted, row ∈ media.rows ∧ ∃ embyId, row.embyId = some embyId

theorem Marked.execute (h : Marked media loop.deleted) :
    Marked media (loop.execute media item).deleted := by
  unfold Loop.execute
  split
  · exact h
  · split
    · exact h
    · rename_i row hfind
      have hrow : row.embyId = some item.embyItemId := by
        simpa using List.find?_some hfind
      simp only
      split
      · exact h
      · rename_i hnew
        constructor
        · rw [List.nodup_append']
          exact ⟨h.nodup, List.nodup_singleton _, List.disjoint_singleton.mpr hnew⟩
        · intro marked hmarked
          rcases List.mem_append.mp hmarked with hold | hlast
          · exact h.found marked hold
          · obtain rfl := List.mem_singleton.mp hlast
            exact ⟨List.mem_of_find?_eq_some hfind, _, hrow⟩

theorem marked_executeItems : Marked media (executeItems media items).deleted := by
  have hall : ∀ loop : Loop, Marked media loop.deleted →
      Marked media (items.foldl (Loop.execute media) loop).deleted := by
    induction items with
    | nil => exact fun loop h => h
    | cons item items ih => exact fun loop h => ih _ h.execute
  exact hall {} ⟨List.nodup_nil, by simp⟩

/-- Two rows with one id are the same row. -/
theorem MediaTable.eq_of_embyId {row row' : EmbyMediaItem} (hrow : row ∈ media.rows)
    (hrow' : row' ∈ media.rows) {embyId : Text} (hid : row.embyId = some embyId)
    (hid' : row'.embyId = some embyId) : row = row' := by
  have hunique := media.unique
  rw [List.Nodup, List.pairwise_filterMap] at hunique
  by_contra hne
  have hsymm : Std.Symm fun row row' : EmbyMediaItem => ∀ embyId, row.embyId = some embyId →
      ∀ embyId', row'.embyId = some embyId' → embyId ≠ embyId' :=
    ⟨fun row row' h embyId hid embyId' hid' => (h embyId' hid' embyId hid).symm⟩
  exact hunique.forall hrow hrow' hne embyId hid embyId hid' rfl

theorem Marked.nodup_embyId {deleted : List EmbyMediaItem} (h : Marked media deleted) :
    (deleted.map (·.embyId)).Nodup := by
  apply List.Nodup.map_on _ h.nodup
  intro row hrow row' hrow' hsame
  obtain ⟨hmem, embyId, hid⟩ := h.found row hrow
  obtain ⟨hmem', -⟩ := h.found row' hrow'
  exact media.eq_of_embyId hmem hmem' hid (hsame ▸ hid)

theorem countStatus_of_unmarked (h : ∀ item ∈ items, item.executionStatus = none)
    (status : ExecutionStatus) : countStatus status items = 0 := by
  rw [countStatus, List.countP_eq_zero]
  intro item hitem
  simp [h item hitem]

end Items

section Calls
variable {s : State} {call : ExecuteCall} {outcome : Executed} {events : List Event}

theorem execute_of_disabled (h : call.deleteExecuteEnabled = false) :
    executeDeletePlan s call = .error .forbidden := by
  rw [executeDeletePlan, if_pos h]

theorem ne_error_of_enabled (h : call.deleteExecuteEnabled = true) {error : HttpError} :
    executeDeletePlan s call ≠ .error error := by
  have hopen : ¬ call.deleteExecuteEnabled = false := by
    rw [h]
    exact Bool.noConfusion
  unfold executeDeletePlan
  rw [if_neg hopen]
  intro herror
  split at herror
  · cases herror
  · cases herror

/-- An executed plan is only read. -/
theorem execute_of_executed (hplan : s.plan.executed = true)
    (h : executeDeletePlan s call = .ok outcome) :
    outcome.next = s ∧ outcome.deleted = [] ∧ outcome.reply.status = s.plan.status ∧
      outcome.reply.executedItems = countStatus .executed s.plan.items ∧
      outcome.reply.skippedItems = countStatus .skipped s.plan.items := by
  unfold executeDeletePlan at h
  rw [if_pos hplan] at h
  split at h
  · cases h
  · cases h
    exact ⟨rfl, rfl, rfl, rfl, rfl⟩

/-- The first call: every item is counted, and a list that was loaded is stored as it was. -/
theorem execute_of_planned (hplan : s.plan.executed = false)
    (h : executeDeletePlan s call = .ok outcome) :
    outcome.next.plan.executed = true ∧
      outcome.reply.executedItems + outcome.reply.skippedItems = s.plan.items.length ∧
      outcome.next.plan.items = s.plan.items ∧
      outcome.reply.status =
        statusOf outcome.reply.executedItems outcome.reply.skippedItems ∧
      outcome.next.plan.status = outcome.reply.status ∧ Marked s.media outcome.deleted := by
  have hopen : ¬ s.plan.executed = true := by
    rw [hplan]
    exact Bool.false_ne_true
  unfold executeDeletePlan at h
  rw [if_neg hopen] at h
  split at h
  · cases h
  · cases h
    refine ⟨rfl, executeItems_counts, ?_, rfl, rfl, marked_executeItems⟩
    change (writtenItems s.plan.planItems _).getD [] = s.plan.items
    unfold writtenItems EmbyDeletePlan.items
    cases s.plan.planItems with
    | none => rfl
    | some items => rfl

theorem executed_next (h : executeDeletePlan s call = .ok outcome) :
    outcome.next.plan.executed = true ∧ outcome.next.plan.status = outcome.reply.status := by
  cases hplan : s.plan.executed with
  | true =>
      obtain ⟨hnext, -, hstatus, -⟩ := execute_of_executed hplan h
      rw [hnext]
      exact ⟨hplan, hstatus.symm⟩
  | false =>
      obtain ⟨hnext, -, -, -, hstatus, -⟩ := execute_of_planned hplan h
      exact ⟨hnext, hstatus⟩

theorem marked_deleted (h : executeDeletePlan s call = .ok outcome) :
    (outcome.deleted.map (·.embyId)).Nodup := by
  cases hplan : s.plan.executed with
  | true =>
      rw [(execute_of_executed hplan h).2.1]
      exact List.nodup_nil
  | false =>
      obtain ⟨-, -, -, -, -, hmarked⟩ := execute_of_planned hplan h
      exact hmarked.nodup_embyId

/-- Nothing is stored about the items of a planned one, so that it must have none. -/
theorem consistent_iff_fits (h : executeDeletePlan s call = .ok outcome) :
    Consistent outcome ↔ Fits s (.execute call) := by
  have henabled : call.deleteExecuteEnabled = true := by
    by_contra hdisabled
    rw [execute_of_disabled (Bool.eq_false_of_not_eq_true hdisabled)] at h
    cases h
  rw [Fits, forall_prop_of_true henabled]
  cases hplan : s.plan.executed with
  | true =>
      obtain ⟨hnext, -, hstatus, hexecuted, hskipped⟩ := execute_of_executed hplan h
      rw [if_pos rfl, ← hexecuted, ← hskipped, ← hstatus]
      constructor
      · exact fun hconsistent => hconsistent.status
      · intro hfits
        exact ⟨by rw [hnext, hexecuted], by rw [hnext, hskipped], hfits⟩
  | false =>
      obtain ⟨-, hcounts, hitems, hstatus, -⟩ := execute_of_planned hplan h
      have hnone : ∀ item ∈ s.plan.items, item.executionStatus = none := by
        intro item hitem
        unfold EmbyDeletePlan.items at hitem
        cases hlist : s.plan.planItems with
        | none => simp [hlist] at hitem
        | some items =>
            rw [hlist, Option.getD_some] at hitem
            exact s.plan.unmarked hplan items hlist item hitem
      rw [if_neg Bool.false_ne_true]
      constructor
      · intro hconsistent
        have hzero := hcounts
        rw [hconsistent.executed, hconsistent.skipped, hitems, countStatus_of_unmarked hnone,
          countStatus_of_unmarked hnone] at hzero
        exact List.length_eq_zero_iff.mp hzero.symm
      · intro hempty
        rw [hempty, List.length_nil] at hcounts
        constructor
        · rw [hitems, countStatus_of_unmarked hnone]
          omega
        · rw [hitems, countStatus_of_unmarked hnone]
          omega
        · exact hstatus

end Calls

section Runs
variable {s : State} {events : List Event} {call : ExecuteCall} {outcome : Executed}

theorem outcomes_ok (h : executeDeletePlan s call = .ok outcome) :
    outcomes s (.execute call :: events) = outcome :: outcomes outcome.next events := by
  simp only [outcomes, h]

theorem outcomes_error {error : HttpError} (h : executeDeletePlan s call = .error error) :
    outcomes s (.execute call :: events) = outcomes s events := by
  simp only [outcomes, h]

theorem outcomes_sync (media : MediaTable) :
    outcomes s (.sync media :: events) = outcomes { s with media := media } events := by
  simp only [outcomes]

theorem outcomes_of_executed (hplan : s.plan.executed = true)
    (h : outcome ∈ outcomes s events) :
    outcome.deleted = [] ∧ outcome.reply.status = s.plan.status ∧
      outcome.reply.executedItems = countStatus .executed s.plan.items ∧
      outcome.reply.skippedItems = countStatus .skipped s.plan.items := by
  induction events generalizing s with
  | nil => exact absurd h List.not_mem_nil
  | cons event events ih =>
      cases event with
      | sync media =>
          rw [outcomes_sync] at h
          exact ih (s := { s with media := media }) hplan h
      | execute call =>
          cases hcall : executeDeletePlan s call with
          | error message =>
              rw [outcomes_error hcall] at h
              exact ih hplan h
          | ok first =>
              rw [outcomes_ok hcall] at h
              obtain ⟨hnext, hfirst⟩ := execute_of_executed hplan hcall
              rcases List.mem_cons.mp h with rfl | hlater
              · exact hfirst
              · have hlater' := ih (hnext ▸ hplan) hlater
                rw [hnext] at hlater'
                exact hlater'

/-- The outcomes are those of a first call and of calls on an executed plan. -/
theorem outcomes_cases (s : State) (events : List Event) :
    outcomes s events = [] ∨ ∃ t call first rest, executeDeletePlan t call = .ok first ∧
      outcomes s events = first :: outcomes first.next rest := by
  induction events generalizing s with
  | nil => exact .inl rfl
  | cons event events ih =>
      cases event with
      | sync media =>
          rw [outcomes_sync]
          exact ih _
      | execute call =>
          cases hcall : executeDeletePlan s call with
          | error message =>
              rw [outcomes_error hcall]
              exact ih s
          | ok first => exact .inr ⟨s, call, first, events, hcall, outcomes_ok hcall⟩

theorem forall_consistent_iff :
    (∀ outcome ∈ outcomes s events, Consistent outcome) ↔ Along step Fits s events := by
  induction events generalizing s with
  | nil => simp [outcomes]
  | cons event events ih =>
      cases event with
      | sync media =>
          rw [outcomes_sync, ih, along_cons]
          constructor
          · exact fun h => ⟨trivial, fun u hu => Option.some.inj hu ▸ h⟩
          · exact fun h => h.2 _ rfl
      | execute call =>
          rw [along_cons]
          cases hcall : executeDeletePlan s call with
          | error message =>
              have hstep : step s (.execute call) = some s := by simp only [step, hcall]
              have hblocked : Fits s (.execute call) := fun henabled =>
                absurd hcall (ne_error_of_enabled henabled)
              rw [outcomes_error hcall, ih, hstep]
              constructor
              · exact fun h => ⟨hblocked, fun u hu => Option.some.inj hu ▸ h⟩
              · exact fun h => h.2 _ rfl
          | ok first =>
              have hstep : step s (.execute call) = some first.next := by simp only [step, hcall]
              rw [outcomes_ok hcall, List.forall_mem_cons, ih, consistent_iff_fits hcall, hstep]
              refine and_congr_right fun _ => ⟨fun h u hu => ?_, fun h => h _ rfl⟩
              exact Option.some.inj hu ▸ h

/-- Whatever the plan, no row is deleted twice. -/
theorem deleted_once (s : State) (events : List Event) :
    (((outcomes s events).flatMap (·.deleted)).map (·.embyId)).Nodup := by
  rcases outcomes_cases s events with hnone | ⟨t, call, first, rest, hcall, hsplit⟩
  · rw [hnone]
    exact List.nodup_nil
  · have hlater : (outcomes first.next rest).flatMap (·.deleted) = [] := by
      rw [List.flatMap_eq_nil_iff]
      exact fun outcome h => (outcomes_of_executed (executed_next hcall).1 h).1
    rw [hsplit, List.flatMap_cons, hlater, List.append_nil]
    exact marked_deleted hcall

/-- Executing a plan is idempotent and truthful exactly if its items leave nothing to store. -/
theorem idempotentAndTruthful_iff (s : State) (events : List Event) :
    IdempotentAndTruthful s events ↔ Along step Fits s events := by
  rw [← forall_consistent_iff]
  refine ⟨fun h => h.consistent, fun h => ⟨deleted_once s events, ?_, h⟩⟩
  rcases outcomes_cases s events with hnone | ⟨t, call, first, rest, hcall, hsplit⟩
  · rw [hnone]
    exact fun first hfirst => absurd hfirst (by simp)
  · rw [hsplit] at h ⊢
    intro first' hfirst outcome houtcome
    obtain rfl := Option.some.inj hfirst
    rcases List.mem_cons.mp houtcome with rfl | hlater
    · exact ⟨rfl, rfl, rfl⟩
    · obtain ⟨-, hstatus, hexecuted, hskipped⟩ :=
        outcomes_of_executed (executed_next hcall).1 hlater
      have hfirst := h first List.mem_cons_self
      constructor
      · rw [hexecuted, hfirst.executed]
      · rw [hskipped, hfirst.skipped]
      · rw [hstatus, (executed_next hcall).2]

/-- What `create_delete_plan` stores has items to execute. -/
theorem createDeletePlan_items {media : MediaTable} {eventLogs : List EmbyEventLog}
    {body : EmbyDeletePlanRequest} {planId : Text} {plan : EmbyDeletePlan}
    (h : createDeletePlan media eventLogs body planId = .ok plan) :
    plan.executed = false ∧ plan.items ≠ [] := by
  unfold createDeletePlan at h
  split at h
  · cases h
  · dsimp only at h
    split at h
    · cases h
    · rename_i hitems
      cases h
      exact ⟨rfl, hitems⟩

/-- So the first call that is not blocked does not fit. -/
theorem not_fits_of_createDeletePlan {media : MediaTable} {eventLogs : List EmbyEventLog}
    {body : EmbyDeletePlanRequest} {planId : Text}
    (hs : createDeletePlan media eventLogs body planId = .ok s.plan)
    (henabled : call.deleteExecuteEnabled = true) : ¬ Fits s (.execute call) := by
  obtain ⟨hplan, hitems⟩ := createDeletePlan_items hs
  rw [Fits, forall_prop_of_true henabled, hplan, if_neg Bool.false_ne_true]
  exact hitems

/-- One row and a plan for it. -/
def onePlanned : State where
  plan :=
    { planId := "plan".toList
      source := "manual".toList
      dryRun := true
      executed := false
      status := .planned
      planItems := some
        [{ embyItemId := "42".toList
           itemType := "Movie".toList
           pickcode := some "pc".toList
           path := none
           riskLevel := "high".toList
           canExecute := true
           reason := none }]
      unmarked := by simp }
  media :=
    { rows := [⟨some "42".toList, none, some "Movie".toList, none, some "pc".toList⟩]
      unique := List.nodup_singleton _ }

/-- The first call reports one executed item, the second one none. -/
theorem onePlanned_not_truthful :
    ¬ IdempotentAndTruthful onePlanned [.execute {}, .execute {}] := by
  intro h
  have hfits := forall_consistent_iff.mp h.consistent
  exact absurd (hfits.1 rfl) (List.cons_ne_nil _ _)

end Runs

end SmartMedia.Emby
