import Mathlib.Algebra.GroupWithZero.Nat
import SmartMedia.Emby.WebhookLog

/-!
# Aggregated events

The counts of the logged events add up. A plan built from all of them has the items of the events
that nothing was merged over: an aggregated row keeps the item of its latest event only.
-/
namespace SmartMedia.Emby
open Media PythonText

section Steps
variable {rows : List EventRow} {event : WebhookEvent} {row : EventRow} {i j : ℕ}

theorem latest_mem {l : List (EventRow × ℕ)} {x : EventRow × ℕ} (h : latest l = some x) : x ∈ l := by
  induction l generalizing x with
  | nil => cases h
  | cons y l ih =>
      rw [latest] at h
      cases hrest : latest l with
      | none =>
          rw [hrest] at h
          cases h
          exact List.mem_cons_self
      | some other =>
          simp only [hrest] at h
          split_ifs at h
          · cases h
            exact List.mem_cons_self
          · cases h
            exact List.mem_cons_of_mem y (ih hrest)

/-- An existing row is one that the event may be merged into. -/
theorem existing_eq_some {x : EventRow × ℕ} (h : existing rows event = some x) :
    event.isEpisode = true ∧ rows[x.2]? = some x.1 ∧ event.mergesInto x.1 = true := by
  rw [existing] at h
  split_ifs at h with hepisode
  have hmem := List.mem_filter.mp (latest_mem h)
  exact ⟨hepisode, List.mem_zipIdx_iff_getElem?.mp hmem.1, hmem.2⟩

/-- An event changes a row into which it may be merged, or adds one. -/
theorem logWebhookEvent_cases (rows : List EventRow) (event : WebhookEvent) :
    (∃ row, rows[logIndex rows event]? = some row ∧ event.isEpisode = true ∧
      event.mergesInto row = true ∧
      logWebhookEvent rows event = rows.modify (logIndex rows event) event.merge) ∨
    logIndex rows event = rows.length ∧ logWebhookEvent rows event = rows ++ [event.row] := by
  cases h : existing rows event with
  | none =>
      right
      rw [logIndex, logWebhookEvent, h]
      exact ⟨rfl, rfl⟩
  | some x =>
      left
      obtain ⟨hepisode, hrow, hmerges⟩ := existing_eq_some h
      refine ⟨x.1, ?_, hepisode, hmerges, ?_⟩
      · rw [logIndex, h]
        exact hrow
      · rw [logWebhookEvent, logIndex, h]
        rfl

/-- The row of an event has its item. -/
theorem item_logIndex (rows : List EventRow) (event : WebhookEvent) :
    ((logWebhookEvent rows event)[logIndex rows event]?).map (·.payload.item) =
      some event.item := by
  rcases logWebhookEvent_cases rows event with ⟨row, hrow, -, -, h⟩ | ⟨hindex, h⟩
  · rw [h, List.getElem?_modify_eq, hrow]
    rfl
  · rw [h, hindex, List.getElem?_concat_length, Option.map_some, WebhookEvent.row]
    split_ifs
    · rfl
    · rfl

/-- The other rows stay as they are. -/
theorem getElem?_of_ne (hj : j < rows.length) (hne : logIndex rows event ≠ j) :
    (logWebhookEvent rows event)[j]? = rows[j]? := by
  rcases logWebhookEvent_cases rows event with ⟨row, -, -, -, h⟩ | ⟨-, h⟩
  · rw [h, List.getElem?_modify_ne _ _ hne]
  · rw [h, List.getElem?_append_left hj]

theorem sum_modify {f : EventRow → EventRow} (hrow : rows[i]? = some row)
    (hf : (f row).aggregatedCount = row.aggregatedCount + 1) :
    ((rows.modify i f).map (·.aggregatedCount)).sum = (rows.map (·.aggregatedCount)).sum + 1 := by
  induction rows generalizing i with
  | nil => cases hrow
  | cons x rows ih =>
      cases i with
      | zero =>
          obtain rfl : x = row := Option.some.inj hrow
          rw [List.modify_zero_cons, List.map_cons, List.sum_cons, hf, List.map_cons, List.sum_cons]
          omega
      | succ i =>
          rw [List.modify_succ_cons, List.map_cons, List.sum_cons, ih hrow, List.map_cons,
            List.sum_cons]
          omega

theorem row_aggregatedCount (event : WebhookEvent) : event.row.aggregatedCount = 1 := by
  rw [WebhookEvent.row]
  split_ifs
  · rfl
  · rfl

/-- Every event is counted once. -/
theorem sum_logWebhookEvent :
    ((logWebhookEvent rows event).map (·.aggregatedCount)).sum =
      (rows.map (·.aggregatedCount)).sum + 1 := by
  rcases logWebhookEvent_cases rows event with ⟨row, hrow, -, -, h⟩ | ⟨-, h⟩
  · rw [h, sum_modify hrow rfl]
  · rw [h, List.map_append, List.sum_append, List.map_singleton, List.sum_singleton,
      row_aggregatedCount]

end Steps

section Runs
variable {rows : List EventRow} {event : WebhookEvent} {i : ℕ}

theorem logEvents_concat (before : List WebhookEvent) (event : WebhookEvent) :
    logEvents (before ++ [event]) = logWebhookEvent (logEvents before) event := by
  rw [logEvents, List.foldl_concat, logEvents]

theorem sum_logEvents (events : List WebhookEvent) :
    ((logEvents events).map (·.aggregatedCount)).sum = events.length := by
  induction events using List.reverseRecOn with
  | nil => rfl
  | append_singleton events event ih =>
      rw [logEvents_concat, sum_logWebhookEvent, ih, List.length_append, List.length_singleton]

/-- A later event is logged in the row of this one. -/
def Superseded (before : List WebhookEvent) (event : WebhookEvent) (later : List WebhookEvent) :
    Prop :=
  ∃ between next rest, later = between ++ next :: rest ∧
    logIndex (logEvents (before ++ event :: between)) next = logIndex (logEvents before) event

theorem lt_length_of_item {item : Item} (h : (rows[i]?).map (·.payload.item) = some item) :
    i < rows.length := by
  by_contra hle
  rw [List.getElem?_eq_none (Nat.not_lt.mp hle)] at h
  cases h

/-- The row of an event stays as it is until it is superseded. -/
theorem getElem?_of_not_superseded {before later : List WebhookEvent}
    (h : ¬ Superseded before event later) :
    (logEvents (before ++ event :: later))[logIndex (logEvents before) event]? =
      (logEvents (before ++ [event]))[logIndex (logEvents before) event]? := by
  induction later using List.reverseRecOn with
  | nil => rfl
  | append_singleton later next ih =>
      have hrest : ¬ Superseded before event later := by
        rintro ⟨between, other, rest, rfl, hindex⟩
        exact h ⟨between, other, rest ++ [next], by simp, hindex⟩
      have hne : logIndex (logEvents (before ++ event :: later)) next ≠
          logIndex (logEvents before) event :=
        fun hindex => h ⟨later, next, [], rfl, hindex⟩
      have hconcat : before ++ event :: (later ++ [next]) = (before ++ event :: later) ++ [next] := by
        simp
      have hlt : logIndex (logEvents before) event <
          (logEvents (before ++ event :: later)).length := by
        have hitem := item_logIndex (logEvents before) event
        rw [← logEvents_concat, ← ih hrest] at hitem
        exact lt_length_of_item hitem
      rw [hconcat, logEvents_concat, getElem?_of_ne hlt hne, ih hrest]

theorem superseded_concat {before later : List WebhookEvent} {next : WebhookEvent}
    (h : Superseded before event (later ++ [next])) (hrest : ¬ Superseded before event later) :
    logIndex (logEvents (before ++ event :: later)) next = logIndex (logEvents before) event := by
  obtain ⟨between, other, rest, heq, hindex⟩ := h
  rcases List.eq_nil_or_concat' rest with rfl | ⟨rest, last, rfl⟩
  · obtain ⟨rfl, hsingle⟩ := List.append_inj' heq rfl
    cases hsingle
    exact hindex
  · have hassoc : between ++ other :: (rest ++ [last]) = (between ++ other :: rest) ++ [last] := by
      simp
    rw [hassoc] at heq
    exact absurd ⟨between, other, rest, (List.append_inj' heq rfl).1, hindex⟩ hrest

/-- Nothing is merged over an event that is not an episode. -/
theorem not_superseded_of_not_isEpisode {before later : List WebhookEvent}
    (h : event.isEpisode = false) : ¬ Superseded before event later := by
  have htype : event.row.itemType ≠ "Episode".toList := by
    rw [WebhookEvent.row, if_neg (by simp [h])]
    intro hepisode
    have hname : normalizeItemType event.item = "Episode".toList := hepisode
    rw [WebhookEvent.isEpisode, hname] at h
    cases h
  have hfirst : (logEvents (before ++ [event]))[logIndex (logEvents before) event]? =
      some event.row := by
    rw [logEvents_concat, logIndex, logWebhookEvent, existing, if_neg (by simp [h])]
    exact List.getElem?_concat_length
  induction later using List.reverseRecOn with
  | nil =>
      rintro ⟨between, next, rest, heq, -⟩
      simp at heq
  | append_singleton later next ih =>
      intro hsuperseded
      have hindex := superseded_concat hsuperseded ih
      have hrow := (getElem?_of_not_superseded ih).trans hfirst
      rcases logWebhookEvent_cases (logEvents (before ++ event :: later)) next with
        ⟨row, hmerged, -, hmerges, -⟩ | ⟨hlength, -⟩
      · rw [hindex, hrow] at hmerged
        obtain rfl := Option.some.inj hmerged
        simp only [WebhookEvent.mergesInto, Bool.and_eq_true, decide_eq_true_eq] at hmerges
        exact htype hmerges.1.1.2
      · rw [hindex] at hlength
        rw [hlength, List.getElem?_length] at hrow
        cases hrow

end Runs

section Plans
variable {media : MediaTable} {candidates : List (Text × Candidate)} {logs : List EmbyEventLog}
  {log : EmbyEventLog} {id : Text}

/-- The id under which a logged event is planned. -/
def planId (log : EmbyEventLog) : Text := ((truthy log.payloadItem.id).or log.itemId).getD []

theorem mem_keys_addLog : id ∈ (addLog candidates log).map (·.1) ↔
    id ∈ candidates.map (·.1) ∨ planId log = id ∧ id ≠ [] := by
  have hplan : ((truthy log.payloadItem.id).or log.itemId).getD [] = planId log := rfl
  rw [addLog]
  simp only [hplan]
  split_ifs with hnil
  · constructor
    · exact .inl
    · rintro (h | ⟨rfl, hne⟩)
      · exact h
      · exact absurd hnil hne
  · rw [setCandidate, List.map_cons, List.mem_cons, List.mem_map]
    constructor
    · rintro (rfl | ⟨x, hx, rfl⟩)
      · exact .inr ⟨rfl, hnil⟩
      · exact .inl (List.mem_map_of_mem (List.mem_filter.mp hx).1)
    · rintro (h | ⟨rfl, -⟩)
      · obtain ⟨x, hx, rfl⟩ := List.mem_map.mp h
        by_cases heq : x.1 = planId log
        · exact .inl heq
        · exact .inr ⟨x, List.mem_filter.mpr ⟨hx, by simpa using heq⟩, rfl⟩
      · exact .inl rfl

theorem nodup_keys_addLog (log : EmbyEventLog) (h : (candidates.map (·.1)).Nodup) :
    ((addLog candidates log).map (·.1)).Nodup := by
  rw [addLog]
  split_ifs
  · exact h
  · rw [setCandidate, List.map_cons, List.nodup_cons]
    constructor
    · rw [List.mem_map]
      rintro ⟨x, hx, heq⟩
      exact (of_decide_eq_true (List.mem_filter.mp hx).2) heq
    · exact h.sublist (List.filter_sublist.map _)

theorem keys_foldl_addLog (logs : List EmbyEventLog) (h : (candidates.map (·.1)).Nodup) :
    ((logs.foldl addLog candidates).map (·.1)).Nodup ∧
      ∀ id, id ∈ (logs.foldl addLog candidates).map (·.1) ↔
        id ∈ candidates.map (·.1) ∨ (∃ log ∈ logs, planId log = id) ∧ id ≠ [] := by
  induction logs generalizing candidates with
  | nil => simp [h]
  | cons log logs ih =>
      obtain ⟨hnodup, hkeys⟩ := ih (nodup_keys_addLog log h)
      refine ⟨hnodup, fun id => ?_⟩
      rw [List.foldl_cons, hkeys, mem_keys_addLog, List.exists_mem_cons_iff, or_and_right, or_assoc]

/-- The plan of all rows has each id once. -/
theorem planOfAll_ids (media : MediaTable) (rows : List EventRow) :
    ((planOfAll media rows).map (·.embyItemId)).Nodup ∧
      ∀ id, id ∈ (planOfAll media rows).map (·.embyItemId) ↔
        (∃ row ∈ rows, planId row.log = id) ∧ id ≠ [] := by
  have hlogs : ((rows.map (·.log)).filter fun log => log.eventId ∈ rows.map (·.eventId)) =
      rows.map (·.log) := by
    rw [List.filter_eq_self]
    intro log hlog
    obtain ⟨row, hrow, rfl⟩ := List.mem_map.mp hlog
    exact decide_eq_true (List.mem_map_of_mem (f := (·.eventId)) hrow)
  have hids : (planOfAll media rows).map (·.embyItemId) =
      (((rows.map (·.log)).foldl addLog []).mergeSort fun a b => textLe a.1 b.1).map (·.1) := by
    rw [planOfAll, hlogs, buildDeletePlanItems, List.map_map]
    rfl
  have hempty : (([] : List (Text × Candidate)).map (·.1)).Nodup := List.nodup_nil
  obtain ⟨hnodup, hkeys⟩ := keys_foldl_addLog (rows.map (·.log)) hempty
  have hperm := ((List.mergeSort_perm ((rows.map (·.log)).foldl addLog [])
    fun a b => textLe a.1 b.1).map (·.1))
  rw [hids]
  refine ⟨hperm.nodup_iff.mpr hnodup, fun id => ?_⟩
  rw [hperm.mem_iff, hkeys]
  simp

end Plans

section Coverage

/-- The counts add up to the number of events, and a plan of all rows has the item of every event
that is not an episode and of the latest episode in every row. -/
theorem webhook_aggregation (media : MediaTable) (events : List WebhookEvent) :
    ((logEvents events).map (·.aggregatedCount)).sum = events.length ∧
      ∀ before event later id, events = before ++ event :: later →
        truthy event.item.id = some id →
        (event.isEpisode = true → ¬ Superseded before event later) →
        ((planOfAll media (logEvents events)).map (·.embyItemId)).count id = 1 := by
  refine ⟨sum_logEvents events, ?_⟩
  rintro before event later id rfl hid hlatest
  have hnot : ¬ Superseded before event later := by
    cases hepisode : event.isEpisode with
    | true => exact hlatest hepisode
    | false => exact not_superseded_of_not_isEpisode hepisode
  have hitem : ((logEvents (before ++ event :: later))[logIndex (logEvents before) event]?).map
      (·.payload.item) = some event.item := by
    rw [getElem?_of_not_superseded hnot, logEvents_concat, item_logIndex]
  obtain ⟨row, hrow, hrowitem⟩ := Option.map_eq_some_iff.mp hitem
  obtain ⟨hnodup, hids⟩ := planOfAll_ids media (logEvents (before ++ event :: later))
  apply List.count_eq_one_of_mem hnodup
  rw [hids]
  refine ⟨⟨row, List.mem_of_getElem? hrow, ?_⟩, (truthy_eq_some.mp hid).2⟩
  have hlog : row.log.payloadItem.id = event.item.id := by
    rw [← hrowitem]
    rfl
  rw [planId, hlog, hid]
  rfl

end Coverage

section Samples

/-- Deleted episodes of one season. -/
def episode (id : String) (now : ℤ) : WebhookEvent where
  eventType := "library.deleted".toList
  item := { id := some id.toList, type := some "Episode".toList, seriesId := some "9".toList,
            parentIndexNumber := some 1 }
  windowSeconds := 10
  eventId := id.toList
  now := now
  written := now

/-- Of two episodes in a window the plan has only the latest. -/
theorem merged_episode_lost : ¬ ∀ event ∈ [episode "1" 0, episode "2" 1], ∀ id,
    truthy event.item.id = some id →
    ((planOfAll ⟨[], List.nodup_nil⟩ (logEvents [episode "1" 0, episode "2" 1])).map
      (·.embyItemId)).count id = 1 := by
  intro h
  have hcount := h (episode "1" 0) List.mem_cons_self "1".toList rfl
  obtain ⟨-, hids⟩ := planOfAll_ids ⟨[], List.nodup_nil⟩ (logEvents [episode "1" 0, episode "2" 1])
  have hmem := (hids "1".toList).mp (List.count_pos_iff.mp (by omega))
  obtain ⟨⟨row, hrow, hplan⟩, -⟩ := hmem
  have hkeys : (logEvents [episode "1" 0, episode "2" 1]).map (fun row => planId row.log) =
      ["2".toList] := by decide
  have hkey := List.mem_map_of_mem (f := fun row => planId row.log) hrow
  rw [hkeys, hplan, List.mem_singleton] at hkey
  exact absurd hkey (by decide)

theorem latest_episode_planned :
    ((planOfAll ⟨[], List.nodup_nil⟩ (logEvents [episode "1" 0, episode "2" 1])).map
      (·.embyItemId)).count "2".toList = 1 := by
  have hlatest : ¬ Superseded [episode "1" 0] (episode "2" 1) [] := by
    rintro ⟨between, next, rest, heq, -⟩
    simp at heq
  exact (webhook_aggregation ⟨[], List.nodup_nil⟩ [episode "1" 0, episode "2" 1]).2
    [episode "1" 0] (episode "2" 1) [] "2".toList rfl rfl fun _ => hlatest

end Samples

end SmartMedia.Emby
