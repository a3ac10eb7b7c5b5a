import SmartMedia.Library.PythonText
import SmartMedia.Media.QuarkService

/-!
# Delete plans

`create_delete_plan` and `execute_delete_plan` of `app/api/emby.py`, on the tables
`emby_delete_plans` and `emby_media_items`. The session does not flush before a query, and a
JSON column is written when its value is another object than the one that was loaded. Of the
payload of a logged event the item is modelled, with its id as a text; the metrics are left
out.
-/
namespace SmartMedia.Emby
open Media PythonText

abbrev Text := List Char

/-- A row of `emby_media_items`, as far as the plans read it. -/
structure EmbyMediaItem where
  embyId : Option Text
  name : Option Text
  type : Option Text
  path : Option Text
  pickcode : Option Text
  deriving DecidableEq, Repr

/-- The table; `emby_id` is unique where it is not null. -/
structure MediaTable where
  rows : List EmbyMediaItem
  unique : (rows.filterMap (·.embyId)).Nodup

def MediaTable.find (media : MediaTable) (embyItemId : Text) : Option EmbyMediaItem :=
  media.rows.find? (·.embyId = some embyItemId)

inductive ExecutionStatus
  | executed
  | skipped
  deriving DecidableEq, Repr

inductive PlanStatus
  | planned
  | executed
  | partiallyExecuted
  | skipped
  deriving DecidableEq, Repr

/-- An entry of the column `plan_items`. -/
structure PlanItem where
  embyItemId : Text
  eventId : Option Text := none
  eventType : Option Text := none
  itemName : Option Text := none
  itemType : Text
  pickcode : Option Text
  path : Option Text
  riskLevel : Text
  canExecute : Bool
  reason : Option Text
  action : Text := "delete_cloud_file".toList
  executionStatus : Option ExecutionStatus := none
  executionDetail : Option Text := none
  deriving DecidableEq, Repr

/-- A stored plan; before it is executed no item has an execution status. -/
structure EmbyDeletePlan where
  planId : Text
  source : Text
  dryRun : Bool
  executed : Bool
  status : PlanStatus
  planItems : Option (List PlanItem)
  executedBy : Option Text := none
  executedAt : Option ℕ := none
  unmarked : executed = false → ∀ items ∈ planItems, ∀ item ∈ items, item.executionStatus = none

/-- `plan.plan_items if isinstance(plan.plan_items, list) else []`. -/
def EmbyDeletePlan.items (plan : EmbyDeletePlan) : List PlanItem := plan.planItems.getD []

inductive HttpError
  | badRequest
  | forbidden
  | notFound
  deriving DecidableEq, Repr

section Create

/-- The item in the payload of a logged event. -/
structure PayloadItem where
  id : Option Text := none
  name : Option Text := none
  type : Option Text := none

/-- A row of `emby_event_logs`. -/
structure EmbyEventLog where
  eventId : Text
  eventType : Text
  itemId : Option Text
  itemName : Option Text
  itemType : Option Text
  payloadItem : PayloadItem := {}

structure Candidate where
  eventId : Option Text := none
  eventType : Option Text := none
  itemName : Option Text := none
  itemType : Option Text := none

/-- `candidates[emby_item_id] = ...`. -/
def setCandidate (embyItemId : Text) (candidate : Candidate)
    (candidates : List (Text × Candidate)) : List (Text × Candidate) :=
  (embyItemId, candidate) :: candidates.filter (·.1 ≠ embyItemId)

def addLog (candidates : List (Text × Candidate)) (log : EmbyEventLog) :
    List (Text × Candidate) :=
  let embyItemId := ((truthy log.payloadItem.id).or log.itemId).getD []
  if embyItemId = [] then candidates
  else setCandidate embyItemId
    { eventId := some log.eventId
      eventType := some log.eventType
      itemName := (truthy log.payloadItem.name).or log.itemName
      itemType := (truthy log.payloadItem.type).or log.itemType } candidates

def addItemId (candidates : List (Text × Candidate)) (itemId : Text) : List (Text × Candidate) :=
  let cleanId := strip itemId
  if cleanId ≠ [] ∧ cleanId ∉ candidates.map (·.1) then setCandidate cleanId {} candidates
  else candidates

/-- `item_type.lower() in {"series", "season", "movie"}`. -/
def isHighRisk (itemType : Text) : Bool :=
  ["series", "season", "movie"].any fun name => itemType.map Char.toLower = name.toList

def planItem (media : MediaTable) (embyItemId : Text) (info : Candidate) : PlanItem :=
  let row := media.find embyItemId
  let itemType := ((truthy info.itemType).or (truthy (row.bind (·.type)))).getD "Unknown".toList
  { embyItemId := embyItemId
    eventId := info.eventId
    eventType := info.eventType
    itemName := (truthy info.itemName).or (row.bind (·.name))
    itemType := itemType
    pickcode := row.bind (·.pickcode)
    path := row.bind (·.path)
    riskLevel := (if isHighRisk itemType then "high" else "medium").toList
    canExecute := (truthy (row.bind (·.pickcode))).isSome
    reason :=
      if row.isNone then some "未找到 EmbyMediaItem 映射记录".toList
      else if (truthy (row.bind (·.pickcode))).isNone then
        some "映射记录缺少 pickcode，无法执行云盘删除".toList
      else none }

/-- `_build_delete_plan_items`; `logs` are the logged events with one of the event ids. -/
def buildDeletePlanItems (media : MediaTable) (logs : List EmbyEventLog) (itemIds : List Text) :
    List PlanItem :=
  let candidates := itemIds.foldl addItemId (logs.foldl addLog [])
  (candidates.mergeSort fun a b => textLe a.1 b.1).map fun candidate =>
    planItem media candidate.1 candidate.2

theorem buildDeletePlanItems_unmarked {media : MediaTable} {logs : List EmbyEventLog}
    {itemIds : List Text} {item : PlanItem} (h : item ∈ buildDeletePlanItems media logs itemIds) :
    item.executionStatus = none := by
  obtain ⟨candidate, -, rfl⟩ := List.mem_map.mp h
  rfl

structure EmbyDeletePlanRequest where
  source : Text := "manual".toList
  eventIds : List Text := []
  itemIds : List Text := []

/-- The stored plan; `planId` is the new UUID, `eventLogs` the table of events. -/
def createDeletePlan (media : MediaTable) (eventLogs : List EmbyEventLog)
    (body : EmbyDeletePlanRequest) (planId : Text) : Except HttpError EmbyDeletePlan :=
  if body.eventIds = [] ∧ body.itemIds = [] then .error .badRequest
  else
    let planItems := buildDeletePlanItems media
      (eventLogs.filter fun log => log.eventId ∈ body.eventIds) body.itemIds
    if planItems = [] then .error .notFound
    else .ok
      { planId := planId
        source := (truthy (some body.source)).getD "manual".toList
        dryRun := true
        executed := false
        status := .planned
        planItems := some planItems
        unmarked := by
          rintro - items hitems item hitem
          obtain rfl := Option.some.inj hitems
          exact buildDeletePlanItems_unmarked hitem }

end Create

section Execute

/-- `sum(1 for item in items if item.get("execution_status") == status)`. -/
def countStatus (status : ExecutionStatus) (items : List PlanItem) : ℕ :=
  items.countP (·.executionStatus = some status)

/-- What the loop has done: the items in memory, its counts, and the rows that the flush of the
session will delete. -/
structure Loop where
  items : List PlanItem := []
  executedCount : ℕ := 0
  skippedCount : ℕ := 0
  deleted : List EmbyMediaItem := []

def Loop.skip (loop : Loop) (item : PlanItem) (detail : Text) : Loop :=
  { loop with
    items := loop.items ++
      [{ item with executionStatus := some .skipped, executionDetail := some detail }]
    skippedCount := loop.skippedCount + 1 }

/-- One item. A row that has been marked is still found, and marked once. -/
def Loop.execute (media : MediaTable) (loop : Loop) (item : PlanItem) : Loop :=
  if item.canExecute = false then
    loop.skip item ((truthy item.reason).getD "目标不可执行".toList)
  else
    match media.find item.embyItemId with
    | none => loop.skip item "映射记录不存在".toList
    | some row =>
        { items := loop.items ++
            [{ item with
              executionStatus := some .executed
              executionDetail := some "已执行本地映射清理".toList }]
          executedCount := loop.executedCount + 1
          skippedCount := loop.skippedCount
          deleted := if row ∈ loop.deleted then loop.deleted else loop.deleted ++ [row] }

def executeItems (media : MediaTable) (items : List PlanItem) : Loop :=
  items.foldl (Loop.execute media) {}

def statusOf (executedCount skippedCount : ℕ) : PlanStatus :=
  if executedCount ≠ 0 ∧ skippedCount ≠ 0 then .partiallyExecuted
  else if executedCount ≠ 0 then .executed
  else .skipped

/-- What the flush leaves in the column after `plan.plan_items = items`: a list that was loaded
is assigned to itself, which is no change, and only the list made for a null is written. -/
def writtenItems (loaded : Option (List PlanItem)) (assigned : List PlanItem) :
    Option (List PlanItem) :=
  if loaded.isSome then loaded else some assigned

def MediaTable.delete (media : MediaTable) (deleted : List EmbyMediaItem) : MediaTable where
  rows := media.rows.filter (· ∉ deleted)
  unique := media.unique.sublist (List.filter_sublist.filterMap _)

structure Reply where
  planId : Text
  status : PlanStatus
  executedItems : ℕ
  skippedItems : ℕ
  idempotent : Bool := false
  deriving DecidableEq, Repr

/-- A call of `execute_delete_plan` on a given plan. -/
structure ExecuteCall where
  deleteExecuteEnabled : Bool := true
  executedBy : Option Text := none
  utcnow : ℕ := 0

/-- The stored plan and the media rows. -/
structure State where
  plan : EmbyDeletePlan
  media : MediaTable

/-- The reply of a call, the rows it deletes, and what is stored after it. -/
structure Executed where
  reply : Reply
  deleted : List EmbyMediaItem
  next : State

def executeDeletePlan (s : State) (call : ExecuteCall) : Except HttpError Executed :=
  if call.deleteExecuteEnabled = false then .error .forbidden
  else if s.plan.executed then
    .ok
      { reply :=
          { planId := s.plan.planId
            status := s.plan.status
            executedItems := countStatus .executed s.plan.items
            skippedItems := countStatus .skipped s.plan.items
            idempotent := true }
        deleted := []
        next := s }
  else
    let loop := executeItems s.media s.plan.items
    let status := statusOf loop.executedCount loop.skippedCount
    .ok
      { reply :=
          { planId := s.plan.planId
            status := status
            executedItems := loop.executedCount
            skippedItems := loop.skippedCount }
        deleted := loop.deleted
        next :=
          { plan :=
              { s.plan with
                planItems := writtenItems s.plan.planItems loop.items
                dryRun := false
                executed := true
                executedBy := some ((truthy call.executedBy).getD "api".toList)
                executedAt := some call.utcnow
                status := status
                unmarked := fun h => Bool.noConfusion h }
            media := s.media.delete loop.deleted } }

end Execute

end SmartMedia.Emby
