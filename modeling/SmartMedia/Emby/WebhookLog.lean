import SmartMedia.Emby.DeletePlan

/-!
# Logged webhook events

`_log_webhook_event` of `app/api/emby.py` on the rows of `emby_event_logs`, in the order in which
they were added. Of a payload the item is modelled, with its fields as texts and its season as a
number.
-/
namespace SmartMedia.Emby
open Media PythonText

/-- The item of an event. -/
structure Item where
  id : Option Text := none
  name : Option Text := none
  type : Option Text := none
  itemType : Option Text := none
  seriesId : Option Text := none
  seriesName : Option Text := none
  series : Option Text := none
  parentId : Option Text := none
  album : Option Text := none
  parentIndexNumber : Option ℕ := none
  seasonNumber : Option ℕ := none
  deriving DecidableEq, Repr

/-- `_normalize_item_type`. -/
def normalizeItemType (item : Item) : Text :=
  let value := strip (((truthy item.type).or (truthy item.itemType)).getD [])
  if value = [] then "Unknown".toList else value

/-- `item.get("ParentIndexNumber") or item.get("SeasonNumber")`. -/
def seasonOf (item : Item) : Option ℕ := (item.parentIndexNumber.filter (· ≠ 0)).or item.seasonNumber

/-- `_episode_aggregate_key`. -/
def episodeAggregateKey (eventType : Text) (item : Item) : Text :=
  let seriesKey := ((((truthy item.seriesId).or (truthy item.seriesName)).or
    (truthy item.parentId)).or (truthy item.album)).getD "unknown-series".toList
  let season := (((seasonOf item).filter (· ≠ 0)).map (decimal 0)).getD "all".toList
  "episode:".toList ++ eventType ++ ":".toList ++ seriesKey ++ ":S".toList ++ season

/-- `_episode_aggregate_name`. -/
def episodeAggregateName (item : Item) : Text :=
  let seriesName := (((truthy item.seriesName).or (truthy item.series)).or
    (truthy item.name)).getD "Episode".toList
  match seasonOf item with
  | none => seriesName
  | some season => seriesName ++ " - Season ".toList ++ decimal 0 season

/-- The column `payload`. -/
inductive Payload
  | event (item : Item)
  | aggregated (latest : Item) (windowSeconds : ℤ) (count : ℕ) (key : Text)

/-- The item that `_build_delete_plan_items` finds in a payload. -/
def Payload.item : Payload → Item
  | event item => item
  | aggregated latest _ _ _ => latest

/-- A row of `emby_event_logs`. -/
structure EventRow where
  eventId : Text
  eventType : Text
  itemId : Option Text
  itemName : Option Text
  itemType : Text
  aggregatedCount : ℕ
  payload : Payload
  updatedAt : ℤ

/-- A row as the plans read it. -/
def EventRow.log (row : EventRow) : EmbyEventLog where
  eventId := row.eventId
  eventType := row.eventType
  itemId := row.itemId
  itemName := row.itemName
  itemType := some row.itemType
  payloadItem := ⟨row.payload.item.id, row.payload.item.name, row.payload.item.type⟩

/-- A call of the webhook: the event, the configured window, the new UUID, the time of the call
and the one that is written into the row. -/
structure WebhookEvent where
  eventType : Text
  item : Item
  windowSeconds : ℤ
  eventId : Text
  now : ℤ
  written : ℤ

section LogWebhookEvent
variable (rows : List EventRow) (event : WebhookEvent)

/-- `item_type.lower() == "episode"`. -/
def WebhookEvent.isEpisode : Bool :=
  (normalizeItemType event.item).map Char.toLower = "episode".toList

/-- The filter of the query; times are in microseconds. -/
def WebhookEvent.mergesInto (row : EventRow) : Bool :=
  row.eventType = event.eventType && row.itemType = "Episode".toList &&
    row.itemId = some (episodeAggregateKey event.eventType event.item) &&
    event.now - max 1 event.windowSeconds * 1000000 ≤ row.updatedAt

/-- `.order_by(updated_at.desc()).first()`: the row that was updated last, and its place. -/
def latest : List (EventRow × ℕ) → Option (EventRow × ℕ)
  | [] => none
  | row :: rows =>
      match latest rows with
      | none => some row
      | some other => if other.1.updatedAt ≤ row.1.updatedAt then some row else some other

/-- `existing` and its place; only an episode is looked for. -/
def existing : Option (EventRow × ℕ) :=
  if event.isEpisode then latest (rows.zipIdx.filter fun row => event.mergesInto row.1) else none

/-- What the event makes of an existing row. -/
def WebhookEvent.merge (row : EventRow) : EventRow :=
  { row with
    aggregatedCount := row.aggregatedCount + 1
    payload := .aggregated event.item (max 1 event.windowSeconds) (row.aggregatedCount + 1)
      (episodeAggregateKey event.eventType event.item)
    itemName := some (episodeAggregateName event.item)
    updatedAt := event.written }

/-- The new row of an event. -/
def WebhookEvent.row : EventRow :=
  if event.isEpisode then
    { eventId := event.eventId
      eventType := event.eventType
      itemId := some (episodeAggregateKey event.eventType event.item)
      itemName := some (episodeAggregateName event.item)
      itemType := "Episode".toList
      aggregatedCount := 1
      payload := .aggregated event.item (max 1 event.windowSeconds) 1
        (episodeAggregateKey event.eventType event.item)
      updatedAt := event.written }
  else
    { eventId := event.eventId
      eventType := event.eventType
      itemId := truthy event.item.id
      itemName := truthy event.item.name
      itemType := normalizeItemType event.item
      aggregatedCount := 1
      payload := .event event.item
      updatedAt := event.written }

/-- `_log_webhook_event`. -/
def logWebhookEvent : List EventRow :=
  match existing rows event with
  | some row => rows.modify row.2 event.merge
  | none => rows ++ [event.row]

/-- The place of the row that is returned. -/
def logIndex : ℕ := ((existing rows event).map (·.2)).getD rows.length

end LogWebhookEvent

/-- The rows after a sequence of events. -/
def logEvents (events : List WebhookEvent) : List EventRow := events.foldl logWebhookEvent []

/-- The plan that is built from the ids of all rows. -/
def planOfAll (media : MediaTable) (rows : List EventRow) : List PlanItem :=
  buildDeletePlanItems media
    ((rows.map (·.log)).filter fun log => log.eventId ∈ rows.map (·.eventId)) []

end SmartMedia.Emby
