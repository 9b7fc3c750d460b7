import Mathlib.Data.List.Sort
import Semora.Framework.Dict

/-! # Run Records

    What the transcript keeps of a branch's runs apart from their entries: one
    record for the runs of a branch, and one for each model a branch has used.
    A record is a dictionary into which every write merges its fields; a write
    is refused when it names a field that the record does not have.

    `opened` writes when a run starts, `closed` how it ended. Nothing takes a
    field away, so a record has an `ended_at` as soon as any attempt of the
    branch has closed (`ended_closed`, `ended_opened`). -/

namespace Semora

variable {V : Type}

/-! ## Section 1: Fields -/

/-- `BRANCH_FIELDS`: fields accepted by run metadata records. -/
def branchFields : List String :=
  ["conversation_id", "stop_reason", "tool_calls", "interrupted_mid_turn", "started_at", "ended_at"]

/-- `MODEL_USAGE_FIELDS`: fields accepted by per-model usage records. -/
def modelUsageFields : List String :=
  ["prompt_tokens", "completion_tokens", "total_tokens", "cached_tokens", "cache_write_tokens",
    "cost_usd"]

/-- Names in order. -/
def sortedNames (names : List String) : List String := names.insertionSort fun a b => a ≤ b

/-- `ValueError`: `table` has no field `names`. -/
structure UnknownFields where
  table : String
  names : List String
  deriving DecidableEq

/-- `set(fields) - allowed`. -/
def unsupported (fields : Dict String V) (allowed : List String) : List String :=
  (fields.items.map Prod.fst).filter fun name => name ∉ allowed

/-- Raise when a record contains unsupported fields. -/
def checkFields (table : String) (fields : Dict String V) (allowed : List String) :
    Except UnknownFields Unit :=
  if unsupported fields allowed ≠ [] then
    .error ⟨table, sortedNames (unsupported fields allowed)⟩
  else .ok ()

/-- A record whose fields are all supported passes. -/
theorem checkFields_of_known {fields : Dict String V} {allowed : List String}
    (h : unsupported fields allowed = []) (table : String) :
    checkFields table fields allowed = .ok () := if_neg (not_not_intro h)

theorem checkFields_of_unknown {fields : Dict String V} {allowed : List String}
    (h : unsupported fields allowed ≠ []) (table : String) :
    checkFields table fields allowed = .error ⟨table, sortedNames (unsupported fields allowed)⟩ :=
  if_pos h

/-! ## Section 2: In memory -/

/-- `MemoryTranscript`, as far as records are concerned. -/
structure MemoryRecords (V : Type) where
  /-- `_runs`. -/
  runs : Dict String (Dict String V) := .empty
  /-- `_model_usage`, by branch and model. -/
  modelUsage : Dict (String × String) (Dict String V) := .empty

namespace MemoryRecords

variable (s : MemoryRecords V)

/-- Merge validated fields into a process-local run record. -/
def recordBranch (branchId : String) (fields : Dict String V) :
    Except UnknownFields Unit × MemoryRecords V :=
  match checkFields "run" fields branchFields with
  | .error e => (.error e, s)
  | .ok () =>
    (.ok (), { s with
      runs := s.runs.set branchId ((s.runs.getD branchId .empty).update fields.items) })

/-- Return a copied run record. -/
def readBranch (branchId : String) : Option (Dict String V) := s.runs.get? branchId

/-- Merge validated token counts for one model of one run. -/
def recordModelUsage (branchId model : String) (counts : Dict String V) :
    Except UnknownFields Unit × MemoryRecords V :=
  match checkFields "model usage" counts modelUsageFields with
  | .error e => (.error e, s)
  | .ok () =>
    (.ok (), { s with
      modelUsage := s.modelUsage.set (branchId, model)
        ((s.modelUsage.getD (branchId, model) .empty).update counts.items) })

/-- Return this run's token counts per model. -/
def readModelUsage (branchId : String) : Dict String (Dict String V) :=
  .ofList (s.modelUsage.items.filterMap (usageOf branchId))
where
  /-- `for (recorded, model), counts in … if recorded == branch_id`. -/
  usageOf (branchId : String) (item : (String × String) × Dict String V) :
      Option (String × Dict String V) :=
    if item.1.1 = branchId then some (item.1.2, item.2) else none

/-- A write touches the record of its branch only. -/
theorem readBranch_recordBranch {fields : Dict String V}
    (hknown : unsupported fields branchFields = []) (branchId other : String) :
    (s.recordBranch branchId fields).2.readBranch other =
      if other = branchId then some ((s.runs.getD branchId .empty).update fields.items)
      else s.readBranch other := by
  unfold recordBranch readBranch
  rw [checkFields_of_known hknown]
  exact Dict.get?_set _ _ _ _

end MemoryRecords

/-! ## Section 3: What attempts leave -/

/-- A value of a run's record. -/
inductive RunValue where
  | text (text : String)
  | count (n : Nat)
  | flag (b : Bool)
  | time (at_ : String)
  deriving DecidableEq

/-- A run's record. -/
abbrev RunRecord := Dict String RunValue

/-- `record.get("ended_at") is not None`. -/
def RunRecord.ended (record : RunRecord) : Bool := (record.get? "ended_at").isSome

/-- What `TranscriptWriter.opened` records: the run and its start timestamp. -/
def openedFields (conversationId now : String) : Dict String RunValue :=
  .ofList [("conversation_id", .text conversationId), ("started_at", .time now)]

/-- What `TranscriptWriter.closed` records: terminal run metadata. -/
def closedFields (conversationId stopReason : String) (toolCalls : Nat) (now : String) :
    Dict String RunValue :=
  .ofList [("conversation_id", .text conversationId), ("stop_reason", .text stopReason),
    ("tool_calls", .count toolCalls), ("interrupted_mid_turn", .flag false),
    ("ended_at", .time now)]

/-- An attempt's own fields are those of a run's record. -/
theorem opened_supported (conversationId now : String) :
    unsupported (openedFields conversationId now) branchFields = [] := rfl

theorem closed_supported (conversationId stopReason : String) (toolCalls : Nat) (now : String) :
    unsupported (closedFields conversationId stopReason toolCalls now) branchFields = [] := rfl

section attempts

variable (records : MemoryRecords RunValue) (branchId conversationId stopReason now : String)
  (toolCalls : Nat)

/-- A field of a record after a merge of fields. -/
theorem get?_merged (record : RunRecord) {fields : List (String × RunValue)}
    (hnodup : (fields.map Prod.fst).Nodup) (name : String) :
    (record.update (Dict.ofList fields).items).get? name
      = (Dict.find name fields).or (record.get? name) := by
  rw [Dict.get?_update (Dict.ofList fields).nodup]
  exact congrArg (Option.or · _) (Dict.get?_ofList hnodup name)

/-- Opening a run leaves what its record says of an end. -/
theorem ended_opened :
    ((records.recordBranch branchId (openedFields conversationId now)).2.readBranch branchId).map
        RunRecord.ended
      = some (((records.readBranch branchId).map RunRecord.ended).getD false) := by
  rw [records.readBranch_recordBranch (opened_supported conversationId now), if_pos rfl,
    Option.map_some]
  refine congrArg some ?_
  unfold openedFields RunRecord.ended
  rw [get?_merged _ (by simp)]
  show (((records.readBranch branchId).getD Dict.empty).get? "ended_at").isSome = _
  cases records.readBranch branchId <;> rfl

/-- Closing a run ends its record. -/
theorem ended_closed :
    ((records.recordBranch branchId
        (closedFields conversationId stopReason toolCalls now)).2.readBranch branchId).map
        RunRecord.ended = some true := by
  rw [records.readBranch_recordBranch (closed_supported conversationId stopReason toolCalls now),
    if_pos rfl, Option.map_some]
  refine congrArg some ?_
  unfold closedFields RunRecord.ended
  rw [get?_merged _ (by simp)]
  rfl

end attempts

end Semora
