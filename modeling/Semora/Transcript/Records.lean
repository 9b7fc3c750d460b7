import Semora.Framework.TwoPhase
import Semora.Transcript.Runs

/-! # Record Stores

    `MemoryTranscript` and `PostgresTranscript`, as far as their records are
    concerned: one of the runs of a branch, and one for each model a branch
    has used. A write merges its fields into the record, and is refused when
    it names a field that the record does not have.

    In memory a record holds what was passed. In the database it is a row with
    a column for each field, and a write is one `insert … on conflict do
    update`: many clients may write one record at once. The durable store
    refines the one in memory (`records_in_commit_order`): whatever overlaps,
    it reads as the records in memory do after the committed writes, one at a
    time. -/

namespace Semora

open ReadCommitted

variable {V : Type}

/-! ## Section 1: Records and writes -/

/-- A record: of the runs of a branch, or of a model that it used. -/
inductive RecordKey where
  | branch (branchId : String)
  | modelUsage (branchId model : String)
  deriving DecidableEq

/-- The fields a record may have. -/
def RecordKey.fields : RecordKey → List String
  | .branch _ => branchFields
  | .modelUsage .. => modelUsageFields

/-- A call that writes a record. -/
inductive RecordWrite (V : Type) where
  | recordBranch (branchId : String) (fields : Dict String V)
  | recordModelUsage (branchId model : String) (counts : Dict String V)

namespace RecordWrite

def key : RecordWrite V → RecordKey
  | .recordBranch branchId _ => .branch branchId
  | .recordModelUsage branchId model _ => .modelUsage branchId model

def fields : RecordWrite V → Dict String V
  | .recordBranch _ fields => fields
  | .recordModelUsage _ _ counts => counts

end RecordWrite

/-! ## Section 2: In memory -/

namespace MemoryRecords

variable (s : MemoryRecords V)

/-- A call that writes. -/
def write : RecordWrite V → Except UnknownFields Unit × MemoryRecords V
  | .recordBranch branchId fields => s.recordBranch branchId fields
  | .recordModelUsage branchId model counts => s.recordModelUsage branchId model counts

end MemoryRecords

/-- The records in memory. -/
def memoryRecords (V : Type) :
    Machine (MemoryRecords V) (RecordWrite V) fun _ => Except UnknownFields Unit where
  step s write := s.write write

/-! ## Section 3: In PostgreSQL -/

/-- What columns keep of values. A value that does not fit the type of its column is not stored;
    `none` is stored as null. -/
structure Columns (V : Type) where
  stored : String → V → Option (Option V)

/-- What is in the column after the value was stored. -/
def Columns.kept (columns : Columns V) (name : String) (v : V) : Option V :=
  (columns.stored name v).join

/-- A row of `ledger_branch` or `ledger_branch_model`, without its key. -/
structure RecordRow (V : Type) where
  columns : String → Option V

/-- The rows of both tables. -/
abbrev RecordTable (V : Type) := Tables fun _ : RecordKey => RecordRow V

/-- What a write raises. -/
inductive RecordError where
  | unknownFields (error : UnknownFields)
  /-- A value does not fit its column. -/
  | badValue
  deriving DecidableEq

namespace PostgresRecords

variable (columns : Columns V)

/-- The row proposed for insertion: the columns that are not named are null. -/
def excluded (fields : Dict String V) : RecordRow V where
  columns name := (fields.get? name).bind (columns.kept name)

/-- `do update set name = excluded.name, …`. -/
def merge (row : RecordRow V) (fields : Dict String V) : RecordRow V where
  columns name :=
    if name ∈ fields.items.map Prod.fst then (excluded columns fields).columns name
    else row.columns name

/-- Merge allow-listed fields into a keyed record. -/
def upsert (table : String) (key : RecordKey) (fields : Dict String V) (allowed : List String) :
    Txn (fun _ : RecordKey => RecordRow V) RecordError Unit :=
  match checkFields table fields allowed with
  | .error e => throw (.unknownFields e)
  | .ok () =>
    if fields.items.any fun field => (columns.stored field.1 field.2).isNone then throw .badValue
    else do
      let _ ← Txn.exec (.upsert key (excluded columns fields) fun row =>
        some (merge columns row fields))
      pure ()

/-- Merge validated fields into a run record, creating it when absent. -/
def recordBranch (branchId : String) (fields : Dict String V) :
    Txn (fun _ : RecordKey => RecordRow V) RecordError Unit :=
  upsert columns "ledger_branch" (.branch branchId) fields branchFields

/-- Merge validated token counts for one model of one run. -/
def recordModelUsage (branchId model : String) (counts : Dict String V) :
    Txn (fun _ : RecordKey => RecordRow V) RecordError Unit :=
  upsert columns "ledger_branch_model" (.modelUsage branchId model) counts modelUsageFields

/-- The transaction of a call that writes. -/
def write : RecordWrite V → Txn (fun _ : RecordKey => RecordRow V) RecordError Unit
  | .recordBranch branchId fields => recordBranch columns branchId fields
  | .recordModelUsage branchId model counts => recordModelUsage columns branchId model counts

/-- The selected columns, with unwritten null fields omitted. -/
def present (row : RecordRow V) (allowed : List String) : Dict String V :=
  .ofList ((sortedNames allowed).filterMap fun name => (row.columns name).map fun v => (name, v))

/-- Return a run record with unwritten null fields omitted. -/
def readBranch (t : RecordTable V) (branchId : String) : Option (Dict String V) :=
  (t.rows (.branch branchId)).map fun row => present row branchFields

/-- A row of `ledger_branch_model where branch_id = …`. -/
def usageOf (t : RecordTable V) (branchId : String) : RecordKey → Option (String × Dict String V)
  | .modelUsage recorded model =>
    if recorded = branchId then
      (t.rows (.modelUsage recorded model)).map fun row => (model, present row modelUsageFields)
    else none
  | .branch _ => none

/-- This run's token counts keyed by the model that spent them. -/
def readModelUsage (t : RecordTable V) (branchId : String) : Dict String (Dict String V) :=
  .ofList (t.keys.filterMap (usageOf t branchId))

end PostgresRecords

/-! ## Section 4: What is read -/

/-- A record of the database that reads as one in memory does: it has what the columns keep, and no
    nulls. -/
def ReadsAs (columns : Columns V) : Option (Dict String V) → Option (Dict String V) → Prop
  | none, none => True
  | some record, some row =>
    ∀ name, row.get? name = (record.get? name).bind (columns.kept name)
  | _, _ => False

/-- Both stores read alike. -/
structure RecordsAgree (columns : Columns V) (s : MemoryRecords V) (t : RecordTable V) : Prop where
  branch : ∀ branchId,
    ReadsAs columns (s.readBranch branchId) (PostgresRecords.readBranch t branchId)
  modelUsage : ∀ branchId model, ReadsAs columns ((s.readModelUsage branchId).get? model)
    ((PostgresRecords.readModelUsage t branchId).get? model)

/-! ## Section 5: Writes -/

namespace RecordWrite

/-- The fields that its record does not have. -/
def unknown (write : RecordWrite V) : List String := unsupported write.fields write.key.fields

end RecordWrite

/-- What the store in memory calls a record's table. -/
def RecordKey.memoryTable : RecordKey → String
  | .branch _ => "run"
  | .modelUsage .. => "model usage"

def RecordKey.durableTable : RecordKey → String
  | .branch _ => "ledger_branch"
  | .modelUsage .. => "ledger_branch_model"

section memory

variable (s : MemoryRecords V) {write : RecordWrite V}

/-- The record filed under `key`. -/
def MemoryRecords.record : RecordKey → Option (Dict String V)
  | .branch branchId => s.runs.get? branchId
  | .modelUsage branchId model => s.modelUsage.get? (branchId, model)

/-- A write is refused with the names of the fields that its record does not have. -/
theorem MemoryRecords.write_of_unknown (h : write.unknown ≠ []) :
    s.write write = (.error ⟨write.key.memoryTable, sortedNames write.unknown⟩, s) := by
  cases write with
  | recordBranch branchId fields =>
    have h : unsupported fields branchFields ≠ [] := h
    show s.recordBranch branchId fields = _
    unfold recordBranch
    rw [checkFields_of_unknown h]
    rfl
  | recordModelUsage branchId model counts =>
    have h : unsupported counts modelUsageFields ≠ [] := h
    show s.recordModelUsage branchId model counts = _
    unfold recordModelUsage
    rw [checkFields_of_unknown h]
    rfl

theorem MemoryRecords.write_of_known (h : write.unknown = []) : (s.write write).1 = .ok () := by
  cases write with
  | recordBranch branchId fields =>
    have h : unsupported fields branchFields = [] := h
    show (s.recordBranch branchId fields).1 = _
    unfold recordBranch
    rw [checkFields_of_known h]
  | recordModelUsage branchId model counts =>
    have h : unsupported counts modelUsageFields = [] := h
    show (s.recordModelUsage branchId model counts).1 = _
    unfold recordModelUsage
    rw [checkFields_of_known h]

/-- A write merges its fields into its record, and leaves the others. -/
theorem MemoryRecords.record_write (h : write.unknown = []) (key : RecordKey) :
    (s.write write).2.record key = if key = write.key then
        some (((s.record key).getD .empty).update write.fields.items)
      else s.record key := by
  -- A write updates the record of its own key, and no other.
  cases write with
  | recordBranch branchId fields =>
    have h : unsupported fields branchFields = [] := h
    cases key with
    | branch other =>
      show (s.recordBranch branchId fields).2.readBranch other = _
      rw [s.readBranch_recordBranch h]
      by_cases hother : other = branchId
      · subst hother
        rw [if_pos rfl]
        exact (if_pos rfl).symm
      · rw [if_neg hother]
        exact (if_neg fun heq => hother (RecordKey.branch.inj heq)).symm
    | modelUsage other model =>
      show (s.recordBranch branchId fields).2.record (.modelUsage other model) = _
      unfold recordBranch
      rw [checkFields_of_known h]
      exact (if_neg nofun).symm
  | recordModelUsage branchId model counts =>
    have h : unsupported counts modelUsageFields = [] := h
    show (s.recordModelUsage branchId model counts).2.record key = _
    unfold recordModelUsage
    rw [checkFields_of_known h]
    cases key with
    | branch other => exact (if_neg nofun).symm
    | modelUsage other used =>
      show (s.modelUsage.set (branchId, model) _).get? (other, used) = _
      rw [Dict.get?_set]
      by_cases hother : (other, used) = (branchId, model)
      · obtain ⟨rfl, rfl⟩ := Prod.mk.inj hother
        rw [if_pos rfl]
        exact (if_pos rfl).symm
      · rw [if_neg hother]
        refine (if_neg fun heq => ?_).symm
        obtain ⟨rfl, rfl⟩ := RecordKey.modelUsage.inj heq
        exact hother rfl

end memory

namespace PostgresRecords

variable {columns : Columns V} {write : RecordWrite V} (t : RecordTable V)

/-- The transaction of a write is the upsert of its record. -/
theorem write_eq : PostgresRecords.write columns write
    = upsert columns write.key.durableTable write.key write.fields write.key.fields := by
  cases write <;> rfl

theorem alone_of_unknown (h : write.unknown ≠ []) :
    (PostgresRecords.write columns write).alone t =
      (.error (.unknownFields ⟨write.key.durableTable, sortedNames write.unknown⟩), t) := by
  rw [write_eq]
  unfold upsert
  rw [checkFields_of_unknown h]
  rfl

/-- The values all fit their columns. -/
def Fits (columns : Columns V) (fields : Dict String V) : Prop :=
  ∀ field ∈ fields.items, columns.stored field.1 field.2 ≠ none

theorem alone_of_unfit (h : write.unknown = []) (hunfit : ¬ Fits columns write.fields) :
    (PostgresRecords.write columns write).alone t = (.error .badValue, t) := by
  have hany : (write.fields.items.any fun field => (columns.stored field.1 field.2).isNone)
      = true := by
    simpa [Fits] using hunfit
  rw [write_eq]
  unfold upsert
  rw [checkFields_of_known h]
  dsimp only
  rw [if_pos hany]
  rfl

theorem alone_of_fit (h : write.unknown = []) (hfit : Fits columns write.fields) :
    (PostgresRecords.write columns write).alone t = (.ok (), t.write write.key
      ((t.rows write.key).elim (excluded columns write.fields) fun row =>
        merge columns row write.fields)) := by
  have hany : (write.fields.items.any fun field => (columns.stored field.1 field.2).isNone)
      ≠ true := by
    simpa [Fits] using hfit
  rw [write_eq]
  unfold upsert
  rw [checkFields_of_known h]
  dsimp only
  rw [if_neg hany]
  refine Txn.alone_of_ok ((Txn.eval_bind_of_ok (Txn.eval_upsert ..) _).trans ?_)
  cases t.rows write.key <;> rfl

/-- Every statement is an upsert. -/
theorem write_locks (write : RecordWrite V) :
    (PostgresRecords.write columns write).All Sql.Locks := by
  rw [write_eq]
  unfold upsert
  split
  · exact Txn.all_throw _
  · split
    · exact Txn.all_throw _
    · exact Txn.all_bind (Txn.all_exec trivial) fun _ => Txn.all_pure _

end PostgresRecords

/-! ## Section 6: The stores side by side -/

/-- A row has what the columns keep of a record, which has no fields but the allowed. -/
def MirrorsRow (columns : Columns V) (allowed : List String) :
    Option (Dict String V) → Option (RecordRow V) → Prop
  | none, none => True
  | some record, some row =>
    (∀ name, row.columns name = (record.get? name).bind (columns.kept name)) ∧
      ∀ name, record.get? name ≠ none → name ∈ allowed
  | _, _ => False

/-- The rows have what the columns keep of the records. -/
def Mirrors (columns : Columns V) (s : MemoryRecords V)
    (rows : Database fun _ : RecordKey => RecordRow V) : Prop :=
  ∀ key, MirrorsRow columns key.fields (s.record key) (rows key)

section mirrors

variable {columns : Columns V} {s : MemoryRecords V} {t : RecordTable V}

theorem mem_allowed {fields : Dict String V} {allowed : List String}
    (h : unsupported fields allowed = []) {name : String} (hname : fields.get? name ≠ none) :
    name ∈ allowed := by
  by_contra hnot
  have hmem : name ∈ fields.items.map Prod.fst := by
    by_contra hmissing
    exact hname (Dict.find_eq_none_iff.mpr hmissing)
  have hunsupported : name ∈ unsupported fields allowed :=
    List.mem_filter.mpr ⟨hmem, decide_eq_true hnot⟩
  rw [h] at hunsupported
  cases hunsupported

/-- A record and its row take the same write. -/
theorem MirrorsRow.write {fields : Dict String V} {allowed : List String}
    (hknown : unsupported fields allowed = []) {record : Option (Dict String V)}
    {row : Option (RecordRow V)} (h : MirrorsRow columns allowed record row) :
    MirrorsRow columns allowed (some ((record.getD .empty).update fields.items))
      (some (row.elim (PostgresRecords.excluded columns fields) fun row =>
        PostgresRecords.merge columns row fields)) := by
  have hupdated : ∀ (record : Dict String V) name,
      (record.update fields.items).get? name = (fields.get? name).or (record.get? name) :=
    fun record name => Dict.get?_update fields.nodup record name
  -- First write or later one: the row is what was excluded, or what the columns merge.
  cases record with
  | none =>
    cases row with
    | some row => exact h.elim
    | none =>
      refine ⟨fun name => ?_, fun name hname => mem_allowed hknown ?_⟩
      · rw [Option.getD_none, hupdated, Dict.get?_empty, Option.or_none]
        rfl
      · rwa [Option.getD_none, hupdated, Dict.get?_empty, Option.or_none] at hname
  | some record =>
    cases row with
    | none => exact h.elim
    | some row =>
      refine ⟨fun name => ?_, fun name hname => ?_⟩
      · rw [Option.getD_some, hupdated]
        show (if name ∈ fields.items.map Prod.fst then _ else row.columns name) = _
        -- A field of the write is found as written; any other as it was.
        cases hfield : fields.get? name with
        | none =>
          rw [if_neg (Dict.find_eq_none_iff.mp hfield), Option.none_or]
          exact h.1 name
        | some v =>
          have hmem : name ∈ fields.items.map Prod.fst := by
            by_contra hmissing
            rw [show fields.get? name = none from Dict.find_eq_none_iff.mpr hmissing] at hfield
            cases hfield
          rw [if_pos hmem, Option.some_or]
          show (fields.get? name).bind (columns.kept name) = _
          rw [hfield]
      · rw [Option.getD_some, hupdated] at hname
        cases hfield : fields.get? name with
        | none =>
          rw [hfield, Option.none_or] at hname
          exact h.2 name hname
        | some v => exact mem_allowed hknown (by rw [hfield]; exact Option.some_ne_none v)

/-- What the durable store accepts, the store in memory accepts, and they mirror each other
    again. -/
theorem Mirrors.write (h : Mirrors columns s t.rows) {write : RecordWrite V}
    (haccepted : ((PostgresRecords.write columns write).alone t).1 = .ok ()) :
    (s.write write).1 = .ok () ∧
      Mirrors columns (s.write write).2 ((PostgresRecords.write columns write).alone t).2.rows := by
  by_cases hknown : write.unknown = []
  · by_cases hfit : PostgresRecords.Fits columns write.fields
    · refine ⟨s.write_of_known hknown, fun key => ?_⟩
      rw [s.record_write hknown, PostgresRecords.alone_of_fit t hknown hfit]
      by_cases hkey : key = write.key
      · subst hkey
        rw [if_pos rfl, Tables.rows_write_self]
        exact MirrorsRow.write hknown (h write.key)
      · rw [if_neg hkey, Tables.rows_write_ne _ _ hkey]
        exact h key
    · rw [PostgresRecords.alone_of_unfit t hknown hfit] at haccepted
      cases haccepted
  · rw [PostgresRecords.alone_of_unknown t hknown] at haccepted
    cases haccepted

/-- **After any writes that the durable store accepts**, the stores mirror each other. -/
theorem mirrors_after {writes : List (RecordWrite V)}
    (haccepted : ∀ e ∈ (oneAtATime (PostgresRecords.write columns)).trace .empty writes,
      e.2 = .ok ()) :
    (∀ e ∈ (memoryRecords V).trace {} writes, e.2 = .ok ()) ∧
      Mirrors columns ((memoryRecords V).after {} writes)
        ((oneAtATime (PostgresRecords.write columns)).after .empty writes).rows := by
  induction writes using List.reverseRecOn with
  | nil => exact ⟨nofun, fun key => by cases key <;> trivial⟩
  | append_singleton writes write ih =>
    rw [Machine.trace_concat] at haccepted
    obtain ⟨hreplies, hmirrors⟩ := ih fun e he => haccepted e (List.mem_append_left _ he)
    have hlast := haccepted _ (List.mem_append_right _ List.mem_cons_self)
    obtain ⟨hreply, hnext⟩ := hmirrors.write hlast
    rw [Machine.trace_concat, Machine.after_concat, Machine.after_concat]
    refine ⟨fun e he => ?_, hnext⟩
    rcases List.mem_append.mp he with he | he
    · exact hreplies e he
    · obtain rfl := List.mem_singleton.mp he
      exact hreply

end mirrors

/-! ## Section 7: Reads -/

section reads

variable {columns : Columns V} {s : MemoryRecords V} {t : RecordTable V}

theorem sortedNames_nodup {names : List String} (h : names.Nodup) : (sortedNames names).Nodup :=
  (List.perm_insertionSort _ names).nodup_iff.mpr h

theorem mem_sortedNames {names : List String} {name : String} :
    name ∈ sortedNames names ↔ name ∈ names := (List.perm_insertionSort _ names).mem_iff

/-- What is presented of a row. -/
theorem get?_present {allowed : List String} (hnodup : allowed.Nodup) (row : RecordRow V)
    (name : String) : (PostgresRecords.present row allowed).get? name
      = if name ∈ allowed then row.columns name else none := by
  unfold PostgresRecords.present
  rw [Dict.get?_ofList (Dict.nodup_filterMap row.columns (sortedNames_nodup hnodup)),
    Dict.find_filterMap]
  simp only [mem_sortedNames]

theorem fields_nodup (key : RecordKey) : key.fields.Nodup := by
  have hbranch : branchFields.Nodup := by decide
  have husage : modelUsageFields.Nodup := by decide
  cases key with
  | branch branchId => exact hbranch
  | modelUsage branchId model => exact husage

/-- A row that mirrors a record reads as it does. -/
theorem MirrorsRow.reads {key : RecordKey} {record : Option (Dict String V)}
    {row : Option (RecordRow V)} (h : MirrorsRow columns key.fields record row) :
    ReadsAs columns record (row.map fun row => PostgresRecords.present row key.fields) := by
  cases record with
  | none =>
    cases row with
    | none => trivial
    | some row => exact h.elim
  | some record =>
    cases row with
    | none => exact h.elim
    | some row =>
      intro name
      rw [get?_present (fields_nodup key)]
      by_cases hname : name ∈ key.fields
      · rw [if_pos hname]
        exact h.1 name
      · have hnone : record.get? name = none := by
          by_contra hsome
          exact hname (h.2 name hsome)
        rw [if_neg hname, hnone]
        rfl

/-- The usage of a branch, read by model. -/
theorem MemoryRecords.get?_readModelUsage (branchId model : String) :
    (s.readModelUsage branchId).get? model = s.record (.modelUsage branchId model) := by
  refine Option.ext fun counts => ?_
  have hitems : s.modelUsage.items.Nodup := List.Nodup.of_map Prod.fst s.modelUsage.nodup
  refine (Dict.get?_ofList_filterMap hitems (fun i hi j hj k v w hv hw => ?_) model counts).trans ?_
  · unfold readModelUsage.usageOf at hv hw
    -- The branch's keys are told apart by the model alone.
    split at hv
    · next hbranch =>
      split at hw
      · next hbranch' =>
        obtain ⟨hk, _⟩ := Prod.mk.inj (Option.some.inj hv)
        obtain ⟨hk', _⟩ := Prod.mk.inj (Option.some.inj hw)
        have hsame : i.1 = j.1 :=
          Prod.ext (hbranch.trans hbranch'.symm) (hk.trans hk'.symm)
        exact List.inj_on_of_nodup_map s.modelUsage.nodup hi hj hsame
      · cases hw
    · cases hv
  · show _ ↔ Dict.find (branchId, model) s.modelUsage.items = some counts
    rw [Dict.find_eq_some_iff s.modelUsage.nodup]
    refine ⟨?_, fun hmem => ⟨_, hmem, if_pos rfl⟩⟩
    rintro ⟨⟨⟨recorded, used⟩, v⟩, hmem, hview⟩
    unfold readModelUsage.usageOf at hview
    split at hview
    · next hbranch =>
      obtain ⟨rfl, rfl⟩ := Prod.mk.inj (Option.some.inj hview)
      obtain rfl : recorded = branchId := hbranch
      exact hmem
    · cases hview

theorem usageOf_eq_some {branchId model : String} {key : RecordKey} {counts : Dict String V}
    (h : PostgresRecords.usageOf t branchId key = some (model, counts)) :
    key = .modelUsage branchId model ∧ (t.rows (.modelUsage branchId model)).map
      (fun row => PostgresRecords.present row modelUsageFields) = some counts := by
  cases key with
  | branch other => cases h
  | modelUsage recorded used =>
    replace h : (if recorded = branchId then (t.rows (.modelUsage recorded used)).map
        fun row => (used, PostgresRecords.present row modelUsageFields) else none)
          = some (model, counts) := h
    by_cases hbranch : recorded = branchId
    · rw [if_pos hbranch] at h
      subst hbranch
      obtain ⟨row, hrow, heq⟩ := Option.map_eq_some_iff.mp h
      obtain ⟨rfl, rfl⟩ := Prod.mk.inj heq
      exact ⟨rfl, by rw [hrow]; rfl⟩
    · rw [if_neg hbranch] at h
      cases h

/-- The rows of a branch, read by model. -/
theorem PostgresRecords.get?_readModelUsage (branchId model : String) :
    (PostgresRecords.readModelUsage t branchId).get? model
      = (t.rows (.modelUsage branchId model)).map
          fun row => PostgresRecords.present row modelUsageFields := by
  refine Option.ext fun counts => ?_
  refine (Dict.get?_ofList_filterMap t.nodup
    (fun i hi j hj k v w hv hw => ?_) model counts).trans ?_
  · exact (usageOf_eq_some hv).1.trans (usageOf_eq_some hw).1.symm
  · refine ⟨?_, fun hcounts => ?_⟩
    · rintro ⟨key, _, hview⟩
      exact (usageOf_eq_some hview).2
    · obtain ⟨row, hrow, rfl⟩ := Option.map_eq_some_iff.mp hcounts
      have hmem : RecordKey.modelUsage branchId model ∈ t.keys :=
        (t.mem_keys _).mpr (by rw [hrow]; exact Option.some_ne_none _)
      refine ⟨_, hmem, ?_⟩
      show (if branchId = branchId then (t.rows _).map _ else none) = _
      rw [if_pos rfl, hrow]
      rfl

/-- Stores that mirror each other read alike. -/
theorem Mirrors.reads (h : Mirrors columns s t.rows) : RecordsAgree columns s t := by
  refine ⟨fun branchId => (h (.branch branchId)).reads, fun branchId model => ?_⟩
  rw [MemoryRecords.get?_readModelUsage, PostgresRecords.get?_readModelUsage]
  exact (h (.modelUsage branchId model)).reads

end reads

/-! ## Section 8: The order of commits -/

/-- What is raised is what the store in memory raises, of the same fields, or a value that does not
    fit. -/
def RefusedAlike (columns : Columns V) (write : RecordWrite V) : RecordError → Prop
  | .unknownFields e =>
    ∀ s : MemoryRecords V, ∃ table, s.write write = (.error ⟨table, e.names⟩, s)
  | .badValue => ∃ field ∈ write.fields.items, columns.stored field.1 field.2 = none

theorem refusedAlike_of_alone {columns : Columns V} {write : RecordWrite V} {t : RecordTable V}
    {error : RecordError}
    (h : ((PostgresRecords.write columns write).alone t).1 = .error error) :
    RefusedAlike columns write error := by
  by_cases hknown : write.unknown = []
  · by_cases hfit : PostgresRecords.Fits columns write.fields
    · rw [PostgresRecords.alone_of_fit t hknown hfit] at h
      cases h
    · rw [PostgresRecords.alone_of_unfit t hknown hfit] at h
      cases h
      simpa [RefusedAlike, PostgresRecords.Fits] using hfit
  · rw [PostgresRecords.alone_of_unknown t hknown] at h
    cases h
    exact fun s => ⟨_, s.write_of_unknown hknown⟩

/-- **No recorded field is lost**: for every schedule of overlapping writes to the durable store,
    with clients cut off anywhere, the store in memory accepts the committed writes in the order of
    their commits, and however the rows come, the durable store then reads as the one in memory.
    What was refused, the store in memory refuses with the same names, or a value of it does not
    fit its column. -/
theorem records_in_commit_order (columns : Columns V)
    (schedule : List (Action (RecordWrite V))) :
    let w := World.after (PostgresRecords.write columns) { db := fun _ => none } schedule
    let writes := (World.committed w.log).map Sigma.fst
    (∀ e ∈ (memoryRecords V).trace {} writes, e.2 = .ok ()) ∧
    (∀ t : RecordTable V, t.rows = w.db →
      RecordsAgree columns ((memoryRecords V).after {} writes) t) ∧
    ∀ tid write error, Event.raised tid write error ∈ w.log →
      RefusedAlike columns write error := by
  intro w writes
  obtain ⟨hdb, hresults, hraised⟩ :=
    World.serial_in_commit_order PostgresRecords.write_locks schedule
  -- A transaction that committed was accepted alone, at its place in the commit order.
  have haccepted : ∀ e ∈ (oneAtATime (PostgresRecords.write columns)).trace .empty writes,
      e.2 = .ok () := by
    intro e he
    rw [show (oneAtATime (PostgresRecords.write columns)).trace .empty writes = _ from
      hresults] at he
    obtain ⟨event, _, hevent⟩ := List.mem_filterMap.mp he
    cases event with
    | committed tid call result wrote =>
      obtain rfl := Option.some.inj hevent
      rfl
    | _ => cases hevent
  obtain ⟨hreplies, hmirrors⟩ := mirrors_after haccepted
  refine ⟨hreplies, fun t ht => Mirrors.reads ?_, fun tid write error hmem => ?_⟩
  · rw [ht]
    rw [show w.db = _ from hdb]
    exact hmirrors
  · obtain ⟨t, halone⟩ := hraised tid write error hmem
    exact refusedAlike_of_alone halone

/-- Two clients merge into one record at once: the second waits for the first, and both fields are
    there. -/
example :
    let fields : String → Nat → Dict String Nat := fun name n => .ofList [(name, n)]
    let w := World.after (PostgresRecords.write ⟨fun _ n => some (some n)⟩)
      { db := fun _ => none }
      [.begin (.recordBranch "b" (fields "tool_calls" 2)),
        .begin (.recordBranch "b" (fields "started_at" 7)), .run 0, .run 1, .finish 0, .run 1,
        .finish 1]
    ((w.db (.branch "b")).map fun row => (PostgresRecords.present row branchFields).items)
      = some [("started_at", 7), ("tool_calls", 2)] := by decide +kernel

end Semora
