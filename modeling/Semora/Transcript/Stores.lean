import Semora.Framework.Dict
import Semora.Framework.Lists
import Semora.Framework.Machine
import Semora.Framework.OneAtATime

/-! # Transcript Stores

    `semora_store.transcript.MemoryTranscript` and its PostgreSQL counterpart
    `semora_store_pg.transcript.PostgresTranscript`, as far as entries are
    concerned. To both an entry is opaque but for the conversation it belongs
    to and its identity in it.

    The in-memory store cuts the newest tail out of a list by a computed
    start; the durable one sorts by arrival and limits. The two agree but for
    a limit that is longer than the conversation and not twice as long. -/

namespace Semora

open ReadCommitted

/-- What the stores read of an entry. -/
class TranscriptEntry (E : Type) where
  /-- `entry["conversation_id"]`. -/
  conversationId : E → String
  /-- `entry["uuid"]`. -/
  uuid : E → String

/-- What identifies an entry. -/
def TranscriptEntry.key {E : Type} [TranscriptEntry E] (entry : E) : String × String :=
  (conversationId entry, uuid entry)

open TranscriptEntry

variable {E : Type} [TranscriptEntry E]

/-! ## Section 1: In memory -/

/-- `MemoryTranscript`, as far as entries are concerned. -/
structure MemoryTranscript (E : Type) where
  /-- `_rows`: `(seq, entry)`, by conversation. -/
  rows : Dict String (List (Nat × E)) := Dict.empty
  /-- `_seen`. -/
  seen : List (String × String) := []
  /-- `_sequence`. -/
  sequence : Nat := 0

namespace MemoryTranscript

/-- Append an entry unless its conversation already holds that `uuid`. -/
def append (t : MemoryTranscript E) (entry : E) : Bool × MemoryTranscript E :=
  if key entry ∈ t.seen then (false, t)
  else
    let sequence := t.sequence + 1
    (true,
      { rows := t.rows.set (conversationId entry)
          (t.rows.getD (conversationId entry) [] ++ [(sequence, entry)])
        seen := key entry :: t.seen
        sequence := sequence })

/-- Return entries in arrival order, optionally limited to the newest tail. -/
def read (t : MemoryTranscript E) (conversationId : String) (limit : Option Int) : List E :=
  let rows := t.rows.getD conversationId []
  let window := match limit with
    | none => rows
    | some limit => if limit > 0 then rows.sliceFrom (rows.length - limit) else []
  window.map Prod.snd

end MemoryTranscript

/-! ## Section 2: In PostgreSQL -/

/-- A row of `ledger_transcript`; `seq` is a `bigserial`. -/
structure TranscriptRow (E : Type) where
  entry : E
  seq : Nat

/-- `ledger_transcript`, unique by conversation and uuid. -/
abbrev TranscriptTable (E : Type) := Tables fun _ : String × String => TranscriptRow E

namespace PostgresTranscript

/-- Append an entry verbatim and report whether it was new. -/
def append (entry : E) : Txn (fun _ : String × String => TranscriptRow E) Empty Bool := do
  let inserted ← Txn.exec (.insertSerial (key entry) fun seq => ⟨entry, seq⟩)
  pure inserted.isSome

/-- `from ledger_transcript where conversation_id = …`. -/
def rowsOf (t : TranscriptTable E) (conversationId : String) : List (TranscriptRow E) :=
  (t.keys.filter fun k => k.1 = conversationId).filterMap t.rows

/-- `order by seq`. -/
def orderBySeq (rows : List (TranscriptRow E)) : List (TranscriptRow E) :=
  rows.insertionSort fun a b => a.seq ≤ b.seq

/-- `order by seq desc`. -/
def orderBySeqDesc (rows : List (TranscriptRow E)) : List (TranscriptRow E) :=
  rows.insertionSort fun a b => b.seq ≤ a.seq

/-- Return entries in arrival order, optionally limited to the newest tail. -/
def read (t : TranscriptTable E) (conversationId : String) (limit : Option Int) : List E :=
  let rows := match limit with
    | none => orderBySeq (rowsOf t conversationId)
    | some limit =>
        orderBySeq ((orderBySeqDesc (rowsOf t conversationId)).take (max limit 0).toNat)
  rows.map TranscriptRow.entry

end PostgresTranscript

/-- Appends to the in-memory store. -/
def memoryTranscript (E : Type) [TranscriptEntry E] :
    Machine (MemoryTranscript E) E fun _ => Bool where
  step t entry := t.append entry

/-- Appends to the durable store, each a transaction that nobody overlaps. -/
def postgresTranscript (E : Type) [TranscriptEntry E] :
    Machine (TranscriptTable E) E fun _ => Except Empty Bool where
  step t entry := (PostgresTranscript.append entry).alone t

/-! ## Section 3: What is to be proved -/

/-- The entries of a conversation, each once, in the order of their first arrival. -/
def arrivals (conversation : String) (entries : List E) : List E :=
  (entries.firstBy key).filter fun entry => conversationId entry = conversation

/-- The newest of them, as many as the limit says. -/
def newest (limit : Option Int) (entries : List E) : List E :=
  match limit with
  | none => entries
  | some limit => entries.lastUpTo (max limit 0).toNat

/-- Both stores, after these appends, answer this read as they should, and have reported for each
    entry whether it was the first of its identity. -/
structure ReadsAgree (entries : List E) (conversation : String) (limit : Option Int) : Prop where
  memory : ((memoryTranscript E).after {} entries).read conversation limit
    = newest limit (arrivals conversation entries)
  postgres : PostgresTranscript.read ((postgresTranscript E).after .empty entries) conversation
    limit = newest limit (arrivals conversation entries)
  memoryReports : ∀ i entry, entries[i]? = some entry →
    (memoryTranscript E).reply ((memoryTranscript E).upTo {} entries i) entry
      = decide (key entry ∉ (entries.take i).map key)
  postgresReports : ∀ i entry, entries[i]? = some entry →
    (postgresTranscript E).reply ((postgresTranscript E).upTo .empty entries i) entry
      = .ok (decide (key entry ∉ (entries.take i).map key))

/-! ## Section 4: The stores after appends -/

/-- The in-memory store holds what arrived. -/
structure MemoryHolds (entries : List E) (t : MemoryTranscript E) : Prop where
  rows : ∀ conversation, (t.rows.getD conversation []).map Prod.snd
    = arrivals conversation entries
  seen : ∀ k, k ∈ t.seen ↔ k ∈ entries.map key

theorem arrivals_concat (conversation : String) (entries : List E) (entry : E) :
    arrivals conversation (entries ++ [entry]) =
      if key entry ∉ entries.map key ∧ conversationId entry = conversation then
        arrivals conversation entries ++ [entry]
      else arrivals conversation entries := by
  unfold arrivals
  rw [List.firstBy_concat]
  by_cases hold : key entry ∈ entries.map key
  · rw [if_pos hold, if_neg (fun h => h.1 hold)]
  · rw [if_neg hold, List.filter_append]
    by_cases hhere : conversationId entry = conversation
    · rw [if_pos ⟨hold, hhere⟩, List.filter_cons_of_pos (by simpa using hhere)]
      rfl
    · rw [if_neg (fun h => hhere h.2), List.filter_cons_of_neg (by simpa using hhere)]
      simp

theorem MemoryHolds.append {entries : List E} {t : MemoryTranscript E} (h : MemoryHolds entries t)
    (entry : E) : MemoryHolds (entries ++ [entry]) (t.append entry).2 := by
  unfold MemoryTranscript.append
  -- An entry seen before is dropped; a new one is put last in its own conversation.
  by_cases hold : key entry ∈ t.seen
  · rw [if_pos hold]
    have hmem := (h.seen _).mp hold
    refine ⟨fun conversation => ?_, fun k => ?_⟩
    · rw [arrivals_concat, if_neg (fun hnew => hnew.1 hmem)]
      exact h.rows conversation
    · rw [h.seen, List.map_append, List.mem_append]
      refine (or_iff_left_of_imp ?_).symm
      intro hk
      rw [List.mem_singleton.mp hk]
      exact hmem
  · rw [if_neg hold]
    have hnew : key entry ∉ entries.map key := fun hmem => hold ((h.seen _).mpr hmem)
    refine ⟨fun conversation => ?_, fun k => ?_⟩
    · rw [arrivals_concat, Dict.getD_set]
      by_cases hhere : conversationId entry = conversation
      · rw [if_pos hhere.symm, if_pos ⟨hnew, hhere⟩, List.map_append, hhere, h.rows]
        rfl
      · rw [if_neg (Ne.symm hhere), if_neg (fun h => hhere h.2)]
        exact h.rows conversation
    · rw [List.mem_cons, h.seen, List.map_append, List.mem_append, or_comm]
      simp

theorem memory_holds (entries : List E) :
    MemoryHolds entries ((memoryTranscript E).after {} entries) := by
  induction entries using List.reverseRecOn with
  | nil => exact ⟨fun _ => rfl, fun _ => Iff.rfl⟩
  | append_singleton entries entry ih =>
    rw [Machine.after_concat]
    exact ih.append entry

/-- The table holds what arrived, numbered in that order: these are its rows. -/
structure TableHolds (entries : List E) (t : TranscriptTable E) (stored : List (TranscriptRow E)) :
    Prop where
  entries : stored.map TranscriptRow.entry = entries.firstBy key
  keys : t.keys = stored.map fun row => key row.entry
  rows : ∀ row ∈ stored, t.rows (key row.entry) = some row
  ordered : stored.Pairwise fun a b => a.seq < b.seq
  bound : ∀ row ∈ stored, row.seq < t.serial

/-- Only what is among the appended has a row. -/
theorem TableHolds.isNone {entries : List E} {t : TranscriptTable E}
    {stored : List (TranscriptRow E)} (h : TableHolds entries t stored) (k : String × String) :
    (t.rows k).isNone = decide (k ∉ entries.map key) := by
  have hkeys : t.keys = (entries.firstBy key).map key := by
    rw [h.keys, ← h.entries, List.map_map]
    rfl
  have hmem : k ∈ entries.map key ↔ t.rows k ≠ none := by
    rw [← t.mem_keys, hkeys]
    exact (List.mem_keys_firstBy key).symm
  cases hrow : t.rows k with
  | none => simpa [hrow] using hmem
  | some row => simpa [hrow] using hmem

theorem eval_append (entry : E) (t : TranscriptTable E) :
    (PostgresTranscript.append entry).eval t =
      (.ok (t.rows (key entry)).isNone,
        (t.put (key entry) ((t.rows (key entry)).elim (some ⟨entry, t.serial⟩) fun _ => none)).draw
          1) := by
  refine (Txn.eval_bind_of_ok (Txn.eval_insertSerial ..) _).trans ?_
  cases t.rows (key entry) <;> rfl

/-- An append adds a row behind the others, or changes nothing but the serial. -/
theorem TableHolds.append {entries : List E} {t : TranscriptTable E}
    {stored : List (TranscriptRow E)} (h : TableHolds entries t stored) (entry : E) :
    ∃ stored', TableHolds (entries ++ [entry]) ((PostgresTranscript.append entry).alone t).2
      stored' := by
  rw [Txn.alone_of_ok (eval_append entry t)]
  have hnone := h.isNone (key entry)
  -- A conflict draws a number and writes nothing; a new row has the largest number yet.
  cases hrow : t.rows (key entry) with
  | some row =>
    rw [hrow] at hnone
    have hold : key entry ∈ entries.map key := by simpa using hnone
    refine ⟨stored, ?_, h.keys, h.rows, h.ordered, fun row hmem => ?_⟩
    · rw [List.firstBy_concat, if_pos hold]
      exact h.entries
    · exact Nat.lt_succ_of_lt (h.bound row hmem)
  | none =>
    rw [hrow] at hnone
    have hnew : key entry ∉ entries.map key := by simpa using hnone
    have hkeys := t.keysWith_of_none hrow
    refine ⟨stored ++ [⟨entry, t.serial⟩], ?_, ?_, fun row hmem => ?_, ?_, fun row hmem => ?_⟩
    · rw [List.firstBy_concat, if_neg hnew, List.map_append, h.entries]
      rfl
    · show t.keysWith (key entry) = _
      rw [hkeys, h.keys, List.map_append]
      rfl
    · show (t.write (key entry) ⟨entry, t.serial⟩).rows (key row.entry) = some row
      rcases List.mem_append.mp hmem with hmem | hmem
      · have hother : key row.entry ≠ key entry := by
          intro heq
          have hsome := h.rows row hmem
          rw [heq, hrow] at hsome
          exact Option.some_ne_none _ hsome.symm
        rw [Tables.rows_write_ne _ _ hother]
        exact h.rows row hmem
      · obtain rfl := List.mem_singleton.mp hmem
        exact Tables.rows_write_self ..
    · refine List.pairwise_append.mpr ⟨h.ordered, List.pairwise_singleton .., ?_⟩
      intro a ha b hb
      obtain rfl := List.mem_singleton.mp hb
      exact h.bound a ha
    · show row.seq < t.serial + 1
      rcases List.mem_append.mp hmem with hmem | hmem
      · exact Nat.lt_succ_of_lt (h.bound row hmem)
      · obtain rfl := List.mem_singleton.mp hmem
        exact Nat.lt_succ_self _

theorem table_holds (entries : List E) :
    ∃ stored, TableHolds entries ((postgresTranscript E).after .empty entries) stored := by
  induction entries using List.reverseRecOn with
  | nil => exact ⟨[], rfl, rfl, fun _ h => absurd h List.not_mem_nil, .nil,
      fun _ h => absurd h List.not_mem_nil⟩
  | append_singleton entries entry ih =>
    rw [Machine.after_concat]
    obtain ⟨stored, hstored⟩ := ih
    exact hstored.append entry

/-! ## Section 5: What they read -/

/-- The durable read returns the newest of what arrived, whatever the limit. -/
theorem TableHolds.read {entries : List E} {t : TranscriptTable E}
    {stored : List (TranscriptRow E)} (h : TableHolds entries t stored) (conversation : String)
    (limit : Option Int) :
    PostgresTranscript.read t conversation limit
      = newest limit (arrivals conversation entries) := by
  let here := stored.filter fun row => conversationId row.entry = conversation
  have hrows : PostgresTranscript.rowsOf t conversation = here := by
    have hfilterMap : ∀ rows : List (TranscriptRow E), (∀ row ∈ rows, row ∈ stored) →
        (rows.map fun row => key row.entry).filterMap t.rows = rows := by
      intro rows hsub
      induction rows with
      | nil => rfl
      | cons row rest ih =>
        rw [List.map_cons, List.filterMap_cons_some (h.rows row (hsub row List.mem_cons_self)),
          ih fun other hmem => hsub other (List.mem_cons_of_mem _ hmem)]
    unfold PostgresTranscript.rowsOf
    rw [h.keys, List.filter_map]
    exact hfilterMap _ fun row hmem => (List.mem_filter.mp hmem).1
  have hordered : here.Pairwise fun a b => a.seq < b.seq := h.ordered.sublist List.filter_sublist
  -- The rows of a conversation in order of their numbers are its arrivals.
  have hentries : here.map TranscriptRow.entry = arrivals conversation entries := by
    unfold arrivals
    rw [← h.entries, List.filter_map]
    rfl
  unfold PostgresTranscript.read newest
  rw [hrows]
  -- Without a limit they are sorted; with one, the newest are taken and turned round.
  cases limit with
  | none =>
    have hsorted : PostgresTranscript.orderBySeq here = here :=
      (hordered.imp fun hlt => Nat.le_of_lt hlt).insertionSort_eq
    rw [hsorted]
    exact hentries
  | some limit =>
    have hdesc : PostgresTranscript.orderBySeqDesc here = here.reverse :=
      List.insertionSort_eq_reverse _ (hordered.imp fun hlt => Nat.not_le_of_lt hlt)
    have htail : ∀ n, PostgresTranscript.orderBySeq (here.reverse.take n) = here.lastUpTo n := by
      intro n
      have hfalling : (here.reverse.take n).Pairwise fun a b => ¬ a.seq ≤ b.seq :=
        ((List.pairwise_reverse.mpr hordered).imp fun hlt => Nat.not_le_of_lt hlt).sublist
          (List.take_sublist ..)
      exact (List.insertionSort_eq_reverse _ hfalling).trans (List.reverse_take_reverse n here)
    dsimp only
    rw [hdesc, htail, List.map_lastUpTo, hentries]

/-- The in-memory read returns the newest of what arrived, but for a limit that is longer and not
    twice as long. -/
theorem MemoryHolds.read_iff {entries : List E} {t : MemoryTranscript E}
    (h : MemoryHolds entries t) (conversation : String) (limit : Option Int) :
    t.read conversation limit = newest limit (arrivals conversation entries) ↔
      ∀ n, limit = some n → n ≤ (arrivals conversation entries).length ∨
        2 * (arrivals conversation entries).length ≤ n := by
  have hrows := h.rows conversation
  unfold MemoryTranscript.read newest
  cases limit with
  | none => exact iff_of_true hrows fun n hn => by cases hn
  | some limit =>
    have hlength : (t.rows.getD conversation []).length =
      (arrivals conversation entries).length := by
      rw [← hrows, List.length_map]
    dsimp only
    -- A slice with a negative start takes from the other end: right when it falls at or past the
    -- beginning.
    by_cases hpositive : limit > 0
    · obtain ⟨n, rfl⟩ : ∃ n : Nat, limit = n := ⟨limit.toNat, by omega⟩
      have hmax : (max (n : Int) 0).toNat = n := by omega
      rw [if_pos hpositive, hmax, List.map_sliceFrom, hrows, hlength,
        List.sliceFrom_eq_lastUpTo_iff]
      refine ⟨fun hle m hm => ?_, fun hle => ?_⟩
      · obtain rfl := Option.some.inj hm
        omega
      · have hn := hle n rfl
        omega
    · have hmax : (max limit 0).toNat = 0 := by omega
      rw [if_neg hpositive, hmax]
      refine iff_of_true ?_ fun m hm => ?_
      · unfold List.lastUpTo
        rw [Nat.sub_zero, List.drop_length]
        rfl
      · obtain rfl := Option.some.inj hm
        omega

/-! ## Section 6: The condition -/

/-- **Transcript reads agree, within bounds**: after any appends both stores return the newest
    entries of a conversation and have reported which were new, if and only if the limit does not
    pass the number of entries, or is at least twice that number. The durable store alone does so
    for every limit. -/
theorem reads_agree_iff (entries : List E) (conversation : String) (limit : Option Int) :
    ReadsAgree entries conversation limit ↔
      ∀ n, limit = some n → n ≤ (arrivals conversation entries).length ∨
        2 * (arrivals conversation entries).length ≤ n := by
  have hmemory := (memory_holds entries).read_iff conversation limit
  refine ⟨fun h => hmemory.mp h.memory, fun hlimit => ⟨hmemory.mpr hlimit, ?_, ?_, ?_⟩⟩
  · obtain ⟨stored, hstored⟩ := table_holds entries
    exact hstored.read conversation limit
  · intro i entry _
    have hseen := (memory_holds (entries.take i)).seen (key entry)
    show (MemoryTranscript.append ((memoryTranscript E).after {} (entries.take i)) entry).1 = _
    unfold MemoryTranscript.append
    by_cases hold : key entry ∈ ((memoryTranscript E).after {} (entries.take i)).seen
    · rw [if_pos hold, decide_eq_false (not_not_intro (hseen.mp hold))]
    · have hnew : key entry ∉ (entries.take i).map key := fun hmem => hold (hseen.mpr hmem)
      rw [if_neg hold, decide_eq_true hnew]
  · intro i entry _
    obtain ⟨stored, hstored⟩ := table_holds (entries.take i)
    show ((PostgresTranscript.append entry).alone
      ((postgresTranscript E).after .empty (entries.take i))).1 = _
    rw [Txn.alone_of_ok (eval_append entry _), hstored.isNone]

/-- An entry that is nothing but what identifies it. -/
instance : TranscriptEntry (String × String) where
  conversationId := Prod.fst
  uuid := Prod.snd

/-- Three entries and a limit of five: in memory the start is negative, and two are returned. -/
theorem reads_differ :
    ¬ ReadsAgree [("c", "1"), ("c", "2"), ("c", "3")] "c" (some 5) := by
  intro h
  have hread : ((memoryTranscript (String × String)).after {}
      [("c", "1"), ("c", "2"), ("c", "3")]).read "c" (some 5) = [("c", "2"), ("c", "3")] := by
    decide +kernel
  have hnewest : newest (some 5) (arrivals "c" [("c", "1"), ("c", "2"), ("c", "3")])
      = [("c", "1"), ("c", "2"), ("c", "3")] := by
    decide +kernel
  exact absurd (hread.symm.trans (h.memory.trans hnewest)) (by decide)

end Semora
