import Semora.Framework.JsonText
import Semora.Transcript.Stores
import Mathlib.Data.Nat.Basic

/-! # Transcript Entries

    `semora.transcript`: messages as entries of an append-only log. Entries
    chain through `parent_uuid`; `leaf` markers move the active tip without
    deleting anything, `tombstone` markers hide one entry.

    Pydantic AI's messages and their encoding, SHA-256 and the clock come from
    outside. An entry's `message` is the body Pydantic encodes it as. -/

namespace Semora

/-- Python's scalars: how they are written, what `==` makes of them, and `None`. -/
class PythonScalar (S : Type) extends JsonTree.Words S where
  Value : Type
  [decEq : DecidableEq Value]
  value : S → Value
  none : S

instance {S : Type} [PythonScalar S] : DecidableEq (PythonScalar.Value S) := PythonScalar.decEq

/-- What comes from outside. -/
structure Outside (S M : Type) where
  /-- `to_jsonable_python`, of a message. -/
  encode : M → JsonTree S
  /-- `ModelMessagesTypeAdapter.validate_python`, of one body. -/
  decode : JsonTree S → M
  /-- `hashlib.sha256(text.encode()).hexdigest()[:32]`. -/
  sha256 : String → String
  /-- `datetime.now(UTC).isoformat()` for the n-th encoded message. -/
  messageTime : Nat → String
  /-- `datetime.now(UTC).isoformat()` for the n-th marker. -/
  markerTime : Nat → String
  /-- A body is a dictionary. -/
  wf : ∀ m, (encode m).Wf
  /-- It names the kind of its message. -/
  kind : ∀ m, (encode m).child (.key "kind") = some (.str "request") ∨
    (encode m).child (.key "kind") = some (.str "response")

/-! ## Section 1: Identities -/

/-- `_VOLATILE`: message fields excluded from deterministic entry identifiers. -/
def volatile : List String :=
  ["timestamp", "run_id", "branch_id", "conversation_id", "usage", "provider_details",
    "provider_response_id", "provider_name", "provider_url", "finish_reason", "model_name"]

variable {S M : Type}

/-- Remove fields that vary across equivalent conversation replays. -/
def stripped (value : JsonTree S) : JsonTree S := value.without fun k => k ∈ volatile

/-- Derive an idempotent entry identifier from its parent and stable body fields. -/
def entryId [PythonScalar S] (sha256 : String → String) (parentUuid : Option String)
    (body : JsonTree S) : String :=
  sha256 (parentUuid.getD "" ++ "\x1f" ++ JsonTree.dumps true (stripped body))

/-! ## Section 2: Entries -/

/-- An entry. `parentUuid` and `leafUuid` tell an absent key from a key with `None`. -/
structure Entry (S : Type) where
  uuid : String
  conversationId : String
  type : String
  timestamp : String
  parentUuid : Option (Option String) := none
  message : Option (JsonTree S) := none
  metadata : List (String × String) := []
  leafUuid : Option (Option String) := none
  deletedUuid : Option String := none

instance : TranscriptEntry (Entry S) where
  conversationId := Entry.conversationId
  uuid := Entry.uuid

/-- `"parent_uuid" in entry`. -/
def Entry.chained (entry : Entry S) : Bool := entry.parentUuid.isSome

/-- The body, when it is a dictionary. -/
def Entry.body? (entry : Entry S) : Option (JsonTree S) :=
  match entry.message with
  | some (.obj fields) => some (.obj fields)
  | _ => none

/-- `str(body.get("kind", ""))`. -/
def bodyKind (body : JsonTree S) : String :=
  match body.child (.key "kind") with
  | some (.str kind) => kind
  | _ => ""

/-- Encode one message as a transcript entry. -/
def messageEntry [PythonScalar S] (outside : Outside S M) (message : M) (conversationId : String)
    (parentUuid : Option String) (metadata : List (String × String)) (timestamp : String) :
    Entry S :=
  let body := outside.encode message
  { uuid := entryId outside.sha256 parentUuid body
    parentUuid := some parentUuid
    conversationId := conversationId
    type := bodyKind body
    timestamp := timestamp
    message := some body
    metadata := metadata }

/-- The kinds of markers, with their fields. -/
inductive Marker where
  | leaf (leafUuid : Option String)
  | tombstone (deletedUuid : String)
  deriving DecidableEq

/-- `{"type": kind, **fields}`. -/
def Marker.body [PythonScalar S] : Marker → JsonTree S
  | .leaf leafUuid => .obj [("type", .str "leaf"),
      ("leaf_uuid", leafUuid.elim (.scalar PythonScalar.none) .str)]
  | .tombstone deletedUuid => .obj [("type", .str "tombstone"), ("deleted_uuid", .str deletedUuid)]

/-- Create an unchained transcript marker: `leaf` markers receive positional identities, others
    are content-addressed. -/
def markerEntry [PythonScalar S] (sha256 : String → String) (marker : Marker)
    (conversationId timestamp : String) : Entry S :=
  match marker with
  | .leaf leafUuid =>
    { uuid := entryId sha256 (some timestamp) (marker.body : JsonTree S)
      conversationId := conversationId
      timestamp := timestamp
      type := "leaf"
      leafUuid := some leafUuid }
  | .tombstone deletedUuid =>
    { uuid := entryId sha256 none (marker.body : JsonTree S)
      conversationId := conversationId
      timestamp := timestamp
      type := "tombstone"
      deletedUuid := some deletedUuid }

/-! ## Section 3: The active branch -/

/-- `{entry["uuid"]: entry for entry in entries if "parent_uuid" in entry}`. -/
def chainedEntries (entries : List (Entry S)) : Dict String (Entry S) :=
  entries.foldl (fun found entry => if entry.chained then found.set entry.uuid entry else found)
    Dict.empty

/-- `{entry["deleted_uuid"] for entry in entries if entry.get("type") == "tombstone"}`. -/
def buried (entries : List (Entry S)) : List String :=
  entries.filterMap fun entry => if entry.type = "tombstone" then entry.deletedUuid else none

/-- The position of the last leaf marker, `marks[-1]`. -/
def lastMark (entries : List (Entry S)) : Option Nat :=
  ((entries.zipIdx.filter fun item => item.1.type = "leaf").map Prod.snd).getLast?

/-- The latest leaf marker selects the tip unless newer chained entries exist. -/
def activeTip (entries : List (Entry S)) : Option String :=
  let start := (lastMark entries).elim 0 (· + 1)
  let grown := ((entries.drop start).filter Entry.chained).map Entry.uuid
  match grown.getLast? with
  | some tip => some tip
  | none => ((lastMark entries).bind fun mark => entries[mark]?).bind fun entry =>
      entry.leafUuid.join

/-- The loop along the parent links, the tip first. It ends before every chained entry was seen
    twice; `fuel` bounds its turns. -/
def walk (found : Dict String (Entry S)) (buried : List String) :
    Nat → List String → Option String → List (Entry S)
  | 0, _, _ => []
  | _, _, none => []
  | fuel + 1, seen, some tip =>
    match found.get? tip with
    | none => []
    | some entry =>
      if tip ∈ seen then []
      else
        let rest := walk found buried fuel (tip :: seen) entry.parentUuid.join
        if tip ∈ buried then rest else entry :: rest

/-- Resolve the active transcript branch in chronological order. Tombstoned entries are omitted
    without changing parent links. -/
def activeBranch (entries : List (Entry S)) : List (Entry S) :=
  (walk (chainedEntries entries) (buried entries) entries.length [] (activeTip entries)).reverse

/-- Decode model messages from the active transcript branch. -/
def messagesOf (outside : Outside S M) (entries : List (Entry S)) : List M :=
  ((activeBranch entries).filterMap Entry.body?).map outside.decode

/-- Decode the branch ending at an explicit cursor, independent of the active leaf. `none` is a
    `LookupError`. -/
def messagesAt (outside : Outside S M) (entries : List (Entry S)) (leafUuid : Option String) :
    Option (List M) :=
  let found := chainedEntries entries
  let branch := (walk found (buried entries) entries.length [] leafUuid).reverse
  if leafUuid.any fun tip => (found.get? tip).isNone then none
  else some ((branch.filterMap Entry.body?).map outside.decode)

/-! ## Section 4: Writing -/

/-- The transcript, and how often the clock was read. -/
structure Log (S : Type) where
  store : MemoryTranscript (Entry S) := {}
  messages : Nat := 0
  markers : Nat := 0

/-- `TranscriptWriter`. -/
structure TranscriptWriter where
  conversationId : String
  branchId : String
  parentUuid : Option String := none

namespace TranscriptWriter

variable [PythonScalar S] (outside : Outside S M) (w : TranscriptWriter) (log : Log S)

/-- `_append_marker`. -/
def appendMarker (marker : Marker) : Log S :=
  { log with
    store := (log.store.append (markerEntry outside.sha256 marker w.conversationId
      (outside.markerTime log.markers))).2
    markers := log.markers + 1 }

/-- Append one message idempotently and report whether it was new. -/
def record (message : M) : Bool × TranscriptWriter × Log S :=
  let entry := messageEntry outside message w.conversationId w.parentUuid
    [("branch_id", w.branchId)] (outside.messageTime log.messages)
  let (appended, store) := log.store.append entry
  -- the chain position is the same whether or not the entry was a duplicate
  let w' := { w with parentUuid := some entry.uuid }
  let log' := { log with store := store, messages := log.messages + 1 }
  if appended then (true, w', log')
  else (false, w', w.appendMarker outside log' (.leaf (some entry.uuid)))

/-- Move the active branch tip without deleting transcript entries. -/
def rewind (leafUuid : Option String) : TranscriptWriter × Log S :=
  ({ w with parentUuid := leafUuid }, w.appendMarker outside log (.leaf leafUuid))

/-- Hide an entry from the active branch using a tombstone marker. -/
def forget (deletedUuid : String) : Log S :=
  w.appendMarker outside log (.tombstone deletedUuid)

end TranscriptWriter

/-- A call of a writer. -/
inductive WriterOp (M : Type) where
  | record (message : M)
  | rewind (leafUuid : Option String)
  | forget (deletedUuid : String)

/-- A writer and its log; a call reports whether it recorded something new. -/
def writing [PythonScalar S] (outside : Outside S M) :
    Machine (TranscriptWriter × Log S) (WriterOp M) fun _ => Bool where
  step s op := match op with
    | .record message => s.1.record outside s.2 message
    | .rewind leafUuid => (true, s.1.rewind outside s.2 leafUuid)
    | .forget deletedUuid => (true, s.1, s.1.forget outside s.2 deletedUuid)

/-- The entries of a conversation. -/
def Log.entries (log : Log S) (conversationId : String) : List (Entry S) :=
  log.store.read conversationId none

/-! ## Section 5: Plain values -/

/-- `None`, booleans and integers. Floats are scalars of the same kind. -/
inductive PyScalar where
  | none
  | bool (b : Bool)
  | int (n : Int)
  deriving DecidableEq, Repr

namespace PyScalar

/-- `json.dumps` of a scalar. -/
def word : PyScalar → List Char
  | .none => "null".toList
  | .bool true => "true".toList
  | .bool false => "false".toList
  | .int n => n.repr.toList

/-- What `==` compares: a boolean is a number. -/
def value : PyScalar → Option Int
  | .none => Option.none
  | .bool true => some 1
  | .bool false => some 0
  | .int n => some n

/-- An integer is written with digits, and a sign. -/
theorem mem_repr {n : Int} {c : Char} (h : c ∈ n.repr.toList) : c.isDigit = true ∨ c = '-' := by
  have hnat : ∀ (m : Nat) (c : Char), c ∈ m.repr.toList → c.isDigit = true := by
    intro m c hc
    rw [Nat.toList_repr] at hc
    exact Nat.isDigit_of_mem_toDigits (by decide) (by decide) hc
  cases n with
  | ofNat m => exact Or.inl (hnat m c h)
  | negSucc m =>
    have htext : (Int.negSucc m).repr = "-" ++ (m + 1).repr := rfl
    rw [htext, String.toList_append, List.mem_append] at h
    rcases h with h | h
    · exact Or.inr (List.mem_singleton.mp h)
    · exact Or.inl (hnat _ c h)

theorem natRepr_injective {m n : Nat} (h : m.repr = n.repr) : m = n := by
  have hdigits := congrArg String.toList h
  rw [Nat.toList_repr, Nat.toList_repr] at hdigits
  have hvalue := congrArg (fun digits => Nat.ofDigitChars 10 digits 0) hdigits
  simpa only [Nat.ofDigitChars_ten_toDigits] using hvalue

theorem intRepr_injective {m n : Int} (h : m.repr = n.repr) : m = n := by
  -- A sign tells the two kinds apart; behind it the digits do.
  have hsign : ∀ m n : Nat, (Int.ofNat m).repr ≠ (Int.negSucc n).repr := by
    intro m n heq
    have htext : (Int.negSucc n).repr.toList = '-' :: (n + 1).repr.toList := by
      show ("-" ++ (n + 1).repr).toList = _
      rw [String.toList_append]
      rfl
    have hmem : '-' ∈ m.repr.toList := by
      show '-' ∈ (Int.ofNat m).repr.toList
      rw [heq, htext]
      exact List.mem_cons_self
    rw [Nat.toList_repr] at hmem
    exact absurd (Nat.isDigit_of_mem_toDigits (by decide) (by decide) hmem) (by decide)
  cases m with
  | ofNat m =>
    cases n with
    | ofNat n => rw [natRepr_injective h]
    | negSucc n => exact absurd h (hsign m n)
  | negSucc m =>
    cases n with
    | ofNat n => exact absurd h.symm (hsign n m)
    | negSucc n =>
      have htext : "-" ++ (m + 1).repr = "-" ++ (n + 1).repr := h
      have hlist := congrArg String.toList htext
      rw [String.toList_append, String.toList_append] at hlist
      have hnat := natRepr_injective (String.toList_injective (List.append_cancel_left hlist))
      rw [Nat.succ.inj hnat]

theorem repr_ne_nil (n : Int) : n.repr.toList ≠ [] := by
  cases n with
  | ofNat m =>
    show m.repr.toList ≠ []
    rw [Nat.toList_repr]
    exact Nat.toDigits_ne_nil
  | negSucc m =>
    have htext : (Int.negSucc m).repr = "-" ++ (m + 1).repr := rfl
    rw [htext, String.toList_append]
    exact List.cons_ne_nil _ _

/-- No name begins as an integer does. -/
theorem repr_ne {n : Int} {c : Char} {rest : List Char} (hdigit : c.isDigit = false)
    (hsign : c ≠ '-') : n.repr.toList ≠ c :: rest := by
  intro heq
  rcases mem_repr (n := n) (c := c) (by rw [heq]; exact List.mem_cons_self) with h | h
  · rw [hdigit] at h
    cases h
  · exact hsign h

instance : PythonScalar PyScalar where
  word := word
  injective := by
    intro a b heq
    cases a with
    | none =>
      cases b with
      | none => rfl
      | bool b => cases b <;> exact absurd heq (by decide)
      | int n => exact absurd heq.symm (repr_ne (by decide) (by decide))
    | bool a =>
      cases b with
      | none => cases a <;> exact absurd heq (by decide)
      | bool b =>
        cases a <;> cases b
        · rfl
        · exact absurd heq (by decide)
        · exact absurd heq (by decide)
        · rfl
      | int n => cases a <;> exact absurd heq.symm (repr_ne (by decide) (by decide))
    | int m =>
      cases b with
      | none => exact absurd heq (repr_ne (by decide) (by decide))
      | bool b => cases b <;> exact absurd heq (repr_ne (by decide) (by decide))
      | int n => rw [intRepr_injective (String.toList_injective heq)]
  nonempty s := by
    cases s with
    | none => exact List.cons_ne_nil _ _
    | bool b => cases b <;> exact List.cons_ne_nil _ _
    | int n => exact repr_ne_nil n
  plain s c hc := by
    cases s with
    | none =>
      have hall : "null".toList.all JsonTree.isWord = true := rfl
      exact List.all_eq_true.mp hall c hc
    | bool b =>
      have htrue : "true".toList.all JsonTree.isWord = true := rfl
      have hfalse : "false".toList.all JsonTree.isWord = true := rfl
      cases b with
      | true => exact List.all_eq_true.mp htrue c hc
      | false => exact List.all_eq_true.mp hfalse c hc
    | int n =>
      unfold JsonTree.isWord
      rcases mem_repr hc with hdigit | rfl
      · simp [Char.isAlphanum, hdigit]
      · decide
  Value := Option Int
  value := value
  none := .none

end PyScalar

/-- Prompts without anything volatile. The digest is its text behind a letter, and the clock
    counts. -/
def plainOutside : Outside PyScalar String where
  encode prompt := .obj
    [("parts", .arr [.obj [("content", .str prompt), ("part_kind", .str "user-prompt")]]),
      ("kind", .str "request")]
  decode body := match body.get? [.key "parts", .index 0, .key "content"] with
    | some (.str prompt) => prompt
    | _ => ""
  sha256 text := "x" ++ text
  messageTime n := n.repr
  markerTime n := n.repr
  wf prompt := by
    refine .obj (by simp) fun field hmem => ?_
    simp only [List.mem_cons, List.not_mem_nil, or_false] at hmem
    rcases hmem with rfl | rfl
    · refine .arr fun item hitem => ?_
      rw [List.mem_singleton.mp hitem]
      refine .obj (by simp) fun field hmem => ?_
      simp only [List.mem_cons, List.not_mem_nil, or_false] at hmem
      rcases hmem with rfl | rfl <;> exact .str _
    · exact .str _
  kind prompt := Or.inl rfl

end Semora
