import Semora.Transcript.Branch

/-! # What Identities Tell Apart

    Three notions of "the same message" are in use: the identity of its entry
    under a parent (`entry_id`), the comparison of `Branch.replace`, and, for a
    request to the model, `model_step_key`. All of them look at messages
    through `stripped`, which leaves out the members under the volatile names
    at every depth, in the arguments a model chose and in the contents a tool
    returned as well as in the message's own fields.

    So a difference is seen if and only if there is one at a path without a
    volatile name on it (`entryId_ne_iff`, `treatedAsDifferent_iff`,
    `modelStepKey_ne_iff`). -/

namespace Semora

/-! ## Section 1: Requests to the model -/

/-- What `repr` and `getattr` make of a model. -/
structure ModelRef where
  modelId : Option String
  repr : String

/-- What `model_step_key` reads of a `ToolDefinition`; its other fields are left out. -/
structure FunctionTool (S : Type) where
  name : String
  description : Option String
  parametersJsonSchema : JsonTree S
  /-- A schema is a dictionary. -/
  wf : parametersJsonSchema.Wf

/-- `ModelRequestContext`. -/
structure ModelRequestContext (S M : Type) where
  modelId : Option String
  model : ModelRef
  functionTools : List (FunctionTool S)
  messages : List M

/-- `text or other`: an empty text counts as none. -/
def textOr (text : Option String) (other : String) : String :=
  match text with
  | some text => if text = "" then other else text
  | none => other

variable {S M : Type} [PythonScalar S]

/-- `[tool.name, tool.description, tool.parameters_json_schema]`. -/
def FunctionTool.toJson (tool : FunctionTool S) : JsonTree S :=
  .arr [.str tool.name, tool.description.elim (.scalar PythonScalar.none) .str,
    tool.parametersJsonSchema]

namespace ModelRequestContext

variable (outside : Outside S M) (request : ModelRequestContext S M)

/-- The model's name: what was asked for, what the model calls itself, or what it looks like. -/
def modelName : String :=
  textOr request.modelId (textOr request.model.modelId request.model.repr)

/-- The function tools. -/
def tools : JsonTree S := .arr (request.functionTools.map FunctionTool.toJson)

/-- `to_jsonable_python(request.messages)`. -/
def encoded : JsonTree S := .arr (request.messages.map outside.encode)

/-- Derive one model effect ID from its model, tools, and visible context. -/
def modelStepKey : String :=
  let body : JsonTree S := .obj
    [("model", .str request.modelName), ("tools", request.tools),
      ("messages", stripped (request.encoded outside))]
  "agent:model:" ++ outside.sha256 (JsonTree.dumps false body)

end ModelRequestContext

/-! ## Section 2: What the model sees -/

/-- The fields of a message part that the model sees: its kind, a prompt's text or a tool's
    result, and a call's tool and arguments. -/
def partFields : List String := ["part_kind", "content", "tool_name", "args"]

/-- A path into what the model sees of a message, to any depth. -/
def Visible (path : List JsonTree.Step) : Prop :=
  ∃ i, ∃ k ∈ partFields, ∃ rest, path = .key "parts" :: .index i :: .key k :: rest

/-- What is found at a path, as it is written. -/
def DifferAt {N : Type} (value : S → N) (a b : JsonTree S) (path : List JsonTree.Step) : Prop :=
  (a.get? path).map (JsonTree.root value) ≠ (b.get? path).map (JsonTree.root value)

/-- No volatile name is on a path. -/
def OffVolatile (path : List JsonTree.Step) : Prop := ∀ k ∈ volatile, JsonTree.Step.key k ∉ path

/-- The model sees a difference between two messages. -/
def SeenToDiffer (outside : Outside S M) (m m' : M) : Prop :=
  ∃ path, Visible path ∧ DifferAt id (outside.encode m) (outside.encode m') path

/-- The model sees a difference between two requests' messages. -/
def HistoriesSeenToDiffer (outside : Outside S M) (r r' : ModelRequestContext S M) : Prop :=
  ∃ i path, Visible path ∧ DifferAt id (r.encoded outside) (r'.encoded outside) (.index i :: path)

/-- Two requests differ in model, function tools or what the model sees of their messages. -/
def RequestsDiffer (outside : Outside S M) (r r' : ModelRequestContext S M) : Prop :=
  r.modelName ≠ r'.modelName ∨ ¬ JsonTree.Same id r.tools r'.tools ∨
    HistoriesSeenToDiffer outside r r'

/-- `Branch.replace` does not go past the two messages. -/
def TreatedAsDifferent (outside : Outside S M) (m m' : M) : Prop :=
  ∀ shared rest rest' : List M,
    Branch.common (Branch.bodies outside (shared ++ m :: rest))
      (Branch.bodies outside (shared ++ m' :: rest')) = shared.length

/-! ## Section 3: What is told apart -/

section apart

variable {outside : Outside S M}

omit [PythonScalar S] in
theorem kept_iff {path : List JsonTree.Step} :
    (∀ step ∈ path, JsonTree.Step.Kept (fun k => k ∈ volatile) step) ↔ OffVolatile path := by
  constructor
  · intro h k hk hmem
    have hkept : decide (k ∈ volatile) = false := h (.key k) hmem
    exact of_decide_eq_false hkept hk
  · intro h step hmem
    cases step with
    | key k =>
      show decide (k ∈ volatile) = false
      exact decide_eq_false fun hk => h k hk hmem
    | index i => exact trivial

omit [PythonScalar S] in
/-- What is left of two values differs if and only if they differ off the volatile names. -/
theorem stripped_differ_iff {N : Type} {value : S → N} {a b : JsonTree S} :
    ¬ JsonTree.Same value (stripped a) (stripped b) ↔
      ∃ path, OffVolatile path ∧ DifferAt value a b path := by
  unfold stripped
  rw [JsonTree.without_same_iff]
  unfold JsonTree.SameOff
  rw [not_forall]
  refine exists_congr fun path => ?_
  rw [Classical.not_imp, kept_iff]
  rfl

/-- **Entry identities** under one parent tell apart what differs off the volatile names. -/
theorem entryId_ne_iff (hfree : CollisionFree outside) (parent : Option String) (m m' : M) :
    entryId outside.sha256 parent (outside.encode m)
        ≠ entryId outside.sha256 parent (outside.encode m') ↔
      ∃ path, OffVolatile path ∧ DifferAt id (outside.encode m) (outside.encode m') path := by
  rw [← stripped_differ_iff, ne_eq, not_iff_not,
    ← dumps_stripped_iff (outside.wf m) (outside.wf m')]
  constructor
  · exact fun heq => (hfree.entryId_inj heq).2
  · intro heq
    unfold entryId
    rw [heq]

/-- **The comparison of `replace`** tells apart what differs off the volatile names, as `==` does:
    a boolean is a number. -/
theorem treatedAsDifferent_iff (m m' : M) : TreatedAsDifferent outside m m' ↔
    ∃ path, OffVolatile path ∧
      DifferAt PythonScalar.value (outside.encode m) (outside.encode m') path := by
  rw [← stripped_differ_iff, ← sameMessage_iff]
  constructor
  · intro h hsame
    have hnone := h [] [] []
    rw [List.nil_append, List.nil_append, common_cons hsame] at hnone
    exact absurd hnone (Nat.succ_ne_zero _)
  · intro hne shared rest rest'
    induction shared with
    | nil => exact common_cons_ne hne
    | cons first shared ih =>
      rw [List.cons_append, List.cons_append, common_cons (SameMessage.refl first), ih]
      rfl

theorem ModelRequestContext.tools_wf (r : ModelRequestContext S M) : r.tools.Wf := by
  refine .arr fun item hitem => ?_
  obtain ⟨tool, _, rfl⟩ := List.mem_map.mp hitem
  refine .arr fun part hpart => ?_
  simp only [List.mem_cons, List.not_mem_nil, or_false] at hpart
  rcases hpart with rfl | rfl | rfl
  · exact .str _
  · cases tool.description with
    | none => exact .scalar _
    | some text => exact .str _
  · exact tool.wf

omit [PythonScalar S] in
theorem ModelRequestContext.encoded_wf (r : ModelRequestContext S M) : (r.encoded outside).Wf := by
  refine .arr fun item hitem => ?_
  obtain ⟨m, _, rfl⟩ := List.mem_map.mp hitem
  exact outside.wf m

/-- **Model step keys** tell apart models, function tools, and what differs in the messages off the
    volatile names. -/
theorem modelStepKey_ne_iff (hfree : CollisionFree outside) (r r' : ModelRequestContext S M) :
    r.modelStepKey outside ≠ r'.modelStepKey outside ↔
      r.modelName ≠ r'.modelName ∨ ¬ JsonTree.Same id r.tools r'.tools ∨
        ∃ path, OffVolatile path ∧ DifferAt id (r.encoded outside) (r'.encoded outside) path := by
  let body := fun r : ModelRequestContext S M => (JsonTree.obj
    [("model", .str r.modelName), ("tools", r.tools),
      ("messages", stripped (r.encoded outside))] : JsonTree S)
  have hwf : ∀ r, (body r).Wf := by
    intro r
    refine .obj (by simp) fun field hmem => ?_
    simp only [List.mem_cons, List.not_mem_nil, or_false] at hmem
    rcases hmem with rfl | rfl | rfl
    · exact .str _
    · exact r.tools_wf
    · exact stripped_wf r.encoded_wf
  -- Keys differ exactly when the bodies do, and the bodies field by field.
  have hkeys : r.modelStepKey outside = r'.modelStepKey outside ↔
      JsonTree.Same id (body r) (body r') := by
    rw [← JsonTree.dumps_eq_iff (hwf r) (hwf r')]
    constructor
    · intro heq
      have hlist := congrArg String.toList heq
      unfold ModelRequestContext.modelStepKey at hlist
      rw [String.toList_append, String.toList_append] at hlist
      exact hfree.injective (String.toList_injective (List.append_cancel_left hlist))
    · exact fun heq => congrArg (fun text => "agent:model:" ++ outside.sha256 text) heq
  rw [ne_eq, hkeys, JsonTree.same_obj_cons_iff (by simp) (by simp),
    JsonTree.same_obj_cons_iff (by simp) (by simp), JsonTree.same_obj_cons_iff (by simp) (by simp),
    JsonTree.same_str_iff, ← stripped_differ_iff]
  have hnil : JsonTree.Same id (.obj [] : JsonTree S) (.obj []) := JsonTree.Same.refl _
  simp only [hnil, and_true, not_and_or, ne_eq]

/-- **Exactly when content identity distinguishes content**: two messages that the model sees to
    differ have different identities and are different to `replace`, if and only if they differ, as
    `==` goes, somewhere off the volatile names; two requests that differ have different keys, if
    and only if they differ in model or tools, or their messages do off the volatile names.
    A tool is compared by what `model_step_key` reads of it, its name, description and schema:
    requests that differ only in another field of a definition (`strict`, say) share a key, and
    are not told apart here either. -/
theorem identity_distinguishes_iff (hfree : CollisionFree outside) (parent : Option String)
    (m m' : M) (r r' : ModelRequestContext S M) :
    ((SeenToDiffer outside m m' →
        entryId outside.sha256 parent (outside.encode m)
            ≠ entryId outside.sha256 parent (outside.encode m') ∧
          TreatedAsDifferent outside m m') ↔
      (SeenToDiffer outside m m' → ∃ path, OffVolatile path ∧
        DifferAt PythonScalar.value (outside.encode m) (outside.encode m') path)) ∧
    ((RequestsDiffer outside r r' → r.modelStepKey outside ≠ r'.modelStepKey outside) ↔
      (RequestsDiffer outside r r' →
        r.modelName ≠ r'.modelName ∨ ¬ JsonTree.Same id r.tools r'.tools ∨
          ∃ path, OffVolatile path ∧
            DifferAt id (r.encoded outside) (r'.encoded outside) path)) := by
  constructor
  · rw [entryId_ne_iff hfree, treatedAsDifferent_iff]
    refine forall_congr' fun _ => and_iff_right_of_imp ?_
    -- what differs as `==` goes is written differently
    rintro ⟨path, hpath, hdiffer⟩
    have hloose : ¬ JsonTree.Same PythonScalar.value (stripped (outside.encode m))
        (stripped (outside.encode m')) := stripped_differ_iff.mpr ⟨path, hpath, hdiffer⟩
    exact stripped_differ_iff.mp fun hsame => hloose (hsame.coarser PythonScalar.value)
  · rw [modelStepKey_ne_iff hfree]

end apart

/-! ## Section 4: A tool's result -/

/-- Results of a tool `lookup`, each a dictionary with one member. -/
def toolOutside : Outside PyScalar (String × PyScalar) where
  encode result := .obj
    [("parts", .arr [.obj
      [("tool_name", .str "lookup"), ("content", .obj [(result.1, .scalar result.2)]),
        ("tool_call_id", .str "call-1"), ("part_kind", .str "tool-return")]]),
      ("kind", .str "request")]
  decode body := match body.get? [.key "parts", .index 0, .key "content"] with
    | some (.obj [(k, .scalar v)]) => (k, v)
    | _ => ("", .none)
  sha256 text := "x" ++ text
  messageTime n := n.repr
  markerTime n := n.repr
  wf result := by
    refine .obj (by simp) fun field hmem => ?_
    simp only [List.mem_cons, List.not_mem_nil, or_false] at hmem
    rcases hmem with rfl | rfl
    · refine .arr fun item hitem => ?_
      rw [List.mem_singleton.mp hitem]
      refine .obj (by simp) fun field hmem => ?_
      simp only [List.mem_cons, List.not_mem_nil, or_false] at hmem
      rcases hmem with rfl | rfl | rfl | rfl
      · exact .str _
      · refine .obj (by simp) fun field hmem => ?_
        rw [List.mem_singleton.mp hmem]
        exact .scalar _
      · exact .str _
      · exact .str _
    · exact .str _
  kind result := Or.inl rfl

/-- A request with one result. -/
def lookedUp (result : String × PyScalar) : ModelRequestContext PyScalar (String × PyScalar) where
  modelId := some "model"
  model := { modelId := none, repr := "Model()" }
  functionTools := []
  messages := [result]

/-- Where the member of a result is. -/
def memberPath (k : String) : List JsonTree.Step :=
  [.key "parts", .index 0, .key "content", .key k]

theorem memberPath_visible (k : String) : Visible (memberPath k) :=
  ⟨0, "content", by decide, [.key k], rfl⟩

/-- A tool that returns one usage or another is one tool call to every identity; and `replace`
    takes `true` for `1`. -/
theorem usage_not_told_apart :
    SeenToDiffer toolOutside ("usage", .int 1) ("usage", .int 2) ∧
    entryId toolOutside.sha256 none (toolOutside.encode ("usage", .int 1))
      = entryId toolOutside.sha256 none (toolOutside.encode ("usage", .int 2)) ∧
    ¬ TreatedAsDifferent toolOutside ("usage", .int 1) ("usage", .int 2) ∧
    RequestsDiffer toolOutside (lookedUp ("usage", .int 1)) (lookedUp ("usage", .int 2)) ∧
    (lookedUp ("usage", .int 1)).modelStepKey toolOutside
      = (lookedUp ("usage", .int 2)).modelStepKey toolOutside ∧
    SeenToDiffer toolOutside ("ready", .bool true) ("ready", .int 1) ∧
    ¬ TreatedAsDifferent toolOutside ("ready", .bool true) ("ready", .int 1) := by
  -- Stripped, the two results are one and the same text.
  have hstripped : stripped (toolOutside.encode ("usage", .int 1))
      = stripped (toolOutside.encode ("usage", .int 2)) := rfl
  refine ⟨⟨memberPath "usage", memberPath_visible _, ?_⟩, ?_, fun h => ?_,
    Or.inr (Or.inr ⟨0, memberPath "usage", memberPath_visible _, ?_⟩), ?_,
    ⟨memberPath "ready", memberPath_visible _, ?_⟩, fun h => ?_⟩
  · show some (JsonTree.Root.scalar (PyScalar.int 1)) ≠ some (.scalar (.int 2))
    decide
  · unfold entryId
    rw [hstripped]
  · exact absurd (h [] [] []) (by decide)
  · show some (JsonTree.Root.scalar (PyScalar.int 1)) ≠ some (.scalar (.int 2))
    decide
  · rfl
  · show some (JsonTree.Root.scalar (PyScalar.bool true)) ≠ some (.scalar (.int 1))
    decide
  · exact absurd (h [] [] []) (by decide)

theorem tool_collisionFree : CollisionFree toolOutside where
  injective := plain_collisionFree.injective
  nonempty := plain_collisionFree.nonempty

/-- Results that differ under a name that is not volatile are told apart. -/
theorem identity_distinguishes_result :
    SeenToDiffer toolOutside ("total", .int 1) ("total", .int 2) ∧
    entryId toolOutside.sha256 none (toolOutside.encode ("total", .int 1))
      ≠ entryId toolOutside.sha256 none (toolOutside.encode ("total", .int 2)) := by
  have hseen : SeenToDiffer toolOutside ("total", .int 1) ("total", .int 2) := by
    refine ⟨memberPath "total", memberPath_visible _, ?_⟩
    show some (JsonTree.Root.scalar (PyScalar.int 1)) ≠ some (.scalar (.int 2))
    decide
  have hoff : OffVolatile (memberPath "total") := by
    unfold OffVolatile memberPath
    decide
  have hiff := (identity_distinguishes_iff tool_collisionFree none ("total", .int 1)
    ("total", .int 2) (lookedUp ("total", .int 1)) (lookedUp ("total", .int 2))).1
  have htold := hiff.mpr fun _ => ⟨memberPath "total", hoff, by
    show some (JsonTree.Root.scalar (some 1)) ≠ some (.scalar (some (2 : Int)))
    decide⟩
  exact ⟨hseen, (htold hseen).1⟩

end Semora
