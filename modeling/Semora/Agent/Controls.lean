import Mathlib.Data.List.Perm.Basic
import Semora.Agent.Policy
import Semora.Framework.Composition

/-! # Control Points and their Composition

    `semora.controls`: the control points of the runtime that have something
    to combine, and one composer for each. A composer is called like a stage,
    so composers nest. In the runtime's own code a control is a question to
    the outside; what a host builds its controls from is the matter here.

    A stage is a function into a monad: `Id` for stages that only decide,
    `Code` for stages that raise or ask the outside. -/

namespace Semora

/-! ## Section 1: Stages -/

abbrev OnInputs (m : Type → Type) := Ctx → List PendingInput → m (List PendingInput ⊕ StopReason)

abbrev BeforeModel (m : Type → Type) := Ctx → m TurnDecision

abbrev PreToolUse (m : Type → Type) := Ctx → ToolCall → m ToolDecision

/-- Handed a result to edit in place; what it returns is the result as it leaves it. -/
abbrev PostToolUse (m : Type → Type) := Ctx → ToolCall → Json → m Json

abbrev BeforeFinish (m : Type → Type) := Ctx → StopReason → m TurnDecision

/-- `bool(decision)`: a named tuple is false when it has no fields. -/
def ToolDecision.truthy : ToolDecision → Bool
  | .continue => false
  | .deny _ => true
  | .suspend _ => true

/-- `bool(decision)`. -/
def TurnDecision.truthy : TurnDecision → Bool
  | .proceed _ => true
  | .halt _ => true

def ToolDecision.isDeny : ToolDecision → Bool
  | .deny _ => true
  | _ => false

/-! ## Section 2: Composers -/

section composers

variable {m : Type → Type} [Monad m]

/-- The loop of `Ingress`: each screen sees the previous screen's output. -/
def Ingress.composition : Composing (List PendingInput) (List PendingInput ⊕ StopReason) where
  absorb
    | _, .inr stop => .inl (.inr stop)
    | _, .inl screened => .inr screened
  finish := .inl

/-- `Ingress(*screens)`. -/
def ingress (screens : List (OnInputs m)) : OnInputs m := fun ctx inputs =>
  Ingress.composition.loop (fun screen inputs => screen ctx inputs) screens inputs

/-- The loop of `Permissions`, over the request of `asked`. -/
def Permissions.composition : Composing (Option SuspendRequest) ToolDecision where
  absorb
    | _, .deny result => .inl (.deny result)
    | none, .suspend request => .inr (some request)
    | asked, _ => .inr asked
  -- `asked or Continue()`
  finish asked := ((asked.map ToolDecision.suspend).filter ToolDecision.truthy).getD .continue

/-- `Permissions(*stages)`. -/
def permissions (stages : List (PreToolUse m)) : PreToolUse m := fun ctx call =>
  Permissions.composition.loop (fun stage _ => stage ctx call) stages none

/-- The loop of `Journal`: every writer is handed the same object. -/
def Journal.composition : Composing Json Json where
  absorb _ result := .inr result
  finish := id

/-- `Journal(*writers)`. -/
def journal (writers : List (PostToolUse m)) : PostToolUse m := fun ctx call result =>
  Journal.composition.loop (fun write result => write ctx call result) writers result

/-- The loop of `FinishPolicy`, over the steers of `keep_going`. -/
def FinishPolicy.composition (reason : StopReason) :
    Composing (Option (List RequestPart)) TurnDecision where
  absorb
    -- `[*(keep_going.steers if keep_going else []), *steers]`
    | keepGoing, .proceed steers =>
      .inr (some ((keepGoing.filter fun sofar => (TurnDecision.proceed sofar).truthy).getD []
        ++ steers))
    | keepGoing, .halt _ => .inr keepGoing
  -- `keep_going or Halt(reason)`
  finish keepGoing :=
    ((keepGoing.map TurnDecision.proceed).filter TurnDecision.truthy).getD (.halt reason)

/-- `FinishPolicy(*gates)`. -/
def finishPolicy (gates : List (BeforeFinish m)) : BeforeFinish m := fun ctx reason =>
  (FinishPolicy.composition reason).loop (fun verify _ => verify ctx reason) gates none

/-- The loop of `Steering`. -/
def Steering.composition : Composing (List RequestPart) TurnDecision where
  absorb
    | _, .halt reason => .inl (.halt reason)
    | steers, .proceed more => .inr (steers ++ more)
  finish := .proceed

/-- `Steering(*sources)`. -/
def steering (sources : List (BeforeModel m)) : BeforeModel m := fun ctx =>
  Steering.composition.loop (fun source _ => source ctx) sources []

end composers

/-! ## Section 3: Nesting -/

section flat

variable {m : Type → Type} [Monad m] [LawfulMonad m]

theorem Ingress.flat : Ingress.composition.Flat id fun _ inner => inner where
  join_start _ := rfl
  finish _ _ := rfl
  stop outer inner decision final h := by
    cases decision with
    | inr stop =>
      obtain rfl := Sum.inl.inj h
      exact ⟨rfl, rfl⟩
    | inl screened => cases h
  go outer inner decision inner' h := by
    cases decision with
    | inr stop => cases h
    | inl screened => exact h

theorem Journal.flat : Journal.composition.Flat id fun _ inner => inner where
  join_start _ := rfl
  finish _ _ := rfl
  stop _ _ _ _ h := by cases h
  go _ _ _ _ h := h

theorem Permissions.flat : Permissions.composition.Flat (fun _ => none)
    fun outer inner => outer.orElse fun _ => inner where
  join_start outer := by cases outer <;> rfl
  finish outer inner := by cases outer <;> cases inner <;> rfl
  stop outer inner decision final h := by
    cases decision with
    | deny result =>
      obtain rfl : .deny result = final := by cases inner <;> exact Sum.inl.inj h
      exact ⟨by cases outer <;> rfl, by cases outer <;> cases inner <;> rfl⟩
    | suspend request => cases inner <;> cases h
    | «continue» => cases inner <;> cases h
  go outer inner decision inner' h := by
    cases decision with
    | deny result => cases inner <;> cases h
    | suspend request => cases outer <;> cases inner <;> cases h <;> rfl
    | «continue» => cases outer <;> cases inner <;> cases h <;> rfl

theorem FinishPolicy.flat (reason : StopReason) : (FinishPolicy.composition reason).Flat
    (fun _ => none) fun outer inner => inner.elim outer fun steers => some (outer.getD [] ++ steers)
    where
  join_start _ := rfl
  finish outer inner := by cases outer <;> cases inner <;> rfl
  stop outer inner decision final h := by cases decision <;> cases inner <;> cases h
  go outer inner decision inner' h := by
    cases decision with
    | halt reason' => cases outer <;> cases inner <;> cases h <;> rfl
    | proceed steers =>
      obtain rfl := Sum.inr.inj h
      cases outer <;> cases inner <;> simp [composition, TurnDecision.truthy, Option.filter]

theorem Steering.flat : Steering.composition.Flat (fun _ => []) fun outer inner => outer ++ inner
    where
  join_start outer := List.append_nil outer
  finish _ _ := rfl
  stop outer inner decision final h := by
    cases decision with
    | halt reason =>
      obtain rfl := Sum.inl.inj h
      exact ⟨rfl, rfl⟩
    | proceed more => cases h
  go outer inner decision inner' h := by
    cases decision with
    | halt reason => cases h
    | proceed more =>
      obtain rfl := Sum.inr.inj h
      exact congrArg Sum.inr (List.append_assoc outer inner more)

/-- **Nested screens** are screens in a row. -/
theorem ingress_flatten (parts : List (Composed (OnInputs m))) :
    (Composed.nested parts).run ingress = ingress (Composed.nested parts).leaves := by
  refine Composed.run_nested (fun front stages back => ?_) parts
  funext ctx inputs
  exact Ingress.flat.splice (fun _ _ _ => rfl) (fun _ => rfl) front back inputs

/-- **Nested permission stages** are stages in a row. -/
theorem permissions_flatten (parts : List (Composed (PreToolUse m))) :
    (Composed.nested parts).run permissions = permissions (Composed.nested parts).leaves := by
  refine Composed.run_nested (fun front stages back => ?_) parts
  funext ctx call
  exact Permissions.flat.splice (fun _ _ _ => rfl) (fun _ => rfl) front back none

/-- **Nested writers** are writers in a row. -/
theorem journal_flatten (parts : List (Composed (PostToolUse m))) :
    (Composed.nested parts).run journal = journal (Composed.nested parts).leaves := by
  refine Composed.run_nested (fun front stages back => ?_) parts
  funext ctx call result
  exact Journal.flat.splice (fun _ _ _ => rfl) (fun _ => rfl) front back result

/-- **Nested verifiers** are verifiers in a row. -/
theorem finishPolicy_flatten (parts : List (Composed (BeforeFinish m))) :
    (Composed.nested parts).run finishPolicy = finishPolicy (Composed.nested parts).leaves := by
  refine Composed.run_nested (fun front stages back => ?_) parts
  funext ctx reason
  exact (FinishPolicy.flat reason).splice (fun _ _ _ => rfl) (fun _ => rfl) front back none

/-- **Nested steering sources** are sources in a row. -/
theorem steering_flatten (parts : List (Composed (BeforeModel m))) :
    (Composed.nested parts).run steering = steering (Composed.nested parts).leaves := by
  refine Composed.run_nested (fun front stages back => ?_) parts
  funext ctx
  exact Steering.flat.splice (fun _ _ _ => rfl) (fun _ => rfl) front back []

end flat

/-! ## Section 4: What permission stages come to -/

/-- What a stage asks for when it suspends the call. -/
def ToolDecision.request? : ToolDecision → Option SuspendRequest
  | .suspend request => some request
  | _ => none

theorem ToolDecision.request?_isSome (decision : ToolDecision) :
    decision.request?.isSome = decision.isSuspend := by
  cases decision <;> rfl

section verdict

variable {ctx : Ctx} {call : ToolCall}

/-- The decision of a stage that only decides. -/
def decisionOf (ctx : Ctx) (call : ToolCall) (stage : PreToolUse Id) : ToolDecision :=
  stage ctx call

/-- A stage is asked, whatever was heard. -/
def askStage (ctx : Ctx) (call : ToolCall) (stage : PreToolUse Id) (_ : Option SuspendRequest) :
    Id ToolDecision := stage ctx call

/-- The loop of `Permissions` over stages that only decide. -/
def permitted (ctx : Ctx) (call : ToolCall) (stages : List (PreToolUse Id))
    (asked : Option SuspendRequest) : ToolDecision :=
  Permissions.composition.loop (askStage ctx call) stages asked

/-- The request that is made first. -/
def firstRequest (ctx : Ctx) (call : ToolCall) (stages : List (PreToolUse Id)) :
    Option SuspendRequest :=
  stages.findSome? fun stage => (decisionOf ctx call stage).request?

theorem permitted_deny {stage : PreToolUse Id} {result : Json}
    (h : decisionOf ctx call stage = .deny result) (rest : List (PreToolUse Id))
    (asked : Option SuspendRequest) : permitted ctx call (stage :: rest) asked = .deny result := by
  have habsorb : Permissions.composition.absorb asked (.deny result) = .inl (.deny result) := by
    cases asked <;> rfl
  have hask : askStage ctx call stage asked = pure _ := h
  exact Composing.loop_stop hask habsorb rest

theorem permitted_suspend {stage : PreToolUse Id} {request : SuspendRequest}
    (h : decisionOf ctx call stage = .suspend request) (rest : List (PreToolUse Id))
    (asked : Option SuspendRequest) : permitted ctx call (stage :: rest) asked
      = permitted ctx call rest (asked.orElse fun _ => some request) := by
  have habsorb : Permissions.composition.absorb asked (.suspend request)
      = .inr (asked.orElse fun _ => some request) := by
    cases asked <;> rfl
  have hask : askStage ctx call stage asked = pure _ := h
  exact Composing.loop_go hask habsorb rest

theorem permitted_continue {stage : PreToolUse Id} (h : decisionOf ctx call stage = .continue)
    (rest : List (PreToolUse Id)) (asked : Option SuspendRequest) :
    permitted ctx call (stage :: rest) asked = permitted ctx call rest asked := by
  have habsorb : Permissions.composition.absorb asked .continue = .inr asked := by
    cases asked <;> rfl
  have hask : askStage ctx call stage asked = pure _ := h
  exact Composing.loop_go hask habsorb rest

/-- A denial comes out exactly when a stage denies. -/
theorem permitted_isDeny (stages : List (PreToolUse Id)) (asked : Option SuspendRequest) :
    (permitted ctx call stages asked).isDeny = true ↔
      ∃ stage ∈ stages, (decisionOf ctx call stage).isDeny = true := by
  induction stages generalizing asked with
  | nil => cases asked <;> simp [permitted, Composing.loop, Permissions.composition,
      ToolDecision.truthy, ToolDecision.isDeny, Option.filter, pure]
  | cons stage rest ih =>
    rw [List.exists_mem_cons_iff]
    cases hdecision : decisionOf ctx call stage with
    | deny result =>
      rw [permitted_deny hdecision]
      exact ⟨fun _ => Or.inl rfl, fun _ => rfl⟩
    | suspend request =>
      rw [permitted_suspend hdecision, ih]
      exact ⟨Or.inr, fun h => h.resolve_left Bool.noConfusion⟩
    | «continue» =>
      rw [permitted_continue hdecision, ih]
      exact ⟨Or.inr, fun h => h.resolve_left Bool.noConfusion⟩

/-- Without a denial the first request that was heard is made, if there was one. -/
theorem permitted_request {stages : List (PreToolUse Id)}
    (h : ∀ stage ∈ stages, (decisionOf ctx call stage).isDeny = false)
    (asked : Option SuspendRequest) : permitted ctx call stages asked
      = (asked.orElse fun _ => firstRequest ctx call stages).elim .continue .suspend := by
  induction stages generalizing asked with
  | nil => cases asked <;> rfl
  | cons stage rest ih =>
    have hrest := ih fun other hmem => h other (List.mem_cons_of_mem _ hmem)
    -- No stage denies; the first request among the rest is the one that is kept.
    cases hdecision : decisionOf ctx call stage with
    | deny result =>
      have hstage := h stage List.mem_cons_self
      rw [hdecision] at hstage
      cases hstage
    | suspend request =>
      rw [permitted_suspend hdecision, hrest]
      have hfirst : firstRequest ctx call (stage :: rest) = some request := by
        simp [firstRequest, hdecision, ToolDecision.request?]
      rw [hfirst]
      cases asked <;> rfl
    | «continue» =>
      rw [permitted_continue hdecision, hrest]
      have hfirst : firstRequest ctx call (stage :: rest) = firstRequest ctx call rest := by
        simp [firstRequest, hdecision, ToolDecision.request?]
      rw [hfirst]

end verdict

/-- **Composers flatten, and denial is order-free**: composers over composers of their kind decide
    as one composer over all the stages in order; and in whatever order permission stages are
    asked, a denial comes out exactly when one of them denies, otherwise a suspension exactly when
    one of them suspends, with the request of the first that does, and otherwise the call goes
    on. -/
theorem composers_flatten :
    (∀ parts : List (Composed (PreToolUse Id)),
      (Composed.nested parts).run permissions = permissions (Composed.nested parts).leaves) ∧
    (∀ parts : List (Composed (OnInputs Id)),
      (Composed.nested parts).run ingress = ingress (Composed.nested parts).leaves) ∧
    (∀ parts : List (Composed (BeforeModel Id)),
      (Composed.nested parts).run steering = steering (Composed.nested parts).leaves) ∧
    (∀ parts : List (Composed (BeforeFinish Id)),
      (Composed.nested parts).run finishPolicy = finishPolicy (Composed.nested parts).leaves) ∧
    ∀ (stages stages' : List (PreToolUse Id)) (ctx : Ctx) (call : ToolCall), stages'.Perm stages →
      let decision : ToolDecision := permissions (m := Id) stages' ctx call
      (decision.isDeny = true ↔ ∃ stage ∈ stages, (decisionOf ctx call stage).isDeny = true) ∧
      ((∀ stage ∈ stages, (decisionOf ctx call stage).isDeny = false) →
        (decision.isSuspend = true ↔
          ∃ stage ∈ stages, (decisionOf ctx call stage).isSuspend = true) ∧
        (∀ request, decision = .suspend request ↔ firstRequest ctx call stages' = some request) ∧
        ((∀ stage ∈ stages, (decisionOf ctx call stage).isSuspend = false) →
          decision = .continue)) := by
  refine ⟨permissions_flatten, ingress_flatten, steering_flatten, finishPolicy_flatten,
    fun stages stages' ctx call hperm => ?_⟩
  intro decision
  refine ⟨?_, fun hnone => ?_⟩
  · refine (permitted_isDeny stages' none).trans ?_
    simp only [hperm.mem_iff]
  · have hnone' : ∀ stage ∈ stages', (decisionOf ctx call stage).isDeny = false :=
      fun stage hmem => hnone stage (hperm.mem_iff.mp hmem)
    have hdecision : decision = (firstRequest ctx call stages').elim .continue .suspend :=
      permitted_request hnone' none
    have hfirst : (firstRequest ctx call stages').isSome = true ↔
        ∃ stage ∈ stages, (decisionOf ctx call stage).isSuspend = true := by
      rw [firstRequest, List.findSome?_isSome_iff]
      simp only [ToolDecision.request?_isSome, hperm.mem_iff]
    rw [hdecision, ← hfirst]
    -- The same stages in another order: whether one asks to suspend does not change, only which.
    cases hrequest : firstRequest ctx call stages' with
    | some request =>
      refine ⟨by simp [ToolDecision.isSuspend], fun request' => ?_, fun hall => ?_⟩
      · simp
      · rw [hrequest] at hfirst
        obtain ⟨stage, hmem, hsuspends⟩ := hfirst.mp rfl
        rw [hall stage hmem] at hsuspends
        cases hsuspends
    | none => exact ⟨by simp [ToolDecision.isSuspend], fun request' => by simp, fun _ => rfl⟩

end Semora
