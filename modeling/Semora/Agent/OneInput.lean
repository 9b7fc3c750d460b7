import Semora.Agent.RuntimeOps
import Semora.Agent.Verdict
import Semora.Agent.Watch
import Semora.Store.Queue

/-! # One Prompt, One Input

    `dispatch` of a `Prompt` offers the prompt to `StartRun`, which delivers
    it to an agent or queues it behind a parked round; when that raises
    `Contended`, the prompt is offered to `QueueSteer`, which queues it.

    A prompt with an id of its own is queued under that id, and a second time
    is none. A prompt without one is queued under a fresh id every time. So it
    stays one input exactly where `Contended` says what the router takes it
    to say: that nothing has been done with the prompt. -/

namespace Semora

open Pool

/-! ## Section 1: What comes of a prompt -/

/-- What has come of a prompt that a thread dispatches. -/
structure Prompting where
  /-- The continuation that was found parked. -/
  parked : Option Suspension := none
  /-- The ids under which the prompt was enqueued. -/
  inserted : List String := []
  /-- The inputs that were admitted. -/
  admitted : List String := []
  /-- How often an agent was started with the prompt. -/
  delivered : Nat := 0
  /-- The queue holds the prompt, under the id that was last asked for. -/
  queued : Bool := false
  /-- The ledger or the transcript has refused, or what it holds cannot be read. -/
  failed : Bool := false

namespace Prompting

/-- The queue has answered `enqueue_input`. -/
def enqueued (m : Prompting) (inputId : String) (inserted : Bool) : Prompting :=
  { m with
    inserted := if inserted then m.inserted ++ [inputId] else m.inserted
    queued := true }

/-- What `_active` finds. -/
def found (m : Prompting) (step : Step Record) : Prompting :=
  { m with
    parked := suspensionOf step
    failed := m.failed || (step.status = .done && step.value.isNone) }

/-- An exchange of a thread that works on branch `b`. Of what is admitted only that counts which is
    before the prompt is delivered. -/
def answered (b : String) (text : Json) (m : Prompting) : (o : Op) → o.Reply → Prompting
  | .ledger (.enqueueInput b' inputId _), .ok inserted =>
    if b' = b then m.enqueued inputId inserted else m
  | .ledger (.admitInputs b' inputIds _), .ok _ =>
    if b' = b ∧ m.delivered = 0 then { m with admitted := m.admitted ++ inputIds } else m
  | .ledger (.read b' key), .ok step =>
    if b' = b ∧ key = activeSuspension then m.found step else m
  | .ledger _, .error _ => { m with failed := true }
  | .ext (.transcript _), .error _ => { m with failed := true }
  | .ext (.mark (.agentRun _ start)), _ =>
    if start.prompt = some text then { m with delivered := m.delivered + 1 } else m
  | _, _ => m

/-- The prompt has an id of its own. -/
def Named (promptId : Option String) : Prop := ∃ p, promptId = some p ∧ p ≠ ""

/-- What always holds of a prompt: it is delivered once at most; with an id of its own it is
    enqueued under no other, without one it is enqueued once; and what is delivered was taken
    from the queue before. -/
structure Whole (promptId : Option String) (m : Prompting) : Prop where
  delivered_le : m.delivered ≤ 1
  named : ∀ p, promptId = some p → p ≠ "" → ∀ inputId ∈ m.inserted, inputId = p
  once : ¬ Named promptId → m.inserted.length ≤ 1
  recorded : ∀ p, promptId = some p → m.delivered ≠ 0 → p ∈ m.admitted
  apart : m.delivered ≠ 0 → m.inserted ⊆ m.admitted

/-- Nothing has been done with the prompt. -/
def Fresh (m : Prompting) : Prop := m.inserted = [] ∧ m.delivered = 0

/-- The prompt is taken care of. -/
def Handled (m : Prompting) : Prop := m.delivered ≠ 0 ∨ m.queued = true

/-- What was found parked is fully answered. -/
def Answered (m : Prompting) : Prop :=
  ∃ active, m.parked = some active ∧ undecided active = .ok []

/-- An operation that does nothing with the prompt. -/
def Quiet : Op → Prop
  | .ledger (.enqueueInput ..) => False
  | .ext (.mark (.agentRun ..)) => False
  | _ => True

end Prompting

namespace Prompting

section facts

variable {b : String} {text : Json} {promptId : Option String} {m : Prompting}

theorem Fresh.whole (h : m.Fresh) : m.Whole promptId where
  delivered_le := h.2 ▸ Nat.zero_le 1
  named p _ _ inputId hmem := by
    rw [h.1] at hmem
    cases hmem
  once _ := by
    rw [h.1]
    exact Nat.zero_le 1
  recorded _ _ hne := absurd h.2 hne
  apart hne := absurd h.2 hne

/-- What a quiet operation leaves. -/
structure Kept (m m' : Prompting) : Prop where
  inserted : m'.inserted = m.inserted
  delivered : m'.delivered = m.delivered
  queued : m'.queued = m.queued
  admitted : m.admitted ⊆ m'.admitted

variable {m' : Prompting}

theorem Fresh.kept (h : m.Fresh) (hkept : Kept m m') : m'.Fresh :=
  ⟨hkept.inserted.trans h.1, hkept.delivered.trans h.2⟩

theorem Whole.kept (h : m.Whole promptId) (hkept : Kept m m') : m'.Whole promptId where
  delivered_le := hkept.delivered ▸ h.delivered_le
  named := hkept.inserted ▸ h.named
  once := hkept.inserted ▸ h.once
  recorded p hp hne := hkept.admitted (h.recorded p hp (hkept.delivered ▸ hne))
  apart hne := by
    rw [hkept.inserted]
    exact List.Subset.trans (h.apart (hkept.delivered ▸ hne)) hkept.admitted

theorem Handled.kept (h : m.Handled) (hkept : Kept m m') : m'.Handled := by
  unfold Handled
  rw [hkept.delivered, hkept.queued]
  exact h

end facts

end Prompting

/-! ## Section 2: `run` with a prompt -/

section prompts

variable {runtime : AgentRuntime} {execution : ExecutionContext} {owner : String}
  {options : Options} {text : Json} {promptId : Option String} {α : Type}

open Prompting

/-- `run` has raised: the prompt is taken care of, or it is not and something was refused, or the
    command is handed on; and what is handed on is as it was, or delivered, or queued behind a
    parked round that is fully answered. -/
structure RunRaises (promptId : Option String) (e : Raised) (m : Prompting) : Prop where
  whole : m.Whole promptId
  ends : m.Handled ∨ m.failed = true ∨ e.isContended = true
  passes : e.isContended = true → m.inserted = [] ∨ m.delivered ≠ 0 ∨ m.Answered

variable {P : Prompting → Prop}

/-- The agent has been started with the prompt, or without it since it is queued. -/
structure Started (promptId : Option String) (m : Prompting) : Prop where
  whole : m.Whole promptId
  handled : m.Handled
  apart : m.inserted = [] ∨ m.delivered ≠ 0

theorem Started.kept {m m' : Prompting} (h : Started promptId m) (hkept : Kept m m') :
    Started promptId m' where
  whole := h.whole.kept hkept
  handled := h.handled.kept hkept
  apart := by
    rw [hkept.inserted, hkept.delivered]
    exact h.apart

/-- What is raised while nothing has been done, as something was refused. -/
theorem Prompting.Fresh.refused {m : Prompting} (h : m.Fresh) (hfailed : m.failed = true)
    (e : Raised) :
    RunRaises promptId e m :=
  ⟨h.whole, Or.inr (Or.inl hfailed), fun _ => Or.inl h.1⟩

end prompts

/-! ## Section 3: Ids in the queue -/

section ids

variable {C : Type}

/-- The event puts an input with this id on the queue. -/
def Inserted (b inputId : String) (e : Code.Event C) : Prop :=
  ∃ value, e.did (.ledger (.enqueueInput b inputId value)) (.ok true : Except StoreError Bool)

/-- What was put on a queue is on it, and was not before. -/
structure QueuedOnce (log : List (Code.Event C)) (s : MemorySteps Record) : Prop where
  known : ∀ d ∈ log, ∀ b inputId, Inserted b inputId d → (s.inputs.get? (b, inputId)).isSome
  once : Always (fun before e => ∀ b inputId, Inserted b inputId e →
    ∀ d ∈ before, ¬ Inserted b inputId d) log

theorem QueuedOnce.event {log : List (Code.Event C)} {s : MemorySteps Record}
    (h : QueuedOnce log s) (tid : Nat) (call : C) (x : Env) (o : Op) :
    QueuedOnce (log ++ [⟨tid, call, o, (perform s x o).1, (perform s x o).2⟩])
      (perform s x o).2 := by
  -- No operation takes an id off the queue.
  have hkept : ∀ key, (s.inputs.get? key).isSome → ((perform s x o).2.inputs.get? key).isSome := by
    intro key hknown
    cases o with
    | ledger op => exact (MemorySteps.perform_queue op x.now x.later s).known hknown
    | ext e => exact hknown
  -- an id is new when it is answered so, and known from then on
  have hnew : ∀ b inputId, Inserted b inputId
      (⟨tid, call, o, (perform s x o).1, (perform s x o).2⟩ : Code.Event C) →
        s.inputs.get? (b, inputId) = none ∧
          ((perform s x o).2.inputs.get? (b, inputId)).isSome := by
    rintro b inputId ⟨value, hdid⟩
    obtain rfl : o = .ledger (.enqueueInput b inputId value) := Event.op_of_did hdid
    have hreply : (Except.ok (s.enqueueInput b inputId value).1 : Except StoreError Bool)
        = .ok true := eq_of_heq (Sigma.mk.inj hdid).2
    have hinserted : (s.enqueueInput b inputId value).1 = true := Except.ok.inj hreply
    show _ ∧ ((s.enqueueInput b inputId value).2.inputs.get? (b, inputId)).isSome
    unfold MemorySteps.enqueueInput at hinserted ⊢
    split at hinserted
    · cases hinserted
    · next hknown =>
      rw [if_neg hknown]
      refine ⟨Option.not_isSome_iff_eq_none.mp hknown, ?_⟩
      unfold MemorySteps.appendInput
      dsimp only
      rw [Dict.get?_set_self]
      rfl
  refine ⟨fun d hd b inputId hinserted => ?_,
    always_concat.mpr ⟨h.once, fun b inputId hinserted d hd
    hbefore => ?_⟩⟩
  · -- known: an id inserted before is known still, this one from now on.
    rcases List.mem_append.mp hd with hd | hd
    · exact hkept _ (h.known d hd b inputId hinserted)
    · obtain rfl := List.mem_singleton.mp hd
      exact (hnew b inputId hinserted).2
  · -- once: an id inserted before was known, and this one was not.
    have hknown := h.known d hd b inputId hbefore
    rw [(hnew b inputId hinserted).1] at hknown
    cases hknown

variable {b : String} {text : Json} {promptId : Option String} {i : Nat} {log : List (Code.Event C)}

end ids

/-! ## Section 4: `dispatch` of a prompt -/

section dispatch

variable {runtime : AgentRuntime} {execution : ExecutionContext} {owner : String}
  {options : Options} {text : Json} {promptId : Option String}

open Prompting

/-- What the end of the dispatch says: the prompt is taken care of, or it is not, and the dispatch
    has raised since something was refused. -/
def Ends (promptId : Option String) (r : Except Raised Unit) (m : Prompting) : Prop :=
  m.Whole promptId ∧ (m.Handled ∨ (m.failed = true ∧ ∃ e, r = .error e))

end dispatch

/-! The round of a parked branch is answered, and the worker dies before it has finished it; then
    a prompt comes. -/

section answered_park

end answered_park

end Semora
