import Mathlib.Data.Rat.Init
import Mathlib.Data.List.Nodup
import Mathlib.Data.List.Sort
import Semora.Framework.Dict

/-! # The Ledger's Data Model

    The records of `semora_store.ledger`: steps, reconciliation decisions,
    queued inputs, transitions, and the errors a ledger raises.

    Recorded values are opaque to the ledger, so the value type `V` is a
    parameter; `Option V` is Python's `Any`, with `none` for `None`. -/

namespace Semora

/-! ## Steps -/

/-- `Step.status`. -/
inductive Status where
  | absent
  | ready
  | running
  | done
  deriving DecidableEq, Repr

/-- A status as Python prints it with `!r`. -/
def Status.repr : Status → String
  | .absent => "'absent'"
  | .ready => "'ready'"
  | .running => "'running'"
  | .done => "'done'"

/-- The persisted state and value of one step. -/
structure Step (V : Type) where
  status : Status
  value : Option V := none
  version : Nat := 0
  deriving DecidableEq, Repr

/-! ## Decisions about unfinished effects -/

/-- `EffectResolution.action`. -/
inductive ResolutionAction where
  | complete
  | retry
  deriving DecidableEq, Repr

/-- A trusted, version-bound decision about one unfinished effect. -/
structure EffectResolution (V : Type) where
  action : ResolutionAction
  decisionId : String
  expectedVersion : Int
  reason : String
  value : Option V := none
  providerKey : Option String := none
  deriving DecidableEq, Repr

/-- What `_resolution_payload` records of a decision. -/
structure ResolutionPayload (V : Type) where
  key : String
  action : ResolutionAction
  expectedVersion : Int
  reason : String
  value : Option V
  providerKey : Option String
  deriving BEq, DecidableEq, Repr

/-! ## Queued inputs -/

/-- `InputRecord.status`. -/
inductive InputStatus where
  | pending
  | claimed
  | admitted
  | discarded
  deriving DecidableEq, Repr

/-- One durable input queue row. -/
structure InputRecord (V : Type) where
  inputId : String
  status : InputStatus
  value : V
  sequence : Nat
  deriving DecidableEq, Repr

/-! ## Transitions -/

/-- `EffectCompletion.expected`. -/
inductive Expected where
  | absent
  | running
  deriving DecidableEq, Repr

def Expected.status : Expected → Status
  | .absent => .absent
  | .running => .running

/-- Complete one immutable effect from the state that authorized the transition. -/
structure EffectCompletion (V : Type) where
  key : String
  value : Option V
  expected : Expected := .running
  deriving DecidableEq, Repr

/-- Effect results, mutable control state and queued inputs, committed together.
    `controls` is a mapping, so no key occurs twice in it. -/
structure ExecutionTransition (V : Type) where
  effects : List (EffectCompletion V) := []
  controls : Dict String (Option V) := Dict.empty
  inputs : List (String × V) := []
  deriving DecidableEq

/-! ## `repr` of a text -/

/-- The code points Python does not print as they are: controls, format characters, separators
    other than the blank, and the private ones. The unassigned ones, which differ from one
    Unicode version to the next, are left out; surrogates are no characters here. -/
def unprintable : List (Nat × Nat) :=
  [(0x0, 0x1f), (0x7f, 0xa0), (0xad, 0xad), (0x600, 0x605), (0x61c, 0x61c), (0x6dd, 0x6dd),
    (0x70f, 0x70f), (0x890, 0x891), (0x8e2, 0x8e2), (0x1680, 0x1680), (0x180e, 0x180e),
    (0x2000, 0x200f), (0x2028, 0x202f), (0x205f, 0x2064), (0x2066, 0x206f), (0x3000, 0x3000),
    (0xe000, 0xf8ff), (0xfeff, 0xfeff), (0xfff9, 0xfffb), (0x110bd, 0x110bd), (0x110cd, 0x110cd),
    (0x13430, 0x13438), (0x1bca0, 0x1bca3), (0x1d173, 0x1d17a), (0xe0001, 0xe0001),
    (0xe0020, 0xe007f), (0xf0000, 0xffffd), (0x100000, 0x10fffd)]

/-- `str.isprintable` of a character. -/
def isPrintable (c : Char) : Bool :=
  !unprintable.any fun range => range.1 ≤ c.toNat && c.toNat ≤ range.2

/-- A number in hexadecimal digits, filled up with zeros to a width. -/
def hexadecimal (width n : Nat) : List Char := (Nat.toDigits 16 n).leftpad width '0'

/-- A character of a text between quotes. -/
def reprChar (quote c : Char) : List Char :=
  if c = quote ∨ c = '\\' then ['\\', c]
  else if c = '\t' then ['\\', 't']
  else if c = '\n' then ['\\', 'n']
  else if c = '\r' then ['\\', 'r']
  else if isPrintable c then [c]
  else if c.toNat < 0x100 then '\\' :: 'x' :: hexadecimal 2 c.toNat
  else if c.toNat < 0x10000 then '\\' :: 'u' :: hexadecimal 4 c.toNat
  else '\\' :: 'U' :: hexadecimal 8 c.toNat

/-- `repr(text)`: between double quotes only where the text has single ones and no double
    ones. -/
def pyRepr (text : String) : String :=
  let quote := if '\x27' ∈ text.toList ∧ '"' ∉ text.toList then '"' else '\x27'
  String.ofList (quote :: text.toList.flatMap (reprChar quote) ++ [quote])

example : pyRepr "it's\n" = "\"it's\\n\"" := by decide

/-- `repr` of a list of texts. -/
def reprList (texts : List String) : String :=
  "[" ++ String.intercalate ", " (texts.map pyRepr) ++ "]"

/-! ## Errors -/

/-- What a `ValueError` of the ledger is about. -/
inductive BadValue where
  | workersNotStopped
  | emptyKey
  | emptyDecisionId
  | versionNotPositive
  | emptyReason
  | retryWithValue
  | emptyProviderKey
  /-- An effect key that appears twice in one transition. -/
  | repeatedEffect (key : String)
  /-- Keys that a transition classifies as both effect and control, sorted. -/
  | effectAndControl (keys : List String)
  deriving DecidableEq, Repr

/-- The message of the error. -/
def BadValue.message : BadValue → String
  | .workersNotStopped => "confirm old workers and outstanding provider requests are reconciled"
  | .emptyKey => "effect key must be nonempty"
  | .emptyDecisionId => "decision_id must be nonempty"
  | .versionNotPositive => "expected_version must be positive"
  | .emptyReason => "reason must be nonempty"
  | .retryWithValue => "retry decisions cannot provide a completed value"
  | .emptyProviderKey => "provider_key must be nonempty when provided"
  | .repeatedEffect key => "effect " ++ pyRepr key ++ " appears twice in one transition"
  | .effectAndControl keys =>
      "transition classifies keys as both effect and control: " ++ reprList keys

/-- The exceptions a ledger operation raises. -/
inductive StoreError where
  /-- A write attempted with a stale fencing token. -/
  | fenced (branchId : String) (presented issued : Int)
  /-- An effect completion that contradicts its durable state. -/
  | effectConflict (branchId key reason : String)
  | valueError (what : BadValue)
  deriving DecidableEq, Repr

/-! ## Blank strings -/

/-- The characters `str.strip` removes. -/
def isSpace (c : Char) : Bool :=
  let n := c.toNat
  (0x09 ≤ n && n ≤ 0x0d) || (0x1c ≤ n && n ≤ 0x20) || n == 0x85 || n == 0xa0 || n == 0x1680 ||
    (0x2000 ≤ n && n ≤ 0x200a) || n == 0x2028 || n == 0x2029 || n == 0x202f || n == 0x205f ||
    n == 0x3000

/-- `not s.strip()`. -/
def blank (s : String) : Bool := s.toList.all isSpace

end Semora
