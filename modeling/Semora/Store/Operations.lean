import Semora.Framework.Machine
import Semora.Store.MemorySteps

/-! # The Ledger as a Machine

    Every method of `MemorySteps` as one constructor, with the clock
    readings its call makes, so that a history of the store is a list. -/

namespace Semora

/-- A call of one `ExecutionStore` method. -/
inductive LedgerOp (V : Type) where
  | read (branchId key : String)
  | start (branchId key : String) (token : Int)
  | finishEffect (branchId key : String) (value : Option V) (token : Int)
  | resolveEffect (branchId key : String) (resolution : EffectResolution V)
      (workersStopped : Bool) (token : Int)
  | writeControl (branchId key : String) (value : Option V) (token : Int)
  | forget (branchId key : String) (token : Int)
  | acquire (branchId owner : String) (ttlSeconds : ℚ)
  | release (branchId owner : String)
  | enqueueInput (branchId inputId : String) (value : V)
  | listInputs (branchId : String)
  | claimInput (branchId inputId : String) (token : Int)
  | admitInputs (branchId : String) (inputIds : List String) (token : Int)
  | discardInputs (branchId : String) (inputIds : List String) (token : Int)
  | commitTransition (branchId : String) (transition : ExecutionTransition V) (token : Int)

namespace LedgerOp

variable {V : Type}

/-- What a method returns when it does not raise. -/
def Reply : LedgerOp V → Type
  | .read .. => Step V
  | .start .. => Bool
  | .finishEffect .. => Unit
  | .resolveEffect .. => Step V
  | .writeControl .. => Unit
  | .forget .. => Unit
  | .acquire .. => Int
  | .release .. => Unit
  | .enqueueInput .. => Bool
  | .listInputs .. => List (InputRecord V)
  | .claimInput .. => Unit
  | .admitInputs .. => Unit
  | .discardInputs .. => Unit
  | .commitTransition .. => List String

/-- The branch a call is about, as the store files it. -/
def branchId : LedgerOp V → String
  | .read b .. => b
  | .start b .. => b
  | .finishEffect b .. => b
  | .resolveEffect b .. => b
  | .writeControl b .. => b
  | .forget b .. => b
  | .acquire b .. => b
  | .release b .. => b
  | .enqueueInput b .. => b
  | .listInputs b => b
  | .claimInput b .. => b
  | .admitInputs b .. => b
  | .discardInputs b .. => b
  | .commitTransition b .. => b

/-- The fencing token a lease-protected call presents. -/
def token? : LedgerOp V → Option Int
  | .start _ _ t => some t
  | .finishEffect _ _ _ t => some t
  | .resolveEffect _ _ _ _ t => some t
  | .writeControl _ _ _ t => some t
  | .forget _ _ t => some t
  | .claimInput _ _ t => some t
  | .admitInputs _ _ t => some t
  | .discardInputs _ _ t => some t
  | .commitTransition _ _ t => some t
  | _ => none

/-- The owner a lease call names. -/
def owner? : LedgerOp V → Option String
  | .acquire _ owner _ => some owner
  | .release _ owner => some owner
  | _ => none

/-- Run one call against the store, with the clock readings it makes. -/
def perform [BEq V] (op : LedgerOp V) (now later : ℚ) (s : MemorySteps V) :
    Except StoreError op.Reply × MemorySteps V :=
  match op with
  | .read b key => (.ok (s.read b key), s)
  | .start b key token => s.start b key token
  | .finishEffect b key value token => s.finishEffect b key value token
  | .resolveEffect b key resolution workersStopped token =>
      s.resolveEffect b key resolution workersStopped token
  | .writeControl b key value token => s.writeControl b key value token
  | .forget b key token => s.forget b key token
  | .acquire b owner ttl =>
      let (token, s') := s.acquire b owner ttl now later
      (.ok token, s')
  | .release b owner => (.ok (), s.release b owner now)
  | .enqueueInput b inputId value =>
      let (inserted, s') := s.enqueueInput b inputId value
      (.ok inserted, s')
  | .listInputs b => (.ok (s.listInputs b), s)
  | .claimInput b inputId token => s.claimInput b inputId token
  | .admitInputs b inputIds token => s.admitInputs b inputIds token
  | .discardInputs b inputIds token => s.discardInputs b inputIds token
  | .commitTransition b transition token => s.commitTransition b transition token

end LedgerOp

/-- A call together with the clock readings it makes. -/
structure LedgerCall (V : Type) where
  op : LedgerOp V
  now : ℚ
  later : ℚ

/-- The ledger: calls are answered one at a time. -/
def ledger (V : Type) [BEq V] :
    Machine (MemorySteps V) (LedgerCall V) fun c => Except StoreError c.op.Reply where
  step s c := c.op.perform c.now c.later s

end Semora
