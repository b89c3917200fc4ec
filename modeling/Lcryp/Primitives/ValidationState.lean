
/-!
# Validation results

The rejections that validation functions record in their `ValidationState`: a result class, the
reject reason and the debug message.
-/
namespace Lcryp
inductive TxValidationResult
  | resultUnset
  | consensus
  | recentConsensusChange
  | inputsNotStandard
  | notStandard
  | missingInputs
  | prematureSpend
  | witnessMutated
  | witnessStripped
  | conflict
  | mempoolPolicy
  | noMempool
deriving DecidableEq

inductive BlockValidationResult
  | resultUnset
  | consensus
  | recentConsensusChange
  | cachedInvalid
  | invalidHeader
  | mutated
  | missingPrev
  | invalidPrev
  | timeFuture
  | checkpoint
  | headerLowWork
deriving DecidableEq

structure Invalid (Result : Type) where
  result : Result
  rejectReason : String
  debugMessage : String
deriving DecidableEq

abbrev TxInvalid := Invalid TxValidationResult
abbrev BlockInvalid := Invalid BlockValidationResult

/-- How block processing ends early: a rejected block, a system error that shuts the node down, a
failed assertion or an exception. -/
inductive ValidationStop
  | invalid (reason : BlockInvalid)
  | error (message : String)
  | assertion
  | exception (message : String)
deriving DecidableEq
end Lcryp
