import Tickle.Loop

/-! # What the two ends of a service share

The request and response headers, the return codes reserved by the core, the context options both
ends derive their schedules from, and the clock reading a step is taken at. Request and response
bodies are opaque: `α` and `ρ` stand for what the service's own codec produces.
-/

namespace Tickle

def uint64Max : Nat := 2 ^ 64 - 1
def uint32Max : Nat := 2 ^ 32 - 1

/-- `tt_CallRequestHeader.seq_no`: the calling context's counter, modulo 2^16. -/
abbrev CallSeqNo := BitVec 16

def callTimeout : Int := -128
def callDeferred : Int := -127
def callIgnored : Int := -126

/-- A CallRequest as it is kept and sent. -/
structure CallRequest (α : Type) where
  endpointId : Nat
  seqNo : CallSeqNo
  retry : BitVec 8
  clientTag : BitVec 8
  body : α
  deriving DecidableEq, Repr

/-- A CallResponse: `receiver` is its submessage's. -/
structure CallResponse (ρ : Type) where
  receiver : BitVec 8
  endpointId : Nat
  seqNo : CallSeqNo
  retry : BitVec 8
  returnCode : Int
  body : ρ
  deriving DecidableEq, Repr

/-- `struct tt_ServiceOptions`, resolved: no field is a zero that means a default. -/
structure ServiceOptions where
  callRetryInterval : BitVec 32
  callRetryCount : BitVec 32
  callDeadlinePerSend : BitVec 32
  callRetryMaxSrttMultiple : BitVec 16
  serverCacheGapMultiple : BitVec 16
  serverDeferredResponseTimeout : Nat

/-- The build's figures. -/
def ServiceOptions.build : ServiceOptions where
  callRetryInterval := 5000000
  callRetryCount := 3
  callDeadlinePerSend := 250000000
  callRetryMaxSrttMultiple := 64
  serverCacheGapMultiple := 4
  serverDeferredResponseTimeout := 5000000000

/-- `call_retry_interval` and `call_retry_count` of a Client or of its service, 0 for unset. -/
structure RetrySettings where
  interval : BitVec 32
  count : BitVec 32
  deriving DecidableEq, Repr

/-- What a step reads of its host: `tt_get_ns()`, and `call_retry_granularity()`, the measured G. -/
structure Reading where
  now : Nat
  granularity : Nat
  deriving DecidableEq, Repr

/-- `now + wait`, saturating as the source does at every such sum. -/
def saturatingAdd (now wait : Nat) : Nat :=
  if uint64Max - now < wait then uint64Max else now + wait

theorem saturatingAdd_eq_min {now wait : Nat} (h : 0 < wait ∨ now ≤ uint64Max) :
    saturatingAdd now wait = min (now + wait) uint64Max := by
  unfold saturatingAdd
  split <;> omega

end Tickle
