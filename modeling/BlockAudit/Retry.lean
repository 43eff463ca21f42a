import BlockAudit.Duration

/-! Sending a request again after failures, with delays that double up to a limit. -/
namespace BlockAudit.Retry

/-- The longest delay between two attempts: 30 seconds. -/
def maxDelay : Duration := .ofMillis 30000

structure Policy where
  /-- The delay before the first retry. -/
  backoff : Duration
  /-- The retries so far. -/
  retries : Nat := 0
  maxRetries : Nat
deriving DecidableEq

namespace Policy

/-- The delay before the next attempt. Beyond 16 retries it no longer doubles. -/
def delay (policy : Policy) : Duration :=
  match policy.backoff.times? (Nat.pow 2 (min policy.retries 16)) with
  | some product => min product maxDelay
  | none => maxDelay

/-- The policy after one more retry and the delay before it, as long as retries are left. -/
def next? (policy : Policy) : Option (Policy × Duration) :=
  if policy.retries < policy.maxRetries then
    some ({ policy with retries := policy.retries + 1 }, policy.delay)
  else none

/-- Whether to send again after an attempt: only after an error. -/
def after? {ε α : Type} (policy : Policy) : Except ε α → Option (Policy × Duration)
  | .ok _ => none
  | .error _ => policy.next?

end Policy

/-- What became of a request. -/
structure Run (ρ ε α : Type) where
  /-- What was sent, in turn. -/
  sent : List ρ
  /-- The delays between the attempts. -/
  waits : List Duration
  result : Except ε α

/-- A request that is being served, with a policy of its own. -/
structure Call (ρ : Type) where
  request : ρ
  policy : Policy

/-- Sends the request until an attempt succeeds or no retries are left. `script i` is the outcome of
attempt `i`. -/
def Call.run {ρ ε α : Type} (call : Call ρ) (script : Nat → Except ε α) : Run ρ ε α :=
  match _h : call.policy.after? (script 0) with
  | none => ⟨[call.request], [], script 0⟩
  | some (policy, delay) =>
    let rest := run { call with policy } fun i => script (i + 1)
    ⟨call.request :: rest.sent, delay :: rest.waits, rest.result⟩
termination_by call.policy.maxRetries - call.policy.retries
decreasing_by
  cases hfirst : script 0 with
  | ok a => simp [Policy.after?, hfirst] at _h
  | error error =>
    simp only [Policy.after?, hfirst, Policy.next?] at _h
    split at _h
    · cases _h
      dsimp only
      omega
    · cases _h

/-- Serves requests, each again after failures. -/
structure Service where
  policy : Policy

/-- Takes up a request. The call gets a copy of the policy, the service keeps its own. -/
def Service.call {ρ : Type} (service : Service) (request : ρ) : Call ρ × Service :=
  (⟨request, service.policy⟩, service)

end BlockAudit.Retry
