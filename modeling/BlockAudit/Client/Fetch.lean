import BlockAudit.Client.Request
import BlockAudit.Client.Window
import BlockAudit.Retry

/-!
Serving a list of requests, with retries, on a clock that counts nanoseconds. A log tells what was sent and
answered, in turn. A collector decides how many requests are under way and what comes of their answers.
-/
namespace BlockAudit.Client

open Retry (Policy)

/-- How long the reply to each sending of each request takes, counted from 0. -/
abbrev Latency := Request → Nat → Duration

/-- The most requests under way at a time. -/
def maxUnderWay : Nat := 16

/-- A request of the list that is started and has no answer yet. -/
structure Task where
  index : Nat
  policy : Policy
  /-- The reply on its way, once the request is sent. -/
  reply : Option Reply := none

/-- What happens while requests are served. -/
inductive Event where
  /-- The request of a task is sent, as one that was sent so often before. -/
  | sent (index : Nat) (request : Request) (earlier : Nat)
  /-- A reply after which the request is not sent again. -/
  | answered (index : Nat) (reply : Reply)

/-- Whether a request is sent, of whichever task. -/
def Event.sends (request : Request) : Event → Bool
  | .sent _ other _ => other.text == request.text
  | .answered _ _ => false

def timesSent (log : List Event) (request : Request) : Nat :=
  log.countP (Event.sends request)

/-- Counts the sendings of each request, the latest sent last. -/
def countSending (counts : List (String × Nat)) : Event → List (String × Nat)
  | .sent _ request earlier =>
    counts.filter (fun (text, _) => text != request.text) ++ [(request.text, earlier + 1)]
  | .answered _ _ => counts

structure Fetch {α : Type} (collector : Collector ClientError α) where
  clock : Nat := 0
  /-- The tasks to be served next. -/
  ready : List Task
  /-- The tasks that wait, with the time at which they go on, in the order in which they began to. -/
  asleep : List (Nat × Task) := []
  log : List Event := []
  state : collector.State

/-- A list of queries and how they are sent. -/
structure Job (α : Type) where
  queries : List (Query α)
  policy : Policy
  transport : Transport
  latency : Latency

/-- What a call leads to: its result, how often each request was sent, and how many milliseconds it
took. -/
structure Outcome (α : Type) where
  result : Except ClientError α
  sent : List (String × Nat)
  waited : Nat

namespace Fetch

variable {α : Type} {collector : Collector ClientError α}

/-- The tasks of the requests from `first` up to `last`. -/
def newTasks (policy : Policy) (first last : Nat) : List Task :=
  (List.range' first (last - first)).map fun index => { index, policy }

/-- A task goes on after a delay, or next if there is none. -/
def later (fetch : Fetch collector) (delay : Duration) (task : Task) : Fetch collector :=
  if delay.nanos = 0 then { fetch with ready := task :: fetch.ready }
  else { fetch with asleep := fetch.asleep ++ [(fetch.clock + delay.nanos, task)] }

/-- Sends the request of a task, which waits for the reply. -/
def send (job : Job α) (fetch : Fetch collector) (task : Task) (query : Query α) : Fetch collector :=
  let earlier := timesSent fetch.log query.request
  let reply := job.transport query.request earlier
  let fetch := { fetch with log := fetch.log ++ [Event.sent task.index query.request earlier] }
  fetch.later (job.latency query.request earlier) { task with reply := some reply }

/-- Hands the reply to a task to the collector, which may start further requests. -/
def finish (job : Job α) (fetch : Fetch collector) (task : Task) (query : Query α) (reply : Reply) :
    Fetch collector :=
  let state := collector.answer fetch.state task.index (query.read reply)
  { fetch with
    ready := fetch.ready ++
      newTasks job.policy (collector.started fetch.state) (collector.started state)
    log := fetch.log ++ [.answered task.index reply]
    state }

/-- Takes the reply to a task. If it is no answer, the task waits until its request is sent again. -/
def receive (job : Job α) (fetch : Fetch collector) (task : Task) (query : Query α) (reply : Reply) :
    Fetch collector :=
  match task.policy.after? (attempt reply) with
  | some (policy, delay) => fetch.later delay { index := task.index, policy }
  | none => fetch.finish job task query reply

def serve (job : Job α) (fetch : Fetch collector) (task : Task) (query : Query α) : Fetch collector :=
  match task.reply with
  | none => fetch.send job task query
  | some reply => fetch.receive job task query reply

/-- Moves the clock on to a time, at which some tasks go on. -/
def wakeAt (fetch : Fetch collector) (time : Nat) : Fetch collector :=
  { fetch with
    clock := time
    ready := (fetch.asleep.filter fun (t, _) => t == time).map Prod.snd
    asleep := fetch.asleep.filter fun (t, _) => t != time }

/-- Moves the clock on to the next time at which a task goes on. -/
def wake (fetch : Fetch collector) : Option (Fetch collector) :=
  (fetch.asleep.map Prod.fst).min?.map fetch.wakeAt

/-- Serves a task or waits for one. Nothing is left to do once the collection has ended. -/
def step (job : Job α) (fetch : Fetch collector) : Option (Fetch collector) :=
  if collector.isDone fetch.state then none
  else
    match fetch.ready with
    | [] => fetch.wake
    | task :: ready => job.queries[task.index]?.map (serve job { fetch with ready } task)

def iterate (job : Job α) : Nat → Fetch collector → Fetch collector
  | 0, fetch => fetch
  | n + 1, fetch =>
    match fetch.step job with
    | none => fetch
    | some next => iterate job n next

def start (collector : Collector ClientError α) (job : Job α) : Fetch collector :=
  let state := collector.start maxUnderWay job.queries.length
  { ready := newTasks job.policy 0 (collector.started state), state }

/-- Serves all queries. An attempt is four steps: a sending, a reply and the waiting for each. -/
def run (collector : Collector ClientError α) (job : Job α) : Fetch collector :=
  iterate job (4 * job.queries.length * (job.policy.maxRetries + 1)) (start collector job)

def outcome (fetch : Fetch collector) : Outcome (List α) :=
  ⟨collector.result fetch.state, fetch.log.foldl countSending [], fetch.clock / 1000000⟩

end Fetch

/-- Serves a single query. -/
def call {α : Type} (policy : Policy) (transport : Transport) (query : Query α) : Outcome α :=
  let (call, _) := (Retry.Service.mk policy).call query.request
  let run := call.run fun i => attempt (transport query.request i)
  let reply := match run.result with
    | .ok reply => reply
    | .error reply => reply
  ⟨query.read reply, [(query.request.text, run.sent.length)],
    run.waits.foldl (fun time wait => time + wait.nanos) 0 / 1000000⟩

/-- Asks for the receipts of transactions. -/
def fetchReceipts (collector : Collector ClientError Rpc.Receipt) (policy : Policy) (transport : Transport)
    (latency : Latency) (hashes : List Hash) : Fetch collector :=
  Fetch.run collector { queries := hashes.map .receipt, policy, transport, latency }

/-- The receipts of transactions, in their order, if no reply takes time. -/
def receipts (policy : Policy) (transport : Transport) (hashes : List Hash) :
    Outcome (List Rpc.Receipt) :=
  (fetchReceipts Window.collector policy transport (fun _ _ => .ofMillis 0) hashes).outcome

end BlockAudit.Client
