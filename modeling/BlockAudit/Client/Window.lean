import BlockAudit.Client.Collector

/-!
Requests in list order, of which a limited number is under way at a time. Their answers are collected in
list order whatever the order of their arrival. The first error in list order ends the collection.
-/
namespace BlockAudit.Client

structure Window (ε α : Type) where
  /-- The most requests under way at a time. -/
  limit : Nat
  /-- The number of requests in the list. -/
  total : Nat
  collected : List α := []
  /-- The requests after the collected ones that are under way, with the answers that are there. -/
  underWay : List (Option (Except ε α)) := []
  failure : Option ε := none

namespace Window

variable {ε α : Type}

/-- How many requests of the list are started. -/
def started (window : Window ε α) : Nat :=
  window.collected.length + window.underWay.length

/-- Starts requests in list order as long as there is room. -/
def fill (window : Window ε α) : Window ε α :=
  let room := window.limit - window.underWay.length
  let count := min room (window.total - window.started)
  { window with underWay := window.underWay ++ List.replicate count none }

/-- Moves answers from the front to the collected ones, up to the first that is missing or an error. -/
def collectFrom (limit total : Nat) (collected : List α) : List (Option (Except ε α)) → Window ε α
  | some (.ok a) :: rest => collectFrom limit total (collected ++ [a]) rest
  | some (.error error) :: rest =>
    { limit, total, collected, underWay := some (.error error) :: rest, failure := some error }
  | slots => { limit, total, collected, underWay := slots }

/-- Collects what can be collected and uses the room for further requests. -/
def settle (window : Window ε α) : Window ε α :=
  let next := collectFrom window.limit window.total window.collected window.underWay
  if next.failure.isSome then next else next.fill

def start (limit total : Nat) : Window ε α :=
  fill { limit, total }

/-- Takes the answer to the request at `index` of the list. -/
def answer (window : Window ε α) (index : Nat) (outcome : Except ε α) : Window ε α :=
  if window.failure.isSome then window
  else
    settle { window with
      underWay := window.underWay.set (index - window.collected.length) (some outcome) }

/-- Whether an error was met or everything is collected. -/
def isDone (window : Window ε α) : Bool :=
  window.failure.isSome || window.collected.length == window.total

def result (window : Window ε α) : Except ε (List α) :=
  match window.failure with
  | some error => .error error
  | none => .ok window.collected

/-- What the collection was given: all that is collected, and the error if there is one. -/
def yielded (window : Window ε α) : List (Except ε α) :=
  window.collected.map .ok ++ window.failure.toList.map .error

def collector : Collector ε α where
  State := Window ε α
  start
  started
  yielded
  answer
  isDone
  result

end Window

end BlockAudit.Client
