/-!
Outputs of a list of futures, collected in list order while a limited number of the futures is under way.
What collects them comes with a library and is a parameter here.
-/
namespace BlockAudit.Client

/-- A collector of outputs `α`, or of errors `ε`. -/
structure Collector (ε α : Type) where
  State : Type
  /-- The state for a list of `total` futures of which at most `limit` are under way at a time. -/
  start (limit total : Nat) : State
  /-- How many futures are started, from the front of the list. -/
  started : State → Nat
  /-- What the collection was given so far. -/
  yielded : State → List (Except ε α)
  /-- Takes the output of the future at an index of the list. -/
  answer : State → Nat → Except ε α → State
  /-- Whether the collection has ended. No future is served after that. -/
  isDone : State → Bool
  /-- What the collection leads to once it has ended. -/
  result : State → Except ε (List α)

end BlockAudit.Client
