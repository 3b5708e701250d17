import PlanCache.Plan.Display

/-!
A run of queries through a cache, with everything that is displayed on the way.
-/

namespace PlanCache

/-- Why a run breaks off. -/
inductive RunError where
  | range (cause : RangeError)
  | display (cause : DisplayError)

/-- A cache and what has been displayed. -/
structure Run where
  cache : Cache
  shown : String

/-- What a run of queries comes to. -/
structure Outcome where
  requests : Nat
  hits : Nat
  misses : Nat
  complexity : Nat
deriving DecidableEq, Repr

namespace Run

/-- Answers a query and displays the answer. -/
def query (r : Run) (sql : String) : Except (Halt RunError String) Run :=
  match r.cache.fetch sql with
  | .error e => .error ⟨.range e, r.shown⟩
  | .ok (a, c) => match a.display c sql with
    | .error e => .error ⟨.display e.cause, r.shown ++ e.state⟩
    | .ok s => .ok ⟨c, r.shown ++ s⟩

/-- Answers numbered queries, each under its number and its text without white space around it. -/
def queries (r : Run) (number : Nat) : List String → Except (Halt RunError String) Run
  | [] => .ok r
  | sql :: rest =>
    let trimmed := String.ofList (Text.trim sql.toList)
    let title := " Query " ++ toString number ++ ":\n" ++ trimmed ++ "\n"
    match query { r with shown := r.shown ++ title } sql with
    | .error e => .error e
    | .ok r => queries r (number + 1) rest

/-- What is displayed after a run. -/
def summary (c : Cache) : String :=
  let line := "------------------------------------------\n"
  "\n" ++ line ++ " Test Completed\n" ++
    " Final Cache Metrics: " ++ (Value.table c.metrics).inner ++ "\n" ++
    "Total Complexity score generated is " ++ toString c.score ++ "\n" ++ line ++ "\n"

end Run

/-- Number of requests that is reported for every run. -/
def reportedRequests : Nat := 17

/-- Runs queries through a new cache: what is displayed and what it comes to. -/
def simulate (enabled : Bool) (sqls : List String) :
    Except (Halt RunError String) (String × Outcome) := do
  let start : Run := ⟨{ enabled }, " Starting Cache Simulation Test\n\n"⟩
  let r ← start.queries 1 sqls
  let c := r.cache
  return (r.shown ++ Run.summary c, ⟨reportedRequests, c.hits, c.misses, c.score⟩)

/-- The display of a query and of the same query for another key, with the score in between. -/
def demonstration : Except (Halt RunError String) String := do
  let r ← Run.query ⟨{}, ""⟩ "SELECT * FROM customers WHERE id = 101"
  let r := { r with shown := r.shown ++ toString r.cache.score ++ "\n" }
  let r ← r.query "SELECT * FROM customers WHERE id = 202;"
  return r.shown

end PlanCache
