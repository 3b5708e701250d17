import PlanCache.Plan.Simulation

/-!
The command line: shows how a second query is answered from the cache.
-/

open PlanCache in
/-- Prints the demonstration, or as much of it as there is. -/
def main : IO UInt32 := do
  match demonstration with
  | .ok shown =>
    IO.print shown
    return 0
  | .error e =>
    IO.print e.state
    return 1
