import PlanCache.Halt
import PlanCache.Json.Read
import PlanCache.Json.Write
import PlanCache.Plan.Value
import PlanCache.Text.Case

/-!
What is displayed of an answered query: the plans, the literals, and what the cache has counted.
-/

namespace PlanCache

/-- Why a plan cannot be displayed: what should be the table of its inner plans is another value. -/
inductive DisplayError where
  | notATable (value : Value)

namespace Display

/-- A line of one character. -/
def rule (c : Char) : String := String.ofList (List.replicate 80 c) ++ "\n"

/-- A plan that is a JSON text, indented; any other value has no such form. -/
def indented? : Value → Option String
  | .text s => (Json.read? s).map (Json.write 6)
  | _ => none

def entry (v : Value) : String := (indented? v).getD "    (Invalid JSON format)" ++ "\n"

def innerPlans (plans : List (String × Value)) : String :=
  String.join (plans.map fun (k, v) ↦ "\n   Subquery: " ++ k ++ "\n" ++ entry v)

/-- The plans of a table, after what has been displayed so far. -/
def plans (shown : String) : List (String × Value) → Except (Halt DisplayError String) String
  | [] => .ok shown
  | (k, v) :: rest =>
    if k = innerKey then
      let shown := shown ++ "\n Inner Query Plans:\n"
      match v with
      | .table es => plans (shown ++ innerPlans es) rest
      | v => .error ⟨.notATable v, shown⟩
    else plans (shown ++ "\n Outer Query: " ++ k ++ "\n" ++ entry v) rest

/-- A plan, after what has been displayed so far. -/
def plan (shown : String) : Value → Except (Halt DisplayError String) String
  | .table es => plans shown es
  | v => .ok (shown ++ (indented? v).getD v.outer ++ "\n")

/-- The head of the display. -/
def heading (query : String) : String :=
  "\n" ++ rule '=' ++ " # QUERY PLAN RESULTS for :  " ++ query ++ "\n" ++ rule '='

/-- The literals; none are displayed as if there was no list. -/
def literals : List String → String
  | [] => "None"
  | ls => (Value.list (ls.map .text)).inner

/-- A name with a capital, filled up to ten characters. -/
def label (name : String) : String :=
  let cs := Text.capitalize name.toList
  String.ofList (cs ++ List.replicate (10 - cs.length) ' ')

/-- What follows the plans. -/
def closing (found : List String) (metrics : List (String × Value)) (hits : Value) : String :=
  "\n" ++ rule '-' ++ "# Extracted Literals:\n    " ++ literals found ++ "\n" ++
    "Cache hits for current query :  " ++ hits.outer ++ "\n\n" ++
    rule '-' ++ "# Cache Metrics:\n" ++
    String.join (metrics.map fun (k, v) ↦ "   " ++ label k ++ ": " ++ v.outer ++ "\n") ++
    rule '=' ++ "\n"

end Display

/-- The display of a plan with the literals of its query, what was counted, the query, and how many
hits it had. -/
def display (plan : Value) (literals : List String) (metrics : List (String × Value))
    (query : String) (hits : Value) : Except (Halt DisplayError String) String :=
  (Display.plan (Display.heading query) plan).map (· ++ Display.closing literals metrics hits)

def Answer.display (a : Answer) (c : Cache) (query : String) :
    Except (Halt DisplayError String) String :=
  PlanCache.display a.plan.value a.literals c.metrics query (.int a.hits)

end PlanCache
