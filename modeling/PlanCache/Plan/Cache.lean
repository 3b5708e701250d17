import PlanCache.Plan.Complexity
import PlanCache.Plan.Sketch
import PlanCache.Query.Normal

/-!
A cache of plans under the normal texts of queries. A query that holds other selects has a plan for
each of them beside its own.
-/

namespace PlanCache

/-- A plan: a text, or a table of plans. -/
inductive Plan where
  | text (json : String)
  | table (entries : List (String × Plan))
deriving Inhabited

/-- The key of the plans of inner selects. -/
def innerKey : String := "Inner Query Plans : "

/-- Plans by the normal text of their query, and what has been counted. -/
structure Cache where
  /-- The plans in the order in which they were first stored. -/
  plans : Table String Plan := []
  /-- Whether stored plans are used. -/
  enabled : Bool := true
  requests : Nat := 0
  hits : Nat := 0
  misses : Nat := 0
  /-- Sum of the complexities of the plans that were made. -/
  score : Nat := 0

/-- What a query is answered with. -/
structure Answer where
  plan : Plan
  literals : List String
  hits : Nat

namespace Cache

/-- The stored plan, if stored plans are used. -/
def lookup? (c : Cache) (key : String) : Option Plan := if c.enabled then c.plans.get? key else none

/-- Counts a request that a stored plan answers. -/
def hit (c : Cache) : Cache := { c with requests := c.requests + 1, hits := c.hits + 1 }

/-- Counts a request for which the plan of `query` is made. -/
def miss (c : Cache) (query : String) : Cache :=
  { c with
    requests := c.requests + 1
    misses := c.misses + 1
    score := c.score + complexity query }

def store (c : Cache) (key : String) (plan : Plan) : Cache :=
  { c with plans := c.plans.put key plan }

/-- The plan of a query without inner selects. -/
def single (c : Cache) (n : Normal) : Answer × Cache :=
  match c.lookup? n.full with
  | some plan => (⟨plan, n.literals, 1⟩, c.hit)
  | none =>
    let plan := Plan.text (planText n.full)
    (⟨plan, n.literals, 0⟩, (c.miss n.full).store n.full plan)

/-- Text of the query that is left when a select is cut out wherever its text occurs. -/
def cutOut (select text : String) : String :=
  String.ofList (Text.replaceAll select.toList placeholder.toList text.toList)

/-- What has been gathered from the inner selects of a query: what is left of its text, their plans,
and twice the number that were stored. -/
structure Gathered where
  cache : Cache
  rest : String
  plans : Table String Plan := []
  hits : Nat := 0

/-- Takes the plan of an inner select from the cache, or makes and stores it. -/
def gather (g : Gathered) (select : String) : Gathered :=
  let rest := cutOut select g.rest
  match g.cache.lookup? select with
  | some plan => ⟨g.cache.hit, rest, g.plans.put select plan, g.hits + 2⟩
  | none =>
    let plan := Plan.text (planText select)
    ⟨(g.cache.miss select).store select plan, rest, g.plans.put select plan, g.hits⟩

/-- The plan of a query with inner selects that is not stored. -/
def nested (c : Cache) (n : Normal) : Answer × Cache :=
  let g := n.leaves.foldl gather ⟨c, n.full, [], 0⟩
  let outer : Table String Plan := [(g.rest, .text (planText g.rest))]
  let plan := Plan.table (outer.put innerKey (.table g.plans))
  (⟨plan, n.literals, g.hits⟩, (g.cache.miss g.rest).store n.full plan)

/-- Answers a query by its normal form. -/
def answer (c : Cache) (n : Normal) : Answer × Cache :=
  if n.leaves = [n.full] || n.leaves.isEmpty then c.single n
  else match c.lookup? n.full with
    | some plan => (⟨plan, n.literals, 1⟩, c.hit)
    | none => c.nested n

/-- Answers a query. One without a normal form leaves the cache as it is. -/
def fetch (c : Cache) (sql : String) : Except RangeError (Answer × Cache) :=
  (Normal.ofString sql).map c.answer

def use (c : Cache) (enabled : Bool) : Cache := { c with enabled }

/-- The cache without plans; what was counted stays. -/
def clear (c : Cache) : Cache := { c with plans := [] }

end Cache

end PlanCache
