import PlanCache.Text.Case
import PlanCache.Text.Search
import PlanCache.Text.Word

/-!
How costly a query is to plan, judged by the words in its text.
-/

namespace PlanCache

namespace Complexity

/-- What each occurrence of a text adds, also inside a word. -/
def weights : List (String × Nat) :=
  [("where", 3), ("and", 2), ("or", 2), ("join", 5), ("group by", 4), ("order by", 4),
    ("having", 3), ("select", 1)]

/-- Names of functions on groups of rows. -/
def aggregates : List String := ["sum", "count", "min", "max", "avg"]

/-- What the use of functions on groups of rows adds, however many there are. -/
def aggregateWeight : Nat := 5

/-- Sum of the weights of a text in small letters. -/
def weigh (cs : List Char) : Nat :=
  weights.foldr (fun (word, weight) n ↦ Text.count word cs * weight + n) 0

/-- Whether one of the words of a text is the name of a function on groups of rows. -/
def usesAggregate (cs : List Char) : Bool :=
  (Text.words cs).any fun w ↦ aggregates.any fun a ↦ w == a.toList

end Complexity

open Complexity in
/-- The complexity of a query, in capitals or not, which is at least 1. -/
def complexity (query : String) : Nat :=
  let cs := Text.lower query.toList
  max 1 (weigh cs + if usesAggregate cs then aggregateWeight else 0)

end PlanCache
