import PlanCache.Number.Decimal
import PlanCache.Plan.Cache
import PlanCache.Text.Quoted

/-!
Values that can be displayed, and their texts.
-/

namespace PlanCache

/-- A value of any sort. -/
inductive Value where
  | none
  | bool (value : Bool)
  | int (value : Int)
  | float (value : Binary64)
  | text (value : String)
  | list (items : List Value)
  | table (entries : List (String × Value))
deriving Inhabited

namespace Value

def floatText : Binary64 → String
  | .nan => "nan"
  | .infinite negative => if negative then "-inf" else "inf"
  | .finite negative digits unit => Binary64.finiteText negative digits unit

def quote (s : String) : String := String.ofList (Text.quoted s.toList)

mutual

/-- A value as it is written inside another one: a text is in quotes. -/
def inner : Value → String
  | .none => "None"
  | .bool b => if b then "True" else "False"
  | .int n => toString n
  | .float x => floatText x
  | .text s => quote s
  | .list vs => "[" ++ String.intercalate ", " (innerItems vs) ++ "]"
  | .table es => "\x7b" ++ String.intercalate ", " (innerEntries es) ++ "\x7d"

def innerItems : List Value → List String
  | [] => []
  | v :: vs => v.inner :: innerItems vs

def innerEntries : List (String × Value) → List String
  | [] => []
  | (k, v) :: es => (quote k ++ ": " ++ v.inner) :: innerEntries es

end

/-- A value as it is written on its own: a text is written as it is. -/
def outer : Value → String
  | .text s => s
  | v => v.inner

end Value

mutual

def Plan.value : Plan → Value
  | .text s => .text s
  | .table es => .table (planValues es)

def planValues : List (String × Plan) → List (String × Value)
  | [] => []
  | (k, p) :: es => (k, p.value) :: planValues es

end

/-- What has been counted, by name. -/
def Cache.metrics (c : Cache) : Table String Value :=
  [("requests", .int c.requests), ("hits", .int c.hits), ("misses", .int c.misses)]

end PlanCache
