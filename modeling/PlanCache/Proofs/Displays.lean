import PlanCache.Plan.Display
import PlanCache.Proofs.StoredPlans
import PlanCache.Proofs.Transparency

/-!
When a plan can be displayed. A table is displayed entry by entry, and the only entry at which the
display breaks off is one that should hold the plans of inner selects and is no table. The plans of
a cache have no such entry.
-/

namespace PlanCache

def Value.isTable : Value → Bool
  | .table _ => true
  | _ => false

namespace Display

/-- The entry should hold the plans of inner selects, and does not. -/
def Bars (e : String × Value) : Prop := e.1 = innerKey ∧ e.2.isTable = false

/-- What is displayed of an entry of a plan. -/
def block : String × Value → String
  | (k, .table es) =>
    if k = innerKey then "\n Inner Query Plans:\n" ++ innerPlans es
    else "\n Outer Query: " ++ k ++ "\n" ++ entry (.table es)
  | (k, v) => "\n Outer Query: " ++ k ++ "\n" ++ entry v

/-- What is displayed of a plan. -/
def body : Value → String
  | .table es => String.join (es.map block)
  | v => (indented? v).getD v.outer ++ "\n"

section Entries

variable (shown : String) {e : String × Value} {before rest : List (String × Value)}

end Entries

end Display

open Display

section Whole

variable (p : Value) (found : List String) (metrics : List (String × Value)) (query : String)
  (hits : Value)

end Whole

end PlanCache
