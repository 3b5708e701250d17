/-!
Work that can break off and leaves behind what it had done until then.
-/

namespace PlanCache

/-- Why some work broke off and the state it left. -/
structure Halt (ε σ : Type) where
  cause : ε
  state : σ
deriving Repr

/-- What some work gives, or why it broke off. -/
def Halt.result {ε σ α : Type} : Except (Halt ε σ) α → Except ε α
  | .ok a => .ok a
  | .error e => .error e.cause

end PlanCache
