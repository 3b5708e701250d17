/-!
Sets of characters given by the code points at which membership changes.
-/

namespace PlanCache.Text

/-- Whether `n` lies in the set that begins at the first bound, ends before the second, etc. -/
def within (bounds : List Nat) (n : Nat) : Bool :=
  match bounds with
  | lo :: hi :: rest => lo ≤ n && (n < hi || within rest n)
  | _ => false

end PlanCache.Text
