import PlanCache.Query.Literals
import PlanCache.Query.Rebuild
import PlanCache.Query.Selects

/-!
The normal form of a query: its text without literals, the same for the selects in it that hold no
other, its text with the other inner selects cut out too, and the literals.
-/

namespace PlanCache

/-- The tokens and the tree of a script. -/
def Buffer.ofString (sql : String) : Buffer × Tree :=
  let p := Parsed.ofString .sqlStmtList sql
  (.ofParsed p, p.tree)

/-- Text of a query without its literals. -/
def normalize (sql : String) : Except RangeError String := do
  let (b, t) := Buffer.ofString sql
  let s ← Halt.result (b.replaceLiterals t)
  return s.buffer.rebuild

structure Normal where
  full : String
  leaves : List String
  outer : String
  literals : List String
deriving DecidableEq, Repr

/-- The normal form of a query. Equal selects are listed once. -/
def Normal.ofString (sql : String) : Except RangeError Normal := do
  let (b, t) := Buffer.ofString sql
  let replaced ← Halt.result (b.replaceLiterals t)
  let subqueries ← b.subqueries t
  let leaves ← subqueries.mapM normalize
  let masked ← Halt.result (replaced.buffer.maskNested t)
  return {
    full := replaced.buffer.rebuild
    leaves := leaves.eraseDups
    outer := masked.buffer.rebuild
    literals := b.literals t }

end PlanCache
