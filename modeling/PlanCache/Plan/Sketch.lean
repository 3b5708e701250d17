import PlanCache.Digest.Md5
import PlanCache.Json.Write
import PlanCache.Text.Word

/-!
The plan of a single query: an identifier, a kind of scan, and the tables that are read.
-/

namespace PlanCache

structure Sketch where
  id : String
  scan : String
  tables : List String
deriving DecidableEq, Repr

namespace Sketch

/-- Whether a query has a condition. -/
def hasCondition (cs : List Char) : Bool := (Text.words cs).any (Text.isKeyword "where".toList)

/-- The names after `FROM` and `JOIN`, each once, in the order of their characters. -/
def tableNames (cs : List Char) : List String :=
  (Text.namesAfter "from" cs ++ Text.namesAfter "join" cs).eraseDups.mergeSort fun a b ↦ a ≤ b

/-- The plan of a query. It is named by the beginning of the query's digest; a condition makes it
use an index. -/
def ofQuery (query : String) : Sketch where
  id := "PLN_" ++ String.ofList ((Md5.hexDigest query).take 8)
  scan := if hasCondition query.toList then "Index Scan" else "Full Table Scan"
  tables := match tableNames query.toList with
    | [] => ["unknown_table"]
    | names => names

def json (s : Sketch) : Json :=
  .obj [(.ofString "plan_id", .ofString s.id), (.ofString "plan_type", .ofString s.scan),
    (.ofString "tables", .arr (s.tables.map .ofString))]

def text (s : Sketch) : String := s.json.write 4

end Sketch

def planText (query : String) : String := (Sketch.ofQuery query).text

end PlanCache
