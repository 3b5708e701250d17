import PlanCache.Json.Basic
import PlanCache.Number.Decimal
import PlanCache.Text.Quoted

/-!
Writing JSON with indentation, in printable ASCII.
-/

namespace PlanCache.Json

/-- How a unit of a string is written. -/
def writeUnit (u : UInt16) : List Char :=
  let n := u.toNat
  if n = 0x22 then ['\\', '"']
  else if n = 0x5c then ['\\', '\\']
  else if n = 0x0a then ['\\', 'n']
  else if n = 0x0d then ['\\', 'r']
  else if n = 0x09 then ['\\', 't']
  else if n = 0x0c then ['\\', 'f']
  else if n = 0x08 then ['\\', 'b']
  else if 0x20 ≤ n && n ≤ 0x7e then [Char.ofNat n]
  else '\\' :: 'u' :: Text.hex 4 n

def writeString (us : Units) : String := String.ofList ('"' :: us.flatMap writeUnit ++ ['"'])

/-- A number that is no integer. -/
def writeFloat : Binary64 → String
  | .nan => "NaN"
  | .infinite negative => if negative then "-Infinity" else "Infinity"
  | .finite negative digits unit => Binary64.finiteText negative digits unit

/-- Items one to a line between brackets; none give the brackets alone. -/
def writeBlock (indent level : Nat) (opening closing : String) : List String → String
  | [] => opening ++ closing
  | items =>
    let line := fun n ↦ "\n" ++ String.ofList (List.replicate (indent * n) ' ')
    let inside := line (level + 1)
    opening ++ inside ++ String.intercalate ("," ++ inside) items ++ line level ++ closing

mutual

/-- A value inside `level` brackets, each of which indents by `indent`. -/
def writeAt (indent level : Nat) : Json → String
  | .null => "null"
  | .bool b => if b then "true" else "false"
  | .int n => toString n
  | .float x => writeFloat x
  | .str us => writeString us
  | .arr vs => writeBlock indent level "[" "]" (writeItems indent (level + 1) vs)
  | .obj ms => writeBlock indent level "\x7b" "\x7d" (writeMembers indent (level + 1) ms)

def writeItems (indent level : Nat) : List Json → List String
  | [] => []
  | v :: vs => v.writeAt indent level :: writeItems indent level vs

def writeMembers (indent level : Nat) : List (Units × Json) → List String
  | [] => []
  | (k, v) :: ms =>
    (writeString k ++ ": " ++ v.writeAt indent level) :: writeMembers indent level ms

end

/-- Text of a value, indented by `indent` a level. -/
def write (indent : Nat) (v : Json) : String := v.writeAt indent 0

end PlanCache.Json
