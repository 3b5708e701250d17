import PlanCache.Number.Binary64
import PlanCache.Table

/-!
JSON values. A string is a sequence of 16-bit units, because its escapes can name any unit, also
half of a surrogate pair.
-/

namespace PlanCache

/-- A text as 16-bit units. -/
abbrev Units := List UInt16

namespace Units

/-- Units of a character: one, or a surrogate pair. -/
def ofChar (c : Char) : Units :=
  let n := c.toNat
  if n < 0x10000 then [UInt16.ofNat n]
  else
    let m := n - 0x10000
    [UInt16.ofNat (0xd800 + m / 0x400), UInt16.ofNat (0xdc00 + m % 0x400)]

def ofString (s : String) : Units := s.toList.flatMap ofChar

def isHigh (u : UInt16) : Bool := 0xd800 ≤ u && u < 0xdc00

def isLow (u : UInt16) : Bool := 0xdc00 ≤ u && u < 0xe000

/-- The characters of a text; half a pair that stands alone gives the replacement character. -/
def toChars : Units → List Char
  | [] => []
  | [u] => [if isHigh u || isLow u then '\ufffd' else Char.ofNat u.toNat]
  | u :: v :: rest =>
    if isHigh u && isLow v then
      Char.ofNat (0x10000 + (u.toNat - 0xd800) * 0x400 + (v.toNat - 0xdc00)) :: toChars rest
    else
      (if isHigh u || isLow u then '\ufffd' else Char.ofNat u.toNat) :: toChars (v :: rest)

def toString (us : Units) : String := String.ofList us.toChars

end Units

/-- A JSON value. Integers and other numbers are kept apart; an object has each key once. -/
inductive Json where
  | null
  | bool (value : Bool)
  | int (value : Int)
  | float (value : Binary64)
  | str (units : Units)
  | arr (items : List Json)
  | obj (members : List (Units × Json))

namespace Json

def ofString (s : String) : Json := .str (.ofString s)

end Json

end PlanCache
