import PlanCache.Json.Basic
import PlanCache.Text.Search

/-!
Reading JSON. Beside the standard's values there are `NaN`, `Infinity` and `-Infinity`. Of two
members with one key the later value counts, in the place of the first.
-/

namespace PlanCache.Json

def isSpace (c : Char) : Bool := c == ' ' || c == '\t' || c == '\n' || c == '\r'

def skipSpace (cs : List Char) : List Char := cs.dropWhile isSpace

/-- The most digits that an integer may have. -/
def maxDigits : Nat := 4300

def hexDigit? (c : Char) : Option Nat :=
  if '0' ≤ c && c ≤ '9' then some (c.toNat - '0'.toNat)
  else if 'a' ≤ c && c ≤ 'f' then some (c.toNat - 'a'.toNat + 10)
  else if 'A' ≤ c && c ≤ 'F' then some (c.toNat - 'A'.toNat + 10)
  else none

/-- The unit with four hexadecimal digits. -/
def hexUnit? (a b c d : Char) : Option UInt16 := do
  let n := (((← hexDigit? a) * 16 + (← hexDigit? b)) * 16 + (← hexDigit? c)) * 16 + (← hexDigit? d)
  return UInt16.ofNat n

/-- The unit that a letter names after a backslash. -/
def escaped? : Char → Option UInt16
  | '"' => some 0x22
  | '\\' => some 0x5c
  | '/' => some 0x2f
  | 'b' => some 0x08
  | 'f' => some 0x0c
  | 'n' => some 0x0a
  | 'r' => some 0x0d
  | 't' => some 0x09
  | _ => none

/-- Reads a string after its opening quote, up to and with the closing one. `done` holds the units
before, in reverse. -/
def readString (done : Units) : List Char → Option (Units × List Char)
  | [] => none
  | '"' :: cs => some (done.reverse, cs)
  | '\\' :: 'u' :: a :: b :: c :: d :: cs => do
    let u ← hexUnit? a b c d
    readString (u :: done) cs
  | '\\' :: c :: cs => do
    let u ← escaped? c
    readString (u :: done) cs
  | c :: cs =>
    if c == '\\' || c.toNat < 0x20 then none
    else readString ((Units.ofChar c).reverse ++ done) cs

def digitsValue (cs : List Char) : Nat := cs.foldl (fun n c ↦ n * 10 + (c.toNat - '0'.toNat)) 0

/-- The digits at the beginning of a text, and what follows them. -/
def digits (cs : List Char) : List Char × List Char :=
  (cs.takeWhile Char.isDigit, cs.dropWhile Char.isDigit)

/-- The places after the point, if a point and a digit follow. -/
def readPlaces : List Char → List Char × List Char
  | '.' :: cs => if (digits cs).1.isEmpty then ([], '.' :: cs) else digits cs
  | cs => ([], cs)

/-- The exponent, if its letter and a digit follow. -/
def readExponent (cs : List Char) : Option Int × List Char :=
  match cs with
  | e :: rest =>
    if e == 'e' || e == 'E' then
      let (negative, rest) := match rest with
        | '-' :: rest => (true, rest)
        | '+' :: rest => (false, rest)
        | rest => (false, rest)
      let (ds, rest) := digits rest
      if ds.isEmpty then (none, cs)
      else (some (if negative then -digitsValue ds else digitsValue ds), rest)
    else (none, cs)
  | [] => (none, [])

/-- Reads a number after its sign. One without point and exponent is an integer. -/
def readNumber (negative : Bool) (cs : List Char) : Option (Json × List Char) :=
  let (whole, rest) := match cs with
    | '0' :: rest => (['0'], rest)
    | cs => digits cs
  if whole.isEmpty then none
  else
    let (places, rest) := readPlaces rest
    let (exponent, rest) := readExponent rest
    if places.isEmpty && exponent.isNone then
      if maxDigits < whole.length then none
      else
        let n : Int := digitsValue whole
        some (.int (if negative then -n else n), rest)
    else
      let exponent := exponent.getD 0 - places.length
      some (.float (.ofDecimal negative (digitsValue (whole ++ places)) exponent), rest)

/-- Reads a word that stands for a value. -/
def readWord (word : String) (value : Json) (cs : List Char) : Option (Json × List Char) :=
  (Text.after? word.toList cs).map fun rest ↦ (value, rest)

mutual

/-- Reads a value that begins the text. -/
def readValue : Nat → List Char → Option (Json × List Char)
  | 0, _ => none
  | fuel + 1, cs => match cs with
    | '"' :: cs => (readString [] cs).map fun (us, rest) ↦ (.str us, rest)
    | '[' :: cs => match skipSpace cs with
      | ']' :: rest => some (.arr [], rest)
      | cs => (readItems fuel cs).map fun (vs, rest) ↦ (.arr vs, rest)
    | '\x7b' :: cs => match skipSpace cs with
      | '\x7d' :: rest => some (.obj [], rest)
      | cs => (readMembers fuel cs).map fun (ms, rest) ↦ (.obj (Table.ofEntries ms), rest)
    | 'n' :: _ => readWord "null" .null cs
    | 't' :: _ => readWord "true" (.bool true) cs
    | 'f' :: _ => readWord "false" (.bool false) cs
    | 'N' :: _ => readWord "NaN" (.float .nan) cs
    | 'I' :: _ => readWord "Infinity" (.float (.infinite false)) cs
    | '-' :: 'I' :: _ => readWord "-Infinity" (.float (.infinite true)) cs
    | '-' :: cs => readNumber true cs
    | cs => readNumber false cs

def readItems : Nat → List Char → Option (List Json × List Char)
  | 0, _ => none
  | fuel + 1, cs => do
    let (v, rest) ← readValue fuel cs
    match skipSpace rest with
    | ']' :: rest => return ([v], rest)
    | ',' :: rest =>
      let (vs, rest) ← readItems fuel (skipSpace rest)
      return (v :: vs, rest)
    | _ => none

def readMembers : Nat → List Char → Option (List (Units × Json) × List Char)
  | 0, _ => none
  | fuel + 1, cs => match cs with
    | '"' :: cs => do
      let (key, rest) ← readString [] cs
      match skipSpace rest with
      | ':' :: rest =>
        let (v, rest) ← readValue fuel (skipSpace rest)
        match skipSpace rest with
        | '\x7d' :: rest => return ([(key, v)], rest)
        | ',' :: rest =>
          let (ms, rest) ← readMembers fuel (skipSpace rest)
          return ((key, v) :: ms, rest)
        | _ => none
      | _ => none
    | _ => none

end

/-- The value that a text holds, with nothing but white space around it. Each level of nesting takes
two calls and at least one character. -/
def read? (s : String) : Option Json :=
  let cs := s.toList
  match readValue (2 * cs.length + 2) (skipSpace cs) with
  | some (v, rest) => if (skipSpace rest).isEmpty then some v else none
  | none => none

end PlanCache.Json
