import PlanCache.Number.Binary64

/-!
Decimal texts of floating-point numbers: with the fewest digits that read back, or with a fixed
number of places.
-/

namespace PlanCache

/-- A decimal number `digits * 10 ^ exponent`. -/
structure Decimal where
  digits : Nat
  exponent : Int
deriving DecidableEq, Repr

namespace Decimal

/-- The exponent of the first decimal digit of a positive quotient. -/
def leading (num den : Nat) : Int :=
  if den ≤ num then Binary64.decimalLength (num / den) - 1
  else -(Binary64.decimalLength ((den + num - 1) / num - 1) : Int)

/-- A quotient times a power of ten. -/
def shift (num den : Nat) (k : Int) : Nat × Nat :=
  let power := Nat.pow 10 k.natAbs
  if k < 0 then (num, den * power) else (num * power, den)

/-- The decimals on either side of a quotient with `exponent`, the nearer one first; of two, the
even one. -/
def beside (num den : Nat) (exponent : Int) : List Decimal :=
  let (num, den) := shift num den (-exponent)
  let low : Decimal := ⟨num / den, exponent⟩
  let high : Decimal := ⟨num / den + 1, exponent⟩
  if roundDiv num den = low.digits then [low, high] else [high, low]

/-- Of the decimals with at least `count` digits and at most `count + fuel`, the shortest that is
read as the number `digits * 2 ^ unit`, and the nearest of those. -/
def shortestFrom (digits unit count : Nat) : Nat → Decimal
  | 0 => ⟨0, 0⟩
  | fuel + 1 =>
    let num := Binary64.size digits unit
    let exponent := leading num Binary64.one - count + 1
    let reads := fun d : Decimal ↦
      Binary64.ofDecimal false d.digits d.exponent == .finite false digits unit
    match (beside num Binary64.one exponent).find? reads with
    | some d => d
    | none => shortestFrom digits unit (count + 1) fuel

/-- The shortest decimal that is read as a positive number; seventeen digits are enough. -/
def shortest (digits unit : Nat) : Decimal := shortestFrom digits unit 1 17

/-- A text without its last zeros. -/
def dropZeros (cs : List Char) : List Char := (cs.reverse.dropWhile (· == '0')).reverse

/-- Text of a decimal. It is positional if the point stands at most sixteen digits after the first
digit or three zeros before it, with at least one digit on either side of the point; otherwise it
has an exponent with a sign and at least two digits. -/
def text (d : Decimal) : String :=
  let all := Nat.toDigits 10 d.digits
  let point : Int := all.length + d.exponent
  let cs := dropZeros all
  if -4 < point && point ≤ 16 then
    if point ≤ 0 then String.ofList ('0' :: '.' :: List.replicate point.natAbs '0' ++ cs)
    else
      let before := cs.take point.natAbs ++ List.replicate (point.natAbs - cs.length) '0'
      let after := cs.drop point.natAbs
      String.ofList (before ++ '.' :: if after.isEmpty then ['0'] else after)
  else
    let e := point - 1
    let size := Nat.toDigits 10 e.natAbs
    let mantissa := match cs with
      | c :: c' :: rest => c :: '.' :: c' :: rest
      | _ => cs
    let sign := if e < 0 then '-' else '+'
    String.ofList (mantissa ++ 'e' :: sign :: (if size.length < 2 then '0' :: size else size))

end Decimal

namespace Binary64

/-- Text of a finite number with the fewest digits that read back. -/
def finiteText (negative : Bool) (digits unit : Nat) : String :=
  let body := if digits = 0 then "0.0" else (Decimal.shortest digits unit).text
  if negative then "-" ++ body else body

/-- Nearest integer to the size of a number times a power of ten. -/
def scaled (places digits unit : Nat) : Nat := roundDiv (size digits unit * Nat.pow 10 places) one

/-- Text of a natural number of `places`-th parts of 1, with a point. -/
def placesText (places n : Nat) : String :=
  let cs := Nat.toDigits 10 n
  let cs := List.replicate (places + 1 - cs.length) '0' ++ cs
  String.ofList (cs.take (cs.length - places) ++ '.' :: cs.drop (cs.length - places))

/-- Text with a fixed number of places; an exact half goes to the even neighbour. -/
def fixedText (places : Nat) : Binary64 → String
  | .nan => "nan"
  | .infinite negative => if negative then "-inf" else "inf"
  | .finite negative digits unit =>
    (if negative then "-" else "") ++ placesText places (scaled places digits unit)

/-- The number nearest to one rounded to a fixed number of places. -/
def roundTo (places : Nat) : Binary64 → Binary64
  | .finite negative digits unit =>
    ofQuotient negative (scaled places digits unit) (Nat.pow 10 places)
  | x => x

end Binary64

end PlanCache
