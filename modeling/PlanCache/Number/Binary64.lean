/-!
Floating-point numbers with 53 binary digits, and the nearest one to a quotient or a decimal.
-/

namespace PlanCache

/-- The integer nearest to a quotient; of two, the even one. -/
def roundDiv (num den : Nat) : Nat :=
  let q := num / den
  let r := num % den
  if 2 * r < den then q else if den < 2 * r then q + 1 else q + q % 2

/-- A floating-point number. A finite one is `digits * 2 ^ unit` times the least positive number,
where `digits` has 53 binary digits, or fewer if `unit` is 0. -/
inductive Binary64 where
  | nan
  | infinite (negative : Bool)
  | finite (negative : Bool) (digits unit : Nat)
deriving DecidableEq, Repr

namespace Binary64

/-- How many times the least positive number goes into a finite one. -/
def size (digits unit : Nat) : Nat := digits * Nat.pow 2 unit

/-- How many times the least positive number goes into 1. -/
def one : Nat := size 1 1074

/-- The number nearest to a quotient; of two, the one with even digits. -/
def ofQuotient (negative : Bool) (num den : Nat) : Binary64 :=
  let num := num * one
  let unit := (num / den).log2 - 52
  let digits := roundDiv num (size den unit)
  let (digits, unit) := if digits = size 1 53 then (size 1 52, unit + 1) else (digits, unit)
  if 2045 < unit then .infinite negative else .finite negative digits unit

/-- Number of decimal digits, none for 0. -/
def decimalLength (n : Nat) : Nat := if n = 0 then 0 else (Nat.toDigits 10 n).length

/-- The number nearest to `digits * 10 ^ exponent`. Exponents so large or small that the result is
infinite or 0 are not raised to powers. -/
def ofDecimal (negative : Bool) (digits : Nat) (exponent : Int) : Binary64 :=
  let top := exponent + decimalLength digits
  if digits = 0 || top < -400 then .finite negative 0 0
  else if 400 < top then .infinite negative
  else if exponent < 0 then ofQuotient negative digits (Nat.pow 10 exponent.natAbs)
  else ofQuotient negative (digits * Nat.pow 10 exponent.natAbs) 1

/-- The number nearest to an integer. -/
def ofInt (n : Int) : Binary64 := ofQuotient (n < 0) n.natAbs 1

def isNegative : Binary64 → Bool
  | .nan => false
  | .infinite negative | .finite negative _ _ => negative

end Binary64

end PlanCache
