import PlanCache.Halt
import PlanCache.Number.Decimal

/-!
A table that compares a run with a cache to one without.
-/

namespace PlanCache

/-- A number that is an integer or a fraction. -/
inductive Number where
  | int (value : Int)
  | float (value : Binary64)
deriving DecidableEq, Repr

/-- What a run came to, as far as it is known. -/
structure Figures where
  requests : Option Int := none
  hits : Option Int := none
  misses : Option Int := none
  complexity : Option Int := none
  time : Option Number := none
deriving DecidableEq, Repr

/-- Names of what is reported of a run. -/
inductive Figure where
  | requests | hits | misses | complexity | time
deriving DecidableEq, Repr

/-- Why there is no report. -/
inductive ReportError where
  | unknown (figure : Figure)
  | integerByZero
  | fractionByZero
  | integerTooLarge
  | quotientTooLarge
deriving DecidableEq, Repr

namespace Number

/-- The nearest fraction, if the number is not too large. -/
def toBinary64 : Number → Except ReportError Binary64
  | .int n => match Binary64.ofInt n with
    | .infinite _ => .error .integerTooLarge
    | x => .ok x
  | .float x => .ok x

end Number

namespace Binary64

/-- The number nearest to a product. -/
def mulNat (x : Binary64) (n : Nat) : Binary64 :=
  match x with
  | .finite negative digits unit => ofQuotient negative (size digits unit * n) one
  | x => x

/-- The number nearest to a quotient by an integer other than 0. -/
def divInt (x : Binary64) (n : Int) : Binary64 :=
  match x with
  | .finite negative digits unit =>
    ofQuotient (negative != decide (n < 0)) (size digits unit) (one * n.natAbs)
  | .infinite negative => .infinite (negative != decide (n < 0))
  | .nan => .nan

end Binary64

/-- The fraction nearest to a quotient of integers. -/
def quotient (m n : Int) : Except ReportError Binary64 :=
  if n = 0 then .error .integerByZero
  else match Binary64.ofQuotient (decide (m < 0) != decide (n < 0)) m.natAbs n.natAbs with
    | .infinite _ => .error .quotientTooLarge
    | x => .ok x

/-- A time divided by a number of requests. The divisor of a fraction is first rounded to one. -/
def Number.over (t : Number) (n : Int) : Except ReportError Binary64 :=
  match t with
  | .int m => quotient m n
  | .float x => match Binary64.ofInt n with
    | .infinite _ => .error .integerTooLarge
    | .finite negative digits unit =>
      if digits = 0 then .error .fractionByZero
      else match x with
        | .finite negative' digits' unit' =>
          .ok (.ofQuotient (negative != negative') (Binary64.size digits' unit')
            (Binary64.size digits unit))
        | x => .ok (x.divInt n)
    | .nan => .ok .nan

namespace Report

/-- A figure that has to be known. -/
def need {α : Type} (figure : Figure) : Option α → Except ReportError α
  | some a => .ok a
  | none => .error (.unknown figure)

/-- A fraction in a cell: at most six places, without last zeros but at least one, and a space where
a minus sign would stand. -/
def fraction (x : Binary64) : String :=
  let cs := Decimal.dropZeros (Binary64.fixedText 6 x).toList
  let cs := if cs.getLast? = some '.' then cs ++ ['0'] else cs
  String.ofList (if x.isNegative then cs else ' ' :: cs)

/-- Cells for the time of a run: seconds, and thousandths of a second a request. -/
def times (f : Figures) (requests : Int) : Except ReportError (List String) := do
  let time ← need .time f.time
  let seconds ← time.toBinary64
  let each ← (← need .time f.time).over requests
  return [seconds.fixedText 2, (each.mulNat 1000).fixedText 2]

/-- The column of a run without a cache, in which all requests are misses. -/
def withoutCache (f : Figures) : Except ReportError (List String) := do
  let requests ← need .requests f.requests
  let complexity ← need .complexity f.complexity
  let last ← times f requests
  return [toString requests, "0", toString requests, fraction (.finite false 0 0),
    toString complexity] ++ last

/-- The column of a run with a cache. -/
def withCache (f : Figures) : Except ReportError (List String) := do
  let requests ← need .requests f.requests
  let hits ← need .hits f.hits
  let misses ← need .misses f.misses
  let ratio ← quotient hits (max 1 requests)
  let complexity ← need .complexity f.complexity
  let last ← times f requests
  return [toString requests, toString hits, toString misses,
    fraction ((ratio.mulNat 100).roundTo 2), toString complexity] ++ last

def names : List String :=
  ["Total Queries Executed", "Cache Hits", "Cache Misses", "Hit Ratio (%)",
    "Total Complexity Score", "Total Time (s)", "Avg Time per Query (ms)"]

/-- Cells of a column filled up on the left to one width. -/
def align (cells : List String) : List String :=
  let width := (cells.map String.length).foldl max 0
  cells.map fun s ↦ String.ofList (List.replicate (width - s.length) ' ') ++ s

/-- Columns side by side, with a space between them. -/
def rows : List (List String) → List String
  | [] => []
  | [column] => column
  | column :: rest => List.zipWith (fun a b ↦ a ++ " " ++ b) column (rows rest)

def heading : String :=
  " FINAL PERFORMANCE COMPARISON MATRIX\n=========================================\n\n"

def observation : String :=
  "\n\n Observation: Caching significantly reduces total execution time while maintaining " ++
    "the same workload.\n\n"

end Report

open Report in
def report (cached uncached : Figures) : Except (Halt ReportError String) String :=
  match withoutCache uncached, withCache cached with
  | .error e, _ => .error ⟨e, heading⟩
  | _, .error e => .error ⟨e, heading⟩
  | .ok without, .ok cells =>
    let columns := ["Metric" :: names, "Without Cache" :: without, "With Cache" :: cells]
    .ok (heading ++ String.intercalate "\n" (rows (columns.map align)) ++ observation)

end PlanCache
