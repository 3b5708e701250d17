/-!
Finding and replacing one text in another.
-/

namespace PlanCache.Text

/-- What follows `p` in a text that begins with it. -/
def after? : List Char → List Char → Option (List Char)
  | [], s => some s
  | _ :: _, [] => none
  | p :: ps, c :: cs => if p == c then after? ps cs else none

theorem after?_eq_some_iff {p s r : List Char} : after? p s = some r ↔ s = p ++ r := by
  induction p generalizing s with
  | nil => simp [after?]
  | cons a p ih =>
    cases s with
    | nil => simp [after?]
    | cons c cs =>
      by_cases h : a = c
      · simp [after?, h, ih]
      · simp [after?, h, Ne.symm h]

/-- Number of times that `p` occurs in a text, no two counted occurrences overlapping, from the
left. The next `skip` characters belong to the occurrence before. -/
def countAfter (p : List Char) (skip : Nat) : List Char → Nat
  | [] => 0
  | c :: cs => match skip with
    | n + 1 => countAfter p n cs
    | 0 =>
      if (after? p (c :: cs)).isSome then countAfter p (p.length - 1) cs + 1
      else countAfter p 0 cs

def count (p : String) (cs : List Char) : Nat := countAfter p.toList 0 cs

/-- Puts `new` for each occurrence of `p` from the left. The next `skip` characters have been
replaced. -/
def replaceAfter (p new : List Char) (skip : Nat) : List Char → List Char
  | [] => []
  | c :: cs => match skip with
    | n + 1 => replaceAfter p new n cs
    | 0 =>
      if (after? p (c :: cs)).isSome then new ++ replaceAfter p new (p.length - 1) cs
      else c :: replaceAfter p new 0 cs

/-- Puts `new` for each occurrence of `p` from the left. The empty text occurs before each character
and at the end. -/
def replaceAll (p new cs : List Char) : List Char :=
  if p.isEmpty then cs.foldr (fun c rest ↦ new ++ c :: rest) new
  else replaceAfter p new 0 cs

/-- Puts texts for the places that `read` recognises, from the left: it is given the character
before and the text from there, and returns how many characters to replace by what. The next `skip`
characters have been replaced. -/
def substituteAfter (read : Option Char → List Char → Option (Nat × List Char)) (skip : Nat)
    (before : Option Char) : List Char → List Char
  | [] => []
  | c :: cs => match skip with
    | n + 1 => substituteAfter read n (some c) cs
    | 0 => match read before (c :: cs) with
      | some (n + 1, new) => new ++ substituteAfter read n (some c) cs
      | _ => c :: substituteAfter read 0 (some c) cs

def substitute (read : Option Char → List Char → Option (Nat × List Char)) (cs : List Char) :
    List Char :=
  substituteAfter read 0 none cs

end PlanCache.Text
