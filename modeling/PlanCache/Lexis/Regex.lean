/-!
Regular expressions over characters and their derivatives: what is left to match after one
character.
-/

namespace PlanCache

/-- Regular expressions with character classes given as tests. -/
inductive Regex where
  | never
  | empty
  | char (test : Char → Bool)
  | seq (a b : Regex)
  | alt (a b : Regex)
  | star (a : Regex)

namespace Regex

/-- The texts of an expression. -/
inductive Matches : Regex → List Char → Prop where
  | empty : Matches .empty []
  | char {test : Char → Bool} {c : Char} : test c = true → Matches (.char test) [c]
  | seq {a b : Regex} {s t : List Char} : Matches a s → Matches b t → Matches (.seq a b) (s ++ t)
  | left {a b : Regex} {s : List Char} : Matches a s → Matches (.alt a b) s
  | right {a b : Regex} {s : List Char} : Matches b s → Matches (.alt a b) s
  | stop {a : Regex} : Matches (.star a) []
  | more {a : Regex} {s t : List Char} :
      Matches a s → Matches (.star a) t → Matches (.star a) (s ++ t)

def nullable : Regex → Bool
  | .never | .char _ => false
  | .empty | .star _ => true
  | .seq a b => a.nullable && b.nullable
  | .alt a b => a.nullable || b.nullable

/-- `seq`, dropping what cannot match or matches only the empty text. -/
def join : Regex → Regex → Regex
  | .never, _ => .never
  | _, .never => .never
  | .empty, b => b
  | a, .empty => a
  | a, b => .seq a b

/-- `alt`, dropping what cannot match. -/
def either : Regex → Regex → Regex
  | .never, b => b
  | a, .never => a
  | a, b => .alt a b

/-- What is left to match after `c`. -/
def deriv (c : Char) : Regex → Regex
  | .never | .empty => .never
  | .char test => if test c then .empty else .never
  | .seq a b =>
    let d := (a.deriv c).join b
    if a.nullable then d.either (b.deriv c) else d
  | .alt a b => (a.deriv c).either (b.deriv c)
  | .star a => (a.deriv c).join (.star a)

/-- Whether an expression has been reduced to one that matches nothing. -/
def isNever : Regex → Bool
  | .never => true
  | _ => false

def just (c : Char) : Regex := .char (· == c)

def anyOf (cs : List Char) : Regex := .char cs.contains

def noneOf (cs : List Char) : Regex := .char (!cs.contains ·)

def range (lo hi : Char) : Regex := .char fun c ↦ lo ≤ c && c ≤ hi

def any : Regex := .char fun _ ↦ true

def all : List Regex → Regex
  | [] => .empty
  | [a] => a
  | a :: as => .seq a (all as)

def oneOf : List Regex → Regex
  | [] => .never
  | [a] => a
  | a :: as => .alt a (oneOf as)

def opt (a : Regex) : Regex := .alt a .empty

def plus (a : Regex) : Regex := .seq a (.star a)

/-- A letter in either case. -/
def letter (c : Char) : Regex := .char fun d ↦ d.toLower == c.toLower

def word (s : String) : Regex := all (s.toList.map letter)

end Regex

end PlanCache
