import PlanCache.Query.Buffer
import PlanCache.Text.Alnum
import PlanCache.Text.Search

/-!
Text of a query from the texts of its tokens: single spaces between them, a list of placeholders
after `IN` written `IN ( ?? )`, and a run of placeholders in brackets written `( ? )`.
-/

namespace PlanCache

/-- A token whose text is put back into a query; it may have none. -/
structure Piece where
  text : Option String
  atEnd : Bool
deriving DecidableEq, Repr

namespace Rebuild

/-- What follows a character and white space. -/
def afterChar? (c : Char) : List Char → Option (List Char)
  | [] => none
  | d :: cs => if d == c then some (Text.trimStart cs) else none

/-- What follows `IN` and white space, in capitals or not; the letter `I` with or without a dot. -/
def afterIn? : List Char → Option (List Char)
  | i :: n :: cs =>
    if (i == 'I' || i == 'i' || i == 'ı' || i == 'İ') && (n == 'N' || n == 'n') then
      some (Text.trimStart cs)
    else none
  | _ => none

/-- What follows placeholders that are separated by commas and closed by a bracket; the number of
placeholders. -/
def afterList? : Nat → List Char → Option (Nat × List Char)
  | 0, _ => none
  | fuel + 1, cs => do
    let cs ← afterChar? '?' cs
    match cs with
    | ',' :: cs =>
      let (n, rest) ← afterList? fuel (Text.trimStart cs)
      return (n + 1, rest)
    | ')' :: cs => return (1, cs)
    | _ => none

/-- What follows placeholders that are closed by a bracket. -/
def afterRun? : Nat → List Char → Option (List Char)
  | 0, _ => none
  | fuel + 1, cs => do
    let cs ← afterChar? '?' cs
    match cs with
    | ')' :: cs => return cs
    | cs => afterRun? fuel cs

/-- Recognises `IN`, not inside a word, with a list of at least two placeholders. -/
def inList? (before : Option Char) (cs : List Char) : Option (Nat × List Char) :=
  if before.any Text.isWord then none
  else do
    let opened ← afterIn? cs
    let (n, rest) ← afterList? cs.length (← afterChar? '(' opened)
    if 2 ≤ n then some (cs.length - rest.length, "IN ( ?? )".toList) else none

/-- Recognises placeholders in brackets. -/
def run? (_before : Option Char) (cs : List Char) : Option (Nat × List Char) := do
  let rest ← afterRun? cs.length (← afterChar? '(' cs)
  return (cs.length - rest.length, "( ? )".toList)

/-- A text with single spaces, its lists of placeholders and its runs of placeholders shortened. -/
def tidy (s : String) : String :=
  let spaced := Text.trim (Text.collapse s.toList)
  String.ofList (Text.substitute run? (Text.substitute inList? spaced))

end Rebuild

/-- The text that tokens make together. The end of the input and blank texts are left out. -/
def rebuild (pieces : List Piece) : String :=
  Rebuild.tidy (Text.joinWords (pieces.filterMap fun p ↦ if p.atEnd then none else p.text))

namespace Buffer

def pieces (b : Buffer) : List Piece :=
  (b.source.tokens.toList.zip b.texts.toList).map fun (t, s) ↦ ⟨some s, t.kind == .eof⟩

def rebuild (b : Buffer) : String := PlanCache.rebuild b.pieces

end Buffer

end PlanCache
