import PlanCache.Text.Alnum
import PlanCache.Text.Blank

/-!
Words in a text, and names that follow a keyword.
-/

namespace PlanCache.Text

/-- Splits a text into its longest runs of letters, digits and underscores; `run` is the one that is
being read. -/
def wordsAfter (run : List Char) : List Char → List (List Char)
  | [] => if run.isEmpty then [] else [run]
  | c :: cs =>
    if isWord c then wordsAfter (run ++ [c]) cs
    else if run.isEmpty then wordsAfter [] cs
    else run :: wordsAfter [] cs

def words (cs : List Char) : List (List Char) := wordsAfter [] cs

/-- Whether a character is a given small letter in either case; an `i` may lack its dot or, as a
capital, have one. -/
def isLetter (letter c : Char) : Bool :=
  c.toLower == letter || (letter == 'i' && (c == 'ı' || c == 'İ'))

/-- What follows a word, given in small letters, that begins a text in either case. -/
def afterKeyword? : List Char → List Char → Option (List Char)
  | [], cs => some cs
  | _ :: _, [] => none
  | p :: ps, c :: cs => if isLetter p c then afterKeyword? ps cs else none

/-- Whether a text is a word, given in small letters, in either case. -/
def isKeyword (word cs : List Char) : Bool := afterKeyword? word cs == some []

/-- The name that follows a keyword and white space at the beginning of a text, and the number of
characters up to its end. -/
def nameAfter? (keyword cs : List Char) : Option (List Char × Nat) :=
  match afterKeyword? keyword cs with
  | none => none
  | some rest =>
    let blanks := rest.takeWhile isBlank
    let name := (rest.dropWhile isBlank).takeWhile isWord
    if blanks.isEmpty || name.isEmpty then none
    else some (name, keyword.length + blanks.length + name.length)

/-- The names that follow a keyword, from the left. The next `skip` characters belong to what was
found before. -/
def namesFrom (keyword : List Char) (skip : Nat) : List Char → List (List Char)
  | [] => []
  | c :: cs => match skip with
    | n + 1 => namesFrom keyword n cs
    | 0 => match nameAfter? keyword (c :: cs) with
      | some (name, n) => name :: namesFrom keyword (n - 1) cs
      | none => namesFrom keyword 0 cs

/-- The names that follow a keyword, given in small letters, and white space. -/
def namesAfter (keyword : String) (cs : List Char) : List String :=
  (namesFrom keyword.toList 0 cs).map String.ofList

end PlanCache.Text
