/-!
White space, and texts without superfluous white space.
-/

namespace PlanCache.Text

/-- White space of all scripts, with the separators among the control characters. -/
def isBlank (c : Char) : Bool :=
  let n := c.toNat
  (0x09 ≤ n && n ≤ 0x0d) || (0x1c ≤ n && n ≤ 0x20) || n == 0x85 || n == 0xa0 || n == 0x1680 ||
    (0x2000 ≤ n && n ≤ 0x200a) || n == 0x2028 || n == 0x2029 || n == 0x202f || n == 0x205f ||
    n == 0x3000

def trimStart (cs : List Char) : List Char := cs.dropWhile isBlank

def trim (cs : List Char) : List Char := (trimStart (trimStart cs).reverse).reverse

def allBlank (s : String) : Bool := s.toList.all isBlank

/-- A text with each run of white space replaced by one space; `after` says whether the text before
ended with white space. -/
def collapseAfter (after : Bool) : List Char → List Char
  | [] => []
  | c :: cs =>
    if isBlank c then
      if after then collapseAfter true cs else ' ' :: collapseAfter true cs
    else c :: collapseAfter false cs

def collapse (cs : List Char) : List Char := collapseAfter false cs

/-- Texts joined by single spaces, those left out that hold nothing but white space. -/
def joinWords (texts : List String) : String :=
  String.intercalate " " (texts.filter (!allBlank ·))

end PlanCache.Text
