import PlanCache.Text.Printable

/-!
Texts in quotes, with escapes for what is not printable.
-/

namespace PlanCache.Text

/-- The `width` last digits of a number in base 16, small letters. -/
def hex (width n : Nat) : List Char :=
  match width with
  | 0 => []
  | width + 1 => hex width (n / 16) ++ [Nat.digitChar (n % 16)]

/-- How a character is written between marks `q`: as it is if it is printable, the mark and the
backslash after a backslash, others by letter or number. -/
def escapeChar (q c : Char) : List Char :=
  if c == q || c == '\\' then ['\\', c]
  else if c == '\n' then ['\\', 'n']
  else if c == '\r' then ['\\', 'r']
  else if c == '\t' then ['\\', 't']
  else if isPrintable c then [c]
  else if c.toNat < 0x100 then '\\' :: 'x' :: hex 2 c.toNat
  else if c.toNat < 0x10000 then '\\' :: 'u' :: hex 4 c.toNat
  else '\\' :: 'U' :: hex 8 c.toNat

/-- A text in single quotes, or in double quotes if it holds single quotes only. -/
def quoted (cs : List Char) : List Char :=
  let q := if cs.contains '\'' && !cs.contains '"' then '"' else '\''
  q :: cs.flatMap (escapeChar q) ++ [q]

end PlanCache.Text
