import PlanCache.Lexis.Regex
import PlanCache.Sql.Kind

/-!
The lexical rules of SQL: which texts are tokens of which kind.
-/

namespace PlanCache

/-- A kind of token and its texts: those of `text`, and at the end of the input those of `atEnd`. -/
structure LexRule where
  kind : Kind
  text : Regex
  atEnd : Regex := .never

namespace LexRule

open Regex

def digit : Regex := range '0' '9'

def hexDigit : Regex := oneOf [digit, range 'a' 'f', range 'A' 'F']

def startsName (c : Char) : Bool := c.isAlpha || c == '_' || ('\x7f' ≤ c && c ≤ '\uffff')

def continuesName (c : Char) : Bool := startsName c || c.isDigit

/-- Text between two marks `q`, where a mark inside is written twice. -/
def enclosed (q : Char) : Regex :=
  all [just q, .star (.alt (noneOf [q]) (.seq (just q) (just q))), just q]

/-- Names: in double quotes, in back quotes, in brackets, or bare. -/
def identifier : Regex :=
  oneOf [enclosed '"', enclosed '\x60', all [just '[', .star (noneOf [']']), just ']'],
    .seq (.char startsName) (.star (.char continuesName))]

/-- Numbers, decimal with fraction and exponent or hexadecimal. -/
def number : Regex :=
  oneOf [
    .seq
      (oneOf [.seq (plus digit) (opt (.seq (just '.') (.star digit))),
        .seq (just '.') (plus digit)])
      (opt (all [letter 'e', opt (anyOf ['-', '+']), plus digit])),
    all [just '0', letter 'x', plus hexDigit]]

/-- Parameters: a question mark and a number, or a name after one of three marks. -/
def parameter : Regex :=
  .alt (.seq (just '?') (.star digit)) (.seq (anyOf [':', '@', '$']) identifier)

def string : Regex := enclosed '\''

/-- Two hyphens and the rest of the line. -/
def lineStart : Regex := all [just '-', just '-', .star (noneOf ['\r', '\n'])]

/-- From a slash and a star to the next star and slash. -/
def blockComment : Regex :=
  all [just '/', just '*',
    .star (.alt (noneOf ['*']) (.seq (plus (just '*')) (noneOf ['*', '/']))),
    plus (just '*'), just '/']

/-- Kinds with one spelling only. -/
def fixed : List LexRule :=
  Kind.all.filterMap fun k ↦ k.spelling.map fun s ↦ { kind := k, text := word s }

/-- All rules, an earlier one going before a later one that matches as much. -/
def all : List LexRule :=
  fixed ++ [
    { kind := .identifier, text := identifier },
    { kind := .number, text := number },
    { kind := .parameter, text := parameter },
    { kind := .string, text := string },
    { kind := .blob, text := .seq (letter 'x') string },
    { kind := .lineComment, text := .seq lineStart (.seq (opt (just '\r')) (just '\n')),
      atEnd := lineStart },
    { kind := .blockComment, text := blockComment },
    { kind := .blank, text := anyOf [' ', '\x0b', '\t', '\r', '\n'] },
    { kind := .stray, text := any }]

end LexRule

end PlanCache
