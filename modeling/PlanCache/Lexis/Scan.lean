import PlanCache.Lexis.Rules

/-!
Tokens and how a text is cut into them: each time the longest text that some rule matches, and of
several rules that match it the first.
-/

namespace PlanCache

/-- A token: its kind, its text, the line (from 1) and column (from 0) where it begins, and which
characters of the input it covers. -/
structure Token where
  kind : Kind
  text : String
  line : Nat
  column : Nat
  start : Nat
  length : Nat
deriving Repr, Inhabited, DecidableEq

structure Cursor where
  line : Nat := 1
  column : Nat := 0
  offset : Nat := 0

namespace Cursor

/-- Past one character; a line feed begins a new line. -/
def step (p : Cursor) (c : Char) : Cursor :=
  if c == '\n' then ⟨p.line + 1, 0, p.offset + 1⟩ else ⟨p.line, p.column + 1, p.offset + 1⟩

def past (p : Cursor) (cs : List Char) : Cursor := cs.foldl step p

end Cursor

namespace LexRule

/-- The rule after one character, if it can still match. -/
def after (c : Char) (r : LexRule) : Option LexRule :=
  let text := r.text.deriv c
  let atEnd := r.atEnd.deriv c
  if text.isNever && atEnd.isNever then none else some ⟨r.kind, text, atEnd⟩

/-- Whether nothing more has to be read, before `rest`. -/
def done (rest : List Char) (r : LexRule) : Bool :=
  r.text.nullable || (rest.isEmpty && r.atEnd.nullable)

/-- The kind and length of the longest match, `n` characters having been read before `rest` and
`best` being the longest match so far. -/
def race (rules : List LexRule) (rest : List Char) (n : Nat) (best : Option (Kind × Nat)) :
    Option (Kind × Nat) :=
  let best := match rules.find? (done rest) with
    | some r => some (r.kind, n)
    | none => best
  match rest with
  | [] => best
  | c :: cs => match rules.filterMap (after c) with
    | [] => best
    | rules => race rules cs (n + 1) best

/-- The kind and length of the token at the head of a text; every character is a token if nothing
else begins with it. -/
def longest (cs : List Char) : Kind × Nat :=
  match race all cs 0 none with
  | some (k, n + 1) => (k, n + 1)
  | _ => (.stray, 1)

theorem longest_pos (cs : List Char) : 0 < (longest cs).2 := by
  unfold longest
  split <;> simp

end LexRule

namespace Token

/-- The tokens of a text that begins at `p`, with the mark of its end. -/
def scanFrom (p : Cursor) : List Char → List Token
  | [] => [⟨.eof, "<EOF>", p.line, p.column, p.offset, 0⟩]
  | c :: cs =>
    let found := LexRule.longest (c :: cs)
    let text := (c :: cs).take found.2
    ⟨found.1, String.ofList text, p.line, p.column, p.offset, text.length⟩ ::
      scanFrom (p.past text) ((c :: cs).drop found.2)
termination_by cs => cs.length
decreasing_by
  have h := LexRule.longest_pos (c :: cs)
  simp only [List.length_drop, List.length_cons]
  omega

def scan (s : String) : List Token := scanFrom {} s.toList

/-- Offset of the last character of a token; for an empty one that of the character before it. -/
def stop (t : Token) : Int := (t.start : Int) + t.length - 1

/-- Hidden tokens stand apart from those that the grammar reads. -/
def channel (t : Token) : Nat := if t.kind.isHidden then 1 else 0

end Token

end PlanCache
