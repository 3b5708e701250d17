import PlanCache.Parse.Predict
import PlanCache.Parse.Tree

/-!
The state of a parse and what it does with single tokens: reading, skipping, supplying a missing
one, and getting back to a token that can be read after an error.
-/

namespace PlanCache

/-- An error that is reported, with the tokens it is about. -/
inductive SyntaxError where
  | mismatched (token : Nat) (expected : KindSet)
  | extraneous (token : Nat) (expected : KindSet)
  | missing (token : Nat) (expected : KindSet)
  | noViable (first last : Nat)
  | levelTooLow (token level : Nat) (rule : Rule)
deriving DecidableEq, Repr

/-- Why the reading of a rule is broken off. -/
inductive Fault where
  | mismatch (expected : KindSet)
  | noViable (first last : Nat)
  | level (level : Nat)
  | exhausted
deriving DecidableEq, Repr

/-- What happens during a parse, in order. -/
inductive Event where
  | enter (rule : Rule)
  | exit (rule : Rule)
  | token (index : Nat) (error : Bool)
deriving DecidableEq, Repr

/-- A node that is still open; its children and labels stand in reverse order. -/
structure Draft where
  rule : Rule
  start : Nat
  children : List Tree := []
  marks : List (Label × Mark) := []

structure Session where
  /-- Number of the next token. -/
  pos : Nat := 0
  /-- Number of the furthest token that was looked at. -/
  seen : Nat := 0
  place : Place := 0
  /-- Whether no token has been read as expected since the last error. -/
  recovering : Bool := false
  /-- Token of the last recovery. -/
  lastToken : Option Nat := none
  /-- Places of the recoveries since a token was last read as expected. -/
  lastPlaces : List Place := []
  /-- Open calls, the innermost first. -/
  stack : List Site := []
  /-- Least level of the operators that are admitted. -/
  level : Nat := 0
  draft : Draft
  /-- Reports, the latest first. -/
  reports : List SyntaxError := []
  /-- Events, the latest first. -/
  events : List Event := []

/-- The kinds of the tokens that the grammar reads, the end of the input last. -/
abbrev Input := Array Kind

namespace Input

/-- Kind of a token; past the end there is only the end. -/
def kind (input : Input) (i : Nat) : Kind := input.getD i .eof

def last (input : Input) : Nat := input.size - 1

end Input

namespace Grammar

/-- The kinds that can come next when `stack` is returned to. -/
def expectedUp (g : Grammar) : List Site → KindSet
  | [] => .single .eof
  | s :: ss =>
    let l := g.look s.rest
    if l.ends then l.kinds.union (g.expectedUp ss) else l.kinds

/-- The kinds that can come next before `parts`. -/
def expected (g : Grammar) (parts : List Part) (stack : List Site) : KindSet :=
  let l := g.look parts
  if l.ends then l.kinds.union (g.expectedUp stack) else l.kinds

/-- The kinds that can follow one of the open calls. -/
def recoverySet (g : Grammar) (stack : List Site) : KindSet :=
  stack.foldl (fun ks s ↦ ks.union (g.look s.rest).kinds) .empty

end Grammar

namespace Draft

def push (d : Draft) (t : Tree) : Draft := { d with children := t :: d.children }

/-- Names the child that was added last. -/
def markLast (label : Option Label) (d : Draft) : Draft :=
  match label with
  | some l => { d with marks := (l, .child (d.children.length - 1)) :: d.marks }
  | none => d

def markLeaf (label : Option Label) (leaf : Leaf) (d : Draft) : Draft :=
  match label with
  | some l => { d with marks := (l, .leaf leaf) :: d.marks }
  | none => d

/-- The finished node; `stop` is the last token read before its end. -/
def close (d : Draft) (stop : Option Nat) : Tree :=
  .node ⟨d.rule, d.start, stop, d.marks.reverse⟩ d.children.reverse

end Draft

namespace Session

/-- The last token read, if any. -/
def previous (s : Session) : Option Nat := if s.pos = 0 then none else some (s.pos - 1)

def lookAt (input : Input) (i : Nat) (s : Session) : Session :=
  { s with seen := max s.seen (min i input.last) }

/-- Takes the next token into the tree, as an error while recovering. The mark of the end is never
passed. -/
def consume (input : Input) (s : Session) : Session :=
  let pos := if input.kind s.pos = .eof then s.pos else s.pos + 1
  { s with
    pos
    seen := max s.seen pos
    draft := s.draft.push (.leaf (.read s.pos) s.recovering)
    events := .token s.pos s.recovering :: s.events }

/-- All is well again. -/
def settle (s : Session) : Session :=
  { s with recovering := false, lastToken := none, lastPlaces := [] }

/-- Reports an error, unless the one before has not been recovered from. -/
def report (r : SyntaxError) (s : Session) : Session :=
  if s.recovering then s else { s with recovering := true, reports := r :: s.reports }

/-- Takes tokens into the tree up to one of `kinds` or the end, `n` at most. -/
def consumeUntil (input : Input) (kinds : KindSet) : Nat → Session → Session
  | 0, s => s
  | n + 1, s =>
    let k := input.kind s.pos
    if k = .eof || kinds.contains k then s else consumeUntil input kinds n (s.consume input)

/-- Takes one superfluous token into the tree, if one of `kinds` comes right after it. -/
def deleteToken? (input : Input) (kinds : KindSet) (s : Session) : Session × Bool :=
  let s := s.lookAt input (s.pos + 1)
  if kinds.contains (input.kind (min (s.pos + 1) input.last)) then
    (((s.report (.extraneous s.pos kinds)).consume input).settle, true)
  else (s, false)

/-- Checks before a block that the next token can be read. After a round of a loop all tokens are
skipped that cannot come next. -/
def sync (g : Grammar) (input : Input) (place : Place) (again : Bool) (parts : List Part)
    (s : Session) : Session × Option Fault :=
  let s := { s with place }
  if s.recovering then (s, none)
  else
    let next := g.look parts
    if next.ends || next.kinds.contains (input.kind s.pos) then (s, none)
    else
      let expected := g.expected parts s.stack
      if again then
        let s := s.report (.extraneous s.pos expected)
        (s.consumeUntil input (expected.union (g.recoverySet s.stack)) (input.size - s.pos), none)
      else match s.deleteToken? input expected with
        | (s, true) => (s, none)
        | (s, false) => (s, some (.mismatch expected))

/-- Reads one token of `kinds` before `rest`. A superfluous token is skipped, and a missing one is
supplied if the next token can come after it; it becomes a child if `single`. -/
def expect (g : Grammar) (input : Input) (place : Place) (kinds : KindSet) (single : Bool)
    (label : Option Label) (rest : List Part) (s : Session) : Session × Option Fault :=
  let s := { s with place }
  if kinds.contains (input.kind s.pos) then
    let s := s.settle.consume input
    ({ s with draft := s.draft.markLast label }, none)
  else
    let s := if single then s else
      { s with draft := s.draft.markLeaf label (.read s.pos) }
    match s.deleteToken? input kinds with
    | (s, true) =>
      let s := s.consume input
      ({ s with draft := s.draft.markLast label }, none)
    | (s, false) =>
      if (g.expected rest s.stack).contains (input.kind s.pos) then
        let s := s.report (.missing s.pos kinds)
        let leaf := Leaf.missing (kinds.first?.getD .eof)
        let draft := if single then (s.draft.push (.leaf leaf true)).markLast label
          else s.draft.markLeaf label leaf
        ({ s with draft }, none)
      else (s, some (.mismatch kinds))

/-- Reports a fault. To quote the tokens of a failed prediction the whole input is read. -/
def reportFault (input : Input) (f : Fault) (s : Session) : Session :=
  match f with
  | .mismatch expected => s.report (.mismatched s.pos expected)
  | .noViable first last =>
    let s' := s.report (.noViable first last)
    if s.recovering || input.kind first = .eof then s' else s'.lookAt input input.last
  | .level n => s.report (.levelTooLow s.pos n s.draft.rule)
  | .exhausted => s

/-- Skips to a token that can follow one of the open calls. At least one token is skipped if the
same place has failed at this token before. -/
def recover (g : Grammar) (input : Input) (s : Session) : Session :=
  let s := if s.lastToken = some s.pos && s.lastPlaces.contains s.place then s.consume input else s
  let s := { s with lastToken := some s.pos, lastPlaces := s.place :: s.lastPlaces }
  s.consumeUntil input (g.recoverySet s.stack) (input.size - s.pos)

/-- Begins a node of a rule called at `site`. -/
def enter (rule : Rule) (site : Site) (s : Session) : Session :=
  { s with
    stack := site :: s.stack
    level := if rule.production.operators.isEmpty then s.level else site.level
    draft := { rule, start := s.pos }
    events := .enter rule :: s.events }

/-- Ends the open node and adds it to the node of `outer`, the state before it was begun. -/
def leave (outer : Session) (label : Option Label) (s : Session) : Session :=
  { s with
    stack := outer.stack
    level := outer.level
    draft := (outer.draft.push (s.draft.close s.previous)).markLast label
    events := .exit s.draft.rule :: s.events }

/-- Ends the open node and makes it the first child of a new one. -/
def wrap (s : Session) : Session :=
  { s with
    draft := { s.draft with children := [s.draft.close s.previous], marks := [] }
    events := .enter s.draft.rule :: s.events }

end Session

end PlanCache
