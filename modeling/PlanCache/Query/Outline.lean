import PlanCache.Query.Literals
import PlanCache.Query.Selects

/-!
Outlines of queries: one way down through the tree cuts out literal values, names in double quotes
and all selects but the first, and does not enter what it has cut out.
-/

namespace PlanCache

/-- A buffer on the way down: whether a select has been entered, and the literals cut out. -/
structure Outline where
  buffer : Buffer
  outerSeen : Bool := false
  literals : List String := []

namespace Outline

/-- Cuts a node out after noting texts of it; the texts stay noted if it cannot be cut out. -/
def cut (s : Outline) (noted : List String) (h : Head) : Except (Halt RangeError Outline) Outline :=
  let s := { s with literals := s.literals ++ noted }
  match s.buffer.cutNode h with
  | .ok b => .ok { s with buffer := b }
  | .error e => .error ⟨e, s⟩

/-- What is done at a node: it is cut out, or else its children are gone through. -/
def enter (s : Outline) (h : Head) (ts : List Tree) :
    Except (Halt RangeError Outline) (Outline × Bool) :=
  match h.rule with
  | .literalValue => (s.cut [s.buffer.nodeText ts] h).map fun s ↦ (s, false)
  | .anyName =>
    let text := s.buffer.nodeText ts
    if isDoubleQuoted text then (s.cut [text] h).map fun s ↦ (s, false) else .ok (s, true)
  | .selectCore =>
    if s.outerSeen then (s.cut [] h).map fun s ↦ (s, false)
    else .ok ({ s with outerSeen := true }, true)
  | _ => .ok (s, true)

mutual

/-- Goes down through a tree. -/
def descend (s : Outline) : Tree → Except (Halt RangeError Outline) Outline
  | .leaf _ _ => .ok s
  | .node h ts => match s.enter h ts with
    | .ok (s', true) => descendAll s' ts
    | .ok (s', false) => .ok s'
    | .error e => .error e

def descendAll (s : Outline) : List Tree → Except (Halt RangeError Outline) Outline
  | [] => .ok s
  | t :: ts => match s.descend t with
    | .ok s' => descendAll s' ts
    | .error e => .error e

end

end Outline

/-- Text of the tokens that are not blank, without the end of the input. -/
def Buffer.joined (b : Buffer) : String :=
  let kept := (b.source.tokens.toList.zip b.texts.toList).filter fun (t, _) ↦ t.kind != .eof
  Text.joinWords (kept.map (·.2))

/-- The outline of a query, or why there is none, and the literals found. -/
def outline (sql : String) : Except RangeError String × List String :=
  let p := Parsed.ofString .sqlStmtList sql
  match Outline.descend ⟨.ofParsed p, false, []⟩ p.tree with
  | .ok s => (.ok s.buffer.joined, s.literals)
  | .error e => (.error e.cause, e.state.literals)

def selectBlocks (sql : String) : Except RangeError (List String) :=
  let p := Parsed.ofString .sqlStmtList sql
  (Buffer.ofParsed p).selects p.tree

end PlanCache
