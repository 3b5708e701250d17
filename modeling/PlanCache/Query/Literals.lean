import PlanCache.Query.Buffer
import PlanCache.Text.Case

/-!
The literals of a query: finding them, and putting placeholders in their place.
-/

namespace PlanCache

def Buffer.lowerText (b : Buffer) (ts : List Tree) : String :=
  String.ofList (Text.lower (b.nodeText ts).toList)

def isDoubleQuoted (s : String) : Bool :=
  s.toList.head? == some '"' && s.toList.getLast? == some '"'

namespace Buffer

/-- The literal that a node is: a literal value, an expression that is a truth value or null, or a
name in double quotes. -/
def literal? (b : Buffer) (h : Head) (ts : List Tree) : Option String :=
  match h.rule with
  | .literalValue => some (b.nodeText ts)
  | .expr =>
    let text := b.lowerText ts
    if text == "true" || text == "false" || text == "null" then some text else none
  | .anyName =>
    let text := b.nodeText ts
    if isDoubleQuoted text then some text else none
  | _ => none

/-- The literals of a tree, those of a node before those below it. -/
def literals (b : Buffer) (t : Tree) : List String :=
  t.nodes.filterMap fun (h, ts) ↦ b.literal? h ts

end Buffer

/-- A buffer in which literals have been replaced, and the texts of those that are values. -/
structure Replaced where
  buffer : Buffer
  seen : List String := []

namespace Replaced

/-- Cuts a node out after noting texts of it. -/
def cut (s : Replaced) (noted : List String) (h : Head) :
    Except (Halt RangeError Replaced) Replaced :=
  match s.buffer.cutNode h with
  | .ok b => .ok ⟨b, s.seen ++ noted⟩
  | .error e => .error ⟨e, s⟩

/-- Replaces a literal value, an expression that is a truth value, or a name in double quotes. The
texts are those that earlier replacements have left. -/
def step (s : Replaced) (h : Head) (ts : List Tree) : Except (Halt RangeError Replaced) Replaced :=
  match h.rule with
  | .literalValue => s.cut [s.buffer.nodeText ts] h
  | .expr =>
    let text := s.buffer.lowerText ts
    if text == "true" || text == "false" then s.cut [text] h else .ok s
  | .anyName => if isDoubleQuoted (s.buffer.nodeText ts) then s.cut [] h else .ok s
  | _ => .ok s

end Replaced

/-- Replaces the literals of a tree, a node before those below it. -/
def Buffer.replaceLiterals (b : Buffer) (t : Tree) : Except (Halt RangeError Replaced) Replaced :=
  passNodes Replaced.step ⟨b, []⟩ t.nodes

end PlanCache
