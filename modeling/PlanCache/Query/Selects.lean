import PlanCache.Query.Buffer

/-!
The selects of a query: those that hold no other, and putting placeholders in the place of inner
ones.
-/

namespace PlanCache

/-- Whether there is a select at or below one of the trees. -/
def hasSelect (ts : List Tree) : Bool := (Tree.nodesAll ts).any fun (h, _) ↦ h.rule == .selectCore

namespace Tree

def selects (t : Tree) : List Head :=
  (t.nodes.filter fun (h, _) ↦ h.rule == .selectCore).map (·.1)

/-- The selects of a tree that hold no other. -/
def leafSelects (t : Tree) : List Head :=
  (t.nodes.filter fun (h, ts) ↦ h.rule == .selectCore && !hasSelect ts).map (·.1)

end Tree

namespace Buffer

/-- Text of a node's tokens with single spaces. -/
def spacedText (b : Buffer) (h : Head) : Except RangeError String :=
  (b.rangeText h).map fun s ↦ String.ofList (Text.trim (Text.collapse s.toList))

/-- Texts of the selects that hold no other. -/
def subqueries (b : Buffer) (t : Tree) : Except RangeError (List String) :=
  t.leafSelects.mapM b.spacedText

def selects (b : Buffer) (t : Tree) : Except RangeError (List String) :=
  t.selects.mapM b.rangeText

end Buffer

/-- A buffer in which selects have been replaced: whether there was a select at all, and how many
others were replaced. -/
structure Masked where
  buffer : Buffer
  outerSeen : Bool := false
  count : Nat := 0

namespace Masked

/-- Passes by the first select and replaces each other one that is `wanted`. -/
def step (wanted : List Tree → Bool) (s : Masked) (h : Head) (ts : List Tree) :
    Except (Halt RangeError Masked) Masked :=
  if h.rule == .selectCore then
    if !s.outerSeen then .ok { s with outerSeen := true }
    else if wanted ts then
      match s.buffer.cutNode h with
      | .ok b => .ok { s with buffer := b, count := s.count + 1 }
      | .error e => .error ⟨e, s⟩
    else .ok s
  else .ok s

end Masked

namespace Buffer

/-- Replaces all selects but the first. -/
def maskInner (b : Buffer) (t : Tree) : Except (Halt RangeError Masked) Masked :=
  passNodes (Masked.step fun _ ↦ true) ⟨b, false, 0⟩ t.nodes

/-- Replaces all selects but the first and those that hold no other. -/
def maskNested (b : Buffer) (t : Tree) : Except (Halt RangeError Masked) Masked :=
  passNodes (Masked.step hasSelect) ⟨b, false, 0⟩ t.nodes

end Buffer

end PlanCache
