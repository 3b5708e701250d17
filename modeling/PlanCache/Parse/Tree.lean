import PlanCache.Sql.Part

/-!
Trees of nodes named by rules. A leaf refers to its token by number, so a tree says nothing of
texts.
-/

namespace PlanCache

/-- A token of a tree: one of the input, numbered among those that the grammar reads, or one that
should have stood there. -/
inductive Leaf where
  | read (index : Nat)
  | missing (kind : Kind)
deriving DecidableEq, Repr

/-- What a label names: a child by its number, or a token that need not be a child. -/
inductive Mark where
  | child (index : Nat)
  | leaf (leaf : Leaf)
deriving DecidableEq, Repr

/-- The head of a node: its rule, the first token when it was begun, the last token read before it
was ended, and what its labels name, the latest last. -/
structure Head where
  rule : Rule
  start : Nat
  stop : Option Nat
  marks : List (Label × Mark)
deriving DecidableEq, Repr

/-- A tree. Leaves that were skipped or are missing are marked as errors. -/
inductive Tree where
  | leaf (leaf : Leaf) (error : Bool)
  | node (head : Head) (children : List Tree)
deriving Repr

instance : Inhabited Tree := ⟨.leaf (.read 0) true⟩

namespace Tree

mutual

/-- The leaves from left to right, each with whether it is an error. -/
def leaves : Tree → List (Leaf × Bool)
  | .leaf l e => [(l, e)]
  | .node _ ts => leavesAll ts

def leavesAll : List Tree → List (Leaf × Bool)
  | [] => []
  | t :: ts => t.leaves ++ leavesAll ts

end

mutual

/-- All nodes, a node before those below it. -/
def nodes : Tree → List (Head × List Tree)
  | .leaf _ _ => []
  | .node h ts => (h, ts) :: nodesAll ts

def nodesAll : List Tree → List (Head × List Tree)
  | [] => []
  | t :: ts => t.nodes ++ nodesAll ts

end

/-- Text of a tree: the texts of its leaves without what stands between them. -/
def text (leafText : Leaf → String) (t : Tree) : String :=
  String.join (t.leaves.map fun (l, _) ↦ leafText l)

end Tree

end PlanCache
