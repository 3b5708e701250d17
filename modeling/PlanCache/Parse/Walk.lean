import PlanCache.Parse.Tree

/-!
Orders in which a tree is gone through: every node on the way down and up again, or once before its
children, with the leaves between.
-/

namespace PlanCache

def Rule.heading (r : Rule) : String := r.title.capitalize

/-- A step of a walk through a tree. -/
inductive Step where
  | enter (rule : Rule)
  | exit (rule : Rule)
  | leaf (leaf : Leaf) (error : Bool)
deriving DecidableEq, Repr

namespace Tree

mutual

/-- The walk through a tree: each node is entered, its children are walked, and it is left. -/
def walk : Tree → List Step
  | .leaf l e => [.leaf l e]
  | .node h ts => .enter h.rule :: walkAll ts ++ [.exit h.rule]

def walkAll : List Tree → List Step
  | [] => []
  | t :: ts => t.walk ++ walkAll ts

end

mutual

/-- The rules of the nodes, a node before those below it. -/
def rules : Tree → List Rule
  | .leaf _ _ => []
  | .node h ts => h.rule :: rulesAll ts

def rulesAll : List Tree → List Rule
  | [] => []
  | t :: ts => t.rules ++ rulesAll ts

end

mutual

/-- Sum over the leaves of 1 for each that was expected and `cost` for each error. -/
def weight (cost : Nat) : Tree → Nat
  | .leaf _ e => if e then cost else 1
  | .node _ ts => weightAll cost ts

def weightAll (cost : Nat) : List Tree → Nat
  | [] => 0
  | t :: ts => t.weight cost + weightAll cost ts

end

end Tree

end PlanCache
