import PlanCache.Parse.Source
import PlanCache.Proofs.Steps

/-!
Trees that remember how they were built. Along with a run the open node is kept with the number of
the operator whose left operand became its first child, and so are the nodes below it. Without
these numbers the result is the tree of the parse.
-/

namespace PlanCache

/-- A tree whose nodes say which operator of their rule they were built by, counted from 0. A node
that was built by none is an operand. -/
inductive Graded where
  | leaf (leaf : Leaf) (error : Bool)
  | node (head : Head) (operator : Option Nat) (children : List Graded)

namespace Graded

mutual

/-- The tree without the operators' numbers. -/
def tree : Graded → Tree
  | .leaf l error => .leaf l error
  | .node h _ cs => .node h (treeAll cs)

def treeAll : List Graded → List Tree
  | [] => []
  | c :: cs => c.tree :: treeAll cs

end

mutual

/-- All nodes with the operators that built them, a node before those below it. -/
def nodes : Graded → List (Head × Option Nat × List Graded)
  | .leaf _ _ => []
  | .node h operator cs => (h, operator, cs) :: nodesAll cs

def nodesAll : List Graded → List (Head × Option Nat × List Graded)
  | [] => []
  | c :: cs => c.nodes ++ nodesAll cs

end

theorem treeAll_eq_map (cs : List Graded) : treeAll cs = cs.map tree := by
  induction cs with
  | nil => rfl
  | cons c cs ih => rw [treeAll, ih, List.map_cons]

theorem mem_nodesAll {x : Head × Option Nat × List Graded} {cs : List Graded} :
    x ∈ nodesAll cs ↔ ∃ c ∈ cs, x ∈ c.nodes := by
  induction cs with
  | nil => simp [nodesAll]
  | cons c cs ih => simp [nodesAll, ih]

def ofLeaf? : Tree → Option Graded
  | .leaf l error => some (.leaf l error)
  | .node _ _ => none

end Graded

/-- An open node that remembers how it was built; its children stand in reverse order. -/
structure Growth where
  operator : Option Nat := none
  children : List Graded := []

namespace Growth

/-- Takes over the tokens that have been added in a state. -/
def take (x : Growth) (t : Session) : Growth :=
  let new := t.draft.children.take (t.draft.children.length - x.children.length)
  { x with children := new.filterMap Graded.ofLeaf? ++ x.children }

def push (x : Growth) (c : Graded) : Growth := { x with children := c :: x.children }

/-- The finished node, if it is ended in a state. -/
def close (x : Growth) (t : Session) : Graded :=
  .node ⟨t.draft.rule, t.draft.start, t.previous, t.draft.marks.reverse⟩ x.operator
    x.children.reverse

/-- Makes the node the left operand of the operator of a number, for which `parts` are to be read.
An operator whose level is not admitted builds nothing. -/
def wrap (x : Growth) (t : Session) (number : Nat) (parts : List Part) : Growth where
  operator := if parts.head?.all (Part.admitted t.level) then some number else none
  children := [x.close t]

end Growth

/-- What reading a sequence makes of an open node. -/
def growth (a : Atlas) (input : Input) : Nat → List Part → Session → Growth → Growth
  | _, [], _, x => x
  | 0, _, _, x => x
  | n + 1, part :: rest, s, x =>
    match s.step a input part rest with
    | .fail t _ => x.take t
    | .go t parts => growth a input n parts t (x.take t)
    | .call site r label =>
      let t := s.called a input n site r
      let inner := growth a input n (a.grammar.body r) (s.entering site r) {}
      growth a input n rest (Session.leave s label t) (x.push ((inner.take t).close t))
    | .operator t number parts => growth a input n parts t.wrap ((x.take t).wrap t number parts)

/-- The tree of a parse with the operators that built it. -/
def Graded.ofKinds (a : Atlas) (rule : Rule) (input : Input) : Graded :=
  let t := Session.final a rule input
  let root := growth a input (steps input.size) (a.grammar.body rule) (.opening rule) {}
  (root.take t).close t

/-- The tree of a text with the operators that built it. -/
def Graded.ofString (rule : Rule) (sql : String) : Graded :=
  .ofKinds .sql rule (Source.ofString sql).input

namespace Growth

variable {a : Atlas} {input : Input} {n : Nat} {parts : List Part} {s t : Session} {x : Growth}

/-- Without the operators' numbers the children are those of the open node. -/
def Mirrors (x : Growth) (s : Session) : Prop := x.children.map Graded.tree = s.draft.children

theorem Mirrors.take_children (h : x.Mirrors s) {leaves : List (Leaf × Bool)}
    (hleaves : t.draft.children = leaves.map (fun l ↦ .leaf l.1 l.2) ++ s.draft.children) :
    (x.take t).children = leaves.map (fun l ↦ .leaf l.1 l.2) ++ x.children := by
  have hlength : x.children.length = s.draft.children.length := by rw [← h, List.length_map]
  have hnew : t.draft.children.length - x.children.length = (leaves.map fun l ↦
      Tree.leaf l.1 l.2).length := by
    rw [hleaves, hlength, List.length_append, Nat.add_sub_cancel_right]
  have hsome : (leaves.map fun l ↦ Tree.leaf l.1 l.2).filterMap Graded.ofLeaf? =
      leaves.map fun l ↦ Graded.leaf l.1 l.2 := by
    rw [List.filterMap_map]
    exact congrFun List.filterMap_eq_map leaves
  unfold take
  dsimp only
  rw [hnew, hleaves, List.take_left, hsome]

theorem Mirrors.take (h : x.Mirrors s) (hgains : s.Gains t) : (x.take t).Mirrors t := by
  obtain ⟨leaves, hleaves⟩ := hgains.children
  rw [Mirrors, h.take_children hleaves, List.map_append, h, hleaves, List.map_map]
  rfl

theorem Mirrors.close (h : x.Mirrors t) : (x.close t).tree = t.draft.close t.previous := by
  rw [Growth.close, Graded.tree, Graded.treeAll_eq_map, List.map_reverse, h]
  rfl

theorem Mirrors.leave (h : x.Mirrors s) {y : Growth} (hy : y.Mirrors t) (label : Option Label) :
    (x.push (y.close t)).Mirrors (Session.leave s label t) := by
  have hchildren : (Session.leave s label t).draft.children =
      t.draft.close t.previous :: s.draft.children := by cases label <;> rfl
  rw [Mirrors, hchildren, push, List.map_cons, hy.close, h]

theorem Mirrors.wrap (h : x.Mirrors t) (number : Nat) (parts : List Part) :
    (x.wrap t number parts).Mirrors t.wrap := by
  rw [Mirrors, Growth.wrap, List.map_singleton, h.close]
  rfl

end Growth

end PlanCache
