import PlanCache.Sql.Grammar

/-!
Sets of call stacks, the innermost call on top. Stacks with the same top share it, and tops are kept
in the order of their places, so that equal sets have one form.
-/

namespace PlanCache

/-- A set of call stacks. -/
inductive Stacks where
  | nil
  | bottom
  /-- The stacks of `below` with `top` on top, and those of `others`, whose tops come later. -/
  | push (top : Site) (below others : Stacks)
deriving Inhabited

namespace Stacks

def ofList : List Site → Stacks
  | [] => .bottom
  | s :: ss => .push s (ofList ss) .nil

def same : Stacks → Stacks → Bool
  | .nil, .nil => true
  | .bottom, .bottom => true
  | .push s b o, .push t c p => s.place == t.place && b.same c && o.same p
  | _, _ => false

theorem same_self (a : Stacks) : a.same a = true := by
  induction a with
  | nil => rfl
  | bottom => rfl
  | push s b o ihb iho => simp [same, ihb, iho]

/-- Whether two sets are equal, without looking into what they share in memory. -/
def compare : (a b : Stacks) → { r : Bool // r = a.same b }
  | .push s b o, .push t c p =>
    ⟨s.place == t.place &&
        withPtrEq b c (fun _ ↦ (compare b c).1)
          (fun h ↦ by rw [(compare b c).2, h, same_self]) &&
        withPtrEq o p (fun _ ↦ (compare o p).1)
          (fun h ↦ by rw [(compare o p).2, h, same_self]), by
      simp only [withPtrEq, (compare b c).2, (compare o p).2, same]⟩
  | .nil, .nil => ⟨true, rfl⟩
  | .bottom, .bottom => ⟨true, rfl⟩
  | .nil, .bottom | .nil, .push .. | .bottom, .nil | .bottom, .push .. | .push .., .nil
  | .push .., .bottom => ⟨false, rfl⟩

/-- Whether two sets are equal. Equal sets mostly share their memory, so this is mostly fast. -/
def equal (a b : Stacks) : Bool :=
  withPtrEq a b (fun _ ↦ (compare a b).1) fun h ↦ by rw [(compare a b).2, h, same_self]

def addBottom : Stacks → Stacks
  | .nil | .bottom => .bottom
  | .push t b o => .push t b o.addBottom

/-- Adds the stacks `below` with `top` on top, where `join` adds `below` to other stacks. If `wild`
the empty stack stands for any stack. -/
def addBranch (wild : Bool) (top : Site) (below : Stacks) (join : Stacks → Stacks) :
    Stacks → Stacks
  | .nil => .push top below .nil
  | .bottom => if wild then .bottom else .push top below .bottom
  | .push t b o =>
    if top.place == t.place then .push t (join b) o
    else if top.place < t.place then .push top below (.push t b o)
    else .push t b (addBranch wild top below join o)

/-- The stacks of both sets. If `wild` the empty stack stands for any stack. -/
def merge (wild : Bool) : Stacks → Stacks → Stacks
  | .nil, t => t
  | .bottom, t => if wild then .bottom else t.addBottom
  | a@(.push s b o), t =>
    if a.equal t then t
    else addBranch wild s b (merge wild b) (merge wild o t)

/-- Whether every stack has a top that satisfies `p`. -/
def allTops (p : Site → Bool) : Stacks → Bool
  | .nil => true
  | .bottom => false
  | .push s _ o => p s && o.allTops p

end Stacks

end PlanCache
