import PlanCache.Sql.Productions

/-!
Which tokens and rules can stand directly below a node, and whether more than one of them can.
-/

namespace PlanCache

/-- A child that is named by its kind of token or its rule. -/
inductive Symbol where
  | kind (kind : Kind)
  | rule (rule : Rule)
deriving DecidableEq, Repr

def Symbol.name : Symbol → String
  | .kind k => k.name
  | .rule r => r.title

/-- The most often that each symbol can occur, counted as 1 or 2, where 2 stands for any number. -/
abbrev Tally := List (Symbol × Nat)

namespace Tally

def one (s : Symbol) : Tally := [(s, 1)]

/-- How often a symbol can occur. -/
def get (t : Tally) (s : Symbol) : Nat := (t.lookup s).getD 0

/-- Two tallies joined symbol by symbol. -/
def join (f : Nat → Nat → Nat) (t u : Tally) : Tally :=
  t.map (fun (s, n) ↦ (s, f n (get u s))) ++ u.filter fun (s, _) ↦ get t s == 0

/-- What two sequences one after the other can hold. -/
def add : Tally → Tally → Tally := join fun m n ↦ min 2 (m + n)

/-- What one or the other of two sequences can hold. -/
def max : Tally → Tally → Tally := join Nat.max

/-- What a sequence can hold that is repeated. -/
def repeated (t : Tally) : Tally := t.map fun (s, _) ↦ (s, 2)

end Tally

mutual

def Part.tally : Part → Tally
  | .token _ k _ => .one (.kind k)
  | .oneOf _ ks _ => ks.toList.map fun k ↦ (.kind k, 1)
  | .call _ r _ _ _ => .one (.rule r)
  | .guard _ _ => []
  | .choice _ block | .option _ block => tallyBlock block
  | .loop _ _ _ body => (tallySeq body).repeated
  | .operators _ _ block => tallyBlock block

def tallySeq : List Part → Tally
  | [] => []
  | p :: ps => p.tally.add (tallySeq ps)

def tallyBlock : List (List Part) → Tally
  | [] => []
  | ps :: rest => (tallySeq ps).max (tallyBlock rest)

end

namespace Rule

/-- What a node of a rule can hold. An operator's node has its left operand as first child. -/
def tally (r : Rule) : Tally :=
  let p := r.production
  (tallyBlock p.block).max (tallyBlock (p.operators.map fun ps ↦ Part.ofRule r :: ps))

/-- The symbols below nodes of a rule in the order of their names, with whether there can be more
than one. -/
def symbols (r : Rule) : List (Symbol × Bool) :=
  (r.tally.map fun (s, n) ↦ (s, decide (1 < n))).mergeSort fun a b ↦ a.1.name ≤ b.1.name

/-- Levels of a rule's operators, in the order in which they are tried. -/
def levels (r : Rule) : List Nat :=
  r.production.operators.filterMap fun ps ↦ match ps with
    | .guard _ n :: _ => some n
    | _ => none

/-- Whether the `i`-th operator of a rule binds tightly enough for level `n`. -/
def admits (r : Rule) (i : Nat) (n : Int) : Option Bool := r.levels[i]?.map fun m ↦ decide (n ≤ m)

end Rule

end PlanCache
