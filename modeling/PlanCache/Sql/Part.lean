import PlanCache.Sql.KindSet
import PlanCache.Sql.Rule

/-!
Right-hand sides of grammar rules as data: sequences of parts, each a token, a rule, or a block of
alternatives that is read once, at most once or repeatedly.
-/

namespace PlanCache

/-- Names under which a node remembers one of its children. -/
inductive Label where
  | newTableName | oldColumnName | newColumnName | rowId | object
  | whereExpr | groupByExpr | havingExpr
deriving DecidableEq, Repr

/-- How often a block is repeated, and whether another round is preferred to going on. -/
structure Loop where
  nonempty : Bool
  greedy : Bool
deriving DecidableEq, Repr

/-- Number of a part in the grammar: two occurrences of one token have two places. A block has room
for three places, where it is entered, where it comes round, and its inner choice. -/
abbrev Place := Nat

/-- A part of a right-hand side. A sequence is a list of parts, a block a list of sequences. -/
inductive Part where
  | token (place : Place) (kind : Kind) (label : Option Label)
  /-- One token of any of these kinds. -/
  | oneOf (place : Place) (kinds : KindSet) (label : Option Label)
  /-- A node of a rule, whose operators bind at `level` or tighter. `tail` marks an operand that
  ends its alternative. -/
  | call (place : Place) (rule : Rule) (level : Nat) (tail : Bool) (label : Option Label)
  /-- Nothing, where operators of `level` are admitted. -/
  | guard (place : Place) (level : Nat)
  | choice (place : Place) (block : List (List Part))
  /-- One of the sequences, or nothing. -/
  | option (place : Place) (block : List (List Part))
  /-- The sequence again and again; `again` once it has been read. -/
  | loop (place : Place) (shape : Loop) (again : Bool) (body : List Part)
  /-- Operators after an operand, each round making the node so far the first child of a new one. -/
  | operators (place : Place) (again : Bool) (block : List (List Part))

namespace Part

def ofKind (k : Kind) : Part := .token 0 k none

/-- A node of a rule, admitting all operators. -/
def ofRule (r : Rule) : Part := .call 0 r 0 false none

instance : Coe Kind Part := ⟨ofKind⟩
instance : Coe Rule Part := ⟨ofRule⟩

def among (ks : List Kind) : Part := .oneOf 0 (.ofList ks) none

def either (block : List (List Part)) : Part := .choice 0 block

/-- One of several sequences, or nothing. -/
def eitherOpt (block : List (List Part)) : Part := .option 0 block

def opt (parts : List Part) : Part := .option 0 [parts]

def many (parts : List Part) : Part := .loop 0 ⟨false, true⟩ false parts

/-- A sequence any number of times, as few as possible. -/
def fewest (parts : List Part) : Part := .loop 0 ⟨false, false⟩ false parts

def some (parts : List Part) : Part := .loop 0 ⟨true, true⟩ false parts

/-- A sequence at least once, as few times as possible. -/
def fewestSome (parts : List Part) : Part := .loop 0 ⟨true, false⟩ false parts

/-- An operand whose operators bind at `level` or tighter. -/
def operand (level : Nat) : Part := .call 0 .expr level false none

def named (label : Label) : Part → Part
  | .token p k _ => .token p k (Option.some label)
  | .oneOf p ks _ => .oneOf p ks (Option.some label)
  | .call p r n t _ => .call p r n t (Option.some label)
  | part => part

/-- Nothing, where operators of level `n` are admitted. -/
def level (n : Nat) : Part := .guard 0 n

end Part

/-- What a rule may read: one of the sequences of `block`, and then its operators. -/
structure Production where
  block : List (List Part)
  operators : List (List Part)

namespace Production

def sequence (parts : List Part) : Production := ⟨[parts], []⟩

def alternatives (block : List (List Part)) : Production := ⟨block, []⟩

/-- A rule whose nodes are operands, joined by operators. -/
def operatorRule (operands operators : List (List Part)) : Production := ⟨operands, operators⟩

/-- The whole right-hand side as one sequence. -/
def parts (p : Production) : List Part :=
  let start := match p.block with
    | [only] => only
    | block => [Part.choice 0 block]
  if p.operators.isEmpty then start else start ++ [Part.operators 0 false p.operators]

end Production

end PlanCache
