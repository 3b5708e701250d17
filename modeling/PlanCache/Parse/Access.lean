import PlanCache.Parse.Source
import PlanCache.Sql.Symbols

/-!
Children of a node by name: by the symbol that they are, or by the label that their rule gives them.
-/

namespace PlanCache

/-- A value that is looked up by name. -/
inductive Entry where
  | one (text : String)
  | many (texts : List String)
deriving DecidableEq, Repr

namespace Label

def title : Label → String
  | newTableName => "new_table_name"
  | oldColumnName => "old_column_name"
  | newColumnName => "new_column_name"
  | rowId => "row_ROW_ID"
  | object => "object_"
  | whereExpr => "whereExpr"
  | groupByExpr => "groupByExpr"
  | havingExpr => "havingExpr"

def all : List Label :=
  [.newTableName, .oldColumnName, .newColumnName, .rowId, .object, .whereExpr, .groupByExpr,
    .havingExpr]

end Label

namespace Source

/-- Whether a tree is what a symbol names. -/
def isSymbol (s : Source) : Symbol → Tree → Bool
  | .kind k, .leaf l _ => s.leafKind l == k
  | .rule r, .node h _ => h.rule == r
  | _, _ => false

def childTexts (s : Source) (children : List Tree) (symbol : Symbol) : List String :=
  (children.filter (s.isSymbol symbol)).map (Tree.text s.leafText)

/-- The children of a node by symbol, in the order of the symbols' names. A symbol that stands for
at most one child gives the first, and one without children gives nothing. -/
def entries (s : Source) (h : Head) (children : List Tree) : List (String × Entry) :=
  h.rule.symbols.filterMap fun (symbol, several) ↦
    match s.childTexts children symbol with
    | [] => none
    | text :: texts => some (symbol.name, if several then .many (text :: texts) else .one text)

/-- Text of what a label names. -/
def markText (s : Source) (children : List Tree) : Mark → String
  | .child i => (children[i]?.map (Tree.text s.leafText)).getD ""
  | .leaf l => s.leafText l

/-- What the labels of a node name, in the order of their names: the last child for which a label
was used, and for grouping both the list of all and the last. -/
def labels (s : Source) (h : Head) (children : List Tree) : List (String × Entry) :=
  let found := Label.all.flatMap fun l ↦
    let texts := (h.marks.filter (·.1 == l)).map fun (_, m) ↦ s.markText children m
    match l, texts.getLast? with
    | _, none => []
    | .groupByExpr, some text => [("_expr", .one text), (l.title, .many texts)]
    | _, some text => [(l.title, .one text)]
  found.mergeSort fun a b ↦ a.1 ≤ b.1

end Source

end PlanCache
