import PlanCache.Halt
import PlanCache.Parse.Source
import PlanCache.Text.Blank

/-!
The tokens that a parse has read with texts that can be replaced. A node stands for the tokens from
its first to its last, what is hidden between them included.
-/

namespace PlanCache

/-- Why a node stands for no tokens: it was ended before any token had been read. -/
inductive RangeError where
  | noLastToken
deriving DecidableEq, Repr

/-- Tokens with the texts that they have at present. -/
structure Buffer where
  source : Source
  texts : Array String

/-- The text that stands for what has been cut out. -/
def placeholder : String := "?"

namespace Buffer

/-- The tokens that a parse has read, as they were written. -/
def ofParsed (p : Parsed) : Buffer :=
  ⟨p.source, (p.source.tokens.take p.fetched).map Token.text⟩

def text (b : Buffer) (i : Nat) : String := b.texts.getD i ""

def leafText (b : Buffer) : Leaf → String
  | .read i => b.text (b.source.index i)
  | .missing k => b.source.leafText (.missing k)

/-- Text of a node with the children `ts`, without what is hidden. -/
def nodeText (b : Buffer) (ts : List Tree) : String :=
  String.join ((Tree.leavesAll ts).map fun (l, _) ↦ b.leafText l)

/-- Numbers of the first and the last token of a node; the last may stand before the first. -/
def range (b : Buffer) (h : Head) : Except RangeError (Nat × Nat) :=
  match h.stop with
  | none => .error .noLastToken
  | some j => .ok (b.source.index h.start, b.source.index j)

/-- Puts the placeholder on the token `first` and clears the others up to `last`. -/
def cut (b : Buffer) (first last : Nat) : Buffer :=
  { b with
    texts := b.texts.mapIdx fun i t ↦
      if i = first then placeholder else if first ≤ i ∧ i ≤ last then "" else t }

/-- Puts the placeholder in the place of a node. -/
def cutNode (b : Buffer) (h : Head) : Except RangeError Buffer :=
  (b.range h).map fun (first, last) ↦ b.cut first last

/-- Texts of the tokens from `first` to `last`. -/
def between (b : Buffer) (first last : Nat) : List String :=
  (b.texts.toList.drop first).take (last + 1 - first)

/-- Text of the tokens of a node, hidden ones included, with single spaces between them. -/
def rangeText (b : Buffer) (h : Head) : Except RangeError String :=
  (b.range h).map fun (first, last) ↦ Text.joinWords (b.between first last)

end Buffer

/-- Goes through nodes from left to right. If a step fails, the state before it is what is left. -/
def passNodes {ε σ : Type} (step : σ → Head → List Tree → Except (Halt ε σ) σ) (s : σ) :
    List (Head × List Tree) → Except (Halt ε σ) σ
  | [] => .ok s
  | (h, ts) :: rest => match step s h ts with
    | .ok s' => passNodes step s' rest
    | .error e => .error e

end PlanCache
