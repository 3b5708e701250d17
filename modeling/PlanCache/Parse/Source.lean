import PlanCache.Lexis.Scan
import PlanCache.Parse.Run

/-!
Parsing a text: its tokens, the tree over those that are not hidden, and the wording of errors.
-/

namespace PlanCache

/-- The tokens of a text and the numbers of those that the grammar reads. -/
structure Source where
  tokens : Array Token
  visible : Array Nat

namespace Source

def ofString (sql : String) : Source :=
  let tokens := Token.scan sql
  let visible := (tokens.zipIdx.filter fun (t, _) ↦ !t.kind.isHidden).map (·.2)
  ⟨tokens.toArray, visible.toArray⟩

/-- Number among all tokens of the `i`-th that the grammar reads. -/
def index (s : Source) (i : Nat) : Nat := s.visible.getD i 0

def token (s : Source) (i : Nat) : Token := s.tokens.getD (s.index i) default

def input (s : Source) : Input := s.visible.map fun i ↦ (s.tokens.getD i default).kind

def leafText (s : Source) : Leaf → String
  | .read i => (s.token i).text
  | .missing .eof => "<missing EOF>"
  | .missing k => "<missing " ++ k.listed ++ ">"

def leafKind (s : Source) : Leaf → Kind
  | .read i => (s.token i).kind
  | .missing k => k

end Source

/-- A text in single quotes as it is shown in a message, on one line. -/
def quoteInline (s : String) : String :=
  let escape := fun c ↦ match c with
    | '\n' => ['\\', 'n']
    | '\r' => ['\\', 'r']
    | '\t' => ['\\', 't']
    | c => [c]
  "'" ++ String.ofList (s.toList.flatMap escape) ++ "'"

namespace SyntaxError

def token : SyntaxError → Nat
  | .mismatched i _ | .extraneous i _ | .missing i _ | .noViable _ i | .levelTooLow i _ _ => i

def message (s : Source) : SyntaxError → String
  | .mismatched i ks =>
    "mismatched input " ++ quoteInline (s.token i).text ++ " expecting " ++ ks.listed
  | .extraneous i ks =>
    "extraneous input " ++ quoteInline (s.token i).text ++ " expecting " ++ ks.listed
  | .missing i ks => "missing " ++ ks.listed ++ " at " ++ quoteInline (s.token i).text
  | .noViable i j =>
    let start := s.token i
    let quoted :=
      if start.kind = .eof then start.text
      else
        let between := s.tokens.toList.drop (s.index i) |>.take (s.index j + 1 - s.index i)
        String.join ((between.takeWhile (·.kind != .eof)).map Token.text)
    "no viable alternative at input " ++ quoteInline quoted
  | .levelTooLow _ n r =>
    "rule " ++ r.title ++ " failed predicate: \x7bself.precpred(self._ctx, " ++ toString n ++
      ")\x7d?"

end SyntaxError

structure Parsed where
  source : Source
  parse : Parse

namespace Parsed

def ofString (rule : Rule) (sql : String) : Parsed :=
  let source := Source.ofString sql
  ⟨source, parseKinds .sql rule source.input⟩

/-- The number of tokens that had been read when the parse ended. -/
def fetched (p : Parsed) : Nat := p.source.index p.parse.seen + 1

def tree (p : Parsed) : Tree := p.parse.tree

/-- Line, column and wording of each error. -/
def errors (p : Parsed) : List (Nat × Nat × String) :=
  p.parse.reports.map fun r ↦
    let t := p.source.token r.token
    (t.line, t.column, r.message p.source)

end Parsed

end PlanCache
