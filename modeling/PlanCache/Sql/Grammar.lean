import PlanCache.Sql.Productions

/-!
The grammar with its parts numbered, and what can be read off it once: where each rule is called,
which tokens can come first in a sequence and which can follow a rule.
-/

namespace PlanCache

/-- Places of one rule lie in a range of this length. -/
def Place.span : Nat := 1024

def Place.rule (p : Place) : Rule := Rule.ofNat (p / Place.span)

/-- The place that stands for the end of a rule. -/
def Rule.endPlace (r : Rule) : Place := r.ctorIdx * Place.span + (Place.span - 1)

mutual

/-- Numbers a part and what it holds from `n` on; the second component is the next free number. -/
def Part.numbered (n : Nat) : Part → Part × Nat
  | .token _ k l => (.token n k l, n + 4)
  | .oneOf _ ks l => (.oneOf n ks l, n + 4)
  | .call _ r lv t l => (.call n r lv t l, n + 4)
  | .guard _ lv => (.guard n lv, n + 4)
  | .choice _ b => let (b, m) := numberedBlock (n + 4) b; (.choice n b, m)
  | .option _ b => let (b, m) := numberedBlock (n + 4) b; (.option n b, m)
  | .loop _ shape again body =>
    let (body, m) := numberedSeq (n + 4) body; (.loop n shape again body, m)
  | .operators _ again b => let (b, m) := numberedBlock (n + 4) b; (.operators n again b, m)

def numberedSeq (n : Nat) : List Part → List Part × Nat
  | [] => ([], n)
  | p :: ps => let (p, m) := p.numbered n; let (ps, k) := numberedSeq m ps; (p :: ps, k)

def numberedBlock (n : Nat) : List (List Part) → List (List Part) × Nat
  | [] => ([], n)
  | s :: b => let (s, m) := numberedSeq n s; let (b, k) := numberedBlock m b; (s :: b, k)

end

/-- Marks an operand of `r` that ends a sequence. -/
def markTail (r : Rule) : List Part → List Part
  | [] => []
  | [.call p q lv t l] => [.call p q lv (t || q == r) l]
  | p :: ps => p :: markTail r ps

/-- The right-hand side of a rule, numbered. -/
def Rule.body (r : Rule) : List Part :=
  let p := r.production
  let p := if p.operators.isEmpty then p else
    ⟨p.block.map (markTail r), p.operators.map (markTail r)⟩
  (numberedSeq (r.ctorIdx * Place.span) p.parts).1

/-- A call of a rule: its place, what comes after it in its own rule, and how it was called. -/
structure Site where
  place : Place
  rest : List Part
  level : Nat
  tail : Bool

def Site.rule (s : Site) : Rule := Place.rule s.place

mutual

/-- The calls in a part that `rest` follows. -/
def Part.sites (rest : List Part) : Part → List (Rule × Site)
  | .call p r lv t _ => [(r, ⟨p, rest, lv, t⟩)]
  | .choice _ b | .option _ b => sitesBlock rest b
  | .loop p shape _ body => sitesSeq (.loop p shape true body :: rest) body
  | .operators p _ b => sitesBlock (.operators p true b :: rest) b
  | _ => []

def sitesSeq (rest : List Part) : List Part → List (Rule × Site)
  | [] => []
  | p :: ps => p.sites (ps ++ rest) ++ sitesSeq rest ps

def sitesBlock (rest : List Part) : List (List Part) → List (Rule × Site)
  | [] => []
  | s :: b => sitesSeq rest s ++ sitesBlock rest b

end

/-- What may come next: the kinds of token, whether the sequence can be read without any, and
whether a condition on levels stands before one of them. -/
structure Look where
  kinds : KindSet
  ends : Bool
  guarded : Bool
deriving DecidableEq, Repr, Inhabited

namespace Look

def nothing : Look := ⟨.empty, false, false⟩

/-- What comes next on either way. -/
def or (a b : Look) : Look :=
  ⟨a.kinds.union b.kinds, a.ends || b.ends, a.guarded || b.guarded⟩

/-- What comes next in one sequence and, past its end, in another. -/
def andThen (a b : Look) : Look :=
  if a.ends then ⟨a.kinds.union b.kinds, b.ends, a.guarded || b.guarded⟩ else a

end Look

mutual

/-- What a part may start with, given what rules start with. -/
def Part.look (first : Rule → Look) : Part → Look
  | .token _ k _ => ⟨.single k, false, false⟩
  | .oneOf _ ks _ => ⟨ks, false, false⟩
  | .call _ r _ _ _ => first r
  | .guard _ _ => ⟨.empty, true, true⟩
  | .choice _ b => lookBlock first b
  | .option _ b | .operators _ _ b => { lookBlock first b with ends := true }
  | .loop _ shape again body =>
    let l := lookSeq first body
    { l with ends := l.ends || again || !shape.nonempty }

def lookSeq (first : Rule → Look) : List Part → Look
  | [] => ⟨.empty, true, false⟩
  | p :: ps =>
    let l := p.look first
    if l.ends then l.andThen (lookSeq first ps) else l

def lookBlock (first : Rule → Look) : List (List Part) → Look
  | [] => .nothing
  | s :: b => (lookSeq first s).or (lookBlock first b)

end

/-- What a rule may start with, through at most `n` calls. -/
def firstOf (body : Rule → List Part) : Nat → Rule → Look
  | 0, _ => .nothing
  | n + 1, r => lookSeq (firstOf body n) (body r)

/-- The rules whose end is reached when a rule of `todo` ends, `seen` included. -/
def endingRules (outer : Rule → List Rule) : Nat → List Rule → List Rule → List Rule
  | 0, _, seen => seen
  | _, [], seen => seen
  | n + 1, r :: todo, seen =>
    if seen.contains r then endingRules outer n todo seen
    else endingRules outer n (outer r ++ todo) (r :: seen)

/-- Right-hand sides and the tables read off them, each indexed by rule. -/
structure Grammar where
  bodies : Array (List Part)
  callers : Array (List Site)
  firsts : Array Look
  follows : Array Look

namespace Grammar

def body (g : Grammar) (r : Rule) : List Part := g.bodies.getD r.ctorIdx []

/-- Where a rule is called. -/
def sites (g : Grammar) (r : Rule) : List Site := g.callers.getD r.ctorIdx []

def first (g : Grammar) (r : Rule) : Look := g.firsts.getD r.ctorIdx .nothing

def look (g : Grammar) (parts : List Part) : Look := lookSeq g.first parts

/-- What can follow a rule, wherever it is called; the end of the input follows a rule that nothing
calls. -/
def follow (g : Grammar) (r : Rule) : Look := g.follows.getD r.ctorIdx .nothing

/-- What follows `r`, from the calls of all rules that end with it. -/
def followOf (g : Grammar) (r : Rule) : Look :=
  let outer := fun r ↦ ((g.sites r).filter fun s ↦ (g.look s.rest).ends).map Site.rule
  let ended := endingRules outer (Rule.count * Rule.count) [r] []
  ended.foldl (fun l r ↦
    match g.sites r with
    | [] => l.or ⟨.single .eof, false, false⟩
    | sites => sites.foldl (fun l s ↦ l.or { g.look s.rest with ends := false }) l) .nothing

def ofBodies (body : Rule → List Part) : Grammar :=
  let calls := Rule.all.flatMap fun r ↦ sitesSeq [] (body r)
  let g : Grammar := {
    bodies := (Rule.all.map body).toArray
    callers := (Rule.all.map fun r ↦ (calls.filter (·.1 == r)).map (·.2)).toArray
    firsts := (Rule.all.map (firstOf body Rule.count)).toArray
    follows := #[] }
  { g with follows := (Rule.all.map g.followOf).toArray }

def sql : Grammar := ofBodies Rule.body

end Grammar

end PlanCache
