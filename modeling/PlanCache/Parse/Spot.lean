import PlanCache.Parse.Stacks

/-!
Where the reading of a sequence can go without a token: the places of the tokens that can come next,
each with the calls that lead to it.
-/

namespace PlanCache

/-- A place that waits for a token, or the end of a rule. -/
structure Spot where
  place : Place
  /-- The sequence from the awaited token on, nothing at the end of a rule. -/
  parts : List Part
  calls : Stacks
  /-- Level that must be admitted for this spot to count. -/
  level : Option Nat
  /-- Whether the rule in which the search began has been left. -/
  outer : Bool
  /-- Whether it has been left by a call that admits all operators. -/
  apart : Bool
deriving Inhabited

/-- What to do with a condition on levels: pass it, note it, or test it against a level. -/
inductive Guards where
  | pass
  | note
  | test (level : Nat)

namespace Grammar

/-- More than any way from a sequence to its next tokens can take. -/
def depth : Nat := 4096

/-- Whether the operators of a rule are left to the rule's own caller: every caller is an operand
that ends its sequence, after which the same operators come. -/
def defers (calls : Stacks) : Bool := calls.allTops Site.tail

/-- Adds the spots that `parts` can reach inside its rule and the rules it calls, and whether it can
reach its end. -/
def descend (g : Grammar) :
    Nat → Guards → Option Nat → Stacks → List Part → List Spot × Bool → List Spot × Bool
  | 0, _, _, _, _, found => found
  | _, _, _, _, [], (spots, _) => (spots, true)
  | n + 1, guards, level, calls, part :: rest, found =>
    match part with
    | .token p _ _ | .oneOf p _ _ =>
      (⟨p, part :: rest, calls, level, false, false⟩ :: found.1, found.2)
    | .call p r lv tail _ =>
      let inner := g.descend n .pass level (.push ⟨p, rest, lv, tail⟩ calls .nil) (g.body r)
        (found.1, false)
      if inner.2 then g.descend n guards level calls rest (inner.1, found.2)
      else (inner.1, found.2)
    | .guard _ lv =>
      match guards with
      | .pass => g.descend n guards level calls rest found
      | .note => g.descend n guards (some lv) calls rest found
      | .test least => if least ≤ lv then g.descend n guards level calls rest found else found
    | .choice _ block =>
      block.foldl (fun found s ↦ g.descend n guards level calls (s ++ rest) found) found
    | .option _ block =>
      block.foldl (fun found s ↦ g.descend n guards level calls (s ++ rest) found)
        (g.descend n guards level calls rest found)
    | .loop p shape again body =>
      let round := g.descend n guards level calls (body ++ .loop p shape true body :: rest) found
      if again || !shape.nonempty then g.descend n guards level calls rest round else round
    | .operators p _ block =>
      let left := g.descend n guards level calls rest found
      if defers calls then left
      else block.foldl
        (fun found s ↦ g.descend n guards level calls (s ++ .operators p true block :: rest) found)
        left

/-- Adds a spot, joining it with one of the same place. -/
def addSpot (spot : Spot) : List Spot → List Spot
  | [] => [spot]
  | t :: ts =>
    if t.place == spot.place then
      { t with
        calls := t.calls.merge true spot.calls
        apart := t.apart || spot.apart } :: ts
    else t :: addSpot spot ts

/-- The spots after the ends of `todo`, called from anywhere. A rule comes with whether all
operators have been admitted on the way. -/
def beyondAll (g : Grammar) :
    Nat → List (Rule × Bool) → List (Rule × Bool) → List Spot → List Spot
  | 0, _, _, spots => spots
  | _, [], _, spots => spots
  | n + 1, (r, apart) :: todo, seen, spots =>
    if seen.contains (r, apart) then g.beyondAll n todo seen spots
    else match g.sites r with
      | [] =>
        let last : Spot := ⟨r.endPlace, [], .bottom, none, true, apart⟩
        g.beyondAll n todo ((r, apart) :: seen) (addSpot last spots)
      | sites =>
        let step := fun (acc : List (Rule × Bool) × List Spot) (s : Site) ↦
          let apart := apart || (s.level == 0 && !r.production.operators.isEmpty)
          let (found, ends) := g.descend depth .pass none .bottom s.rest ([], false)
          let spots := found.foldl (fun spots t ↦ addSpot { t with outer := true, apart } spots)
            acc.2
          (if ends then (s.rule, apart) :: acc.1 else acc.1, spots)
        let (todo, spots) := sites.foldl step (todo, spots)
        g.beyondAll n todo ((r, apart) :: seen) spots

/-- The spots after the end of a rule that may have been called from anywhere. -/
def beyondOf (g : Grammar) (r : Rule) : List Spot :=
  g.beyondAll (Rule.count * Rule.count * Rule.count) [(r, false)] [] []

end Grammar

/-- A grammar with the spots beyond each rule. -/
structure Atlas where
  grammar : Grammar
  beyonds : Array (List Spot)

namespace Atlas

/-- The spots after the end of a rule that may have been called from anywhere. -/
def beyond (a : Atlas) (r : Rule) : List Spot := a.beyonds.getD r.ctorIdx []

def ofGrammar (g : Grammar) : Atlas := ⟨g, (Rule.all.map g.beyondOf).toArray⟩

def sql : Atlas := ofGrammar .sql

/-- Adds the spots after the end of `rule` for each of the stacks. If `full` an empty stack ends the
input, otherwise it may be any stack. -/
def resume (a : Atlas) (full : Bool) (level : Option Nat) : Rule → Stacks → List Spot → List Spot
  | _, .nil, spots => spots
  | rule, .bottom, spots =>
    if full then ⟨rule.endPlace, [], .bottom, level, false, false⟩ :: spots
    else match level with
      | none => a.beyond rule ++ spots
      | level => (a.beyond rule).map ({ · with level }) ++ spots
  | rule, .push site below others, spots =>
    let (spots, ends) := a.grammar.descend Grammar.depth .pass level below site.rest (spots, false)
    let spots := if ends then a.resume full level site.rule below spots else spots
    a.resume full level rule others spots

/-- The spots that `parts` of `rule` can reach. -/
def spots (a : Atlas) (full : Bool) (guards : Guards) (level : Option Nat) (rule : Rule)
    (calls : Stacks) (parts : List Part) : List Spot :=
  let (spots, ends) := a.grammar.descend Grammar.depth guards level calls parts ([], false)
  if ends then a.resume full level rule calls spots else spots

end Atlas

end PlanCache
