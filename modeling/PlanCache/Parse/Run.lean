import PlanCache.Parse.Session

/-!
Parsing: right-hand sides are read part by part, and an error is dealt with in the innermost rule.
-/

namespace PlanCache

namespace Session

/-- Decides between sequences of the rule that is being read. -/
def pick (a : Atlas) (input : Input) (d : Decision) (s : Session) : Session × Except Fault Nat :=
  let f := a.choose input s.pos s.level s.stack d
  let s := s.lookAt input f.seen
  match f.verdict with
  | .read alt => (s, .ok alt)
  | .stuck token => (s, .error (.noViable s.pos (min token input.last)))
  | .unclear => (s, .error .exhausted)

end Session

/-- What to read next: a sequence, or the fault that breaks off the rule. -/
abbrev Turn := Session × Except Fault (List Part)

namespace Session

/-- The alternative of a number, counted from 1. -/
def turn (alternatives : List (List Part)) : Session × Except Fault Nat → Turn
  | (s, .ok n) => (s, .ok ((alternatives[n - 1]?).getD []))
  | (s, .error f) => (s, .error f)

/-- Checks the next token at a block and decides. -/
def branch (a : Atlas) (input : Input) (place : Place) (again : Bool) (parts : List Part)
    (d : Decision) (s : Session) : Turn :=
  match s.sync a.grammar input place again parts with
  | (s, some f) => (s, .error f)
  | (s, none) => turn d.alternatives (s.pick a input d)

end Session

/-- What is left of a rule that has been read to its end or broken off. A fault is reported and
recovered from, unless it is that no steps are left. -/
def Session.mend (g : Grammar) (input : Input) : Session × Option Fault → Session
  | (s, none) | (s, some .exhausted) => s
  | (s, some f) => (s.reportFault input f).recover g input

/-- Reads a sequence to the end of its rule, in at most `n` steps. -/
def run (a : Atlas) (input : Input) : Nat → List Part → Session → Session × Option Fault
  | _, [], s => (s, none)
  | 0, _, s => (s, some .exhausted)
  | n + 1, part :: rest, s =>
    let go : Turn → Session × Option Fault
      | (s, .ok parts) => run a input n parts s
      | (s, .error f) => (s, some f)
    match part with
    | .token p k label =>
      match s.expect a.grammar input p (.single k) true label rest with
      | (s, none) => run a input n rest s
      | (s, some f) => (s, some f)
    | .oneOf p ks label =>
      match s.expect a.grammar input p ks false label rest with
      | (s, none) => run a input n rest s
      | (s, some f) => (s, some f)
    | .call p r level tail label =>
      let inner := Session.enter r ⟨p, rest, level, tail⟩ { s with place := p }
      let inner := Session.mend a.grammar input (run a input n (a.grammar.body r) inner)
      run a input n rest (Session.leave s label inner)
    | .guard p level =>
      let s := { s with place := p }
      if s.level ≤ level then run a input n rest s else (s, some (.level level))
    | .choice p block =>
      go <| s.branch a input p false (part :: rest)
        { rule := s.draft.rule, alternatives := block.map (· ++ rest) }
    | .option p block =>
      go <| s.branch a input p false (part :: rest)
        { rule := s.draft.rule
          alternatives := block.map (· ++ rest) ++ [rest]
          otherwise := some (block.length + 1) }
    | .loop p shape again body =>
      let round := body ++ .loop p shape true body :: rest
      if shape.nonempty && !again then
        match s.sync a.grammar input p false (part :: rest) with
        | (s, some f) => (s, some f)
        | (s, none) => run a input n round s
      else
        go <| s.branch a input (if again then p + 1 else p) again (part :: rest)
          { rule := s.draft.rule
            alternatives := if shape.greedy then [round, rest] else [rest, round]
            greedy := shape.greedy
            otherwise := some 2 }
    | .operators p again block =>
      let next := Part.operators p true block :: rest
      let operator := Part.choice (p + 2) block :: next
      match s.sync a.grammar input (if again then p + 1 else p) again (part :: rest) with
      | (s, some f) => (s, some f)
      | (s, none) =>
        match s.pick a input
            { rule := s.draft.rule, alternatives := [operator, rest], onOperators := true } with
        | (s, .error f) => (s, some f)
        | (s, .ok 1) =>
          let s := { s with events := .exit s.draft.rule :: s.events }
          match s.branch a input (p + 2) false operator
              { rule := s.draft.rule, alternatives := block.map (· ++ next) } with
          | (s, .error f) => (s, some f)
          | (s, .ok parts) => run a input n parts s.wrap
        | (s, .ok _) => run a input n rest s

/-- The outcome of a parse: the tree, the errors and events in order, and the number of the furthest
token that was looked at. -/
structure Parse where
  tree : Tree
  reports : List SyntaxError
  events : List Event
  seen : Nat

/-- More steps than a parse of `n` tokens takes. -/
def steps (n : Nat) : Nat := (n + 2) * 4096

def parseKinds (a : Atlas) (rule : Rule) (input : Input) : Parse :=
  let s : Session := { draft := { rule, start := 0 }, events := [.enter rule] }
  let s := Session.mend a.grammar input (run a input (steps input.size) (a.grammar.body rule) s)
  { tree := s.draft.close s.previous
    reports := s.reports.reverse
    events := (.exit s.draft.rule :: s.events).reverse
    seen := min s.seen input.last }

end PlanCache
