import Std.Data.TreeMap
import PlanCache.Parse.Spot

/-!
Which of several sequences to read next. Where one token tells, one token is looked at. Otherwise
all sequences are followed side by side, first as if the rule could have been called from anywhere,
and if that leaves a conflict once more with the calls that are really open. Of sequences that
cannot be told apart the first is read.
-/

namespace PlanCache

/-- A spot that the `alt`-th sequence can reach, counted from 1. -/
structure Config where
  alt : Nat
  spot : Spot
deriving Inhabited

abbrev Configs := Std.TreeMap Nat (List Config)

namespace Configs

/-- Adds a configuration to those of its place, joining it with one of the same sequence. -/
def insertInto (wild : Bool) (c : Config) : List Config → List Config
  | [] => [c]
  | d :: ds =>
    if d.alt == c.alt && d.spot.level == c.spot.level then
      { d with spot := { d.spot with
          calls := d.spot.calls.merge wild c.spot.calls
          outer := d.spot.outer || c.spot.outer
          apart := d.spot.apart || c.spot.apart } } :: ds
    else d :: insertInto wild c ds

def add (wild : Bool) (m : Configs) (c : Config) : Configs :=
  m.alter c.spot.place fun
    | none => some [c]
    | some cs => some (insertInto wild c cs)

def list (m : Configs) : List Config := m.foldl (fun cs _ ds ↦ ds ++ cs) []

end Configs

namespace Config

/-- Whether the configuration waits for a token of this kind. -/
def accepts (k : Kind) (c : Config) : Bool :=
  match c.spot.parts with
  | .token _ k' _ :: _ => k == k'
  | .oneOf _ ks _ :: _ => ks.contains k
  | _ => false

def atEnd (c : Config) : Bool := c.spot.parts.isEmpty

/-- Whether the rule in which the search began has been read to its end. -/
def finished (c : Config) : Bool := c.spot.outer || c.atEnd

/-- Whether the configuration counts where operators of `level` or tighter are admitted. -/
def admitted (level : Nat) (c : Config) : Bool :=
  match c.spot.level with
  | none => true
  | some n => level ≤ n

end Config

def onlyOne : List Nat → Option Nat
  | [] => none
  | n :: ns => if ns.all (· == n) then some n else none

def least : List Nat → Option Nat
  | [] => none
  | n :: ns => some (ns.foldl min n)

/-- The least sequence of each group of configurations with equal stacks. -/
def leastOfGroups : List Config → List (Stacks × Nat) → List (Stacks × Nat)
  | [], groups => groups
  | c :: cs, groups => leastOfGroups cs (insert c groups)
where
  insert (c : Config) : List (Stacks × Nat) → List (Stacks × Nat)
    | [] => [(c.spot.calls, c.alt)]
    | (s, n) :: gs =>
      if s.equal c.spot.calls then (s, min n c.alt) :: gs else (s, n) :: insert c gs

namespace Configs

/-- Whether two sequences have reached one place with equal stacks. -/
def conflicting (cs : List Config) : Bool :=
  match cs with
  | [] => false
  | c :: ds => ds.any (fun d ↦ d.alt != c.alt && d.spot.calls.equal c.spot.calls) || conflicting ds

/-- Whether reading on cannot tell the sequences apart as long as the calls are not known. -/
def stalled (m : Configs) : Bool :=
  m.all (fun _ cs ↦ cs.all Config.atEnd) ||
    (m.any (fun _ cs ↦ conflicting cs) &&
      !m.any (fun _ cs ↦ (onlyOne (cs.map Config.alt)).isSome))

/-- The sequence that all places agree on, counting the first of those with equal stacks. -/
def agreed (m : Configs) : Option Nat :=
  onlyOne (m.foldl (fun ns _ cs ↦ (leastOfGroups cs []).map (·.2) ++ ns) [])

def unique (m : Configs) : Option Nat :=
  onlyOne (m.foldl (fun ns _ cs ↦ cs.map Config.alt ++ ns) [])

/-- The first sequence, if any, that could be read to the end of the rule. -/
def fallback (level : Nat) (m : Configs) : Option Nat :=
  let done := m.list.filter Config.finished
  match least ((done.filter (·.admitted level)).map Config.alt) with
  | some n => some n
  | none => least ((done.filter (!·.admitted level)).map Config.alt)

/-- Leaves of the operators of a rule those that are admitted, and of the ways out of the rule those
that do not lead back to the same operators. The operators are the first sequence. -/
def admitOperators (level : Nat) (m : Configs) : Configs :=
  m.filterMap fun _ cs ↦
    let first := (cs.filter fun c ↦ c.alt == 1 && c.admitted level).map fun c ↦
      { c with spot := { c.spot with level := none } }
    let others := cs.filter fun c ↦ c.alt != 1 &&
      (c.spot.apart || !first.any fun d ↦ d.spot.calls.equal c.spot.calls)
    match first ++ others with
    | [] => none
    | cs => some cs

end Configs

/-- A decision between sequences of one rule. -/
structure Decision where
  rule : Rule
  alternatives : List (List Part)
  /-- Whether the decision is between another operator and the end of the rule. -/
  onOperators : Bool := false
  /-- Whether one token may tell. -/
  greedy : Bool := true
  /-- The sequence to read when one token would tell but is none of those expected. -/
  otherwise : Option Nat := none

/-- The kinds that begin each sequence, if no kind begins two. -/
def Grammar.oneToken? (g : Grammar) (d : Decision) : Option (List KindSet) :=
  let looks := d.alternatives.map fun parts ↦
    let l := g.look parts
    if l.ends then l.or (g.follow d.rule) else l
  if d.greedy && looks.all (fun l ↦ !l.guarded && !l.kinds.isEmpty) && disjoint .empty looks then
    some (looks.map (·.kinds))
  else none
where
  disjoint (before : KindSet) : List Look → Bool
    | [] => true
    | l :: ls => (before.inter l.kinds).isEmpty && disjoint (before.union l.kinds) ls

/-- What has been found out: the sequence to read, the token at which all sequences failed, or that
the open calls have to be known. -/
inductive Verdict where
  | read (alt : Nat)
  | stuck (token : Nat)
  | unclear
deriving DecidableEq, Repr

/-- A verdict and the furthest token that was looked at. -/
structure Forecast where
  verdict : Verdict
  seen : Nat
deriving DecidableEq, Repr

namespace Atlas

/-- The configurations before any token. -/
def start (a : Atlas) (full : Bool) (guards : Guards) (calls : Stacks) (d : Decision) : Configs :=
  (d.alternatives.zipIdx 1).foldl (fun m (parts, alt) ↦
    (a.spots full guards none d.rule calls parts).foldl (fun m s ↦ m.add (!full) ⟨alt, s⟩) m) ∅

/-- The configurations after those of a list have read the tokens they wait for. -/
def advance (a : Atlas) (full : Bool) (moved : List Config) : Configs :=
  moved.foldl (fun m c ↦
    let spots := a.spots full .pass c.spot.level (Place.rule c.spot.place) c.spot.calls
      c.spot.parts.tail
    spots.foldl (fun m s ↦
      m.add (!full) ⟨c.alt, { s with outer := s.outer || c.spot.outer }⟩) m) ∅

/-- The configurations after a token. Where one sequence is left its own are not followed up. -/
def reach (a : Atlas) (full : Bool) (k : Kind) (m : Configs) : Configs :=
  let all := m.list
  let moved := all.filter (·.accepts k)
  let ended := if full || k == .eof then all.filter Config.atEnd else []
  if ended.isEmpty && k != .eof && (onlyOne (moved.map Config.alt)).isSome then
    moved.foldl (Configs.add (!full)) ∅
  else
    let next := a.advance full moved
    let next := if k == .eof then next.filter fun _ cs ↦ cs.all Config.atEnd else next
    if full && next.any fun _ cs ↦ cs.any Config.atEnd then next
    else ended.foldl (Configs.add (!full)) next

/-- Follows the sequences from token `i` on, whatever the open calls. -/
def followAny (a : Atlas) (kinds : Array Kind) (level first : Nat) :
    Nat → Nat → Configs → Forecast
  | 0, i, _ => ⟨.stuck i, i⟩
  | n + 1, i, m =>
    let k := kinds.getD i .eof
    let next := a.reach false k m
    if next.isEmpty then
      match m.fallback level with
      | some alt => ⟨.read alt, i⟩
      | none => ⟨.stuck i, i⟩
    else match next.unique with
      | some alt => ⟨if next.list.any (·.admitted level) then .read alt else .stuck first, i⟩
      | none =>
        if next.stalled then
          match onlyOne ((next.list.filter (·.admitted level)).map Config.alt) with
          | some alt => ⟨.read alt, i⟩
          | none => ⟨.unclear, i⟩
        else a.followAny kinds level first n (i + 1) next

/-- Follows the sequences from token `i` on under the open calls. -/
def followOpen (a : Atlas) (kinds : Array Kind) (level : Nat) : Nat → Nat → Configs → Forecast
  | 0, i, _ => ⟨.stuck i, i⟩
  | n + 1, i, m =>
    let next := a.reach true (kinds.getD i .eof) m
    if next.isEmpty then
      match m.fallback level with
      | some alt => ⟨.read alt, i⟩
      | none => ⟨.stuck i, i⟩
    else match next.unique with
      | some alt => ⟨.read alt, i⟩
      | none => match next.agreed with
        | some alt => ⟨.read alt, i⟩
        | none => a.followOpen kinds level n (i + 1) next

/-- Predicts by reading ahead as far as needed. -/
def predict (a : Atlas) (kinds : Array Kind) (pos level : Nat) (stack : List Site) (d : Decision) :
    Forecast :=
  let ahead := kinds.size - pos + 2
  let m := a.start false .note .bottom d
  let m := if d.onOperators then m.admitOperators level else m
  let f := a.followAny kinds level pos ahead pos m
  match f.verdict with
  | .unclear =>
    let m := a.start true (.test level) (.ofList stack) d
    let f' := a.followOpen kinds level ahead pos m
    ⟨f'.verdict, max f.seen f'.seen⟩
  | _ => f

/-- Chooses a sequence, by the next token alone if that can tell. -/
def choose (a : Atlas) (kinds : Array Kind) (pos level : Nat) (stack : List Site) (d : Decision) :
    Forecast :=
  match a.grammar.oneToken? d with
  | some sets =>
    match sets.findIdx? (·.contains (kinds.getD pos .eof)), d.otherwise with
    | some i, _ => ⟨.read (i + 1), pos⟩
    | none, some alt => ⟨.read alt, pos⟩
    | none, none => ⟨.stuck pos, pos⟩
  | none => a.predict kinds pos level stack d

end Atlas

end PlanCache
