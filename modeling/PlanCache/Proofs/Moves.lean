import PlanCache.Proofs.TokenMoves

/-!
What a parse can do to its state, whatever the grammar and whatever goes wrong: the tokens and nodes
that it takes into the tree, the tokens that it looks at, and the errors that it reports.
-/

namespace PlanCache

namespace Session

/-- What can be done while a node is open. -/
inductive Moves (input : Input) : Session → Session → Prop where
  | trans {s t u : Session} : Moves input s t → Moves input t u → Moves input s u
  | quiet {s t : Session} : Quiet s t → Moves input s t
  | settle (s : Session) : Moves input s s.settle
  /-- An error other than that of a failed prediction is reported. -/
  | report (s : Session) (r : SyntaxError) (h : ∀ i j, r ≠ .noViable i j) :
      Moves input s (s.report r)
  | fault (s : Session) (f : Fault) : Moves input s (s.reportFault input f)
  | consume (s : Session) : Moves input s (s.consume input)
  /-- A missing token is supplied. -/
  | supply (s : Session) (k : Kind) (h : s.recovering = true) :
      Moves input s { s with draft := s.draft.push (.leaf (.missing k) true) }
  /-- A node is read. -/
  | call {s t : Session} (r : Rule) (site : Site) (label : Option Label)
      (h : Moves input (s.enter r site) t) : Moves input s (Session.leave s label t)
  /-- The end of an operand is announced. -/
  | exit (s : Session) : Moves input s { s with events := .exit s.draft.rule :: s.events }
  | wrap (s : Session) : Moves input s s.wrap

theorem Takes.moves {input : Input} {s t : Session} (h : Takes input s t) : Moves input s t := by
  induction h with
  | trans _ _ ih₁ ih₂ => exact ih₁.trans ih₂
  | quiet h _ => exact .quiet h
  | settle s => exact .settle s
  | report s r h => exact .report s r h
  | fault s f => exact .fault s f
  | consume s => exact .consume s
  | supply s k h => exact .supply s k h

namespace Moves

variable {input : Input} {s t : Session}

theorem refl (s : Session) : Moves input s s := .quiet (.refl s)

theorem at_place (place : Place) (s : Session) : Moves input s { s with place } :=
  .quiet (.at_place place s)

theorem consumeUntil (kinds : KindSet) (n : Nat) (s : Session) :
    Moves input s (s.consumeUntil input kinds n) := (Takes.consumeUntil kinds n s).moves

theorem sync (g : Grammar) (place : Place) (again : Bool) (parts : List Part) (s : Session) :
    Moves input s (s.sync g input place again parts).1 := (Takes.sync g place again parts s).moves

theorem expect (g : Grammar) (place : Place) (kinds : KindSet) (single : Bool)
    (label : Option Label) (rest : List Part) (s : Session) :
    Moves input s (s.expect g input place kinds single label rest).1 :=
  (Takes.expect g place kinds single label rest s).moves

theorem recover (g : Grammar) (s : Session) : Moves input s (s.recover g input) :=
  (Takes.recover g s).moves

theorem mend (g : Grammar) (o : Session × Option Fault) :
    Moves input o.1 (Session.mend g input o) := (Takes.mend g o).moves

theorem pick (a : Atlas) (d : Decision) (s : Session) : Moves input s (s.pick a input d).1 :=
  (Takes.pick a d s).moves

theorem turn (alternatives : List (List Part)) (o : Session × Except Fault Nat) :
    Moves input o.1 (Session.turn alternatives o).1 := (Takes.turn alternatives o).moves

theorem branch (a : Atlas) (place : Place) (again : Bool) (parts : List Part) (d : Decision)
    (s : Session) : Moves input s (s.branch a input place again parts d).1 :=
  (Takes.branch a place again parts d s).moves

end Moves

end Session

section Run

open Session

variable {a : Atlas} {input : Input} {parts rest : List Part} {s : Session} {n : Nat}

theorem moves_expect {p : Place} {ks : KindSet} {single : Bool} {label : Option Label}
    (ih : ∀ parts t, Moves input t (run a input n parts t).1) :
    Moves input s (match s.expect a.grammar input p ks single label rest with
      | (s, none) => run a input n rest s
      | (s, some f) => (s, some f)).1 := by
  have he : Moves input s _ := .expect a.grammar p ks single label rest s
  split <;> rename_i hu <;> rw [hu] at he
  · exact he.trans (ih rest _)
  · exact he

theorem moves_turn {o : Turn} (ho : Moves input s o.1)
    (ih : ∀ parts t, Moves input t (run a input n parts t).1) :
    Moves input s (match o with
      | (s, .ok parts) => run a input n parts s
      | (s, .error f) => (s, some f)).1 := by
  split
  · exact ho.trans (ih _ _)
  · exact ho

/-- What is done at operators once the next token has been checked. -/
def Session.operate (a : Atlas) (input : Input) (n : Nat) (p : Place) (block : List (List Part))
    (rest : List Part) (s : Session) : Session × Option Fault :=
  let next := Part.operators p true block :: rest
  let operator := Part.choice (p + 2) block :: next
  match s.pick a input
      { rule := s.draft.rule, alternatives := [operator, rest], onOperators := true } with
  | (s, .error f) => (s, some f)
  | (s, .ok 1) =>
    let s := { s with events := .exit s.draft.rule :: s.events }
    match s.branch a input (p + 2) false operator
        { rule := s.draft.rule, alternatives := block.map (· ++ next) } with
    | (s, .error f) => (s, some f)
    | (s, .ok parts) => run a input n parts s.wrap
  | (s, .ok _) => run a input n rest s

theorem run_operators (a : Atlas) (input : Input) (n : Nat) (p : Place) (again : Bool)
    (block : List (List Part)) (rest : List Part) (s : Session) :
    run a input (n + 1) (.operators p again block :: rest) s =
      match s.sync a.grammar input (if again then p + 1 else p) again
        (.operators p again block :: rest) with
      | (s, some f) => (s, some f)
      | (s, none) => s.operate a input n p block rest := by
  simp only [run]
  rfl

theorem moves_operate {p : Place} {block : List (List Part)}
    (ih : ∀ parts t, Moves input t (run a input n parts t).1) :
    Moves input s (s.operate a input n p block rest).1 := by
  unfold operate
  dsimp only
  generalize ho : s.pick a input _ = o
  have hpick : Moves input s o.1 := ho ▸ .pick a _ s
  split
  · exact hpick
  · refine hpick.trans ((Moves.exit _).trans ?_)
    generalize hb : Session.branch a input _ _ _ _ _ = o
    have hbranch := hb ▸ Moves.branch ..
    split
    · exact hbranch
    · exact hbranch.trans ((Moves.wrap _).trans (ih _ _))
  · exact hpick.trans (ih _ _)

/-- The next token is checked before something is done. -/
theorem moves_sync {place : Place} {again : Bool} {act : Session → Session × Option Fault}
    (hact : ∀ t, Moves input t (act t).1) :
    Moves input s (match s.sync a.grammar input place again parts with
      | (s, some f) => (s, some f)
      | (s, none) => act s).1 := by
  have hs : Moves input s _ := .sync a.grammar place again parts s
  split <;> rename_i hu <;> rw [hu] at hs
  · exact hs
  · exact hs.trans (hact _)

/-- Reading a sequence does nothing else. -/
theorem run_moves (a : Atlas) (input : Input) (n : Nat) (parts : List Part) (s : Session) :
    Moves input s (run a input n parts s).1 := by
  induction n generalizing parts s with
  | zero => cases parts <;> exact .refl s
  | succ n ih =>
    rcases parts with - | ⟨part, rest⟩
    · exact .refl s
    cases part with
    | token p k label => exact moves_expect ih
    | oneOf p ks label => exact moves_expect ih
    | call p r level tail label =>
      have hbody := ih (a.grammar.body r) (Session.enter r ⟨p, rest, level, tail⟩ { s with place := p })
      have hcall : Moves input { s with place := p } (Session.leave s label _) :=
        .call r ⟨p, rest, level, tail⟩ label (hbody.trans (.mend a.grammar _))
      exact ((Moves.at_place p s).trans hcall).trans (ih rest _)
    | guard p level =>
      simp only [run]
      split
      · exact (Moves.at_place p s).trans (ih rest _)
      · exact .at_place p s
    | choice p block => exact moves_turn (.branch ..) ih
    | option p block => exact moves_turn (.branch ..) ih
    | loop p shape again body =>
      simp only [run]
      split
      · exact moves_sync fun t ↦ ih _ t
      · exact moves_turn (.branch ..) ih
    | operators p again block =>
      rw [run_operators]
      exact moves_sync fun t ↦ moves_operate ih

/-- The state in which a parse from `rule` begins. -/
def Session.opening (rule : Rule) : Session :=
  { draft := { rule, start := 0 }, events := [.enter rule] }

/-- The state in which a parse ends. -/
def Session.final (a : Atlas) (rule : Rule) (input : Input) : Session :=
  Session.mend a.grammar input
    (run a input (steps input.size) (a.grammar.body rule) (.opening rule))

theorem moves_final (a : Atlas) (rule : Rule) (input : Input) :
    Moves input (.opening rule) (.final a rule input) :=
  (run_moves a input _ _ _).trans (.mend a.grammar _)

theorem parseKinds_eq (a : Atlas) (rule : Rule) (input : Input) :
    parseKinds a rule input =
      let s := Session.final a rule input
      { tree := s.draft.close s.previous
        reports := s.reports.reverse
        events := (.exit s.draft.rule :: s.events).reverse
        seen := min s.seen input.last } := rfl

end Run

end PlanCache
