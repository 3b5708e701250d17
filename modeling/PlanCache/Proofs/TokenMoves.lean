import PlanCache.Parse.Run

/-!
What a parse can do between two nodes: tokens are read, skipped or supplied, errors are reported,
and the level of the operators that are admitted stays as it is.
-/

namespace PlanCache

namespace Session

/-- Nothing has happened that shows in the tree, in the events or in the reports. -/
structure Quiet (s t : Session) : Prop where
  pos : t.pos = s.pos
  seen : s.seen ≤ t.seen
  recovering : t.recovering = s.recovering
  rule : t.draft.rule = s.draft.rule
  start : t.draft.start = s.draft.start
  children : t.draft.children = s.draft.children
  reports : t.reports = s.reports
  events : t.events = s.events

/-- What can be done with tokens alone. -/
inductive Takes (input : Input) : Session → Session → Prop where
  | trans {s t u : Session} : Takes input s t → Takes input t u → Takes input s u
  | quiet {s t : Session} (h : Quiet s t) (hlevel : t.level = s.level) : Takes input s t
  | settle (s : Session) : Takes input s s.settle
  /-- An error other than that of a failed prediction is reported. -/
  | report (s : Session) (r : SyntaxError) (h : ∀ i j, r ≠ .noViable i j) :
      Takes input s (s.report r)
  | fault (s : Session) (f : Fault) : Takes input s (s.reportFault input f)
  | consume (s : Session) : Takes input s (s.consume input)
  /-- A missing token is supplied. -/
  | supply (s : Session) (k : Kind) (h : s.recovering = true) :
      Takes input s { s with draft := s.draft.push (.leaf (.missing k) true) }

namespace Quiet

theorem refl (s : Session) : Quiet s s := ⟨rfl, Nat.le_refl _, rfl, rfl, rfl, rfl, rfl, rfl⟩

theorem at_place (place : Place) (s : Session) : Quiet s { s with place } :=
  ⟨rfl, Nat.le_refl _, rfl, rfl, rfl, rfl, rfl, rfl⟩

theorem lookAt (input : Input) (i : Nat) (s : Session) : Quiet s (s.lookAt input i) :=
  ⟨rfl, Nat.le_max_left _ _, rfl, rfl, rfl, rfl, rfl, rfl⟩

theorem markLast (label : Option Label) (s : Session) :
    Quiet s { s with draft := s.draft.markLast label } := by
  cases label <;> exact ⟨rfl, Nat.le_refl _, rfl, rfl, rfl, rfl, rfl, rfl⟩

theorem markLeaf (label : Option Label) (leaf : Leaf) (s : Session) :
    Quiet s { s with draft := s.draft.markLeaf label leaf } := by
  cases label <;> exact ⟨rfl, Nat.le_refl _, rfl, rfl, rfl, rfl, rfl, rfl⟩

end Quiet

theorem recovering_report (r : SyntaxError) (s : Session) : (s.report r).recovering = true := by
  unfold Session.report
  split
  · assumption
  · rfl

theorem report_pos (r : SyntaxError) (s : Session) : (s.report r).pos = s.pos := by
  unfold report
  split <;> rfl

theorem report_draft (r : SyntaxError) (s : Session) : (s.report r).draft = s.draft := by
  unfold report
  split <;> rfl

theorem reportFault_pos {input : Input} (f : Fault) (s : Session) :
    (s.reportFault input f).pos = s.pos := by
  unfold reportFault
  repeat' split
  all_goals first | exact report_pos _ s | rfl

theorem reportFault_draft {input : Input} (f : Fault) (s : Session) :
    (s.reportFault input f).draft = s.draft := by
  unfold reportFault
  repeat' split
  all_goals first | exact report_draft _ s | rfl

theorem recovering_reportFault {input : Input} {f : Fault} (hf : f ≠ .exhausted) (s : Session) :
    (s.reportFault input f).recovering = true := by
  cases f with
  | mismatch => exact recovering_report _ s
  | level => exact recovering_report _ s
  | exhausted => exact absurd rfl hf
  | noViable =>
    unfold reportFault
    dsimp only
    split <;> exact recovering_report _ s

namespace Takes

variable {input : Input} {s t : Session}

theorem refl (s : Session) : Takes input s s := .quiet (.refl s) rfl

theorem at_place (place : Place) (s : Session) : Takes input s { s with place } :=
  .quiet (.at_place place s) rfl

theorem lookAt (i : Nat) (s : Session) : Takes input s (s.lookAt input i) :=
  .quiet (.lookAt input i s) rfl

theorem markLast (label : Option Label) (s : Session) :
    Takes input s { s with draft := s.draft.markLast label } := .quiet (.markLast label s) rfl

theorem markLeaf (label : Option Label) (leaf : Leaf) (s : Session) :
    Takes input s { s with draft := s.draft.markLeaf label leaf } :=
  .quiet (.markLeaf label leaf s) rfl

theorem consumeUntil (kinds : KindSet) (n : Nat) (s : Session) :
    Takes input s (s.consumeUntil input kinds n) := by
  induction n generalizing s with
  | zero => exact refl s
  | succ n ih =>
    unfold Session.consumeUntil
    dsimp only
    split
    · exact refl s
    · exact (consume s).trans (ih _)

theorem deleteToken? (kinds : KindSet) (s : Session) :
    Takes input s (s.deleteToken? input kinds).1 := by
  unfold Session.deleteToken?
  dsimp only
  split
  · exact (((lookAt _ s).trans (report _ _ (by simp))).trans (consume _)).trans (settle _)
  · exact lookAt _ s

theorem sync (g : Grammar) (place : Place) (again : Bool) (parts : List Part) (s : Session) :
    Takes input s (s.sync g input place again parts).1 := by
  refine (at_place place s).trans ?_
  unfold Session.sync
  dsimp only
  split
  · exact refl _
  · split
    · exact refl _
    · split
      · exact (report _ _ (by simp)).trans (consumeUntil _ _ _)
      · have hd : Takes input { s with place } _ := deleteToken? (g.expected parts s.stack) _
        split <;> rename_i hs <;> rw [hs] at hd <;> exact hd

theorem supply_leaf (single : Bool) (label : Option Label) (k : Kind) (s : Session)
    (h : s.recovering = true) :
    Takes input s { s with
      draft := if single then (s.draft.push (.leaf (.missing k) true)).markLast label
        else s.draft.markLeaf label (.missing k) } := by
  cases single with
  | true => exact (supply s k h).trans (markLast label _)
  | false => exact markLeaf label _ s

theorem expect (g : Grammar) (place : Place) (kinds : KindSet) (single : Bool)
    (label : Option Label) (rest : List Part) (s : Session) :
    Takes input s (s.expect g input place kinds single label rest).1 := by
  refine (at_place place s).trans ?_
  unfold Session.expect
  dsimp only
  split
  · exact ((settle _).trans (consume _)).trans (markLast label _)
  · have hm : Takes input { s with place } (if single then { s with place } else
        { s with place, draft := s.draft.markLeaf label (.read s.pos) }) := by
      cases single with
      | true => exact refl _
      | false => exact markLeaf label _ { s with place }
    refine hm.trans ?_
    generalize (if single then { s with place } else
      { s with place, draft := s.draft.markLeaf label (.read s.pos) }) = u
    have hd : Takes input u _ := deleteToken? kinds u
    split <;> rename_i hu <;> rw [hu] at hd <;> refine hd.trans ?_
    · exact (consume _).trans (markLast label _)
    · split
      · exact (report _ _ (by simp)).trans (supply_leaf single label _ _ (recovering_report _ _))
      · exact refl _

theorem recover (g : Grammar) (s : Session) : Takes input s (s.recover g input) := by
  unfold Session.recover
  dsimp only
  refine .trans ?_ (consumeUntil _ _ _)
  split
  · exact (consume s).trans (.quiet ⟨rfl, Nat.le_refl _, rfl, rfl, rfl, rfl, rfl, rfl⟩ rfl)
  · exact .quiet ⟨rfl, Nat.le_refl _, rfl, rfl, rfl, rfl, rfl, rfl⟩ rfl

theorem mend (g : Grammar) (o : Session × Option Fault) :
    Takes input o.1 (Session.mend g input o) := by
  unfold Session.mend
  split
  · exact refl _
  · exact refl _
  · exact (fault _ _).trans (recover g _)

theorem pick (a : Atlas) (d : Decision) (s : Session) : Takes input s (s.pick a input d).1 := by
  unfold Session.pick
  dsimp only
  split <;> exact lookAt _ s

theorem turn (alternatives : List (List Part)) (o : Session × Except Fault Nat) :
    Takes input o.1 (Session.turn alternatives o).1 := by
  unfold Session.turn
  split <;> exact refl _

theorem branch (a : Atlas) (place : Place) (again : Bool) (parts : List Part) (d : Decision)
    (s : Session) : Takes input s (s.branch a input place again parts d).1 := by
  have hs : Takes input s _ := sync a.grammar place again parts s
  unfold Session.branch
  split <;> rename_i hu <;> rw [hu] at hs
  · exact hs
  · exact hs.trans ((pick a d _).trans (turn _ _))

end Takes

/-- Only errors have been added to the open node. -/
def AddsErrors (s t : Session) : Prop :=
  ∃ errors : List Leaf, t.draft.children = errors.map (.leaf · true) ++ s.draft.children

namespace AddsErrors

variable {input : Input} {s t u : Session}

theorem of_eq (h : t.draft.children = s.draft.children) : AddsErrors s t := ⟨[], h⟩

theorem trans (h : AddsErrors s t) (h' : AddsErrors t u) : AddsErrors s u := by
  obtain ⟨errors, herrors⟩ := h
  obtain ⟨errors', herrors'⟩ := h'
  exact ⟨errors' ++ errors, by rw [herrors', herrors, List.map_append, List.append_assoc]⟩

theorem consume (hs : s.recovering = true) : AddsErrors s (s.consume input) :=
  ⟨[.read s.pos], by rw [Session.consume, hs]; rfl⟩

theorem consumeUntil (kinds : KindSet) (n : Nat) (hs : s.recovering = true) :
    AddsErrors s (s.consumeUntil input kinds n) := by
  induction n generalizing s with
  | zero => exact of_eq rfl
  | succ n ih =>
    unfold Session.consumeUntil
    dsimp only
    split
    · exact of_eq rfl
    · exact (consume hs).trans (ih hs)

theorem recover (g : Grammar) (hs : s.recovering = true) : AddsErrors s (s.recover g input) := by
  unfold Session.recover
  dsimp only
  split
  · have hfirst : AddsErrors s (s.consume input) := consume hs
    exact hfirst.trans (consumeUntil _ _ hs)
  · exact consumeUntil _ _ hs

/-- A rule that has been broken off gains only errors. -/
theorem mend (g : Grammar) (input : Input) (o : Session × Option Fault) :
    AddsErrors o.1 (Session.mend g input o) := by
  unfold Session.mend
  split
  · exact of_eq rfl
  · exact of_eq rfl
  · rename_i s f hf
    have hreport : AddsErrors s (s.reportFault input f) := of_eq (by rw [reportFault_draft])
    exact hreport.trans (recover g (recovering_reportFault hf s))

end AddsErrors

end Session

end PlanCache
