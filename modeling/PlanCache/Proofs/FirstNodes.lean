import PlanCache.Proofs.CleanRuns
import PlanCache.Proofs.Lookahead
import PlanCache.Proofs.Tiling

/-!
The nodes at the beginning of a text. One that is ended before any token has been read has none
below it, and behind a literal at the beginning no statement is read from the first token on.
-/

namespace PlanCache

namespace Session

variable {input : Input} {s t : Session}

/-- The open node as it is when it is ended now. -/
def closed (s : Session) : Head × List Tree :=
  (⟨s.draft.rule, s.draft.start, s.previous, s.draft.marks.reverse⟩, s.draft.children.reverse)

theorem closed_rule (s : Session) : s.closed.1.rule = s.draft.rule := rfl

/-- All nodes below the open one are as `P` says. -/
def Below (P : Head × List Tree → Prop) (s : Session) : Prop :=
  ∀ x ∈ Tree.nodesAll s.draft.children, P x

section Below

variable {P : Head × List Tree → Prop} {I : Session → Prop}

theorem Below.of_children_eq (h : s.Below P) (hc : t.draft.children = s.draft.children) :
    t.Below P := by
  rw [Below, hc]
  exact h

theorem Below.push_leaf (h : s.Below P) {l : Leaf} {error : Bool}
    (hc : t.draft.children = .leaf l error :: s.draft.children) : t.Below P := by
  rw [Below, hc, Tree.nodesAll_leaf]
  exact h

theorem Below.push_closed (h : s.Below P) {u : Session} (hu : u.Below P) (hclosed : P u.closed)
    (hc : t.draft.children = u.draft.close u.previous :: s.draft.children) : t.Below P := by
  intro x hx
  rw [hc, Draft.close, Tree.nodesAll_node, List.mem_cons, List.mem_append] at hx
  rcases hx with rfl | hx | hx
  · exact hclosed
  · obtain ⟨tree, ht, hx⟩ := Tree.mem_nodesAll.1 hx
    exact hu x (Tree.mem_nodesAll.2 ⟨tree, List.mem_reverse.1 ht, hx⟩)
  · exact h x hx

/-- What an invariant of the state says of every node when it is ended holds of all nodes. -/
theorem Moves.forall_below (h : Moves input s t) (hmoves : ∀ {s t}, Moves input s t → I s → I t)
    (henter : ∀ {s} (r : Rule) (site : Site), I s → I (s.enter r site))
    (hclosed : ∀ {s}, I s → P s.closed) (hs : I s) (hbelow : s.Below P) : t.Below P := by
  induction h with
  | trans h₁ _ ih₁ ih₂ => exact ih₂ (hmoves h₁ hs) (ih₁ hs hbelow)
  | quiet h => exact hbelow.of_children_eq h.children
  | settle | exit => exact hbelow.of_children_eq rfl
  | report s r => exact hbelow.of_children_eq (by rw [report_draft])
  | fault s f => exact hbelow.of_children_eq (by rw [reportFault_draft])
  | consume s => exact hbelow.push_leaf rfl
  | supply s k => exact hbelow.push_leaf rfl
  | @call s t r site label h ih =>
    have hopen : (s.enter r site).Below P := by
      intro x hx
      cases hx
    have ht := ih (henter r site hs) hopen
    refine hbelow.push_closed ht (hclosed (hmoves h (henter r site hs))) ?_
    cases label <;> rfl
  | wrap s =>
    have hnone : { s with draft := { s.draft with children := [] } }.Below P := by
      intro x hx
      cases hx
    exact hnone.push_closed hbelow (hclosed hs) rfl

theorem Below.consumeUntil (h : s.Below P) (kinds : KindSet) (n : Nat) :
    (s.consumeUntil input kinds n).Below P := by
  induction n generalizing s with
  | zero => exact h
  | succ n ih =>
    unfold Session.consumeUntil
    dsimp only
    split
    · exact h
    · exact ih (h.push_leaf rfl)

/-- Tokens that are skipped after a fault are no nodes. -/
theorem Below.mend (h : s.Below P) (g : Grammar) (f : Fault) :
    (Session.mend g input (s, some f)).Below P := by
  have hreport : (s.reportFault input f).Below P := h.of_children_eq (by rw [reportFault_draft])
  have hrecover : ((s.reportFault input f).recover g input).Below P := by
    unfold Session.recover
    dsimp only
    apply Below.consumeUntil
    split
    · exact hreport.push_leaf rfl
    · exact hreport
  cases f with
  | exhausted => exact h
  | mismatch | noViable | level => exact hrecover

end Below

theorem InStep.enter (r : Rule) (site : Site) (s : Session) : (s.enter r site).InStep input :=
  ⟨Nat.le_refl _, 0, by simp [Session.tokens, Session.enter, Tree.tokensAll, Tree.leavesAll], nofun⟩

/-- A node that is ended before any token has been read begins with the first token and holds no
token but the mark of the end. -/
theorem InStep.closed (h : s.InStep input) (hstop : s.closed.1.stop = none) :
    s.closed.1.start = 0 ∧
      ∀ i e, (.read i, e) ∈ Tree.leavesAll s.closed.2 → input.kind 0 = .eof := by
  have hpos : s.pos = 0 := by
    have hp : s.previous = none := hstop
    unfold previous at hp
    split at hp
    · assumption
    · cases hp
  obtain ⟨hle, m, htokens, heof⟩ := h
  rw [hpos] at hle htokens heof
  refine ⟨Nat.le_zero.1 hle, fun i e hm ↦ heof ?_⟩
  have hi : i ∈ s.tokens := List.mem_filterMap.2 ⟨_, hm, rfl⟩
  rw [htokens, Nat.le_zero.1 hle, List.mem_append, List.mem_replicate] at hi
  simp at hi
  omega

end Session

section Parse

open Session

variable {P : Head × List Tree → Prop} {input : Input}

theorem forall_nodes_of_below {a : Atlas} {rule : Rule} (hroot : P (final a rule input).closed)
    (hbelow : (final a rule input).Below P) : ∀ x ∈ (parseKinds a rule input).tree.nodes, P x := by
  have hnone : (opening rule).Below P := by
    intro x hx
    cases hx
  have hpushed : ({ opening rule with
      draft := (opening rule).draft.push ((final a rule input).draft.close
        (final a rule input).previous) }).Below P := hnone.push_closed hbelow hroot rfl
  intro x hx
  exact hpushed x (Tree.mem_nodesAll.2 ⟨_, List.mem_cons_self, hx⟩)

theorem parseKinds_unended (a : Atlas) (rule : Rule) (input : Input) :
    ∀ x ∈ (parseKinds a rule input).tree.nodes, x.1.stop = none → x.1.start = 0 ∧
      ∀ i e, (.read i, e) ∈ Tree.leavesAll x.2 → input.kind 0 = .eof := by
  have hmoves := moves_final a rule input
  have hopen : (opening rule).InStep input := .opening rule
  apply forall_nodes_of_below
  · exact (hmoves.inStep hopen).closed
  · refine hmoves.forall_below (I := fun s ↦ s.InStep input) (fun h hs ↦ h.inStep hs)
      (fun r site _ ↦ .enter r site _) (fun hs ↦ hs.closed) hopen ?_
    intro x hx
    cases hx

/-- A token has been skipped. -/
structure Session.Skipped (s u : Session) : Prop where
  pos : u.pos = s.pos + 1
  rule : u.draft.rule = s.draft.rule
  children : ∃ l e, u.draft.children = .leaf l e :: s.draft.children

theorem deleteToken?_cases (input : Input) (kinds : KindSet) (s : Session)
    (hpos : input.kind s.pos ≠ .eof) :
    (∃ u, s.deleteToken? input kinds = (u, true) ∧ s.Skipped u) ∨
      ∃ u, s.deleteToken? input kinds = (u, false) ∧ u.draft = s.draft := by
  unfold Session.deleteToken?
  dsimp only
  split
  · left
    generalize he : SyntaxError.extraneous _ kinds = r
    have hreport : ((s.lookAt input (s.pos + 1)).report r).pos = s.pos := report_pos r _
    have hdraft : ((s.lookAt input (s.pos + 1)).report r).draft = s.draft := report_draft r _
    generalize (s.lookAt input (s.pos + 1)).report r = u at hreport hdraft
    rw [← hreport] at hpos
    refine ⟨_, rfl, ?_, ?_, .read u.pos, u.recovering, ?_⟩
    · rw [← hreport]
      exact pos_consume_of_ne_eof hpos
    · rw [← hdraft]
      rfl
    · rw [← hdraft]
      rfl
  · right
    exact ⟨_, rfl, rfl⟩

/-- Where the next token cannot be read it is skipped, or the rule is broken off. -/
theorem branch_of_unexpected {a : Atlas} {s : Session} {parts : List Part} (place : Place)
    (d : Decision) (hs : s.recovering = false) (hpos : input.kind s.pos ≠ .eof)
    (hends : (a.grammar.look parts).ends = false)
    (hkinds : (a.grammar.look parts).kinds.contains (input.kind s.pos) = false) :
    (∃ u, s.Skipped u ∧ Moves input u (s.branch a input place false parts d).1) ∨
      ∃ u f, s.branch a input place false parts d = (u, .error f) ∧ u.draft = s.draft := by
  have hfresh : ¬s.recovering = true := by
    rw [hs]
    decide
  have hlook : ¬((a.grammar.look parts).ends || (a.grammar.look parts).kinds.contains
      (input.kind s.pos)) = true := by
    rw [hends, hkinds]
    decide
  have hsync : ∀ {u : Session} {found : Bool},
      { s with place }.deleteToken? input (a.grammar.expected parts s.stack) = (u, found) →
      s.sync a.grammar input place false parts =
        (u, if found then none else some (.mismatch (a.grammar.expected parts s.stack))) := by
    intro u found hu
    refine (if_neg hfresh).trans ((if_neg hlook).trans ((if_neg Bool.false_ne_true).trans ?_))
    dsimp only
    rw [hu]
    cases found <;> rfl
  unfold Session.branch
  rcases deleteToken?_cases input (a.grammar.expected parts s.stack)
    { s with place } hpos with ⟨u, hu, hskip⟩ | ⟨u, hu, hdraft⟩
  · left
    rw [hsync hu]
    exact ⟨u, ⟨hskip.pos, hskip.rule, hskip.children⟩, (Moves.pick a d u).trans (.turn _ _)⟩
  · right
    rw [hsync hu]
    exact ⟨u, _, rfl, hdraft⟩

theorem run_loop (a : Atlas) (input : Input) (n : Nat) (p : Place) (body rest : List Part)
    (s : Session) :
    run a input (n + 1) (.loop p ⟨false, true⟩ false body :: rest) s =
      match s.branch a input p false (.loop p ⟨false, true⟩ false body :: rest)
        { rule := s.draft.rule
          alternatives := [body ++ .loop p ⟨false, true⟩ true body :: rest, rest]
          otherwise := some 2 } with
      | (s, .ok parts) => run a input n parts s
      | (s, .error f) => (s, some f) := by
  simp only [run]
  rfl

theorem body_script : ∃ p body rest,
    Grammar.sql.body .sqlStmtList = .loop p ⟨false, true⟩ false body :: rest := by
  have hbody : ∃ p body rest,
      Rule.body .sqlStmtList = .loop p ⟨false, true⟩ false body :: rest := ⟨_, _, _, rfl⟩
  rwa [Grammar.sql, Grammar.body_ofBodies]

theorem look_script :
    (Grammar.sql.look (Grammar.sql.body .sqlStmtList)).ends = false ∧
      literals.all (fun k ↦
        !(Grammar.sql.look (Grammar.sql.body .sqlStmtList)).kinds.contains k) = true := by
  decide +kernel

/-- In a script that begins with a literal no node but those of the script begins with it. -/
theorem start_pos_of_literal (hk : literalKinds.contains (input.kind 0) = true) :
    ∀ x ∈ (parseKinds .sql .sqlStmtList input).tree.nodes,
      x.1.rule = .sqlStmtList ∨ 0 < x.1.start := by
  obtain ⟨p, body, rest, hbody⟩ := body_script
  obtain ⟨hends, hkinds⟩ := look_script
  have hmem : input.kind 0 ∈ literals := KindSet.contains_ofList.1 hk
  have hpos : input.kind 0 ≠ .eof := by
    intro he
    rw [he] at hmem
    exact absurd hmem (by decide)
  have hkind := List.all_eq_true.1 hkinds _ hmem
  rw [Bool.not_eq_true'] at hkind
  have hrule := (moves_final .sql .sqlStmtList input).rule
  apply forall_nodes_of_below
  · rw [closed_rule, hrule]
    exact .inl rfl
  have hnone : (opening .sqlStmtList).Below fun x ↦ x.1.rule = .sqlStmtList ∨ 0 < x.1.start := by
    intro x hx
    cases hx
  obtain ⟨n, hn⟩ : ∃ n, steps input.size = n + 1 := ⟨_, (Nat.succ_pred (by unfold steps; omega)).symm⟩
  have hgrammar : Atlas.sql.grammar = Grammar.sql := rfl
  rw [hbody] at hends hkind
  unfold final
  rw [hn, hgrammar, hbody, run_loop]
  rcases branch_of_unexpected (a := .sql) (s := opening .sqlStmtList) p _ rfl hpos hends hkind with
    ⟨u, hskip, hmoves⟩ | ⟨u, f, hbranch, hdraft⟩
  · obtain ⟨l, e, hchildren⟩ := hskip.children
    have hread : Moves input u (mend Grammar.sql input _) :=
      (moves_turn hmoves (run_moves .sql input n)).trans (.mend Grammar.sql _)
    refine hread.forall_below
      (I := fun s ↦ 0 < s.pos ∧ (s.draft.rule = .sqlStmtList ∨ 0 < s.draft.start))
      (fun h hs ↦ ⟨Nat.lt_of_lt_of_le hs.1 h.pos_le, by rw [h.rule, h.start]; exact hs.2⟩)
      (fun r site hs ↦ ⟨hs.1, .inr hs.1⟩) (fun hs ↦ hs.2) ⟨?_, .inl hskip.rule⟩
      (hnone.push_leaf hchildren)
    rw [hskip.pos]
    exact Nat.succ_pos _
  · rw [hbranch]
    apply Below.mend
    exact hnone.of_children_eq (by rw [hdraft])

end Parse

end PlanCache
