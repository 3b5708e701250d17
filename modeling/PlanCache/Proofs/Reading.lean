import PlanCache.Proofs.Foresight
import PlanCache.Proofs.TokenMoves

/-!
What reading can do to the state of a parse. Whatever the grammar and whatever goes wrong, a node
grows by tokens that are read or supplied and by nodes that are read to their end, and a literal is
one token of a literal's kind.
-/

namespace PlanCache

/-- The kinds of literals. -/
def literals : List Kind :=
  [.number, .string, .blob, .NULL, .TRUE, .FALSE, .CURRENT_TIME, .CURRENT_DATE, .CURRENT_TIMESTAMP]

def literalKinds : KindSet := .ofList literals

namespace KindSet

theorem contains_union {s t : KindSet} {k : Kind} :
    (s.union t).contains k = (s.contains k || t.contains k) := Nat.testBit_or _ _ _

theorem contains_single {j k : Kind} : (single j).contains k = true ↔ k = j := by
  unfold contains single
  rw [Nat.one_shiftLeft, Nat.testBit_two_pow, decide_eq_true_eq]
  constructor
  · intro h
    rw [← Kind.ofNat_ctorIdx k, ← h, Kind.ofNat_ctorIdx]
  · rintro rfl
    rfl

theorem contains_foldl {ks : List Kind} {s : KindSet} {k : Kind} :
    (ks.foldl (fun s k ↦ s.union (single k)) s).contains k = true ↔
      s.contains k = true ∨ k ∈ ks := by
  induction ks generalizing s with
  | nil => simp
  | cons j ks ih =>
    rw [List.foldl_cons, ih, contains_union, Bool.or_eq_true, contains_single, List.mem_cons,
      or_assoc]

theorem contains_ofList {ks : List Kind} {k : Kind} :
    (ofList ks).contains k = true ↔ k ∈ ks := by
  have hempty : empty.contains k = false := Nat.zero_testBit _
  rw [ofList, contains_foldl, hempty]
  simp

end KindSet

mutual

/-- Whether literals are called for only at the beginning of a sequence that is chosen. -/
def Part.tame : Part → Bool
  | .call _ r _ _ _ => r != .literalValue
  | .choice _ b => tameChoice b
  | .option _ b | .operators _ _ b => tameBlock b
  | .loop _ _ _ body => tameSeq body
  | _ => true

def tameSeq : List Part → Bool
  | [] => true
  | p :: ps => p.tame && tameSeq ps

def tameBlock : List (List Part) → Bool
  | [] => true
  | s :: b => tameSeq s && tameBlock b

/-- Whether all parts are tame, except for a call that comes first. -/
def tameAlt : List Part → Bool
  | [] => true
  | .call _ _ _ _ _ :: ps => tameSeq ps
  | p :: ps => p.tame && tameSeq ps

def tameChoice : List (List Part) → Bool
  | [] => true
  | s :: b => tameAlt s && tameChoice b

end

section Tame

variable {p : Part} {parts rest : List Part} {block : List (List Part)}

@[simp] theorem tameSeq_cons : tameSeq (p :: parts) = (p.tame && tameSeq parts) := by
  rw [tameSeq]

@[simp] theorem tameSeq_append : tameSeq (parts ++ rest) = (tameSeq parts && tameSeq rest) := by
  induction parts with
  | nil => simp [tameSeq]
  | cons p ps ih => simp [ih, Bool.and_assoc]

theorem tameAlt_of_tameSeq (h : tameSeq parts = true) : tameAlt parts = true := by
  cases parts with
  | nil => rw [tameAlt]
  | cons p ps =>
    rw [tameSeq_cons, Bool.and_eq_true] at h
    cases p <;> simp [tameAlt, h.1, h.2]

theorem tameAlt_append (h : tameAlt parts = true) (hr : tameSeq rest = true) :
    tameAlt (parts ++ rest) = true := by
  cases parts with
  | nil => exact tameAlt_of_tameSeq hr
  | cons p ps => cases p <;> simp_all [tameAlt]

theorem tameBlock_iff : tameBlock block = true ↔ ∀ s ∈ block, tameSeq s = true := by
  induction block with
  | nil => simp [tameBlock]
  | cons s b ih => simp [tameBlock, ih]

theorem tameChoice_iff : tameChoice block = true ↔ ∀ s ∈ block, tameAlt s = true := by
  induction block with
  | nil => simp [tameChoice]
  | cons s b ih => simp [tameChoice, ih]

end Tame

/-- Literals have a rule of their own, called for only where the next token has been looked at. -/
structure Grammar.Tame (g : Grammar) : Prop where
  body (r : Rule) : tameSeq (g.body r) = true
  literal : g.ReadsOneOf .literalValue literalKinds

theorem Rule.getElem?_all (r : Rule) : Rule.all[r.ctorIdx]? = some r := by
  have h : r.ctorIdx < Rule.count := by cases r <;> decide
  simp [Rule.all, h, Rule.ofNat_ctorIdx]

namespace Grammar

variable (body : Rule → List Part) (r : Rule)

theorem body_ofBodies : (ofBodies body).body r = body r := by
  simp only [Grammar.body, ofBodies]
  simp [Rule.getElem?_all]

theorem first_ofBodies : (ofBodies body).first r = firstOf body Rule.count r := by
  simp only [Grammar.first, ofBodies]
  simp [Rule.getElem?_all]

end Grammar

theorem Grammar.sql_tame : Grammar.sql.Tame where
  body r := by
    rw [sql, body_ofBodies]
    cases r <;> rfl
  literal := by
    have hbody : ∃ p, Rule.body .literalValue = [.oneOf p literalKinds none] := ⟨_, rfl⟩
    obtain ⟨p, hp⟩ := hbody
    refine ⟨⟨p, by rw [sql, body_ofBodies, hp]⟩, ?_⟩
    rw [sql, first_ofBodies, Rule.count, firstOf, hp]
    rfl

namespace Session

/-- The token at `pos` is a literal, and no other has been read since. -/
def PastLiteral (input : Input) (pos : Nat) (s : Session) : Prop :=
  literalKinds.contains (input.kind pos) = true ∧ (s.pos = pos ∨ s.pos = pos + 1)

/-- What reading inside an open node can do. -/
inductive Reads (input : Input) : Session → Session → Prop where
  | trans {s t u : Session} : Reads input s t → Reads input t u → Reads input s u
  /-- Nothing that shows in the tree. -/
  | quiet {s t : Session} (hpos : t.pos = s.pos) (hrule : t.draft.rule = s.draft.rule)
      (hstart : t.draft.start = s.draft.start) (hchildren : t.draft.children = s.draft.children) :
      Reads input s t
  | consume (s : Session) : Reads input s (s.consume input)
  /-- A missing token is supplied. -/
  | supply (s : Session) (k : Kind) :
      Reads input s { s with draft := s.draft.push (.leaf (.missing k) true) }
  /-- A node is read. -/
  | call {s t : Session} (r : Rule) (site : Site) (label : Option Label)
      (h : Reads input (s.enter r site) t) (hl : r = .literalValue → t.PastLiteral input s.pos) :
      Reads input s (Session.leave s label t)
  /-- The node so far becomes the first child of another. -/
  | wrap (s : Session) (h : s.draft.rule ≠ .literalValue) : Reads input s s.wrap

namespace Reads

variable {input : Input} {s t : Session}

theorem refl (s : Session) : Reads input s s := .quiet rfl rfl rfl rfl

theorem rule (h : Reads input s t) : t.draft.rule = s.draft.rule := by
  induction h with
  | trans _ _ ih₁ ih₂ => exact ih₂.trans ih₁
  | quiet _ hrule => exact hrule
  | consume | supply => rfl
  | call r site label => cases label <;> rfl
  | wrap => rfl

theorem at_place (place : Place) (s : Session) : Reads input s { s with place } :=
  .quiet rfl rfl rfl rfl

theorem settle (s : Session) : Reads input s s.settle := .quiet rfl rfl rfl rfl

theorem report (r : SyntaxError) (s : Session) : Reads input s (s.report r) := by
  unfold Session.report
  split
  · exact refl s
  · exact .quiet rfl rfl rfl rfl

theorem reportFault (f : Fault) (s : Session) : Reads input s (s.reportFault input f) := by
  unfold Session.reportFault
  split
  · exact report _ s
  · dsimp only
    split
    · exact report _ s
    · exact (report _ s).trans (.quiet rfl rfl rfl rfl)
  · exact report _ s
  · exact refl s

theorem of_takes (h : Takes input s t) : Reads input s t := by
  induction h with
  | trans _ _ ih₁ ih₂ => exact ih₁.trans ih₂
  | quiet h _ => exact .quiet h.pos h.rule h.start h.children
  | settle s => exact settle s
  | report s r _ => exact report r s
  | fault s f => exact reportFault f s
  | consume s => exact .consume s
  | supply s k _ => exact .supply s k

theorem sync (g : Grammar) (place : Place) (again : Bool) (parts : List Part) (s : Session) :
    Reads input s (s.sync g input place again parts).1 := .of_takes (.sync g place again parts s)

theorem expect (g : Grammar) (place : Place) (kinds : KindSet) (single : Bool)
    (label : Option Label) (rest : List Part) (s : Session) :
    Reads input s (s.expect g input place kinds single label rest).1 :=
  .of_takes (.expect g place kinds single label rest s)

theorem mend (g : Grammar) (o : Session × Option Fault) :
    Reads input o.1 (Session.mend g input o) := .of_takes (.mend g o)

theorem pick (a : Atlas) (d : Decision) (s : Session) : Reads input s (s.pick a input d).1 :=
  .of_takes (.pick a d s)

theorem branch (a : Atlas) (place : Place) (again : Bool) (parts : List Part) (d : Decision)
    (s : Session) : Reads input s (s.branch a input place again parts d).1 :=
  .of_takes (.branch a place again parts d s)

end Reads

/-- What a block goes on with is one of its sequences, chosen from the token it goes on at. -/
theorem branch_eq_ok {a : Atlas} {input : Input} {place : Place} {again : Bool}
    {parts chosen : List Part} {d : Decision} {s t : Session}
    (h : s.branch a input place again parts d = (t, .ok chosen)) :
    ∃ alt, ∃ u : Session, (a.choose input t.pos u.level u.stack d).verdict = .read alt ∧
      chosen = (d.alternatives[alt - 1]?).getD [] := by
  unfold Session.branch at h
  split at h
  · simp at h
  · rename_i u _
    unfold Session.pick at h
    dsimp only at h
    split at h <;> simp only [Session.turn, Prod.mk.injEq, Except.ok.injEq, reduceCtorEq,
      and_false] at h
    rename_i alt hv
    obtain ⟨rfl, rfl⟩ := h
    exact ⟨alt, u, hv, rfl⟩

end Session

/-- A sequence that begins with a literal stands before one. -/
structure Ready (input : Input) (parts : List Part) (s : Session) : Prop where
  tame : tameAlt parts = true
  literal : ∀ p lv t l rest, parts = .call p .literalValue lv t l :: rest →
    literalKinds.contains (input.kind s.pos) = true

section Run

variable {a : Atlas} {input : Input} {parts rest : List Part} {s t u : Session}

theorem Ready.of_tameSeq (h : tameSeq parts = true) : Ready input parts s where
  tame := tameAlt_of_tameSeq h
  literal := by
    rintro p lv t l rest rfl
    simp [Part.tame] at h

theorem Ready.of_branch {place : Place} {again : Bool} {d : Decision}
    (hg : a.grammar.Tame) (hd : ∀ alt ∈ d.alternatives, tameAlt alt = true)
    (hop : d.onOperators = false) (hoth : d.otherwise = none)
    (h : s.branch a input place again parts d = (t, .ok rest)) : Ready input rest t := by
  obtain ⟨alt, u, hc, rfl⟩ := Session.branch_eq_ok h
  cases hp : d.alternatives[alt - 1]? with
  | none => exact .of_tameSeq rfl
  | some parts =>
    refine ⟨hd _ (List.mem_of_getElem? hp), ?_⟩
    rintro p lv t' l rest (rfl : parts = _)
    exact Atlas.contains_of_choose hg.literal hop hoth hp hc

theorem Ready.of_branch_tameSeq {place : Place} {again : Bool} {d : Decision}
    (hd : ∀ alt ∈ d.alternatives, tameSeq alt = true)
    (h : s.branch a input place again parts d = (t, .ok rest)) : Ready input rest t := by
  obtain ⟨alt, u, hc, rfl⟩ := Session.branch_eq_ok h
  cases hp : d.alternatives[alt - 1]? with
  | none => exact .of_tameSeq rfl
  | some parts => exact .of_tameSeq (hd _ (List.mem_of_getElem? hp))

theorem reads_expect {p : Place} {ks : KindSet} {single : Bool} {label : Option Label} {n : Nat}
    (h : ∀ t, Session.Reads input s t → Session.Reads input t (run a input n rest t).1) :
    Session.Reads input s (match s.expect a.grammar input p ks single label rest with
      | (s, none) => run a input n rest s
      | (s, some f) => (s, some f)).1 := by
  have he : Session.Reads input s _ := .expect a.grammar p ks single label rest s
  split <;> rename_i hu <;> rw [hu] at he
  · exact he.trans (h _ he)
  · exact he

theorem reads_turn {o : Turn} {n : Nat} (ho : Session.Reads input s o.1)
    (h : ∀ t parts, o = (t, .ok parts) → Session.Reads input s t →
      Session.Reads input t (run a input n parts t).1) :
    Session.Reads input s (match o with
      | (s, .ok parts) => run a input n parts s
      | (s, .error f) => (s, some f)).1 := by
  split
  · exact ho.trans (h _ _ rfl ho)
  · exact ho

theorem literalKinds_not_eof : literalKinds.contains .eof = false := by decide

/-- A literal is read as one token, once it has been looked at. -/
theorem run_literal (hg : a.grammar.Tame) (n : Nat)
    (hk : literalKinds.contains (input.kind s.pos) = true) :
    Session.Reads input s (run a input n (a.grammar.body .literalValue) s).1 ∧
      (Session.mend a.grammar input
        (run a input n (a.grammar.body .literalValue) s)).PastLiteral input s.pos := by
  obtain ⟨q, hb⟩ := hg.literal.body
  rw [hb]
  cases n with
  | zero => exact ⟨.refl s, hk, .inl rfl⟩
  | succ n =>
    have he : s.expect a.grammar input q literalKinds false none [] =
        ({ s with place := q }.settle.consume input, none) := by
      unfold Session.expect
      exact if_pos hk
    have hr : run a input (n + 1) [.oneOf q literalKinds none] s =
        ({ s with place := q }.settle.consume input, none) := by
      simp only [run, he]
    have hne : input.kind s.pos ≠ .eof := by
      intro heof
      rw [heof, literalKinds_not_eof] at hk
      cases hk
    rw [hr]
    refine ⟨(Session.Reads.at_place q s).trans ((Session.Reads.settle _).trans (.consume _)), ?_⟩
    exact ⟨hk, .inr (if_neg hne)⟩

theorem reads_operators {p : Place} {again : Bool} {block : List (List Part)} {n : Nat}
    (hblock : tameBlock block = true) (hrest : tameSeq rest = true)
    (hrule : s.draft.rule ≠ .literalValue)
    (h : ∀ {parts : List Part} {t : Session}, t.draft.rule ≠ .literalValue →
      Ready input parts t → Session.Reads input t (run a input n parts t).1) :
    Session.Reads input s (run a input (n + 1) (.operators p again block :: rest) s).1 := by
  have hnext : tameSeq (.operators p true block :: rest) = true := by
    simp [Part.tame, hblock, hrest]
  simp only [run]
  have hs : Session.Reads input s _ := .sync a.grammar (if again then p + 1 else p) again
    (.operators p again block :: rest) s
  split <;> rename_i hu <;> rw [hu] at hs
  · exact hs
  refine hs.trans ?_
  rename_i u
  generalize ho : u.pick a input _ = o
  have hpick : Session.Reads input u o.1 := ho ▸ .pick a _ u
  split
  · exact hpick
  · refine hpick.trans ?_
    rename_i v
    have hv : Session.Reads input v { v with events := .exit v.draft.rule :: v.events } :=
      .quiet rfl rfl rfl rfl
    refine hv.trans ?_
    generalize hb : Session.branch a input _ _ _ _ _ = o
    have hbranch := hb ▸ Session.Reads.branch ..
    split
    · exact hbranch
    · rename_i t chosen
      have ht : t.draft.rule ≠ .literalValue := by
        rw [((hs.trans hpick).trans (hv.trans hbranch)).rule]
        exact hrule
      have hready : Ready input chosen t := by
        refine .of_branch_tameSeq (fun alt halt ↦ ?_) hb
        obtain ⟨seq, hseq, rfl⟩ := List.mem_map.1 halt
        rw [tameSeq_append, tameBlock_iff.1 hblock seq hseq, hnext, Bool.true_and]
      exact hbranch.trans ((Session.Reads.wrap t ht).trans (h ht ⟨hready.1, hready.2⟩))
  · exact hpick.trans (h ((hs.trans hpick).rule ▸ hrule) (.of_tameSeq hrest))

/-- Whatever a rule other than that of literals reads, it reads as the steps say. -/
theorem run_reads (hg : a.grammar.Tame) (n : Nat) (hrule : s.draft.rule ≠ .literalValue)
    (h : Ready input parts s) : Session.Reads input s (run a input n parts s).1 := by
  induction n generalizing parts s with
  | zero => cases parts <;> exact .refl s
  | succ n ih =>
    -- A tame sequence can be read on from every state that the node has reached.
    have hon : ∀ {rest : List Part} {t : Session}, tameSeq rest = true → Session.Reads input s t →
        Session.Reads input t (run a input n rest t).1 :=
      fun hr ht ↦ ih (ht.rule ▸ hrule) (.of_tameSeq hr)
    rcases parts with - | ⟨part, rest⟩
    · exact .refl s
    cases part with
    | token p k label =>
      have hr : tameSeq rest = true := by simpa [tameAlt, Part.tame] using h.tame
      exact reads_expect fun t ht ↦ hon hr ht
    | oneOf p ks label =>
      have hr : tameSeq rest = true := by simpa [tameAlt, Part.tame] using h.tame
      exact reads_expect fun t ht ↦ hon hr ht
    | call p r level tail label =>
      have hr : tameSeq rest = true := by simpa [tameAlt] using h.tame
      have hp : Session.Reads input s { s with place := p } := .at_place p s
      have hcall : Session.Reads input { s with place := p } (Session.leave s label
          (Session.mend a.grammar input (run a input n (a.grammar.body r)
            (Session.enter r ⟨p, rest, level, tail⟩ { s with place := p })))) := by
        by_cases hl : r = .literalValue
        · subst hl
          have hk := h.literal p level tail label rest rfl
          obtain ⟨hread, hpast⟩ := run_literal (s := Session.enter .literalValue
            ⟨p, rest, level, tail⟩ { s with place := p }) hg n hk
          exact .call _ _ label (hread.trans (.mend _ _)) fun _ ↦ hpast
        · exact .call _ _ label ((ih hl (.of_tameSeq (hg.body r))).trans (.mend _ _))
            fun he ↦ absurd he hl
      exact (hp.trans hcall).trans (hon hr (hp.trans hcall))
    | guard p level =>
      have hr : tameSeq rest = true := by simpa [tameAlt, Part.tame] using h.tame
      have hp : Session.Reads input s { s with place := p } := .at_place p s
      simp only [run]
      split
      · exact hp.trans (hon hr hp)
      · exact hp
    | choice p block =>
      have hr : tameChoice block = true ∧ tameSeq rest = true := by
        simpa [tameAlt, Part.tame] using h.tame
      refine reads_turn (.branch ..) fun t parts ho ht ↦
        ih (ht.rule ▸ hrule) (.of_branch hg (fun alt halt ↦ ?_) rfl rfl ho)
      obtain ⟨seq, hseq, rfl⟩ := List.mem_map.1 halt
      exact tameAlt_append (tameChoice_iff.1 hr.1 seq hseq) hr.2
    | option p block =>
      have hr : tameBlock block = true ∧ tameSeq rest = true := by
        simpa [tameAlt, Part.tame] using h.tame
      refine reads_turn (.branch ..) fun t parts ho ht ↦
        ih (ht.rule ▸ hrule) (.of_branch_tameSeq (fun alt halt ↦ ?_) ho)
      rcases List.mem_append.1 halt with halt | halt
      · obtain ⟨seq, hseq, rfl⟩ := List.mem_map.1 halt
        rw [tameSeq_append, tameBlock_iff.1 hr.1 seq hseq, hr.2, Bool.true_and]
      · rw [List.mem_singleton.1 halt, hr.2]
    | loop p shape again body =>
      have hr : tameSeq body = true ∧ tameSeq rest = true := by
        simpa [tameAlt, Part.tame] using h.tame
      have hround : tameSeq (body ++ .loop p shape true body :: rest) = true := by
        simp [Part.tame, hr.1, hr.2]
      simp only [run]
      split
      · have hs : Session.Reads input s _ :=
          .sync a.grammar p false (.loop p shape again body :: rest) s
        split <;> rename_i hu <;> rw [hu] at hs
        · exact hs
        · exact hs.trans (hon hround hs)
      · refine reads_turn (.branch ..) fun t parts ho ht ↦
          ih (ht.rule ▸ hrule) (.of_branch_tameSeq (fun alt halt ↦ ?_) ho)
        dsimp only at halt
        split at halt <;> simp only [List.mem_cons, List.not_mem_nil, or_false] at halt <;>
          rcases halt with rfl | rfl <;> first | exact hround | exact hr.2
    | operators p again block =>
      have hr : tameBlock block = true ∧ tameSeq rest = true := by
        simpa [tameAlt, Part.tame] using h.tame
      exact reads_operators hr.1 hr.2 hrule fun hrule hready ↦ ih hrule hready

/-- The tree of a parse is read step by step. -/
theorem parseKinds_reads (hg : a.grammar.Tame) {rule : Rule} (hrule : rule ≠ .literalValue)
    (input : Input) :
    ∃ t, Session.Reads input { draft := { rule, start := 0 }, events := [.enter rule] } t ∧
      (parseKinds a rule input).tree = t.draft.close t.previous :=
  ⟨_, (run_reads hg (steps input.size) hrule (.of_tameSeq (hg.body rule))).trans (.mend _ _), rfl⟩

end Run

end PlanCache
