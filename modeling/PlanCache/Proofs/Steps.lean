import PlanCache.Proofs.CleanRuns
import PlanCache.Proofs.Reading

/-!
A run as a sequence of steps. Reading one part breaks the rule off, goes on with a sequence, calls a
rule, or makes the open node the left operand of an operator. What each of these does is said once
here.
-/

namespace PlanCache

/-- What the reading of one part comes to. -/
inductive Advance where
  /-- The rule is broken off. -/
  | fail (s : Session) (f : Fault)
  /-- A sequence is read next. -/
  | go (s : Session) (parts : List Part)
  | call (site : Site) (rule : Rule) (label : Option Label)
  /-- The open node is the left operand of the operator of this number, counted from 0, whose
  sequence is read next. -/
  | operator (s : Session) (number : Nat) (parts : List Part)

namespace Advance

/-- A token is read before `rest`. -/
def ofExpect (rest : List Part) : Session × Option Fault → Advance
  | (s, none) => .go s rest
  | (s, some f) => .fail s f

def ofTurn : Turn → Advance
  | (s, .ok parts) => .go s parts
  | (s, .error f) => .fail s f

end Advance

namespace Session

/-- Chooses an operator that `next` follows. -/
def stepOperator (a : Atlas) (input : Input) (p : Place) (block : List (List Part))
    (next : List Part) (s : Session) : Advance :=
  let alternatives := block.map (· ++ next)
  match s.sync a.grammar input p false (.choice p block :: next) with
  | (t, some f) => .fail t f
  | (t, none) => match t.pick a input { rule := s.draft.rule, alternatives } with
    | (u, .error f) => .fail u f
    | (u, .ok n) => .operator u (n - 1) ((alternatives[n - 1]?).getD [])

/-- Decides at operators, once the next token has been checked, whether to go on with one. -/
def stepOperators (a : Atlas) (input : Input) (p : Place) (block : List (List Part))
    (rest : List Part) (s : Session) : Advance :=
  let next := Part.operators p true block :: rest
  match s.pick a input
      { rule := s.draft.rule
        alternatives := [.choice (p + 2) block :: next, rest]
        onOperators := true } with
  | (s, .error f) => .fail s f
  | (s, .ok 1) =>
    { s with events := .exit s.draft.rule :: s.events }.stepOperator a input (p + 2) block next
  | (s, .ok _) => .go s rest

/-- Reads one part before `rest`. -/
def step (a : Atlas) (input : Input) (part : Part) (rest : List Part) (s : Session) : Advance :=
  match part with
  | .token p k label => .ofExpect rest (s.expect a.grammar input p (.single k) true label rest)
  | .oneOf p ks label => .ofExpect rest (s.expect a.grammar input p ks false label rest)
  | .call p r level tail label => .call ⟨p, rest, level, tail⟩ r label
  | .guard p level =>
    if s.level ≤ level then .go { s with place := p } rest
    else .fail { s with place := p } (.level level)
  | .choice p block =>
    .ofTurn (s.branch a input p false (part :: rest)
      { rule := s.draft.rule, alternatives := block.map (· ++ rest) })
  | .option p block =>
    .ofTurn (s.branch a input p false (part :: rest)
      { rule := s.draft.rule
        alternatives := block.map (· ++ rest) ++ [rest]
        otherwise := some (block.length + 1) })
  | .loop p shape again body =>
    let round := body ++ .loop p shape true body :: rest
    if shape.nonempty && !again then
      .ofExpect round (s.sync a.grammar input p false (part :: rest))
    else
      .ofTurn (s.branch a input (if again then p + 1 else p) again (part :: rest)
        { rule := s.draft.rule
          alternatives := if shape.greedy then [round, rest] else [rest, round]
          greedy := shape.greedy
          otherwise := some 2 })
  | .operators p again block =>
    match s.sync a.grammar input (if again then p + 1 else p) again (part :: rest) with
    | (s, some f) => .fail s f
    | (s, none) => s.stepOperators a input p block rest

/-- The state in which the rule at a site is begun. -/
def entering (site : Site) (r : Rule) (s : Session) : Session :=
  Session.enter r site { s with place := site.place }

/-- The state after the rule at a site has been read in at most `n` steps. -/
def called (a : Atlas) (input : Input) (n : Nat) (site : Site) (r : Rule) (s : Session) : Session :=
  Session.mend a.grammar input (run a input n (a.grammar.body r) (s.entering site r))

end Session

section Run

open Session

variable {a : Atlas} {input : Input} {n : Nat} {part : Part} {parts rest : List Part} {s t : Session}

/-- A run goes on as its first step says. -/
def Advance.proceed (a : Atlas) (input : Input) (n : Nat) (rest : List Part) (s : Session) :
    Advance → Session × Option Fault
  | .fail t f => (t, some f)
  | .go t parts => run a input n parts t
  | .call site r label => run a input n rest (Session.leave s label (s.called a input n site r))
  | .operator t _ parts => run a input n parts t.wrap

theorem proceed_ofExpect (o : Session × Option Fault) (parts rest : List Part) :
    (Advance.ofExpect parts o).proceed a input n rest s = match o with
      | (t, none) => run a input n parts t
      | (t, some f) => (t, some f) := by
  obtain ⟨t, f⟩ := o
  cases f <;> rfl

theorem proceed_ofTurn (o : Turn) :
    (Advance.ofTurn o).proceed a input n rest s = match o with
      | (t, .ok parts) => run a input n parts t
      | (t, .error f) => (t, some f) := by
  obtain ⟨t, e⟩ := o
  cases e <;> rfl

theorem proceed_stepOperator (p : Place) (block : List (List Part)) (next : List Part) :
    (s.stepOperator a input p block next).proceed a input n rest t =
      match s.branch a input p false (.choice p block :: next)
          { rule := s.draft.rule, alternatives := block.map (· ++ next) } with
      | (u, .error f) => (u, some f)
      | (u, .ok parts) => run a input n parts u.wrap := by
  unfold stepOperator branch
  dsimp only
  generalize s.sync a.grammar input p false _ = o
  obtain ⟨u, f⟩ := o
  cases f with
  | some f => rfl
  | none =>
    dsimp only
    generalize u.pick a input _ = o
    obtain ⟨v, e⟩ := o
    cases e <;> rfl

theorem proceed_stepOperators (p : Place) (block : List (List Part)) :
    (s.stepOperators a input p block rest).proceed a input n rest t =
      s.operate a input n p block rest := by
  unfold stepOperators operate
  dsimp only
  generalize s.pick a input _ = o
  obtain ⟨u, f | number⟩ := o
  · rfl
  · rcases number with - | - | number
    · rfl
    · exact proceed_stepOperator _ block _
    · rfl

theorem run_succ (a : Atlas) (input : Input) (n : Nat) (part : Part) (rest : List Part)
    (s : Session) :
    run a input (n + 1) (part :: rest) s =
      (s.step a input part rest).proceed a input n rest s := by
  cases part with
  | token p k label => exact (proceed_ofExpect _ rest rest).symm
  | oneOf p ks label => exact (proceed_ofExpect _ rest rest).symm
  | call p r level tail label => rfl
  | guard p level =>
    simp only [run, step]
    split <;> rfl
  | choice p block => exact (proceed_ofTurn _).symm
  | option p block => exact (proceed_ofTurn _).symm
  | loop p shape again body =>
    simp only [run, step]
    split
    · generalize s.sync a.grammar input p false _ = o
      obtain ⟨t, f⟩ := o
      cases f <;> rfl
    · exact (proceed_ofTurn _).symm
  | operators p again block =>
    rw [run_operators, step]
    generalize s.sync a.grammar input _ again _ = o
    obtain ⟨t, f⟩ := o
    cases f with
    | some f => rfl
    | none => exact (proceed_stepOperators p block).symm

end Run

/-- Only tokens have been added to the open node. -/
structure Session.Gains (s t : Session) : Prop where
  level : t.level = s.level
  rule : t.draft.rule = s.draft.rule
  children : ∃ leaves : List (Leaf × Bool),
    t.draft.children = leaves.map (fun l ↦ .leaf l.1 l.2) ++ s.draft.children

namespace Session.Gains

variable {input : Input} {s t u : Session}

theorem of_eq (hlevel : t.level = s.level) (hdraft : t.draft = s.draft) : Gains s t :=
  ⟨hlevel, by rw [hdraft], [], by rw [hdraft]; rfl⟩

theorem trans (h : Gains s t) (h' : Gains t u) : Gains s u := by
  obtain ⟨ls, hls⟩ := h.children
  obtain ⟨ls', hls'⟩ := h'.children
  refine ⟨h'.level.trans h.level, h'.rule.trans h.rule, ls' ++ ls, ?_⟩
  rw [hls', hls, List.map_append, List.append_assoc]

theorem of_takes (h : Takes input s t) : Gains s t := by
  induction h with
  | trans _ _ ih₁ ih₂ => exact ih₁.trans ih₂
  | quiet h hlevel => exact ⟨hlevel, h.rule, [], h.children⟩
  | settle => exact .of_eq rfl rfl
  | report s r =>
    unfold Session.report
    split <;> exact .of_eq rfl rfl
  | fault s f =>
    unfold reportFault Session.report
    repeat' split
    all_goals exact .of_eq rfl rfl
  | consume s => exact ⟨rfl, rfl, [(.read s.pos, s.recovering)], rfl⟩
  | supply s k => exact ⟨rfl, rfl, [(.missing k, true)], rfl⟩

end Session.Gains

/-- What can be read after a part without a node. -/
inductive Part.Next : Part → List Part → List Part → Prop where
  | token (p : Place) (k : Kind) (label : Option Label) (rest : List Part) :
      Next (.token p k label) rest rest
  | oneOf (p : Place) (ks : KindSet) (label : Option Label) (rest : List Part) :
      Next (.oneOf p ks label) rest rest
  | guard (p : Place) (level : Nat) (rest : List Part) : Next (.guard p level) rest rest
  | choice (p : Place) {block : List (List Part)} {seq : List Part} (h : seq ∈ block)
      (rest : List Part) : Next (.choice p block) rest (seq ++ rest)
  | option (p : Place) {block : List (List Part)} {seq : List Part} (h : seq ∈ block)
      (rest : List Part) : Next (.option p block) rest (seq ++ rest)
  | skip (p : Place) (block : List (List Part)) (rest : List Part) :
      Next (.option p block) rest rest
  | round (p : Place) (shape : Loop) (again : Bool) (body rest : List Part) :
      Next (.loop p shape again body) rest (body ++ .loop p shape true body :: rest)
  | leave (p : Place) (shape : Loop) (again : Bool) (body rest : List Part) :
      Next (.loop p shape again body) rest rest
  | last (p : Place) (again : Bool) (block : List (List Part)) (rest : List Part) :
      Next (.operators p again block) rest rest

/-- Whether a part lets operators of `least` or tighter pass. -/
def Part.admitted (least : Nat) : Part → Bool
  | .guard _ level => decide (least ≤ level)
  | _ => true

def Part.isToken : Part → Bool
  | .token _ _ _ => true
  | _ => false

namespace Session

variable {a : Atlas} {input : Input} {part : Part} {parts rest : List Part} {s t : Session}

/-- A token that is read or supplied is a child. -/
theorem expect_children_ne_nil {g : Grammar} {place : Place} {kinds : KindSet}
    {label : Option Label} (h : s.expect g input place kinds true label rest = (t, none)) :
    t.draft.children ≠ [] := by
  have hmark : ∀ (d : Draft) (tree : Tree), ((d.push tree).markLast label).children ≠ [] := by
    intro d tree
    cases label <;> exact List.cons_ne_nil _ _
  unfold expect at h
  dsimp only at h
  split at h
  · obtain ⟨rfl, -⟩ := Prod.mk.inj h
    exact hmark _ _
  · rw [if_pos rfl] at h
    split at h
    · obtain ⟨rfl, -⟩ := Prod.mk.inj h
      exact hmark _ _
    · split at h
      · obtain ⟨rfl, -⟩ := Prod.mk.inj h
        exact hmark _ _
      · cases h

theorem branch_mem {place : Place} {again : Bool} {d : Decision}
    (hother : ∀ n, d.otherwise = some n → ∃ seq, d.alternatives[n - 1]? = some seq)
    (h : s.branch a input place again parts d = (t, .ok rest)) : rest ∈ d.alternatives := by
  obtain ⟨alt, u, hv, rfl⟩ := branch_eq_ok h
  obtain ⟨seq, hseq⟩ := Atlas.getElem?_of_choose hother hv
  rw [hseq]
  exact List.mem_of_getElem? hseq

theorem getElem?_of_pick {d : Decision} {n : Nat}
    (hother : ∀ n, d.otherwise = some n → ∃ seq, d.alternatives[n - 1]? = some seq)
    (h : s.pick a input d = (t, .ok n)) : ∃ seq, d.alternatives[n - 1]? = some seq := by
  obtain ⟨u, -, ⟨f, -, hpick⟩ | ⟨m, seq, hpick, hseq⟩⟩ := pick_cases a input s hother
  · rw [hpick] at h
    cases h
  · rw [hpick] at h
    cases h
    exact ⟨seq, hseq⟩

end Session

/-- All that a step can do at `part` before `rest`. -/
inductive Advance.Does (part : Part) (rest : List Part) (s : Session) : Advance → Prop where
  | fail {t : Session} (f : Fault) (gains : s.Gains t)
      (refused : part.admitted s.level = false → t.draft.children = s.draft.children) :
      Does part rest s (.fail t f)
  | go {t : Session} {parts : List Part} (gains : s.Gains t) (next : part.Next rest parts)
      (admitted : part.admitted s.level = true)
      (filled : part.isToken = true → t.draft.children ≠ []) : Does part rest s (.go t parts)
  | call {p : Place} {r : Rule} {level : Nat} {tail : Bool} {label : Option Label}
      (hpart : part = .call p r level tail label) :
      Does part rest s (.call ⟨p, rest, level, tail⟩ r label)
  | operator {t : Session} {p : Place} {again : Bool} {block : List (List Part)} {seq : List Part}
      {number : Nat} (gains : s.Gains t) (hpart : part = .operators p again block)
      (hseq : block[number]? = some seq) :
      Does part rest s (.operator t number (seq ++ .operators p true block :: rest))

namespace Advance.Does

open Session

variable {a : Atlas} {input : Input} {part : Part} {parts rest : List Part} {s t : Session}

/-- A part other than one that is not admitted may add tokens before it fails. -/
theorem failed (f : Fault) (gains : s.Gains t) (admitted : part.admitted s.level = true) :
    Does part rest s (.fail t f) := .fail f gains (by simp [admitted])

theorem ofExpect {o : Session × Option Fault} (ho : Takes input s o.1)
    (next : part.Next rest parts) (admitted : part.admitted s.level = true)
    (filled : o.2 = none → part.isToken = true → o.1.draft.children ≠ []) :
    Does part rest s (.ofExpect parts o) := by
  obtain ⟨t, f⟩ := o
  cases f with
  | none => exact .go (.of_takes ho) next admitted (filled rfl)
  | some f => exact .failed f (.of_takes ho) admitted

theorem ofBranch {place : Place} {again : Bool} {d : Decision}
    (hother : ∀ n, d.otherwise = some n → ∃ seq, d.alternatives[n - 1]? = some seq)
    (hnext : ∀ seq ∈ d.alternatives, part.Next rest seq) (admitted : part.admitted s.level = true)
    (htoken : part.isToken = false) :
    Does part rest s (.ofTurn (s.branch a input place again parts d)) := by
  have hbranch : Takes input s _ := .branch a place again parts d s
  generalize ho : s.branch a input place again parts d = o at hbranch
  obtain ⟨t, f | seq⟩ := o
  · exact .failed f (.of_takes hbranch) admitted
  · exact .go (.of_takes hbranch) (hnext seq (branch_mem hother ho)) admitted (by simp [htoken])

theorem stepOperator (h : s.Gains t) {p q : Place} {again : Bool} {block : List (List Part)} :
    Does (.operators p again block) rest s
      (t.stepOperator a input q block (.operators p true block :: rest)) := by
  unfold Session.stepOperator
  dsimp only
  have hsync : Takes input t _ :=
    .sync a.grammar q false (.choice q block :: .operators p true block :: rest) t
  generalize t.sync a.grammar input q false _ = o at hsync
  obtain ⟨u, f⟩ := o
  cases f with
  | some f => exact .failed f (h.trans (.of_takes hsync)) rfl
  | none =>
    dsimp only
    generalize hd : ({ rule := t.draft.rule
                       alternatives := block.map (· ++ .operators p true block :: rest) } :
      Decision) = d
    have halternatives : block.map (· ++ .operators p true block :: rest) = d.alternatives := by
      rw [← hd]
    have hother : d.otherwise = none := by rw [← hd]
    have hpick : Takes input u _ := .pick a d u
    generalize ho : u.pick a input d = o at hpick
    obtain ⟨v, f | n⟩ := o
    · exact .failed f (h.trans (.of_takes (hsync.trans hpick))) rfl
    · obtain ⟨seq, hseq⟩ := getElem?_of_pick (by simp [hother]) ho
      rw [← halternatives, List.getElem?_map, Option.map_eq_some_iff] at hseq
      obtain ⟨seq, hseq, rfl⟩ := hseq
      dsimp only
      rw [List.getElem?_map, hseq]
      exact .operator (h.trans (.of_takes (hsync.trans hpick))) rfl hseq

theorem stepOperators (h : s.Gains t) {p : Place} {again : Bool} {block : List (List Part)} :
    Does (.operators p again block) rest s (t.stepOperators a input p block rest) := by
  unfold Session.stepOperators
  dsimp only
  generalize Decision.mk _ _ _ _ _ = d
  have hpick : Takes input t _ := .pick a d t
  generalize t.pick a input d = o at hpick
  obtain ⟨u, f | n⟩ := o
  · exact .failed f (h.trans (.of_takes hpick)) rfl
  have hgains : s.Gains u := h.trans (.of_takes hpick)
  rcases n with - | - | n
  · exact .go hgains (.last p again block rest) rfl (by simp [Part.isToken])
  · have hexit : u.Gains { u with events := .exit u.draft.rule :: u.events } := .of_eq rfl rfl
    exact stepOperator (hgains.trans hexit)
  · exact .go hgains (.last p again block rest) rfl (by simp [Part.isToken])

end Advance.Does

theorem Session.step_does (a : Atlas) (input : Input) (part : Part) (rest : List Part)
    (s : Session) : Advance.Does part rest s (s.step a input part rest) := by
  cases part with
  | token p k label =>
    refine .ofExpect (.expect ..) (.token p k label rest) rfl fun hnone _ ↦ ?_
    exact expect_children_ne_nil (Prod.ext rfl hnone)
  | oneOf p ks label =>
    exact .ofExpect (.expect ..) (.oneOf p ks label rest) rfl (by simp [Part.isToken])
  | call p r level tail label => exact .call rfl
  | guard p level =>
    unfold step
    dsimp only
    split
    · rename_i hlevel
      exact .go (.of_eq rfl rfl) (.guard p level rest) (decide_eq_true hlevel)
        (by simp [Part.isToken])
    · exact .fail _ (.of_eq rfl rfl) fun _ ↦ rfl
  | choice p block =>
    refine .ofBranch (by simp) (fun seq hseq ↦ ?_) rfl rfl
    obtain ⟨seq, hmem, rfl⟩ := List.mem_map.1 hseq
    exact .choice p hmem rest
  | option p block =>
    refine .ofBranch (by simp) (fun seq hseq ↦ ?_) rfl rfl
    rcases List.mem_append.1 hseq with hseq | hseq
    · obtain ⟨seq, hmem, rfl⟩ := List.mem_map.1 hseq
      exact .option p hmem rest
    · rw [List.mem_singleton.1 hseq]
      exact .skip p block rest
  | loop p shape again body =>
    have hround : (Part.loop p shape again body).Next rest
        (body ++ .loop p shape true body :: rest) := .round p shape again body rest
    have hleave : (Part.loop p shape again body).Next rest rest := .leave p shape again body rest
    unfold step
    dsimp only
    split
    · exact .ofExpect (.sync ..) hround rfl (by simp [Part.isToken])
    · refine .ofBranch ?_ ?_ rfl rfl
      · intro n hn
        obtain rfl : 2 = n := Option.some.inj hn
        dsimp only
        split <;> exact ⟨_, rfl⟩
      · dsimp only
        split <;> simp [hround, hleave]
  | operators p again block =>
    unfold step
    dsimp only
    have hsync : Takes input s _ := .sync a.grammar (if again then p + 1 else p) again
      (.operators p again block :: rest) s
    generalize s.sync a.grammar input _ again _ = o at hsync
    obtain ⟨t, f⟩ := o
    cases f with
    | some f => exact .failed f (.of_takes hsync) rfl
    | none => exact .stepOperators (.of_takes hsync)

end PlanCache
