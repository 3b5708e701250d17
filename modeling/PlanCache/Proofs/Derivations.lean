import PlanCache.Proofs.CleanRuns
import PlanCache.Proofs.Frontier
import PlanCache.Proofs.RightHandSides
import PlanCache.Proofs.Strides

/-!
A parse without a report is a derivation: below each node of its tree stands a word of the node's
rule, and every leaf is a token that was expected. The state of such a parse is completed to a word
by whatever is left to read, and the steps last until all has been read.
-/

namespace PlanCache

namespace Tree

/-- A child by its kind of token or its rule. -/
def symbol (input : Input) : Tree → Symbol
  | .leaf (.read i) _ => .kind (input.kind i)
  | .leaf (.missing k) _ => .kind k
  | .node h _ => .rule h.rule

/-- Below each node stands a word of its rule, and every leaf is a token that was expected. -/
structure Derived (input : Input) (t : Tree) : Prop where
  nodes : ∀ x ∈ t.nodes, x.2.map (symbol input) ∈ x.1.rule.words
  leaves : ∀ x ∈ t.leaves, x.2 = false ∧ ∃ i, x.1 = .read i

variable {input : Input}

theorem derived_read (i : Nat) : (leaf (.read i) false).Derived input where
  nodes x hx := by cases hx
  leaves x hx := by
    rw [leaves, List.mem_singleton] at hx
    rw [hx]
    exact ⟨rfl, i, rfl⟩

theorem derived_node {h : Head} {ts : List Tree} (hw : ts.map (symbol input) ∈ h.rule.words)
    (hts : ∀ t ∈ ts, t.Derived input) : (node h ts).Derived input where
  nodes x hx := by
    rw [nodes, List.mem_cons] at hx
    rcases hx with rfl | hx
    · exact hw
    · obtain ⟨t, ht, hx⟩ := mem_nodesAll.1 hx
      exact (hts t ht).nodes x hx
  leaves x hx := by
    rw [leaves] at hx
    obtain ⟨t, ht, hx⟩ := mem_leavesAll.1 hx
    exact (hts t ht).leaves x hx

end Tree

/-- Operators stand only at the end of a sequence of `r`, and are those of `r`. -/
def Shaped (r : Rule) : List Part → Prop
  | [] => True
  | .operators _ _ block :: rest => rest = [] ∧ (∀ s ∈ block, plainSeq s = true ∧
      skipsSeq s = false) ∧ wordsBlock block ≤ wordsBlock r.production.operators
  | p :: rest => p.plain = true ∧ Shaped r rest

theorem Shaped.append {r : Rule} {ps rest : List Part} (hp : plainSeq ps = true)
    (h : Shaped r rest) : Shaped r (ps ++ rest) := by
  induction ps with
  | nil => exact h
  | cons p ps ih =>
    rw [plainSeq, Bool.and_eq_true] at hp
    cases p with
    | operators => cases hp.1
    | _ => exact ⟨hp.1, ih hp.2⟩

theorem Rule.shaped_body (r : Rule) : Shaped r r.body := by
  have hlead : plainSeq r.lead = true := by cases r <;> rfl
  have hlast : (r.body.getLast?.all fun
      | .operators _ _ block => block.all fun s ↦ plainSeq s && !skipsSeq s
      | _ => true) = true := by cases r <;> rfl
  obtain h | ⟨p, block, h, hwords⟩ := r.body_cases
  · rw [h, ← List.append_nil r.lead]
    exact Shaped.append hlead trivial
  · rw [h] at hlast ⊢
    rw [List.getLast?_concat, Option.all_some, List.all_eq_true] at hlast
    refine Shaped.append hlead ⟨rfl, fun s hs ↦ ?_, le_of_eq hwords⟩
    simpa using hlast s hs

/-- What is needed of a grammar for its clean runs to be derivations. -/
structure Grammar.Sound (g : Grammar) (ranks : Rule → Nat) : Prop where
  words (r : Rule) : wordsSeq (g.body r) ≤ r.words
  shaped (r : Rule) : Shaped r (g.body r)
  paced : g.Paced ranks 4096

theorem Grammar.sql_sound : Grammar.sql.Sound (Rule.rank 6) where
  words r := by
    rw [sql, body_ofBodies]
    exact r.wordsSeq_body_le
  shaped r := by
    rw [sql, body_ofBodies]
    exact r.shaped_body
  paced := sql_paced

namespace Session

variable {input : Input} {s t : Session} {ps qs : List Part}

/-- The children of the open node, from left to right. -/
def symbols (input : Input) (s : Session) : List Symbol :=
  s.draft.children.reverse.map (Tree.symbol input)

/-- Whatever word of `ps` is read next, it completes the open node. -/
structure Fits (input : Input) (s : Session) (ps : List Part) : Prop where
  recovering : s.recovering = false
  derived : ∀ t ∈ s.draft.children, t.Derived input
  words : ∀ w ∈ wordsSeq ps, s.symbols input ++ w ∈ s.draft.rule.words
  shaped : Shaped s.draft.rule ps

namespace Fits

theorem quiet (h : s.Fits input ps) (hq : Quiet s t) (hw : wordsSeq qs ≤ wordsSeq ps)
    (hs : Shaped s.draft.rule qs) : t.Fits input qs where
  recovering := hq.recovering.trans h.recovering
  derived := by
    rw [hq.children]
    exact h.derived
  words w hw' := by
    rw [symbols, hq.children, hq.rule]
    exact h.words w (hw hw')
  shaped := by
    rw [hq.rule]
    exact hs

/-- A child that is the first symbol of what is left. -/
theorem push {p : Part} {rest : List Part} (h : s.Fits input (p :: rest)) {tree : Tree}
    (htree : tree.Derived input) (hp : [tree.symbol input] ∈ p.words)
    (hrec : t.recovering = false) (hrule : t.draft.rule = s.draft.rule)
    (hchildren : t.draft.children = tree :: s.draft.children) (hs : Shaped s.draft.rule rest) :
    t.Fits input rest where
  recovering := hrec
  derived u hu := by
    rw [hchildren, List.mem_cons] at hu
    rcases hu with rfl | hu
    · exact htree
    · exact h.derived u hu
  words w hw := by
    have hword := h.words _ (by rw [wordsSeq_cons]; exact Language.append_mem_mul hp hw)
    rw [symbols, hchildren, hrule, List.reverse_cons, List.map_append, List.append_assoc]
    exact hword
  shaped := by
    rw [hrule]
    exact hs

/-- A node that has been read to its end. -/
theorem close (h : s.Fits input []) (stop : Option Nat) : (s.draft.close stop).Derived input := by
  have hword := h.words [] (by rw [wordsSeq_nil]; exact Language.nil_mem_one)
  rw [List.append_nil] at hword
  exact Tree.derived_node hword fun u hu ↦ h.derived u (List.mem_reverse.1 hu)

theorem wrap {p : Place} {again : Bool} {block : List (List Part)} {parts : List Part}
    (h : s.Fits input [.operators p again block]) (hparts : parts ∈ block) :
    s.wrap.Fits input (parts ++ [.operators p true block]) := by
  obtain ⟨-, hblock, hwords⟩ := h.shaped
  have hclose : s.Fits input [] :=
    h.quiet (.refl s) (by rw [wordsSeq_cons, Part.words, one_mul]) trivial
  refine ⟨h.recovering, ?_, fun w hw ↦ ?_, ?_⟩
  · intro u hu
    rw [List.mem_singleton.1 hu]
    exact hclose.close s.previous
  · rw [wordsSeq_append, wordsSeq_cons, Part.words, wordsSeq_nil, mul_one, mul_one] at hw
    have hword : w ∈ wordsBlock s.draft.rule.production.operators :=
      hwords (wordsSeq_le_wordsBlock hparts hw)
    exact (Language.mem_add _ _ _).2
      (.inr (Language.append_mem_mul (Set.mem_singleton [Symbol.rule s.draft.rule]) hword))
  · exact Shaped.append (hblock parts hparts).1 ⟨rfl, hblock, hwords⟩

end Fits

/-- A sequence has been read to its end, and past a token if it cannot be skipped. -/
structure Completes (input : Input) (ps : List Part) (s : Session) (o : Session × Option Fault) :
    Prop where
  whole : o.2 = none
  fits : o.1.Fits input []
  pos : skipsSeq ps = false → s.pos < o.1.pos

end Session

section Run

open Session

variable {a : Atlas} {input : Input} {ranks : Rule → Nat} {p : Part} {ps qs rest : List Part}
  {s t : Session} {n : Nat}

/-- Steps that are enough for a sequence, by the tokens that are left. -/
def Enough (input : Input) (ranks : Rule → Nat) (n : Nat) (ps : List Part) (pos : Nat) : Prop :=
  topSeq ranks ps ≤ 4096 ∧ 4096 * (input.size - pos) + rankSeq ranks ps ≤ n

namespace Enough

theorem nearer (h : Enough input ranks (n + 1) ps s.pos) (hn : Nearer ranks ps qs)
    (hpos : t.pos = s.pos) : Enough input ranks n qs t.pos := by
  obtain ⟨htop, hsteps⟩ := h
  have hrank := hn.rank
  have hle := hn.top
  rw [hpos]
  exact ⟨by omega, by omega⟩

/-- A token that has been passed leaves steps for whatever comes next. -/
theorem past (h : Enough input ranks (n + 1) (p :: rest) s.pos) (hmoves : Moves input s t)
    (hpos : p.skips = true ∧ s.pos ≤ t.pos ∨ s.pos < t.pos) : Enough input ranks n rest t.pos := by
  obtain ⟨htop, hsteps⟩ := h
  rcases hpos with ⟨hskips, hle⟩ | hlt
  · have hnear : Nearer ranks (p :: rest) rest := .past hskips
    have hrank := hnear.rank
    have hmul : 4096 * (input.size - t.pos) ≤ 4096 * (input.size - s.pos) :=
      Nat.mul_le_mul_left _ (by omega)
    exact ⟨Nat.le_trans hnear.top htop, by omega⟩
  · have hkind : input.kind s.pos ≠ .eof := fun he ↦ absurd (hmoves.pos_of_eof he) (by omega)
    have hsize : s.pos < input.size := by
      rcases Nat.lt_or_ge s.pos input.size with hlt | hge
      · exact hlt
      · exact absurd (by simp [Input.kind, Array.getD_eq_getD_getElem?, hge]) hkind
    have hone : 1 ≤ p.rank ranks := one_le_rank
    have hrest : topSeq ranks rest ≤ 4096 := Nat.le_trans (Nat.le_max_right _ _) htop
    have hrank : rankSeq ranks rest ≤ topSeq ranks rest := rankSeq_le_topSeq rest
    have hmul : 4096 * (input.size - t.pos) + 4096 ≤ 4096 * (input.size - s.pos) := by
      rw [← Nat.mul_succ]
      exact Nat.mul_le_mul_left _ (by omega)
    rw [rankSeq] at hsteps
    exact ⟨hrest, by omega⟩

end Enough

/-- A clean run of `n` steps or fewer reads its sequence to the end. -/
def Runs (a : Atlas) (input : Input) (ranks : Rule → Nat) (n : Nat) : Prop :=
  ∀ ps s, s.Fits input ps → Enough input ranks n ps s.pos →
    (mend a.grammar input (run a input n ps s)).reports = [] →
    Completes input ps s (run a input n ps s)

theorem reports_of_run (h : (mend a.grammar input (run a input n ps s)).reports = []) :
    s.reports = [] :=
  ((run_moves a input n ps s).trans (.mend _ _)).reports_eq_nil h

/-- A step that passes no token. -/
theorem Runs.step (ih : Runs a input ranks n) (henough : Enough input ranks (n + 1) ps s.pos)
    (hpos : t.pos = s.pos) (hnear : Nearer ranks ps qs) (hfits : t.Fits input qs)
    (hnil : (mend a.grammar input (run a input n qs t)).reports = []) :
    Completes input ps s (run a input n qs t) := by
  have h := ih qs t hfits (henough.nearer hnear hpos) hnil
  refine ⟨h.whole, h.fits, fun hskips ↦ ?_⟩
  rw [← hpos]
  apply h.pos
  cases hqs : skipsSeq qs with
  | false => rfl
  | true => rw [hnear.skips hqs] at hskips; cases hskips

/-- A step that changes nothing but what is left to read. -/
theorem Runs.quiet (ih : Runs a input ranks n) (hfits : s.Fits input ps)
    (henough : Enough input ranks (n + 1) ps s.pos) (hq : Quiet s t) (hnear : Nearer ranks ps qs)
    (hwords : wordsSeq qs ≤ wordsSeq ps) (hshaped : Shaped s.draft.rule qs) :
    (mend a.grammar input (run a input n qs t)).reports = [] →
      Completes input ps s (run a input n qs t) :=
  ih.step henough hq.pos hnear (hfits.quiet hq hwords hshaped)

/-- A step that puts a child into the open node. -/
theorem Runs.push (ih : Runs a input ranks n) (henough : Enough input ranks (n + 1) (p :: rest) s.pos)
    (hmoves : Moves input s t) (hfits : t.Fits input rest) (hpos : p.skips = true ∨ s.pos < t.pos)
    (hnil : (mend a.grammar input (run a input n rest t)).reports = []) :
    Completes input (p :: rest) s (run a input n rest t) := by
  have hle := hmoves.pos_le
  have h := ih rest t hfits (henough.past hmoves (hpos.imp_left fun hp ↦ ⟨hp, hle⟩)) hnil
  refine ⟨h.whole, h.fits, fun hskips ↦ ?_⟩
  have hrun := (run_moves a input n rest t).pos_le
  rw [skipsSeq_cons, Bool.and_eq_false_iff] at hskips
  rcases hpos with hp | hlt
  · rcases hskips with h' | h'
    · rw [hp] at h'
      cases h'
    · have := h.pos h'
      omega
  · omega

theorem Runs.expect (ih : Runs a input ranks n) {place : Place} {kinds : KindSet} {single : Bool}
    {label : Option Label} (hfits : s.Fits input (p :: rest))
    (henough : Enough input ranks (n + 1) (p :: rest) s.pos)
    (hwords : ∀ k, kinds.contains k = true → [.kind k] ∈ p.words)
    (hskips : kinds.contains .eof = true → p.skips = true) (hshaped : Shaped s.draft.rule rest)
    (hnil : (mend a.grammar input (match s.expect a.grammar input place kinds single label rest with
      | (s, none) => run a input n rest s
      | (s, some f) => (s, some f))).reports = []) :
    Completes input (p :: rest) s (match s.expect a.grammar input place kinds single label rest with
      | (s, none) => run a input n rest s
      | (s, some f) => (s, some f)) := by
  have hmoves : Moves input s _ := .expect a.grammar place kinds single label rest s
  generalize ho : s.expect a.grammar input place kinds single label rest = o at hnil hmoves ⊢
  have hreports : o.1.reports = [] := by
    split at hnil
    · exact reports_of_run hnil
    · exact (Moves.mend a.grammar _).reports_eq_nil hnil
  have hrec := hmoves.not_recovering hfits.recovering hreports
  rw [← ho] at hreports
  rcases expect_cases hfits.recovering hreports with hbreaks | ⟨hk, t, ht, hq⟩
  · rw [ho] at hbreaks
    obtain ⟨t, f, rfl⟩ := hbreaks.exists_eq
    exact absurd hnil hbreaks.reports_ne_nil
  · obtain rfl : (t, none) = o := ht.symm.trans ho
    refine ih.push henough hmoves ?_ ?_ hnil
    · exact hfits.push (Tree.derived_read s.pos) (hwords _ hk) hrec hq.rule hq.children hshaped
    · by_cases heof : input.kind s.pos = .eof
      · exact .inl (hskips (heof ▸ hk))
      · have hpos : (s.settle.consume input).pos = s.pos + 1 := pos_consume_of_ne_eof heof
        right
        rw [hq.pos, hpos]
        exact Nat.lt_succ_self _

theorem mend_of_whole {g : Grammar} {o : Session × Option Fault} (h : o.2 = none) :
    mend g input o = o.1 := by
  obtain ⟨t, f⟩ := o
  obtain rfl : f = none := h
  rfl

theorem Runs.call (ih : Runs a input ranks n) (ha : a.grammar.Sound ranks) {p : Place} {r : Rule}
    {level : Nat} {tail : Bool} {label : Option Label}
    (hfits : s.Fits input (.call p r level tail label :: rest))
    (henough : Enough input ranks (n + 1) (.call p r level tail label :: rest) s.pos)
    (hnil : (mend a.grammar input
      (run a input (n + 1) (.call p r level tail label :: rest) s)).reports = []) :
    Completes input (.call p r level tail label :: rest) s
      (run a input (n + 1) (.call p r level tail label :: rest) s) := by
  let inner := Session.enter r ⟨p, rest, level, tail⟩ { s with place := p }
  let o := run a input n (a.grammar.body r) inner
  have hbody : Completes input (a.grammar.body r) inner o := by
    refine ih _ _ ⟨hfits.recovering, ?_, fun w hw ↦ ha.words r hw, ha.shaped r⟩ ⟨ha.paced.top r, ?_⟩ ?_
    · intro t ht
      cases ht
    · have hrank := ha.paced.rank r
      have hsteps := henough.2
      rw [rankSeq, Part.rank] at hsteps
      change 4096 * (input.size - s.pos) + _ ≤ n
      omega
    · have hreports : (Session.leave s label (mend a.grammar input o)).reports = [] :=
        reports_of_run hnil
      exact hreports
  have hmoves : Moves input s (Session.leave s label o.1) :=
    (Moves.at_place p s).trans (.call r ⟨p, rest, level, tail⟩ label (run_moves a input n _ inner))
  have hrule : o.1.draft.rule = r := (run_moves a input n _ inner).rule
  have hrun : run a input (n + 1) (.call p r level tail label :: rest) s =
      run a input n rest (Session.leave s label (mend a.grammar input o)) := rfl
  rw [hrun, mend_of_whole hbody.whole] at hnil ⊢
  refine ih.push henough hmoves ?_ ?_ hnil
  · refine hfits.push (hbody.fits.close o.1.previous) ?_ hbody.fits.recovering hmoves.rule ?_
      hfits.shaped.2
    · change [Symbol.rule o.1.draft.rule] ∈ _
      rw [hrule]
      exact Set.mem_singleton _
    · cases label <;> rfl
  · cases hskips : skipsSeq (a.grammar.body r) with
    | true =>
      left
      rw [ha.paced.skips r hskips]
      rfl
    | false => exact .inr (hbody.pos hskips)

/-- The next token is checked before something is done. -/
theorem completes_sync {place : Place} {again : Bool} {parts : List Part}
    {act : Session → Session × Option Fault} (hrec : s.recovering = false)
    (hact : ∀ t, Moves input t (act t).1)
    (hnext : (mend a.grammar input (act { s with place })).reports = [] →
      Completes input ps s (act { s with place }))
    (hnil : (mend a.grammar input (match s.sync a.grammar input place again parts with
      | (s, some f) => (s, some f)
      | (s, none) => act s)).reports = []) :
    Completes input ps s (match s.sync a.grammar input place again parts with
      | (s, some f) => (s, some f)
      | (s, none) => act s) := by
  generalize ho : s.sync a.grammar input place again parts = o at hnil ⊢
  have hreports : o.1.reports = [] := by
    split at hnil
    · exact (Moves.mend a.grammar _).reports_eq_nil hnil
    · exact ((hact _).trans (.mend a.grammar _)).reports_eq_nil hnil
  rw [← ho] at hreports
  rcases sync_cases hrec hreports with hbreaks | hsync
  · rw [ho] at hbreaks
    obtain ⟨t, f, rfl⟩ := hbreaks.exists_eq
    exact absurd hnil hbreaks.reports_ne_nil
  · obtain rfl : ({ s with place }, none) = o := hsync.symm.trans ho
    exact hnext hnil

/-- A block is read as one of its sequences. -/
theorem Runs.branch (ih : Runs a input ranks n) {place : Place} {again : Bool} {d : Decision}
    (hfits : s.Fits input ps) (henough : Enough input ranks (n + 1) ps s.pos)
    (hother : ∀ n, d.otherwise = some n → ∃ parts, d.alternatives[n - 1]? = some parts)
    (hd : ∀ next ∈ d.alternatives, Nearer ranks ps next ∧ wordsSeq next ≤ wordsSeq ps ∧
      Shaped s.draft.rule next)
    (hnil : (mend a.grammar input (match s.branch a input place again ps d with
      | (s, .ok parts) => run a input n parts s
      | (s, .error f) => (s, some f))).reports = []) :
    Completes input ps s (match s.branch a input place again ps d with
      | (s, .ok parts) => run a input n parts s
      | (s, .error f) => (s, some f)) := by
  generalize ho : s.branch a input place again ps d = o at hnil ⊢
  have hreports : o.1.reports = [] := by
    split at hnil
    · exact reports_of_run hnil
    · exact (Moves.mend a.grammar _).reports_eq_nil hnil
  rw [← ho] at hreports
  obtain ⟨t, f, hb, hbreaks⟩ | ⟨t, hq, next, hnext, hb⟩ :=
    branch_cases hother hfits.recovering hreports
  · obtain rfl := hb.symm.trans ho
    exact absurd hnil hbreaks.reports_ne_nil
  · obtain rfl := hb.symm.trans ho
    obtain ⟨hnear, hwords, hshaped⟩ := hd next hnext
    exact ih.quiet hfits henough hq hnear hwords hshaped hnil

theorem Runs.loop (ih : Runs a input ranks n) {p : Place} {shape : Loop} {again : Bool}
    {body : List Part} (hfits : s.Fits input (.loop p shape again body :: rest))
    (henough : Enough input ranks (n + 1) (.loop p shape again body :: rest) s.pos)
    (hnil : (mend a.grammar input
      (run a input (n + 1) (.loop p shape again body :: rest) s)).reports = []) :
    Completes input (.loop p shape again body :: rest) s
      (run a input (n + 1) (.loop p shape again body :: rest) s) := by
  obtain ⟨hplain, hrest⟩ := hfits.shaped
  have hbody : plainSeq body = true ∧ skipsSeq body = false := by
    simpa [Part.plain] using hplain
  have hround : Nearer ranks (.loop p shape again body :: rest)
      (body ++ .loop p shape true body :: rest) ∧
      wordsSeq (body ++ .loop p shape true body :: rest) ≤
        wordsSeq (.loop p shape again body :: rest) ∧
      Shaped s.draft.rule (body ++ .loop p shape true body :: rest) :=
    ⟨.loop hbody.2, words_round_le, .append hbody.1 ⟨hplain, hrest⟩⟩
  simp only [run] at hnil ⊢
  split at hnil
  · rename_i hfirst
    rw [if_pos hfirst]
    exact completes_sync hfits.recovering (fun t ↦ run_moves a input n _ t)
      (ih.quiet hfits henough (.at_place p s) hround.1 hround.2.1 hround.2.2) hnil
  · rename_i hfirst
    rw [if_neg hfirst]
    have hfirst : (shape.nonempty && !again) = false := by simpa using hfirst
    have hskips : (Part.loop p shape again body).skips = true := by
      rw [Part.skips, Bool.or_eq_true]
      left
      cases again <;> simp_all
    have hend : Nearer ranks (.loop p shape again body :: rest) rest ∧
        wordsSeq rest ≤ wordsSeq (.loop p shape again body :: rest) ∧ Shaped s.draft.rule rest :=
      ⟨.past hskips, words_rest_le_loop hfirst, hrest⟩
    refine ih.branch hfits henough ?_ ?_ hnil
    · intro n hn
      obtain rfl := Option.some.inj hn
      dsimp only
      split <;> exact ⟨_, rfl⟩
    · intro next hnext
      dsimp only at hnext
      have hnext : next = body ++ .loop p shape true body :: rest ∨ next = rest := by
        split at hnext <;> simp at hnext
        · exact hnext
        · exact hnext.symm
      rcases hnext with rfl | rfl
      · exact hround
      · exact hend

theorem Runs.operate (ih : Runs a input ranks n) {p : Place} {again : Bool}
    {block : List (List Part)} (hfits : s.Fits input [.operators p again block])
    (henough : Enough input ranks (n + 1) [.operators p again block] s.pos)
    (hnil : (mend a.grammar input (s.operate a input n p block [])).reports = []) :
    Completes input [.operators p again block] s (s.operate a input n p block []) := by
  have hblock := hfits.shaped.2.1
  unfold Session.operate at hnil ⊢
  dsimp only at hnil ⊢
  obtain ⟨t, hq, ⟨f, hf, hp⟩ | ⟨alt, -, hp, -⟩⟩ := pick_cases a input s (d := {
    rule := s.draft.rule
    alternatives := [.choice (p + 2) block :: [.operators p true block], []]
    onOperators := true }) (by simp)
  · rw [hp] at hnil
    exact absurd hnil (reports_mend_ne_nil hf (hq.recovering.trans hfits.recovering))
  rw [hp] at hnil ⊢
  have hfitsT : t.Fits input [.operators p again block] :=
    hfits.quiet hq le_rfl hfits.shaped
  split at hnil
  · rename_i he
    cases he
  · rename_i u he
    obtain ⟨rfl, rfl⟩ : t = u ∧ alt = 1 := by simpa using he
    -- The operand that ends is announced before its operator is chosen.
    let v : Session := { t with events := .exit t.draft.rule :: t.events }
    have hfitsV : v.Fits input [.operators p again block] :=
      ⟨hfitsT.recovering, hfitsT.derived, hfitsT.words, hfitsT.shaped⟩
    generalize ho : v.branch a input (p + 2) false _ _ = o at hnil ⊢
    have hreports : o.1.reports = [] := by
      split at hnil
      · exact (Moves.mend a.grammar _).reports_eq_nil hnil
      · rename_i u parts
        have hwrap : u.wrap.reports = [] := reports_of_run hnil
        exact hwrap
    rw [← ho] at hreports
    obtain ⟨u, f, hb, hbreaks⟩ | ⟨u, hqu, next, hnext, hb⟩ :=
      branch_cases (by simp) hfitsV.recovering hreports
    · obtain rfl := hb.symm.trans ho
      exact absurd hnil hbreaks.reports_ne_nil
    · obtain rfl := hb.symm.trans ho
      obtain ⟨parts, hparts, rfl⟩ := List.mem_map.1 hnext
      have hfitsU : u.Fits input [.operators p again block] :=
        hfitsV.quiet hqu le_rfl hfitsV.shaped
      exact ih.step henough (hqu.pos.trans hq.pos) (.operators hparts (hblock parts hparts).2)
        (hfitsU.wrap hparts) hnil
  · rename_i u m hm he
    obtain ⟨rfl, rfl⟩ : t = u ∧ alt = m := by simpa using he
    exact ih.quiet hfits henough hq (.past rfl)
      (by rw [wordsSeq_cons, Part.words, one_mul]) trivial hnil

/-- A run without a report reads its sequence to the end. -/
theorem runs (ha : a.grammar.Sound ranks) (n : Nat) : Runs a input ranks n := by
  induction n with
  | zero =>
    intro ps s hfits henough hnil
    cases ps with
    | nil => exact ⟨rfl, hfits, by simp [skipsSeq]⟩
    | cons p ps =>
      have hone : 1 ≤ p.rank ranks := one_le_rank
      have hsteps := henough.2
      rw [rankSeq] at hsteps
      omega
  | succ n ih =>
    intro ps s hfits henough hnil
    rcases ps with - | ⟨part, rest⟩
    · exact ⟨rfl, hfits, by simp [skipsSeq]⟩
    cases part with
    | token p k label =>
      refine ih.expect hfits henough (fun k' hk ↦ ?_) (fun hk ↦ ?_) hfits.shaped.2 hnil
      · rw [KindSet.contains_single.1 hk]
        exact Set.mem_singleton _
      · rw [← KindSet.contains_single.1 hk]
        rfl
    | oneOf p ks label =>
      exact ih.expect hfits henough (fun k hk ↦ ⟨k, hk, rfl⟩) id hfits.shaped.2 hnil
    | call p r level tail label => exact ih.call ha hfits henough hnil
    | guard p level =>
      simp only [run] at hnil ⊢
      split at hnil
      · rename_i hlevel
        rw [if_pos hlevel]
        exact ih.quiet hfits henough (.at_place p s) (.past rfl)
          (by rw [wordsSeq_cons, Part.words, one_mul]) hfits.shaped.2 hnil
      · exact absurd hnil (reports_mend_ne_nil (by simp) hfits.recovering)
    | choice p block =>
      refine ih.branch hfits henough (by simp) (fun next hnext ↦ ?_) hnil
      obtain ⟨parts, hparts, rfl⟩ := List.mem_map.1 hnext
      exact ⟨.choice hparts, words_choice_le hparts,
        .append (plainSeq_of_mem hfits.shaped.1 hparts) hfits.shaped.2⟩
    | option p block =>
      refine ih.branch hfits henough (fun n hn ↦ ?_) (fun next hnext ↦ ?_) hnil
      · obtain rfl := Option.some.inj hn
        exact ⟨rest, by simp⟩
      · rcases List.mem_append.1 hnext with hnext | hnext
        · obtain ⟨parts, hparts, rfl⟩ := List.mem_map.1 hnext
          exact ⟨.option hparts, words_option_le hparts,
            .append (plainSeq_of_mem hfits.shaped.1 hparts) hfits.shaped.2⟩
        · rw [List.mem_singleton.1 hnext]
          exact ⟨.past rfl, words_rest_le_option, hfits.shaped.2⟩
    | loop p shape again body => exact ih.loop hfits henough hnil
    | operators p again block =>
      obtain ⟨rfl, -⟩ := hfits.shaped
      rw [run_operators] at hnil ⊢
      refine completes_sync hfits.recovering
        (fun t ↦ moves_operate fun ps t ↦ run_moves a input n ps t) (fun hnil ↦ ?_) hnil
      have hplace : Session.Fits input { s with place := _ } [.operators p again block] :=
        hfits.quiet (.at_place (if again then p + 1 else p) s) le_rfl hfits.shaped
      have h := ih.operate hplace henough hnil
      exact ⟨h.whole, h.fits, h.pos⟩

/-- A parse without a report is a derivation from its rule. -/
theorem derived_of_reports (ha : a.grammar.Sound ranks) (rule : Rule)
    (h : (parseKinds a rule input).reports = []) :
    ∃ head ts, (parseKinds a rule input).tree = .node head ts ∧ head.rule = rule ∧
      (Tree.node head ts).Derived input := by
  rw [parseKinds_eq] at h ⊢
  have hnil : (Session.final a rule input).reports = [] := by simpa using h
  let o := run a input (steps input.size) (a.grammar.body rule) (.opening rule)
  have hfits : (Session.opening rule).Fits input (a.grammar.body rule) := by
    refine ⟨rfl, fun t ht ↦ ?_, fun w hw ↦ ha.words rule hw, ha.shaped rule⟩
    cases ht
  have henough : Enough input ranks (steps input.size) (a.grammar.body rule) 0 := by
    have htop := ha.paced.top rule
    have hrank : rankSeq ranks (a.grammar.body rule) ≤ _ := rankSeq_le_topSeq _
    refine ⟨htop, ?_⟩
    unfold steps
    omega
  have hdone : Completes input _ _ o := runs ha _ _ _ hfits henough hnil
  have hfinal : Session.final a rule input = o.1 := mend_of_whole hdone.whole
  have hrule : o.1.draft.rule = rule := (run_moves a input _ _ _).rule
  rw [hfinal]
  exact ⟨_, _, rfl, hrule, hdone.fits.close o.1.previous⟩

end Run

/-- If no error is reported, the tree has a node of the rule asked for at its root, a word of its
rule below each node, and no leaf that was not expected. -/
theorem Parsed.derived_of_errors (rule : Rule) (sql : String)
    (h : (ofString rule sql).errors = []) :
    ∃ head ts, (ofString rule sql).tree = .node head ts ∧ head.rule = rule ∧
      (Tree.node head ts).Derived (ofString rule sql).source.input :=
  derived_of_reports Grammar.sql_sound rule (List.map_eq_nil_iff.1 h)

theorem Parsed.derived_of_errors_select :
    (ofString .selectCore "SELECT *, t.*").errors = [] ∧
      ∃ head ts, (ofString .selectCore "SELECT *, t.*").tree = .node head ts ∧
        head.rule = .selectCore ∧
        (Tree.node head ts).Derived (ofString .selectCore "SELECT *, t.*").source.input := by
  have herrors : (ofString .selectCore "SELECT *, t.*").errors = [] := by decide +kernel
  exact ⟨herrors, derived_of_errors .selectCore "SELECT *, t.*" herrors⟩

end PlanCache
