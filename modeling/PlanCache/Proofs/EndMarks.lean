import PlanCache.Proofs.Derivations

/-!
The leaves of a tree and the tokens of its text. They agree up to the mark of the end, which only
one rule reads, and which recovery can put into the tree any number of times. Where no error is
reported it stands there at most once.
-/

namespace PlanCache

/-- The mark of the end, or the rule that reads it. -/
def Symbol.ending : Symbol → Bool
  | .kind k => k == .eof
  | .rule r => r == .parse

mutual

/-- Whether the end of the input can be read in a part. -/
def Part.ending : Part → Bool
  | .token _ k _ => k == .eof
  | .oneOf _ ks _ => ks.contains .eof
  | .call _ r _ _ _ => r == .parse
  | .choice _ b | .option _ b => endingBlock b
  | .loop _ _ _ body => endingSeq body
  | .guard _ _ | .operators _ _ _ => false

def endingSeq : List Part → Bool
  | [] => false
  | p :: ps => p.ending || endingSeq ps

def endingBlock : List (List Part) → Bool
  | [] => false
  | s :: b => endingSeq s || endingBlock b

end

/-- No symbol of a word is the end. -/
def Endless (l : Language Symbol) : Prop := ∀ w ∈ l, ∀ x ∈ w, x.ending = false

namespace Endless

open scoped Computability

variable {l m : Language Symbol}

theorem one : Endless 1 := by
  intro w hw x hx
  rw [(Language.mem_one w).1 hw] at hx
  cases hx

theorem singleton {x : Symbol} (h : x.ending = false) : Endless {[x]} := by
  intro w hw y hy
  rw [Set.mem_singleton_iff.1 hw, List.mem_singleton] at hy
  rw [hy]
  exact h

theorem add (hl : Endless l) (hm : Endless m) : Endless (l + m) := by
  intro w hw
  rcases (Language.mem_add _ _ _).1 hw with hw | hw
  · exact hl w hw
  · exact hm w hw

theorem mul (hl : Endless l) (hm : Endless m) : Endless (l * m) := by
  intro w hw x hx
  obtain ⟨a, ha, b, hb, rfl⟩ := Language.mem_mul.1 hw
  rcases List.mem_append.1 hx with hx | hx
  · exact hl a ha x hx
  · exact hm b hb x hx

theorem kstar (hl : Endless l) : Endless (l∗) := by
  intro w hw x hx
  obtain ⟨ws, rfl, hws⟩ := Language.mem_kstar.1 hw
  obtain ⟨v, hv, hx⟩ := List.mem_flatten.1 hx
  exact hl v (hws v hv) x hx

end Endless

mutual

theorem Part.endless (p : Part) (h : p.ending = false) : Endless p.words := by
  cases p with
  | token p k l => exact .singleton h
  | oneOf p ks l =>
    rintro w ⟨k, hk, rfl⟩ x hx
    rw [List.mem_singleton.1 hx]
    refine beq_eq_false_iff_ne.2 fun he ↦ ?_
    rw [he] at hk
    exact absurd hk (Bool.eq_false_iff.1 h)
  | call p r lv t l => exact .singleton h
  | guard p lv => exact .one
  | choice p b => exact endlessBlock b h
  | option p b => exact .add .one (endlessBlock b h)
  | loop p shape again body =>
    have hbody := endlessSeq body h
    rw [Part.words]
    split
    · exact .mul hbody hbody.kstar
    · exact hbody.kstar
  | operators p again b => exact .one

theorem endlessSeq (ps : List Part) (h : endingSeq ps = false) : Endless (wordsSeq ps) := by
  cases ps with
  | nil => exact .one
  | cons p ps =>
    rw [endingSeq, Bool.or_eq_false_iff] at h
    exact .mul (p.endless h.1) (endlessSeq ps h.2)

theorem endlessBlock (b : List (List Part)) (h : endingBlock b = false) :
    Endless (wordsBlock b) := by
  cases b with
  | nil => intro w hw; cases hw
  | cons s b =>
    rw [endingBlock, Bool.or_eq_false_iff] at h
    exact .add (endlessSeq s h.1) (endlessBlock b h.2)

end

namespace Rule

theorem endless (r : Rule) (h : r ≠ .parse) : Endless r.words := by
  have hrules : Rule.all.all fun r ↦ r == .parse ||
      !endingBlock r.production.block && !endingBlock r.production.operators := by decide +kernel
  have hblock := List.all_eq_true.1 hrules r r.mem_all
  simp only [Bool.or_eq_true, beq_iff_eq, h, false_or, Bool.and_eq_true, Bool.not_eq_true'] at hblock
  have hrule : (Symbol.rule r).ending = false := beq_eq_false_iff_ne.2 h
  exact .add (endlessBlock _ hblock.1) (.mul (.singleton hrule) (endlessBlock _ hblock.2))

/-- A whole script ends once. -/
theorem countP_words_parse {w : List Symbol} (hw : w ∈ Rule.words .parse) :
    w.countP Symbol.ending ≤ 1 := by
  have hscripts : Endless (wordsSeq [.many [.ofRule .sqlStmtList]]) := endlessSeq _ rfl
  have hblock : wordsBlock (Rule.production .parse).block =
      wordsSeq [.many [.ofRule .sqlStmtList]] * {[.kind .eof]} := by
    simp only [Rule.production, Production.sequence, wordsBlock, add_zero]
    rw [wordsSeq_cons, wordsSeq_cons, wordsSeq_cons, wordsSeq_nil, mul_one, mul_one]
    rfl
  rcases (Language.mem_add _ _ _).1 hw with hw | hw
  · rw [hblock] at hw
    obtain ⟨a, ha, b, hb, rfl⟩ := Language.mem_mul.1 hw
    rw [List.countP_append, List.countP_eq_zero.2 fun x hx ↦ by simp [hscripts a ha x hx],
      Set.mem_singleton_iff.1 hb]
    exact Nat.le_refl _
  · obtain ⟨a, -, b, hb, -⟩ := Language.mem_mul.1 hw
    cases hb

theorem countP_words {r : Rule} {w : List Symbol} (hw : w ∈ r.words) :
    w.countP Symbol.ending ≤ if (Symbol.rule r).ending then 1 else 0 := by
  by_cases hr : r = .parse
  · subst hr
    exact countP_words_parse hw
  · rw [List.countP_eq_zero.2 fun x hx ↦ by simp [r.endless hr w hw x hx]]
    exact Nat.zero_le _

end Rule

namespace Tree

variable {input : Input}

theorem Derived.child {h : Head} {ts : List Tree} (hd : (node h ts).Derived input) {t : Tree}
    (ht : t ∈ ts) : t.Derived input where
  nodes x hx := hd.nodes x (by
    rw [Tree.nodes]
    exact List.mem_cons_of_mem _ (mem_nodesAll.2 ⟨t, ht, hx⟩))
  leaves x hx := hd.leaves x (by
    rw [Tree.leaves]
    exact mem_leavesAll.2 ⟨t, ht, hx⟩)

theorem tokensAll_cons (t : Tree) (ts : List Tree) :
    tokensAll (t :: ts) = t.tokens ++ tokensAll ts := by
  rw [tokensAll, leavesAll, List.filterMap_append]
  rfl

mutual

/-- A derivation holds the mark of the end at most once, and only from the rule that reads it. -/
theorem countP_tokens (t : Tree) (hd : t.Derived input) :
    t.tokens.countP (input.kind · == .eof) ≤ if (t.symbol input).ending then 1 else 0 := by
  cases t with
  | leaf l e =>
    obtain ⟨-, i, rfl⟩ := hd.leaves (l, e) (by rw [leaves]; exact List.mem_singleton_self _)
    rw [tokens_leaf]
    exact Nat.le_of_eq List.countP_singleton
  | node h ts =>
    have hword := hd.nodes (h, ts) (by rw [nodes]; exact List.mem_cons_self)
    rw [tokens_node]
    exact Nat.le_trans (countP_tokensAll ts fun t ht ↦ hd.child ht) (Rule.countP_words hword)

theorem countP_tokensAll (ts : List Tree) (hd : ∀ t ∈ ts, t.Derived input) :
    (tokensAll ts).countP (input.kind · == .eof) ≤
      (ts.map (symbol input)).countP Symbol.ending := by
  cases ts with
  | nil => exact Nat.le_refl _
  | cons t ts =>
    obtain ⟨ht, hts⟩ := List.forall_mem_cons.1 hd
    rw [tokensAll_cons, List.countP_append, List.map_cons, List.countP_cons, Nat.add_comm]
    exact Nat.add_le_add (countP_tokensAll ts hts) (countP_tokens t ht)

end

end Tree

namespace Parsed

variable {rule : Rule} {sql : String}

theorem countP_tokens_le (h : (ofString rule sql).errors = []) :
    (ofString rule sql).tree.tokens.countP ((Source.ofString sql).input.kind · == .eof) ≤ 1 := by
  obtain ⟨head, ts, htree, -, hd⟩ :=
    derived_of_reports Grammar.sql_sound rule (List.map_eq_nil_iff.1 h)
  have hle := Tree.countP_tokens _ hd
  rw [← htree] at hle
  refine Nat.le_trans hle ?_
  split <;> omega

/-- The leaves of a tree from left to right, without those that were missing, are the first tokens
of the text in their order, each once. Only the mark of the end can come more than once, and only if
an error is reported. -/
theorem leaves_eq_take_tokens (rule : Rule) (sql : String) :
    ∃ n m, ∃ h : n < (Token.shown sql).length,
      (ofString rule sql).tree.tokens.map (ofString rule sql).source.token =
        (Token.shown sql).take n ++ List.replicate m (Token.shown sql)[n] ∧
      (0 < m → n + 1 = (Token.shown sql).length) ∧ ((ofString rule sql).errors = [] → m ≤ 1) := by
  obtain ⟨n, m, hn, -, htokens, heof⟩ := parseKinds_tokens .sql rule (closed_ofString sql)
  have htokens : (ofString rule sql).tree.tokens = List.range n ++ List.replicate m n := htokens
  have hlen := size_input sql
  refine ⟨n, m, hlen ▸ hn, ?_, fun hm ↦ ?_, fun herrors ↦ ?_⟩
  · have hmark := (List.getElem?_eq_some_iff.1 (getElem?_shown hn)).2
    change (ofString rule sql).tree.tokens.map (Source.ofString sql).token = _
    rw [htokens, List.map_append, List.map_replicate, map_token_range (Nat.le_of_lt hn), hmark]
  · have hlast : ¬n < (Source.ofString sql).input.last := fun h ↦ kind_ne_eof h (heof hm)
    unfold Input.last at hlast
    omega
  · have hle := countP_tokens_le herrors
    rw [htokens, List.countP_append, List.countP_replicate] at hle
    rcases Nat.eq_zero_or_pos m with rfl | hm
    · exact Nat.zero_le 1
    · rw [if_pos (by simp [heof hm])] at hle
      omega

/-- Brackets that are not closed put the mark of the end into the tree twice. -/
theorem leaves_ne_take_tokens :
    ¬∃ n, (ofString .anyName "((((a").tree.tokens.map (ofString .anyName "((((a").source.token =
      (Token.shown "((((a").take n := by
  rintro ⟨n, he⟩
  have hlen : (ofString .anyName "((((a").tree.tokens.length = 7 ∧
      (Token.shown "((((a").length = 6 := by decide +kernel
  have hle := congrArg List.length he
  rw [List.length_map, hlen.1, List.length_take, hlen.2] at hle
  omega

end Parsed

end PlanCache
