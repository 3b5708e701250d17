import PlanCache.Proofs.Grades
import PlanCache.Proofs.Strides
import PlanCache.Sql.Symbols

/-!
Operators that bind tighter stand deeper. The right operand of an operator is read at the next
level, which holds until the operand has been read, whatever is read and whatever goes wrong below
it. So the operators at its left edge all bind tighter, and operators of one level nest to the left.
-/

namespace PlanCache

/-- Levels of the operators between two operands: `||`; `*`, `/`, `%`; `+`, `-`; `<<`, `>>`, `&`,
`|`; `<`, `<=`, `>`, `>=`; `=` and those like it; `AND`; `OR`; the `IS` that comes last. -/
def binaryLevels : List Nat := [20, 19, 18, 17, 16, 15, 14, 13, 6]

mutual

/-- Whether all rules that a part calls for are called above level `p`. Operators begin a node of
their own. -/
def Part.above (p : Nat) : Part → Bool
  | .call _ _ level _ _ => decide (p < level)
  | .choice _ b | .option _ b => aboveBlock p b
  | .loop _ _ _ body => aboveSeq p body
  | .token _ _ _ | .oneOf _ _ _ | .guard _ _ | .operators _ _ _ => true

def aboveSeq (p : Nat) : List Part → Bool
  | [] => true
  | part :: ps => part.above p && aboveSeq p ps

def aboveBlock (p : Nat) : List (List Part) → Bool
  | [] => true
  | s :: b => aboveSeq p s && aboveBlock p b

end

/-- Whether a sequence is that of the operator of a number: its level comes first, and an operator
between two operands calls only for operands above its level. -/
def rankedOperator (number : Nat) : List Part → Bool
  | .guard _ level :: rest => Rule.expr.levels[number]? == some level && plainSeq rest &&
      (!binaryLevels.contains level || aboveSeq level rest)
  | _ => false

def rankedBlock (number : Nat) : List (List Part) → Bool
  | [] => true
  | s :: b => rankedOperator number s && rankedBlock (number + 1) b

def Part.ranked (r : Rule) : Part → Bool
  | .operators _ _ block => r == .expr && rankedBlock 0 block
  | .token _ _ _ | .oneOf _ _ _ | .guard _ _ | .call _ _ _ _ _ | .choice _ _ | .option _ _
  | .loop _ _ _ _ => false

/-- Whether operators stand only at the end of a sequence of expressions. -/
def rankedSeq (r : Rule) : List Part → Bool
  | [] => true
  | p :: ps => (p.plain || (ps.isEmpty && p.ranked r)) && rankedSeq r ps

mutual

/-- Whether a part that comes first in a node does not make an expression its first child, if what
comes `after` it does not. -/
def Part.leads (after : Bool) : Part → Bool
  | .token _ _ _ => true
  | .call _ r _ _ _ => r != .expr
  | .choice _ b => leadsBlock after b
  | .option _ b => after && leadsBlock after b
  | .loop _ _ _ body => after && leadsSeq after body
  | .oneOf _ _ _ | .guard _ _ | .operators _ _ _ => after

def leadsSeq (after : Bool) : List Part → Bool
  | [] => after
  | p :: ps => p.leads (leadsSeq after ps)

def leadsBlock (after : Bool) : List (List Part) → Bool
  | [] => true
  | s :: b => leadsSeq after s && leadsBlock after b

end

section Sequences

variable {part : Part} {parts rest seq : List Part} {block : List (List Part)} {r : Rule} {p : Nat}
  {after : Bool}

@[simp] theorem aboveSeq_append :
    aboveSeq p (parts ++ rest) = (aboveSeq p parts && aboveSeq p rest) := by
  induction parts with
  | nil => simp [aboveSeq]
  | cons part parts ih => simp [aboveSeq, ih, Bool.and_assoc]

theorem aboveSeq_of_mem (h : aboveBlock p block = true) (hseq : seq ∈ block) :
    aboveSeq p seq = true := by
  induction block with
  | nil => cases hseq
  | cons s b ih =>
    rw [aboveBlock, Bool.and_eq_true] at h
    rcases List.mem_cons.1 hseq with rfl | hseq
    · exact h.1
    · exact ih h.2 hseq

theorem rankedSeq_append (h : plainSeq seq = true) :
    rankedSeq r (seq ++ rest) = rankedSeq r rest := by
  induction seq with
  | nil => rfl
  | cons p ps ih =>
    rw [plainSeq, Bool.and_eq_true] at h
    rw [List.cons_append, rankedSeq, h.1, ih h.2, Bool.true_or, Bool.true_and]

theorem leadsSeq_append : leadsSeq after (parts ++ rest) = leadsSeq (leadsSeq after rest) parts := by
  induction parts with
  | nil => rfl
  | cons p ps ih => rw [List.cons_append, leadsSeq, leadsSeq, ih]

theorem leadsSeq_of_mem (h : leadsBlock after block = true) (hseq : seq ∈ block) :
    leadsSeq after seq = true := by
  induction block with
  | nil => cases hseq
  | cons s b ih =>
    rw [leadsBlock, Bool.and_eq_true] at h
    rcases List.mem_cons.1 hseq with rfl | hseq
    · exact h.1
    · exact ih h.2 hseq

theorem rankedOperator_of_getElem? {n i : Nat} (h : rankedBlock n block = true)
    (hseq : block[i]? = some seq) : rankedOperator (n + i) seq = true := by
  induction block generalizing n i with
  | nil => cases hseq
  | cons s b ih =>
    rw [rankedBlock, Bool.and_eq_true] at h
    cases i with
    | zero =>
      obtain rfl := Option.some.inj hseq
      exact h.1
    | succ i =>
      rw [← Nat.succ_add_eq_add_succ]
      exact ih h.2 hseq

theorem exists_guard_of_rankedOperator {n : Nat} (h : rankedOperator n seq = true) :
    ∃ q level tail, seq = .guard q level :: tail ∧ Rule.expr.levels[n]? = some level ∧
      plainSeq tail = true ∧ (level ∈ binaryLevels → aboveSeq level tail = true) := by
  unfold rankedOperator at h
  split at h
  · rename_i q level tail
    rw [Bool.and_eq_true, Bool.and_eq_true, beq_iff_eq] at h
    refine ⟨q, level, tail, rfl, h.1.1, h.1.2, fun hbinary ↦ ?_⟩
    simpa [hbinary] using h.2
  · cases h

theorem aboveSeq_next (hnext : part.Next rest parts) (h : aboveSeq p (part :: rest) = true) :
    aboveSeq p parts = true := by
  rw [aboveSeq, Bool.and_eq_true] at h
  cases hnext with
  | choice q hseq => rw [aboveSeq_append, aboveSeq_of_mem h.1 hseq, h.2]; rfl
  | option q hseq => rw [aboveSeq_append, aboveSeq_of_mem h.1 hseq, h.2]; rfl
  | round q shape again body =>
    have hbody : aboveSeq p body = true := h.1
    rw [aboveSeq_append, aboveSeq, Part.above, hbody, h.2]
    rfl
  | _ => exact h.2

theorem rankedSeq_next (hnext : part.Next rest parts) (h : rankedSeq r (part :: rest) = true) :
    rankedSeq r parts = true := by
  rw [rankedSeq, Bool.and_eq_true, Bool.or_eq_true] at h
  obtain ⟨hpart, hrest⟩ := h
  cases hnext with
  | @choice q block seq hseq =>
    have hplain : (Part.choice q block).plain = true := by simpa [Part.ranked] using hpart
    rw [rankedSeq_append (plainSeq_of_mem hplain hseq)]
    exact hrest
  | @option q block seq hseq =>
    have hplain : (Part.option q block).plain = true := by simpa [Part.ranked] using hpart
    rw [rankedSeq_append (plainSeq_of_mem hplain hseq)]
    exact hrest
  | round q shape again body =>
    have hplain : (Part.loop q shape again body).plain = true := by simpa [Part.ranked] using hpart
    have hbody : plainSeq body = true := (Bool.and_eq_true_iff.1 hplain).1
    have hagain : (Part.loop q shape true body).plain = true := hplain
    rw [rankedSeq_append hbody, rankedSeq, hagain, hrest]
    rfl
  | _ => exact hrest

/-- What comes first after a part that was no token. -/
theorem leadsSeq_next (hnext : part.Next rest parts) (htoken : part.isToken = false)
    (h : leadsSeq true (part :: rest) = true) : leadsSeq true parts = true := by
  rw [leadsSeq] at h
  cases hnext with
  | token => cases htoken
  | choice q hseq =>
    rw [leadsSeq_append]
    exact leadsSeq_of_mem h hseq
  | option q hseq =>
    rw [leadsSeq_append]
    exact leadsSeq_of_mem (Bool.and_eq_true_iff.1 h).2 hseq
  | round q shape again body =>
    obtain ⟨hrest, hbody⟩ := Bool.and_eq_true_iff.1 h
    rw [leadsSeq_append, leadsSeq, Part.leads, hbody, hrest]
    rwa [hrest] at hbody
  | skip => exact (Bool.and_eq_true_iff.1 h).1
  | leave => exact (Bool.and_eq_true_iff.1 h).1
  | oneOf => exact h
  | guard => exact h
  | last => exact h

end Sequences

/-- What is needed of a grammar for its operators to nest by their levels. -/
structure Grammar.Ranked (g : Grammar) : Prop where
  body (r : Rule) : rankedSeq r (g.body r) = true
  leads : leadsSeq true (g.body .expr) = true

theorem Grammar.sql_ranked : Grammar.sql.Ranked where
  body r := by
    rw [sql, body_ofBodies]
    cases r <;> rfl
  leads := by
    rw [sql, body_ofBodies]
    rfl

namespace Graded

/-- An operator at the left edge of a tree: the one that built it, or one at the left edge of its
left operand. -/
inductive LeftEdge : Graded → Nat → Prop where
  | self (h : Head) (i : Nat) (cs : List Graded) : LeftEdge (.node h (some i) cs) i
  | left (h : Head) (i : Nat) {cs : List Graded} {c : Graded} {k : Nat} (hc : cs.head? = some c)
      (hk : c.LeftEdge k) : LeftEdge (.node h (some i) cs) k

/-- All operators at the left edge are of level `n` or bind tighter. -/
def Binds (n : Nat) (g : Graded) : Prop :=
  ∀ k p, g.LeftEdge k → Rule.expr.levels[k]? = some p → n ≤ p

def isExpr : Graded → Bool
  | .leaf _ _ => false
  | .node h _ _ => h.rule == .expr

/-- Whether a tree is a token that was skipped or supplied. -/
def isError : Graded → Bool
  | .leaf _ error => error
  | .node _ _ _ => false

/-- The order of the operators at a node. -/
structure Ordered (h : Head) (operator : Option Nat) (children : List Graded) : Prop where
  /-- Only expressions are built by operators, and these have a level. -/
  own : ∀ i, operator = some i → h.rule = .expr ∧ ∃ p, Rule.expr.levels[i]? = some p
  /-- What stands to the right of an operator between two operands binds tighter, and so does all
  that stands at the left edge of it. -/
  right : ∀ i p, operator = some i → Rule.expr.levels[i]? = some p → p ∈ binaryLevels →
    ∀ c ∈ children.tail, ∀ k q, c.LeftEdge k → Rule.expr.levels[k]? = some q → p < q
  /-- An expression that begins with another was built by an operator, unless nothing follows but
  errors. -/
  left : h.rule = .expr → ∀ c, children.head? = some c → c.isExpr = true → operator = none →
    ∀ d ∈ children.tail, d.isError = true

/-- All nodes of a tree are ordered. -/
def Sorted (g : Graded) : Prop := ∀ x ∈ g.nodes, Ordered x.1 x.2.1 x.2.2

variable {h : Head} {operator : Option Nat} {cs : List Graded} {m n : Nat} {g : Graded}

theorem sorted_leaf (l : Leaf) (error : Bool) : (leaf l error).Sorted := by
  intro x hx
  cases hx

theorem Sorted.node (hnode : Ordered h operator cs) (hcs : ∀ c ∈ cs, c.Sorted) :
    (Graded.node h operator cs).Sorted := by
  intro x hx
  rw [nodes, List.mem_cons] at hx
  rcases hx with rfl | hx
  · exact hnode
  · obtain ⟨c, hc, hx⟩ := mem_nodesAll.1 hx
    exact hcs c hc x hx

theorem Binds.mono (hg : g.Binds n) (hmn : m ≤ n) : g.Binds m :=
  fun k p hk hp ↦ Nat.le_trans hmn (hg k p hk hp)

theorem binds_leaf (l : Leaf) (error : Bool) (n : Nat) : (leaf l error).Binds n := by
  intro k p hk
  cases hk

theorem Binds.node (hown : ∀ i, operator = some i → ∃ p, Rule.expr.levels[i]? = some p ∧ n ≤ p)
    (hleft : ∀ i c, operator = some i → cs.head? = some c → c.Binds n) :
    (Graded.node h operator cs).Binds n := by
  intro k p hk hp
  cases hk with
  | self =>
    obtain ⟨q, hq, hle⟩ := hown k rfl
    obtain rfl : q = p := Option.some.inj (hq.symm.trans hp)
    exact hle
  | left h i hc hk => exact hleft i _ rfl hc k p hk hp

end Graded

namespace Growth

/-- What holds of an open node of `r` that was built by the operator of a number, with operators of
`least` or tighter admitted. -/
structure Built (r : Rule) (least : Nat) (x : Growth) (i : Nat) : Prop where
  rule : r = .expr
  nonempty : x.children ≠ []
  own : ∃ p, Rule.expr.levels[i]? = some p ∧ least ≤ p
  left : ∀ c, x.children.getLast? = some c → c.Binds least
  right : ∀ p, Rule.expr.levels[i]? = some p → p ∈ binaryLevels →
    ∀ c ∈ x.children.dropLast, c.Binds (p + 1)

/-- What holds of an open node of `r` whenever it may be ended. -/
structure Sound (r : Rule) (least : Nat) (x : Growth) : Prop where
  below : ∀ c ∈ x.children, c.Sorted
  built : ∀ i, x.operator = some i → x.Built r least i
  unbuilt : r = .expr → x.operator = none → ∀ c, x.children.getLast? = some c →
    c.isExpr = true → ∀ d ∈ x.children.dropLast, d.isError = true

variable {r : Rule} {least : Nat} {x : Growth} {i : Nat}

namespace Sound

theorem sorted_close (h : x.Sound r least) {t : Session} (ht : t.draft.rule = r) :
    (x.close t).Sorted := by
  refine .node ⟨fun i hi ↦ ?_, fun i p hi hp hbinary c hc k q hk hq ↦ ?_,
    fun hr c hc hexpr hnone d hd ↦ ?_⟩ fun c hc ↦ h.below c (List.mem_reverse.1 hc)
  · obtain ⟨p, hp, -⟩ := (h.built i hi).own
    exact ⟨ht.trans (h.built i hi).rule, p, hp⟩
  · rw [List.tail_reverse, List.mem_reverse] at hc
    exact (h.built i hi).right p hp hbinary c hc k q hk hq
  · rw [List.head?_reverse] at hc
    rw [List.tail_reverse, List.mem_reverse] at hd
    exact h.unbuilt (ht.symm.trans hr) hnone c hc hexpr d hd

theorem binds_close (h : x.Sound r least) (t : Session) : (x.close t).Binds least := by
  refine .node (fun i hi ↦ (h.built i hi).own) fun i c hi hc ↦ ?_
  rw [List.head?_reverse] at hc
  exact (h.built i hi).left c hc

/-- A node that is no expression has no operator. -/
theorem operator_eq_none (h : x.Sound r least) (hr : r ≠ .expr) : x.operator = none := by
  cases ho : x.operator with
  | none => rfl
  | some i => exact absurd (h.built i ho).rule hr

end Sound

theorem Built.grow (h : x.Built r least i) {y : Growth} {new : List Graded}
    (hy : y.children = new ++ x.children)
    (hnew : ∀ p, Rule.expr.levels[i]? = some p → p ∈ binaryLevels → ∀ c ∈ new, c.Binds (p + 1)) :
    y.Built r least i where
  rule := h.rule
  nonempty := by
    rw [hy]
    exact List.append_ne_nil_of_right_ne_nil new h.nonempty
  own := h.own
  left c hc := by
    have hlast := List.getLast?_eq_some_getLast h.nonempty
    rw [hy, List.getLast?_append, hlast] at hc
    exact h.left c (hlast.trans hc)
  right p hp hbinary c hc := by
    rw [hy, List.dropLast_append_of_ne_nil h.nonempty, List.mem_append] at hc
    rcases hc with hc | hc
    · exact hnew p hp hbinary c hc
    · exact h.right p hp hbinary c hc

/-- What holds of an open node of `r` before `ps` is read. -/
structure Fits (r : Rule) (least : Nat) (ps : List Part) (s : Session) (x : Growth) : Prop where
  rule : s.draft.rule = r
  level : s.level = least
  mirrors : x.Mirrors s
  ranked : rankedSeq r ps = true
  below : ∀ c ∈ x.children, c.Sorted
  built : ∀ i, x.operator = some i → x.Built r least i
  above : ∀ i p, x.operator = some i → Rule.expr.levels[i]? = some p → p ∈ binaryLevels →
    aboveSeq p ps = true
  /-- Without an operator the node is empty, or begins with something else than an expression, or
  is about to be broken off. -/
  lead : r = .expr → x.operator = none →
    x.children = [] ∧ leadsSeq true ps = true ∨
      (∃ c, x.children.getLast? = some c ∧ c.isExpr = false) ∨
      ∃ c part rest, x.children = [c] ∧ ps = part :: rest ∧ part.admitted least = false

/-- What holds of a node of `r` when its reading has come to an end. -/
structure Ended (r : Rule) (least : Nat) (s : Session) (x : Growth) : Prop where
  rule : s.draft.rule = r
  level : s.level = least
  mirrors : x.Mirrors s
  sound : x.Sound r least

section Leaves

variable {leaves : List (Leaf × Bool)}

theorem sorted_append {cs : List Graded} (h : ∀ c ∈ cs, c.Sorted) :
    ∀ c ∈ leaves.map (fun l ↦ Graded.leaf l.1 l.2) ++ cs, c.Sorted := by
  intro c hc
  rcases List.mem_append.1 hc with hc | hc
  · obtain ⟨l, -, rfl⟩ := List.mem_map.1 hc
    exact Graded.sorted_leaf _ _
  · exact h c hc

theorem binds_leaves (n : Nat) : ∀ c ∈ leaves.map (fun l ↦ Graded.leaf l.1 l.2), c.Binds n := by
  intro c hc
  obtain ⟨l, -, rfl⟩ := List.mem_map.1 hc
  exact Graded.binds_leaf _ _ _

theorem isExpr_getLast_leaves {c : Graded}
    (hc : (leaves.map fun l ↦ Graded.leaf l.1 l.2).getLast? = some c) : c.isExpr = false := by
  obtain ⟨l, -, rfl⟩ := List.mem_map.1 (List.mem_of_getLast? hc)
  rfl

end Leaves

variable {s t : Session} {ps rest parts : List Part} {part : Part}

theorem Fits.sound (h : x.Fits r least ps s) : x.Sound r least where
  below := h.below
  built := h.built
  unbuilt hr hnone c hc hexpr d hd := by
    rcases h.lead hr hnone with ⟨hnil, -⟩ | ⟨c', hc', hother⟩ | ⟨c', _, _, hone, -⟩
    · rw [hnil] at hd
      cases hd
    · rw [hc] at hc'
      obtain rfl := Option.some.inj hc'
      rw [hexpr] at hother
      cases hother
    · rw [hone] at hd
      cases hd

theorem Fits.ended (h : x.Fits r least ps s) : x.Ended r least s :=
  ⟨h.rule, h.level, h.mirrors, h.sound⟩

/-- Tokens are added to a node, and something else comes next. -/
theorem Fits.take (h : x.Fits r least ps s) (hgains : s.Gains t) (hranked : rankedSeq r parts = true)
    (habove : ∀ p, aboveSeq p ps = true → aboveSeq p parts = true)
    (hlead : leadsSeq true ps = true → t.draft.children = [] → leadsSeq true parts = true)
    (hadmitted : ∀ part rest, ps = part :: rest → part.admitted least = true) :
    (x.take t).Fits r least parts t := by
  obtain ⟨leaves, hleaves⟩ := hgains.children
  have htake := h.mirrors.take_children hleaves
  refine ⟨hgains.rule.trans h.rule, hgains.level.trans h.level, h.mirrors.take hgains, hranked,
    ?_, ?_, ?_, ?_⟩
  · rw [htake]
    exact sorted_append h.below
  · exact fun i hi ↦ (h.built i hi).grow htake fun p _ _ ↦ binds_leaves (p + 1)
  · exact fun i p hi hp hbinary ↦ habove p (h.above i p hi hp hbinary)
  · intro hr hnone
    rcases h.lead hr hnone with ⟨hnil, hlead'⟩ | ⟨c, hc, hother⟩ | ⟨c, part, rest, -, hps, hrefused⟩
    · have hchildren : t.draft.children = leaves.map fun l ↦ .leaf l.1 l.2 := by
        rw [hleaves, ← h.mirrors, hnil, List.map_nil, List.append_nil]
      rw [hnil, List.append_nil] at htake
      rw [htake]
      cases hlast : (leaves.map fun l ↦ Graded.leaf l.1 l.2).getLast? with
      | none =>
        obtain rfl := List.map_eq_nil_iff.1 (List.getLast?_eq_none_iff.1 hlast)
        exact .inl ⟨rfl, hlead hlead' hchildren⟩
      | some c => exact .inr (.inl ⟨c, rfl, isExpr_getLast_leaves hlast⟩)
    · rw [htake, List.getLast?_append, hc]
      exact .inr (.inl ⟨c, rfl, hother⟩)
    · rw [hadmitted part rest hps] at hrefused
      cases hrefused

theorem Fits.next (h : x.Fits r least (part :: rest) s) (hgains : s.Gains t)
    (hnext : part.Next rest parts) (hadmitted : part.admitted s.level = true)
    (hfilled : part.isToken = true → t.draft.children ≠ []) : (x.take t).Fits r least parts t := by
  refine h.take hgains (rankedSeq_next hnext h.ranked) (fun p ↦ aboveSeq_next hnext)
    (fun hlead hnil ↦ leadsSeq_next hnext ?_ hlead) ?_
  · cases htoken : part.isToken with
    | false => rfl
    | true => exact absurd hnil (hfilled htoken)
  · rintro _ _ ⟨⟩
    rw [← h.level]
    exact hadmitted

/-- A node is broken off. -/
theorem Fits.fail (h : x.Fits r least (part :: rest) s) (hgains : s.Gains t)
    (hrefused : part.admitted s.level = false → t.draft.children = s.draft.children) :
    (x.take t).Ended r least t := by
  cases hadmitted : part.admitted s.level with
  | true =>
    have hnothing : (x.take t).Fits r least [] t := by
      refine h.take hgains rfl (fun _ _ ↦ rfl) (fun _ _ ↦ rfl) ?_
      rintro _ _ ⟨⟩
      rw [← h.level]
      exact hadmitted
    exact hnothing.ended
  | false =>
    have hsame : t.draft.children = ([] : List (Leaf × Bool)).map (fun l ↦ .leaf l.1 l.2) ++
        s.draft.children := hrefused hadmitted
    have htake : x.take t = x := by
      have hchildren := h.mirrors.take_children hsame
      cases x
      exact congrArg _ hchildren
    rw [htake]
    exact ⟨hgains.rule.trans h.rule, hgains.level.trans h.level,
      h.mirrors.trans (hrefused hadmitted).symm, h.sound⟩

/-- After a fault tokens are skipped. -/
theorem Ended.mend {o : Session × Option Fault} (h : x.Ended r least o.1) (g : Grammar)
    (input : Input) :
    (x.take (Session.mend g input o)).Ended r least (Session.mend g input o) := by
  have hgains : o.1.Gains (Session.mend g input o) := .of_takes (.mend g o)
  obtain ⟨errors, herrors⟩ := Session.AddsErrors.mend g input o
  have hleaves : (Session.mend g input o).draft.children =
      (errors.map fun l ↦ (l, true)).map (fun l ↦ .leaf l.1 l.2) ++ o.1.draft.children := by
    rw [herrors, List.map_map]
    rfl
  have htake := h.mirrors.take_children hleaves
  refine ⟨hgains.rule.trans h.rule, hgains.level.trans h.level, h.mirrors.take hgains, ?_, ?_, ?_⟩
  · rw [htake]
    exact sorted_append h.sound.below
  · exact fun i hi ↦ (h.sound.built i hi).grow htake fun p _ _ ↦ binds_leaves (p + 1)
  · intro hr hnone c hc hexpr d hd
    rw [htake] at hc hd
    -- an empty node now begins with a token; any other begins as before
    by_cases hnil : x.children = []
    · rw [hnil, List.append_nil] at hc
      rw [isExpr_getLast_leaves hc] at hexpr
      cases hexpr
    · have hlast := List.getLast?_eq_some_getLast hnil
      rw [List.getLast?_append, hlast] at hc
      rw [List.dropLast_append_of_ne_nil hnil, List.mem_append, List.map_map] at hd
      rcases hd with hd | hd
      · obtain ⟨l, -, rfl⟩ := List.mem_map.1 hd
        rfl
      · exact h.sound.unbuilt hr hnone c (hlast.trans hc) hexpr d hd

theorem Ended.binds_close (h : x.Ended r least s) {level : Nat}
    (hlevel : r = .expr → least = level) : (x.close s).Binds level := by
  by_cases hr : r = .expr
  · rw [← hlevel hr]
    exact h.sound.binds_close s
  · have hnone := h.sound.operator_eq_none hr
    refine .node ?_ ?_ <;> intro i <;> simp [hnone]

/-- A node has been read. -/
theorem Fits.push {p : Place} {r' : Rule} {level : Nat} {tail : Bool} {label : Option Label}
    (h : x.Fits r least (.call p r' level tail label :: rest) s) {y : Growth} {least' : Nat}
    (hy : y.Ended r' least' t) (hlevel : r' = .expr → least' = level) :
    (x.push (y.close t)).Fits r least rest (Session.leave s label t) := by
  have hranked := h.ranked
  rw [rankedSeq, Bool.and_eq_true] at hranked
  refine ⟨?_, h.level, h.mirrors.leave hy.mirrors label, hranked.2, ?_, ?_, ?_, ?_⟩
  · rw [← h.rule]
    cases label <;> rfl
  · intro c hc
    rcases List.mem_cons.1 hc with rfl | hc
    · exact hy.sound.sorted_close hy.rule
    · exact h.below c hc
  · intro i hi
    have hchildren : (x.push (y.close t)).children = [y.close t] ++ x.children := rfl
    refine (h.built i hi).grow hchildren fun q hq hbinary c hc ↦ ?_
    obtain rfl := List.mem_singleton.1 hc
    have hcall := h.above i q hi hq hbinary
    rw [aboveSeq, Part.above, Bool.and_eq_true, decide_eq_true_eq] at hcall
    exact (hy.binds_close hlevel).mono hcall.1
  · intro i q hi hq hbinary
    have hcall := h.above i q hi hq hbinary
    rw [aboveSeq, Bool.and_eq_true] at hcall
    exact hcall.2
  · intro hr hnone
    right; left
    rcases h.lead hr hnone with ⟨hnil, hlead⟩ | ⟨c, hc, hother⟩ | ⟨c, part, ps, -, hps, hrefused⟩
    · refine ⟨y.close t, ?_, ?_⟩
      · rw [Growth.push, hnil]
        rfl
      · have hne : (r' != .expr) = true := hlead
        rw [Growth.close, Graded.isExpr, hy.rule]
        simpa using hne
    · refine ⟨c, ?_, hother⟩
      rw [Growth.push, List.getLast?_cons, hc]
      rfl
    · obtain ⟨rfl, -⟩ := List.cons.inj hps
      cases hrefused

/-- A node becomes the left operand of an operator. -/
theorem Fits.wrap {p : Place} {again : Bool} {block : List (List Part)} {seq : List Part}
    {number : Nat} (h : x.Fits r least (.operators p again block :: rest) s) (hgains : s.Gains t)
    (hseq : block[number]? = some seq) :
    ((x.take t).wrap t number (seq ++ .operators p true block :: rest)).Fits r least
      (seq ++ .operators p true block :: rest) t.wrap := by
  have hleft : (x.take t).Ended r least t := h.fail hgains (by simp [Part.admitted])
  have hranked := h.ranked
  simp only [rankedSeq, Part.plain, Part.ranked, Bool.false_or, Bool.and_eq_true,
    List.isEmpty_iff, beq_iff_eq] at hranked
  obtain ⟨⟨rfl, rfl, hblock⟩, -⟩ := hranked
  obtain ⟨q, level, tail, rfl, hlevel, hplain, habove⟩ :=
    exists_guard_of_rankedOperator (rankedOperator_of_getElem? hblock hseq)
  rw [Nat.zero_add] at hlevel
  have hoperator : ((x.take t).wrap t number (.guard q level :: tail ++
      [.operators p true block])).operator = if least ≤ level then some number else none := by
    simp [Growth.wrap, Part.admitted, hleft.level]
  refine ⟨hleft.rule, hleft.level, hleft.mirrors.wrap number _, ?_, ?_, ?_, ?_, ?_⟩
  · rw [List.cons_append, rankedSeq, rankedSeq_append hplain]
    simp [rankedSeq, Part.plain, Part.ranked, hblock]
  · intro c hc
    obtain rfl := List.mem_singleton.1 hc
    exact hleft.sound.sorted_close hleft.rule
  · intro i hi
    rw [hoperator] at hi
    split at hi
    · obtain rfl := Option.some.inj hi
      refine ⟨rfl, List.cons_ne_nil _ _, ⟨level, hlevel, by assumption⟩, fun c hc ↦ ?_, ?_⟩
      · obtain rfl := Option.some.inj hc
        exact hleft.sound.binds_close t
      · intro _ _ _ c hc
        cases hc
    · cases hi
  · intro i p hi hp hbinary
    rw [hoperator] at hi
    split at hi
    · obtain rfl := Option.some.inj hi
      obtain rfl := Option.some.inj (hlevel.symm.trans hp)
      simp [aboveSeq, Part.above, habove hbinary]
    · cases hi
  · intro _ hnone
    rw [hoperator] at hnone
    split at hnone
    · cases hnone
    · -- the level is refused, so the operator's guard is going to break the node off
      rename_i hrefused
      exact .inr (.inr ⟨_, _, _, rfl, rfl, decide_eq_false hrefused⟩)

theorem fits_nil {g : Grammar} (hg : g.Ranked) (hrule : s.draft.rule = r)
    (hchildren : s.draft.children = []) :
    ({} : Growth).Fits r s.level (g.body r) s where
  rule := hrule
  level := rfl
  mirrors := hchildren.symm
  ranked := hg.body r
  below c hc := by cases hc
  built i hi := by cases hi
  above i p hi := by cases hi
  lead hr _ := .inl ⟨rfl, hr ▸ hg.leads⟩

/-- A sequence is read. -/
theorem growth_ended {a : Atlas} (hg : a.grammar.Ranked) (input : Input) (n : Nat)
    (h : x.Fits r least ps s) :
    (growth a input n ps s x).Ended r least (run a input n ps s).1 := by
  -- `Fits` is what a step preserves. A rule that is called begins a node of its own at its own
  -- level, so the node, the rule and the level are left general.
  induction n generalizing ps s x r least with
  | zero =>
    cases ps with
    | nil => exact h.ended
    | cons part rest => exact h.ended
  | succ n ih =>
    cases ps with
    | nil => exact h.ended
    | cons part rest =>
      rw [run_succ, growth]
      have hdoes := s.step_does a input part rest
      generalize s.step a input part rest = step at hdoes ⊢
      cases hdoes with
      | fail f hgains hrefused => exact h.fail hgains hrefused
      | go hgains hnext hadmitted hfilled => exact ih (h.next hgains hnext hadmitted hfilled)
      | @call p r' level tail label hpart =>
        subst hpart
        have hinner := (ih (fits_nil hg (s := s.entering ⟨p, rest, level, tail⟩ r') rfl rfl)).mend
          a.grammar input
        -- only an expression takes over the level it is called at
        refine ih (h.push hinner fun hr ↦ ?_)
        rw [hr]
        rfl
      | operator hgains hpart hseq =>
        subst hpart
        exact ih (h.wrap hgains hseq)

end Growth

/-- The operators of a parse nest by their levels. -/
theorem sorted_ofKinds {a : Atlas} (hg : a.grammar.Ranked) (rule : Rule) (input : Input) :
    (Graded.ofKinds a rule input).tree = (parseKinds a rule input).tree ∧
      (Graded.ofKinds a rule input).Sorted := by
  have hopening : ({} : Growth).Fits rule (Session.opening rule).level (a.grammar.body rule)
      (.opening rule) := Growth.fits_nil hg rfl rfl
  have hroot := (Growth.growth_ended hg input (steps input.size) hopening).mend a.grammar input
  exact ⟨hroot.mirrors.close, hroot.sound.sorted_close hroot.rule⟩

/-- In the tree of any text, begun with any rule, what stands to the right of an operator between
two operands binds tighter than the operator. -/
theorem Parsed.sorted_operators (rule : Rule) (sql : String) :
    (Graded.ofString rule sql).tree = (Parsed.ofString rule sql).tree ∧
      (Graded.ofString rule sql).Sorted :=
  sorted_ofKinds Grammar.sql_ranked rule (Source.ofString sql).input

end PlanCache
