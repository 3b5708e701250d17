import PlanCache.Proofs.Nesting
import PlanCache.Proofs.NormalForm

/-!
The literals that are listed of a query, and the tokens that are replaced in it. A truth value and
null are listed twice, as an expression in small letters and then as they are written, though they
are one token. All other literals are listed once, as they are written.
-/

namespace PlanCache

section Grouping

variable {α β : Type} {key : α → Nat} {l : List α}

theorem filter_lt_succ (h : l.Pairwise fun x y ↦ key x ≤ key y) (n : Nat) :
    l.filter (key · < n + 1) = l.filter (key · < n) ++ l.filter (key · == n) := by
  induction l with
  | nil => rfl
  | cons x l ih =>
    obtain ⟨hx, hl⟩ := List.pairwise_cons.1 h
    simp only [List.filter_cons, decide_eq_true_eq, beq_iff_eq]
    rcases Nat.lt_trichotomy (key x) n with hlt | rfl | hgt
    · rw [if_pos (Nat.lt_succ_of_lt hlt), if_pos hlt, if_neg (Nat.ne_of_lt hlt), ih hl,
        List.cons_append]
    · have hnone : l.filter (key · < key x) = [] :=
        List.filter_eq_nil_iff.2 fun y hy ↦ mt of_decide_eq_true (Nat.not_lt.2 (hx y hy))
      rw [if_pos (Nat.lt_succ_self _), if_neg (Nat.lt_irrefl _), if_pos rfl, ih hl, hnone,
        List.nil_append, List.nil_append]
    · rw [if_neg (Nat.not_lt.2 hgt), if_neg (Nat.not_lt.2 (Nat.le_of_lt hgt)),
        if_neg (Nat.ne_of_gt hgt), ih hl]

/-- A list in the order of its keys, key by key. -/
theorem eq_flatMap_filter (h : l.Pairwise fun x y ↦ key x ≤ key y) {n : Nat}
    (hn : ∀ x ∈ l, key x < n) : l = (List.range n).flatMap fun i ↦ l.filter (key · == i) := by
  have hall : ∀ n, l.filter (key · < n) = (List.range n).flatMap fun i ↦ l.filter (key · == i) := by
    intro n
    induction n with
    | zero => simp
    | succ n ih =>
      rw [filter_lt_succ h, ih, List.range_succ, List.flatMap_append, List.flatMap_singleton]
  rw [← hall, List.filter_eq_self.2]
  simpa using hn

theorem flatMap_filter_of_nil {l : List α} {f : α → List β} {p : α → Bool}
    (h : ∀ x ∈ l, p x = false → f x = []) : l.flatMap f = (l.filter p).flatMap f := by
  induction l with
  | nil => rfl
  | cons x l ih =>
    obtain ⟨hx, hl⟩ := List.forall_mem_cons.1 h
    rw [List.flatMap_cons, ih hl]
    cases hp : p x with
    | false => rw [hx hp, List.nil_append, List.filter_cons_of_neg (by simp [hp])]
    | true => rw [List.filter_cons_of_pos hp, List.flatMap_cons]

theorem filterMap_eq_replicate {l : List α} {f : α → Option β} {v : β}
    (h : ∀ x ∈ l, f x = some v) : l.filterMap f = List.replicate l.length v := by
  induction l with
  | nil => rfl
  | cons x l ih =>
    obtain ⟨hx, hl⟩ := List.forall_mem_cons.1 h
    rw [List.filterMap_cons_some hx, ih hl, List.length_cons, List.replicate_succ]

theorem length_le_flatMap {l : List α} {f : α → List β} (h : ∀ x, 1 ≤ (f x).length) :
    l.length ≤ (l.flatMap f).length := by
  induction l with
  | nil => exact Nat.le_refl 0
  | cons x l ih =>
    have hx := h x
    rw [List.flatMap_cons, List.length_append, List.length_cons]
    omega

theorem length_lt_flatMap {l : List α} {f : α → List β} (h : ∀ x, 1 ≤ (f x).length) {x : α}
    (hx : x ∈ l) (hlen : 2 ≤ (f x).length) : l.length < (l.flatMap f).length := by
  obtain ⟨p, s, rfl⟩ := List.append_of_mem hx
  have hp := length_le_flatMap (l := p) h
  have hs := length_le_flatMap (l := s) h
  rw [List.flatMap_append, List.flatMap_cons]
  simp only [List.length_append, List.length_cons]
  omega

end Grouping

namespace Tree

/-- Of two nodes the later one is below the other or behind it. -/
theorem TilesAll.pairwise_below_or_before {ts : List Tree} {a b : Nat} (h : TilesAll ts a b) :
    (nodesAll ts).Pairwise fun x y ↦ y ∈ nodesAll x.2 ∨ Before x.1 y.1 := by
  induction ts using forest_induction generalizing a b with
  | nil => exact .nil
  | leaf l e us ih =>
    obtain ⟨m, -, hrest⟩ := tilesAll_cons.1 h
    rw [nodesAll_leaf]
    exact ih hrest
  | node h ts us iht ihu =>
    obtain ⟨m, hnode, hrest⟩ := tilesAll_cons.1 h
    obtain ⟨rfl, hstop, hts⟩ := tiles_node.1 hnode
    rw [nodesAll_node, List.pairwise_cons, List.pairwise_append]
    refine ⟨fun y hy ↦ ?_, iht hts, ihu hrest, fun x hx y hy ↦ .inr (hts.before hrest hx hy)⟩
    rcases List.mem_append.1 hy with hy | hy
    · exact .inl hy
    · refine .inr fun j hj ↦ ?_
      have hend := lastBefore_eq_some (hstop.symm.trans hj)
      have hstart := (hrest.node hy).1
      omega

end Tree

namespace Buffer

variable {b : Buffer} {x y : Head × List Tree} {xs : List (Head × List Tree)} {i : Nat}

/-- Number of the first token of a node, hidden ones included. -/
def first (b : Buffer) (x : Head × List Tree) : Nat := b.source.index x.1.start

def isLiteral (b : Buffer) (x : Head × List Tree) : Bool := (b.literal? x.1 x.2).isSome

/-- An expression that is a truth value or null. -/
def isTruth (b : Buffer) (x : Head × List Tree) : Bool := x.1.rule == .expr && b.isLiteral x

/-- The number of expressions that are a truth value or null and begin with the token `i`. -/
def truths (b : Buffer) (t : Tree) (i : Nat) : Nat :=
  t.nodes.countP fun x ↦ b.isTruth x && b.first x == i

/-- Numbers of the tokens that have another text in `c`. -/
def changed (b c : Buffer) : List Nat :=
  (List.range b.texts.size).filter fun i ↦ c.text i != b.text i

theorem literal?_of_expr (hx : x.1.rule = .expr) : b.literal? x.1 x.2 =
    if b.replaces x || b.lowerText x.2 == "null" then some (b.lowerText x.2) else none := by
  simp only [literal?, replaces, hx]

theorem literal?_of_ne_expr (hx : x.1.rule ≠ .expr) : b.literal? x.1 x.2 =
    if b.replaces x then some (b.nodeText x.2) else none := by
  by_cases h₁ : x.1.rule = .literalValue
  · simp [literal?, replaces, h₁]
  by_cases h₂ : x.1.rule = .anyName
  · simp [literal?, replaces, h₂]
  rw [replaces_of_other h₁ hx h₂, if_neg Bool.false_ne_true]
  unfold literal?
  split
  · exact absurd ‹_› h₁
  · exact absurd ‹_› hx
  · exact absurd ‹_› h₂
  · rfl

theorem literal?_of_expr_isLiteral (hx : x.1.rule = .expr) (h : b.isLiteral x = true) :
    b.literal? x.1 x.2 = some (b.lowerText x.2) := by
  unfold isLiteral at h
  rw [literal?_of_expr hx] at h ⊢
  split at h
  · rw [if_pos ‹_›]
  · cases h

theorem isLiteral_of_replaces (h : b.replaces x = true) : b.isLiteral x = true := by
  by_cases hx : x.1.rule = .expr
  · simp [isLiteral, literal?_of_expr hx, h]
  · simp [isLiteral, literal?_of_ne_expr hx, h]

theorem replaces_of_isLiteral (hx : x.1.rule ≠ .expr) (h : b.isLiteral x = true) :
    b.replaces x = true := by
  simpa [isLiteral, literal?_of_ne_expr hx] using h

end Buffer

/-- A literal that is one token. A truth value or null has a literal value below it, the others have
nothing below them. -/
structure Clear (x : Head × List Tree) : Prop where
  single : Single x
  plain : x.1.rule ≠ .expr → Tree.nodesAll x.2 = []
  truth : x.1.rule = .expr → ∃ y ∈ Tree.nodesAll x.2, y.1.rule = .literalValue

instance (x : Head × List Tree) : Decidable (Clear x) :=
  decidable_of_iff
    (Single x ∧ (x.1.rule ≠ .expr → Tree.nodesAll x.2 = []) ∧
      (x.1.rule = .expr → ∃ y ∈ Tree.nodesAll x.2, y.1.rule = .literalValue))
    ⟨fun ⟨hs, hp, ht⟩ ↦ ⟨hs, hp, ht⟩, fun h ↦ ⟨h.single, h.plain, h.truth⟩⟩

/-- Nodes in order whose literals are clear. -/
structure Listing (b : Buffer) (xs : List (Head × List Tree)) : Prop where
  sorted : xs.Pairwise fun x y ↦ b.first x ≤ b.first y
  inside : xs.Pairwise fun x y ↦ Single x → b.first x = b.first y → y ∈ Tree.nodesAll x.2
  below : ∀ x ∈ xs, ∀ y ∈ Tree.nodesAll x.2, y ∈ xs
  clear : ∀ x ∈ xs, b.isLiteral x = true → Clear x
  lt_size : ∀ x ∈ xs, Single x → b.first x < b.texts.size

theorem Single.tokens {x : Head × List Tree} (h : Single x) : Tree.tokensAll x.2 = [x.1.start] := by
  obtain ⟨error, hleaf⟩ := h.leaf
  rw [Tree.tokensAll, hleaf]
  rfl

namespace Listing

open Buffer

variable {b : Buffer} {x y : Head × List Tree} {xs : List (Head × List Tree)} {i : Nat}

/-- The literals that begin with the token `i`. -/
def group (b : Buffer) (xs : List (Head × List Tree)) (i : Nat) : List (Head × List Tree) :=
  (xs.filter b.isLiteral).filter (b.first · == i)

theorem mem_group : x ∈ group b xs i ↔ x ∈ xs ∧ b.isLiteral x = true ∧ b.first x = i := by
  rw [group, List.mem_filter, List.mem_filter, beq_iff_eq, and_assoc]

theorem literals_eq (h : Listing b xs) : (xs.filterMap fun x ↦ b.literal? x.1 x.2) =
    (List.range b.texts.size).flatMap fun i ↦
      (group b xs i).filterMap fun x ↦ b.literal? x.1 x.2 := by
  have hgroups : xs.filter b.isLiteral = (List.range b.texts.size).flatMap (group b xs) := by
    refine eq_flatMap_filter (h.sorted.sublist List.filter_sublist) fun x hx ↦ ?_
    obtain ⟨hx, hlit⟩ := List.mem_filter.1 hx
    exact h.lt_size x hx (h.clear x hx hlit).single
  have hsome : (xs.filterMap fun x ↦ b.literal? x.1 x.2) =
      (xs.filter b.isLiteral).filterMap fun x ↦ b.literal? x.1 x.2 := by
    rw [List.filterMap_filter]
    refine congrArg (List.filterMap · xs) (funext fun x ↦ ?_)
    cases hx : b.literal? x.1 x.2 <;> simp [Buffer.isLiteral, hx]
  rw [hsome, hgroups, List.filterMap_flatMap]

/-- The literals with one first token: expressions and then one that is none. -/
theorem group_cases (h : Listing b xs) (i : Nat) : group b xs i = [] ∨
    ∃ es y, group b xs i = es ++ [y] ∧ (∀ x ∈ es, x.1.rule = .expr) ∧ y.1.rule ≠ .expr := by
  have hpair : (group b xs i).Pairwise fun x _ ↦ x.1.rule = .expr := by
    have hinside := (h.inside.sublist (List.filter_sublist (p := b.isLiteral))).sublist
      (List.filter_sublist (p := (b.first · == i)))
    refine List.Pairwise.imp_of_mem (fun {x y} hx hy hxy ↦ ?_) hinside
    obtain ⟨hx, hlit, hfirst⟩ := mem_group.1 hx
    obtain ⟨-, -, hfirst'⟩ := mem_group.1 hy
    have hclear := h.clear x hx hlit
    have hmem := hxy hclear.single (hfirst.trans hfirst'.symm)
    refine Decidable.byContradiction fun hne ↦ ?_
    rw [hclear.plain hne] at hmem
    cases hmem
  rcases List.eq_nil_or_concat (group b xs i) with hnil | ⟨es, y, hes⟩
  · exact .inl hnil
  · right
    rw [List.concat_eq_append] at hes
    have hes' : ∀ x ∈ es, x.1.rule = .expr := by
      rw [hes, List.pairwise_append] at hpair
      exact fun x hx ↦ hpair.2.2 x hx y (List.mem_singleton.2 rfl)
    refine ⟨es, y, hes, hes', fun hy ↦ ?_⟩
    · -- If the last one were an expression, the literal below it would come after it.
      have hmem : y ∈ group b xs i := by
        rw [hes]
        exact List.mem_append_right es (List.mem_singleton.2 rfl)
      obtain ⟨hyxs, hlit, hfirst⟩ := mem_group.1 hmem
      have hclear := h.clear y hyxs hlit
      obtain ⟨z, hz, hvalue⟩ := hclear.truth hy
      have hzxs := h.below y hyxs z hz
      have hzlit : b.isLiteral z = true := isLiteral_of_replaces (by rw [replaces, hvalue])
      have hzstart : z.1.start = y.1.start := by
        have htoken := Tree.mem_tokensAll_of_below hz (i := z.1.start) (by
          rw [(h.clear z hzxs hzlit).single.tokens]
          exact List.mem_singleton.2 rfl)
        rwa [hclear.single.tokens, List.mem_singleton] at htoken
      have hzmem : z ∈ group b xs i := mem_group.2 ⟨hzxs, hzlit, by
        rw [← hfirst, first, hzstart]
        rfl⟩
      rw [hes, List.mem_append, List.mem_singleton] at hzmem
      have hexpr : z.1.rule = .expr := by
        rcases hzmem with hzmem | rfl
        · exact hes' z hzmem
        · exact hy
      rw [hvalue] at hexpr
      cases hexpr

/-- What is listed for a token: its text in small letters for every expression, then its text. -/
theorem literals_group (h : Listing b xs) (hi : group b xs i ≠ []) :
    ((group b xs i).filterMap fun x ↦ b.literal? x.1 x.2) =
      List.replicate (xs.countP fun x ↦ b.isTruth x && b.first x == i)
        (String.ofList (Text.lower (b.text i).toList)) ++ [b.text i] := by
  obtain ⟨es, y, hes, hexpr, hy⟩ := (h.group_cases i).resolve_left hi
  have htext : ∀ x ∈ group b xs i, b.nodeText x.2 = b.text i := by
    intro x hx
    obtain ⟨hx, hlit, hfirst⟩ := mem_group.1 hx
    rw [(h.clear x hx hlit).single.nodeText, ← hfirst]
    rfl
  have hcount : (xs.countP fun x ↦ b.isTruth x && b.first x == i) = es.length := by
    have hgroup : (xs.countP fun x ↦ b.isTruth x && b.first x == i) =
        (group b xs i).countP (·.1.rule == .expr) := by
      rw [group, List.countP_filter, List.countP_filter]
      refine congrArg (List.countP · xs) (funext fun x ↦ ?_)
      rw [isTruth, Bool.and_assoc, Bool.and_comm (b.isLiteral x), Bool.and_assoc]
    rw [hgroup, hes, List.countP_append, List.countP_eq_length.2 fun x hx ↦ by simp [hexpr x hx]]
    simp [hy]
  have hvalue : ∀ x ∈ es, b.literal? x.1 x.2 =
      some (String.ofList (Text.lower (b.text i).toList)) := by
    intro x hx
    have hmem : x ∈ group b xs i := hes ▸ List.mem_append_left [y] hx
    rw [literal?_of_expr_isLiteral (hexpr x hx) (mem_group.1 hmem).2.1, lowerText, htext x hmem]
  have hlast : b.literal? y.1 y.2 = some (b.text i) := by
    have hmem : y ∈ group b xs i := hes ▸ List.mem_append_right es (List.mem_singleton.2 rfl)
    rw [literal?_of_ne_expr hy, replaces_of_isLiteral hy (mem_group.1 hmem).2.1, htext y hmem]
    rfl
  rw [hcount, hes, List.filterMap_append, filterMap_eq_replicate hvalue]
  simp only [List.filterMap_cons, hlast, List.filterMap_nil]

/-- A token is replaced if it is the first of a literal. -/
theorem replaced_iff (h : Listing b xs) : (∃ x ∈ xs, b.replaces x = true ∧ b.first x = i) ↔
    group b xs i ≠ [] := by
  constructor
  · rintro ⟨x, hx, hr, hfirst⟩ hnil
    have hmem : x ∈ group b xs i := mem_group.2 ⟨hx, isLiteral_of_replaces hr, hfirst⟩
    rw [hnil] at hmem
    cases hmem
  · intro hne
    obtain ⟨es, y, hes, -, hy⟩ := (h.group_cases i).resolve_left hne
    have hmem : y ∈ group b xs i := hes ▸ List.mem_append_right es (List.mem_singleton.2 rfl)
    obtain ⟨hyxs, hlit, hfirst⟩ := mem_group.1 hmem
    exact ⟨y, hyxs, replaces_of_isLiteral hy hlit, hfirst⟩

variable {c : Buffer}

theorem text_of_replacing (h : Listing b xs) (hc : b.Replacing xs c) (hi : i < b.texts.size) :
    c.text i = if group b xs i = [] then b.text i else placeholder := by
  rw [hc.text i hi]
  by_cases hnil : group b xs i = []
  · rw [if_pos hnil, if_neg]
    intro hany
    obtain ⟨x, hx, hr⟩ := List.any_eq_true.1 hany
    rw [Bool.and_eq_true, beq_iff_eq] at hr
    exact h.replaced_iff.1 ⟨x, hx, hr⟩ hnil
  · obtain ⟨x, hx, hr, hfirst⟩ := h.replaced_iff.2 hnil
    rw [if_neg hnil, if_pos]
    refine List.any_eq_true.2 ⟨x, hx, ?_⟩
    rw [Bool.and_eq_true, beq_iff_eq]
    exact ⟨hr, hfirst⟩

/-- The tokens whose texts are changed are those of the literals. -/
theorem changed_eq (h : Listing b xs) (hc : b.Replacing xs c)
    (hvalue : ∀ x ∈ xs, x.1.rule = .literalValue → Single x → b.text (b.first x) ≠ placeholder) :
    b.changed c = (List.range b.texts.size).filter fun i ↦ !(group b xs i).isEmpty := by
  refine List.filter_congr fun i hi ↦ ?_
  rw [h.text_of_replacing hc (List.mem_range.1 hi)]
  by_cases hnil : group b xs i = []
  · simp [hnil]
  · obtain ⟨es, y, hes, -, hy⟩ := (h.group_cases i).resolve_left hnil
    have hmem : y ∈ group b xs i := hes ▸ List.mem_append_right es (List.mem_singleton.2 rfl)
    obtain ⟨hyxs, hlit, hfirst⟩ := mem_group.1 hmem
    have hsingle := (h.clear y hyxs hlit).single
    have hne : b.text i ≠ placeholder := by
      by_cases hrule : y.1.rule = .literalValue
      · rw [← hfirst]
        exact hvalue y hyxs hrule hsingle
      · intro htext
        have hr := replaces_of_isLiteral hy hlit
        by_cases hname : y.1.rule = .anyName
        · have hnode : b.nodeText y.2 = placeholder := by
            rw [hsingle.nodeText, ← htext, ← hfirst]
            rfl
          rw [replaces, hname] at hr
          dsimp only at hr
          rw [hnode] at hr
          exact absurd hr (by decide)
        · rw [replaces_of_other hrule hy hname] at hr
          cases hr
    have hchanged : (placeholder != b.text i) = true := bne_iff_ne.2 hne.symm
    have hsome : (group b xs i).isEmpty = false := by simp [hes]
    rw [if_neg hnil, hchanged, hsome]
    rfl

/-- The list of literals, by the tokens that are changed. -/
theorem literals_eq_changed {t : Tree} (h : Listing b t.nodes) (hc : b.Replacing t.nodes c)
    (hvalue : ∀ x ∈ t.nodes, x.1.rule = .literalValue → Single x →
      b.text (b.first x) ≠ placeholder) :
    b.literals t = (b.changed c).flatMap fun i ↦
      List.replicate (b.truths t i) (String.ofList (Text.lower (b.text i).toList)) ++
        [b.text i] := by
  rw [Buffer.literals, h.literals_eq, h.changed_eq hc hvalue,
    flatMap_filter_of_nil (p := fun i ↦ !(group b t.nodes i).isEmpty)]
  · refine congrArg List.flatten (List.map_congr_left fun i hi ↦ ?_)
    have hne : group b t.nodes i ≠ [] := by simpa using (List.mem_filter.1 hi).2
    exact h.literals_group hne
  · intro i _ hi
    have hnil : group b t.nodes i = [] := by simpa using hi
    rw [hnil, List.filterMap_nil]

theorem literals_eq_map_iff {t : Tree} (h : Listing b t.nodes) (hc : b.Replacing t.nodes c)
    (hvalue : ∀ x ∈ t.nodes, x.1.rule = .literalValue → Single x →
      b.text (b.first x) ≠ placeholder) :
    b.literals t = (b.changed c).map b.text ↔ ∀ x ∈ t.nodes, b.isTruth x = false := by
  rw [h.literals_eq_changed hc hvalue]
  constructor
  · intro heq x hx
    rw [Bool.eq_false_iff]
    intro htruth
    have hlit : b.isLiteral x = true := (Bool.and_eq_true_iff.1 htruth).2
    -- The token of such an expression is changed and counts twice.
    have hlen := congrArg List.length heq
    have hmem : b.first x ∈ b.changed c := by
      rw [h.changed_eq hc hvalue, List.mem_filter, List.mem_range]
      refine ⟨h.lt_size x hx (h.clear x hx hlit).single, ?_⟩
      have hgroup : x ∈ group b t.nodes (b.first x) := mem_group.2 ⟨hx, hlit, rfl⟩
      cases hnil : group b t.nodes (b.first x) with
      | nil =>
        rw [hnil] at hgroup
        cases hgroup
      | cons => rfl
    have hpos : 0 < b.truths t (b.first x) := by
      rw [Buffer.truths, List.countP_pos_iff]
      exact ⟨x, hx, by simp [htruth]⟩
    have hlt := length_lt_flatMap (f := fun i ↦ List.replicate (b.truths t i)
      (String.ofList (Text.lower (b.text i).toList)) ++ [b.text i]) (fun i ↦ by simp) hmem
      (by simp; omega)
    rw [List.length_map] at hlen
    omega
  · intro hnone
    rw [List.map_eq_flatMap]
    refine congrArg (List.flatMap · (b.changed c)) (funext fun i ↦ ?_)
    have hzero : b.truths t i = 0 := by
      rw [Buffer.truths, List.countP_eq_zero]
      intro x hx
      simp [hnone x hx]
    rw [hzero]
    rfl

end Listing

/-- No literal is written like the placeholder. -/
theorem Token.text_ne_placeholder {sql : String} {x : Token} (hx : x ∈ scan sql)
    (hk : literalKinds.contains x.kind = true) : x.text ≠ placeholder := by
  have hrules : ∀ r ∈ LexRule.all, literalKinds.contains r.kind = true →
      (r.text.deriv '?').nullable = false ∧ (r.atEnd.deriv '?').nullable = false := by
    decide +kernel
  intro htext
  rcases fits_of_mem_scanFrom {} sql.toList hx with heof | hstray | ⟨r, hr, hkind, hfits⟩
  · rw [heof] at hk
    exact absurd hk (by decide)
  · rw [hstray] at hk
    exact absurd hk (by decide)
  · have hword : x.text.toList = ['?'] := by rw [htext]; decide
    obtain ⟨htext', hend⟩ := hrules r hr (hkind ▸ hk)
    rw [hword, ← Regex.matches_deriv, ← Regex.matches_deriv, Regex.matches_nil, Regex.matches_nil,
      htext', hend] at hfits
    rcases hfits with h | h <;> cases h

section Script

variable {sql : String}

theorem exists_tilesAll_ofString (sql : String) :
    ∃ e, Tree.TilesAll [(Buffer.ofString sql).2] 0 e := by
  obtain ⟨e, he⟩ : ∃ e, (parseKinds .sql .sqlStmtList (Source.ofString sql).input).tree.Tiles 0 e :=
    parseKinds_tiles Grammar.sql_tame (by decide) _
  exact ⟨e, Tree.tilesAll_cons.2 ⟨e, he, Tree.tilesAll_nil.2 rfl⟩⟩

theorem listing_ofString (h : ∀ x ∈ (Buffer.ofString sql).2.nodes,
      (Buffer.ofString sql).1.isLiteral x = true → Clear x) :
    Listing (Buffer.ofString sql).1 (Buffer.ofString sql).2.nodes := by
  obtain ⟨e, htiles⟩ := exists_tilesAll_ofString sql
  have hnodes : Tree.nodesAll [(Buffer.ofString sql).2] = (Buffer.ofString sql).2.nodes := by
    rw [Tree.nodesAll, Tree.nodesAll, List.append_nil]
  have hstart : ∀ x ∈ (Buffer.ofString sql).2.nodes, x.1.start < (Source.ofString sql).input.size :=
    fun x hx ↦ ((placed_ofString sql).nodes x hx).1.start_lt
  refine ⟨?_, ?_, ?_, h, ?_⟩
  · have hsorted := htiles.pairwise_start
    rw [hnodes] at hsorted
    exact hsorted.imp_of_mem fun _ hy hxy ↦ index_le_index hxy (hstart _ hy)
  · have hbelow := htiles.pairwise_below_or_before
    rw [hnodes] at hbelow
    refine hbelow.imp_of_mem fun {x y} _ hy hxy hsingle hfirst ↦ hxy.resolve_right fun hbefore ↦ ?_
    have hlt := index_lt_index (hbefore _ hsingle.stop) (hstart _ hy)
    exact Nat.ne_of_lt hlt hfirst
  · intro x hx y hy
    rw [← hnodes] at hx ⊢
    exact Tree.mem_nodesAll_of_below hx hy
  · intro x hx hsingle
    refine Nat.lt_of_lt_of_le (Fills.lt_fetched hx ?_) (fetched_le_size .sqlStmtList sql)
    exact (Head.holds_iff hsingle.stop).2 ⟨Nat.le_refl _, Nat.le_refl _⟩

/-- The token at a place of the input, with its text in the buffer. -/
theorem exists_token {m : Nat} (hm : m < (Source.ofString sql).input.size) :
    ∃ y ∈ Token.scan sql, (Source.ofString sql).input.kind m = y.kind ∧
      (Buffer.ofString sql).1.text ((Source.ofString sql).index m) =
        if (Source.ofString sql).index m ≤ lastRead sql then y.text else "" := by
  obtain ⟨⟨y, i⟩, hy⟩ := exists_visible_of_lt hm
  have hscan := (Token.mem_solid.1 (List.mem_filter.1 (List.mem_of_getElem? hy)).1).1
  refine ⟨y, List.mem_of_getElem? hscan, ?_, ?_⟩
  · rw [Input.kind, input_ofString, Array.getD_eq_getD_getElem?, List.getElem?_toArray,
      List.getElem?_map, hy]
    rfl
  · rw [index_of_visible hy, text_ofString hscan]

theorem text_ne_placeholder_of_literalValue {x : Head × List Tree}
    (hx : x ∈ (Buffer.ofString sql).2.nodes) (hrule : x.1.rule = .literalValue) :
    (Buffer.ofString sql).1.text ((Buffer.ofString sql).1.first x) ≠ placeholder := by
  obtain ⟨hplaced, -⟩ := (placed_ofString sql).nodes x hx
  obtain ⟨y, hy, hkind, htext⟩ := exists_token hplaced.start_lt
  have hliteral := hplaced.literal_start hrule
  rw [hkind] at hliteral
  rw [Buffer.first, show (Buffer.ofString sql).1.source = Source.ofString sql from rfl, htext]
  split
  · exact Token.text_ne_placeholder hy hliteral
  · decide

end Script

end PlanCache
