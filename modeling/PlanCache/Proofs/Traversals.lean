import PlanCache.Parse.Walk
import PlanCache.Proofs.Frontier
import PlanCache.Proofs.Tiling

/-!
All ways through the tree of a parse see the same nodes and the same leaves, and whoever has watched
the parse has seen the leaves that were tokens, in the same order.
-/

namespace PlanCache

namespace Step

def entered? : Step → Option Rule
  | .enter r => some r
  | _ => none

def leaf? : Step → Option (Leaf × Bool)
  | .leaf l error => some (l, error)
  | _ => none

/-- Walks in which each node that is entered is left again, after all that is entered below it. -/
inductive Nested : List Step → Prop
  | nil : Nested []
  | leaf (l : Leaf) (error : Bool) {rest : List Step} : Nested rest → Nested (.leaf l error :: rest)
  | node (r : Rule) {below rest : List Step} :
      Nested below → Nested rest → Nested (.enter r :: (below ++ .exit r :: rest))

end Step

namespace Tree

theorem walkAll_leaf (l : Leaf) (error : Bool) (us : List Tree) :
    walkAll (.leaf l error :: us) = .leaf l error :: walkAll us := rfl

theorem walkAll_node (h : Head) (ts us : List Tree) :
    walkAll (.node h ts :: us) = .enter h.rule :: (walkAll ts ++ .exit h.rule :: walkAll us) := by
  have hwalk : walkAll (.node h ts :: us) =
      .enter h.rule :: walkAll ts ++ [.exit h.rule] ++ walkAll us := rfl
  rw [hwalk, List.cons_append, List.cons_append, List.append_assoc, List.singleton_append]

theorem walkAll_singleton (t : Tree) : walkAll [t] = t.walk := List.append_nil _

theorem rulesAll_leaf (l : Leaf) (error : Bool) (us : List Tree) :
    rulesAll (.leaf l error :: us) = rulesAll us := rfl

theorem rulesAll_node (h : Head) (ts us : List Tree) :
    rulesAll (.node h ts :: us) = h.rule :: (rulesAll ts ++ rulesAll us) := rfl

theorem rulesAll_singleton (t : Tree) : rulesAll [t] = t.rules := List.append_nil _

theorem nested_walkAll (ts : List Tree) : Step.Nested (walkAll ts) := by
  induction ts using forest_induction with
  | nil => exact .nil
  | leaf l error us ih =>
    rw [walkAll_leaf]
    exact .leaf l error ih
  | node h ts us iht ihu =>
    rw [walkAll_node]
    exact .node h.rule iht ihu

theorem nested_walk (t : Tree) : Step.Nested t.walk := by
  have h := nested_walkAll [t]
  rwa [walkAll_singleton] at h

theorem entered_walkAll (ts : List Tree) :
    (walkAll ts).filterMap Step.entered? = rulesAll ts := by
  induction ts using forest_induction with
  | nil => rfl
  | leaf l error us ih => rw [walkAll_leaf, List.filterMap_cons_none rfl, ih, rulesAll_leaf]
  | node h ts us iht ihu =>
    rw [walkAll_node, List.filterMap_cons_some (f := Step.entered?) rfl, List.filterMap_append,
      List.filterMap_cons_none rfl, iht, ihu, rulesAll_node]

theorem entered_walk (t : Tree) : t.walk.filterMap Step.entered? = t.rules := by
  have h := entered_walkAll [t]
  rwa [walkAll_singleton, rulesAll_singleton] at h

theorem leaf_walkAll (ts : List Tree) : (walkAll ts).filterMap Step.leaf? = leavesAll ts := by
  induction ts using forest_induction with
  | nil => rfl
  | leaf l error us ih =>
    rw [walkAll_leaf, List.filterMap_cons_some (f := Step.leaf?) rfl, ih, leavesAll_leaf]
  | node h ts us iht ihu =>
    rw [walkAll_node, List.filterMap_cons_none rfl, List.filterMap_append,
      List.filterMap_cons_none rfl, iht, ihu, leavesAll_node]

theorem leaf_walk (t : Tree) : t.walk.filterMap Step.leaf? = t.leaves := by
  have h := leaf_walkAll [t]
  rwa [walkAll_singleton, leavesAll_singleton] at h

theorem weightAll_leaf (cost : Nat) (l : Leaf) (error : Bool) (us : List Tree) :
    weightAll cost (.leaf l error :: us) = (if error then cost else 1) + weightAll cost us := rfl

theorem weightAll_node (cost : Nat) (h : Head) (ts us : List Tree) :
    weightAll cost (.node h ts :: us) = weightAll cost ts + weightAll cost us := rfl

theorem weightAll_eq (cost : Nat) (ts : List Tree) :
    weightAll cost ts =
      (leavesAll ts).countP (fun x ↦ !x.2) + cost * (leavesAll ts).countP (fun x ↦ x.2) := by
  induction ts using forest_induction with
  | nil => rfl
  | leaf l error us ih =>
    rw [weightAll_leaf, ih, leavesAll_leaf, List.countP_cons, List.countP_cons]
    cases error with
    | false =>
      simp only [Bool.not_false, Bool.false_eq_true, if_true, if_false, Nat.add_zero]
      omega
    | true =>
      simp only [Bool.not_true, Bool.false_eq_true, if_true, if_false, Nat.mul_add, Nat.mul_one,
        Nat.add_zero]
      omega
  | node h ts us iht ihu =>
    rw [weightAll_node, iht, ihu, leavesAll_node, List.countP_append, List.countP_append,
      Nat.mul_add]
    omega

theorem weight_eq (cost : Nat) (t : Tree) :
    t.weight cost = t.leaves.countP (fun x ↦ !x.2) + cost * t.leaves.countP (fun x ↦ x.2) := by
  have h := weightAll_eq cost [t]
  rwa [leavesAll_singleton] at h

theorem leavesAll_append (ts us : List Tree) :
    leavesAll (ts ++ us) = leavesAll ts ++ leavesAll us := by
  induction ts with
  | nil => rfl
  | cons t ts ih =>
    have hcons : ∀ vs, leavesAll (t :: vs) = t.leaves ++ leavesAll vs := fun _ ↦ rfl
    rw [List.cons_append, hcons, hcons, ih, List.append_assoc]

end Tree

/-- The token that an event is about, and whether it was an error. -/
def Event.token? : Event → Option (Nat × Bool)
  | .token i error => some (i, error)
  | _ => none

/-- The token that a leaf is, and whether it is an error. -/
def Leaf.taken? : Leaf × Bool → Option (Nat × Bool)
  | (.read i, error) => some (i, error)
  | (.missing _, _) => none

namespace Session

variable {input : Input} {s t : Session}

/-- The tokens below the open node. -/
def taken (s : Session) : List (Nat × Bool) :=
  (Tree.leavesAll s.draft.children.reverse).filterMap Leaf.taken?

/-- The tokens that were announced. -/
def announced (s : Session) : List (Nat × Bool) := s.events.reverse.filterMap Event.token?

theorem taken_push (tree : Tree) (d : Draft) :
    (Tree.leavesAll (d.push tree).children.reverse).filterMap Leaf.taken? =
      (Tree.leavesAll d.children.reverse).filterMap Leaf.taken? ++
        tree.leaves.filterMap Leaf.taken? := by
  have he : (d.push tree).children.reverse = d.children.reverse ++ [tree] := List.reverse_cons
  rw [he, Tree.leavesAll_append, List.filterMap_append, Tree.leavesAll_singleton]

theorem taken_close (s : Session) (stop : Option Nat) :
    (s.draft.close stop).leaves.filterMap Leaf.taken? = s.taken := rfl

theorem announced_cons (s : Session) (e : Event) :
    (e :: s.events).reverse.filterMap Event.token? = s.announced ++ (Event.token? e).toList := by
  rw [List.reverse_cons, List.filterMap_append, announced]
  cases h : e.token? <;> simp [h]

/-- What is taken into the tree is announced, each time and in order. -/
structure Tells (s t : Session) (new : List (Nat × Bool)) : Prop where
  taken : t.taken = s.taken ++ new
  announced : t.announced = s.announced ++ new

theorem Tells.of_eq (hd : t.draft = s.draft) (he : t.events = s.events) : Tells s t [] := by
  constructor
  · rw [Session.taken, Session.taken, hd, List.append_nil]
  · rw [Session.announced, Session.announced, he, List.append_nil]

theorem Moves.tells (h : Moves input s t) : ∃ new, Tells s t new := by
  induction h with
  | trans _ _ ih₁ ih₂ =>
    obtain ⟨new₁, h₁⟩ := ih₁
    obtain ⟨new₂, h₂⟩ := ih₂
    refine ⟨new₁ ++ new₂, ?_, ?_⟩
    · rw [h₂.taken, h₁.taken, List.append_assoc]
    · rw [h₂.announced, h₁.announced, List.append_assoc]
  | @quiet s t h =>
    refine ⟨[], ?_, ?_⟩
    · rw [Session.taken, Session.taken, h.children, List.append_nil]
    · rw [Session.announced, Session.announced, h.events, List.append_nil]
  | settle s => exact ⟨[], .of_eq rfl rfl⟩
  | report s r =>
    have he : (s.report r).events = s.events := by
      unfold Session.report
      split <;> rfl
    exact ⟨[], .of_eq (report_draft r s) he⟩
  | fault s f =>
    have he : (s.reportFault input f).events = s.events := by
      unfold reportFault Session.report
      repeat' split
      all_goals rfl
    exact ⟨[], .of_eq (reportFault_draft f s) he⟩
  | consume s => exact ⟨[(s.pos, s.recovering)], taken_push _ s.draft, announced_cons s _⟩
  | supply s k =>
    refine ⟨[], taken_push _ s.draft, ?_⟩
    rw [List.append_nil]
    rfl
  | @call s t r site label _ ih =>
    -- the node begins without leaves, so what it has at its end is new
    obtain ⟨new, h⟩ := ih
    have hopen : (s.enter r site).taken = [] := rfl
    have hnew : t.taken = new := by rw [h.taken, hopen, List.nil_append]
    have hbegun : (s.enter r site).announced = s.announced := by
      rw [Session.announced, Session.enter, announced_cons]
      exact List.append_nil _
    refine ⟨new, ?_, ?_⟩
    · have hpush := taken_push (t.draft.close t.previous) s.draft
      rw [taken_close, hnew] at hpush
      cases label <;> exact hpush
    · have hleft : (Session.leave s label t).announced = t.announced := by
        rw [Session.announced, Session.leave, announced_cons]
        exact List.append_nil _
      rw [hleft, h.announced, hbegun]
  | exit s =>
    refine ⟨[], ?_, announced_cons s _⟩
    rw [List.append_nil]
    rfl
  | wrap s =>
    refine ⟨[], ?_, announced_cons s _⟩
    have hwrap : s.wrap.taken = (s.draft.close s.previous).leaves.filterMap Leaf.taken? := by
      rw [Session.taken, Session.wrap, List.reverse_singleton, Tree.leavesAll_singleton]
    rw [hwrap, taken_close, List.append_nil]

end Session

open Session in
/-- Whoever watches a parse is told of the leaves that are tokens, in the order of the tree. -/
theorem parseKinds_announced (a : Atlas) (rule : Rule) (input : Input) :
    (parseKinds a rule input).events.filterMap Event.token? =
      (parseKinds a rule input).tree.leaves.filterMap Leaf.taken? := by
  obtain ⟨new, h⟩ := (moves_final a rule input).tells
  have hopen : (Session.opening rule).taken = [] := rfl
  have hbegun : (Session.opening rule).announced = [] := rfl
  rw [parseKinds_eq]
  dsimp only
  rw [taken_close, announced_cons, h.taken, h.announced, hopen, hbegun]
  exact List.append_nil _

/-- Of the tree of any parse: a walk leaves each node that it enters after all that it enters below
it; it enters nodes of the rules that a visit from the top sees, in the same order; it meets the
leaves in their order; the weights of the leaves add up to one for each that was expected and the
cost for each error; and the parse has announced the leaves that are tokens, in the same order. -/
theorem Parsed.traversals_agree (rule : Rule) (sql : String) :
    let p := Parsed.ofString rule sql
    Step.Nested p.tree.walk ∧
    p.tree.walk.filterMap Step.entered? = p.tree.rules ∧
    p.tree.walk.filterMap Step.leaf? = p.tree.leaves ∧
    (∀ cost, p.tree.weight cost =
      p.tree.leaves.countP (fun x ↦ !x.2) + cost * p.tree.leaves.countP (fun x ↦ x.2)) ∧
    p.parse.events.filterMap Event.token? = p.tree.leaves.filterMap Leaf.taken? := by
  intro p
  exact ⟨p.tree.nested_walk, p.tree.entered_walk, p.tree.leaf_walk, fun cost ↦ p.tree.weight_eq cost,
    parseKinds_announced .sql rule p.source.input⟩

end PlanCache
