import PlanCache.Proofs.Transparency

/-!
The same queries asked of two new caches, one that uses its stored plans and one that does not. The
first never does more work, and it stores nothing that the second does not store.
-/

namespace PlanCache

namespace Cache

/-- The cache after queries have been asked in turn. One without a normal form changes nothing. -/
def ask (c : Cache) (sqls : List String) : Cache :=
  sqls.foldl (fun c sql ↦ c.act (.query sql)) c

/-- The answers to queries that are asked in turn. -/
def answers (c : Cache) : List String → List (Except RangeError Answer)
  | [] => []
  | sql :: sqls => (c.fetch sql).map Prod.fst :: (c.act (.query sql)).answers sqls

theorem ask_cons (c : Cache) (sql : String) (sqls : List String) :
    c.ask (sql :: sqls) = (c.act (.query sql)).ask sqls := by
  rw [ask, ask, List.foldl_cons]

section Unused

variable {c : Cache} {n : Normal} {sql : String}

theorem lookup?_of_disabled (h : c.enabled = false) (key : String) : c.lookup? key = none := by
  simp [lookup?, h]

theorem gather_of_disabled {g : Gathered} (h : g.cache.enabled = false) (select : String) :
    (gather g select).hits = g.hits ∧ (gather g select).cache.hits = g.cache.hits := by
  rw [gather_missing (lookup?_of_disabled h select)]
  exact ⟨rfl, rfl⟩

theorem fold_gather_of_disabled (selects : List String) {g : Gathered}
    (h : g.cache.enabled = false) :
    (selects.foldl gather g).hits = g.hits ∧
      (selects.foldl gather g).cache.hits = g.cache.hits := by
  induction selects generalizing g with
  | nil => exact ⟨rfl, rfl⟩
  | cons select selects ih =>
    have hs := gather_of_disabled h select
    have hr := ih ((gather_enabled g select).trans h)
    exact ⟨hr.1.trans hs.1, hr.2.trans hs.2⟩

/-- Without stored plans a query is answered by itself, and nothing counts as a hit. -/
theorem answer_of_disabled (h : c.enabled = false) (hn : Normal.ofString sql = .ok n) :
    (c.answer n).1 = ⟨n.ownPlan, n.literals, 0⟩ ∧ (c.answer n).2.hits = c.hits := by
  have hl := lookup?_of_disabled h
  have hplan : (c.answer n).1.plan = n.ownPlan :=
    answer_plan_of_lookup?_none hn (hl n.full) fun select _ ↦ found_of_lookup?_none (hl select)
  by_cases hp : n.Plain
  · rw [answer_plain (hl n.full) hp] at hplan ⊢
    dsimp only at hplan
    rw [hplan]
    exact ⟨rfl, rfl⟩
  · have hf := fold_gather_of_disabled n.leaves (g := ⟨c, n.full, [], 0⟩) h
    rw [answer_nested (hl n.full) hp, nested] at hplan ⊢
    dsimp only at hplan hf ⊢
    rw [hplan, hf.1]
    exact ⟨rfl, hf.2⟩

theorem fetch_fst_of_disabled (h : c.enabled = false) (sql : String) :
    (c.fetch sql).map Prod.fst =
      (Normal.ofString sql).map fun n ↦ ⟨n.ownPlan, n.literals, 0⟩ := by
  cases hn : Normal.ofString sql with
  | ok n =>
    rw [fetch_of_ok hn, Except.map, Except.map, (answer_of_disabled h hn).1]
  | error e =>
    rw [fetch_eq_error_iff.2 hn, Except.map, Except.map]

theorem act_query_of_disabled (h : c.enabled = false) (sql : String) :
    (c.act (.query sql)).enabled = false ∧ (c.act (.query sql)).hits = c.hits := by
  cases hn : Normal.ofString sql with
  | ok n =>
    rw [act_query_of_ok hn]
    exact ⟨(answer_enabled c n).trans h, (answer_of_disabled h hn).2⟩
  | error e =>
    rw [act_query_of_error hn]
    exact ⟨h, rfl⟩

theorem ask_hits_of_disabled (sqls : List String) (h : c.enabled = false) :
    (c.ask sqls).hits = c.hits := by
  induction sqls generalizing c with
  | nil => rfl
  | cons sql sqls ih =>
    obtain ⟨he, hh⟩ := act_query_of_disabled h sql
    rw [ask_cons, ih he, hh]

/-- Without stored plans, what was asked before a query has no effect on its answer. -/
theorem answers_of_disabled (sqls : List String) (h : c.enabled = false) :
    c.answers sqls = sqls.map fun sql ↦
      (Normal.ofString sql).map fun n ↦ ⟨n.ownPlan, n.literals, 0⟩ := by
  induction sqls generalizing c with
  | nil => rfl
  | cons sql sqls ih =>
    rw [answers, fetch_fst_of_disabled h, ih (act_query_of_disabled h sql).1, List.map_cons]

end Unused

/-- The first cache has done no more than the second, which does not use stored plans, and has
stored plans under no other keys. -/
structure Cheaper (c d : Cache) : Prop where
  disabled : d.enabled = false
  requests : c.requests ≤ d.requests
  misses : c.misses ≤ d.misses
  score : c.score ≤ d.score
  keys : ∀ key ∈ c.plans.keys, key ∈ d.plans.keys

namespace Cheaper

variable {c d : Cache} {n : Normal} {g g' : Gathered}

theorem stay_made (h : Cheaper c d) (query key : String) (plan : Plan) :
    Cheaper c ((d.miss query).store key plan) where
  disabled := h.disabled
  requests := Nat.le_succ_of_le h.requests
  misses := Nat.le_succ_of_le h.misses
  score := Nat.le_add_right_of_le h.score
  keys k hk := Table.mem_keys_put.2 (.inr (h.keys k hk))

theorem hit_made (h : Cheaper c d) (query key : String) (plan : Plan) :
    Cheaper c.hit ((d.miss query).store key plan) where
  disabled := h.disabled
  requests := Nat.succ_le_succ h.requests
  misses := Nat.le_succ_of_le h.misses
  score := Nat.le_add_right_of_le h.score
  keys k hk := Table.mem_keys_put.2 (.inr (h.keys k hk))

theorem made_made (h : Cheaper c d) (query key : String) (plan plan' : Plan) :
    Cheaper ((c.miss query).store key plan) ((d.miss query).store key plan') where
  disabled := h.disabled
  requests := Nat.succ_le_succ h.requests
  misses := Nat.succ_le_succ h.misses
  score := Nat.add_le_add_right h.score _
  keys k hk := Table.mem_keys_put.2 ((Table.mem_keys_put.1 hk).imp_right (h.keys k))

theorem stay_fold (selects : List String) (h : Cheaper c g.cache) :
    Cheaper c (selects.foldl gather g).cache := by
  refine fold_gather_invariant (P := fun g ↦ Cheaper c g.cache) (fun g select hg ↦ ?_) selects h
  rw [gather_missing (lookup?_of_disabled hg.disabled select)]
  exact hg.stay_made _ _ _

theorem gather (h : Cheaper g.cache g'.cache) (select : String) :
    Cheaper (gather g select).cache (Cache.gather g' select).cache := by
  rw [gather_missing (lookup?_of_disabled h.disabled select)]
  cases hl : g.cache.lookup? select with
  | some plan =>
    rw [gather_stored hl]
    exact h.hit_made _ _ _
  | none =>
    rw [gather_missing hl]
    exact h.made_made _ _ _ _

theorem fold_gather (selects : List String) (h : Cheaper g.cache g'.cache) :
    Cheaper (selects.foldl Cache.gather g).cache (selects.foldl Cache.gather g').cache := by
  induction selects generalizing g g' with
  | nil => exact h
  | cons select selects ih => exact ih (h.gather select)

/-- One query: a stored plan saves at least the request that it answers, and what is planned on one
side is planned on the other too. -/
theorem answer (h : Cheaper c d) (n : Normal) : Cheaper (c.answer n).2 (d.answer n).2 := by
  have hd := lookup?_of_disabled h.disabled n.full
  obtain ⟨plan, -, hc⟩ | ⟨-, hp, hc⟩ | ⟨-, hp, hc⟩ := answer_cases c n
  · rw [hc]
    by_cases hp : n.Plain
    · rw [answer_plain hd hp]
      exact h.hit_made _ _ _
    · rw [answer_nested hd hp, nested]
      exact (stay_fold n.leaves (g := ⟨d, n.full, [], 0⟩) h).hit_made _ _ _
  · rw [hc, answer_plain hd hp]
    exact h.made_made _ _ _ _
  · rw [hc, answer_nested hd hp, nested, nested, fold_gather_rest, fold_gather_rest]
    have hg : Cheaper (n.leaves.foldl Cache.gather ⟨c, n.full, [], 0⟩).cache
        (n.leaves.foldl Cache.gather ⟨d, n.full, [], 0⟩).cache := fold_gather n.leaves h
    exact hg.made_made _ _ _ _

theorem act_query (h : Cheaper c d) (sql : String) :
    Cheaper (c.act (.query sql)) (d.act (.query sql)) := by
  cases hn : Normal.ofString sql with
  | ok n =>
    rw [act_query_of_ok hn, act_query_of_ok hn]
    exact h.answer n
  | error e =>
    rw [act_query_of_error hn, act_query_of_error hn]
    exact h

theorem ask (sqls : List String) (h : Cheaper c d) : Cheaper (c.ask sqls) (d.ask sqls) := by
  induction sqls generalizing c d with
  | nil => exact h
  | cons sql sqls ih =>
    rw [ask_cons, ask_cons]
    exact ih (h.act_query sql)

end Cheaper

theorem cheaper_new : Cheaper {} unused :=
  ⟨rfl, Nat.le_refl 0, Nat.le_refl 0, Nat.le_refl 0, fun _ h ↦ h⟩

/-- Queries asked in turn of a new cache that does not use stored plans: nothing is a hit, and each
answer is the one that a new cache gives. A new cache that uses stored plans gets through the same
queries with no more requests, misses and complexity, and has no other keys in the end. -/
theorem ask_new_le_ask_unused (sqls : List String) :
    (unused.ask sqls).hits = 0 ∧
    (∀ answer, .ok answer ∈ unused.answers sqls → answer.hits = 0) ∧
    unused.answers sqls = sqls.map (fun sql ↦ (unused.fetch sql).map Prod.fst) ∧
    (({} : Cache).ask sqls).requests ≤ (unused.ask sqls).requests ∧
    (({} : Cache).ask sqls).misses ≤ (unused.ask sqls).misses ∧
    (({} : Cache).ask sqls).score ≤ (unused.ask sqls).score ∧
    ∀ key ∈ (({} : Cache).ask sqls).plans.keys, key ∈ (unused.ask sqls).plans.keys := by
  have hrun := cheaper_new.ask sqls
  have hanswers := answers_of_disabled sqls (c := unused) rfl
  refine ⟨ask_hits_of_disabled sqls rfl, fun answer ha ↦ ?_, ?_, hrun.requests, hrun.misses,
    hrun.score, hrun.keys⟩
  · rw [hanswers] at ha
    obtain ⟨sql, -, hs⟩ := List.mem_map.1 ha
    cases hn : Normal.ofString sql with
    | ok n =>
      rw [hn] at hs
      cases hs
      rfl
    | error e =>
      rw [hn] at hs
      cases hs
  · rw [hanswers]
    exact List.map_congr_left fun sql _ ↦ (fetch_fst_of_disabled rfl sql).symm

end Cache

end PlanCache
