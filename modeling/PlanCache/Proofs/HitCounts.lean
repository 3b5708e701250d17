import PlanCache.Proofs.OuterQuery
import PlanCache.Proofs.Workloads

/-!
The hits that a query is answered with and the hits that a cache counts meanwhile. The two are kept
apart, and part where an inner select of a query that is not stored has a plan already: the answer
counts that plan twice.
-/

namespace PlanCache

namespace Cache

variable {c : Cache} {g : Gathered} {select : String} {sql : String} {n : Normal}

/-- A plan is stored under the text, and stored plans are used. -/
def knows (c : Cache) (select : String) : Bool := (c.lookup? select).isSome

theorem gather_knows {key : String} (hne : select ≠ key) :
    (gather g select).cache.knows key = g.cache.knows key := by
  rw [knows, knows, gather_lookup?_of_ne hne]

theorem gather_counts (g : Gathered) (select : String) :
    (gather g select).hits = g.hits + 2 * (g.cache.knows select).toNat ∧
    (gather g select).cache.hits = g.cache.hits + (g.cache.knows select).toNat := by
  cases h : g.cache.lookup? select with
  | some plan =>
    have hk : g.cache.knows select = true := by rw [knows, h, Option.isSome_some]
    rw [gather_stored h, hk]
    exact ⟨rfl, rfl⟩
  | none =>
    have hk : g.cache.knows select = false := by rw [knows, h, Option.isSome_none]
    rw [gather_missing h, hk]
    exact ⟨rfl, rfl⟩

/-- Each select is looked up in the cache as it was at first, since no select comes twice. -/
theorem fold_gather_counts {selects : List String} (hs : selects.Nodup) (g : Gathered) :
    (selects.foldl gather g).hits = g.hits + 2 * selects.countP g.cache.knows ∧
    (selects.foldl gather g).cache.hits = g.cache.hits + selects.countP g.cache.knows := by
  induction selects generalizing g with
  | nil => exact ⟨rfl, rfl⟩
  | cons select selects ih =>
    obtain ⟨hm, hs⟩ := List.nodup_cons.1 hs
    have hrest : selects.countP (gather g select).cache.knows =
        selects.countP g.cache.knows := by
      apply List.countP_congr
      intro key hkey
      have hne : select ≠ key := fun e ↦ hm (e ▸ hkey)
      rw [gather_knows hne]
    have hcons : (select :: selects).countP g.cache.knows =
        selects.countP g.cache.knows + (g.cache.knows select).toNat := by
      rw [List.countP_cons]
      cases g.cache.knows select <;> rfl
    obtain ⟨hhits, hcache⟩ := gather_counts g select
    obtain ⟨ihhits, ihcache⟩ := ih hs (gather g select)
    rw [List.foldl_cons, ihhits, ihcache, hrest, hhits, hcache, hcons]
    omega

theorem nested_counts (c : Cache) (hn : n.leaves.Nodup) :
    (c.nested n).1.hits = 2 * n.leaves.countP c.knows ∧
    (c.nested n).2.hits = c.hits + n.leaves.countP c.knows := by
  obtain ⟨hhits, hcache⟩ := fold_gather_counts hn ⟨c, n.full, [], 0⟩
  simp only [Nat.zero_add] at hhits hcache
  exact ⟨hhits, hcache⟩

/-- The number of plans that a query finds: one if its own is stored, or else those of its inner
selects. -/
def finds (c : Cache) (n : Normal) : Nat :=
  if c.knows n.full then 1 else if n.Plain then 0 else n.leaves.countP c.knows

theorem answer_counts (c : Cache) (hn : n.leaves.Nodup) :
    (c.answer n).2.hits = c.hits + c.finds n ∧
    (c.answer n).1.hits = if c.knows n.full ∨ n.Plain then c.finds n else 2 * c.finds n := by
  obtain ⟨plan, hl, ha⟩ | ⟨hl, hp, ha⟩ | ⟨hl, hp, ha⟩ := answer_cases c n
  · have hk : c.knows n.full = true := by rw [knows, hl, Option.isSome_some]
    simp [ha, hk, finds, hit]
  · have hk : c.knows n.full = false := by rw [knows, hl, Option.isSome_none]
    simp [ha, hk, hp, finds, store, miss]
  · have hk : c.knows n.full = false := by rw [knows, hl, Option.isSome_none]
    obtain ⟨hhits, hcache⟩ := nested_counts c hn
    simp [ha, hk, hp, finds, hhits, hcache]

theorem finds_eq_zero (hk : ¬c.knows n.full) (hp : ¬n.Plain) :
    c.finds n = 0 ↔ ∀ select ∈ n.leaves, c.lookup? select = none := by
  rw [finds, if_neg hk, if_neg hp, List.countP_eq_zero]
  simp [knows]

/-- A query that is answered adds the number of plans found to the hits of the cache. The answer
says the same number if the plan of the query itself was stored or the query has no inner select,
and else twice the number; so it is right unless an inner select of a new query was stored. -/
theorem fetch_counts (c : Cache) (sql : String) (n : Normal) (h : Normal.ofString sql = .ok n) :
    ∃ a c', c.fetch sql = .ok (a, c') ∧ c'.hits = c.hits + c.finds n ∧
      a.hits = (if c.knows n.full ∨ n.Plain then c.finds n else 2 * c.finds n) ∧
      (c'.hits = c.hits + a.hits ↔
        c.knows n.full ∨ n.Plain ∨ ∀ select ∈ n.leaves, c.lookup? select = none) := by
  obtain ⟨hcache, hhits⟩ := answer_counts c (Normal.leaves_nodup h)
  refine ⟨(c.answer n).1, (c.answer n).2, fetch_of_ok h, hcache, hhits, ?_⟩
  rw [hcache, hhits, Nat.add_left_cancel_iff]
  by_cases hk : c.knows n.full
  · simp [hk]
  · by_cases hp : n.Plain
    · simp [hp]
    · rw [if_neg (not_or.2 ⟨hk, hp⟩), or_iff_right hk, or_iff_right hp, ← finds_eq_zero hk hp]
      omega

/-- An inner select that was stored is counted twice in the answer. -/
theorem exists_fetch_ne_counted {sql : String} (h : Normal.ofString sql = .ok n)
    (hk : c.knows n.full = false) (hp : ¬n.Plain) (hf : c.finds n ≠ 0) :
    ∃ a c', c.fetch sql = .ok (a, c') ∧ c'.hits ≠ c.hits + a.hits := by
  obtain ⟨hcache, hhits⟩ := answer_counts c (Normal.leaves_nodup h)
  rw [if_neg (not_or.2 ⟨Bool.eq_false_iff.1 hk, hp⟩)] at hhits
  refine ⟨(c.answer n).1, (c.answer n).2, fetch_of_ok h, ?_⟩
  rw [hcache, hhits]
  omega

/-- The normal form of a union of which the first select alone has been asked for before. -/
theorem finds_union :
    let c := after [.query "SELECT *"]
    let n : Normal := ⟨"SELECT * UNION SELECT * , *", ["SELECT *", "SELECT * , *"],
      "SELECT * UNION SELECT * , *", []⟩
    c.knows n.full = false ∧ ¬n.Plain ∧ c.finds n = 1 ∧ c.hits = 0 := by
  have hc : after [.query "SELECT *"] =
      (({} : Cache).answer ⟨"SELECT *", ["SELECT *"], "SELECT *", []⟩).2 := by
    rw [after, List.foldl_cons, List.foldl_nil, act_query_of_ok (eq_ok_of_toOption ofString_star)]
  rw [hc]
  decide +kernel

theorem fetch_counts_union :
    ∃ a c', (after [.query "SELECT *"]).fetch "SELECT * UNION SELECT *,*" = .ok (a, c') ∧
      c'.hits = 1 ∧ a.hits = 2 := by
  obtain ⟨hk, hp, hfinds, hzero⟩ := finds_union
  obtain ⟨a, c', hfetch, hcache, hhits, -⟩ :=
    fetch_counts (after [.query "SELECT *"]) _ _ (eq_ok_of_toOption ofString_union.2.1)
  rw [hfinds, hzero] at hcache
  rw [hfinds, if_neg (not_or.2 ⟨Bool.eq_false_iff.1 hk, hp⟩)] at hhits
  exact ⟨a, c', hfetch, hcache, hhits⟩

/-- There is a cache in use and a query whose answer says more hits than the cache counts. -/
theorem answer_hits_ne_counted :
    ∃ c sql a c', Reachable c ∧ c.fetch sql = .ok (a, c') ∧ c'.hits ≠ c.hits + a.hits := by
  have hn := eq_ok_of_toOption ofString_union.2.1
  obtain ⟨hk, hp, hfinds, -⟩ := finds_union
  obtain ⟨a, c', hfetch, hne⟩ := exists_fetch_ne_counted hn hk hp (by rw [hfinds]; decide)
  exact ⟨_, _, a, c', ⟨_, rfl⟩, hfetch, hne⟩

end Cache

end PlanCache
