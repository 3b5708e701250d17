import PlanCache.Proofs.Savings

/-!
What a workload costs a cache that uses its plans does not depend on its order. Each key is planned
once, whichever query comes first, so the misses are the keys and the score is the sum of their
prices.
-/

namespace PlanCache

/-- Sum of the prices of keys. -/
def total (price : String → Nat) : List String → Nat
  | [] => 0
  | key :: keys => price key + total price keys

theorem total_append (price : String → Nat) (keys keys' : List String) :
    total price (keys ++ keys') = total price keys + total price keys' := by
  induction keys with
  | nil => simp [total]
  | cons key keys ih => simp [total, ih, Nat.add_assoc]

/-- Queries of one text have the same selects, and no query with inner selects is an inner
select. -/
structure Layered (queries : String → Prop) : Prop where
  same : ∀ n m, Asked queries n → Asked queries m → n.full = m.full → n.leaves = m.leaves
  inner : ∀ n m, Asked queries n → Asked queries m → ¬n.Plain → n.full ∉ m.leaves

/-- What planning under a key costs: a query with inner selects is planned without them. -/
structure Prices (queries : String → Prop) (price : String → Nat) : Prop where
  plain : ∀ n, Asked queries n → n.Plain → price n.full = complexity n.full
  nested : ∀ n, Asked queries n → ¬n.Plain → price n.full = complexity n.rest
  leaf : ∀ n, Asked queries n → ∀ key ∈ n.leaves, price key = complexity key

variable {queries : String → Prop} {price : String → Nat}

namespace Cache

variable {c : Cache} {n m : Normal} {g : Gathered}

/-- Each key of a cache was planned once, at its price. -/
structure Counted (price : String → Nat) (c : Cache) : Prop where
  enabled : c.enabled = true
  keys_nodup : c.plans.keys.Nodup
  misses : c.misses = c.plans.keys.length
  score : c.score = total price c.plans.keys

namespace Counted

theorem hit (h : c.Counted price) : c.hit.Counted price :=
  ⟨h.enabled, h.keys_nodup, h.misses, h.score⟩

theorem made (h : c.Counted price) {query key : String} (hk : key ∉ c.plans.keys)
    (hp : price key = complexity query) (plan : Plan) :
    ((c.miss query).store key plan).Counted price := by
  have hkeys : ((c.miss query).store key plan).plans.keys = c.plans.keys ++ [key] := by
    rw [store_plans, miss_plans, Table.keys_put, if_neg hk]
  refine ⟨h.enabled, Table.nodup_keys_put h.keys_nodup, ?_, ?_⟩
  · rw [hkeys, List.length_append, ← h.misses]
    rfl
  · rw [hkeys, total_append, ← h.score, total, total, hp]
    rfl

theorem notMem_of_lookup? (h : c.Counted price) {key : String} (hl : c.lookup? key = none) :
    key ∉ c.plans.keys := by
  rwa [lookup?_of_enabled h.enabled, Table.get?_eq_none_iff] at hl

theorem gather (h : g.cache.Counted price) {select : String}
    (hp : price select = complexity select) : (gather g select).cache.Counted price := by
  cases hl : g.cache.lookup? select with
  | some plan =>
    rw [gather_stored hl]
    exact h.hit
  | none =>
    rw [gather_missing hl]
    exact h.made (h.notMem_of_lookup? hl) hp _

theorem fold_gather {selects : List String} (h : g.cache.Counted price)
    (hp : ∀ select ∈ selects, price select = complexity select) :
    (selects.foldl Cache.gather g).cache.Counted price := by
  induction selects generalizing g with
  | nil => exact h
  | cons select selects ih =>
    exact ih (h.gather (hp select List.mem_cons_self)) fun s hs ↦ hp s (List.mem_cons_of_mem _ hs)

theorem answer (hq : Layered queries) (hprice : Prices queries price) (hn : Asked queries n)
    (h : c.Counted price) : (c.answer n).2.Counted price := by
  obtain ⟨plan, -, ha⟩ | ⟨hl, hp, ha⟩ | ⟨hl, hp, ha⟩ := answer_cases c n
  · rw [ha]
    exact h.hit
  · rw [ha]
    exact h.made (h.notMem_of_lookup? hl) (hprice.plain n hn hp) _
  · rw [ha, nested, fold_gather_rest]
    have hg := fold_gather (g := ⟨c, n.full, [], 0⟩) h (hprice.leaf n hn)
    refine hg.made ?_ (hprice.nested n hn hp) _
    -- the text of the query is none of its selects, so they have not been stored in its place
    rw [← Table.get?_eq_none_iff, fold_gather_get?, if_neg (hq.inner n n hn hn hp)]
    rwa [lookup?_of_enabled h.enabled] at hl

end Counted

theorem mem_keys_answer_of_missing (hl : c.lookup? n.full = none) {key : String} :
    key ∈ (c.answer n).2.plans.keys ↔ key ∈ c.plans.keys ∨ key = n.full ∨ key ∈ n.leaves := by
  rw [Table.mem_keys_iff, answer_get?_of_missing hl]
  by_cases hf : n.full = key
  · simp [hf]
  · by_cases hm : key ∈ n.leaves
    · simp [hf, hm]
    · simp [hf, hm, Ne.symm hf, Table.mem_keys_iff]

/-- Whatever query is stored, its selects are stored too. -/
def Complete (queries : String → Prop) (c : Cache) : Prop :=
  ∀ n, Asked queries n → n.full ∈ c.plans.keys → ∀ key ∈ n.leaves, key ∈ c.plans.keys

/-- A query adds its text and its selects to the keys, if they are not there. -/
theorem Complete.mem_keys_answer_iff (h : c.Complete queries) (hn : Asked queries n)
    {key : String} :
    key ∈ (c.answer n).2.plans.keys ↔ key ∈ c.plans.keys ∨ key = n.full ∨ key ∈ n.leaves := by
  cases hl : c.lookup? n.full with
  | none => exact mem_keys_answer_of_missing hl
  | some plan =>
    have hf : n.full ∈ c.plans.keys := Table.mem_keys_iff.2 ⟨plan, get?_of_lookup? hl⟩
    rw [answer_stored hl, hit_plans]
    constructor
    · exact .inl
    · rintro (hk | rfl | hk)
      · exact hk
      · exact hf
      · exact h n hn hf key hk

theorem Complete.answer (hq : Layered queries) (h : c.Complete queries) (hn : Asked queries n) :
    (c.answer n).2.Complete queries := by
  intro m hm hf key hk
  rw [h.mem_keys_answer_iff hn] at hf ⊢
  rcases hf with hf | he | hf
  · exact .inl (h m hm hf key hk)
  · rw [hq.same m n hm hn he] at hk
    exact .inr (.inr hk)
  · -- an inner select that is a query of its own has no select but itself
    have hp : m.Plain := Decidable.byContradiction fun hp ↦ hq.inner m n hm hn hp hf
    rcases hp with hp | hp
    · rw [hp, List.mem_singleton] at hk
      exact .inr (.inr (hk ▸ hf))
    · rw [hp] at hk
      cases hk

theorem ofString_star :
    (Normal.ofString "SELECT *").toOption =
      some ⟨"SELECT *", ["SELECT *"], "SELECT *", []⟩ := by
  have hb := Buffer.ofString_of_scan scan_star rfl parsed_star
  exact Normal.ofString_of_query "SELECT *" hb hb (by decide +kernel) (by decide +kernel)
    (by decide +kernel)

end Cache

end PlanCache
