import PlanCache.Proofs.History

/-!
The plans of the inner selects of a query: what going through them leaves of the text of the query,
what it adds to the cache, and which plan it finds for each of them.
-/

namespace PlanCache

namespace Table

variable {κ α : Type _} [DecidableEq κ] {t : Table κ α} {k k' : κ} {a : α}

theorem mem_of_get? (h : t.get? k = some a) : (k, a) ∈ t := by
  induction t with
  | nil => cases h
  | cons e t ih =>
    obtain ⟨j, b⟩ := e
    unfold get? at h
    split at h
    case isTrue hj => cases h; simp [hj]
    case isFalse => exact List.mem_cons_of_mem _ (ih h)

theorem mem_keys_iff : k ∈ t.keys ↔ ∃ a, t.get? k = some a := by
  rw [← Option.isSome_iff_exists, Option.isSome_iff_ne_none, ne_eq, get?_eq_none_iff,
    Decidable.not_not]

theorem mem_put {e : κ × α} (h : e ∈ t.put k a) : e = (k, a) ∨ e ∈ t := by
  induction t with
  | nil => exact .inl (List.mem_singleton.1 h)
  | cons d t ih =>
    unfold put at h
    split at h
    · obtain h | h := List.mem_cons.1 h
      · exact .inl h
      · exact .inr (List.mem_cons_of_mem _ h)
    · obtain h | h := List.mem_cons.1 h
      · exact .inr (h ▸ List.mem_cons_self)
      · exact (ih h).imp_right (List.mem_cons_of_mem _)

theorem mem_keys_put : k' ∈ (t.put k a).keys ↔ k' = k ∨ k' ∈ t.keys := by
  rw [keys_put]
  split
  case isTrue h => exact ⟨.inr, fun h' ↦ h'.elim (fun e ↦ e ▸ h) id⟩
  case isFalse => rw [List.mem_append, List.mem_singleton, or_comm]

theorem nodup_keys_put (h : t.keys.Nodup) : (t.put k a).keys.Nodup := by
  rw [keys_put]
  split
  case isTrue => exact h
  case isFalse hk =>
    refine List.nodup_append.2 ⟨h, by simp, fun j hj l hl ↦ ?_⟩
    rw [List.mem_singleton.1 hl]
    exact fun e ↦ hk (e ▸ hj)

theorem length_keys_put_le : (t.put k a).keys.length ≤ t.keys.length + 1 := by
  rw [keys_put]
  split <;> simp

end Table

namespace Cache

variable {c : Cache} {n : Normal} {g : Gathered} {select : String}

theorem gather_stored {plan : Plan} (h : g.cache.lookup? select = some plan) :
    gather g select =
      ⟨g.cache.hit, cutOut select g.rest, g.plans.put select plan, g.hits + 2⟩ := by
  simp only [gather, h]

theorem gather_missing (h : g.cache.lookup? select = none) :
    gather g select =
      ⟨(g.cache.miss select).store select (.text (planText select)), cutOut select g.rest,
        g.plans.put select (.text (planText select)), g.hits⟩ := by
  simp only [gather, h]

theorem gather_rest (g : Gathered) (select : String) :
    (gather g select).rest = cutOut select g.rest := by
  cases h : g.cache.lookup? select with
  | some plan => rw [gather_stored h]
  | none => rw [gather_missing h]

theorem fold_gather_invariant {P : Gathered → Prop} (step : ∀ g select, P g → P (gather g select))
    (selects : List String) (h : P g) : P (selects.foldl gather g) := by
  induction selects generalizing g with
  | nil => exact h
  | cons select selects ih => exact ih (step g select h)

theorem fold_gather_rest (selects : List String) (g : Gathered) :
    (selects.foldl gather g).rest =
      selects.foldl (fun text select ↦ cutOut select text) g.rest := by
  induction selects generalizing g with
  | nil => rfl
  | cons select selects ih => rw [List.foldl_cons, ih, gather_rest, List.foldl_cons]

theorem gather_enabled (g : Gathered) (select : String) :
    (gather g select).cache.enabled = g.cache.enabled := by
  cases h : g.cache.lookup? select with
  | some plan => rw [gather_stored h, hit_enabled]
  | none => rw [gather_missing h, store_enabled, miss_enabled]

theorem gather_get?_of_ne {key : String} (hne : select ≠ key) :
    (gather g select).cache.plans.get? key = g.cache.plans.get? key := by
  cases h : g.cache.lookup? select with
  | some plan => rw [gather_stored h, hit_plans]
  | none => rw [gather_missing h, store_plans, Table.get?_put, if_neg hne, miss_plans]

theorem gather_lookup?_of_ne {key : String} (hne : select ≠ key) :
    (gather g select).cache.lookup? key = g.cache.lookup? key := by
  rw [lookup?, lookup?, gather_enabled, gather_get?_of_ne hne]

/-- The plan that is found for an inner select: a stored one, or else one that is made for it. -/
def found (c : Cache) (select : String) : Plan :=
  (c.lookup? select).getD (.text (planText select))

theorem gather_get?_self (g : Gathered) (select : String) :
    (gather g select).cache.plans.get? select = some (g.cache.found select) := by
  unfold found
  cases h : g.cache.lookup? select with
  | some plan => rw [gather_stored h]; exact get?_of_lookup? h
  | none => rw [gather_missing h, store_plans, Table.get?_put, if_pos rfl, Option.getD_none]

theorem gather_found_self (g : Gathered) (select : String) :
    (gather g select).cache.found select = g.cache.found select := by
  have hs := gather_get?_self g select
  cases he : g.cache.enabled with
  | true => rw [found, lookup?, gather_enabled, he, if_pos rfl, hs, Option.getD_some]
  | false => rw [found, found, lookup?, lookup?, gather_enabled, he]; rfl

theorem gather_plans (g : Gathered) (select : String) :
    (gather g select).plans = g.plans.put select (g.cache.found select) := by
  unfold found
  cases h : g.cache.lookup? select with
  | some plan => rw [gather_stored h, Option.getD_some]
  | none => rw [gather_missing h, Option.getD_none]

theorem gather_found (g : Gathered) (select key : String) :
    (gather g select).cache.found key = g.cache.found key := by
  by_cases hk : select = key
  · subst hk
    exact gather_found_self g select
  · rw [found, found, gather_lookup?_of_ne hk]

/-- Afterwards there is a plan under each inner select, and the other plans are as before. -/
theorem fold_gather_get? (selects : List String) (g : Gathered) (key : String) :
    (selects.foldl gather g).cache.plans.get? key =
      if key ∈ selects then some (g.cache.found key) else g.cache.plans.get? key := by
  induction selects generalizing g with
  | nil => rfl
  | cons select selects ih =>
    rw [List.foldl_cons, ih, gather_found]
    by_cases hm : key ∈ selects
    · rw [if_pos hm, if_pos (List.mem_cons_of_mem _ hm)]
    · by_cases hk : select = key
      · subst hk
        rw [if_neg hm, if_pos List.mem_cons_self, gather_get?_self]
      · rw [if_neg hm, if_neg (by simp [hm, Ne.symm hk]), gather_get?_of_ne hk]

theorem fold_gather_plans {selects : List String} (hs : selects.Nodup)
    (hg : ∀ select ∈ selects, select ∉ g.plans.keys) :
    (selects.foldl gather g).plans =
      g.plans ++ selects.map fun select ↦ (select, g.cache.found select) := by
  induction selects generalizing g with
  | nil => simp
  | cons select selects ih =>
    obtain ⟨hm, hs⟩ := List.nodup_cons.1 hs
    have hp : (gather g select).plans = g.plans ++ [(select, g.cache.found select)] := by
      rw [gather_plans, Table.put_of_notMem (hg select List.mem_cons_self)]
    have hg' : ∀ s ∈ selects, s ∉ (gather g select).plans.keys := by
      intro s hmem hk
      rw [gather_plans, Table.mem_keys_put] at hk
      obtain he | hk := hk
      · exact hm (he ▸ hmem)
      · exact hg s (List.mem_cons_of_mem _ hmem) hk
    rw [List.foldl_cons, ih hs hg', hp]
    simp only [gather_found, List.append_assoc, List.singleton_append, List.map_cons]

/-- Answering a query is a sequence of hits and of misses after each of which a plan is stored. -/
theorem answer_invariant {P : Cache → Prop} (hit : ∀ c, P c → P c.hit)
    (made : ∀ c query key plan, P c → P ((c.miss query).store key plan)) (c : Cache) (n : Normal)
    (hc : P c) : P (c.answer n).2 := by
  have step : ∀ (g : Gathered) select, P g.cache → P (gather g select).cache := by
    intro g select hg
    cases h : g.cache.lookup? select with
    | some plan => rw [gather_stored h]; exact hit _ hg
    | none => rw [gather_missing h]; exact made _ _ _ _ hg
  obtain ⟨plan, -, h⟩ | ⟨-, -, h⟩ | ⟨-, -, h⟩ := answer_cases c n
  · rw [h]; exact hit c hc
  · rw [h]; exact made _ _ _ _ hc
  · rw [h]
    exact made _ _ _ _ (fold_gather_invariant (P := fun g ↦ P g.cache) step n.leaves hc)

theorem answer_enabled (c : Cache) (n : Normal) : (c.answer n).2.enabled = c.enabled :=
  answer_invariant (P := fun c' ↦ c'.enabled = c.enabled) (fun _ h ↦ h) (fun _ _ _ _ h ↦ h) c n rfl

end Cache

end PlanCache
