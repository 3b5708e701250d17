import PlanCache.Proofs.Gathering
import PlanCache.Proofs.NormalForm
import PlanCache.Proofs.TextEnds

/-!
The form of stored plans. Under every key there is the plan of that text, or the plan of another
text together with plans of inner selects, each of which has this form again.
-/

namespace PlanCache

/-- The plan of a text: the text of a plan made for it, or one made for what is left of it beside a
table of plans for the selects that were cut out. -/
inductive Plan.WellFormed : String → Plan → Prop where
  | text (key : String) : WellFormed key (.text (planText key))
  | table (key rest : String) (inner : Table String Plan) (hrest : rest ≠ innerKey)
      (hne : inner ≠ []) (hkeys : inner.keys.Nodup)
      (hinner : ∀ key plan, (key, plan) ∈ inner → WellFormed key plan) :
      WellFormed key (.table [(rest, .text (planText rest)), (innerKey, .table inner)])

/-- Every plan of a table is one of its key. -/
def Table.WellFormed (t : Table String Plan) : Prop :=
  ∀ key plan, (key, plan) ∈ t → plan.WellFormed key

namespace Table.WellFormed

variable {t : Table String Plan} {key : String} {plan : Plan}

theorem nil : Table.WellFormed [] := by
  intro key plan h
  cases h

theorem put (h : t.WellFormed) (hp : plan.WellFormed key) : (t.put key plan).WellFormed := by
  intro k p hm
  obtain he | hm := mem_put hm
  · cases he
    exact hp
  · exact h k p hm

end Table.WellFormed

namespace Cache

variable {c : Cache} {n : Normal} {sql : String}

theorem wellFormed_of_lookup? {key : String} {plan : Plan} (hc : c.plans.WellFormed)
    (h : c.lookup? key = some plan) : plan.WellFormed key :=
  hc key plan (Table.mem_of_get? (get?_of_lookup? h))

/-- What has been gathered is in order: the stored plans, and the plans of the inner selects. -/
structure Gathered.Sound (g : Gathered) : Prop where
  stored : g.cache.plans.WellFormed
  inner : g.plans.WellFormed
  keys_nodup : g.plans.keys.Nodup

theorem Gathered.Sound.gather {g : Gathered} (h : g.Sound) (select : String) :
    (gather g select).Sound := by
  cases hl : g.cache.lookup? select with
  | some plan =>
    rw [gather_stored hl]
    have hp := wellFormed_of_lookup? h.stored hl
    exact ⟨h.stored, h.inner.put hp, Table.nodup_keys_put h.keys_nodup⟩
  | none =>
    rw [gather_missing hl]
    have hp := Plan.WellFormed.text select
    exact ⟨h.stored.put hp, h.inner.put hp, Table.nodup_keys_put h.keys_nodup⟩

theorem mem_keys_gather {g : Gathered} {key select : String}
    (h : key = select ∨ key ∈ g.plans.keys) : key ∈ (gather g select).plans.keys := by
  cases hl : g.cache.lookup? select with
  | some plan => rw [gather_stored hl]; exact Table.mem_keys_put.2 h
  | none => rw [gather_missing hl]; exact Table.mem_keys_put.2 h

theorem fold_gather_plans_ne_nil {selects : List String} (h : selects ≠ []) (g : Gathered) :
    (selects.foldl gather g).plans ≠ [] := by
  obtain ⟨select, selects, rfl⟩ := List.exists_cons_of_ne_nil h
  have hk : select ∈ (selects.foldl gather (gather g select)).plans.keys :=
    fold_gather_invariant (P := fun g ↦ select ∈ g.plans.keys)
      (fun _ _ hm ↦ mem_keys_gather (.inr hm)) selects (mem_keys_gather (.inl rfl))
  intro he
  rw [List.foldl_cons] at he
  rw [he] at hk
  cases hk

theorem endsBare_full (h : Normal.ofString sql = .ok n) : Text.EndsBare n.full.toList := by
  obtain ⟨b, hb⟩ := Normal.full_eq_rebuild h
  exact hb ▸ b.endsBare_rebuild

/-- Answering keeps the stored plans in order and gives a plan of the text that was asked for. -/
theorem answer_wellFormed (hc : c.plans.WellFormed) (h : Normal.ofString sql = .ok n) :
    (c.answer n).1.plan.WellFormed n.full ∧ (c.answer n).2.plans.WellFormed := by
  obtain ⟨plan, hl, ha⟩ | ⟨-, -, ha⟩ | ⟨-, hn, ha⟩ := answer_cases c n
  · rw [ha]
    exact ⟨wellFormed_of_lookup? hc hl, hc⟩
  · rw [ha]
    exact ⟨.text n.full, hc.put (.text n.full)⟩
  · rw [ha, nested]
    have hg : (n.leaves.foldl gather ⟨c, n.full, [], 0⟩).Sound :=
      fold_gather_invariant (fun _ select h ↦ h.gather select) n.leaves ⟨hc, .nil, List.nodup_nil⟩
    have hne := fold_gather_plans_ne_nil (fun he ↦ hn (.inr he)) ⟨c, n.full, [], 0⟩
    have hrest : (n.leaves.foldl gather ⟨c, n.full, [], 0⟩).rest ≠ innerKey := by
      rw [fold_gather_rest]
      exact ne_innerKey (endsBare_fold_cutOut n.leaves (endsBare_full h))
    generalize n.leaves.foldl gather ⟨c, n.full, [], 0⟩ = g at hg hne hrest ⊢
    have hp : (Plan.table (Table.put innerKey (.table g.plans)
        [(g.rest, .text (planText g.rest))])).WellFormed n.full := by
      rw [Table.put, if_neg hrest, Table.put]
      exact .table n.full g.rest g.plans hrest hne hg.keys_nodup hg.inner
    exact ⟨hp, hg.stored.put hp⟩

theorem Reachable.wellFormed (h : c.Reachable) : c.plans.WellFormed := by
  refine h.invariant (P := fun c ↦ c.plans.WellFormed) .nil fun c a hc ↦ ?_
  exact act_invariant (P := fun c ↦ c.plans.WellFormed)
    (fun _ _ _ hn hc ↦ (answer_wellFormed hc hn).2) (fun _ _ hc ↦ hc) (fun _ _ ↦ .nil) c a hc

/-- In whatever state a cache is, each of its plans is well formed for its key, and the plan with
which a query is answered is well formed for the text of the query without its literals. -/
theorem reachable_plans_wellFormed (c : Cache) (h : c.Reachable) :
    (∀ key plan, (key, plan) ∈ c.plans → plan.WellFormed key) ∧
    ∀ sql answer c', c.fetch sql = .ok (answer, c') →
      ∃ full, normalize sql = .ok full ∧ answer.plan.WellFormed full := by
  refine ⟨h.wellFormed, fun sql answer c' hf ↦ ?_⟩
  obtain ⟨n, hn, ha⟩ := fetch_eq_ok_iff.1 hf
  have hp := (answer_wellFormed h.wellFormed hn).1
  rw [ha] at hp
  exact ⟨n.full, Normal.normalize_of_ofString hn, hp⟩

theorem plans_wellFormed_after_nested :
    let c := after [.query "SELECT a FROM t WHERE b IN (SELECT c FROM u)", .use false,
      .query "SELECT c FROM u WHERE d > (SELECT 1)", .clear, .use true, .query "SELECT c FROM u"]
    ∀ key plan, (key, plan) ∈ c.plans → plan.WellFormed key :=
  (reachable_plans_wellFormed _ ⟨_, rfl⟩).1

end Cache

end PlanCache
