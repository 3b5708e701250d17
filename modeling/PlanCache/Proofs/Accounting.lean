import PlanCache.Proofs.Gathering

/-!
The books of a cache: every request is a hit or a miss, no more keys are stored than plans were
made, and every plan that was made has cost something.
-/

namespace PlanCache

theorem one_le_complexity (query : String) : 1 ≤ complexity query := Nat.le_max_left _ _

namespace Cache

/-- The counts and the stored plans fit together. -/
structure Balanced (c : Cache) : Prop where
  requests : c.requests = c.hits + c.misses
  keys_nodup : c.plans.keys.Nodup
  keys_le : c.plans.keys.length ≤ c.misses
  misses_le : c.misses ≤ c.score

namespace Balanced

variable {c : Cache}

theorem new : ({} : Cache).Balanced := ⟨rfl, List.nodup_nil, Nat.le_refl 0, Nat.le_refl 0⟩

theorem hit (h : c.Balanced) : c.hit.Balanced where
  requests := by have hr := h.requests; simp only [Cache.hit]; omega
  keys_nodup := h.keys_nodup
  keys_le := h.keys_le
  misses_le := h.misses_le

theorem miss_store (h : c.Balanced) (query key : String) (plan : Plan) :
    ((c.miss query).store key plan).Balanced where
  requests := by have hr := h.requests; simp only [store, miss]; omega
  keys_nodup := Table.nodup_keys_put h.keys_nodup
  keys_le := Nat.le_trans Table.length_keys_put_le (Nat.add_le_add_right h.keys_le 1)
  misses_le := Nat.add_le_add h.misses_le (one_le_complexity query)

theorem use (h : c.Balanced) (enabled : Bool) : (c.use enabled).Balanced :=
  ⟨h.requests, h.keys_nodup, h.keys_le, h.misses_le⟩

theorem clear (h : c.Balanced) : c.clear.Balanced :=
  ⟨h.requests, List.nodup_nil, Nat.zero_le _, h.misses_le⟩

theorem answer (h : c.Balanced) (n : Normal) : (c.answer n).2.Balanced :=
  answer_invariant (fun _ h ↦ h.hit) (fun _ q k p h ↦ h.miss_store q k p) c n h

theorem act (h : c.Balanced) (a : Action) : (c.act a).Balanced :=
  act_invariant (fun _ _ n _ h ↦ h.answer n) (fun _ b h ↦ h.use b) (fun _ h ↦ h.clear) c a h

end Balanced

end Cache

end PlanCache
