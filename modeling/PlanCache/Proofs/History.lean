import PlanCache.Plan.Cache

/-!
What a cache has become after any sequence of queries, of switching the use of stored plans and of
clearing, and the ways in which one query can be answered.
-/

namespace PlanCache

/-- What can be done to a cache. -/
inductive Action where
  | query (sql : String)
  | use (enabled : Bool)
  | clear

/-- A query with no inner select, or with none but itself. -/
def Normal.Plain (n : Normal) : Prop := n.leaves = [n.full] ∨ n.leaves = []

instance (n : Normal) : Decidable n.Plain := inferInstanceAs (Decidable (_ ∨ _))

namespace Cache

/-- What a query leaves behind: the cache as it was if there was no answer. -/
def left (c : Cache) : Except RangeError (Answer × Cache) → Cache
  | .ok (_, c') => c'
  | .error _ => c

/-- The cache after an action. -/
def act (c : Cache) : Action → Cache
  | .query sql => c.left (c.fetch sql)
  | .use enabled => c.use enabled
  | .clear => c.clear

/-- The cache that a new one has become. -/
def after (history : List Action) : Cache := history.foldl act {}

/-- A new cache can become this one. -/
def Reachable (c : Cache) : Prop := ∃ history, after history = c

variable {c : Cache} {n : Normal}

theorem fold_act_invariant {P : Cache → Prop} (step : ∀ c a, P c → P (c.act a))
    (history : List Action) (hc : P c) : P (history.foldl act c) := by
  induction history generalizing c with
  | nil => exact hc
  | cons a history ih => exact ih (step c a hc)

theorem Reachable.invariant {P : Cache → Prop} (start : P {}) (step : ∀ c a, P c → P (c.act a))
    (h : c.Reachable) : P c := by
  obtain ⟨history, rfl⟩ := h
  exact fold_act_invariant step history start

section Fields

variable (c : Cache) (query key : String) (plan : Plan)

@[simp] theorem hit_plans : c.hit.plans = c.plans := rfl
@[simp] theorem hit_enabled : c.hit.enabled = c.enabled := rfl
@[simp] theorem miss_plans : (c.miss query).plans = c.plans := rfl
@[simp] theorem miss_enabled : (c.miss query).enabled = c.enabled := rfl
@[simp] theorem store_plans : (c.store key plan).plans = c.plans.put key plan := rfl
@[simp] theorem store_enabled : (c.store key plan).enabled = c.enabled := rfl

end Fields

theorem get?_of_lookup? {key : String} {plan : Plan} (h : c.lookup? key = some plan) :
    c.plans.get? key = some plan := by
  unfold lookup? at h
  split at h
  · exact h
  · cases h

theorem lookup?_of_enabled (h : c.enabled = true) (key : String) :
    c.lookup? key = c.plans.get? key := if_pos h

theorem fetch_eq_ok_iff {sql : String} {r : Answer × Cache} :
    c.fetch sql = .ok r ↔ ∃ n, Normal.ofString sql = .ok n ∧ c.answer n = r := by
  unfold fetch
  cases Normal.ofString sql <;> simp [Except.map]

theorem fetch_of_ok {sql : String} (h : Normal.ofString sql = .ok n) :
    c.fetch sql = .ok (c.answer n) := fetch_eq_ok_iff.2 ⟨n, h, rfl⟩

theorem fetch_eq_error_iff {sql : String} {e : RangeError} :
    c.fetch sql = .error e ↔ Normal.ofString sql = .error e := by
  unfold fetch
  cases Normal.ofString sql <;> simp [Except.map]

theorem act_query_of_ok {sql : String} (h : Normal.ofString sql = .ok n) :
    c.act (.query sql) = (c.answer n).2 := by
  rw [act, fetch_of_ok h, left]

theorem act_query_of_error {sql : String} {e : RangeError} (h : Normal.ofString sql = .error e) :
    c.act (.query sql) = c := by
  have hf : c.fetch sql = .error e := fetch_eq_error_iff.2 h
  rw [act, hf, left]

/-- What answering keeps, every action keeps that switching and clearing keep. -/
theorem act_invariant {P : Cache → Prop}
    (answer : ∀ c sql n, Normal.ofString sql = .ok n → P c → P (c.answer n).2)
    (use : ∀ c enabled, P c → P (c.use enabled)) (clear : ∀ c, P c → P c.clear) (c : Cache)
    (a : Action) (hc : P c) : P (c.act a) := by
  cases a with
  | query sql =>
    cases h : Normal.ofString sql with
    | ok n => rw [act_query_of_ok h]; exact answer c sql n h hc
    | error e => rw [act_query_of_error h]; exact hc
  | use enabled => exact use c enabled hc
  | clear => exact clear c hc

theorem answer_stored {plan : Plan} (h : c.lookup? n.full = some plan) :
    c.answer n = (⟨plan, n.literals, 1⟩, c.hit) := by
  unfold answer single
  split <;> simp only [h]

theorem answer_plain (h : c.lookup? n.full = none) (hn : n.Plain) :
    c.answer n = (⟨.text (planText n.full), n.literals, 0⟩,
      (c.miss n.full).store n.full (.text (planText n.full))) := by
  have hn' : (n.leaves = [n.full] || n.leaves.isEmpty) = true := by
    simpa [Normal.Plain] using hn
  unfold answer single
  rw [if_pos hn', h]

theorem answer_nested (h : c.lookup? n.full = none) (hn : ¬n.Plain) : c.answer n = c.nested n := by
  have hn' : ¬(n.leaves = [n.full] || n.leaves.isEmpty) = true := by
    simpa [Normal.Plain] using hn
  unfold answer
  rw [if_neg hn', h]

/-- A query is answered by a stored plan, by a plan of its own, or by one with inner plans. -/
theorem answer_cases (c : Cache) (n : Normal) :
    (∃ plan, c.lookup? n.full = some plan ∧ c.answer n = (⟨plan, n.literals, 1⟩, c.hit)) ∨
    (c.lookup? n.full = none ∧ n.Plain ∧
      c.answer n = (⟨.text (planText n.full), n.literals, 0⟩,
        (c.miss n.full).store n.full (.text (planText n.full)))) ∨
    (c.lookup? n.full = none ∧ ¬n.Plain ∧ c.answer n = c.nested n) := by
  cases h : c.lookup? n.full with
  | some plan => exact .inl ⟨plan, rfl, answer_stored h⟩
  | none =>
    by_cases hn : n.Plain
    · exact .inr (.inl ⟨rfl, hn, answer_plain h hn⟩)
    · exact .inr (.inr ⟨rfl, hn, answer_nested h hn⟩)

end Cache

end PlanCache
